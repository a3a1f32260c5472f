import EwokOS.Vfs.Node

/-! The mount table of `vfsd` (`mount.c`).

    A mounted root takes the place of the node it covers, which keeps its pointer to the father:

          father                     father <- - - - - org   (loose)
            |         --mount-->       |
           org                        node   mountId = id     mnt id = (pid, org, node)

    An umount takes `node` out and brings `org` back if it is a mounted root itself; a plain mount point
    is deleted. While the mounted root is open the umount waits for the last descriptor. -/

namespace EwokOS.Vfs

/-- A root that is mounted in a slot goes by the name of what it covers. -/
def Node.mounted (name : List Char) (i : ℕ) (x : Node) : Node :=
  { x with info := { x.info with name := name }, mountId := some i }

namespace Vfsd

variable (s : Vfsd)

/-- `vfs_get_mount_id`, so many levels up. -/
def climb : ℕ → ℕ → Option ℕ
  | 0, _ => none
  | k + 1, n =>
    match s.node n with
    | none => none
    | some x =>
      match x.mountId with
      | some i => some i
      | none => climb k x.father

/-- `get_mount_pid`. The slot of an id that is free holds 0. -/
def getMountPid (n : ℕ) : Option ℕ :=
  match s.climb (s.count + 1) n with
  | none => none
  | some i => if i < mountMax then some ((s.mnt i).elim 0 Mnt.pid) else none

/-- `check_mount`. -/
def checkMount (pid n : ℕ) : Bool :=
  s.getMountPid n = some pid ||
    match (s.task pid).cred with
    | none => false
    | some c => c.uid ≤ 0

/-- `vfs_get_free_mount_id`. -/
def getFreeMountId : Option ℕ := (List.range mountMax).find? fun i => (s.mnt i).isNone

/-- `vfsd_check_mount_access`. -/
def checkMountAccess (pid : ℕ) (org : Info) : Bool :=
  s.checkOwner pid org || s.checkAccess pid org .write

/-- `vfsd_mount`. -/
def mount (pid org n : ℕ) : Option Vfsd :=
  match s.node org, s.node n with
  | some o, some x =>
    if org = n ∨ x.mountId.isSome ∨ x.father ≠ 0 ∨ n = s.root ∨ (o.father = 0 ∧ org ≠ s.root) then none
    else
      match s.getFreeMountId with
      | none => none
      | some i =>
        let s := { s with mnt := Function.update s.mnt i (some ⟨pid, org, n, false⟩) }
        let s := s.modify n (.mounted o.info.name i)
        if o.father = 0 then some { s with root := n }
        else some ((s.remove org).addNode o.father n)
  | _, _ => none

/-- `vfs_umount_now`, up to the release of the slot: the mounted root goes, what it covers comes
    back or is deleted. -/
def uncover (n org : ℕ) : Vfsd :=
  match s.node n, s.node org with
  | some x, some o =>
    if x.father = 0 then { s with root := if n = s.root then org else s.root }
    else
      let s := s.remove n
      match o.mountId with
      | some _ => s.addNode x.father org
      | none => ((s.modify org fun o => { o with father := 0, loose := false }).delNode org).1
  | _, _ => s

/-- The slot is free again, and the root that was mounted belongs to none. -/
def release (i n : ℕ) : Vfsd :=
  { s with mnt := Function.update s.mnt i none }.modify n fun x => { x with mountId := none, pending := false }

/-- `vfs_umount_now`. -/
def umountNow (n : ℕ) : Vfsd :=
  match s.node n with
  | none => s
  | some x =>
    match x.mountId with
    | none => s
    | some i =>
      let org := (s.mnt i).elim 0 Mnt.org
      match s.node org with
      | none => s
      | some _ => (s.uncover n org).release i n

/-- `vfs_try_finish_umount`. -/
def tryFinishUmount (n : ℕ) : Vfsd :=
  match s.node n with
  | none => s
  | some x => if x.mountId.isSome ∧ x.pending ∧ x.refs = 0 ∧ x.refsW = 0 then s.umountNow n else s

/-- Detaching a mounted root now, or once it is closed. -/
def detach (n : ℕ) (x : Node) : Vfsd :=
  if 0 < x.refs ∨ 0 < x.refsW then s.modify n fun x => { x with pending := true } else s.umountNow n

/-- `vfsd_umount`. -/
def umount (pid n : ℕ) : Vfsd :=
  match s.node n with
  | none => s
  | some x => if x.mountId.isSome ∧ s.checkMount pid n then s.detach n x else s

/-- One round of `vfs_umount_by_pid`. -/
def umountSlot (pid : ℕ) (s : Vfsd) (i : ℕ) : Vfsd :=
  match s.mnt i with
  | none => s
  | some m =>
    if m.pid = pid then
      let s := { s with mnt := Function.update s.mnt i (some { m with left := true }) }
      match s.node m.root with
      | none => { s with mnt := Function.update s.mnt i none }
      | some x =>
        if x.mountId = some i then s.detach m.root x else { s with mnt := Function.update s.mnt i none }
    else s

/-- `vfs_umount_by_pid`. -/
def umountByPid (pid : ℕ) : Vfsd :=
  if pid = 0 then s else (List.range mountMax).foldl (umountSlot pid) s

end Vfsd
end EwokOS.Vfs
