import EwokOS.Vfs.Mount

/-! Descriptor tables and what processes do to them (`fd.c`, `pipe.c`, `proc.c`).

    A descriptor counts once in `refs` of its node, and once in `refs_w` if it may write. The last close
    of an anonymous node deletes it; the last close of a mounted root that is to be unmounted unmounts
    it:

        open --> refs+1      dup, fork --> refs+1      close, exit --> refs-1 --> deleted / unmounted

    A table belongs to a slot, which is taken over by the next process with that pid. -/

namespace EwokOS.Vfs

/-- The bits of the open flags that are looked at. -/
structure Flags where
  wronly : Bool
  rdwr : Bool
  creat : Bool
  trunc : Bool
  deriving DecidableEq

def Flags.write (f : Flags) : Bool := f.wronly || f.rdwr

/-- `MAX_PROC_NUM` of the table the kernel publishes. -/
def procMax : ℕ := 512

namespace Vfsd
variable (s : Vfsd)

/-- `proc_get_uuid`. -/
def getUuid (pid : ℕ) : ℕ := if pid < procMax then (s.task pid).uuid else 0

/-- The walk of `proc_getpid`. -/
def getpidFrom : ℕ → ℕ → Option ℕ
  | 0, _ => none
  | k + 1, p =>
    if procMax ≤ p ∨ (s.task p).uuid = 0 then none
    else if (s.task p).thread then getpidFrom k (s.task p).father
    else some p

/-- `vfs_fd_owner_pid`. -/
def ownerPid (pid : ℕ) : ℕ := (s.getpidFrom procMax pid).getD pid

/-- `vfs_check_fd`. -/
def checkFd (pid k : ℕ) : Option File :=
  if s.ownerPid pid < s.max ∧ k < fdMax then s.fd (s.ownerPid pid) k else none

def setFd (p k : ℕ) (f : Option File) : Vfsd :=
  { s with fd := Function.update s.fd p (Function.update (s.fd p) k f) }

/-- `get_free_fd`: 0, 1 and 2 are kept for the standard streams. -/
def getFreeFd (pid : ℕ) : Option ℕ :=
  let p := s.ownerPid pid
  if p < s.max then (List.range' 3 (fdMax - 3)).find? fun k => (s.fd p k).isNone else none

/-- One more descriptor of the node. -/
def hold (n : ℕ) (write : Bool) : Vfsd :=
  s.modify n fun x => { x with refs := x.refs + 1, refsW := if write then x.refsW + 1 else x.refsW }

/-- `vfsd_open`. -/
def vfsdOpen (pid n : ℕ) (fl : Flags) : Option (Vfsd × ℕ) :=
  let owner := s.ownerPid pid
  match s.node n with
  | none => none
  | some x =>
    if s.max ≤ owner then none
    else
      match s.getFreeFd owner with
      | none => none
      | some k =>
        let s := s.setFd owner k (some ⟨n, fl.write, x.info⟩)
        let s := if fl.trunc then s.modify n fun x => { x with info := { x.info with size := 0 } } else s
        some (s.hold n fl.write, k)

/-- A number stored in the 16 bits of `stat.uid`. -/
def toU16 (z : ℤ) : ℕ := (z % 65536).toNat

/-- The node `vfs_open_announimous` makes. -/
def copyOf (x : Node) (c : Cred) : Node :=
  { Node.fresh ⟨[], x.info.type, toU16 c.uid, toU16 c.gid, 0o700, 0, 0, false⟩ with
    mountId := x.mountId, copy := true }

/-- `vfs_open_announimous`. -/
def openAnonymous (pid n : ℕ) : Option (Vfsd × ℕ) :=
  match s.node n, (s.task pid).cred with
  | some x, some c => s.newNode (copyOf x c)
  | _, _ => none

/-- One descriptor of the node less. -/
def drop (n : ℕ) (write : Bool) : Vfsd :=
  s.modify n fun x => { x with refs := x.refs - 1, refsW := if write then x.refsW - 1 else x.refsW }

/-- What `proc_file_close` does when the counts are down. -/
def settle (n : ℕ) : Vfsd :=
  match s.node n with
  | none => s
  | some x => if x.info.type.anon ∧ x.refs = 0 then (s.delNode n).1 else s.tryFinishUmount n

/-- `proc_file_close`. -/
def fileClose (f : File) : Vfsd := (s.drop f.node f.write).settle f.node

/-- The descriptor is taken out of the table and closed. -/
def closeFd (p : ℕ) (s : Vfsd) (k : ℕ) : Vfsd :=
  match s.fd p k with
  | none => s
  | some f => (s.setFd p k none).fileClose f

/-- `vfsd_close`. -/
def close (pid k : ℕ) : Vfsd :=
  if fdMax ≤ k ∨ s.max ≤ s.ownerPid pid then s else closeFd (s.ownerPid pid) s k

/-- `vfsd_dup`. -/
def dup (pid k : ℕ) : Option (Vfsd × ℕ) :=
  let owner := s.ownerPid pid
  if s.max ≤ owner then none
  else
    match s.getFreeFd owner, s.checkFd owner k with
    | some j, some f => some ((s.setFd owner j (some f)).hold f.node f.write, j)
    | _, _ => none

/-- `vfsd_dup2`. -/
def dup2 (pid k j : ℕ) : Option Vfsd :=
  let owner := s.ownerPid pid
  match s.checkFd owner k with
  | none => none
  | some f =>
    if k = j then some s
    else
      let s := s.close owner j
      if j < fdMax then some ((s.setFd owner j (some f)).hold f.node f.write) else none

/-! ### Slots -/

/-- `vfs_remove_proc_waiters`. -/
def removeProcWaiters (pid uuid : ℕ) : Vfsd :=
  if uuid = 0 then s
  else { s with wait := fun p w =>
    if p = pid ∧ (s.wait p w).uuid = uuid then { s.wait p w with node := 0 } else s.wait p w }

/-- `vfs_reset_task_waiters`. -/
def resetTaskWaiters (pid : ℕ) : Vfsd :=
  { s with wait := fun p w => if p = pid then ⟨0, 0⟩ else s.wait p w }

def setSlot (pid : ℕ) (x : Slot) : Vfsd := { s with slot := Function.update s.slot pid x }

/-- `clear_zombie`. -/
def clearZombie (cpid : ℕ) : Vfsd :=
  let s := s.umountByPid cpid
  let s := s.removeProcWaiters cpid (s.slot cpid).uuid
  let s := (List.range fdMax).foldl (closeFd cpid) s
  s.setSlot cpid ⟨0, .unused⟩

/-- `vfs_proc_exit`. -/
def procExit (cpid : ℕ) : Vfsd :=
  if s.max ≤ cpid then s
  else if (s.slot cpid).uuid = 0 then (s.resetTaskWaiters cpid).clearZombie cpid
  else if s.getUuid cpid = (s.slot cpid).uuid then s
  else s.clearZombie cpid

/-- `vfs_track_task_slot`. -/
def trackTaskSlot (pid : ℕ) : Vfsd :=
  let uuid := s.getUuid pid
  if s.max ≤ pid ∨ uuid = 0 then s
  else
    let x := s.slot pid
    if x.state ≠ .unused ∧ x.uuid ≠ 0 ∧ x.uuid ≠ uuid then
      if x.state = .running ∧ s.ownerPid pid = pid then
        -- the process has called `exec`: its descriptors stay
        ((s.removeProcWaiters pid x.uuid).resetTaskWaiters pid).setSlot pid ⟨uuid, .running⟩
      else (s.clearZombie pid).setSlot pid ⟨uuid, .running⟩
    else s.setSlot pid ⟨uuid, .running⟩

/-- One round of the loop of `do_vfs_proc_clone`. -/
def cloneFd (fpid cpid : ℕ) (s : Vfsd) (k : ℕ) : Vfsd :=
  match s.fd fpid k with
  | none => s
  | some f => (s.setFd cpid k (some f)).hold f.node f.write

/-- The first part of `do_vfs_proc_clone`. -/
def procClone (fpid cpid : ℕ) : Vfsd :=
  if s.max ≤ fpid ∨ s.max ≤ cpid then s
  else
    let s := if (s.slot cpid).state = .unused then s else s.clearZombie cpid
    let uuid := s.getUuid cpid
    let s := s.setSlot cpid ⟨uuid, .running⟩
    let s := { s with reap := if uuid = 0 then cpid :: s.reap else s.reap }
    (List.range fdMax).foldl (cloneFd fpid cpid) s

/-- Its end, for a child that was dead. -/
def reapChild (cpid : ℕ) : Vfsd := { s.clearZombie cpid with reap := s.reap.erase cpid }

/-- `do_vfs_block`. An interest in neither reading nor writing is kept with the readers. -/
def block (pid n : ℕ) (rd wr : Bool) : Vfsd :=
  match s.node n with
  | none => s
  | some _ =>
    let s := s.trackTaskSlot pid
    let uuid := s.getUuid pid
    if uuid = 0 ∨ s.max ≤ pid then s
    else { s with wait := fun p w =>
      if p = pid ∧ (if w then wr else rd || !wr) then ⟨uuid, n⟩ else s.wait p w }

/-- `do_vfs_unblock`. -/
def unblock (pid n : ℕ) : Vfsd :=
  let uuid := s.getUuid pid
  if (s.node n).isNone ∨ uuid = 0 ∨ s.max ≤ pid then s
  else { s with wait := fun p w =>
    let e := s.wait p w
    if p = pid ∧ e.uuid = uuid ∧ e.node = n then { e with node := 0 } else e }

end Vfsd
end EwokOS.Vfs
