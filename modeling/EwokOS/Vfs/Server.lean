import EwokOS.Schemes.Run
import EwokOS.Vfs.Table

/-! The requests `vfsd` serves (`handlers.c`, `proc_handlers.c`).

    Every request that writes runs under the write lock, so that a run is a sequence of whole requests,
    with what happens outside in between: the kernel changes what it tells of a task, a listing that was
    asked for arrives from a driver, a child that was dead when it was cloned is reaped. A request that is
    refused leaves the state as it is. -/

namespace EwokOS.Vfs

/-- `VFS_UPDATE_METADATA`, `VFS_UPDATE_DATA` and the numbers that mean nothing. -/
inductive Update where
  | metadata
  | data
  | other
  deriving DecidableEq

inductive Op where
  | kernel (pid : ℕ) (t : Task)
  | applyKids (father mountPid : ℕ) (infos : List Info)
  | setLoaded (father : ℕ)
  | reap (cpid : ℕ)
  | newNode (pid : ℕ) (i : Info) (dir : ℕ) (nodeOnly writeOver createOpen : Bool)
  | newNodes (pid dir : ℕ) (infos : List Info)
  | delNode (pid n : ℕ)
  | mount (pid org n : ℕ)
  | umount (pid n : ℕ)
  | setFsinfo (pid n : ℕ) (i : Info) (kind : Update)
  | setByFd (pid k : ℕ) (i : Info)
  | openNode (pid n : ℕ) (fl : Flags)
  | close (pid k : ℕ)
  | dup (pid k : ℕ)
  | dup2 (pid k j : ℕ)
  | procClone (pid fpid cpid : ℕ)
  | procExit (pid cpid : ℕ)
  | block (pid n : ℕ) (rd wr : Bool)
  | unblock (pid n : ℕ)
  deriving DecidableEq

namespace Vfsd
variable (s : Vfsd)

/-- A new node in the list of `dir`, or in none. -/
def create (dir : ℕ) (x : Node) : Vfsd :=
  match s.newNode x with
  | none => s
  | some (t, n) => if dir = 0 then t else t.addNode dir n

/-- `do_vfs_new_node`. -/
def doNewNode (pid : ℕ) (i : Info) (dir : ℕ) (nodeOnly writeOver createOpen : Bool) : Vfsd :=
  let cred := (s.task pid).cred
  let x := { Node.fresh i.terminate with
    create := if createOpen then cred.map fun c => (pid, c.uuid) else none }
  if createOpen ∧ cred.isNone then s
  else if dir = 0 then s.create 0 x
  else
    match s.node dir with
    | none => s
    | some f =>
      if ¬nodeOnly ∧ ¬(s.checkAccess pid f.info .write ∧ s.checkAccess pid f.info .exec) then s
      else
        match s.findKidRaw dir i.terminate.name with
        | none => s.create dir x
        | some n =>
          match s.node n with
          | none => s
          | some y =>
            if writeOver ∧ s.checkAccess pid y.info .write then
              s.modify n fun y => { y with info := i.terminate }
            else s

/-- One round of `do_vfs_new_nodes`. -/
def addKid (dir : ℕ) (s : Vfsd) (i : Info) : Vfsd := s.create dir (.fresh i.terminate)

/-- `do_vfs_new_nodes`. The loop ends when a node cannot be made, and then no further one can. -/
def doNewNodes (pid dir : ℕ) (infos : List Info) : Vfsd :=
  match s.node dir with
  | none => s
  | some f =>
    if s.checkAccess pid f.info .write ∧ s.checkAccess pid f.info .exec then infos.foldl (addKid dir) s
    else s

/-- One round of `vfs_commit_kids_to_node`. -/
def commitKid (father : ℕ) (s : Vfsd) (i : Info) : Vfsd :=
  if (s.findKidRaw father i.terminate.name).isSome then s else s.create father (.fresh i.terminate)

/-- `vfs_set_kids_loaded`. -/
def setKidsLoaded (n : ℕ) : Vfsd :=
  s.modify n fun x => if x.info.type.base = .dir then { x with info := { x.info with loaded := true } } else x

/-- `vfs_apply_driver_kids_job_locked`, for a listing that has arrived. -/
def applyKids (father mountPid : ℕ) (infos : List Info) : Vfsd :=
  match s.node father with
  | none => s
  | some f =>
    if f.info.type.base = .dir ∧ s.getMountPid father = some mountPid then
      (infos.foldl (commitKid father) s).setKidsLoaded father
    else s

/-- The end of `do_vfs_open`, when the access has been granted. -/
def grant (pid n : ℕ) (anon : Bool) (fl : Flags) : Vfsd :=
  if anon then
    match s.openAnonymous pid n with
    | none => s
    | some (t, m) =>
      match t.vfsdOpen pid m fl with
      -- no descriptor is free: the node that has been made stays
      | none => t
      | some (u, _) => u
  else
    match s.vfsdOpen pid n fl with
    | none => s
    | some (u, _) => u

/-- An `open(O_CREAT)` of the process that has just made the node. -/
def createPending (pid : ℕ) (x : Node) : Bool :=
  match x.create, (s.task pid).cred with
  | some (p, u), some c => p = pid && u = c.uuid
  | _, _ => false

/-- The access an open asks for, which the creator of a node has once without asking. -/
def granted (pid : ℕ) (x : Node) (fl : Flags) : Bool :=
  s.createPending pid x && fl.creat ||
    (!fl.write || s.checkAccess pid x.info .write) && (fl.wronly || s.checkAccess pid x.info .read)

/-- `do_vfs_open`. -/
def doOpen (pid n : ℕ) (fl : Flags) : Vfsd :=
  match s.node n with
  | none => s
  | some x =>
    let t := if s.createPending pid x then s.modify n fun x => { x with create := none } else s
    if s.granted pid x fl then t.grant pid n x.info.type.anon fl else t

/-- Who may change the metadata: the owner, and a privileged user also the ownership. -/
def mayUpdate (pid : ℕ) (x i : Info) : Bool :=
  if i.uid ≠ x.uid ∨ i.gid ≠ x.gid then s.isSys pid else s.checkOwner pid x

/-- `do_vfs_set_fsinfo`. -/
def doSetFsinfo (pid n : ℕ) (i : Info) (kind : Update) : Vfsd :=
  match s.node n with
  | none => s
  | some x =>
    match kind with
    | .other => s
    | .data =>
      if s.checkOwner pid x.info || s.checkAccess pid x.info .write then
        s.setNodeInfo n { i with uid := x.info.uid, gid := x.info.gid, mode := x.info.mode }
      else s
    | .metadata =>
      if s.mayUpdate pid x.info i then
        (s.modify n fun x => { x with create := none }).setNodeInfo n i
      else s

/-- `do_vfs_set_by_fd`. -/
def doSetByFd (pid k : ℕ) (i : Info) : Vfsd :=
  match s.checkFd pid k with
  | none => s
  | some f => s.setFd (s.ownerPid pid) k (some { f with info := i.terminate })

/-- `S_ISVTX` of the father keeps others from deleting. -/
def sticky (pid : ℕ) (f x : Info) : Bool :=
  f.mode &&& 0o1000 ≠ 0 &&
    match (s.task pid).cred with
    | none => true
    | some c => 0 < c.uid && c.uid ≠ f.uid && c.uid ≠ x.uid

/-- Who may delete a node: its owner, who serves it, and who may write to the father. -/
def mayDelete (pid n : ℕ) (x : Node) : Bool :=
  let f := s.node x.father
  let serves := s.getMountPid n = some pid
  n ≠ s.root && (!f.any (fun f => s.sticky pid f.info x.info) || serves) &&
    (s.checkOwner pid x.info || serves || f.any fun f => s.checkAccess pid f.info .write)

/-- `do_vfs_del_node`. -/
def doDelNode (pid n : ℕ) : Vfsd :=
  match s.node n with
  | none => s
  | some x => if s.mayDelete pid n x then (s.delNode n).1 else s

/-- `do_vfs_mount`. -/
def doMount (pid org n : ℕ) : Vfsd :=
  match s.node org with
  | none => s
  | some o => if s.checkMountAccess pid o.info then (s.mount pid org n).getD s else s

/-- One step. -/
def step : Op → Option Vfsd
  | .kernel pid t => some { s with task := Function.update s.task pid t }
  | .applyKids father mountPid infos => some (s.applyKids father mountPid infos)
  | .setLoaded father => if (s.getMountPid father).getD 0 = 0 then some (s.setKidsLoaded father) else none
  | .reap cpid => if cpid ∈ s.reap then some (s.reapChild cpid) else none
  | .newNode pid i dir nodeOnly writeOver createOpen =>
    some (s.doNewNode pid i dir nodeOnly writeOver createOpen)
  | .newNodes pid dir infos => some (s.doNewNodes pid dir infos)
  | .delNode pid n => some (s.doDelNode pid n)
  | .mount pid org n => some (s.doMount pid org n)
  | .umount pid n => some (s.umount pid n)
  | .setFsinfo pid n i kind => some (s.doSetFsinfo pid n i kind)
  | .setByFd pid k i => some (s.doSetByFd pid k i)
  | .openNode pid n fl => some (s.doOpen pid n fl)
  | .close pid k => some (s.close pid k)
  | .dup pid k => some ((s.dup pid k).elim s Prod.fst)
  | .dup2 pid k j => some ((s.dup2 pid k j).getD s)
  | .procClone _ fpid cpid => some (s.procClone fpid cpid)
  | .procExit _ cpid => some (s.procExit cpid)
  | .block pid n rd wr => some (s.block pid n rd wr)
  | .unblock pid n => some (s.unblock pid n)

/-- `vfsd_init`, for a table of so many processes. -/
def init (max : ℕ) (task : ℕ → Task) : Vfsd where
  node := Function.update (fun _ => none) 1 (some (.fresh ⟨['/'], ⟨false, .unknown⟩, 0, 0, 0, 0, 0, false⟩))
  count := 1
  next := 2
  root := 1
  mnt := fun _ => none
  slot := fun _ => ⟨0, .unused⟩
  fd := fun _ _ => none
  wait := fun _ _ => ⟨0, 0⟩
  task := task
  max := max
  reap := []

end Vfsd
end EwokOS.Vfs
