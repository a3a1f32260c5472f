import Mathlib.Algebra.Ring.Int.Defs
import Mathlib.Algebra.Ring.Nat
import Mathlib.Logic.Function.Basic
import Mathlib.Tactic.SplitIfs

/-! The state of `vfsd`, and its tree of nodes (`node.c`).

    A node is known by its id, which also stands for the pointer to it: 0 is `NULL`, and a node that has
    been freed is no longer there. Every node carries the links of two lists, its own kids and its
    brothers:

          father
            | first        last
            v                v
            a <---> b <---> c          next / prev

    `vfs_remove` takes a node out of the list of its father and leaves the pointer to the father, for a
    mount point that is covered and for the root of what has been unmounted. Such a node is `loose`. -/

namespace EwokOS.Vfs

inductive BaseType where
  | unknown
  | dir
  | file
  | link
  | pipe
  | char
  | block
  | other (n : ℕ)
  deriving DecidableEq

/-- The field `type` of `fsinfo_t`: `FS_TYPE_ANNOUNIMOUS` and the rest. -/
structure FsType where
  anon : Bool
  base : BaseType
  deriving DecidableEq

/-- `fsinfo_t`, less the fields `vfsd` fills in when it hands one out. -/
structure Info where
  name : List Char
  type : FsType
  uid : ℕ
  gid : ℕ
  mode : ℕ
  size : ℕ
  data : ℕ
  /-- `FS_STATE_KIDS_LOADED` -/
  loaded : Bool
  deriving DecidableEq

/-- `vfs_node_t`. -/
structure Node where
  father : ℕ
  first : ℕ
  last : ℕ
  next : ℕ
  prev : ℕ
  kids : ℤ
  info : Info
  mountId : Option ℕ
  pending : Bool
  refs : ℕ
  refsW : ℕ
  /-- The process and its generation whose `open(O_CREAT)` made the node. -/
  create : Option (ℕ × ℕ)
  /-- Taken out of the list of its father and not freed. -/
  loose : Bool
  /-- Made by the open of an anonymous node. -/
  copy : Bool
  deriving DecidableEq

/-- `vfs_node_init`, and the `fsinfo` the caller fills in. -/
def Node.fresh (i : Info) : Node := ⟨0, 0, 0, 0, 0, 0, i, none, false, 0, 0, none, false, false⟩

/-- A slot of the mount table and of the map back to the mounted root. -/
structure Mnt where
  pid : ℕ
  org : ℕ
  root : ℕ
  /-- The process that mounted it has exited. -/
  left : Bool
  deriving DecidableEq

/-- `file_t`: an open descriptor. -/
structure File where
  node : ℕ
  write : Bool
  info : Info
  deriving DecidableEq

inductive SlotState where
  | unused
  | running
  | zombie
  deriving DecidableEq

/-- `proc_fds_t`, less its descriptors and wait entries. -/
structure Slot where
  uuid : ℕ
  state : SlotState
  deriving DecidableEq

/-- `wait_entry_t`: the node it is queued at, if any. -/
structure Wait where
  uuid : ℕ
  node : ℕ
  deriving DecidableEq

/-- What `proc_info` tells. -/
structure Cred where
  uid : ℤ
  gid : ℤ
  uuid : ℕ
  deriving DecidableEq

/-- What the kernel publishes of a task: its generation, whether it is a thread and of what father,
    and whom it runs for. -/
structure Task where
  uuid : ℕ
  thread : Bool
  father : ℕ
  cred : Option Cred
  deriving DecidableEq

structure Vfsd where
  /-- `_nodes_hash` -/
  node : ℕ → Option Node
  count : ℕ
  next : ℕ
  root : ℕ
  mnt : ℕ → Option Mnt
  slot : ℕ → Slot
  fd : ℕ → ℕ → Option File
  wait : ℕ → Bool → Wait
  task : ℕ → Task
  /-- `_max_proc_table_num` -/
  max : ℕ
  /-- Children that were found dead when they were cloned and are still to be reaped. -/
  reap : List ℕ

/-- `VFS_NODE_MAX` -/
def nodeMax : ℕ := 65536

/-- `VFS_DEL_MAX_DEPTH` -/
def delMaxDepth : ℕ := 512

/-- `FS_MOUNT_MAX` -/
def mountMax : ℕ := 32

/-- `MAX_OPEN_FILE_PER_PROC` -/
def fdMax : ℕ := 128

/-- `vfsd_fsinfo_terminate`: the name has room for 63 characters. -/
def Info.terminate (i : Info) : Info := { i with name := i.name.take 63 }

namespace Vfsd
variable (s : Vfsd)

/-- A write through a pointer to the node `n`. -/
def modify (n : ℕ) (f : Node → Node) : Vfsd :=
  { s with node := Function.update s.node n ((s.node n).map f) }

/-- `vfs_alloc_node_id`. -/
def allocId : ℕ := if s.next = 0 then 1 else s.next

/-- `vfsd_new_node`. -/
def newNode (x : Node) : Option (Vfsd × ℕ) :=
  if nodeMax ≤ s.count then none
  else some ({ s with
    node := Function.update s.node s.allocId (some x)
    count := s.count + 1
    next := (s.allocId + 1) % 2 ^ 32 }, s.allocId)

/-- `vfs_add_node`. -/
def addNode (father n : ℕ) : Vfsd :=
  let s := s.modify n fun x => { x with father := father, loose := false }
  match s.node father with
  | none => s
  | some f =>
    let s :=
      if f.last = 0 then s.modify father fun f => { f with first := n }
      else (s.modify f.last fun y => { y with next := n }).modify n fun x => { x with prev := f.last }
    s.modify father fun f => { f with kids := f.kids + 1, last := n }

/-- The surgery `vfs_remove` and `vfsd_del_node_depth` both do. -/
def unlink (n : ℕ) : Vfsd :=
  match s.node n with
  | none => s
  | some x =>
    let s := s.modify x.father fun f => { f with
      first := if f.first = n then x.next else f.first
      last := if f.last = n then x.prev else f.last
      kids := f.kids - 1 }
    (s.modify x.next fun y => { y with prev := x.prev }).modify x.prev fun y => { y with next := x.next }

/-- `vfs_remove`. -/
def remove (n : ℕ) : Vfsd :=
  (s.unlink n).modify n fun x => { x with next := 0, prev := 0, loose := true }

/-- The end of `vfsd_del_node_depth`: who waits for the node is woken and taken out of its queues. -/
def free (n : ℕ) : Vfsd :=
  let s := s.unlink n
  { s with
    wait := fun p w => if (s.wait p w).node = n then { s.wait p w with node := 0 } else s.wait p w
    node := Function.update s.node n none
    count := s.count - 1 }

/-- The loop over the kids, from `c` on; says whether all of them are gone. -/
def delKids (del : Vfsd → ℕ → Vfsd × Bool) : ℕ → Vfsd → ℕ → Vfsd × Bool
  | 0, s, _ => (s, false)
  | k + 1, s, c =>
    match s.node c with
    | none => (s, true)
    | some y =>
      let (s₁, gone) := del s c
      let (s₂, rest) := delKids del k s₁ y.next
      (s₂, gone && rest)

/-- `vfsd_del_node_depth`, with so many levels left. A list of kids is not longer than there are
    nodes. -/
def delDepth : ℕ → Vfsd → ℕ → Vfsd × Bool
  | 0, s, _ => (s, false)
  | d + 1, s, n =>
    match s.node n with
    | none => (s, false)
    | some x =>
      if 0 < x.refs then (s, false)
      else
        let (t, gone) := delKids (delDepth d) (s.count + 1) s x.first
        if gone then (t.free n, true) else (t, false)

/-- `vfsd_del_node`. -/
def delNode (n : ℕ) : Vfsd × Bool := delDepth delMaxDepth s n

/-- `set_node_info`. -/
def setNodeInfo (n : ℕ) (i : Info) : Vfsd := s.modify n fun x => { x with info := i.terminate }

/-- The walk of `vfs_find_kid_raw` from `c` on. -/
def findFrom (name : List Char) : ℕ → ℕ → Option ℕ
  | 0, _ => none
  | k + 1, c =>
    match s.node c with
    | none => none
    | some x => if x.info.name = name then some c else findFrom name k x.next

/-- `vfs_find_kid_raw`. -/
def findKidRaw (father : ℕ) (name : List Char) : Option ℕ :=
  match s.node father with
  | none => none
  | some f => if '/' ∈ name then none else s.findFrom name (s.count + 1) f.first

/-! ### Whom a task runs for -/

/-- `vfsd_check_owner`. -/
def checkOwner (pid : ℕ) (i : Info) : Bool :=
  match (s.task pid).cred with
  | none => false
  | some c => c.uid ≤ 0 || c.uid = i.uid

/-- `vfsd_is_sys`. -/
def isSys (pid : ℕ) : Bool :=
  match (s.task pid).cred with
  | none => false
  | some c => c.uid ≤ 1

inductive Access where
  | read
  | write
  | exec
  deriving DecidableEq

/-- The mode bits asked for, of the owner, the group and the others. -/
def Access.bits : Access → ℕ × ℕ × ℕ
  | .read => (0o400, 0o40, 0o4)
  | .write => (0o200, 0o20, 0o2)
  | .exec => (0o100, 0o10, 0o1)

/-- `vfsd_check_access`. -/
def checkAccess (pid : ℕ) (i : Info) (a : Access) : Bool :=
  match (s.task pid).cred with
  | none => false
  | some c =>
    if c.uid ≤ 0 then !(a = .exec && i.mode &&& 0o111 = 0)
    else if c.uid = i.uid then i.mode &&& a.bits.1 ≠ 0
    else if c.gid = i.gid then i.mode &&& a.bits.2.1 ≠ 0
    else i.mode &&& a.bits.2.2 ≠ 0

end Vfsd
end EwokOS.Vfs
