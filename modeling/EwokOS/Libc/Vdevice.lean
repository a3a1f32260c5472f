import EwokOS.Schemes.Run
import Mathlib.Data.Int.Notation
import Mathlib.Data.List.Basic

/-! The device server (`libewoksys/ewoksys/src/vdevice.c`): its table of open descriptors.

    Clients name a descriptor by number and node; the server keeps an `fsinfo` for each descriptor of
    each process. Entries come from `do_open`, which checks the permission, from `do_dup`, and from any
    request that finds none:

        entry ──found──▶ callback          no entry ─▶ the client's seed ─▶ a copy of a sister ─▶ vfsd
                                                              └──────────────── added ─────────────┘

    Requests are handled one after the other. `opened` and `inherited` are ghost: which entries `do_open`
    recorded, and which descriptors processes got from such by dup or fork. -/

namespace EwokOS.Libc.Vdev

open Schemes (Reach Free)

variable {ν ρ : Type} [DecidableEq ν]

/-- `fsinfo_t`: the node, the state bits and the rest. -/
structure Fsinfo (ν ρ : Type) where
  node : ν
  state : BitVec 32
  rest : ρ
  deriving DecidableEq

def fsStateChanged : BitVec 32 := 1

/-- `file_hash_key`. -/
structure Key (ν : Type) where
  fd : ℤ
  pid : ℤ
  node : ν
  deriving DecidableEq

/-- The callbacks of a driver that are about a descriptor. -/
inductive Fn where | openFn | closeFn | dupFn | readFn | writeFn | shmFn | fcntlFn | flushFn | pollFn
  deriving DecidableEq, Repr

/-- A callback for a request of a process. -/
structure Call (ν ρ : Type) where
  fn : Fn
  pid : ℤ
  fd : ℤ
  info : Fsinfo ν ρ
  deriving DecidableEq

inductive Access where | r | w
  deriving DecidableEq, Repr

def oWronly : BitVec 32 := 1

/-- The commands that are about a descriptor, and their arguments. -/
inductive Cmd (ν ρ : Type) where
  /-- `caller` is there when it has the right size. -/
  | openFd (fd : ℤ) (node : ν) (caller : Option (Fsinfo ν ρ)) (oflag : BitVec 32)
  | close (fd : ℤ) (node : ν) (closePid ownerPid : ℤ)
  | dup (dupFd : ℤ) (node : ν) (info : Option (Fsinfo ν ρ)) (dupOwner : ℤ)
  | read (fd : ℤ) (node : ν) (seed : Fsinfo ν ρ)
  | write (fd : ℤ) (node : ν) (seed : Fsinfo ν ρ)
  | shm (fd : ℤ) (node : ν)
  | fcntl (fd : ℤ) (node : ν) (seed : Fsinfo ν ρ)
  | flush (fd : ℤ) (node : ν)
  | poll (fd : ℤ) (node : ν) (seed : Fsinfo ν ρ)

/-- `proc_getpid_or_raw`: the process of a thread. -/
structure Owners where
  proc : ℤ → ℤ
  main : ∀ p, proc (proc p) = proc p

/-- Where a request adds an entry: at an open and a dup, on the way to one that is missing (of the seed, of a
    sister, of what vfsd says), and with what a callback left. -/
inductive Spot where | opening | dupping | seed | sister | vfs | left
  deriving DecidableEq, Repr

/-- A request and what the server meets on the way: the processes, what vfsd says of the node and of the
    permission, the driver's callback if there is one (its result and what it leaves in the `fsinfo`,
    where no driver touches the node), `errno`, where there is memory for an entry, whether the data buffer
    is there, and which sister entry `hashmap_iterate` comes to first. -/
structure Request (ν ρ : Type) where
  pid : ℤ
  cmd : Cmd ν ρ
  owners : Owners
  vfsd : ℤ
  vfs : ν → Option (BitVec 32 × ρ)
  access : Fsinfo ν ρ → Access → Bool
  driver : Option (Fsinfo ν ρ → ℤ × BitVec 32 × ρ)
  errno : ℤ
  room : Spot → Bool
  buffer : Bool
  sister : ℤ

structure Server (ν ρ : Type) where
  files : List (Key ν × Fsinfo ν ρ)
  opened : List (Key ν)
  inherited : List (Key ν)

def Server.start : Server ν ρ := ⟨[], [], []⟩

namespace Request
variable (r : Request ν ρ)

/-- `vfs_get_by_node`. -/
def getByNode (node : ν) : Option (Fsinfo ν ρ) := (r.vfs node).map fun i => ⟨node, i.1, i.2⟩

/-- `file_owner_pid`. -/
def fileOwnerPid (pid : ℤ) : ℤ := r.owners.proc pid

/-- What the driver answers. -/
def answer (info : Fsinfo ν ρ) : ℤ × Fsinfo ν ρ :=
  match r.driver with
  | none => (0, info)
  | some f => ((f info).1, ⟨info.node, (f info).2.1, (f info).2.2⟩)

end Request

namespace Server
variable (s : Server ν ρ) (r : Request ν ρ)

/-- `file_get_cache`. -/
def fileGetCache (fd pid : ℤ) (node : ν) : Option (Fsinfo ν ρ) :=
  (s.files.find? (·.1 = ⟨fd, pid, node⟩)).map Prod.snd

/-- The entry of `k` is made, or overwritten. -/
def put (k : Key ν) (info : Fsinfo ν ρ) : Server ν ρ :=
  { s with files := (k, info) :: s.files.filter (·.1 ≠ k) }

/-- `file_add`. -/
def fileAdd (g : Spot) (fd pid : ℤ) (info : Fsinfo ν ρ) : Option (Server ν ρ) :=
  let k : Key ν := ⟨fd, r.fileOwnerPid pid, info.node⟩
  if (s.fileGetCache k.fd k.pid k.node).isSome ∨ r.room g = true then some (s.put k info) else none

/-- `file_del`. -/
def fileDel (fd pid : ℤ) (node : ν) : Server ν ρ :=
  let k : Key ν := ⟨fd, r.fileOwnerPid pid, node⟩
  { s with files := s.files.filter (·.1 ≠ k), opened := s.opened.filter (· ≠ k) }

/-- The sister entry that `file_find_same_owner_node` is shown first. -/
def sister (pid : ℤ) (node : ν) : Option (Fsinfo ν ρ) :=
  let l := s.files.filter fun e => e.1.pid = pid ∧ e.1.node = node
  ((l.find? (·.1.fd = r.sister)).or l.head?).map Prod.snd

/-- An entry added on the way no longer is the one of `do_open`. -/
def lazyAdd (g : Spot) (fd pid : ℤ) (info : Fsinfo ν ρ) : Option (Server ν ρ) :=
  (s.fileAdd r g fd pid info).map fun t =>
    { t with opened := t.opened.filter (· ≠ (⟨fd, r.fileOwnerPid pid, info.node⟩ : Key ν)) }

/-- `dev_fetch_file_seeded`, and `dev_fetch_file` without a seed. -/
def devFetchFile (fd pid : ℤ) (node : ν) (seed : Option (Fsinfo ν ρ)) : Option (Fsinfo ν ρ × Server ν ρ) :=
  let pid := r.fileOwnerPid pid
  match s.fileGetCache fd pid node with
  | some info => some (info, s)
  | none =>
    ((seed.bind fun i => (s.lazyAdd r .seed fd pid i).map (i, ·)).or
      ((s.sister r pid node).bind fun i => (s.lazyAdd r .sister fd pid i).map (i, ·))).or
      ((r.getByNode node).bind fun i => (s.lazyAdd r .vfs fd pid i).map (i, ·))

/-- What becomes of a request: the server, the callbacks it made, and the numbers and the `fsinfo` of the
    reply. -/
structure Done (ν ρ : Type) where
  server : Server ν ρ
  calls : List (Call ν ρ)
  codes : List ℤ
  info : Option (Fsinfo ν ρ)

def enoent : ℤ := 2
def eperm : ℤ := 1

/-- `do_open`. -/
def doOpen (fd : ℤ) (node : ν) (caller : Option (Fsinfo ν ρ)) (oflag : BitVec 32) : Done ν ρ :=
  let caller := caller.filter (·.node = node)
  match (r.getByNode node).or caller with
  | none => ⟨s, [], [-1, enoent], none⟩
  | some info =>
    if r.access info (if oflag &&& oWronly ≠ 0 then .w else .r) = false then ⟨s, [], [-1, eperm], none⟩
    else
      let asked := 0 ≤ fd ∧ r.driver.isSome = true
      let answer := if asked then r.answer info else (0, info)
      let calls := if asked then [⟨.openFn, r.fileOwnerPid r.pid, fd, info⟩] else []
      if answer.1 ≠ 0 then ⟨s, calls, [-1, r.errno], none⟩
      else
        let t := (s.fileAdd r .opening fd r.pid answer.2).map fun t =>
          -- the entry is that of an open only if what was checked came from vfsd
          if (r.getByNode node).isSome then { t with opened := ⟨fd, r.fileOwnerPid r.pid, answer.2.node⟩ :: t.opened }
          else { t with opened := t.opened.filter (· ≠ (⟨fd, r.fileOwnerPid r.pid, answer.2.node⟩ : Key ν)) }
        ⟨t.getD s, calls, [0], some answer.2⟩

/-- For whom a request is: vfsd asks for others. -/
def actor (owner : ℤ) : ℤ := if r.pid = r.vfsd then r.fileOwnerPid owner else r.fileOwnerPid r.pid

/-- Whose descriptor `do_close` closes. -/
def closeOwner (closePid ownerPid : ℤ) : ℤ :=
  let fromPid := if 0 < closePid ∧ r.vfsd = r.pid then closePid else r.pid
  r.fileOwnerPid (if ownerPid ≤ 0 then fromPid else ownerPid)

/-- `do_close`. -/
def doClose (fd : ℤ) (node : ν) (closePid ownerPid : ℤ) : Done ν ρ :=
  let owner := closeOwner r closePid ownerPid
  match s.fileGetCache fd owner node with
  | none => ⟨s, [], [], none⟩
  | some info =>
    ⟨s.fileDel r fd owner node, if r.driver.isSome then [⟨.closeFn, actor r owner, fd, info⟩] else [], [], none⟩

/-- `do_dup`. -/
def doDup (dupFd : ℤ) (node : ν) (info : Option (Fsinfo ν ρ)) (dupOwner : ℤ) : Done ν ρ :=
  let calls := if r.driver.isSome then (info.map (⟨.dupFn, actor r dupOwner, dupFd, ·⟩)).toList else []
  let s := s.fileDel r dupFd dupOwner node
  ⟨(info.bind (s.lazyAdd r .dupping dupFd dupOwner)).getD s, calls, [], none⟩

/-- A request whose callback leaves the table alone: the callback, the seed, whether there is what it
    needs, and the replies without an entry, after the callback and without one. -/
def look (fn : Fn) (fd : ℤ) (node : ν) (seed : Option (Fsinfo ν ρ)) (ready : Bool) (lost : List ℤ)
    (reply : ℤ → List ℤ) (absent : List ℤ) : Done ν ρ :=
  match s.devFetchFile r fd r.pid node seed with
  | none => ⟨s, [], lost, none⟩
  | some (info, t) =>
    if r.driver.isSome = true ∧ ready = true then
      ⟨t, [⟨fn, r.fileOwnerPid r.pid, fd, info⟩], reply (r.answer info).1, none⟩
    else ⟨t, [], absent, none⟩

def doRead (fd : ℤ) (node : ν) (seed : Fsinfo ν ρ) : Done ν ρ :=
  s.look r .readFn fd node (some seed) r.buffer [-1] (fun rd => if rd < 0 then [rd, r.errno] else [rd]) [-1]

def doPoll (fd : ℤ) (node : ν) (seed : Fsinfo ν ρ) : Done ν ρ :=
  s.look r .pollFn fd node (some seed) true [-1] (fun events => [0, events]) [-1]

def doFlush (fd : ℤ) (node : ν) : Done ν ρ :=
  s.look r .flushFn fd node none true [-1, enoent] (fun ret => [ret]) [0]

/-- `do_shm` asks for the entry only where the driver has the callback. -/
def doShm (fd : ℤ) (node : ν) : Done ν ρ :=
  if r.driver.isSome then s.look r .shmFn fd node none true [-1] (fun id => [id]) [-1] else ⟨s, [], [-1], none⟩

/-- `do_write` keeps what the driver left, and marks it changed. -/
def doWrite (fd : ℤ) (node : ν) (seed : Fsinfo ν ρ) : Done ν ρ :=
  match s.devFetchFile r fd r.pid node (some seed) with
  | none => ⟨s, [], [-1], none⟩
  | some (info, t) =>
    if r.driver.isSome = true ∧ r.buffer = true then
      let size := (r.answer info).1
      let info' := { (r.answer info).2 with state := (r.answer info).2.state ||| fsStateChanged }
      ⟨(t.fileAdd r .left fd r.pid info').getD t, [⟨.writeFn, r.fileOwnerPid r.pid, fd, info⟩],
        if size < 0 then [size, r.errno] else [size], some info'⟩
    else ⟨t, [], [-1], none⟩

/-- `do_fcntl` keeps what the driver left if it says so. -/
def doFcntl (fd : ℤ) (node : ν) (seed : Fsinfo ν ρ) : Done ν ρ :=
  match s.devFetchFile r fd r.pid node (some seed) with
  | none => ⟨s, [], [-1], none⟩
  | some (info, t) =>
    if r.driver.isSome = true then
      let info' := (r.answer info).2
      ⟨if (r.answer info).1 = 0 then (t.fileAdd r .left fd r.pid info').getD t else t,
        [⟨.fcntlFn, r.fileOwnerPid r.pid, fd, info⟩], [(r.answer info).1], some info'⟩
    else ⟨t, [], [-1], some info⟩

/-- `handle`, for the commands that are about a descriptor. -/
def handle : Done ν ρ :=
  match r.cmd with
  | .openFd fd node caller oflag => s.doOpen r fd node caller oflag
  | .close fd node closePid ownerPid => s.doClose r fd node closePid ownerPid
  | .dup dupFd node info dupOwner => s.doDup r dupFd node info dupOwner
  | .read fd node seed => s.doRead r fd node seed
  | .write fd node seed => s.doWrite r fd node seed
  | .shm fd node => s.doShm r fd node
  | .fcntl fd node seed => s.doFcntl r fd node seed
  | .flush fd node => s.doFlush r fd node
  | .poll fd node seed => s.doPoll r fd node seed

/-- A descriptor that was opened here, or was got from such a one. -/
def Has (k : Key ν) : Prop := k ∈ s.opened ∨ k ∈ s.inherited

instance (k : Key ν) : Decidable (s.Has k) := inferInstanceAs (Decidable (_ ∨ _))

/-- A process got a descriptor of this node by dup or fork. -/
def Inherits (pid : ℤ) (node : ν) : Prop := ∃ k ∈ s.inherited, k.pid = pid ∧ k.node = node

instance (pid : ℤ) (node : ν) : Decidable (s.Inherits pid node) := inferInstanceAs (Decidable (∃ k ∈ s.inherited, _))

end Server

/-- A request, or a dup or a fork, of which vfsd keeps the books. -/
inductive Event (ν ρ : Type) where
  | request (r : Request ν ρ)
  | dup (owners : Owners) (pid fd fd' : ℤ) (node : ν)
  | fork (owners : Owners) (parent child fd : ℤ) (node : ν)

namespace Server
variable (s : Server ν ρ)

def inherit (k k' : Key ν) : Server ν ρ := if s.Has k then { s with inherited := k' :: s.inherited } else s

def step : Event ν ρ → Option (Server ν ρ)
  | .request r => some (s.handle r).server
  | .dup o pid fd fd' node => some (s.inherit ⟨fd, o.proc pid, node⟩ ⟨fd', o.proc pid, node⟩)
  | .fork o parent child fd node => some (s.inherit ⟨fd, o.proc parent, node⟩ ⟨fd, o.proc child, node⟩)

/-- Whether a callback for a request is one that the process may cause: at an open what vfsd says of the
    node has passed the check; and else the `fsinfo` is the one that an open recorded for this descriptor
    of the process, or of a node that the process has a descriptor of by dup or fork. -/
def Authorized (r : Request ν ρ) (c : Call ν ρ) : Prop :=
  match r.cmd with
  | .openFd _ node _ oflag =>
    r.getByNode node = some c.info ∧ r.access c.info (if oflag &&& oWronly ≠ 0 then .w else .r) = true
  | _ =>
    ((⟨c.fd, c.pid, c.info.node⟩ : Key ν) ∈ s.opened ∧ s.fileGetCache c.fd c.pid c.info.node = some c.info) ∨
      s.Inherits c.pid c.info.node

/-- A request for an entry finds it, or the node it would be made of is one that the process inherited; and
    so is the node it names, if there is memory for another entry where there is none for the seed. -/
def Known (r : Request ν ρ) (fd : ℤ) (node used : ν) : Prop :=
  (s.fileGetCache fd (r.fileOwnerPid r.pid) node).isSome = true ∨
    (s.Inherits (r.fileOwnerPid r.pid) used ∧ (r.room .seed = true ∨ s.Inherits (r.fileOwnerPid r.pid) node ∨
      (r.room .sister = false ∧ r.room .vfs = false)))

instance (r : Request ν ρ) (fd : ℤ) (node used : ν) : Decidable (s.Known r fd node used) :=
  inferInstanceAs (Decidable (_ ∨ _))

/-- An open where vfsd answers, a close of one's own, a dup of vfsd's, and requests that find their entry. -/
def Careful : Event ν ρ → Prop
  | .request r =>
    match r.cmd with
    | .openFd _ node caller _ => (r.vfs node).isSome = true ∨ caller = none
    | .close fd node closePid ownerPid =>
      s.fileGetCache fd (closeOwner r closePid ownerPid) node = none ∨
        actor r (closeOwner r closePid ownerPid) = closeOwner r closePid ownerPid
    | .dup _ _ info dupOwner => r.pid = r.vfsd ∧ ∀ i ∈ info, s.Inherits (r.fileOwnerPid dupOwner) i.node
    | .read fd node seed | .write fd node seed | .fcntl fd node seed | .poll fd node seed => s.Known r fd node seed.node
    | .shm fd node | .flush fd node => s.Known r fd node node
  | _ => True

end Server

/-! ### The table -/

namespace Server

/-- An entry may be there: `do_open` recorded it, or the process inherited the node. -/
def Granted (s : Server ν ρ) (k : Key ν) : Prop := k ∈ s.opened ∨ s.Inherits k.pid k.node

structure Inv (s : Server ν ρ) : Prop where
  node : ∀ e ∈ s.files, e.2.node = e.1.node
  granted : ∀ e ∈ s.files, s.Granted e.1

variable {s t : Server ν ρ} {r : Request ν ρ} {g : Spot} {fd pid : ℤ} {node : ν} {info : Fsinfo ν ρ} {k : Key ν}

omit [DecidableEq ν] in
theorem inv_start : Inv (start : Server ν ρ) := ⟨by simp [start], by simp [start]⟩

theorem mem_of_cache (h : s.fileGetCache fd pid node = some info) : (⟨⟨fd, pid, node⟩, info⟩ : Key ν × Fsinfo ν ρ) ∈ s.files := by
  obtain ⟨e, he, rfl⟩ := Option.map_eq_some_iff.mp h
  have hk : e.1 = ⟨fd, pid, node⟩ := by simpa using List.find?_some he
  rw [← hk]
  exact List.mem_of_find?_eq_some he

/-- An entry is written under the name of its node. -/
theorem Inv.put (h : Inv s) (hk : info.node = k.node) (hg : s.Granted k) : Inv (s.put k info) := by
  constructor <;> intro e he <;> rcases List.mem_cons.mp he with rfl | he
  · exact hk
  · exact h.node e (List.mem_filter.mp he).1
  · exact hg
  · exact h.granted e (List.mem_filter.mp he).1

theorem Inv.fileAdd (h : Inv s) (hg : s.Granted ⟨fd, r.fileOwnerPid pid, info.node⟩) (ht : s.fileAdd r g fd pid info = some t) :
    Inv t := by
  obtain ⟨-, rfl⟩ := by simpa only [Server.fileAdd, Option.ite_none_right_eq_some, Option.some.injEq] using ht
  exact h.put rfl hg

/-- An entry goes, or is one of the process's own no longer. -/
theorem Inv.forget {files : List (Key ν × Fsinfo ν ρ)} (h : Inv s) (hsub : ∀ e ∈ files, e ∈ s.files)
    (hk : ∀ e ∈ files, e.1 = k → s.Inherits k.pid k.node) :
    Inv { s with files := files, opened := s.opened.filter (· ≠ k) } := by
  refine ⟨fun e he => h.node e (hsub e he), fun e he => ?_⟩
  by_cases hek : e.1 = k
  · have := hk e he hek
    rw [← hek] at this
    exact Or.inr this
  · exact (h.granted e (hsub e he)).imp_left fun hin => List.mem_filter.mpr ⟨hin, by simpa using hek⟩

theorem Inv.fileDel (h : Inv s) : Inv (s.fileDel r fd pid node) :=
  h.forget (fun _ he => (List.mem_filter.mp he).1) fun e he hek => by
    have := (List.mem_filter.mp he).2
    simp [hek] at this

theorem inherits_fileAdd (ht : s.fileAdd r g fd pid info = some t) : t.inherited = s.inherited := by
  obtain ⟨-, rfl⟩ := by simpa only [Server.fileAdd, Option.ite_none_right_eq_some, Option.some.injEq] using ht
  rfl

theorem Inv.lazyAdd (h : Inv s) (hi : s.Inherits (r.fileOwnerPid pid) info.node) (ht : s.lazyAdd r g fd pid info = some t) :
    Inv t ∧ t.inherited = s.inherited := by
  obtain ⟨u, hu, rfl⟩ := Option.map_eq_some_iff.mp ht
  have hin := inherits_fileAdd hu
  refine ⟨(h.fileAdd (Or.inr hi) hu).forget (fun _ he => he) fun _ _ _ => ?_, hin⟩
  unfold Inherits
  rw [hin]
  exact hi

/-- Without memory there is no entry but in the place of one. -/
theorem lazyAdd_room (hr : r.room g = false) (hc : s.fileGetCache fd (r.fileOwnerPid pid) info.node = none) :
    s.lazyAdd r g fd pid info = none := by
  simp [Server.lazyAdd, Server.fileAdd, hr, hc]

theorem sister_node (h : Inv s) (hs : s.sister r pid node = some info) : info.node = node := by
  obtain ⟨e, he, rfl⟩ := Option.map_eq_some_iff.mp hs
  have hin : e ∈ s.files.filter fun e => e.1.pid = pid ∧ e.1.node = node := by
    rcases Option.or_eq_some_iff.mp he with he | ⟨-, he⟩
    · exact List.mem_of_find?_eq_some he
    · exact List.mem_of_mem_head? he
  obtain ⟨hfile, hwhich⟩ := List.mem_filter.mp hin
  simp only [decide_eq_true_eq] at hwhich
  rw [h.node e hfile, hwhich.2]

omit [DecidableEq ν] in
theorem getByNode_node (hi : r.getByNode node = some info) : info.node = node := by
  obtain ⟨i, -, rfl⟩ := Option.map_eq_some_iff.mp hi
  rfl

/-- What a request is given: its entry, or one of a node that the process inherited. -/
theorem Inv.fetch {seed : Option (Fsinfo ν ρ)} (h : Inv s) (hk : s.Known r fd node ((seed.map Fsinfo.node).getD node))
    (hf : s.devFetchFile r fd r.pid node seed = some (info, t)) :
    Inv t ∧ t.inherited = s.inherited ∧ t.Granted ⟨fd, r.fileOwnerPid r.pid, info.node⟩ ∧
      (s.fileGetCache fd (r.fileOwnerPid r.pid) node = some info ∨ s.Inherits (r.fileOwnerPid r.pid) info.node) := by
  have hmain : r.fileOwnerPid (r.fileOwnerPid r.pid) = r.fileOwnerPid r.pid := r.owners.main r.pid
  unfold devFetchFile at hf
  cases hc : s.fileGetCache fd (r.fileOwnerPid r.pid) node with
  | some i =>
    simp only [hc, Option.some.injEq, Prod.mk.injEq] at hf
    obtain ⟨rfl, rfl⟩ := hf
    have hmem := mem_of_cache hc
    refine ⟨h, rfl, ?_, Or.inl rfl⟩
    rw [h.node _ hmem]
    exact h.granted _ hmem
  | none =>
    obtain ⟨hused, hspare⟩ := hk.resolve_left (by simp [hc])
    simp only [hc] at hf
    -- without a seed, or without memory for it, an entry of the node itself is added if any
    have hown : ∀ {g : Spot} {i : Fsinfo ν ρ}, (r.room .sister = false ∧ r.room .vfs = false → r.room g = false) →
        i.node = node → s.lazyAdd r g fd (r.fileOwnerPid r.pid) i = some t →
        (seed.bind fun i => (s.lazyAdd r .seed fd (r.fileOwnerPid r.pid) i).map (i, ·)) = none →
        s.Inherits (r.fileOwnerPid r.pid) i.node := by
      intro g i hg hi hadd hnone
      rw [hi]
      cases seed with
      | none => exact hused
      | some sd =>
        have hroom : ¬r.room .seed = true := by
          simp [Server.lazyAdd, Server.fileAdd] at hnone
          simp [hnone.2]
        rcases hspare.resolve_left hroom with hnode | hfull
        · exact hnode
        · rw [lazyAdd_room (hg hfull) (by rw [hmain, hi]; exact hc)] at hadd
          cases hadd
    have hadded : ∃ g, s.lazyAdd r g fd (r.fileOwnerPid r.pid) info = some t ∧
        s.Inherits (r.fileOwnerPid r.pid) info.node := by
      rcases Option.or_eq_some_iff.mp hf with hf | ⟨hnone, hf⟩
      · rcases Option.or_eq_some_iff.mp hf with hf | ⟨hnone, hf⟩
        · obtain ⟨sd, hsd, hadd⟩ := Option.bind_eq_some_iff.mp hf
          obtain ⟨u, hu, heq⟩ := Option.map_eq_some_iff.mp hadd
          cases heq
          exact ⟨.seed, hu, by simpa [hsd] using hused⟩
        · obtain ⟨i, hi, hadd⟩ := Option.bind_eq_some_iff.mp hf
          obtain ⟨u, hu, heq⟩ := Option.map_eq_some_iff.mp hadd
          cases heq
          exact ⟨.sister, hu, hown And.left (sister_node h hi) hu hnone⟩
      · obtain ⟨i, hi, hadd⟩ := Option.bind_eq_some_iff.mp hf
        obtain ⟨u, hu, heq⟩ := Option.map_eq_some_iff.mp hadd
        cases heq
        exact ⟨.vfs, hu, hown And.right (getByNode_node hi) hu (Option.or_eq_none_iff.mp hnone).1⟩
    obtain ⟨g, hadd, hinh⟩ := hadded
    obtain ⟨hinv, hin⟩ := h.lazyAdd (by rwa [hmain]) hadd
    refine ⟨hinv, hin, Or.inr ?_, Or.inr hinh⟩
    unfold Inherits at hinh ⊢
    rwa [hin]

/-! ### Requests -/

/-- A callback about an entry that was there, or of an inherited node. -/
theorem authorized_of {c : Call ν ρ} {n : ν} (h : Inv s) (hcmd : ∀ fd node caller oflag, r.cmd ≠ .openFd fd node caller oflag)
    (hc : s.fileGetCache c.fd c.pid n = some c.info ∨ s.Inherits c.pid c.info.node) : s.Authorized r c := by
  have hgoal : (((⟨c.fd, c.pid, c.info.node⟩ : Key ν) ∈ s.opened ∧ s.fileGetCache c.fd c.pid c.info.node = some c.info) ∨
      s.Inherits c.pid c.info.node) := by
    rcases hc with hc | hi
    · have hmem := mem_of_cache hc
      have hnode : c.info.node = n := h.node _ hmem
      subst hnode
      exact (h.granted _ hmem).imp_left fun hin => ⟨hin, hc⟩
    · exact Or.inr hi
  unfold Authorized
  split
  · rename_i hcmd'
    exact absurd hcmd' (hcmd _ _ _ _)
  · exact hgoal

/-- A request is settled: the table stays as it should be, and the callbacks are authorized. -/
structure Settles (s : Server ν ρ) (r : Request ν ρ) (d : Done ν ρ) : Prop where
  inv : Inv d.server
  calls : ∀ c ∈ d.calls, s.Authorized r c

theorem settles_look {fn : Fn} {i : Option (Fsinfo ν ρ)} {ready : Bool} {lost absent : List ℤ} {reply : ℤ → List ℤ}
    (h : Inv s) (hk : s.Known r fd node ((i.map Fsinfo.node).getD node))
    (hcmd : ∀ fd node caller oflag, r.cmd ≠ .openFd fd node caller oflag) :
    Settles s r (s.look r fn fd node i ready lost reply absent) := by
  unfold look
  split
  · exact ⟨h, by simp⟩
  · rename_i info t hf
    obtain ⟨hinv, -, -, hgot⟩ := h.fetch hk hf
    split
    · refine ⟨hinv, fun c hc => ?_⟩
      cases List.mem_singleton.mp hc
      exact authorized_of h hcmd hgot
    · exact ⟨hinv, by simp⟩

/-- What a callback left is kept, in the same entry. -/
theorem Inv.update {info' : Fsinfo ν ρ} (h : Inv t) (hg : t.Granted ⟨fd, r.fileOwnerPid r.pid, info.node⟩)
    (hn : info'.node = info.node) : Inv ((t.fileAdd r .left fd r.pid info').getD t) := by
  cases ha : t.fileAdd r .left fd r.pid info' with
  | none => exact h
  | some u => exact h.fileAdd (by rwa [hn]) ha

omit [DecidableEq ν] in
theorem answer_node : (r.answer info).2.node = info.node := by
  unfold Request.answer
  split <;> rfl

theorem settles_write {seed : Fsinfo ν ρ} (h : Inv s) (hk : s.Known r fd node seed.node)
    (hcmd : ∀ fd node caller oflag, r.cmd ≠ .openFd fd node caller oflag) : Settles s r (s.doWrite r fd node seed) := by
  unfold doWrite
  split
  · exact ⟨h, by simp⟩
  · rename_i info t hf
    obtain ⟨hinv, -, hg, hgot⟩ := h.fetch hk hf
    split
    · refine ⟨hinv.update hg answer_node, fun c hc => ?_⟩
      cases List.mem_singleton.mp hc
      exact authorized_of h hcmd hgot
    · exact ⟨hinv, by simp⟩

theorem settles_fcntl {seed : Fsinfo ν ρ} (h : Inv s) (hk : s.Known r fd node seed.node)
    (hcmd : ∀ fd node caller oflag, r.cmd ≠ .openFd fd node caller oflag) : Settles s r (s.doFcntl r fd node seed) := by
  unfold doFcntl
  split
  · exact ⟨h, by simp⟩
  · rename_i info t hf
    obtain ⟨hinv, -, hg, hgot⟩ := h.fetch hk hf
    split
    · refine ⟨?_, fun c hc => ?_⟩
      · change Inv (if _ then _ else _)
        split
        · exact hinv.update hg answer_node
        · exact hinv
      · cases List.mem_singleton.mp hc
        exact authorized_of h hcmd hgot
    · exact ⟨hinv, by simp⟩

theorem settles_close {closePid ownerPid : ℤ} (h : Inv s) (hcmd : ∀ fd node caller oflag, r.cmd ≠ .openFd fd node caller oflag)
    (hown : s.fileGetCache fd (closeOwner r closePid ownerPid) node = none ∨
      actor r (closeOwner r closePid ownerPid) = closeOwner r closePid ownerPid) :
    Settles s r (s.doClose r fd node closePid ownerPid) := by
  unfold doClose
  dsimp only
  split
  · exact ⟨h, by simp⟩
  · rename_i info hc
    refine ⟨h.fileDel, fun c hin => ?_⟩
    have hme := hown.resolve_left (by simp [hc])
    dsimp only at hin
    split at hin
    · cases List.mem_singleton.mp hin
      refine authorized_of h hcmd (n := node) (Or.inl ?_)
      dsimp only
      rwa [hme]
    · simp at hin

theorem settles_dup {i : Option (Fsinfo ν ρ)} {dupOwner : ℤ} (h : Inv s)
    (hcmd : ∀ fd node caller oflag, r.cmd ≠ .openFd fd node caller oflag) (hv : r.pid = r.vfsd)
    (hi : ∀ j ∈ i, s.Inherits (r.fileOwnerPid dupOwner) j.node) : Settles s r (s.doDup r fd node i dupOwner) := by
  unfold doDup
  have hdel : Inv (s.fileDel r fd dupOwner node) := h.fileDel
  have hserver : Inv ((i.bind ((s.fileDel r fd dupOwner node).lazyAdd r .dupping fd dupOwner)).getD (s.fileDel r fd dupOwner node)) := by
    cases hadd : i.bind ((s.fileDel r fd dupOwner node).lazyAdd r .dupping fd dupOwner) with
    | none => exact hdel
    | some u =>
      obtain ⟨j, hj, hu⟩ := Option.bind_eq_some_iff.mp hadd
      exact (hdel.lazyAdd (hi j hj) hu).1
  refine ⟨hserver, fun c hin => ?_⟩
  · dsimp only at hin
    split at hin
    · obtain ⟨j, hj, rfl⟩ := Option.map_eq_some_iff.mp (Option.mem_toList.mp hin)
      refine authorized_of h hcmd (n := node) (Or.inr ?_)
      simpa [actor, hv] using hi j hj
    · simp at hin

theorem settles_open {caller : Option (Fsinfo ν ρ)} {oflag : BitVec 32} (h : Inv s) (hcmd : r.cmd = .openFd fd node caller oflag)
    (hv : (r.vfs node).isSome = true ∨ caller = none) : Settles s r (s.doOpen r fd node caller oflag) := by
  unfold doOpen
  dsimp only
  split
  · exact ⟨h, by simp⟩
  · rename_i info hinfo
    -- what is checked is what vfsd says
    have hvfs : r.getByNode node = some info := by
      rcases Option.or_eq_some_iff.mp hinfo with hi | ⟨hnone, hi⟩
      · exact hi
      · rcases hv with hv | rfl
        · simp only [Request.getByNode, Option.map_eq_none_iff] at hnone
          simp [hnone] at hv
        · simp at hi
    by_cases hacc : r.access info (if oflag &&& oWronly ≠ 0 then .w else .r) = false
    · rw [if_pos hacc]
      exact ⟨h, by simp⟩
    · rw [if_neg hacc]
      have hcalls : ∀ c ∈ (if 0 ≤ fd ∧ r.driver.isSome = true then
          [(⟨.openFn, r.fileOwnerPid r.pid, fd, info⟩ : Call ν ρ)] else []), s.Authorized r c := by
        intro c hc
        split at hc
        · cases List.mem_singleton.mp hc
          unfold Authorized
          rw [hcmd]
          exact ⟨hvfs, by simpa using hacc⟩
        · simp at hc
      generalize (if 0 ≤ fd ∧ r.driver.isSome = true then r.answer info else (0, info)) = answer
      obtain ⟨res, info'⟩ := answer
      by_cases hres : res ≠ 0
      · rw [if_pos hres]
        exact ⟨h, hcalls⟩
      · rw [if_neg hres]
        refine ⟨?_, hcalls⟩
        dsimp only
        cases ha : s.fileAdd r .opening fd r.pid info' with
        | none => exact h
        | some u =>
          obtain ⟨-, rfl⟩ := by simpa only [Server.fileAdd, Option.ite_none_right_eq_some, Option.some.injEq] using ha
          simp only [hvfs, Option.isSome_some, if_true, Option.map_some, Option.getD_some]
          have hopen : Inv { s with opened := ⟨fd, r.fileOwnerPid r.pid, info'.node⟩ :: s.opened } :=
            ⟨h.node, fun e he => (h.granted e he).imp_left fun hin => List.mem_cons_of_mem _ hin⟩
          exact hopen.put rfl (Or.inl (List.mem_cons_self ..))

theorem settles (h : Inv s) (hc : s.Careful (.request r)) : Settles s r (s.handle r) := by
  unfold handle
  cases hcmd : r.cmd with
  | openFd fd node caller oflag => exact settles_open h hcmd (by simpa [Careful, hcmd] using hc)
  | close fd node closePid ownerPid => exact settles_close h (by simp [hcmd]) (by simpa only [Careful, hcmd] using hc)
  | dup dupFd node info dupOwner =>
    simp only [Careful, hcmd] at hc
    exact settles_dup h (by simp [hcmd]) hc.1 hc.2
  | read fd node seed => exact settles_look (i := some seed) h (by simpa [Careful, hcmd] using hc) (by simp [hcmd])
  | write fd node seed => exact settles_write h (by simpa only [Careful, hcmd] using hc) (by simp [hcmd])
  | shm fd node =>
    simp only [Careful, hcmd] at hc
    dsimp only
    unfold doShm
    split
    · exact settles_look (i := none) h hc (by simp [hcmd])
    · exact ⟨h, by simp⟩
  | fcntl fd node seed => exact settles_fcntl h (by simpa only [Careful, hcmd] using hc) (by simp [hcmd])
  | flush fd node => exact settles_look (i := none) h (by simpa [Careful, hcmd] using hc) (by simp [hcmd])
  | poll fd node seed => exact settles_look (i := some seed) h (by simpa [Careful, hcmd] using hc) (by simp [hcmd])

theorem Inv.inherit {k' : Key ν} (h : Inv s) : Inv (s.inherit k k') := by
  unfold Server.inherit
  split
  · refine ⟨h.node, fun e he => (h.granted e he).imp_right ?_⟩
    rintro ⟨j, hj, hjk⟩
    exact ⟨j, List.mem_cons_of_mem _ hj, hjk⟩
  · exact h

theorem Inv.reach (hr : Reach step Careful start s) : Inv s := by
  refine hr.inv (I := Inv) inv_start fun s e t h hok hst => ?_
  cases e with
  | request r =>
    cases hst
    exact (settles h hok).inv
  | dup o pid fd fd' node =>
    cases hst
    exact h.inherit
  | fork o parent child fd node =>
    cases hst
    exact h.inherit

theorem descriptor_authority (s : Server ν ρ) (hr : Reach step Careful start s) (r : Request ν ρ)
    (hc : s.Careful (.request r)) (c : Call ν ρ) (hin : c ∈ (s.handle r).calls) : s.Authorized r c :=
  (settles (Inv.reach hr) hc).calls c hin

/-! ### Who gets what -/

/-- Threads are processes of their own. -/
def lone : Owners := ⟨id, fun _ => rfl⟩

/-- A request where everything works: vfsd knows each node, every check passes, and each callback answers 0
    and leaves the `fsinfo` as it was. -/
def ask (pid : ℤ) (cmd : Cmd ℕ ℕ) : Request ℕ ℕ :=
  ⟨pid, cmd, lone, 2, fun n => some (0, n), fun _ _ => true, some fun i => (0, i.state, i.rest), 0,
    fun _ => true, true, 0⟩

/-- 10 opens node 5 and forks 11, which writes before the server has heard of it. -/
theorem descriptor_authority_shared : ∃ s : Server ℕ ℕ, Reach step Careful start s ∧
    s.Authorized (ask 11 (.write 3 5 ⟨5, 0, 5⟩)) ⟨.writeFn, 11, 3, ⟨5, 0, 5⟩⟩ := by
  have hr : Reach step Careful (start : Server ℕ ℕ) _ :=
    .next (o := .fork lone 10 11 3 5) (.next (o := .request (ask 10 (.openFd 3 5 none 0))) .start (Or.inl rfl) rfl) trivial rfl
  refine ⟨_, hr, descriptor_authority _ hr (ask 11 (.write 3 5 ⟨5, 0, 5⟩)) (Or.inr ?_) _ ?_⟩
  · decide
  · decide

/-- 10 never opened anything, and reads node 5 with an `fsinfo` of its own making. -/
theorem seed_minted : ∃ s : Server ℕ ℕ, ∃ r : Request ℕ ℕ, ∃ c ∈ (s.handle r).calls, Reach step Free start s ∧
    ¬s.Authorized r c := by
  refine ⟨start, ask 10 (.read 3 5 ⟨5, 0, 77⟩), ⟨.readFn, 10, 3, ⟨5, 0, 77⟩⟩, ?_, .start, ?_⟩
  · decide
  · simp [Authorized, ask, start, Inherits]

end Server

end EwokOS.Libc.Vdev
