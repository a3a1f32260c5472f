import EwokOS.Kernel.CapRun
import EwokOS.Kernel.Handlers

/-! The life of a task (`proc.c`, `svc.c`): creation, exit, burial, and the calls that change who it
    is.

        proc_create --> CREATED --> ... --> proc_terminate --> ZOMBIE --> proc_funeral --> slot free
                                                 ^                |
                                                 +-- SIG_STOP <---+  (a dead child process)

    The owner of a task is found again on every check by following `father_pid` from threads to the
    first process, so what these functions do to that link is what decides a task's authority. -/

namespace EwokOS.Kernel.Tasks

open Capability (Cnode procCapGrantRoot procCapOnExec procCapOnSetuid procCapHas cnodeHasRoot
  mintCap grantCap insertCap capCnodeRevoke CapType Query answers capPolicyCmdMax)

namespace Sys
variable (cfg : Config) (k : Sys)

/-! ### Authority of a task -/

/-- The cnode of a process. -/
def cnodeOf (pid : ℤ) : Option Cnode := (k.table pid).map fun t => t.cnode

/-- The uuid of a live pid, which process caps are pinned to. -/
def uuidOf (pid : ℤ) : Option ℕ := (k.procGet pid).map fun t => t.uuid

/-- Every `proc_cap_*` check for a task: `cap_owner` resolves it, the owner's cnode answers. -/
def capCheck (pid : ℤ) (q : Query) : Bool :=
  ((k.procGetProc cfg pid).bind k.cnodeOf).any fun cn => answers k.uuidOf cn q

/-! ### Creation -/

/-- What memory a creation finds: enough, not even a `proc_t`, or none for the space or the
    stack. -/
inductive Alloc where | ok | noTask | noSpace
  deriving DecidableEq

/-- The slot search of `proc_create`. -/
def freeSlot : Option ℤ :=
  ((List.range cfg.maxTaskNum).map fun i =>
    (((i + k.lastCreatePid) % cfg.maxTaskNum : ℕ) : ℤ)).find? fun p => (k.table p).isNone

/-- `++_proc_uuid`. -/
def nextUuid : ℕ := (k.procUuid + 1) % 2 ^ 32

/-- The cnode a new task starts with: its parent's owner's, and the root capset where none is
    found. -/
def bornCnode (parent : ℤ) : Cnode :=
  ((k.procGetProc cfg parent).bind k.cnodeOf).getD procCapGrantRoot

/-- A task as `proc_create` fills it in. -/
def newTask (type : TaskType) (parent : ℤ) (t : Task) : Task where
  type := type
  fatherPid := parent
  space := match type with
    | .proc => k.spaceNum
    | .thread => t.space
  uuid := k.nextUuid
  uid := t.uid
  gid := t.gid
  cmd := t.cmd
  cnode := k.bornCnode cfg parent
  isCoreIdleProc := false
  core := 0
  state := .created
  waitFor := -1
  blockBy := 0
  wakeBy := 0
  wakePending := false
  sleepCounter := 0

/-- The space of a new task: its own, or one more reference to its parent's. -/
def newSpace (type : TaskType) (t : Task) : Sys :=
  match type with
  | .proc => { k.modSpace k.spaceNum fun _ => .fresh with spaceNum := k.spaceNum + 1 }
  | .thread => k.modSpace t.space fun s => { s with refs := s.refs + 1 }

/-- `proc_create` for a parent that is in the table. -/
def procCreate (type : TaskType) (parent : ℤ) (a : Alloc) : Sys × Option ℤ :=
  match k.freeSlot cfg, k.table parent with
  | some i, some t =>
    match a with
    | .noTask => (k, none)
    | .noSpace => ({ k with lastCreatePid := i.toNat + 1, procUuid := k.nextUuid }, none)
    | .ok =>
      ({ (k.newSpace type t).setSlot i (some (k.newTask cfg type parent t)) with
          lastCreatePid := i.toNat + 1,
          procUuid := k.nextUuid }, some i)
  | _, _ => (k, none)

/-! ### Burial -/

/-- `proc_can_reap_locked`: a process stays while threads of it are unburied. -/
def canReap (pid : ℤ) : Bool :=
  (k.table pid).any fun t => t.state = .zombie ∧ (t.type = .thread ∨ (k.space t.space).refs = 0)

/-- `proc_funeral` of a task already taken out of the table; it needs a current task to run in. -/
def procFuneral (c : ℕ) (t : Task) (waiters : List ℤ) : Sys :=
  match k.getCurrentProc c, t.type with
  | none, _ => k
  | some _, .proc => k
  | some _, .thread =>
    (k.modSpace t.space fun s => { s with refs := s.refs - 1 }).wakeAll cfg waiters

/-- `proc_take_zombie_by_pid`, then the funeral. -/
def bury (c : ℕ) (pid : ℤ) (waiters : List ℤ) : Sys :=
  match k.table pid with
  | none => k
  | some t =>
    if k.canReap pid then
      (k.setSlot pid none).procFuneral cfg c t waiters
    else k

/-- `proc_zombie_funeral`: one zombie after another, except the ones in their grace period. -/
def zombieFuneral (c : ℕ) (graced : ℤ → Bool) (waiters : ℤ → List ℤ) : ℕ → Sys → Sys
  | 0, k => k
  | n + 1, k =>
    match (slots cfg).find? fun p => k.canReap p && !graced p with
    | none => k
    | some p => zombieFuneral c graced waiters n (k.bury cfg c p (waiters p))

def procZombieFuneral (c : ℕ) (graced : ℤ → Bool) (waiters : ℤ → List ℤ) : Sys :=
  zombieFuneral cfg c graced waiters cfg.maxTaskNum k

/-- `proc_waitpid` by the current task. -/
def procWaitpid (c : ℕ) (cur pid : ℤ) (waiters : List ℤ) : Sys :=
  match k.table pid with
  | none => k
  | some t =>
    if t.state = .unused then k
    else if t.state = .zombie then k.bury cfg c pid waiters
    else (((k.modTask cur fun t => { t with waitFor := pid }).procUnready cur .wait).schedule c
      ).bury cfg c pid waiters

/-! ### Exit -/

/-- `proc_terminate` of a thread. `w` lists whom a dying task releases: the waiters of its
    semaphores and of the request it serves. -/
def terminateThread (pid : ℤ) (w : ℤ → List ℤ) : Sys :=
  (((((k.procUnready pid .zombie).wakeAll cfg (w pid)).modTask pid fun t =>
    { t with fatherPid := 0 }).procWakeupWaiting cfg pid).modTask pid fun t => { t with uuid := 0 })

/-- A child of a dying process: a process is told to stop, dead or alive, a thread dies too. -/
def terminateChild (c : ℕ) (father : ℤ) (w : ℤ → List ℤ) (k : Sys) (i : ℤ) : Sys :=
  match k.table i with
  | none => k
  | some p =>
    if p.fatherPid = father then
      if p.type = .proc then k.procSignalSend cfg c i sigStop none
      else if p.state.live then k.terminateThread cfg i w
      else k
    else k

/-- `proc_terminate` of a process. `late` are the clients and waiters its server releases. -/
def terminateProc (c : ℕ) (pid : ℤ) (s : ℕ) (w : ℤ → List ℤ) (late : List ℤ) : Sys :=
  let k₁ := (k.procUnready pid .zombie).wakeAll cfg (w pid)
  let k₂ := (slots cfg).foldl (terminateChild cfg c pid w) k₁
  let k₃ := (k₂.modSpace s fun s => { s with ipcSwitch := false }).wakeAll cfg late
  ((k₃.modSpace s fun s => { s with intr := .idle }).procWakeupWaiting cfg pid).modTask pid fun t =>
    { t with uuid := 0 }

/-- `proc_terminate`. -/
def procTerminate (c : ℕ) (pid : ℤ) (w : ℤ → List ℤ) (late : List ℤ) : Sys :=
  match k.procGet pid with
  | none => k
  | some t =>
    if t.type = .thread then k.terminateThread cfg pid w
    else k.terminateProc cfg c pid t.space w late

/-- `proc_exit`. -/
def procExit (c : ℕ) (pid : ℤ) (w : ℤ → List ℤ) (late : List ℤ) : Sys :=
  (k.procTerminate cfg c pid w late).schedule c

/-! ### Fork and threads -/

/-- What a fork meets: memory at the first and at the second try, whom the burials in between
    release, whether the image could be cloned, the core it is placed on, and whom the event of a
    parked fork wakes. -/
structure Birth where
  first : Alloc
  second : Alloc
  released : ℤ → List ℤ
  cloned : Bool
  core : ℕ
  event : List ℤ

/-- `kfork_raw` up to the clone: a full table is swept once. -/
def kforkRaw (c : ℕ) (type : TaskType) (parent : ℤ) (b : Birth) : Sys × Option ℤ :=
  match k.procCreate cfg type parent b.first with
  | (k', some i) => (k', some i)
  | (k', none) =>
    (k'.procZombieFuneral cfg c (fun _ => false) b.released).procCreate cfg type parent b.second

/-- `kfork`: the child is placed on a core, and queued unless the core daemon completes it. A child
    whose image could not be cloned stays behind as it is. -/
def kfork (c : ℕ) (type : TaskType) (cur : ℤ) (b : Birth) : Sys × Option ℤ :=
  match k.kforkRaw cfg c type cur b with
  | (k', none) => (k', none)
  | (k', some i) =>
    if type = .proc ∧ b.cloned = false then (k', none)
    else
      let k'' := k'.modTask i fun t => { t with core := b.core }
      (if k''.coreProcReady ∧ type = .proc then k'' else k''.procReady cfg i, some i)

/-- `sys_fork`: once the core daemon runs, parent and child are parked until it has cloned them. -/
def sysFork (c : ℕ) (cur : ℤ) (b : Birth) : Sys :=
  match k.kfork cfg c .proc cur b with
  | (k', none) => k'
  | (k', some i) =>
    if k'.coreProcReady then
      (((k'.setState i .block).setState cur .block).wakeAll cfg b.event).schedule c
    else k'

/-- `sys_thread`. -/
def sysThread (c : ℕ) (cur : ℤ) (b : Birth) : Sys := (k.kfork cfg c .thread cur b).1

/-- `proc_ipc_pool_spawn`: a parked worker on the core of the client. -/
def poolSpawn (c : ℕ) (serv : ℤ) (b : Birth) : Sys :=
  match k.kforkRaw cfg c .thread serv b with
  | (k', none) => k'
  | (k', some i) => k'.modTask i fun t => { t with core := b.core, state := .block }

/-- `kfork_core_halt` and the start of the core: the idle task is the current one. -/
def coreHalt (core : ℕ) (b : Birth) : Sys :=
  match k.kforkRaw cfg core .proc 0 b with
  | (k', none) => k'
  | (k', some i) =>
    ({ k'.modTask i fun t =>
        { t with core := core, isCoreIdleProc := true, state := .running, waitFor := 0 } with
      idle := Function.update k'.idle core (some i) }).setCurrentProc core i

/-! ### Who a task is -/

/-- `sys_detach`, of a process or of a thread. -/
def sysDetach (cur : ℤ) : Sys := k.modTask cur fun t => { t with fatherPid := 0 }

/-- `sys_load_elf`: `uuid` and command change at once, the cnode of the calling task only when the
    image loads. -/
def sysLoadElf (cur : ℤ) (cmd : List UInt8) (loads : Bool) : Sys :=
  if capPolicyCmdMax ≤ cmd.length then k
  else
    let k' := { k.modTask cur fun t => { t with cmd := cmd, uuid := k.nextUuid } with
      procUuid := k.nextUuid }
    if loads then
      (k'.modTask cur fun t =>
        { t with cnode := procCapOnExec k'.uuidOf k.rules t.uid cmd }).procReady cfg cur
    else k'

/-- `sys_proc_set_uid`: the uid is the calling task's, the cnode its owner's. -/
def sysProcSetUid (cur : ℤ) (uid : ℤ) : Sys :=
  if k.capCheck cfg cur (.has .root 0) then
    match k.procGetProc cfg cur with
    | none => k
    | some o => (k.modTask cur fun t => { t with uid := uid }).modTask o fun t =>
        { t with cnode := procCapOnSetuid t.cnode uid }
  else k

/-- `sys_proc_set_gid`. -/
def sysProcSetGid (cur : ℤ) (gid : ℤ) : Sys :=
  if k.capCheck cfg cur (.has .root 0) then k.modTask cur fun t => { t with gid := gid } else k

/-- `proc_cap_mint`. -/
def procCapMint (cur : ℤ) (type : ℕ) (rights : BitVec 32) (a b : BitVec 64) : Sys :=
  match k.procGetProc cfg cur with
  | none => k
  | some o => k.modTask o fun t =>
      if cnodeHasRoot t.cnode then
        match (CapType.ofCode type).bind fun ty => mintCap k.uuidOf ty rights a b with
        | none => t
        | some cap => { t with cnode := insertCap t.cnode cap }
      else t

/-- `proc_cap_grant`. -/
def procCapGrant (cur target : ℤ) (src : ℕ) (mask : BitVec 32) : Sys :=
  match (k.procGetProc cfg cur).bind k.cnodeOf, k.procGetProc cfg target with
  | some cn, some o =>
    match grantCap cn src mask with
    | none => k
    | some cap => k.modTask o fun t => { t with cnode := insertCap t.cnode cap }
  | _, _ => k

/-- `proc_cap_revoke`. -/
def procCapRevoke (cur : ℤ) (slot : ℕ) : Sys :=
  match k.procGetProc cfg cur with
  | none => k
  | some o => k.modTask o fun t => { t with cnode := capCnodeRevoke t.cnode slot }

/-- `proc_cap_policy_add`. -/
def procCapPolicyAdd (cur : ℤ) (cmd : List UInt8) (type : ℕ) (rights : BitVec 32)
    (a b : BitVec 64) : Sys :=
  match (k.procGetProc cfg cur).bind k.cnodeOf, CapType.ofCode type with
  | some cn, some ty =>
    if cnodeHasRoot cn = false ∨ cmd = [] ∨ ty = .invalid then k
    else
      { k with
        rules := Capability.Machine.addRule k.rules cmd
          ⟨ty, rights &&& Capability.capAll, a, b⟩ }
  | _, _ => k

/-! ### Signals to other tasks -/

/-- The gate of `sys_signal` and `sys_proc_wakeup`: the same user, root's uid, or a process cap on
    the target. -/
def mayReach (uid : ℤ) (cur target : ℤ) (t : Task) : Bool :=
  uid ≤ 0 ∨ uid = t.uid ∨ k.capCheck cfg cur (.proc target Capability.capW)

/-- `sys_signal`: a deadly signal ends a task that cannot run its handler. -/
def sysSignal (c : ℕ) (cur target : ℤ) (sig : ℤ) (w : ℤ → List ℤ) (late : List ℤ) : Sys :=
  match k.table cur, k.procGet target with
  | some me, some t =>
    if t.uid < 0 ∨ k.mayReach cfg me.uid cur target t = false then k
    else if (sig = sigKill ∨ sig = sigStop) ∧ target ≠ cur ∧ t.state ≠ .running ∧ t.state ≠ .ready then
      k.procExit cfg c target w late
    else k.procSignalSend cfg c target sig (some me.core)
  | _, _ => k

/-- `sys_proc_wakeup`, gated on the uid of the caller's owner. -/
def sysProcWakeup (cur target : ℤ) (token : ℕ) : Sys :=
  match (k.procGetProc cfg cur).bind k.table, k.procGet target with
  | some o, some t =>
    if k.mayReach cfg o.uid cur target t then k.procWakeupBy cfg target token else k
  | _, _ => k

variable {cfg} {k}

theorem tame_sysProcWakeup {pid target : ℤ} {token : ℕ} :
    Tame k (k.sysProcWakeup cfg pid target token) := by
  unfold sysProcWakeup
  split
  · split_ifs
    · exact tame_procWakeupBy token
    · exact .refl k
  · exact .refl k

/-! ### What a creation does -/

theorem freeSlot_none {i : ℤ} (h : k.freeSlot cfg = some i) : k.table i = none := by
  have hi := List.find?_some h
  simpa using hi

theorem freeSlot_range {i : ℤ} (h : k.freeSlot cfg = some i) : 0 ≤ i ∧ i < cfg.maxTaskNum := by
  have hi := List.mem_of_find?_eq_some h
  rw [List.mem_map] at hi
  obtain ⟨n, -, rfl⟩ := hi
  exact ⟨Int.natCast_nonneg _, Int.ofNat_lt.mpr (Nat.mod_lt _ cfg.maxTaskNum_pos)⟩

@[simp] theorem newSpace_table {type : TaskType} {t : Task} : (k.newSpace type t).table = k.table := by
  cases type <;> rfl

@[simp] theorem newSpace_ready {type : TaskType} {t : Task} : (k.newSpace type t).ready = k.ready := by
  cases type <;> rfl

/-- A creation that fails leaves the tasks and the queues alone. -/
theorem procCreate_none {type : TaskType} {parent : ℤ} {a : Alloc} {k' : Sys}
    (h : k.procCreate cfg type parent a = (k', none)) :
    k' = k ∨ ∃ n, k' = { k with lastCreatePid := n, procUuid := k.nextUuid } := by
  unfold procCreate at h
  split at h
  · cases a with
    | ok => cases h
    | noTask => cases h; exact .inl rfl
    | noSpace => cases h; exact .inr ⟨_, rfl⟩
  · cases h
    exact .inl rfl

/-- A creation that succeeds fills a free slot. -/
theorem procCreate_some {type : TaskType} {parent i : ℤ} {a : Alloc} {k' : Sys}
    (h : k.procCreate cfg type parent a = (k', some i)) :
    ∃ t, k.table parent = some t ∧ k.freeSlot cfg = some i ∧
      k' = { (k.newSpace type t).setSlot i (some (k.newTask cfg type parent t)) with
        lastCreatePid := i.toNat + 1,
        procUuid := k.nextUuid } := by
  unfold procCreate at h
  split at h
  case h_1 j t hj ht =>
    cases a with
    | ok =>
      simp only [Prod.mk.injEq, Option.some.injEq] at h
      obtain ⟨rfl, rfl⟩ := h
      exact ⟨t, ht, hj, rfl⟩
    | noTask => cases h
    | noSpace => cases h
  case h_2 => cases h

end Sys
end EwokOS.Kernel.Tasks
