import EwokOS.Kernel.Life
import EwokOS.Schemes.Run

/-! Runs of the whole task system.

    A step is one system call on some core, one interrupt, or one action of the timer: the kernel
    lock makes each of them atomic. What the caller passes in, what memory it finds and what the
    other subsystems answer are arguments of the step, so a theorem about every run covers every
    such outcome. A core whose current task has died only schedules away from it. -/

namespace EwokOS.Kernel.Tasks

/-- The system calls that touch tasks. -/
inductive Call where
  | exit (w : ℤ → List ℤ) (late : List ℤ)
  | fork (b : Sys.Birth)
  | thread (b : Sys.Birth)
  | detach
  | loadElf (cmd : List UInt8) (loads : Bool)
  | waitpid (pid : ℤ) (waiters : List ℤ)
  | setUid (uid : ℤ)
  | setGid (gid : ℤ)
  | capMint (type : ℕ) (rights : BitVec 32) (a b : BitVec 64)
  | capGrant (target : ℤ) (src : ℕ) (mask : BitVec 32)
  | capRevoke (slot : ℕ)
  | capPolicyAdd (cmd : List UInt8) (type : ℕ) (rights : BitVec 32) (a b : BitVec 64)
  | coreReady
  | usleep (count : ℕ)
  | yield
  | block (token : ℕ)
  | blockTimeout (token usec : ℕ)
  | wakeup (target : ℤ) (token : ℕ)
  | signalSetup (entry : ℕ)
  | signal (target sig : ℤ) (w : ℤ → List ℤ) (late : List ℤ)
  | signalEnd
  | softInt (target : ℤ)
  | interruptEnd (again : Bool) (waiters : List ℤ)
  | ipcDispatch (serv : ℤ) (lazy : Bool)
  | ipcEnd (r : Sys.Reply)
  | poolSpawn (serv : ℤ) (b : Sys.Birth)
  | poolDispatch (worker : ℤ) (handoff : Bool)
  | poolPark (waiters : List ℤ) (client : Option ℤ)
  | poolEnd (waiters : List ℤ) (w : ℤ → List ℤ)

/-- What can happen to the system. -/
inductive Op where
  | call (c : ℕ) (call : Call)
  | schedule (c : ℕ)
  | interrupt (c : ℕ) (target : ℤ)
  | fault (c : ℕ) (w : ℤ → List ℤ) (late : List ℤ)
  | sleepTick (usec : ℕ)
  | priorityTick (pid : ℤ)
  | interruptTimeout (pid : ℤ) (waiters : List ℤ)
  | ipcTimeout (serv : ℤ) (client waiters : List ℤ) (next : Bool)
  | poolShrink (worker : ℤ)
  | zombieFuneral (c : ℕ) (graced : ℤ → Bool) (released : ℤ → List ℤ)
  | coreHalt (core : ℕ) (b : Sys.Birth)

namespace Sys
variable (cfg : Config) (k : Sys)

/-- The process that a request of a client of pid `serv` goes to: `get_proc_pid`. -/
def serverOf (serv : ℤ) : ℤ := (k.procGetProc cfg serv).getD serv

/-- `_svc_handler` for the current task `cur`, whose record is `t`. -/
def svcHandler (c : ℕ) (cur : ℤ) (t : Task) : Call → Sys
  | .exit w late => k.procExit cfg c cur w late
  | .fork b => k.sysFork cfg c cur b
  | .thread b => k.sysThread cfg c cur b
  | .detach => k.sysDetach cur
  | .loadElf cmd loads => k.sysLoadElf cfg cur cmd loads
  | .waitpid pid waiters => k.procWaitpid cfg c cur pid waiters
  | .setUid uid => k.sysProcSetUid cfg cur uid
  | .setGid gid => k.sysProcSetGid cfg cur gid
  | .capMint type rights a b => k.procCapMint cfg cur type rights a b
  | .capGrant target src mask => k.procCapGrant cfg cur target src mask
  | .capRevoke slot => k.procCapRevoke cfg cur slot
  | .capPolicyAdd cmd type rights a b => k.procCapPolicyAdd cfg cur cmd type rights a b
  | .coreReady => if k.capCheck cfg cur (.has .root 0) then { k with coreProcReady := true } else k
  | .usleep count => k.procUsleep c cur count
  | .yield => k.schedule c
  | .block token => k.procBlockBy c cur token
  | .blockTimeout token usec => k.procBlockByTimeout c cur token usec
  | .wakeup target token => k.sysProcWakeup cfg cur target token
  | .signalSetup entry => k.procSignalSetup cur entry
  | .signal target sig w late => k.sysSignal cfg c cur target sig w late
  | .signalEnd => k.procSignalEnd cfg c cur
  | .softInt target => k.interruptSend cfg c target t.core
  | .interruptEnd again waiters => k.interruptEnd cfg c cur again waiters
  | .ipcDispatch serv lazy =>
    if (k.procGet (k.serverOf cfg serv)).isSome then
      k.procIpcDoTask cfg c (k.serverOf cfg serv) lazy t.core
    else k
  | .ipcEnd r => k.procIpcEnd cfg c cur r
  | .poolSpawn serv b =>
    if (k.procGet (k.serverOf cfg serv)).isSome then k.poolSpawn cfg c (k.serverOf cfg serv) b else k
  | .poolDispatch worker handoff => k.ipcPoolDispatch cfg c worker t.core handoff
  | .poolPark waiters client => k.procIpcPoolPark cfg c cur waiters client
  | .poolEnd waiters w => (k.wakeAll cfg waiters).procExit cfg c cur w []

/-- `svc_handler`: nothing is done on behalf of a dead task. -/
def svc (c : ℕ) (call : Call) : Sys :=
  match k.procGet (k.current c) with
  | none => k.schedule c
  | some t => k.svcHandler cfg c (k.current c) t call

/-- One step; `none` for an interrupt on a core without a live task, whose sender the kernel would
    dereference, and for a second start of a core. -/
def step : Op → Option Sys
  | .call c call => some (k.svc cfg c call)
  | .schedule c => some (k.schedule c)
  | .interrupt c target =>
    (k.procGet (k.current c)).map fun t => k.interruptSend cfg c target t.core
  | .fault c w late =>
    match k.getCurrentProc c with
    | none => some (k.schedule c)
    | some cur => some (k.procExit cfg c ((k.procGetProc cfg cur).getD cur) w late)
  | .sleepTick usec => some (k.renewSleepCounter cfg usec)
  | .priorityTick pid => some (k.renewPriority cfg pid)
  | .interruptTimeout pid waiters => some (k.procInterruptTimeout cfg pid waiters)
  | .ipcTimeout serv client waiters next => some (k.procIpcTimeout cfg serv client waiters next)
  | .poolShrink worker => some (k.procWakeup cfg worker)
  | .zombieFuneral c graced released => some (k.procZombieFuneral cfg c graced released)
  | .coreHalt core b => if (k.idle core).isSome then none else some (k.coreHalt cfg core b)

/-- `/sbin/init` once it is loaded: pid 0, ready on core 0, with the root capset. -/
def initTask : Task where
  type := .proc
  fatherPid := -1
  space := 0
  uuid := 2
  uid := 0
  gid := 0
  cmd := [0x2f, 0x73, 0x62, 0x69, 0x6e, 0x2f, 0x69, 0x6e, 0x69, 0x74]
  cnode := Capability.procCapGrantRoot
  isCoreIdleProc := false
  core := 0
  state := .ready
  waitFor := -1
  blockBy := 0
  wakeBy := 0
  wakePending := false
  sleepCounter := 0

/-- The kernel before any core runs. -/
def boot : Sys where
  table := Function.update (fun _ => none) 0 (some initTask)
  space := fun _ => .fresh
  ready := Function.update (fun _ => []) 0 [0]
  current := fun _ => -1
  idle := fun _ => none
  spaceNum := 1
  procUuid := 2
  lastCreatePid := 1
  coreProcReady := false
  rules := []

theorem boot_table {p : ℤ} {t : Task} (h : boot.table p = some t) : p = 0 ∧ t = initTask := by
  rcases eq_or_ne p 0 with rfl | hp
  · exact ⟨rfl, (Option.some.inj h).symm⟩
  · have hn : boot.table p = none := by simp [boot, hp]
    rw [hn] at h
    cases h

theorem boot_ready {c : ℕ} {p : ℤ} (h : p ∈ boot.ready c) : c = 0 ∧ p = 0 := by
  rcases eq_or_ne c 0 with rfl | hc
  · exact ⟨rfl, List.mem_singleton.mp h⟩
  · have hn : boot.ready c = [] := by simp [boot, hc]
    rw [hn] at h
    cases h

end Sys

/-- A small uniprocessor. -/
def tiny : Config := ⟨4, by decide, false, false⟩

/-- A fork that finds everything it needs. -/
def plainBirth : Sys.Birth := ⟨.ok, .ok, fun _ => [], true, 0, []⟩

end EwokOS.Kernel.Tasks
