import EwokOS.Kernel.Proc

/-! The scheduler (`proc.c`, `schedule.c`): the state of a task and the ready queues.

    Each function below writes `info.state`, the queue, or both, in the order the source does; a
    build for x86_64 queues differently from the others (`Config.x86`). Inter-processor interrupts,
    time accounting and the priority counters only decide when a core schedules next, so they are
    left to the order of the operations. -/

namespace EwokOS.Kernel.Tasks

/-- A real event ends every sleep saved in a space; an armed IPC dispatch keeps its own. -/
def Space.woken (s : Space) : Space :=
  { s with
    ipcSaved := if s.ipcSwitch then s.ipcSaved else { s.ipcSaved with state := .ready },
    sigSaved := { s.sigSaved with state := .ready },
    intrSaved := { s.intrSaved with state := .ready } }

/-- The sticky wake of `proc_wakeup_by`: a node token is kept against a later generic wake and
    against another node's. -/
def Task.latch (token : ℕ) (t : Task) : Task :=
  if t.wakePending then if t.wakeBy = 0 then { t with wakeBy := token } else t
  else { t with wakeBy := token, wakePending := true }

namespace Sys
variable (cfg : Config) (k : Sys)

/-! ### Ready queues -/

/-- `queue_push_head` or `queue_push`. -/
def queuePush (head : Bool) (pid : ℤ) (q : List ℤ) : List ℤ :=
  if head then pid :: q else q ++ [pid]

/-- `proc_queue_remove_all`: the queue of the task's own core only. -/
def procQueueRemoveAll (pid : ℤ) : Sys :=
  match k.table pid with
  | none => k
  | some t => k.setQueue t.core ((k.ready t.core).filter (· ≠ pid))

/-- The queue half of `proc_ready_with_order`. -/
def enqueue (q : List ℤ) (pid : ℤ) (head : Bool) : List ℤ :=
  if cfg.x86 then queuePush head pid (q.filter (· ≠ pid))
  else if pid ∈ q then
    -- already queued: moved only when it has to be first and is not
    if head ∧ q.head? ≠ some pid then queuePush head pid (q.erase pid) else q
  else queuePush head pid q

/-- `proc_ready_with_order`. -/
def procReadyWithOrder (pid : ℤ) (head : Bool) : Sys :=
  match k.table pid with
  | none => k
  | some t =>
    (k.setState pid .ready).setQueue t.core (enqueue cfg (k.ready t.core) pid head)

/-- `proc_ready`. -/
def procReady (pid : ℤ) : Sys := k.procReadyWithOrder cfg pid false

/-- `proc_unready_locked`. -/
def procUnready (pid : ℤ) (st : TaskState) : Sys := (k.procQueueRemoveAll pid).setState pid st

/-! ### Waking -/

/-- The slots of the table, in the order the kernel's loops visit them. -/
def slots : List ℤ := (List.range cfg.maxTaskNum).map fun n : ℕ => (n : ℤ)

/-- One round of `proc_wakeup_waiting`. -/
def wakeWaiter (pid : ℤ) (k : Sys) (i : ℤ) : Sys :=
  match k.table i with
  | none => k
  | some t =>
    if t.state = .wait ∧ t.waitFor = pid then
      (k.modTask i fun t => { t with waitFor := -1 }).procReadyWithOrder cfg i cfg.x86
    else k

/-- `proc_wakeup_waiting`: every task that waits for `pid`. -/
def procWakeupWaiting (pid : ℤ) : Sys := (slots cfg).foldl (wakeWaiter cfg pid) k

/-- `proc_wakeup_all_state`. -/
def procWakeupAllState (pid : ℤ) : Sys :=
  match k.table pid with
  | none => k
  | some t =>
    (k.procReadyWithOrder cfg pid ((k.space t.space).intr = .start)).modSpace t.space Space.woken

/-- `proc_wakeup_by`. -/
def procWakeupBy (pid : ℤ) (token : ℕ) : Sys :=
  match k.procGet pid with
  | none => k
  | some t =>
    if t.state = .block then
      if token ≠ 0 ∧ t.blockBy ≠ 0 ∧ t.blockBy ≠ token then k
      else (k.modTask pid fun t =>
          { t with blockBy := 0, sleepCounter := 0, wakeBy := 0, wakePending := false }
        ).procWakeupAllState cfg pid
    else (k.procWakeupAllState cfg pid).modTask pid (Task.latch token)

/-- `proc_wakeup`. -/
def procWakeup (pid : ℤ) : Sys := k.procWakeupBy cfg pid 0

/-- A loop that wakes the tasks of some wait queue, one after another. -/
def wakeAll (pids : List ℤ) : Sys := pids.foldl (fun k p => k.procWakeup cfg p) k

/-! ### Switching -/

/-- The handler a switch to the main context of a process injects, if one is pending: an interrupt
    first, then a signal, then an IPC request. -/
def injectHandler (t : Task) : Sys :=
  if t.type = .thread then k
  else k.modSpace t.space fun s =>
    if s.intr = .start then { s with intr := .working }
    else if s.sigSwitch then { s with sigSwitch := false }
    else if s.ipcSwitch then { s with ipcSwitch := false }
    else s

/-- The outgoing task of `proc_switch`: a running one is queued again, an idle one never. -/
def requeueCurrent (pid : ℤ) (quick : Bool) : Sys :=
  match k.table pid with
  | none => k
  | some t =>
    if t.state = .running ∧ k.idleProc t.core ≠ some pid then
      (k.setState pid .ready).setQueue t.core
        (queuePush quick pid ((k.ready t.core).filter (· ≠ pid)))
    else k

/-- `set_current_proc`: refused for a task of another core. -/
def setCurrentProc (c : ℕ) (pid : ℤ) : Sys :=
  match k.table pid with
  | none => k
  | some t => if t.core = c then { k with current := Function.update k.current c pid } else k

/-- `proc_switch` on core `c`. -/
def procSwitch (c : ℕ) (dst : ℤ) (quick : Bool) : Sys :=
  match k.table dst with
  | none => k
  | some t =>
    let k' := (k.procQueueRemoveAll dst).injectHandler t
    match k.getCurrentProc c with
    | none => (k'.setState dst .running).setCurrentProc c dst
    | some cproc =>
      if cproc = dst then k'.setState dst .running
      else ((k'.requeueCurrent cproc quick).setState dst .running).setCurrentProc c dst

/-- `proc_switch_multi_core`: a direct handoff on core `core`, else a wake. -/
def procSwitchMultiCore (c : ℕ) (dst : ℤ) (core : ℕ) : Sys :=
  match k.table dst with
  | none => k
  | some t =>
    if t.core = core then
      if t.state = .running then k.procSwitch c dst true
      else (k.procWakeupAllState cfg dst).procSwitch c dst true
    else if cfg.smp then k.procWakeup cfg dst
    else k

/-! ### Picking the next task -/

/-- `info.state == READY || info.state == RUNNING`. -/
def runnable (pid : ℤ) : Bool :=
  (k.table pid).any fun t => t.state = .ready ∨ t.state = .running

/-- The pops of `proc_get_next_ready`: entries that became stale are dropped. -/
def popReady : List ℤ → Option ℤ × List ℤ
  | [] => (none, [])
  | p :: q => if k.runnable p then (some p, q) else popReady q

/-- The fallback of `proc_get_next_ready`: the current task, when it still runs and is no idle
    task. -/
def keepCurrent (c : ℕ) : Option ℤ :=
  (k.getCurrentProc c).filter fun p => (k.table p).any fun t =>
    t.state = .running ∧ k.idleProc t.core ≠ some p

/-- The idle task is parked until nothing else is ready. -/
def parkIdle (c : ℕ) : Sys :=
  match k.idleProc c with
  | none => k
  | some i => k.modTask i fun t => { t with state := .wait, waitFor := 0 }

/-- `schedule`. Without any task to run it panics and returns. -/
def schedule (c : ℕ) : Sys :=
  let k₁ := k.parkIdle c
  let r := k₁.popReady (k₁.ready c)
  let k₂ := k₁.setQueue c r.2
  match (r.1.or (k₂.keepCurrent c)).or (k₂.idleProc c) with
  | none => k₂
  | some next => (k₂.setState next .running).procSwitch c next false

/-! ### Blocking -/

/-- `proc_block_by` and `proc_block_by_timeout`: they differ in the wakes that satisfy them and in
    the deadline they set. A pending wake of another node also makes the task run on. -/
def blockWith (compatible : Task → Bool) (sleep : ℤ) (c : ℕ) (pid : ℤ) (token : ℕ) : Sys :=
  match k.table pid with
  | none => k
  | some t =>
    let runNow := if t.wakePending then compatible t || t.wakeBy ≠ 0 else t.state = .ready
    let k' := k.modTask pid fun t =>
      if t.wakePending then { t with wakePending := false, wakeBy := 0 } else t
    if runNow then
      k'.modTask pid fun t =>
        { t with state := if t.state = .ready then .running else t.state, blockBy := 0 }
    else
      ((k'.modTask pid fun t => { t with blockBy := token, sleepCounter := sleep }).procUnready
        pid .block).schedule c

/-- `proc_block_by`: a generic block takes any wake, a node's block that node's. -/
def procBlockBy (c : ℕ) (pid : ℤ) (token : ℕ) : Sys :=
  k.blockWith (fun t => token = 0 ∨ t.wakeBy = token) 0 c pid token

/-- `proc_block_by_timeout`: a generic wake is an artefact of the caller's own requests and does
    not count. -/
def procBlockByTimeout (c : ℕ) (pid : ℤ) (token : ℕ) (usec : ℕ) : Sys :=
  k.blockWith (fun t => if token = 0 then t.wakeBy ≠ 0 else t.wakeBy = token) usec c pid token

/-- `proc_usleep`. -/
def procUsleep (c : ℕ) (pid : ℤ) (count : ℕ) : Sys :=
  ((k.modTask pid fun t => { t with sleepCounter := count }).procUnready pid .sleeping).schedule c

/-- One round of `renew_sleep_counter`. -/
def tickSleeper (usec : ℕ) (k : Sys) (i : ℤ) : Sys :=
  match k.table i with
  | none => k
  | some t =>
    if t.state = .sleeping ∨ t.state = .block ∧ 0 < t.sleepCounter then
      if t.sleepCounter - usec ≤ 0 then
        (k.modTask i fun t =>
          { t with
            sleepCounter := 0,
            blockBy := if t.state = .block then 0 else t.blockBy }).procReady cfg i
      else k.modTask i fun t => { t with sleepCounter := t.sleepCounter - usec }
    else k

/-- `renew_sleep_counter`: sleeps and timed blocks count down. -/
def renewSleepCounter (usec : ℕ) : Sys := (slots cfg).foldl (tickSleeper cfg usec) k

/-- The requeue of `renew_priority_counter` for a task whose slice is used up. -/
def renewPriority (pid : ℤ) : Sys :=
  match k.table pid with
  | none => k
  | some t => if t.state = .ready then k.procReady cfg pid else k

end Sys
end EwokOS.Kernel.Tasks
