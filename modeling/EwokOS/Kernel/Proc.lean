import EwokOS.Kernel.Basic
import EwokOS.Kernel.Cap
import EwokOS.Schemes.Chase

/-! The task table (`proc.h`, `proc.c`): tasks, address spaces, ready queues and cores.

    A task is a process (`TASK_TYPE_PROC`, the owner of an address space) or a thread that runs in
    the space of the task that created it. The three save areas of a space, one each for the
    interrupt, the signal and the IPC handler that may borrow its main context, are kept without
    their register frames: here only the scheduling state they carry matters.

        _task_table[pid] --- info.type / father_pid / space ---> who a task is      (`Kin`)
                         \-- info.state / core / wake token ---> how it is scheduled (`Task`)

    A pid stands for the `proc_t*` of its slot. That is faithful as long as no queue holds the
    pointer of a freed task, which is part of what `SchedRun` proves. -/

namespace EwokOS.Kernel

/-- What `proc_get` and `get_current_proc` accept: neither `UNUSED` nor `ZOMBIE`. -/
def TaskState.live : TaskState → Bool
  | .unused => false
  | .zombie => false
  | _ => true

/-- `BLOCK`, `SLEEPING` or `WAIT`. -/
def TaskState.parked : TaskState → Bool
  | .block => true
  | .sleeping => true
  | .wait => true
  | _ => false

end EwokOS.Kernel

namespace EwokOS.Kernel.Tasks

open Capability (Cnode PolicyRule procCapGrantRoot capCnodeInit)

/-- Who a task is: the part of `proc_t` that scheduling never writes. -/
structure Kin where
  type : TaskType
  fatherPid : ℤ
  space : ℕ
  uuid : ℕ
  uid : ℤ
  gid : ℤ
  cmd : List UInt8
  cnode : Cnode
  isCoreIdleProc : Bool

/-- A task of the table. -/
structure Task extends Kin where
  core : ℕ
  state : TaskState
  waitFor : ℤ
  blockBy : ℕ
  wakeBy : ℕ
  wakePending : Bool
  sleepCounter : ℤ

/-- `saved_state_t` without the register frame. -/
structure Saved where
  state : TaskState
  sleepCounter : ℤ
  deriving DecidableEq

/-- `memset(saved_state, 0, ..)`: the state of an empty save area is `UNUSED`. -/
def Saved.empty : Saved := ⟨.unused, 0⟩

/-- `proc_space_t`: the threads it holds and its three hijack areas. -/
structure Space where
  refs : ℕ
  intr : IntrState
  intrSaved : Saved
  sigEntry : ℕ
  sigNo : ℤ
  sigSwitch : Bool
  sigSaved : Saved
  ipcSwitch : Bool
  ipcSaved : Saved
  deriving DecidableEq

/-- `proc_init_space`. -/
def Space.fresh : Space := ⟨0, .idle, .empty, 0, 0, false, .empty, false, .empty⟩

/-- What a build fixes: the size of the task table and the two `#ifdef`s of the scheduler. -/
structure Config where
  maxTaskNum : ℕ
  maxTaskNum_pos : 0 < maxTaskNum
  x86 : Bool
  smp : Bool

/-- The kernel's tasks. A pid outside the table, `-1` among them, has no task. -/
structure Sys where
  table : ℤ → Option Task
  space : ℕ → Space
  ready : ℕ → List ℤ
  current : ℕ → ℤ
  idle : ℕ → Option ℤ
  spaceNum : ℕ
  procUuid : ℕ
  lastCreatePid : ℕ
  coreProcReady : Bool
  rules : List PolicyRule

namespace Sys
variable (cfg : Config) (k : Sys)

/-! ### Looking a task up -/

/-- `proc_get`: the live task of a pid. -/
def procGet (pid : ℤ) : Option Task := (k.table pid).filter fun t => t.state.live

def Live (pid : ℤ) : Prop := ∃ t, k.table pid = some t ∧ t.state.live = true

/-- `get_current_proc` on core `c`. -/
def getCurrentProc (c : ℕ) : Option ℤ := (k.procGet (k.current c)).map fun _ => k.current c

/-- One round of the loop of `proc_get_proc`: a process is its own owner, a thread refers to its
    father. -/
def hop (pid : ℤ) : Option (ℤ ⊕ ℤ) :=
  (k.procGet pid).map fun t => if t.type = .proc then .inl pid else .inr t.fatherPid

/-- `proc_get_proc`. A chain of live tasks that ends in a process passes each slot at most once. -/
def procGetProc (pid : ℤ) : Option ℤ := Schemes.chase k.hop (cfg.maxTaskNum + 1) pid

/-- The idle task of a core, as long as it is still in the table. -/
def idleProc (c : ℕ) : Option ℤ :=
  (k.idle c).filter fun p => (k.table p).any fun t => t.isCoreIdleProc

/-! ### Writing a task, a space, a queue -/

/-- A write through the pointer of a slot. -/
def modTask (pid : ℤ) (f : Task → Task) : Sys :=
  { k with table := Function.update k.table pid ((k.table pid).map f) }

/-- A slot is taken or left: `_task_table[pid] = ..`. -/
def setSlot (pid : ℤ) (u : Option Task) : Sys :=
  { k with table := Function.update k.table pid u }

/-- A write to an address space. -/
def modSpace (s : ℕ) (f : Space → Space) : Sys :=
  { k with space := Function.update k.space s (f (k.space s)) }

/-- `info.state = st`, the queue left alone. -/
def setState (pid : ℤ) (st : TaskState) : Sys := k.modTask pid fun t => { t with state := st }

def setQueue (c : ℕ) (q : List ℤ) : Sys := { k with ready := Function.update k.ready c q }

/-- Who each pid is. -/
def kin (pid : ℤ) : Option Kin := (k.table pid).map Task.toKin

end Sys
end EwokOS.Kernel.Tasks
