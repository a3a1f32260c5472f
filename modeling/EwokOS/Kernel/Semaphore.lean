import Mathlib.Algebra.Ring.Int.Defs
import Mathlib.Algebra.Ring.Nat
import Mathlib.Data.List.Basic
import Mathlib.Logic.Function.Basic

/-! The kernel semaphores of `kernel/src/semaphore.c`.

    A semaphore is a counting permit pool; the tasks waiting for a permit sit in one flat table
    shared by all semaphores. Every function below is one critical section under the proc lock, as
    the source has it, on the pair of tables. Two things reach outside the file: `proc_get(pid)`,
    asked only whether the task is alive, is the argument `alive`; and the calls of
    `proc_wakeup_by` are collected, in order, in `wakes`.

        count ──try_acquire──▶ a running task ──quit──▶ count
        count ──hand-off─────▶ granted slot ──collect──▶ a running task -/

namespace EwokOS.Kernel.Semaphore

@[irreducible] def semaphoreMax : ℕ := 1024
@[irreducible] def semWaiterMax : ℕ := 256

/-- Ceiling of a counting semaphore (`SEMAPHORE_COUNT_MAX`). -/
def semaphoreCountMax : ℤ := 0x7fffffff

/-- Modulus of the `uint32_t` arrival counter. -/
def seqMod : ℕ := 2 ^ 32

inductive Occupancy where | idle | occupied
  deriving DecidableEq, Repr

/-- `semaphore_t`. A slot is free when `createrPid` is -1. -/
structure Sem where
  createrPid : ℤ
  occupiedPid : ℤ
  occupied : Occupancy
  count : ℤ
  maxCount : ℤ
  deriving DecidableEq, Repr

/-- `sem_waiter_t`. `semId` is 1-based; 0 marks the slot free. -/
structure Waiter where
  semId : ℕ
  pid : ℤ
  seq : ℕ
  granted : Bool
  deriving DecidableEq, Repr

/-- The file's three statics, and the wake-ups issued so far as (pid, index of the token). -/
structure Table where
  semaphores : ℕ → Sem
  waiters : ℕ → Waiter
  waiterSeq : ℕ
  wakes : List (ℤ × ℕ)

/-- Results of an enter, delivered in `ctx->gpr[0]` (`SEM_RES_*`). -/
inductive SemRes where | acquired | error | occupied | timeout | retry
  deriving DecidableEq, Repr

def Sem.free : Sem := ⟨-1, -1, .idle, 0, 1⟩

/-- `semaphore_init`. -/
def semaphoreInit : Table := ⟨fun _ => .free, fun _ => ⟨0, -1, 0, false⟩, 0, []⟩

namespace Table
variable (st : Table)

def setSem (idx : ℕ) (s : Sem) : Table :=
  { st with semaphores := Function.update st.semaphores idx s }

def setWaiter (i : ℕ) (w : Waiter) : Table :=
  { st with waiters := Function.update st.waiters i w }

/-- `proc_wakeup_by(waiter, sem_token(idx))`. -/
def wake (pid : ℤ) (idx : ℕ) : Table := { st with wakes := st.wakes ++ [(pid, idx)] }

def semRefreshOccupied (idx : ℕ) : Table :=
  let s := st.semaphores idx
  st.setSem idx { s with occupied := if s.count ≤ 0 then .occupied else .idle }

def semValidIdx (idx : ℕ) : Bool :=
  decide (idx < semaphoreMax) && (st.semaphores idx).createrPid != -1

def semIsBinary (idx : ℕ) : Bool := (st.semaphores idx).maxCount == 1

/-- First free wait slot, stamped with the next arrival number. -/
def semWaiterAddLocked (semId : ℕ) (pid : ℤ) : Option ℕ × Table :=
  match (List.range semWaiterMax).find? fun i => (st.waiters i).semId == 0 with
  | none => (none, st)
  | some i =>
    (some i, { st.setWaiter i ⟨semId, pid, st.waiterSeq, false⟩ with
      waiterSeq := (st.waiterSeq + 1) % seqMod })

def semWaiterFindLocked (semId : ℕ) (pid : ℤ) : Option ℕ :=
  (List.range semWaiterMax).find? fun i =>
    (st.waiters i).semId == semId && (st.waiters i).pid == pid

def semWaiterDelLocked (slot : ℕ) (pid : ℤ) : Table :=
  let w := st.waiters slot
  if semWaiterMax ≤ slot then st
  else if w.semId = 0 ∨ w.pid ≠ pid then st
  else st.setWaiter slot { w with semId := 0, pid := -1, granted := false }

/-- One turn of the scan for the oldest waiter: `best` is (slot, seq). -/
def headStep (idx : ℕ) (best : Option (ℕ × ℕ)) (i : ℕ) : Option (ℕ × ℕ) :=
  let w := st.waiters i
  if w.semId ≠ idx + 1 ∨ w.granted = true then best
  else match best with
    | none => some (i, w.seq)
    | some (b, bestSeq) => if w.seq < bestSeq then some (i, w.seq) else some (b, bestSeq)

/-- Oldest ungranted waiter of this semaphore. -/
def semWaiterHeadLocked (idx : ℕ) : Option ℕ :=
  ((List.range semWaiterMax).foldl (st.headStep idx) none).map Prod.fst

/-- Handing one permit to the waiter in `slot`. -/
def grant (idx slot : ℕ) : Table :=
  let w := st.waiters slot
  let s := st.semaphores idx
  let s := { s with count := s.count - 1 }
  let st := (st.setSem idx s).setWaiter slot { w with granted := true }
  let st := if st.semIsBinary idx then st.setSem idx { s with occupiedPid := w.pid } else st
  (st.semRefreshOccupied idx).wake w.pid idx

variable (alive : ℤ → Bool)

/-- The `while` of `sem_handoff_locked`. Each turn either returns or frees a slot, so
    `semWaiterMax + 1` turns are enough. -/
def semHandoffLoop (idx : ℕ) : ℕ → Table → Table
  | 0, st => st
  | fuel + 1, st =>
    if 0 < (st.semaphores idx).count then
      match st.semWaiterHeadLocked idx with
      | none => st
      | some slot =>
        let pid := (st.waiters slot).pid
        if alive pid then st.grant idx slot
        else semHandoffLoop idx fuel (st.semWaiterDelLocked slot pid)
    else st

def semHandoffLocked (idx : ℕ) : Table := semHandoffLoop alive idx (semWaiterMax + 1) st

/-- One turn of `sem_waiter_purge_locked`. -/
def purgeStep (idx : ℕ) (st : Table) (i : ℕ) : Table :=
  let w := st.waiters i
  if w.semId ≠ idx + 1 then st
  else
    let st := st.semWaiterDelLocked i w.pid
    if alive w.pid then st.wake w.pid idx else st

def semWaiterPurgeLocked (idx : ℕ) : Table :=
  (List.range semWaiterMax).foldl (purgeStep alive idx) st

def semResetLocked (idx : ℕ) : Table := (st.semWaiterPurgeLocked alive idx).setSem idx .free

def semTryAcquireLocked (idx : ℕ) (pid : ℤ) : Bool × Table :=
  let s := st.semaphores idx
  if s.count ≤ 0 then (false, st)
  else
    let s := { s with count := s.count - 1 }
    let s := if st.semIsBinary idx then { s with occupiedPid := pid } else s
    (true, (st.setSem idx s).semRefreshOccupied idx)

/-- `sem_alloc_raw` for the owner process `pid`; 0 when the table is full. -/
def semAllocRaw (pid count maxCount : ℤ) : ℕ × Table :=
  let count := if count < 0 then 0 else count
  match (List.range semaphoreMax).find? fun i => (st.semaphores i).createrPid == -1 with
  | none => (0, st)
  | some i =>
    let s := st.semaphores i
    let s := { s with createrPid := pid, count := count, maxCount := maxCount, occupiedPid := -1 }
    (i + 1, (st.setSem i s).semRefreshOccupied i)

def semaphoreAlloc (pid : ℤ) : ℕ × Table := st.semAllocRaw pid 1 1

def semaphoreAllocCount (pid count : ℤ) : ℕ × Table := st.semAllocRaw pid count semaphoreCountMax

/-- `semaphore_clear`: reset every semaphore the process `pid` created. -/
def semaphoreClear (pid : ℤ) : Table :=
  (List.range semaphoreMax).foldl
    (fun st i => if (st.semaphores i).createrPid = pid then st.semResetLocked alive i else st) st

/-- First loop of `semaphore_clear_occupied`: drop the dead task's places in the wait table, and
    give back a permit that was already granted. -/
def clearWaiterStep (pid : ℤ) (st : Table) (i : ℕ) : Table :=
  let w := st.waiters i
  if w.semId = 0 ∨ w.pid ≠ pid then st
  else
    let idx := w.semId - 1
    let st := st.semWaiterDelLocked i pid
    if w.granted = false ∨ st.semValidIdx idx = false then st
    else
      let s := st.semaphores idx
      let s := if s.count < s.maxCount then { s with count := s.count + 1 } else s
      let s := if s.occupiedPid = pid then { s with occupiedPid := -1 } else s
      ((st.setSem idx s).semRefreshOccupied idx).semHandoffLocked alive idx

/-- The binary semaphores whose permit the dead task still holds. -/
def heldBy (pid : ℤ) (i : ℕ) : Bool :=
  st.semValidIdx i && st.semIsBinary i &&
    ((st.semaphores i).occupied == .occupied) && (st.semaphores i).occupiedPid == pid

/-- Second loop of `semaphore_clear_occupied`: recover a binary semaphore held by the dead task. -/
def clearHeldStep (pid : ℤ) (st : Table) (i : ℕ) : Table :=
  if st.heldBy pid i = false then st
  else
    let s := st.semaphores i
    let s := { s with count := s.maxCount, occupied := .idle, occupiedPid := -1 }
    (st.setSem i s).semHandoffLocked alive i

def clearWaiters (pid : ℤ) : Table :=
  (List.range semWaiterMax).foldl (clearWaiterStep alive pid) st

def clearHeld (pid : ℤ) : Table := (List.range semaphoreMax).foldl (clearHeldStep alive pid) st

def semaphoreClearOccupied (pid : ℤ) : Table := (st.clearWaiters alive pid).clearHeld alive pid

/-- `semaphore_free` by a task of the process `pid`. -/
def semaphoreFree (pid : ℤ) (semId : ℕ) : Table :=
  if semId = 0 ∨ semaphoreMax < semId then st
  else if (st.semaphores (semId - 1)).createrPid = pid then st.semResetLocked alive (semId - 1)
  else st

/-- First critical section of `semaphore_enter_raw`: a result, or the wait slot to park in. -/
def semaphoreEnterRaw (semId : ℕ) (pid : ℤ) : (SemRes ⊕ ℕ) × Table :=
  if semId = 0 ∨ semaphoreMax < semId then (.inl .error, st)
  else if st.semValidIdx (semId - 1) = false then (.inl .error, st)
  else
    let slot := st.semWaiterFindLocked semId pid
    match slot with
    | some i =>
      if (st.waiters i).granted then (.inl .acquired, st.semWaiterDelLocked i pid)
      else
        let (got, st') := st.semTryAcquireLocked (semId - 1) pid
        if got then (.inl .acquired, st'.semWaiterDelLocked i pid) else (.inr i, st)
    | none =>
      let (got, st') := st.semTryAcquireLocked (semId - 1) pid
      if got then (.inl .acquired, st')
      else match st.semWaiterAddLocked semId pid with
        | (none, st) => (.inl .occupied, st)
        | (some i, st) => (.inr i, st)

/-- What a parked task finds in `gpr[0]` when it is next scheduled. -/
def parkRes (timeoutUsec : ℕ) : SemRes := if 0 < timeoutUsec then .timeout else .retry

/-- Second critical section of `semaphore_enter_raw`, taken instead of parking by a context that
    synchronously serves an ipc request. -/
def semaphoreEnterServing (semId slot : ℕ) (pid : ℤ) : SemRes × Table :=
  let w := st.waiters slot
  let granted := w.semId = semId ∧ w.pid = pid ∧ w.granted = true
  (if granted then .acquired else .occupied, st.semWaiterDelLocked slot pid)

def semaphoreTryEnter (semId : ℕ) (pid : ℤ) : SemRes × Table :=
  if semId = 0 ∨ semaphoreMax < semId then (.error, st)
  else if st.semValidIdx (semId - 1) = false then (.error, st)
  else
    let slot := st.semWaiterFindLocked semId pid
    match slot with
    | some i =>
      let granted := (st.waiters i).granted
      let st := st.semWaiterDelLocked i pid
      if granted then (.acquired, st)
      else
        let (got, st) := st.semTryAcquireLocked (semId - 1) pid
        (if got then .acquired else .occupied, st)
    | none =>
      let (got, st) := st.semTryAcquireLocked (semId - 1) pid
      (if got then .acquired else .occupied, st)

def semaphoreGetCount (semId : ℕ) : ℤ :=
  if semId = 0 ∨ semaphoreMax < semId then -1
  else if st.semValidIdx (semId - 1) then (st.semaphores (semId - 1)).count else -1

/-- `semaphore_quit` by the task `pid`: `true` is the return value 0, `false` is -1. -/
def semaphoreQuit (semId : ℕ) (pid : ℤ) : Bool × Table :=
  if semId = 0 ∨ semaphoreMax < semId then (false, st)
  else
    let idx := semId - 1
    let s := st.semaphores idx
    if st.semValidIdx idx = false ∨ s.maxCount ≤ s.count then (false, st)
    else
      let s := { s with count := s.count + 1 }
      let s := if st.semIsBinary idx ∧ s.occupiedPid = pid then { s with occupiedPid := -1 } else s
      (true, ((st.setSem idx s).semRefreshOccupied idx).semHandoffLocked alive idx)

end Table

end EwokOS.Kernel.Semaphore
