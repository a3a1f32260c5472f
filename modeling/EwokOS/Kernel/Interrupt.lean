import EwokOS.Kernel.Basic
import EwokOS.Schemes.Run
import Mathlib.Algebra.Ring.Int.Defs
import Mathlib.Algebra.Ring.Nat
import Mathlib.Data.List.Basic

/-! Interrupt registration and delivery (`kernel/src/interrupt.c`, and `proc_interrupt_timeout` of
    `kernel/src/proc.c`).

    A process registers an entry and a data word for each irq number it handles. Sending an irq
    masks its line and hijacks the process; the line is unmasked when the handler ends. An irq that
    arrives while the process is inside a handler is only noted, in the one flag `pending`, and
    `interrupt_end` then runs the handler of the irq it was serving once more.

        send i (idle)      switch           end, not pending
        ─────────▶ start ─────────▶ working ───────────────▶ idle
                     ▲                  │ end, pending
                     └──────────────────┘

    Registrations name a task by uuid; `spaceOf` is `proc_get_by_uuid` down to the address space,
    for the tasks of a run. The ghost `owed` collects the irqs that arrived inside a handler and
    have not yet been delivered to the entry and data registered for them. -/

namespace EwokOS.Kernel.Interrupt

open Schemes (Reach Free)

def sysIntMax : ℕ := 64
def irqSoft : ℕ := 0x2000

/-- Raw irq numbers are below this (`IRQ_RAW_TOP`). -/
def irqRawTop : ℕ := 0x800

/-- `interrupt_handler_t`. The uuid is kept in an `int32_t`. -/
structure Handler where
  uuid : ℤ
  entry : ℕ
  data : ℕ
  deriving DecidableEq, Repr

/-- `interrupt_item_t`; irq 0 marks a free item. -/
structure Item where
  irq : ℕ
  handler : Handler
  deriving DecidableEq, Repr

/-- The task a handler names, as `proc_get_by_uuid` reads it. -/
def Handler.task (h : Handler) : ℕ := (h.uuid % 2 ^ 32).toNat

def Item.zero : Item := ⟨0, 0, 0, 0⟩

/-- A `uint32_t` stored in an `int32_t`. -/
def toInt32 (u : ℕ) : ℤ := if u < 2 ^ 31 then u else u - 2 ^ 32

/-- `proc_interrupt_t`, less the save area, the watchdog counter and the wait queue. -/
structure ProcInterrupt where
  entry : ℕ
  interrupt : ℕ
  data : ℕ
  state : IntrState
  pending : Bool
  restorePending : Bool
  deriving DecidableEq, Repr

def ProcInterrupt.zero : ProcInterrupt := ⟨0, 0, 0, .idle, false, false⟩

/-- The record of a process that is about to run the handler of `irq`. -/
def ProcInterrupt.start (irq entry data : ℕ) : ProcInterrupt := ⟨entry, irq, data, .start, false, false⟩

/-- `get_interrupt`: index of the first item for `irq`. -/
def getInterrupt (table : ℕ → Item) (irq : ℕ) : Option ℕ :=
  (List.range sysIntMax).find? fun i => (table i).irq == irq

structure Machine where
  /-- `_interrupts`. -/
  table : ℕ → Item
  /-- `space->interrupt`, by address space. -/
  intr : ℕ → ProcInterrupt
  /-- Lines masked by `irq_disable_arch`. -/
  masked : ℕ → Bool
  /-- Irqs that reached a space inside a handler and are still to be delivered there. -/
  owed : ℕ → ℕ → Bool

namespace Machine
variable (m : Machine)

def setItem (i : ℕ) (it : Item) : Machine := { m with table := Function.update m.table i it }

def setIntr (s : ℕ) (r : ProcInterrupt) : Machine :=
  { m with intr := Function.update m.intr s r }

/-- `irq_disable_arch`, and `irq_enable_arch` or `irq_enable_core_arch`. -/
def mask (irq : ℕ) (b : Bool) : Machine := { m with masked := Function.update m.masked irq b }

/-- Ghost: whether space `s` still waits for `irq`. -/
def owe (s irq : ℕ) (b : Bool) : Machine :=
  { m with owed := Function.update m.owed s (Function.update (m.owed s) irq b) }

/-- `irq` is registered with this entry and data. -/
def registered (irq entry data : ℕ) : Bool :=
  (getInterrupt m.table irq).any fun i =>
    (m.table i).handler.entry == entry && (m.table i).handler.data == data

/-- `interrupt_setup`, with its result. -/
def interruptSetup (uuid irq entry data : ℕ) : ℤ × Machine :=
  if entry = 0 then
    match getInterrupt m.table irq with
    | none => (-1, m)
    | some i => (0, m.setItem i .zero)
  else match (getInterrupt m.table irq).or (getInterrupt m.table 0) with
    | none => (-1, m)
    | some i => (0, (m.setItem i ⟨irq, toInt32 uuid, entry, data⟩).mask irq false)

/-- Space `s` starts the handler at `entry`. It is no longer owed `irq` if that is the handler
    registered for it. -/
def deliver (s irq entry data : ℕ) : Machine :=
  let m' := m.setIntr s (.start irq entry data)
  if m.registered irq entry data then m'.owe s irq false else m'

variable (spaceOf : ℕ → Option ℕ)

/-- `interrupt_send_raw`, with its result. -/
def interruptSendRaw (irq : ℕ) (h : Handler) : ℤ × Machine :=
  if h.uuid ≤ 0 ∨ h.entry = 0 then (-1, m)
  else match spaceOf h.task with
    | none => (-1, m)
    | some s =>
      let r := m.intr s
      if r.state ≠ .idle then
        if irq ≠ irqSoft then
          (0, ((m.mask irq true).setIntr s { r with pending := true }).owe s irq true)
        else (-1, m)
      else (0, (if irq ≠ irqSoft then m.mask irq true else m).deliver s irq h.entry h.data)

/-- `interrupt_send`. -/
def interruptSend (irq : ℕ) : ℤ × Machine :=
  match getInterrupt m.table irq with
  | none => (-1, m)
  | some i => m.interruptSendRaw spaceOf irq (m.table i).handler

/-- `interrupt_soft_send` to the task with this uuid. -/
def interruptSoftSend (uuid entry data : ℕ) : ℤ × Machine :=
  m.interruptSendRaw spaceOf irqSoft ⟨toInt32 uuid, entry, data⟩

/-- `interrupt_end`, called by a task of space `s`. -/
def interruptEnd (s : ℕ) : Machine :=
  let r := m.intr s
  if r.pending = true ∧ r.interrupt ≠ irqSoft then m.deliver s r.interrupt r.entry r.data
  else (if r.interrupt ≠ irqSoft then m.mask r.interrupt false else m).setIntr s .zero

/-- `proc_interrupt_timeout` of the main task of space `s`. The pending flag is left as it is. -/
def procInterruptTimeout (s : ℕ) : Machine :=
  let r := m.intr s
  (if r.interrupt ≠ 0 ∧ r.interrupt ≠ irqSoft then m.mask r.interrupt false else m).setIntr s
    ⟨0, 0, 0, .idle, r.pending, r.state == .working⟩

/-- The part of `proc_switch` that enters the handler. -/
def switchIn (s : ℕ) : Machine :=
  let r := m.intr s
  if r.state = .start then m.setIntr s { r with state := .working } else m

end Machine

inductive Op where
  | setup (uuid irq entry data : ℕ)
  | send (irq : ℕ)
  | softSend (uuid entry data : ℕ)
  | switchIn (s : ℕ)
  | finish (s : ℕ)
  | timeout (s : ℕ)
  deriving DecidableEq, Repr

def boot : Machine := ⟨fun _ => .zero, fun _ => .zero, fun _ => false, fun _ _ => false⟩

variable (spaceOf : ℕ → Option ℕ)

/-- One step. The hardware raises raw irqs only, and the watchdog fires inside a handler only. -/
def step (m : Machine) : Op → Option Machine
  | .setup uuid irq entry data => some (m.interruptSetup uuid irq entry data).2
  | .send irq =>
    if 0 < irq ∧ irq < irqRawTop then some (m.interruptSend spaceOf irq).2 else none
  | .softSend uuid entry data => some (m.interruptSoftSend spaceOf uuid entry data).2
  | .switchIn s => some (m.switchIn s)
  | .finish s => some (m.interruptEnd s)
  | .timeout s => if (m.intr s).state ≠ .idle then some (m.procInterruptTimeout s) else none

/-- Nothing is left behind when a process is back outside its handlers. -/
structure Served (m : Machine) : Prop where
  /-- Every irq that arrived inside a handler was delivered to what is registered for it. -/
  delivered : ∀ s, (m.intr s).state = .idle → ∀ irq, m.owed s irq = false
  /-- No line registered by the process is still masked. -/
  unmasked : ∀ s, (m.intr s).state = .idle → ∀ i < sysIntMax, (m.table i).irq ≠ 0 →
    spaceOf (m.table i).handler.task = some s → m.masked (m.table i).irq = false

/-- The condition on a step. An irq that arrives inside a handler is the one being served, under the
    handler it was started with; the watchdog does not fire with an irq pending; and the
    registration of a pending irq is not changed. -/
def Tame (m : Machine) : Op → Prop
  | .setup _ irq _ _ => ∀ s, (m.intr s).pending = true → (m.intr s).interrupt ≠ irq
  | .send irq => ∀ i s, getInterrupt m.table irq = some i →
      spaceOf (m.table i).handler.task = some s → (m.intr s).state ≠ .idle →
      (m.intr s).interrupt = irq ∧ (m.intr s).entry = (m.table i).handler.entry ∧
        (m.intr s).data = (m.table i).handler.data
  | .timeout s => (m.intr s).pending = false
  | _ => True

/-! ### The invariant -/

structure Inv (m : Machine) : Prop where
  /-- An irq has one registration. -/
  uniq : ∀ i < sysIntMax, ∀ j < sysIntMax, (m.table i).irq = (m.table j).irq →
    (m.table i).irq ≠ 0 → i = j
  /-- A masked line that is registered is being served by whoever registered it. -/
  line : ∀ irq, m.masked irq = true → irq ≠ 0 ∧ irq ≠ irqSoft ∧ ∀ i < sysIntMax,
    (m.table i).irq = irq → ∃ s, spaceOf (m.table i).handler.task = some s ∧
      (m.intr s).state ≠ .idle ∧ (m.intr s).interrupt = irq
  /-- What is owed is the irq in service, pending, and still registered as it is served. -/
  debt : ∀ s irq, m.owed s irq = true → (m.intr s).pending = true ∧
    (m.intr s).interrupt = irq ∧ irq ≠ 0 ∧ irq ≠ irqSoft ∧
    m.registered irq (m.intr s).entry (m.intr s).data = true
  calm : ∀ s, (m.intr s).state = .idle → (m.intr s).pending = false

variable {spaceOf} {m m' : Machine} {s irq : ℕ}

theorem Inv.served (h : Inv spaceOf m) : Served spaceOf m := by
  refine ⟨?_, ?_⟩
  · intro s hs irq
    by_contra ho
    have hp := (h.debt s irq (by simpa using ho)).1
    rw [h.calm s hs] at hp
    cases hp
  · intro s hs i hi _ hsp
    by_contra hm
    obtain ⟨-, -, hl⟩ := h.line _ (by simpa using hm)
    obtain ⟨s', hs', hst, -⟩ := hl i hi rfl
    rw [hsp, Option.some.injEq] at hs'
    exact hst (hs' ▸ hs)

theorem inv_boot : Inv spaceOf boot := by
  refine ⟨?_, ?_, ?_, fun _ _ => rfl⟩
  · intro i _ j _ _ h0
    exact absurd rfl h0
  · intro irq h
    cases h
  · intro s irq h
    cases h

theorem getInterrupt_spec {table : ℕ → Item} {i : ℕ} (h : getInterrupt table irq = some i) :
    i < sysIntMax ∧ (table i).irq = irq :=
  ⟨List.mem_range.mp (List.mem_of_find?_eq_some h), by simpa using List.find?_some h⟩

theorem getInterrupt_none {table : ℕ → Item} (h : getInterrupt table irq = none) {i : ℕ}
    (hi : i < sysIntMax) : (table i).irq ≠ irq := by
  simpa using List.find?_eq_none.mp h i (List.mem_range.mpr hi)

theorem getInterrupt_of_uniq (h : Inv spaceOf m) {i : ℕ} (hi : i < sysIntMax)
    (hirq : (m.table i).irq = irq) (h0 : irq ≠ 0) : getInterrupt m.table irq = some i := by
  cases hg : getInterrupt m.table irq with
  | none => exact absurd hirq (getInterrupt_none hg hi)
  | some j =>
    obtain ⟨hj, hjirq⟩ := getInterrupt_spec hg
    rw [h.uniq j hj i hi (by rw [hjirq, hirq]) (by rwa [hjirq])]

theorem registered_iff {entry data : ℕ} : m.registered irq entry data = true ↔
    ∃ i, getInterrupt m.table irq = some i ∧ (m.table i).handler.entry = entry ∧
      (m.table i).handler.data = data := by
  simp [Machine.registered, Option.any_eq_true]

/-! ### Steps -/

section
variable (m : Machine) (s irq : ℕ) (r : ProcInterrupt) (b : Bool) (entry data : ℕ)

@[simp] theorem setIntr_table : (m.setIntr s r).table = m.table := rfl
@[simp] theorem setIntr_intr : (m.setIntr s r).intr = Function.update m.intr s r := rfl
@[simp] theorem setIntr_owed : (m.setIntr s r).owed = m.owed := rfl
@[simp] theorem setIntr_registered :
    (m.setIntr s r).registered irq entry data = m.registered irq entry data := rfl
@[simp] theorem mask_table : (m.mask irq b).table = m.table := rfl
@[simp] theorem mask_intr : (m.mask irq b).intr = m.intr := rfl
@[simp] theorem mask_masked : (m.mask irq b).masked = Function.update m.masked irq b := rfl
@[simp] theorem mask_owed : (m.mask irq b).owed = m.owed := rfl
@[simp] theorem mask_registered (i : ℕ) :
    (m.mask i b).registered irq entry data = m.registered irq entry data := rfl
@[simp] theorem owe_table : (m.owe s irq b).table = m.table := rfl
@[simp] theorem owe_intr : (m.owe s irq b).intr = m.intr := rfl
@[simp] theorem owe_owed : (m.owe s irq b).owed =
    Function.update m.owed s (Function.update (m.owed s) irq b) := rfl
@[simp] theorem owe_registered (i : ℕ) :
    (m.owe s i b).registered irq entry data = m.registered irq entry data := rfl

end

@[simp] theorem deliver_table (entry data : ℕ) : (m.deliver s irq entry data).table = m.table := by
  simp only [Machine.deliver]
  split <;> rfl

@[simp] theorem deliver_masked (entry data : ℕ) :
    (m.deliver s irq entry data).masked = m.masked := by
  simp only [Machine.deliver]
  split <;> rfl

@[simp] theorem deliver_intr (entry data : ℕ) : (m.deliver s irq entry data).intr =
    Function.update m.intr s (.start irq entry data) := by
  simp only [Machine.deliver]
  split <;> rfl

/-- A delivery never adds to what is owed, and settles `irq` if its handler is the one started. -/
theorem deliver_owed {entry data : ℕ} {s' irq' : ℕ}
    (h : (m.deliver s irq entry data).owed s' irq' = true) : m.owed s' irq' = true ∧
      (m.registered irq entry data = true → ¬(s' = s ∧ irq' = irq)) := by
  simp only [Machine.deliver] at h
  split at h
  · simp only [owe_owed, setIntr_owed, Function.update_apply] at h
    split at h
    · rename_i hs
      simp only [Function.update_apply] at h
      split at h
      · cases h
      · rename_i hi
        exact ⟨hs ▸ h, fun _ hh => hi hh.2⟩
    · rename_i hs
      exact ⟨h, fun _ hh => hs hh.1⟩
  · rename_i hreg
    exact ⟨h, fun hr => absurd hr hreg⟩

theorem registered_congr (h : m'.table = m.table) (entry data : ℕ) :
    m'.registered irq entry data = m.registered irq entry data := by
  simp only [Machine.registered, h]

/-- Starting a handler in a space that serves no other masked line and is owed no other irq. -/
theorem inv_deliver (h : Inv spaceOf m) {entry data : ℕ}
    (hother : ∀ irq', m.masked irq' = true → (m.intr s).state ≠ .idle →
      (m.intr s).interrupt = irq' → irq' = irq)
    (hdebt : ∀ irq', m.owed s irq' = true →
      irq' = irq ∧ m.registered irq entry data = true) :
    Inv spaceOf (m.deliver s irq entry data) := by
  refine ⟨?_, ?_, ?_, ?_⟩
  · rw [deliver_table]
    exact h.uniq
  · intro irq' hm
    rw [deliver_masked] at hm
    obtain ⟨h0, hsoft, hl⟩ := h.line irq' hm
    refine ⟨h0, hsoft, ?_⟩
    intro i hi hirq
    rw [deliver_table] at hirq ⊢
    obtain ⟨s', hs', hst, hint⟩ := hl i hi hirq
    refine ⟨s', hs', ?_⟩
    rw [deliver_intr]
    rcases eq_or_ne s' s with rfl | hne
    · rw [Function.update_self]
      exact ⟨by simp [ProcInterrupt.start], (hother irq' hm hst hint).symm⟩
    · rw [Function.update_of_ne hne]
      exact ⟨hst, hint⟩
  · intro s' irq' howe
    obtain ⟨ho, hset⟩ := deliver_owed howe
    have hs' : s' ≠ s := by
      intro hs
      obtain ⟨hi, hreg⟩ := hdebt irq' (hs ▸ ho)
      exact hset hreg ⟨hs, hi⟩
    rw [deliver_intr, Function.update_of_ne hs', registered_congr (deliver_table entry data)]
    exact h.debt s' irq' ho
  · intro s' hst
    rw [deliver_intr] at hst ⊢
    rcases eq_or_ne s' s with rfl | hne
    · simp [ProcInterrupt.start]
    · rw [Function.update_of_ne hne] at hst ⊢
      exact h.calm s' hst

/-- An idle space serves no masked line and is owed nothing. -/
theorem inv_deliver_idle (h : Inv spaceOf m) (hidle : (m.intr s).state = .idle) (entry data : ℕ) :
    Inv spaceOf (m.deliver s irq entry data) := by
  refine inv_deliver h (fun _ _ hst => absurd hidle hst) ?_
  intro irq' ho
  rw [h.served.delivered s hidle] at ho
  cases ho

/-- Masking a line that is in service at whoever registered it. -/
theorem inv_mask (h : Inv spaceOf m) (h0 : irq ≠ 0) (hsoft : irq ≠ irqSoft) {i : ℕ}
    (hget : getInterrupt m.table irq = some i) (hs : spaceOf (m.table i).handler.task = some s)
    (hst : (m.intr s).state ≠ .idle) (hint : (m.intr s).interrupt = irq) :
    Inv spaceOf (m.mask irq true) := by
  refine ⟨h.uniq, ?_, h.debt, h.calm⟩
  intro irq' hm
  rcases eq_or_ne irq' irq with rfl | hne
  · refine ⟨h0, hsoft, ?_⟩
    intro j hj hirq
    have hji : getInterrupt m.table irq' = some j := getInterrupt_of_uniq h hj hirq h0
    rw [hget, Option.some.injEq] at hji
    exact ⟨s, hji ▸ hs, hst, hint⟩
  · exact h.line irq' (by simpa [hne] using hm)

theorem inv_unmask (h : Inv spaceOf m) (irq : ℕ) : Inv spaceOf (m.mask irq false) := by
  refine ⟨h.uniq, ?_, h.debt, h.calm⟩
  intro irq' hm
  rcases eq_or_ne irq' irq with rfl | hne
  · simp at hm
  · exact h.line irq' (by simpa [hne] using hm)

/-- The hardware raises an irq. -/
theorem inv_send (h : Inv spaceOf m) (h0 : irq ≠ 0) (hsoft : irq ≠ irqSoft)
    (hok : Tame spaceOf m (.send irq)) : Inv spaceOf (m.interruptSend spaceOf irq).2 := by
  unfold Machine.interruptSend
  split
  · exact h
  rename_i i hget
  unfold Machine.interruptSendRaw
  split
  · exact h
  split
  · exact h
  rename_i s hs
  simp only
  split
  · -- inside a handler: by the condition it is the handler of this very irq
    rename_i hst
    obtain ⟨hint, hentry, hdata⟩ := hok i s hget hs hst
    have hm := inv_mask h h0 hsoft hget hs hst hint
    refine ⟨hm.uniq, ?_, ?_, ?_⟩
    · intro irq' hmk
      obtain ⟨h1, h2, hl⟩ := hm.line irq' hmk
      refine ⟨h1, h2, ?_⟩
      intro j hj hirq
      obtain ⟨s', hs', hst', hint'⟩ := hl j hj hirq
      refine ⟨s', hs', ?_⟩
      rcases eq_or_ne s' s with rfl | hne
      · simpa using ⟨hst', hint'⟩
      · simpa [hne] using ⟨hst', hint'⟩
    · intro s' irq' ho
      rcases eq_or_ne s' s with rfl | hne
      · rcases eq_or_ne irq' irq with rfl | hirq
        · refine ⟨by simp, ?_, h0, hsoft, ?_⟩
          · simpa using hint
          · rw [registered_iff]
            refine ⟨i, hget, ?_, ?_⟩
            · simpa using hentry.symm
            · simpa using hdata.symm
        · have hd := h.debt s' irq' (by simpa [hirq] using ho)
          exact absurd (hd.2.1.symm.trans hint) hirq
      · have hd := h.debt s' irq' (by simpa [hne] using ho)
        simpa [hne] using hd
    · intro s' hidle
      rcases eq_or_ne s' s with rfl | hne
      · simp at hidle
        exact absurd hidle hst
      · simpa [hne] using h.calm s' (by simpa [hne] using hidle)
  · -- the space is idle: the line is masked and its handler started
    rename_i hst
    have hidle : (m.intr s).state = .idle := by simpa using hst
    have hd : Inv spaceOf (m.deliver s irq (m.table i).handler.entry (m.table i).handler.data) :=
      inv_deliver_idle h hidle _ _
    have hm := inv_mask (s := s) (i := i) hd h0 hsoft (by rwa [deliver_table])
      (by rwa [deliver_table]) (by simp [ProcInterrupt.start]) (by simp [ProcInterrupt.start])
    convert hm using 1
    simp only [Machine.deliver]
    split <;> rename_i h1 <;> split <;> rename_i h2
    · rfl
    · exact absurd h1 h2
    · exact absurd h2 h1
    · rfl

theorem inv_softSend (h : Inv spaceOf m) (uuid entry data : ℕ) :
    Inv spaceOf (m.interruptSoftSend spaceOf uuid entry data).2 := by
  unfold Machine.interruptSoftSend Machine.interruptSendRaw
  split
  · exact h
  split
  · exact h
  rename_i s hs
  simp only
  split
  · rw [if_neg (by simp)]
    exact h
  · rename_i hst
    rw [if_neg (by simp)]
    exact inv_deliver_idle h (by simpa using hst) _ _

/-- Leaving the handler: the line it served is unmasked, and nothing else was owed. -/
theorem inv_leave (h : Inv spaceOf m) {r : ProcInterrupt} (hp : r.pending = false) (hno : ∀ irq, m.owed s irq = false)
    (hmask : ∀ irq, (m.intr s).interrupt = irq → m.masked irq = false) :
    Inv spaceOf (m.setIntr s r) := by
  refine ⟨h.uniq, ?_, ?_, ?_⟩
  · intro irq hm
    obtain ⟨h1, h2, hl⟩ := h.line irq hm
    refine ⟨h1, h2, ?_⟩
    intro i hi hirq
    obtain ⟨s', hs', hst', hint'⟩ := hl i hi hirq
    have hne : s' ≠ s := by
      rintro rfl
      have := hmask irq hint'
      exact Bool.false_ne_true (this.symm.trans hm)
    exact ⟨s', hs', by simpa [hne] using ⟨hst', hint'⟩⟩
  · intro s' irq ho
    have hne : s' ≠ s := by
      rintro rfl
      exact Bool.false_ne_true ((hno irq).symm.trans ho)
    simpa [hne] using h.debt s' irq ho
  · intro s' hst
    rcases eq_or_ne s' s with rfl | hne
    · simpa using hp
    · simpa [hne] using h.calm s' (by simpa [hne] using hst)

theorem not_masked_soft (h : Inv spaceOf m) : m.masked irqSoft = false := by
  by_contra hm
  exact (h.line irqSoft (by simpa using hm)).2.1 rfl

theorem not_masked_zero (h : Inv spaceOf m) : m.masked 0 = false := by
  by_contra hm
  exact (h.line 0 (by simpa using hm)).1 rfl

theorem not_owed_of_not_pending (h : Inv spaceOf m) (hp : (m.intr s).pending = false) (irq : ℕ) :
    m.owed s irq = false := by
  by_contra ho
  have := (h.debt s irq (by simpa using ho)).1
  exact Bool.false_ne_true (hp.symm.trans this)

theorem inv_end (h : Inv spaceOf m) (s : ℕ) : Inv spaceOf (m.interruptEnd s) := by
  unfold Machine.interruptEnd
  simp only
  split
  · -- pending: the irq in service is the one that is owed
    refine inv_deliver h (fun _ _ _ hint => hint.symm) ?_
    intro irq' ho
    obtain ⟨-, hint, -, -, hreg⟩ := h.debt s irq' ho
    exact ⟨hint.symm, hint ▸ hreg⟩
  · rename_i hnp
    have hno : ∀ irq, m.owed s irq = false := by
      intro irq
      by_contra ho
      obtain ⟨hp, hint, -, hsoft, -⟩ := h.debt s irq (by simpa using ho)
      exact hnp ⟨hp, hint ▸ hsoft⟩
    split
    · refine inv_leave (inv_unmask h _) rfl hno ?_
      rintro irq rfl
      simp
    · rename_i hsoft
      refine inv_leave h rfl hno ?_
      rintro irq rfl
      rw [not_not.mp hsoft]
      exact not_masked_soft h

theorem inv_timeout (h : Inv spaceOf m) (hp : (m.intr s).pending = false) :
    Inv spaceOf (m.procInterruptTimeout s) := by
  unfold Machine.procInterruptTimeout
  simp only
  have hno := not_owed_of_not_pending h hp
  split
  · refine inv_leave (inv_unmask h _) hp hno ?_
    rintro irq rfl
    simp
  · rename_i hnot
    refine inv_leave h hp hno ?_
    rintro irq rfl
    by_cases h0 : (m.intr s).interrupt = 0
    · rw [h0]
      exact not_masked_zero h
    · have hsoft : (m.intr s).interrupt = irqSoft := not_not.mp fun hs => hnot ⟨h0, hs⟩
      rw [hsoft]
      exact not_masked_soft h

theorem inv_switchIn (h : Inv spaceOf m) (s : ℕ) : Inv spaceOf (m.switchIn s) := by
  unfold Machine.switchIn
  simp only
  split
  · rename_i hst
    refine ⟨h.uniq, ?_, ?_, ?_⟩
    · intro irq hm
      obtain ⟨h1, h2, hl⟩ := h.line irq hm
      refine ⟨h1, h2, ?_⟩
      intro i hi hirq
      obtain ⟨s', hs', hst', hint'⟩ := hl i hi hirq
      refine ⟨s', hs', ?_⟩
      rcases eq_or_ne s' s with rfl | hne
      · simpa using hint'
      · simpa [hne] using ⟨hst', hint'⟩
    · intro s' irq ho
      have hd := h.debt s' irq ho
      rcases eq_or_ne s' s with rfl | hne
      · simpa using hd
      · simpa [hne] using hd
    · intro s' hidle
      rcases eq_or_ne s' s with rfl | hne
      · simp at hidle
      · simpa [hne] using h.calm s' (by simpa [hne] using hidle)
  · exact h

/-- Writing an item of `irq` or a free one does not move any other irq. -/
theorem getInterrupt_setItem {i irq' : ℕ} {it : Item} (hi : (m.table i).irq ≠ irq')
    (hit : it.irq ≠ irq') :
    getInterrupt (m.setItem i it).table irq' = getInterrupt m.table irq' := by
  have hpred : (fun k => ((m.setItem i it).table k).irq == irq') =
      fun k => (m.table k).irq == irq' := by
    funext k
    rcases eq_or_ne k i with rfl | hne
    · simp [Machine.setItem, hi, hit]
    · simp [Machine.setItem, hne]
  simp only [getInterrupt, hpred]

/-- A registration is written while its irq is pending nowhere. -/
theorem inv_setItem (h : Inv spaceOf m) {i : ℕ} {it : Item}
    (hi : (m.table i).irq = irq ∨ (m.table i).irq = 0) (hit : it.irq = irq ∨ it.irq = 0)
    (huniq : it.irq ≠ 0 → ∀ j < sysIntMax, (m.table j).irq = it.irq → j = i)
    (hmask : it.irq ≠ 0 → m.masked it.irq = false)
    (hok : ∀ s, (m.intr s).pending = true → (m.intr s).interrupt ≠ irq) :
    Inv spaceOf (m.setItem i it) := by
  have htab : ∀ j, j ≠ i → (m.setItem i it).table j = m.table j := fun j hj => by
    simp [Machine.setItem, hj]
  have hself : (m.setItem i it).table i = it := by simp [Machine.setItem]
  refine ⟨?_, ?_, ?_, h.calm⟩
  · intro j hj k hk hjk h0
    rcases eq_or_ne j i with rfl | hji <;> rcases eq_or_ne k j with rfl | hkj
    · rfl
    · rw [hself, htab k hkj] at hjk
      rw [hself] at h0
      exact (huniq h0 k hk hjk.symm).symm
    · rfl
    · rw [htab j hji] at hjk h0
      rcases eq_or_ne k i with rfl | hki
      · rw [hself] at hjk
        exact huniq (hjk ▸ h0) j hj hjk
      · rw [htab k hki] at hjk
        exact h.uniq j hj k hk hjk h0
  · intro irq' hm
    obtain ⟨h0, hsoft, hl⟩ := h.line irq' hm
    refine ⟨h0, hsoft, ?_⟩
    intro j hj hirq
    have hji : j ≠ i := by
      rintro rfl
      rw [hself] at hirq
      have := hmask (hirq ▸ h0)
      rw [hirq] at this
      exact Bool.false_ne_true (this.symm.trans hm)
    rw [htab j hji] at hirq ⊢
    exact hl j hj hirq
  · intro s irq' ho
    obtain ⟨hp, hint, h0, hsoft, hreg⟩ := h.debt s irq' ho
    refine ⟨hp, hint, h0, hsoft, ?_⟩
    have hne : irq' ≠ irq := hint ▸ hok s hp
    have hold : (m.table i).irq ≠ irq' := by
      rcases hi with hi | hi <;> rw [hi]
      · exact hne.symm
      · exact h0.symm
    have hnew : it.irq ≠ irq' := by
      rcases hit with hit | hit <;> rw [hit]
      · exact hne.symm
      · exact h0.symm
    obtain ⟨j, hj, hentry, hdata⟩ := registered_iff.mp hreg
    refine registered_iff.mpr ⟨j, (getInterrupt_setItem hold hnew).trans hj, ?_⟩
    have hji : j ≠ i := by
      rintro rfl
      exact hold (getInterrupt_spec hj).2
    rw [htab j hji]
    exact ⟨hentry, hdata⟩

theorem inv_setup (h : Inv spaceOf m) {uuid entry data : ℕ}
    (hok : Tame spaceOf m (.setup uuid irq entry data)) :
    Inv spaceOf (m.interruptSetup uuid irq entry data).2 := by
  unfold Machine.interruptSetup
  split
  · split
    · exact h
    · rename_i i hget
      exact inv_setItem h (.inl (getInterrupt_spec hget).2) (.inr rfl) (fun h0 => absurd rfl h0)
        (fun h0 => absurd rfl h0) hok
  · split
    · exact h
    · rename_i i hget
      -- unmasking first, so that the new registration finds its line unmasked
      have hu := inv_unmask h irq
      have hi : (m.table i).irq = irq ∨ (m.table i).irq = 0 ∧ getInterrupt m.table irq = none := by
        rcases Option.or_eq_some_iff.mp hget with hg | ⟨hg, hg0⟩
        · exact .inl (getInterrupt_spec hg).2
        · exact .inr ⟨(getInterrupt_spec hg0).2, hg⟩
      have hset : Inv spaceOf ((m.mask irq false).setItem i ⟨irq, toInt32 uuid, entry, data⟩) := by
        refine inv_setItem hu (hi.imp_right And.left) (.inl rfl) ?_ ?_ hok
        · intro h0 j hj hjirq
          rcases hi with hi | ⟨-, hnone⟩
          · have hilt : i < sysIntMax := by
              rcases Option.or_eq_some_iff.mp hget with hg | ⟨-, hg⟩
              · exact (getInterrupt_spec hg).1
              · exact (getInterrupt_spec hg).1
            exact h.uniq j hj i hilt (hjirq.trans hi.symm) (hjirq ▸ h0)
          · exact absurd hjirq (getInterrupt_none hnone hj)
        · intro _
          simp
      exact hset

/-- Every step that meets the condition keeps the invariant. -/
theorem inv_step {o : Op} (h : Inv spaceOf m) (hok : Tame spaceOf m o)
    (hst : step spaceOf m o = some m') : Inv spaceOf m' := by
  cases o with
  | setup uuid irq entry data =>
    simp only [step, Option.some.injEq] at hst
    exact hst ▸ inv_setup h hok
  | send irq =>
    simp only [step, Option.ite_none_right_eq_some, Option.some.injEq] at hst
    obtain ⟨⟨hpos, htop⟩, rfl⟩ := hst
    refine inv_send h (by omega) ?_ hok
    simp only [irqRawTop, irqSoft] at htop ⊢
    omega
  | softSend uuid entry data =>
    simp only [step, Option.some.injEq] at hst
    exact hst ▸ inv_softSend h uuid entry data
  | switchIn s =>
    simp only [step, Option.some.injEq] at hst
    exact hst ▸ inv_switchIn h s
  | finish s =>
    simp only [step, Option.some.injEq] at hst
    exact hst ▸ inv_end h s
  | timeout s =>
    simp only [step, Option.ite_none_right_eq_some, Option.some.injEq] at hst
    exact hst.2 ▸ inv_timeout h hok

/-- In every run whose steps are tame, a process that is outside its handlers has been delivered
    every irq that arrived inside them, and finds its lines unmasked. -/
theorem pending_served (h : Reach (step spaceOf) (Tame spaceOf) boot m) : Served spaceOf m :=
  (h.inv inv_boot fun _ _ _ hi hok hst => inv_step hi hok hst).served

/-! ### One process with two irqs -/

/-- Task 1 runs in space 0. -/
def oneProcess (uuid : ℕ) : Option ℕ := if uuid = 1 then some 0 else none

/-- A sufficient test for a tame step, on what it looks at. -/
def tameTest (m : Machine) : Op → Bool
  | .setup .. => false
  | .send irq => (getInterrupt m.table irq).all fun i =>
      (oneProcess (m.table i).handler.task).all fun s => (m.intr s).state == .idle ||
        (m.intr s).interrupt == irq && (m.intr s).entry == (m.table i).handler.entry &&
          (m.intr s).data == (m.table i).handler.data
  | .timeout s => (m.intr s).pending == false
  | _ => true

theorem tame_of_test {o : Op} (h : tameTest m o = true) : Tame oneProcess m o := by
  cases o with
  | setup uuid irq entry data => cases h
  | send irq =>
    intro i s hget hs hst
    simp only [tameTest, hget, Option.all_some, hs, Bool.or_eq_true, Bool.and_eq_true,
      beq_iff_eq] at h
    rcases h with h | ⟨⟨h1, h2⟩, h3⟩
    · exact absurd h hst
    · exact ⟨h1, h2, h3⟩
  | softSend uuid entry data => trivial
  | switchIn s => trivial
  | finish s => trivial
  | timeout s => exact beq_iff_eq.mp h

/-- The state after task 1 has registered irq 5. -/
def registeredOne : Machine := (boot.interruptSetup 1 5 0x100 7).2

/-- Irq 5 comes again inside its own handler and is served a second time. -/
theorem pending_served_again : ∃ m, Reach (step oneProcess) (Tame oneProcess) boot m ∧
    (m.intr 0).state = .idle ∧ (m.table 0).irq = 5 ∧ Served oneProcess m := by
  have hfirst : Reach (step oneProcess) (Tame oneProcess) boot registeredOne := by
    refine .next .start ?_ (show step oneProcess boot (.setup 1 5 0x100 7) = _ from rfl)
    intro s hp
    cases hp
  have hrun : (Schemes.runIf (step oneProcess) tameTest registeredOne
      [.send 5, .switchIn 0, .send 5, .finish 0, .switchIn 0, .finish 0]).map
      (fun m => ((m.intr 0).state, (m.table 0).irq)) = some (.idle, 5) := by decide +kernel
  obtain ⟨m, hm, hobs⟩ := Option.map_eq_some_iff.mp hrun
  simp only [Prod.mk.injEq] at hobs
  have hr := hfirst.trans (Schemes.reach_of_runIf hm fun _ _ => tame_of_test)
  exact ⟨m, hr, hobs.1, hobs.2, pending_served hr⟩

/-- Irq 6 comes while irq 5 is being served: irq 5 is served twice, irq 6 never, and its line stays
    masked. -/
theorem otherIrq_not_served : ∃ m, Reach (step oneProcess) Free boot m ∧
    ¬Served oneProcess m := by
  have hrun : (Schemes.runOps (step oneProcess) boot
      [.setup 1 5 0x100 7, .setup 1 6 0x200 8, .send 5, .switchIn 0, .send 6, .finish 0,
       .switchIn 0, .finish 0]).map
      (fun m => ((m.intr 0).state, m.table 1, m.masked 6)) =
        some (.idle, ⟨6, 1, 0x200, 8⟩, true) := by decide +kernel
  obtain ⟨m, hm, hobs⟩ := Option.map_eq_some_iff.mp hrun
  simp only [Prod.mk.injEq] at hobs
  obtain ⟨hidle, hitem, hmask⟩ := hobs
  refine ⟨m, Schemes.reach_of_runOps hm, fun hs => ?_⟩
  have hun := hs.unmasked 0 hidle 1 (by decide) (by rw [hitem]; decide) (by rw [hitem]; decide)
  rw [hitem] at hun
  exact Bool.false_ne_true (hun.symm.trans hmask)

end EwokOS.Kernel.Interrupt
