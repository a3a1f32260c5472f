import EwokOS.Schemes.Crowd
import EwokOS.Schemes.Run
import Mathlib.Algebra.Ring.Int.Defs
import Mathlib.Algebra.Ring.Nat
import Mathlib.Logic.Function.Basic

/-! Read-write locks (`libewoksys/src/pthread/pthread_rwlock.c`), over an inner mutex that excludes and
    two condition variables on which a signal releases one waiting thread, if any, and a broadcast all.

    What a thread does between taking the inner mutex and giving it up, by the unlock or by a wait, is
    one step, since nobody else looks at the fields meanwhile. A thread that was released, or whose
    wait timed out, takes the mutex again in a later step.

        out ──call──▶ entered ──turn──▶ out
                         └─────turn──▶ waiting ──expire──▶ late ──turn──▶ out
                                          └──(released) turn──▶ out, or waiting again

    A writer that gives up takes its mark in `wr_waiters` away and wakes nobody, and that mark may be
    all that held the readers back. -/

namespace EwokOS.Libc.Rwlock

open Schemes (Crowd Reach Free)

variable {τ : Type} [DecidableEq τ]

/-- Whom a condition variable is for. -/
inductive Side where | rd | wr
  deriving DecidableEq, Repr

/-- The calls; the timed ones with whether `abstime` is there. -/
inductive Op where
  | rdlock | tryrdlock | timedrdlock (abstime : Bool)
  | wrlock | trywrlock | timedwrlock (abstime : Bool)
  | unlock
  deriving DecidableEq, Repr

inductive Res where | zero | ebusy | etimedout | enomem | einval
  deriving DecidableEq, Repr

/-- Where a thread is. -/
inductive Pc where
  /-- In no call; the result of the last one. -/
  | out (res : Res)
  /-- In a call, before it has the inner mutex. -/
  | entered (op : Op)
  /-- In a wait, or released from it and without the mutex yet. -/
  | waiting (side : Side) (timed : Bool)
  /-- Its wait timed out; without the mutex yet. -/
  | late (side : Side)
  deriving DecidableEq, Repr

/-- The write lockers that have neither acquired nor given up. -/
def Pc.writes : Pc → Bool
  | .waiting .wr _ | .late .wr => true
  | _ => false

/-- `pthread_rwlock_t`; `rcond` and `wcond` are the threads waiting on them. `rds` and `wrs` collect the
    holders, a thread once for each lock it has. -/
structure Lock (τ : Type) where
  magic : Bool
  readers : ℤ
  writer : Bool
  wrWaiters : ℕ
  rcond : Finset τ
  wcond : Finset τ
  pc : τ → Pc
  rds : List τ
  wrs : List τ

/-- `PTHREAD_RWLOCK_INITIALIZER`, and nobody inside. -/
def Lock.start : Lock τ := ⟨false, 0, false, 0, ∅, ∅, fun _ => .out .zero, [], []⟩

/-- `++` of an `int`. -/
def incr (x : ℤ) : ℤ := Int.bmod (x + 1) (2 ^ 32)

namespace Lock
variable (s : Lock τ) (t : τ)

def goto (pc : Pc) : Lock τ := { s with pc := Function.update s.pc t pc }

/-- `rwlock_do_init`. -/
def doInit : Lock τ :=
  { s with rcond := ∅, wcond := ∅, readers := 0, writer := false, wrWaiters := 0, magic := true }

/-- The loop of `pthread_rwlock_rdlock` and `pthread_rwlock_timedrdlock`, up to its wait or its end. -/
def rdLoop (timed : Bool) : Lock τ :=
  if s.writer ∨ 0 < s.wrWaiters then { s with rcond := insert t s.rcond }.goto t (.waiting .rd timed)
  else { s with readers := incr s.readers, rds := t :: s.rds }.goto t (.out .zero)

/-- The loop of `pthread_rwlock_wrlock` and `pthread_rwlock_timedwrlock`. -/
def wrLoop (timed : Bool) : Lock τ :=
  if s.writer ∨ 0 < s.readers then { s with wcond := insert t s.wcond }.goto t (.waiting .wr timed)
  else { s with wrWaiters := s.wrWaiters - 1, writer := true, wrs := t :: s.wrs }.goto t (.out .zero)

/-- `pthread_rwlock_tryrdlock` with the mutex. -/
def tryRd : Lock τ :=
  if s.writer ∨ 0 < s.wrWaiters then s.goto t (.out .ebusy)
  else { s with readers := incr s.readers, rds := t :: s.rds }.goto t (.out .zero)

/-- `pthread_rwlock_trywrlock` with the mutex. -/
def tryWr : Lock τ :=
  if s.writer ∨ 0 < s.readers then s.goto t (.out .ebusy)
  else { s with writer := true, wrs := t :: s.wrs }.goto t (.out .zero)

/-- The fields after the first half of `pthread_rwlock_unlock`. -/
def release : Lock τ :=
  if s.writer then { s with writer := false, wrs := s.wrs.erase t }
  else if 0 < s.readers then { s with readers := s.readers - 1, rds := s.rds.erase t }
  else s

/-- A signal on `wcond`: `w` is whom it releases. -/
def signal : Option τ → Option (Lock τ)
  | some w => if w ∈ s.wcond then some { s with wcond := s.wcond.erase w } else none
  | none => if s.wcond = ∅ then some s else none

/-- Whom `pthread_rwlock_unlock` wakes. -/
def wake (w : Option τ) : Option (Lock τ) :=
  if ¬s.writer ∧ s.readers = 0 then
    if 0 < s.wrWaiters then s.signal w else some { s with rcond := ∅ }
  else some s

/-- `pthread_rwlock_unlock` with the mutex. -/
def unlock (w : Option τ) : Option (Lock τ) := ((s.release t).wake w).map (·.goto t (.out .zero))

end Lock

/-- What can happen: a call up to the mutex (`memory`: what `rwlock_do_init` finds), a section under the
    mutex, and the end of the time a wait may take. -/
inductive Event (τ : Type) where
  | call (t : τ) (op : Op) (memory : Bool)
  | turn (t : τ) (w : Option τ)
  | expire (t : τ)

namespace Lock
variable (s : Lock τ)

/-- What a call does before the mutex. Only a holder calls unlock. -/
def enter (t : τ) (memory : Bool) : Op → Option (Lock τ)
  | .unlock =>
    if t ∈ s.rds ∨ t ∈ s.wrs then
      some (if s.magic then s.goto t (.entered .unlock) else s.goto t (.out .einval))
    else none
  | op =>
    if ¬s.magic ∧ ¬memory then some (s.goto t (.out .enomem))
    else
      let s := if s.magic then s else s.doInit
      if op = .timedrdlock false ∨ op = .timedwrlock false then some (s.goto t (.out .einval))
      else some (s.goto t (.entered op))

def step : Event τ → Option (Lock τ)
  | .call t op memory =>
    match s.pc t with
    | .out _ => s.enter t memory op
    | _ => none
  | .turn t w =>
    match s.pc t with
    | .out _ => none
    | .entered .rdlock => some (s.rdLoop t false)
    | .entered .tryrdlock => some (s.tryRd t)
    | .entered (.timedrdlock _) => some (s.rdLoop t true)
    | .entered .wrlock => some ({ s with wrWaiters := s.wrWaiters + 1 }.wrLoop t false)
    | .entered .trywrlock => some (s.tryWr t)
    | .entered (.timedwrlock _) => some ({ s with wrWaiters := s.wrWaiters + 1 }.wrLoop t true)
    | .entered .unlock => s.unlock t w
    | .waiting .rd timed => if t ∈ s.rcond then none else some (s.rdLoop t timed)
    | .waiting .wr timed => if t ∈ s.wcond then none else some (s.wrLoop t timed)
    | .late .rd => some (s.goto t (.out .etimedout))
    | .late .wr => some ({ s with wrWaiters := s.wrWaiters - 1 }.goto t (.out .etimedout))
  | .expire t =>
    match s.pc t with
    | .waiting .rd true =>
      if t ∈ s.rcond then some ({ s with rcond := s.rcond.erase t }.goto t (.late .rd)) else none
    | .waiting .wr true =>
      if t ∈ s.wcond then some ({ s with wcond := s.wcond.erase t }.goto t (.late .wr)) else none
    | _ => none

/-- Nobody runs inside a call: whoever is in one is parked. -/
def Quiet : Prop := ∀ t, (∃ r, s.pc t = .out r) ∨ t ∈ s.rcond ∨ t ∈ s.wcond

/-- The locks held stay below the range of `readers`, and a writer that gives up leaves nobody parked
    that its mark alone held back. -/
def Careful : Event τ → Prop
  | .turn t _ =>
    s.rds.length + 1 < 2 ^ 31 ∧
      (s.pc t = .late .wr → 1 < s.wrWaiters ∨ s.writer = true ∨ s.rcond = ∅)
  | _ => True

end Lock

/-! ### What a section keeps -/

/-- A parked writer has a reader or a writer to wait for, or another one was called. -/
def Called (s : Lock τ) : Prop :=
  s.wcond.Nonempty → s.writer = true ∨ 0 < s.readers ∨ ∃ u timed, s.pc u = .waiting .wr timed ∧ u ∉ s.wcond

/-- A parked reader has a writer to wait for. -/
def Back (s : Lock τ) : Prop := s.rcond.Nonempty → s.writer = true ∨ 0 < s.wrWaiters

/-- The fields count the holders and the waiting writers. -/
structure Counted (s : Lock τ) : Prop where
  readers : s.readers = s.rds.length
  few : s.rds.length < 2 ^ 31
  writer : s.wrs.length = if s.writer then 1 else 0
  apart : s.writer = true → s.rds = []
  marks : Crowd Pc.writes s.pc s.wrWaiters
  rwait : ∀ t ∈ s.rcond, ∃ timed, s.pc t = .waiting .rd timed
  wwait : ∀ t ∈ s.wcond, ∃ timed, s.pc t = .waiting .wr timed
  held : ∀ t, s.pc t = .entered .unlock → t ∈ s.rds ∨ t ∈ s.wrs
  blank : s.magic = false → (∀ t, ∃ r, s.pc t = .out r) ∧ s.rds = [] ∧ s.wrs = []

theorem incr_eq {x : ℤ} (h0 : 0 ≤ x) (h1 : x + 1 < 2 ^ 31) : incr x = x + 1 := by
  unfold incr
  rw [Int.bmod_def]
  omega

omit [DecidableEq τ] in
theorem counted_start : Counted (Lock.start : Lock τ) where
  readers := rfl
  few := by simp [Lock.start]
  writer := rfl
  apart := by simp [Lock.start]
  marks := .empty fun _ => rfl
  rwait := by simp [Lock.start]
  wwait := by simp [Lock.start]
  held := by simp [Lock.start]
  blank := by simp [Lock.start]

namespace Counted
variable {s u : Lock τ} {t : τ} {b : Pc} {timed : Bool} {k : ℕ} {w : Option τ}

omit [DecidableEq τ] in
theorem not_rcond (h : Counted s) (hp : ∀ timed, s.pc t ≠ .waiting .rd timed) : t ∉ s.rcond := by
  intro ht
  obtain ⟨timed, hpc⟩ := h.rwait t ht
  exact hp timed hpc

omit [DecidableEq τ] in
theorem not_wcond (h : Counted s) (hp : ∀ timed, s.pc t ≠ .waiting .wr timed) : t ∉ s.wcond := by
  intro ht
  obtain ⟨timed, hpc⟩ := h.wwait t ht
  exact hp timed hpc

omit [DecidableEq τ] in
theorem made (h : Counted s) (hp : ∀ r, s.pc t ≠ .out r) : s.magic = true := by
  by_contra hm
  obtain ⟨r, hr⟩ := (h.blank (by simpa using hm)).1 t
  exact hp r hr

/-- Whoever waits on a condition variable still does after somebody else moved. -/
theorem others {l : Finset τ} {side : Side} (hl : ∀ u ∈ l, ∃ timed, s.pc u = .waiting side timed) (ht : t ∉ l) :
    ∀ u ∈ l, ∃ timed, (s.goto t b).pc u = .waiting side timed := by
  intro u hu
  have hne : u ≠ t := fun he => ht (he ▸ hu)
  simpa [Lock.goto, hne] using hl u hu

/-- A thread on no condition variable goes elsewhere, and its mark with it. -/
theorem goto (h : Counted s) (hk : Crowd Pc.writes (Function.update s.pc t b) k) (hr : t ∉ s.rcond) (hw : t ∉ s.wcond)
    (hu : b = .entered .unlock → t ∈ s.rds ∨ t ∈ s.wrs) (hm : s.magic = false → ∃ r, b = .out r) :
    Counted ({ s with wrWaiters := k }.goto t b) where
  readers := h.readers
  few := h.few
  writer := h.writer
  apart := h.apart
  marks := hk
  rwait := others (s := { s with wrWaiters := k }) h.rwait hr
  wwait := others (s := { s with wrWaiters := k }) h.wwait hw
  held := fun v hv => by
    by_cases hvt : v = t
    · subst hvt
      exact hu (by simpa [Lock.goto] using hv)
    · exact h.held v (by simpa [Lock.goto, hvt] using hv)
  blank := fun hmag => by
    refine ⟨fun v => ?_, (h.blank hmag).2⟩
    by_cases hvt : v = t
    · simpa [Lock.goto, hvt] using hm hmag
    · simpa [Lock.goto, hvt] using (h.blank hmag).1 v

omit [DecidableEq τ] in
/-- One more reader. -/
theorem read (h : Counted s) (hw : s.writer = false) (hm : s.magic = true) (hf : s.rds.length + 1 < 2 ^ 31) :
    Counted { s with readers := incr s.readers, rds := t :: s.rds } where
  readers := by
    have hr := h.readers
    change incr s.readers = _
    rw [incr_eq (by omega) (by omega), hr, List.length_cons]
    rfl
  few := hf
  writer := h.writer
  apart := by simp [hw]
  marks := h.marks
  rwait := h.rwait
  wwait := h.wwait
  held := fun v hv => (h.held v hv).imp_left (List.mem_cons_of_mem t)
  blank := by simp [hm]

omit [DecidableEq τ] in
/-- The one writer. -/
theorem write (h : Counted s) (hw : s.writer = false) (hr : ¬0 < s.readers) (hm : s.magic = true) :
    Counted { s with writer := true, wrs := t :: s.wrs } where
  readers := h.readers
  few := h.few
  writer := by
    have := h.writer
    rw [hw] at this
    simp [List.length_eq_zero_iff.mp this]
  apart := fun _ => by
    have := h.readers
    change s.rds = []
    exact List.length_eq_zero_iff.mp (by omega)
  marks := h.marks
  rwait := h.rwait
  wwait := h.wwait
  held := fun v hv => (h.held v hv).imp_right (List.mem_cons_of_mem t)
  blank := by simp [hm]

/-- A holder that is out of its call gives one lock back. -/
theorem release (h : Counted s) (ht : t ∈ s.rds ∨ t ∈ s.wrs) (hp : ∀ op, s.pc t ≠ .entered op) :
    Counted (s.release t) := by
  have hm : s.magic = true := by
    by_contra hm
    have hb := (h.blank (by simpa using hm)).2
    simp [hb.1, hb.2] at ht
  have hheld : ∀ v, s.pc v = .entered .unlock → v ≠ t := fun v hv he => hp .unlock (he ▸ hv)
  unfold Lock.release
  by_cases hw : s.writer = true
  · rw [if_pos hw]
    have hone := h.writer
    rw [hw, if_pos rfl] at hone
    obtain ⟨v, hv⟩ := List.length_eq_one_iff.mp hone
    have htv : t = v := by simpa [h.apart hw, hv] using ht
    refine ⟨h.readers, h.few, by simp [hv, htv], fun _ => h.apart hw, h.marks, h.rwait, h.wwait, fun x hx => ?_,
      by simp [hm]⟩
    have hx' := h.held x hx
    rw [h.apart hw, hv] at hx'
    exact absurd (by simpa [htv] using hx') (hheld x hx)
  rw [if_neg hw]
  have hnone := h.writer
  rw [if_neg hw] at hnone
  have hwrs := List.length_eq_zero_iff.mp hnone
  have hin : t ∈ s.rds := by simpa [hwrs] using ht
  have hpos := List.length_pos_of_mem hin
  have hr := h.readers
  have hlen := List.length_erase_of_mem hin
  rw [if_pos (by omega)]
  refine ⟨?_, ?_, h.writer, by simp [hw], h.marks, h.rwait, h.wwait, fun x hx => ?_, by simp [hm]⟩
  · simp only [hlen, hr]
    omega
  · have := h.few
    simp only [hlen]
    omega
  · rcases h.held x hx with hx' | hx'
    · exact Or.inl ((List.mem_erase_of_ne (hheld x hx)).mpr hx')
    · exact Or.inr hx'

end Counted

/-! ### What every step keeps -/

/-- The counts, and somebody to wait for whoever is parked. -/
structure Sound (s : Lock τ) : Prop extends Counted s where
  called : Called s
  back : Back s

namespace Sound
variable {s u : Lock τ} {t : τ} {b : Pc} {timed : Bool} {k : ℕ} {w : Option τ}

/-- A thread that neither parks nor leaves a writer's mark moves on. -/
theorem move (h : Sound s) (hr : t ∉ s.rcond) (hs : (s.pc t).writes = false) (hb : b.writes = false)
    (hu : b = .entered .unlock → t ∈ s.rds ∨ t ∈ s.wrs) (hm : s.magic = false → ∃ r, b = .out r) :
    Sound (s.goto t b) where
  toCounted := by
    refine h.toCounted.goto (h.marks.stay (by rw [hs, hb])) hr (fun hw => ?_) hu hm
    obtain ⟨timed, hpc⟩ := h.wwait t hw
    simp [hpc, Pc.writes] at hs
  called := fun hne => by
    rcases h.called hne with hw | hr | ⟨v, timed, hv, hout⟩
    · exact Or.inl hw
    · exact Or.inr (Or.inl hr)
    · have hvt : v ≠ t := by
        rintro rfl
        simp [hv, Pc.writes] at hs
      exact Or.inr (Or.inr ⟨v, timed, by simpa [Lock.goto, hvt] using hv, hout⟩)
  back := h.back

/-- A reader that may go on reads, and one that may not parks. -/
theorem rdLoop (timed : Bool) (h : Sound s) (hr : t ∉ s.rcond) (hs : (s.pc t).writes = false) (hm : s.magic = true)
    (hf : s.rds.length + 1 < 2 ^ 31) : Sound (s.rdLoop t timed) := by
  unfold Lock.rdLoop
  split
  · rename_i hwait
    have hgo : Sound (s.goto t (.waiting .rd timed)) := h.move hr hs rfl (by simp) (by simp [hm])
    refine ⟨⟨hgo.readers, hgo.few, hgo.writer, hgo.apart, hgo.marks, fun v hv => ?_, hgo.wwait, hgo.held, hgo.blank⟩,
      hgo.called, fun _ => hwait⟩
    rcases Finset.mem_insert.mp hv with rfl | hv
    · exact ⟨timed, by simp [Lock.goto]⟩
    · exact hgo.rwait v hv
  · rename_i hfree
    obtain ⟨hw, -⟩ := not_or.mp hfree
    have hread : Sound { s with readers := incr s.readers, rds := t :: s.rds } := by
      have hc := h.toCounted.read (t := t) (by simpa using hw) hm hf
      refine ⟨hc, fun _ => Or.inr (Or.inl ?_), h.back⟩
      rw [hc.readers, List.length_cons]
      omega
    exact hread.move hr hs rfl (by simp) (by simp)

theorem tryRd (h : Sound s) (hr : t ∉ s.rcond) (hs : (s.pc t).writes = false) (hm : s.magic = true)
    (hf : s.rds.length + 1 < 2 ^ 31) : Sound (s.tryRd t) := by
  have hloop := rdLoop false h hr hs hm hf
  unfold Lock.rdLoop at hloop
  unfold Lock.tryRd
  split
  · exact h.move hr hs rfl (by simp) (by simp)
  · rename_i hfree
    rwa [if_neg hfree] at hloop

omit [DecidableEq τ] in
/-- Nobody that a writer leaves parked waits in vain for it. -/
theorem of_writer (h : Counted s) (hw : s.writer = true) : Sound s := ⟨h, fun _ => Or.inl hw, fun _ => Or.inl hw⟩

/-- A writer whose mark is among `k` writes or parks. -/
theorem wrLoop (h : Sound s) (hk : Crowd Pc.writes (Function.update s.pc t (.waiting .wr timed)) k) (hr : t ∉ s.rcond)
    (hw : t ∉ s.wcond) (hm : s.magic = true) : Sound ({ s with wrWaiters := k }.wrLoop t timed) := by
  have hpos : 0 < k := hk.pos (t := t) (by simp [Pc.writes])
  unfold Lock.wrLoop
  split
  · rename_i hwait
    have hgo := h.toCounted.goto hk hr hw (by simp) (by simp [hm])
    refine ⟨⟨hgo.readers, hgo.few, hgo.writer, hgo.apart, hgo.marks, hgo.rwait, fun v hv => ?_, hgo.held, hgo.blank⟩,
      fun _ => ?_, fun _ => Or.inr hpos⟩
    · rcases Finset.mem_insert.mp hv with rfl | hv
      · exact ⟨timed, by simp [Lock.goto]⟩
      · exact hgo.wwait v hv
    · exact hwait.imp_right Or.inl
  · rename_i hfree
    obtain ⟨hw', hr'⟩ := not_or.mp hfree
    have hleft : Crowd Pc.writes (Function.update s.pc t (.out .zero)) (k - 1) := by
      have := hk.leave (t := t) (b := .out .zero) (by simp [Pc.writes]) rfl
      rwa [Function.update_idem] at this
    exact of_writer ((h.toCounted.write (t := t) (by simpa using hw') hr' hm).goto hleft hr hw (by simp) (by simp)) rfl

theorem tryWr (h : Sound s) (hr : t ∉ s.rcond) (hs : (s.pc t).writes = false) (hm : s.magic = true) :
    Sound (s.tryWr t) := by
  unfold Lock.tryWr
  split
  · exact h.move hr hs rfl (by simp) (by simp)
  · rename_i hfree
    obtain ⟨hw, hr'⟩ := not_or.mp hfree
    exact (of_writer (h.toCounted.write (by simpa using hw) hr' hm) rfl).move hr hs rfl (by simp) (by simp)

/-- A signal lets one parked writer go. -/
theorem signal (h : Counted s) (hb : Back s) (hst : s.signal w = some u) : Sound u := by
  unfold Lock.signal at hst
  split at hst
  · rename_i v
    split at hst
    · rename_i hv
      cases hst
      refine ⟨⟨h.readers, h.few, h.writer, h.apart, h.marks, h.rwait, fun x hx => h.wwait x (Finset.mem_of_mem_erase hx),
        h.held, h.blank⟩, fun _ => Or.inr (Or.inr ?_), hb⟩
      obtain ⟨timed, hpc⟩ := h.wwait v hv
      exact ⟨v, timed, hpc, by simp⟩
    · cases hst
  · split at hst
    · rename_i hnone
      cases hst
      exact ⟨h, fun hne => by simp [hnone] at hne, hb⟩
    · cases hst

/-- Who gives back the last lock calls a writer, or all readers. -/
theorem wake (h : Counted s) (hst : s.wake w = some u) (hb : s.writer = true ∨ s.readers ≠ 0 → Back s)
    (hc : s.writer = true ∨ s.readers ≠ 0 → Called s) : Sound u := by
  unfold Lock.wake at hst
  split at hst
  · split at hst
    · rename_i hmark
      exact signal h (fun _ => Or.inr hmark) hst
    · rename_i hmark
      cases hst
      refine ⟨⟨h.readers, h.few, h.writer, h.apart, h.marks, by simp, h.wwait, h.held, h.blank⟩, fun hne => ?_, by simp [Back]⟩
      obtain ⟨v, hv⟩ := hne
      obtain ⟨timed, hpc⟩ := h.wwait v hv
      exact absurd (h.marks.pos (t := v) (by simp [hpc, Pc.writes])) hmark
  · rename_i hheld
    cases hst
    have : s.writer = true ∨ s.readers ≠ 0 := by
      by_contra hno
      exact hheld (by simpa using hno)
    exact ⟨h, hc this, hb this⟩

theorem release_goto : (s.goto t b).release t = (s.release t).goto t b := by
  unfold Lock.release
  split_ifs <;> first | rfl | contradiction

theorem signal_goto : (s.goto t b).signal w = (s.signal w).map (·.goto t b) := by
  cases w with
  | none => by_cases hn : s.wcond = ∅ <;> simp [Lock.signal, Lock.goto, hn]
  | some v => by_cases hv : v ∈ s.wcond <;> simp [Lock.signal, Lock.goto, hv]

theorem wake_goto : (s.goto t b).wake w = (s.wake w).map (·.goto t b) := by
  unfold Lock.wake
  rw [signal_goto]
  split_ifs <;> first | rfl | contradiction

/-- The condition variables and the marks are not changed by a release. -/
theorem release_same : (s.release t).wrWaiters = s.wrWaiters ∧ (s.release t).rcond = s.rcond ∧
    ((s.release t).writer = true → s.writer = true) := by
  unfold Lock.release
  split_ifs with hw
  · exact ⟨rfl, rfl, by simp⟩
  · exact ⟨rfl, rfl, id⟩
  · exact ⟨rfl, rfl, id⟩

theorem unlock (h : Sound s) (hp : s.pc t = .entered .unlock) (hst : s.unlock t w = some u) : Sound u := by
  have hr := h.not_rcond (t := t) (by simp [hp])
  have hgo : Sound (s.goto t (.out .zero)) := h.move hr (by simp [hp, Pc.writes]) rfl (by simp) (by simp)
  have hrel := hgo.toCounted.release (h.held t hp) (by simp [Lock.goto])
  unfold Lock.unlock at hst
  rw [← wake_goto, ← release_goto] at hst
  -- after the release there is a writer or a reader only if there was another reader
  have hrest : ((s.goto t (.out .zero)).release t).writer = true ∨ ((s.goto t (.out .zero)).release t).readers ≠ 0 →
      s.writer = false := by
    intro hheld
    by_contra hw
    have hw' : s.writer = true := by simpa using hw
    have hzero := h.readers
    rw [h.apart hw'] at hzero
    simp [Lock.release, Lock.goto, hw', hzero] at hheld
  obtain ⟨hmarks, hrc, hw⟩ := release_same (s := s.goto t (.out .zero)) (t := t)
  refine wake hrel hst (fun hheld hne => ?_) (fun hheld _ => Or.inr (Or.inl ?_))
  · rw [hrc] at hne
    rw [hmarks]
    exact Or.inr ((h.back hne).resolve_left (by simp [hrest hheld]))
  · have hcount := hrel.readers
    have := hheld.resolve_left fun hw' => by
      have hbefore : s.writer = true := hw hw'
      simp [hrest hheld] at hbefore
    omega

/-- A writer that gives up takes its mark away. -/
theorem giveUp (h : Sound s) (hp : s.pc t = .late .wr) (hok : 1 < s.wrWaiters ∨ s.writer = true ∨ s.rcond = ∅) :
    Sound ({ s with wrWaiters := s.wrWaiters - 1 }.goto t (.out .etimedout)) where
  toCounted := h.toCounted.goto (h.marks.leave (by simp [hp, Pc.writes]) rfl) (h.not_rcond (by simp [hp]))
    (h.not_wcond (by simp [hp])) (by simp) (by simp)
  called := fun hne => by
    rcases h.called hne with hw | hr | ⟨v, timed, hv, hout⟩
    · exact Or.inl hw
    · exact Or.inr (Or.inl hr)
    · have hvt : v ≠ t := by
        rintro rfl
        simp [hp] at hv
      exact Or.inr (Or.inr ⟨v, timed, by simpa [Lock.goto, hvt] using hv, hout⟩)
  back := fun hne => by
    rcases hok with hk | hw | hno
    · exact Or.inr (by simp only [Lock.goto]; omega)
    · exact Or.inl hw
    · simp [Lock.goto, hno] at hne

/-- A reader's wait times out. -/
theorem expireRd (h : Sound s) (hp : s.pc t = .waiting .rd timed) :
    Sound ({ s with rcond := s.rcond.erase t }.goto t (.late .rd)) := by
  have hleft : Sound { s with rcond := s.rcond.erase t } :=
    ⟨⟨h.readers, h.few, h.writer, h.apart, h.marks, fun v hv => h.rwait v (Finset.mem_of_mem_erase hv), h.wwait, h.held,
      h.blank⟩, h.called, fun hne => h.back (hne.mono (Finset.erase_subset t s.rcond))⟩
  refine hleft.move (by simp) (by simp [hp, Pc.writes]) rfl (by simp) (fun hm => ?_)
  exact absurd (h.made (t := t) (by simp [hp])) (by simpa using hm)

/-- A writer's wait times out. -/
theorem expireWr (h : Sound s) (hp : s.pc t = .waiting .wr timed) (ht : t ∈ s.wcond) :
    Sound ({ s with wcond := s.wcond.erase t }.goto t (.late .wr)) where
  toCounted := by
    have hleft : Counted { s with wcond := s.wcond.erase t } :=
      ⟨h.readers, h.few, h.writer, h.apart, h.marks, h.rwait, fun v hv => h.wwait v (Finset.mem_of_mem_erase hv), h.held,
        h.blank⟩
    refine hleft.goto (h.marks.stay (by simp [hp, Pc.writes])) (h.not_rcond (by simp [hp])) (by simp) (by simp) (fun hm => ?_)
    exact absurd (h.made (t := t) (by simp [hp])) (by simpa using hm)
  called := fun hne => by
    rcases h.called (hne.mono (Finset.erase_subset t s.wcond)) with hw | hr | ⟨v, timed', hv, hout⟩
    · exact Or.inl hw
    · exact Or.inr (Or.inl hr)
    · have hvt : v ≠ t := fun he => hout (he ▸ ht)
      exact Or.inr (Or.inr ⟨v, timed', by simpa [Lock.goto, hvt] using hv, fun hin => hout (Finset.mem_of_mem_erase hin)⟩)
  back := h.back

/-- A call, up to the mutex. -/
theorem enter {op : Op} {memory : Bool} {r : Res} (h : Sound s) (hp : s.pc t = .out r) (hst : s.enter t memory op = some u) :
    Sound u := by
  have hr := h.not_rcond (t := t) (by simp [hp])
  have hs : (s.pc t).writes = false := by simp [hp, Pc.writes]
  -- before the first call there is nothing that `rwlock_do_init` could wipe out
  have hinit : s.magic = false → s.doInit = { s with magic := true } := by
    intro hm
    obtain ⟨hout, hrds, hwrs⟩ := h.blank hm
    have hnobody : ∀ v ∈ s.rcond ∪ s.wcond, False := by
      intro v hv
      obtain ⟨r', hr'⟩ := hout v
      rcases Finset.mem_union.mp hv with hin | hin
      · simpa [hr'] using h.rwait v hin
      · simpa [hr'] using h.wwait v hin
    have hempty : s.rcond = ∅ ∧ s.wcond = ∅ := Finset.union_eq_empty.mp (Finset.eq_empty_of_forall_notMem hnobody)
    have hmarks : s.wrWaiters = 0 := h.marks.eq (.empty fun v => by
      obtain ⟨r', hr'⟩ := hout v
      simp [hr', Pc.writes])
    have hwriter : s.writer = false := by
      by_contra hw
      have := h.writer
      simp [hwrs, hw] at this
    have hreaders : s.readers = 0 := by simp [h.readers, hrds]
    simp [Lock.doInit, hempty, hmarks, hwriter, hreaders]
  have hready : Sound (if s.magic then s else s.doInit) ∧ (if s.magic then s else s.doInit).magic = true ∧
      (if s.magic then s else s.doInit).pc = s.pc ∧ (if s.magic then s else s.doInit).rcond = s.rcond := by
    by_cases hm : s.magic = true
    · simp [hm, h]
    · rw [if_neg hm, hinit (by simpa using hm)]
      exact ⟨⟨⟨h.readers, h.few, h.writer, h.apart, h.marks, h.rwait, h.wwait, h.held, by simp⟩, h.called, h.back⟩,
        rfl, rfl, rfl⟩
  have hfail : ∀ r', Sound (s.goto t (.out r')) := fun r' => h.move hr hs rfl (by simp) (by simp)
  have hgo : ∀ b, b.writes = false → b ≠ .entered .unlock → Sound ((if s.magic then s else s.doInit).goto t b) := by
    intro b hb hu
    obtain ⟨hsound, hmag, hpc, hrc⟩ := hready
    exact hsound.move (by rw [hrc]; exact hr) (by rw [hpc]; exact hs) hb (fun he => absurd he hu) (by simp [hmag])
  unfold Lock.enter at hst
  split at hst
  · split at hst
    · rename_i hheld
      cases hst
      split
      · rename_i hm
        exact h.move hr hs rfl (fun _ => hheld) (by simp [hm])
      · exact hfail _
    · cases hst
  · rename_i hop
    split at hst
    · cases hst
      exact hfail _
    · dsimp only at hst
      split at hst
      · cases hst
        exact hgo _ rfl (by simp)
      · cases hst
        exact hgo _ rfl (by simpa using hop)

theorem step {e : Event τ} (h : Sound s) (hok : s.Careful e) (hst : s.step e = some u) : Sound u := by
  cases e with
  | call t op memory =>
    simp only [Lock.step] at hst
    split at hst
    · rename_i hp
      exact h.enter hp hst
    · cases hst
  | turn t w =>
    obtain ⟨hf, hlate⟩ := hok
    have hin : ∀ op, s.pc t = .entered op → t ∉ s.rcond ∧ (s.pc t).writes = false ∧ t ∉ s.wcond ∧ s.magic = true :=
      fun op hp => ⟨h.not_rcond (by simp [hp]), by simp [hp, Pc.writes], h.not_wcond (by simp [hp]),
        h.made (t := t) (by simp [hp])⟩
    have hjoin : ∀ op timed, s.pc t = .entered op →
        Crowd Pc.writes (Function.update s.pc t (.waiting .wr timed)) (s.wrWaiters + 1) :=
      fun op timed hp => h.marks.join (by simp [hp, Pc.writes]) rfl
    simp only [Lock.step] at hst
    split at hst <;> rename_i hp
    · cases hst
    · cases hst
      obtain ⟨hr, hs, -, hm⟩ := hin _ hp
      exact rdLoop _ h hr hs hm hf
    · cases hst
      obtain ⟨hr, hs, -, hm⟩ := hin _ hp
      exact h.tryRd hr hs hm hf
    · cases hst
      obtain ⟨hr, hs, -, hm⟩ := hin _ hp
      exact rdLoop _ h hr hs hm hf
    · cases hst
      obtain ⟨hr, -, hw, hm⟩ := hin _ hp
      exact h.wrLoop (hjoin _ _ hp) hr hw hm
    · cases hst
      obtain ⟨hr, hs, -, hm⟩ := hin _ hp
      exact h.tryWr hr hs hm
    · cases hst
      obtain ⟨hr, -, hw, hm⟩ := hin _ hp
      exact h.wrLoop (hjoin _ _ hp) hr hw hm
    · exact h.unlock hp hst
    · split at hst
      · cases hst
      · rename_i hr
        cases hst
        exact rdLoop _ h hr (by simp [hp, Pc.writes]) (h.made (t := t) (by simp [hp])) hf
    · split at hst
      · cases hst
      · rename_i hw
        cases hst
        exact h.wrLoop (h.marks.stay (by simp [hp, Pc.writes])) (h.not_rcond (by simp [hp])) hw
          (h.made (t := t) (by simp [hp]))
    · cases hst
      exact h.move (h.not_rcond (by simp [hp])) (by simp [hp, Pc.writes]) rfl (by simp) (by simp)
    · cases hst
      exact h.giveUp hp (hlate hp)
  | expire t =>
    simp only [Lock.step] at hst
    split at hst
    · rename_i hp
      split at hst
      · cases hst
        exact h.expireRd hp
      · cases hst
    · rename_i hp
      split at hst
      · rename_i ht
        cases hst
        exact h.expireWr hp ht
      · cases hst
    · cases hst

end Sound

omit [DecidableEq τ] in
theorem sound_start : Sound (Lock.start : Lock τ) :=
  ⟨counted_start, by simp [Called, Lock.start], by simp [Back, Lock.start]⟩

/-! ### Nobody is left behind -/

/-- What holds of a lock at any time: one writer or readers, the fields count them, the marks are those of
    the writers that neither have it nor gave up; and when nobody runs inside, whoever is parked has
    somebody to wait for. -/
structure Fair (s : Lock τ) : Prop where
  one : s.wrs.length ≤ 1
  apart : s.wrs ≠ [] → s.rds = []
  readers : s.readers = s.rds.length
  writer : (s.writer = true ↔ s.wrs ≠ [])
  marks : ∃ l : Finset τ, (∀ t, t ∈ l ↔ (s.pc t).writes = true) ∧ l.card = s.wrWaiters
  reader : s.Quiet → ∀ t ∈ s.rcond, s.writer = true ∨ s.wrWaiters ≠ 0
  waiting : s.Quiet → ∀ t ∈ s.wcond, s.writer = true ∨ s.readers ≠ 0

omit [DecidableEq τ] in
theorem Sound.fair {s : Lock τ} (h : Sound s) : Fair s where
  one := by
    rw [h.writer]
    split <;> decide
  apart := fun hne => h.apart (by
    by_contra hw
    have := h.writer
    rw [if_neg hw, List.length_eq_zero_iff] at this
    exact hne this)
  readers := h.readers
  writer := by
    have := h.writer
    cases hw : s.writer <;> simp [hw] at this ⊢
    · exact this
    · intro hnil
      simp [hnil] at this
  marks := h.marks
  reader := fun _ t ht => (h.back ⟨t, ht⟩).imp_right Nat.pos_iff_ne_zero.mp
  waiting := fun hq t ht => by
    rcases h.called ⟨t, ht⟩ with hw | hr | ⟨v, timed, hv, hout⟩
    · exact Or.inl hw
    · exact Or.inr (by omega)
    · rcases hq v with ⟨r, hr⟩ | hin | hin
      · simp [hv] at hr
      · obtain ⟨timed', hpc⟩ := h.rwait v hin
        simp [hv] at hpc
      · exact absurd hin hout

/-- In every run in which no writer's time runs out while its mark alone holds a parked reader back. -/
theorem rwlock_fair {s : Lock τ} (h : Reach Lock.step Lock.Careful Lock.start s) : Fair s :=
  (h.inv (I := Sound) sound_start fun _ _ _ hs hok hst => hs.step hok hst).fair

/-- A writer waits behind a reader and gives up; another one stays, gets the lock, and then a reader. -/
def someEvents : List (Event ℕ) :=
  [.call 1 .rdlock true, .turn 1 none, .call 2 (.timedwrlock true) true, .turn 2 none, .call 4 .wrlock true,
    .turn 4 none, .call 3 .rdlock true, .turn 3 none, .expire 2, .turn 2 none, .call 1 .unlock true,
    .turn 1 (some 4), .turn 4 none, .call 4 .unlock true, .turn 4 none, .turn 3 none]

instance (s : Lock τ) (e : Event τ) : Decidable (s.Careful e) :=
  match e with
  | .turn _ _ => inferInstanceAs (Decidable (_ ∧ (_ → _ ∨ _ ∨ _)))
  | .call _ _ _ => .isTrue trivial
  | .expire _ => .isTrue trivial

theorem rwlock_fair_some : ∃ s : Lock ℕ, Reach Lock.step Lock.Careful Lock.start s ∧ s.rds = [3] ∧ Fair s := by
  have hrun : (Schemes.runIf Lock.step (fun s e => decide (s.Careful e)) Lock.start someEvents).map Lock.rds = some [3] := by
    decide +kernel
  obtain ⟨s, hs, hrds⟩ := Option.map_eq_some_iff.mp hrun
  have hreach := Schemes.reach_of_runIf hs fun _ _ h => of_decide_eq_true h
  exact ⟨s, hreach, hrds, rwlock_fair hreach⟩

/-- A writer gives up behind a reader, and nobody tells the reader that waits behind the writer. -/
def timedOut : List (Event ℕ) :=
  [.call 1 .rdlock true, .turn 1 none, .call 2 (.timedwrlock true) true, .turn 2 none, .call 3 .rdlock true,
    .turn 3 none, .expire 2, .turn 2 none]

theorem reader_stranded : ∃ s : Lock ℕ, Reach Lock.step Free Lock.start s ∧ s.Quiet ∧ 3 ∈ s.rcond ∧
    s.writer = false ∧ s.wrWaiters = 0 ∧ ¬Fair s := by
  have hbad : ∀ s : Lock ℕ, s.Quiet → 3 ∈ s.rcond → s.writer = false → s.wrWaiters = 0 →
      s.Quiet ∧ 3 ∈ s.rcond ∧ s.writer = false ∧ s.wrWaiters = 0 ∧ ¬Fair s := fun s hq hin hw hk =>
    ⟨hq, hin, hw, hk, fun hf => by simpa [hw, hk] using hf.reader hq 3 hin⟩
  refine ⟨_, Schemes.reach_of_runOps (show Schemes.runOps Lock.step Lock.start timedOut = some _ from rfl), hbad _ (fun t => ?_) (by decide) rfl rfl⟩
  by_cases h1 : t = 1
  · exact Or.inl ⟨.zero, by rw [h1]; rfl⟩
  by_cases h2 : t = 2
  · exact Or.inl ⟨.etimedout, by rw [h2]; rfl⟩
  by_cases h3 : t = 3
  · exact Or.inr (Or.inl (by rw [h3]; decide))
  · refine Or.inl ⟨.zero, ?_⟩
    simp [Lock.start, Lock.doInit, Lock.goto, Lock.rdLoop, Lock.wrLoop, incr, h2, h3]

end EwokOS.Libc.Rwlock
