import EwokOS.Kernel.SemaphoreOps
import EwokOS.Schemes.Account
import EwokOS.Schemes.Run

/-! Every run of the semaphore calls.

    The machine couples the tables to the tasks that call in. `alive` is what `proc_get` answers;
    a task that dies stays `dirty` until `proc_terminate` has run `semaphore_clear_occupied` for it,
    and only then can its pid be handed out again. `mid` marks a task between the two critical
    sections of an enter made while serving an ipc request.

    Beside the code's state the machine keeps a book for each semaphore: its initial count and the
    ACQUIRED results, successful quits and recoveries since it was made, newest first. -/

namespace EwokOS.Kernel.Semaphore
open EwokOS.Schemes

/-- The two ways a permit comes back from a holder. -/
inductive Return where | quit (pid : ℤ) | recovered (pid : ℤ)
  deriving DecidableEq, Repr

structure Book where
  binary : Bool
  initial : ℤ
  log : List (Entry ℤ Return)

structure Machine where
  tab : Table
  alive : ℤ → Bool
  dirty : ℤ → Bool
  mid : ℤ → Option (ℕ × ℕ)
  res : ℤ → Option SemRes
  book : ℕ → Book
  arrival : ℕ → ℕ
  arrivals : ℕ

inductive Op where
  | alloc (owner : ℤ)
  | allocCount (owner : ℤ) (count : BitVec 32)
  | enter (pid : ℤ) (semId timeoutUsec : ℕ) (serving : Bool)
  | enterServing (pid : ℤ)
  | tryEnter (pid : ℤ) (semId : ℕ)
  | quit (pid : ℤ) (semId : ℕ)
  | free (owner : ℤ) (semId : ℕ)
  | clear (pid : ℤ)
  | clearOccupied (pid : ℤ)
  | die (pid : ℤ)
  | spawn (pid : ℤ)
  deriving DecidableEq, Repr

def boot : Machine where
  tab := semaphoreInit
  alive _ := false
  dirty _ := false
  mid _ := none
  res _ := none
  book _ := ⟨false, 0, []⟩
  arrival _ := 0
  arrivals := 0

/-- Opening the book of the semaphore an allocation returned. -/
def opened (book : ℕ → Book) (semId : ℕ) (binary : Bool) (initial : ℤ) : ℕ → Book :=
  if semId = 0 then book else Function.update book (semId - 1) ⟨binary, initial, []⟩

def noted (book : ℕ → Book) (idx : ℕ) (e : Entry ℤ Return) : ℕ → Book :=
  Function.update book idx { book idx with log := e :: (book idx).log }

/-- An ACQUIRED result goes into the book. -/
def took (book : ℕ → Book) (idx : ℕ) (got : Bool) (pid : ℤ) : ℕ → Book :=
  if got then noted book idx (.taken pid) else book

namespace Machine
variable (s : Machine)

/-- The caller is alive and not in the middle of an enter. -/
def free (pid : ℤ) : Bool := s.alive pid && (s.mid pid).isNone

/-- The first section of an enter. A new wait slot is the next arrival. -/
def enter (pid : ℤ) (semId timeoutUsec : ℕ) (serving : Bool) : Machine :=
  let r := s.tab.semaphoreEnterRaw semId pid
  match r.1 with
  | .inl res =>
    { s with
      tab := r.2
      res := Function.update s.res pid (some res)
      book := took s.book (semId - 1) (r.1 == .inl .acquired) pid }
  | .inr slot =>
    let fresh := (s.tab.semWaiterFindLocked semId pid).isNone
    { s with
      tab := r.2
      mid := if serving then Function.update s.mid pid (some (slot, semId)) else s.mid
      res := if serving then s.res else Function.update s.res pid (some (Table.parkRes timeoutUsec))
      arrival := if fresh then Function.update s.arrival slot s.arrivals else s.arrival
      arrivals := if fresh then s.arrivals + 1 else s.arrivals }

def enterServing (pid : ℤ) (slot semId : ℕ) : Machine :=
  let r := s.tab.semaphoreEnterServing semId slot pid
  { s with
    tab := r.2
    mid := Function.update s.mid pid none
    res := Function.update s.res pid (some r.1)
    book := took s.book (semId - 1) (r.1 == .acquired) pid }

def tryEnter (pid : ℤ) (semId : ℕ) : Machine :=
  let r := s.tab.semaphoreTryEnter semId pid
  { s with
    tab := r.2
    res := Function.update s.res pid (some r.1)
    book := took s.book (semId - 1) (r.1 == .acquired) pid }

def quit (pid : ℤ) (semId : ℕ) : Machine :=
  let r := s.tab.semaphoreQuit s.alive semId pid
  { s with
    tab := r.2
    book := if r.1 then noted s.book (semId - 1) (.returned (.quit pid)) else s.book }

/-- The locks the dead task held are recovered, and say so in their books. -/
def clearOccupied (pid : ℤ) : Machine :=
  { s with
    tab := s.tab.semaphoreClearOccupied s.alive pid
    dirty := Function.update s.dirty pid false
    book := fun i =>
      if i < semaphoreMax ∧ (s.tab.clearWaiters s.alive pid).heldBy pid i = true then
        { s.book i with log := .returned (.recovered pid) :: (s.book i).log }
      else s.book i }

def alloc (owner : ℤ) : Machine :=
  let r := s.tab.semaphoreAlloc owner
  { s with tab := r.2, book := opened s.book r.1 true 1 }

def allocCount (owner : ℤ) (count : BitVec 32) : Machine :=
  let r := s.tab.semaphoreAllocCount owner count.toInt
  { s with tab := r.2, book := opened s.book r.1 false (max count.toInt 0) }

end Machine

/-- One critical section, a death or a birth. -/
def step (s : Machine) : Op → Option Machine
  | .alloc owner => if s.alive owner then some (s.alloc owner) else none
  | .allocCount owner count => if s.alive owner then some (s.allocCount owner count) else none
  | .enter pid semId timeoutUsec serving =>
    if s.free pid then some (s.enter pid semId timeoutUsec serving) else none
  | .enterServing pid => (s.mid pid).map fun m => s.enterServing pid m.1 m.2
  | .tryEnter pid semId => if s.free pid then some (s.tryEnter pid semId) else none
  | .quit pid semId => if s.free pid then some (s.quit pid semId) else none
  | .free owner semId =>
    if s.alive owner then some { s with tab := s.tab.semaphoreFree s.alive owner semId } else none
  | .clear pid =>
    if s.dirty pid then some { s with tab := s.tab.semaphoreClear s.alive pid } else none
  | .clearOccupied pid => if s.dirty pid then some (s.clearOccupied pid) else none
  | .die pid =>
    if s.alive pid then
      some { s with
        alive := Function.update s.alive pid false
        dirty := Function.update s.dirty pid true }
    else none
  | .spawn pid =>
    if 0 ≤ pid ∧ s.alive pid = false ∧ s.dirty pid = false ∧ s.mid pid = none then
      some { s with alive := Function.update s.alive pid true }
    else none

/-- Everything a step can do. -/
inductive Stepped (s : Machine) : Op → Machine → Prop where
  | alloc {owner : ℤ} : s.alive owner = true → Stepped s (.alloc owner) (s.alloc owner)
  | allocCount {owner : ℤ} {count : BitVec 32} : s.alive owner = true →
      Stepped s (.allocCount owner count) (s.allocCount owner count)
  | enter {pid : ℤ} {semId timeoutUsec : ℕ} {serving : Bool} : s.alive pid = true →
      s.mid pid = none →
      Stepped s (.enter pid semId timeoutUsec serving) (s.enter pid semId timeoutUsec serving)
  | enterServing {pid : ℤ} {slot semId : ℕ} : s.mid pid = some (slot, semId) →
      Stepped s (.enterServing pid) (s.enterServing pid slot semId)
  | tryEnter {pid : ℤ} {semId : ℕ} : s.alive pid = true →
      Stepped s (.tryEnter pid semId) (s.tryEnter pid semId)
  | quit {pid : ℤ} {semId : ℕ} : s.alive pid = true →
      Stepped s (.quit pid semId) (s.quit pid semId)
  | free {owner : ℤ} {semId : ℕ} :
      Stepped s (.free owner semId) { s with tab := s.tab.semaphoreFree s.alive owner semId }
  | clear {pid : ℤ} : Stepped s (.clear pid) { s with tab := s.tab.semaphoreClear s.alive pid }
  | clearOccupied {pid : ℤ} : s.dirty pid = true →
      Stepped s (.clearOccupied pid) (s.clearOccupied pid)
  | die {pid : ℤ} : Stepped s (.die pid) { s with
      alive := Function.update s.alive pid false, dirty := Function.update s.dirty pid true }
  | spawn {pid : ℤ} : s.alive pid = false → s.dirty pid = false → s.mid pid = none →
      Stepped s (.spawn pid) { s with alive := Function.update s.alive pid true }

theorem stepped_of_step {s t : Machine} {o : Op} (h : step s o = some t) : Stepped s o t := by
  cases o with
  | enterServing pid =>
    simp only [step, Option.map_eq_some_iff] at h
    obtain ⟨⟨slot, semId⟩, hm, rfl⟩ := h
    exact .enterServing hm
  | enter pid semId timeoutUsec serving =>
    simp only [step, Machine.free, Option.ite_none_right_eq_some, Bool.and_eq_true,
      Option.isNone_iff_eq_none, Option.some.injEq] at h
    obtain ⟨⟨ha, hm⟩, rfl⟩ := h
    exact .enter ha hm
  | tryEnter pid semId =>
    simp only [step, Machine.free, Option.ite_none_right_eq_some, Bool.and_eq_true,
      Option.some.injEq] at h
    obtain ⟨⟨ha, -⟩, rfl⟩ := h
    exact .tryEnter ha
  | quit pid semId =>
    simp only [step, Machine.free, Option.ite_none_right_eq_some, Bool.and_eq_true,
      Option.some.injEq] at h
    obtain ⟨⟨ha, -⟩, rfl⟩ := h
    exact .quit ha
  | _ =>
    simp only [step, Option.ite_none_right_eq_some, Option.some.injEq] at h
    obtain ⟨hg, rfl⟩ := h
    first
      | exact .alloc hg | exact .allocCount hg | exact .free | exact .clear
      | exact .clearOccupied hg | exact .die | exact .spawn hg.2.1 hg.2.2.1 hg.2.2.2

/-! ### Permit conservation and mutual exclusion -/

/-- Permits are conserved, a lock has one holder, and the wait slots are keyed by live semaphores
    and distinct tasks. -/
structure Conserved (s : Machine) : Prop where
  bounds : ∀ idx, s.tab.semValidIdx idx = true →
    0 ≤ (s.tab.semaphores idx).count ∧
      (s.tab.semaphores idx).count ≤ (s.tab.semaphores idx).maxCount
  occupied : ∀ idx, s.tab.semValidIdx idx = true →
    ((s.tab.semaphores idx).occupied = .occupied ↔ (s.tab.semaphores idx).count = 0)
  balance : ∀ idx, s.tab.semValidIdx idx = true →
    (s.tab.semaphores idx).count + s.tab.grantedOn idx + net (s.book idx).log
      = (s.book idx).initial
  exclusive : ∀ idx, s.tab.semValidIdx idx = true → (s.book idx).binary = true →
    Exclusive (s.book idx).log
  keyed : ∀ i < semWaiterMax, ∀ j < semWaiterMax, (s.tab.waiters i).semId ≠ 0 →
    (s.tab.waiters i).semId = (s.tab.waiters j).semId →
    (s.tab.waiters i).pid = (s.tab.waiters j).pid → i = j
  named : ∀ i < semWaiterMax, (s.tab.waiters i).semId ≠ 0 →
    s.tab.semValidIdx ((s.tab.waiters i).semId - 1) = true

/-- Every quit that is accepted finds fewer permits than the ceiling in the count and in granted
    slots together. -/
def QuitMatched (s : Machine) : Op → Prop
  | .quit _ semId =>
    (s.tab.semaphores (semId - 1)).count < (s.tab.semaphores (semId - 1)).maxCount →
    (s.tab.semaphores (semId - 1)).count + s.tab.grantedOn (semId - 1)
      < (s.tab.semaphores (semId - 1)).maxCount
  | _ => True

instance (s : Machine) : DecidablePred (QuitMatched s)
  | .quit _ _ => inferInstanceAs (Decidable (_ → _))
  | .alloc _ | .allocCount _ _ | .enter _ _ _ _ | .enterServing _ | .tryEnter _ _ | .free _ _
  | .clear _ | .clearOccupied _ | .die _ | .spawn _ => inferInstanceAs (Decidable True)

def accountOf (t : Table) (book : ℕ → Book) (idx : ℕ) : Account ℤ Return :=
  ⟨(t.semaphores idx).maxCount, (book idx).initial, t.pool idx, (book idx).log⟩

/-- A task in the middle of an enter owns its slot for no other semaphore. -/
def MidOk (t : Table) (mid : ℤ → Option (ℕ × ℕ)) : Prop :=
  ∀ pid slot semId, mid pid = some (slot, semId) →
    slot < semWaiterMax ∧ semId = semId - 1 + 1 ∧
    ((t.waiters slot).semId ≠ 0 → (t.waiters slot).pid = pid → (t.waiters slot).semId = semId)

structure Inv (s : Machine) : Prop where
  sound : s.tab.Sound
  account : ∀ idx, s.tab.semValidIdx idx = true → (accountOf s.tab s.book idx).Valid
  cap : ∀ idx, s.tab.semValidIdx idx = true → (s.book idx).binary = true →
    (s.tab.semaphores idx).maxCount = 1

theorem conserved_of_inv {s : Machine} (h : Inv s) : Conserved s where
  bounds idx hv := by
    have h1 := h.sound.pool_le idx hv
    have h2 := s.tab.grantedOn_nonneg idx
    simp only [Table.pool] at h1
    exact ⟨h.sound.nonneg idx hv, by omega⟩
  occupied := h.sound.occupied_iff
  balance idx hv := (h.account idx hv).balance
  exclusive idx hv hb := (h.account idx hv).exclusive (h.cap idx hv hb)
  keyed := h.sound.keyed
  named := h.sound.named

section Step
variable {t u : Table} {book : ℕ → Book} {mid : ℤ → Option (ℕ × ℕ)} {idx : ℕ}

theorem semValidIdx_congr (h : ∀ j, (u.semaphores j).createrPid = (t.semaphores j).createrPid)
    (j : ℕ) : u.semValidIdx j = t.semValidIdx j := by
  simp [Table.semValidIdx, h]

theorem accountOf_congr {b c : ℕ → Book} (hcap : (u.semaphores idx).maxCount
    = (t.semaphores idx).maxCount) (hpool : u.pool idx = t.pool idx) (hbook : c idx = b idx) :
    accountOf u c idx = accountOf t b idx := by
  simp [accountOf, hcap, hpool, hbook]

theorem noted_same (e : Entry ℤ Return) :
    noted book idx e idx = { book idx with log := e :: (book idx).log } := by simp [noted]

theorem noted_other {j : ℕ} (h : j ≠ idx) (e : Entry ℤ Return) : noted book idx e j = book j := by
  simp [noted, h]

theorem noted_binary (e : Entry ℤ Return) (j : ℕ) :
    (noted book idx e j).binary = (book j).binary := by
  by_cases h : j = idx
  · subst h; rw [noted_same]
  · rw [noted_other h]

theorem took_binary (got : Bool) (pid : ℤ) (j : ℕ) :
    (took book idx got pid j).binary = (book j).binary := by
  unfold took
  split
  · exact noted_binary _ j
  · rfl

theorem account_took {got : Bool}
    (ha : ∀ j, t.semValidIdx j = true → (accountOf t book j).Valid)
    (h : Table.Takes idx got t u) (pid : ℤ) {j : ℕ} (hj : u.semValidIdx j = true) :
    (accountOf u (took book idx got pid) j).Valid := by
  rw [semValidIdx_congr h.creater] at hj
  have hp := h.pool j
  cases got with
  | false =>
    show (accountOf u book j).Valid
    rw [accountOf_congr (b := book) (h.cap j) (by simpa using hp) rfl]
    exact ha j hj
  | true =>
    by_cases e : j = idx
    · subst e
      have he : accountOf u (took book j true pid) j = (accountOf t book j).take pid := by
        simp only [accountOf, Account.take, took, if_true, noted_same, h.cap, hp]
        simp
      rw [he]
      exact Account.valid_take pid (ha j hj) (h.live rfl).2
    · rw [accountOf_congr (b := book) (h.cap j) (by simpa [e] using hp)
        (by simp only [took, if_true]; exact noted_other e _)]
      exact ha j hj

theorem account_put (ha : ∀ j, t.semValidIdx j = true → (accountOf t book j).Valid)
    (h : Table.Puts idx t u) (hlt : t.pool idx < (t.semaphores idx).maxCount) (r : Return) {j : ℕ}
    (hj : u.semValidIdx j = true) : (accountOf u (noted book idx (.returned r)) j).Valid := by
  rw [semValidIdx_congr h.creater] at hj
  have hp := h.pool j
  by_cases e : j = idx
  · subst e
    have he : accountOf u (noted book j (.returned r)) j = (accountOf t book j).put r := by
      simp only [accountOf, Account.put, noted_same, h.cap, hp]
      simp
    rw [he]
    exact Account.valid_put r (ha j hj) hlt
  · rw [accountOf_congr (b := book) (h.cap j) (by simpa [e] using hp) (noted_other e _)]
    exact ha j hj

/-- Slots that only lose their task, or get one that is not in the middle of an enter. -/
theorem midOk_slots (h : MidOk t mid) (hs : ∀ k, (u.waiters k).semId = 0 ∨
    ((u.waiters k).semId = (t.waiters k).semId ∧ (u.waiters k).pid = (t.waiters k).pid) ∨
    mid (u.waiters k).pid = none) : MidOk u mid := by
  intro pid slot semId hm
  obtain ⟨hlt, hid, hmine⟩ := h pid slot semId hm
  refine ⟨hlt, hid, ?_⟩
  intro hne hp
  rcases hs slot with e | ⟨e, e'⟩ | e
  · exact absurd e hne
  · rw [e]; exact hmine (by rwa [← e]) (by rwa [← e'])
  · rw [hp, hm] at e; cases e

theorem midOk_thin (h : MidOk t mid) (hs : Table.Thin t u) : MidOk u mid :=
  midOk_slots h fun k => by
    by_cases hne : (u.waiters k).semId = 0
    · exact .inl hne
    · exact .inr (.inl ⟨(hs.occupied hne).1, (hs.occupied hne).2.1⟩)

theorem midOk_del (h : MidOk t mid) (slot : ℕ) (pid : ℤ) :
    MidOk (t.semWaiterDelLocked slot pid) mid := midOk_thin h (Table.thin_del t slot pid)

theorem midOk_update (h : MidOk t mid) (pid : ℤ) : MidOk t (Function.update mid pid none) := by
  intro q slot semId hm
  by_cases e : q = pid
  · subst e; simp at hm
  · exact h q slot semId (by simpa [e] using hm)

theorem midOk_tryAcquire {j : ℕ} {pid : ℤ} (h : MidOk t mid) :
    MidOk (t.semTryAcquireLocked j pid).2 mid :=
  midOk_thin h (Table.thin_of_eq Table.tryAcquire_waiters)

theorem midOk_dropMine {v : Table} {semId : ℕ} {pid : ℤ} (h : MidOk v mid) :
    MidOk (Table.dropMine v t semId pid) mid := by
  unfold Table.dropMine
  split
  · exact midOk_del h _ _
  · exact h

variable {s : Machine}

theorem midOk_enter (h : MidOk s.tab s.mid) {pid : ℤ} (hfree : s.mid pid = none)
    (semId timeoutUsec : ℕ) (serving : Bool) :
    MidOk (s.enter pid semId timeoutUsec serving).tab (s.enter pid semId timeoutUsec serving).mid := by
  have he := Table.entered_enterRaw s.tab semId pid
  unfold Machine.enter
  generalize s.tab.semaphoreEnterRaw semId pid = r at he
  obtain ⟨r, u⟩ := r
  simp only at he ⊢
  -- the slot a parked task is left with is its own, for this semaphore
  have hpark : ∀ slot, MidOk u s.mid → slot < semWaiterMax → semId = semId - 1 + 1 →
      (u.waiters slot).semId = semId →
      MidOk u (if serving then Function.update s.mid pid (some (slot, semId)) else s.mid) := by
    intro slot hm hlt hid hs
    cases serving with
    | false => exact hm
    | true =>
      intro q sl sid hq
      simp only [if_true] at hq
      by_cases e : q = pid
      · subst e
        simp only [Function.update_self, Option.some.injEq, Prod.mk.injEq] at hq
        obtain ⟨rfl, rfl⟩ := hq
        exact ⟨hlt, hid, fun _ _ => hs⟩
      · exact hm q sl sid (by simpa [e] using hq)
  cases he with
  | refused => exact h
  | collected => exact midOk_del h _ _
  | acquired => exact midOk_dropMine (midOk_tryAcquire h)
  | reparked hid hf =>
    obtain ⟨hlt, hs, -⟩ := Table.find_some hf
    exact hpark _ h hlt hid hs
  | full => exact h
  | @queued i hid hv hf hc hi hfr =>
    refine hpark i (midOk_slots h fun k => ?_) hi hid (by simp)
    by_cases e : k = i
    · subst e; right; right; simpa using hfree
    · right; left; simp [e]

theorem midOk_tryEnter (h : MidOk s.tab s.mid) (pid : ℤ) (semId : ℕ) :
    MidOk (s.tryEnter pid semId).tab s.mid := by
  have he := Table.tried_tryEnter s.tab semId pid
  unfold Machine.tryEnter
  generalize s.tab.semaphoreTryEnter semId pid = r at he
  obtain ⟨r, u⟩ := r
  simp only at he ⊢
  cases he with
  | refused => exact h
  | collected => exact midOk_del h _ _
  | acquired => exact midOk_tryAcquire (midOk_dropMine h)
  | occupied => exact midOk_dropMine h

theorem midOk_step {o : Op} {t : Machine} (h : MidOk s.tab s.mid) (hst : step s o = some t) :
    MidOk t.tab t.mid := by
  cases stepped_of_step hst with
  | alloc => exact midOk_thin h (Table.thin_alloc s.tab _ 1 1)
  | allocCount => exact midOk_thin h (Table.thin_alloc s.tab _ _ semaphoreCountMax)
  | enter _ hm => exact midOk_enter h hm _ _ _
  | enterServing => exact midOk_update (midOk_del h _ _) _
  | tryEnter => exact midOk_tryEnter h _ _
  | quit => exact midOk_thin h (Table.thin_quit s.alive s.tab _ _)
  | free => exact midOk_thin h (Table.torn_free s.alive s.tab _ _).thin
  | clear => exact midOk_thin h (Table.torn_clear s.alive s.tab _).thin
  | clearOccupied =>
    unfold Machine.clearOccupied
    exact midOk_thin h (Table.thin_clearOccupied s.alive _ s.tab)
  | die => exact h
  | spawn => exact h

theorem midOk_boot : MidOk boot.tab boot.mid := by
  intro pid slot semId hm
  cases hm

theorem inv_tab (h : Inv s) (hs : u.Sound)
    (hcr : ∀ j, u.semValidIdx j = true → s.tab.semValidIdx j = true ∧
      (u.semaphores j).maxCount = (s.tab.semaphores j).maxCount ∧ u.pool j = s.tab.pool j) :
    Inv { s with tab := u } where
  sound := hs
  account j hj := by
    obtain ⟨hv, hcap, hp⟩ := hcr j hj
    show (accountOf u s.book j).Valid
    rw [accountOf_congr (b := s.book) hcap hp rfl]
    exact h.account j hv
  cap j hj hb := (hcr j hj).2.1.trans (h.cap j (hcr j hj).1 hb)

theorem inv_torn (h : Inv s) (ht : Table.Torn s.tab u) : Inv { s with tab := u } := by
  refine inv_tab h (Table.sound_torn h.sound ht) ?_
  intro j hj
  obtain ⟨e, hp⟩ := ht.same hj
  exact ⟨by simpa [Table.semValidIdx, e] using hj, by rw [e], hp⟩

theorem inv_took (h : Inv s) {got : Bool} (ht : Table.Takes idx got s.tab u) (pid : ℤ)
    (res : ℤ → Option SemRes) {m : ℤ → Option (ℕ × ℕ)} :
    Inv { s with tab := u, mid := m, res := res, book := took s.book idx got pid } where
  sound := ht.sound
  account j hj := account_took h.account ht pid hj
  cap j hj hb := by
    rw [semValidIdx_congr ht.creater] at hj
    rw [took_binary] at hb
    exact (ht.cap j).trans (h.cap j hj hb)

theorem inv_alloc (h : Inv s) (owner count maxCount : ℤ) {binary : Bool}
    (h1 : max count 0 ≤ maxCount) (hb : binary = true → maxCount = 1) :
    Inv { s with
      tab := (s.tab.semAllocRaw owner count maxCount).2
      book := opened s.book (s.tab.semAllocRaw owner count maxCount).1 binary (max count 0) } := by
  rcases Table.alloc_cases s.tab owner count maxCount with e | ⟨i, hi, hfree, occ, e⟩ <;> rw [e]
  · exact h
  · obtain ⟨hs, hp⟩ := Table.sound_alloc owner occ h.sound hfree (le_max_right count 0) h1
    have hbook : opened s.book (i + 1) binary (max count 0)
        = Function.update s.book i ⟨binary, max count 0, []⟩ := by simp [opened]
    have hother : ∀ j, j ≠ i → (s.tab.setSem i (Sem.refresh ⟨owner, -1, occ, max count 0, maxCount⟩)
        ).semValidIdx j = s.tab.semValidIdx j := by
      intro j hj; simp [Table.semValidIdx, hj]
    rw [hbook]
    refine ⟨hs, ?_, ?_⟩
    · intro j hj
      by_cases e : j = i
      · subst e
        have he : accountOf (s.tab.setSem j (Sem.refresh ⟨owner, -1, occ, max count 0, maxCount⟩))
            (Function.update s.book j ⟨binary, max count 0, []⟩) j
            = Account.fresh maxCount (max count 0) := by
          simp [accountOf, Account.fresh, hp]
        rw [he]
        exact Account.valid_fresh (le_max_right count 0) h1
      · rw [hother j e] at hj
        rw [accountOf_congr (t := s.tab) (b := s.book) (by simp [e]) (by simp [Table.pool, e])
          (by simp [e])]
        exact h.account j hj
    · intro j hj hbin
      by_cases e : j = i
      · subst e; simp only [Function.update_self] at hbin; simpa using hb hbin
      · rw [hother j e] at hj
        simp only [Function.update_of_ne e] at hbin
        simpa [e] using h.cap j hj hbin

theorem inv_enter (h : Inv s) (pid : ℤ) (semId timeoutUsec : ℕ) (serving : Bool) :
    Inv (s.enter pid semId timeoutUsec serving) := by
  have ht := Table.takes_enterRaw h.sound semId pid
  unfold Machine.enter
  generalize s.tab.semaphoreEnterRaw semId pid = r at ht
  obtain ⟨r, u⟩ := r
  simp only at ht ⊢
  cases r with
  | inl res => exact inv_took h ht pid _
  | inr slot =>
    have ht : Table.Takes (semId - 1) false s.tab u := ht
    refine ⟨ht.sound, ?_, ?_⟩
    · intro j hj; exact account_took h.account ht pid hj
    · intro j hj hb
      rw [semValidIdx_congr ht.creater] at hj
      exact (ht.cap j).trans (h.cap j hj hb)

theorem inv_tryEnter (h : Inv s) (pid : ℤ) (semId : ℕ) : Inv (s.tryEnter pid semId) :=
  inv_took h (Table.takes_tryEnter h.sound semId pid) pid _

theorem inv_enterServing (h : Inv s) (hmid : MidOk s.tab s.mid) {pid : ℤ} {slot semId : ℕ}
    (hm : s.mid pid = some (slot, semId)) : Inv (s.enterServing pid slot semId) := by
  obtain ⟨hlt, hid, hmine⟩ := hmid pid slot semId hm
  exact inv_took h (Table.takes_enterServing h.sound hlt hid hmine) pid _

theorem inv_quit (h : Inv s) (pid : ℤ) (semId : ℕ) (hok : QuitMatched s (.quit pid semId)) :
    Inv (s.quit pid semId) := by
  unfold Machine.quit
  rcases Table.quit_cases s.alive s.tab semId pid with ⟨e, e'⟩ | ⟨hid, hv, hlt, e⟩
  · simp only [e, e']; exact h
  · have hroom := hok hlt
    have hput := Table.puts_posted h.sound hv hroom pid
    have hput := hput.handoff s.alive (semId - 1)
    simp only [e, if_true]
    refine ⟨hput.sound, ?_, ?_⟩
    · intro j hj; exact account_put h.account hput hroom _ hj
    · intro j hj hb
      rw [semValidIdx_congr hput.creater] at hj
      exact (hput.cap j).trans (h.cap j hj ((noted_binary _ j).symm.trans hb))

theorem inv_clearOccupied (h : Inv s) (pid : ℤ) : Inv (s.clearOccupied pid) := by
  have hc := Table.cleared_clearWaiters s.alive pid s.tab
  obtain ⟨hcs, hcp⟩ := Table.sound_clearWaiters s.alive pid h.sound
  have hr := Table.recovered_clearOccupied s.alive pid h.sound
  unfold Machine.clearOccupied
  generalize s.tab.semaphoreClearOccupied s.alive pid = u at hr
  generalize s.tab.clearWaiters s.alive pid = v at hc hcs hcp hr
  have hvalid : ∀ j, u.semValidIdx j = s.tab.semValidIdx j :=
    fun j => (semValidIdx_congr hr.creater j).trans (semValidIdx_congr hc.creater j)
  have hcap : ∀ j, (u.semaphores j).maxCount = (s.tab.semaphores j).maxCount :=
    fun j => (hr.cap j).trans (hc.cap j)
  refine ⟨hr.sound, ?_, ?_⟩
  · intro j hj
    have hj : s.tab.semValidIdx j = true := by rw [← hvalid]; exact hj
    have hp := hr.pool j
    rw [hcp] at hp
    by_cases e : j < semaphoreMax ∧ v.heldBy pid j = true
    · -- a held lock has an empty pool, and a ceiling of one
      obtain ⟨hz, hcount⟩ := Table.pool_of_heldBy hcs e.2 hc.gone
      have hb := (Table.heldBy_iff.mp e.2).2.1
      have hpool : s.tab.pool j = 0 := by rw [← hcp]; simp only [Table.pool]; omega
      have hput := Account.valid_put (.recovered pid) (h.account j hj)
        (by rw [hc.cap] at hb; simp only [accountOf, hpool, hb]; decide)
      simp only [accountOf, Account.put] at hput
      simp only [accountOf, if_pos e, hcap, hp]
      exact hput
    · simp only [if_neg e] at hp
      rw [accountOf_congr (b := s.book) (hcap j) (by simpa using hp) (if_neg e)]
      exact h.account j hj
  · intro j hj hb
    refine (hcap j).trans (h.cap j (by rw [← hvalid]; exact hj) ?_)
    simp only at hb
    split at hb <;> exact hb

theorem inv_boot : Inv boot := by
  have hnone : ∀ idx, boot.tab.semValidIdx idx = false := by
    intro idx; simp [boot, semaphoreInit, Table.semValidIdx, Sem.free]
  have hfree : ∀ i, (boot.tab.waiters i).semId = 0 := fun _ => rfl
  refine ⟨⟨?_, ?_, ?_, ?_, ?_, ?_⟩, ?_, ?_⟩
  · intro idx hv; simp [hnone] at hv
  · intro idx hv; simp [hnone] at hv
  · intro idx hv; simp [hnone] at hv
  · intro i _ hne; exact absurd (hfree i) hne
  · intro i _ _ _ hne; exact absurd (hfree i) hne
  · intro idx _ i _ hg
    simp [grantedFor, queuedOn, hfree i] at hg
  · intro idx hv; simp [hnone] at hv
  · intro idx hv; simp [hnone] at hv

/-- A step that meets the condition keeps the invariant. -/
theorem inv_step {o : Op} {t : Machine} (h : Inv s) (hmid : MidOk s.tab s.mid)
    (hok : QuitMatched s o) (hst : step s o = some t) : Inv t := by
  cases stepped_of_step hst with
  | alloc => exact inv_alloc h _ 1 1 (by decide) fun _ => rfl
  | @allocCount owner count =>
    have hlt := BitVec.toInt_lt (x := count)
    refine inv_alloc h owner count.toInt semaphoreCountMax ?_ (by simp)
    simp only [semaphoreCountMax]
    omega
  | enter => exact inv_enter h _ _ _ _
  | enterServing hm => exact inv_enterServing h hmid hm
  | tryEnter => exact inv_tryEnter h _ _
  | quit => exact inv_quit h _ _ hok
  | free => exact inv_torn h (Table.torn_free s.alive s.tab _ _)
  | clear => exact inv_torn h (Table.torn_clear s.alive s.tab _)
  | clearOccupied => exact inv_clearOccupied h _
  | die => exact ⟨h.sound, h.account, h.cap⟩
  | spawn => exact ⟨h.sound, h.account, h.cap⟩

/-- In every run whose accepted quits each find a permit missing, permits are conserved and a lock
    made by `semaphore_alloc` is never acquired twice without a return in between. -/
theorem permits_conserved (hr : Reach step QuitMatched boot s) : Conserved s := by
  have hinv : Inv s ∧ MidOk s.tab s.mid := by
    refine hr.inv (I := fun s => Inv s ∧ MidOk s.tab s.mid) ⟨inv_boot, midOk_boot⟩ ?_
    intro s o t h hok hst
    exact ⟨inv_step h.1 h.2 hok hst, midOk_step h.2 hst⟩
  exact conserved_of_inv hinv.1

end Step

/-- A lock handed from its holder to a waiter, the waiter's death, and the recovery. -/
def handover : List Op :=
  [.spawn 1, .spawn 4, .alloc 1, .enter 1 1 0 false, .enter 4 1 0 false, .quit 1 1,
    .enter 4 1 0 false, .die 4, .clearOccupied 4]

theorem permits_conserved_handover : ∃ s,
    runIf step (fun s o => decide (QuitMatched s o)) boot handover = some s ∧ Conserved s := by
  have hsome : (runIf step (fun s o => decide (QuitMatched s o)) boot handover).isSome = true := by
    decide +kernel
  obtain ⟨s, hs⟩ := Option.isSome_iff_exists.mp hsome
  exact ⟨s, hs, permits_conserved (reach_of_runIf hs fun _ _ h => of_decide_eq_true h)⟩

/-- A holder, a waiter that is granted the lock, an unmatched quit, and a third task. -/
def doubleQuit : List Op :=
  [.spawn 1, .spawn 2, .spawn 3, .spawn 4, .alloc 1, .enter 1 1 0 false, .enter 4 1 0 false,
    .quit 1 1, .quit 2 1, .enter 3 1 0 false, .enter 4 1 0 false]

/-- Without the condition a lock admits two tasks: the second quit is accepted while the permit of
    the first is still parked in a granted slot. -/
theorem doubleQuit_not_conserved : ¬ ∀ s, Reach step Free boot s → Conserved s := by
  intro h
  have hrun : ((runOps step boot doubleQuit).map fun s =>
      (s.tab.semValidIdx 0, (s.book 0).binary, (s.book 0).log))
      = some (true, true, [.taken 4, .taken 3, .returned (.quit 2), .returned (.quit 1),
        .taken 1]) := by decide +kernel
  obtain ⟨s, hs, hobs⟩ := Option.map_eq_some_iff.mp hrun
  simp only [Prod.mk.injEq] at hobs
  obtain ⟨hv, hb, hlog⟩ := hobs
  have hx := (h s (reach_of_runOps hs)).exclusive 0 hv hb
  obtain ⟨r, hmem⟩ := hx [] [] [.returned (.quit 2), .returned (.quit 1), .taken 1] 4 3 hlog
  cases hmem

end EwokOS.Kernel.Semaphore
