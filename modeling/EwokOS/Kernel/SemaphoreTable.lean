import EwokOS.Kernel.Semaphore
import EwokOS.Schemes.Tally

/-! What the semaphore operations do to the two tables.

    A permit of semaphore `idx` that nobody holds is either counted or parked in a granted wait
    slot; `pool` is the sum. `Sound` is what the tables keep between critical sections, and each
    operation below is shown to keep it together with its effect on `pool`: hand-off and the
    recovery of a granted slot leave it alone, a take lowers it by one, a quit raises it by one. -/

namespace EwokOS.Kernel.Semaphore
open EwokOS.Schemes

def queuedOn (idx : ℕ) (w : Waiter) : Bool := w.semId == idx + 1

def grantedFor (idx : ℕ) (w : Waiter) : Bool := queuedOn idx w && w.granted

def waitsFor (idx : ℕ) (w : Waiter) : Bool := queuedOn idx w && !w.granted

namespace Waiter

/-- A deleted slot. -/
def freed (w : Waiter) : Waiter := { w with semId := 0, pid := -1, granted := false }

/-- A slot that was handed a permit. -/
def given (w : Waiter) : Waiter := { w with granted := true }

@[simp] theorem freed_semId (w : Waiter) : w.freed.semId = 0 := rfl
@[simp] theorem freed_granted (w : Waiter) : w.freed.granted = false := rfl
@[simp] theorem given_semId (w : Waiter) : w.given.semId = w.semId := rfl
@[simp] theorem given_pid (w : Waiter) : w.given.pid = w.pid := rfl
@[simp] theorem given_seq (w : Waiter) : w.given.seq = w.seq := rfl
@[simp] theorem given_granted (w : Waiter) : w.given.granted = true := rfl
@[simp] theorem grantedFor_freed (idx : ℕ) (w : Waiter) : grantedFor idx w.freed = false := rfl
@[simp] theorem grantedFor_given (idx : ℕ) (w : Waiter) :
    grantedFor idx w.given = queuedOn idx w := by simp [grantedFor, queuedOn]

end Waiter

namespace Sem

/-- `sem_refresh_occupied` on the record. -/
def refresh (s : Sem) : Sem := { s with occupied := if s.count ≤ 0 then .occupied else .idle }

/-- One permit less, the taker recorded on a binary semaphore. -/
def taken (s : Sem) (pid : ℤ) : Sem :=
  { s with count := s.count - 1, occupiedPid := if s.maxCount = 1 then pid else s.occupiedPid }

/-- One permit more. -/
def posted (s : Sem) (pid : ℤ) : Sem :=
  { s with
    count := s.count + 1
    occupiedPid := if s.maxCount = 1 ∧ s.occupiedPid = pid then -1 else s.occupiedPid }

/-- The record after a dead task's granted permit came back. -/
def givenBack (s : Sem) (pid : ℤ) : Sem :=
  { s with
    count := if s.count < s.maxCount then s.count + 1 else s.count
    occupiedPid := if s.occupiedPid = pid then -1 else s.occupiedPid }

/-- The record after a dead task's lock was recovered. -/
def recovered (s : Sem) : Sem :=
  { s with count := s.maxCount, occupied := .idle, occupiedPid := -1 }

@[simp] theorem refresh_count (s : Sem) : s.refresh.count = s.count := rfl
@[simp] theorem refresh_maxCount (s : Sem) : s.refresh.maxCount = s.maxCount := rfl
@[simp] theorem refresh_createrPid (s : Sem) : s.refresh.createrPid = s.createrPid := rfl
@[simp] theorem refresh_occupiedPid (s : Sem) : s.refresh.occupiedPid = s.occupiedPid := rfl
@[simp] theorem taken_count (s : Sem) (p : ℤ) : (s.taken p).count = s.count - 1 := rfl
@[simp] theorem taken_maxCount (s : Sem) (p : ℤ) : (s.taken p).maxCount = s.maxCount := rfl
@[simp] theorem taken_createrPid (s : Sem) (p : ℤ) : (s.taken p).createrPid = s.createrPid := rfl
@[simp] theorem posted_count (s : Sem) (p : ℤ) : (s.posted p).count = s.count + 1 := rfl
@[simp] theorem posted_maxCount (s : Sem) (p : ℤ) : (s.posted p).maxCount = s.maxCount := rfl
@[simp] theorem posted_createrPid (s : Sem) (p : ℤ) : (s.posted p).createrPid = s.createrPid := rfl

@[simp] theorem givenBack_maxCount (s : Sem) (p : ℤ) : (s.givenBack p).maxCount = s.maxCount := rfl
@[simp] theorem givenBack_createrPid (s : Sem) (p : ℤ) :
    (s.givenBack p).createrPid = s.createrPid := rfl

theorem refresh_occupied_iff {s : Sem} (h : 0 ≤ s.count) :
    s.refresh.occupied = .occupied ↔ s.count = 0 := by
  simp only [refresh]
  split <;> simp <;> omega

end Sem

namespace Table
variable {t : Table} {idx slot i : ℕ} {pid : ℤ} {s : Sem} {w : Waiter}

@[simp] theorem setSem_waiters : (t.setSem idx s).waiters = t.waiters := rfl
@[simp] theorem setSem_same : (t.setSem idx s).semaphores idx = s := by simp [setSem]
@[simp] theorem setSem_other {j : ℕ} (h : j ≠ idx) :
    (t.setSem idx s).semaphores j = t.semaphores j := by simp [setSem, h]
@[simp] theorem setSem_waiterSeq : (t.setSem idx s).waiterSeq = t.waiterSeq := rfl
@[simp] theorem setWaiter_semaphores : (t.setWaiter i w).semaphores = t.semaphores := rfl
@[simp] theorem setWaiter_same : (t.setWaiter i w).waiters i = w := by simp [setWaiter]
@[simp] theorem setWaiter_other {j : ℕ} (h : j ≠ i) :
    (t.setWaiter i w).waiters j = t.waiters j := by simp [setWaiter, h]
@[simp] theorem setWaiter_waiterSeq : (t.setWaiter i w).waiterSeq = t.waiterSeq := rfl
@[simp] theorem wake_semaphores : (t.wake pid idx).semaphores = t.semaphores := rfl
@[simp] theorem wake_waiters : (t.wake pid idx).waiters = t.waiters := rfl
@[simp] theorem wake_waiterSeq : (t.wake pid idx).waiterSeq = t.waiterSeq := rfl

@[simp] theorem semRefreshOccupied_setSem :
    (t.setSem idx s).semRefreshOccupied idx = t.setSem idx s.refresh := by
  simp [semRefreshOccupied, setSem, Sem.refresh]

theorem semValidIdx_iff :
    t.semValidIdx idx = true ↔ idx < semaphoreMax ∧ (t.semaphores idx).createrPid ≠ -1 := by
  simp [semValidIdx]

theorem semIsBinary_iff : t.semIsBinary idx = true ↔ (t.semaphores idx).maxCount = 1 := by
  simp [semIsBinary]

/-! ### The functions in terms of the records -/

theorem semTryAcquireLocked_eq : t.semTryAcquireLocked idx pid =
    if (t.semaphores idx).count ≤ 0 then (false, t)
    else (true, t.setSem idx ((t.semaphores idx).taken pid).refresh) := by
  by_cases hb : (t.semaphores idx).maxCount = 1 <;>
    simp [semTryAcquireLocked, semIsBinary, Sem.taken, hb]

theorem grant_eq : t.grant idx slot =
    ((t.setWaiter slot (t.waiters slot).given).setSem idx
      ((t.semaphores idx).taken (t.waiters slot).pid).refresh).wake (t.waiters slot).pid idx := by
  unfold grant
  simp only [semIsBinary, setWaiter_semaphores, setSem_same, Sem.taken]
  congr 1
  split <;> simp_all [semRefreshOccupied, setSem, setWaiter, Sem.refresh, Waiter.given]

theorem semaphoreQuit_eq (alive : ℤ → Bool) (semId : ℕ) : t.semaphoreQuit alive semId pid =
    if semId = 0 ∨ semaphoreMax < semId then (false, t)
    else if t.semValidIdx (semId - 1) = false ∨
        (t.semaphores (semId - 1)).maxCount ≤ (t.semaphores (semId - 1)).count then (false, t)
    else (true, (t.setSem (semId - 1) ((t.semaphores (semId - 1)).posted pid).refresh).semHandoffLocked
      alive (semId - 1)) := by
  unfold semaphoreQuit
  simp only [semRefreshOccupied_setSem, Sem.posted, semIsBinary_iff]
  split
  · rfl
  · split
    · rfl
    · split <;> simp_all

/-! ### Permits nobody holds -/

/-- Permits of semaphore `idx` parked in wait slots. -/
def grantedOn (t : Table) (idx : ℕ) : ℤ := tally semWaiterMax (grantedFor idx) t.waiters

def pool (t : Table) (idx : ℕ) : ℤ := (t.semaphores idx).count + t.grantedOn idx

theorem grantedOn_nonneg (t : Table) (idx : ℕ) : 0 ≤ t.grantedOn idx := tally_nonneg _ _ _

@[simp] theorem grantedOn_setSem {j : ℕ} : (t.setSem idx s).grantedOn j = t.grantedOn j := rfl
@[simp] theorem pool_wake {j : ℕ} : (t.wake pid idx).pool j = t.pool j := rfl

theorem grantedOn_setWaiter (hi : i < semWaiterMax) (j : ℕ) : (t.setWaiter i w).grantedOn j =
    t.grantedOn j - mark (grantedFor j) (t.waiters i) + mark (grantedFor j) w :=
  tally_update hi w

/-- The tables between two critical sections. -/
structure Sound (t : Table) : Prop where
  nonneg : ∀ idx, t.semValidIdx idx = true → 0 ≤ (t.semaphores idx).count
  pool_le : ∀ idx, t.semValidIdx idx = true → t.pool idx ≤ (t.semaphores idx).maxCount
  occupied_iff : ∀ idx, t.semValidIdx idx = true →
    ((t.semaphores idx).occupied = .occupied ↔ (t.semaphores idx).count = 0)
  named : ∀ i < semWaiterMax, (t.waiters i).semId ≠ 0 →
    t.semValidIdx ((t.waiters i).semId - 1) = true
  keyed : ∀ i < semWaiterMax, ∀ j < semWaiterMax, (t.waiters i).semId ≠ 0 →
    (t.waiters i).semId = (t.waiters j).semId → (t.waiters i).pid = (t.waiters j).pid → i = j
  owner : ∀ idx, (t.semaphores idx).maxCount = 1 → ∀ i < semWaiterMax,
    grantedFor idx (t.waiters i) = true → (t.semaphores idx).occupiedPid = (t.waiters i).pid

@[simp] theorem semValidIdx_setWaiter {j : ℕ} :
    (t.setWaiter i w).semValidIdx j = t.semValidIdx j := rfl
@[simp] theorem semValidIdx_wake {j : ℕ} : (t.wake pid idx).semValidIdx j = t.semValidIdx j := rfl

theorem semValidIdx_setSem (h : s.createrPid = (t.semaphores idx).createrPid) (j : ℕ) :
    (t.setSem idx s).semValidIdx j = t.semValidIdx j := by
  by_cases hj : j = idx
  · subst hj; simp [semValidIdx, h]
  · simp [semValidIdx, hj]

theorem sound_wake (h : t.Sound) : (t.wake pid idx).Sound :=
  ⟨h.nonneg, h.pool_le, h.occupied_iff, h.named, h.keyed, h.owner⟩

theorem grantedFor_iff {j : ℕ} : grantedFor j w = true ↔ w.semId = j + 1 ∧ w.granted = true := by
  simp [grantedFor, queuedOn]

/-- A slot is granted by one semaphore at most. -/
theorem grantedFor_other {j k : ℕ} (h : w.semId = j + 1) (hk : k ≠ j) : grantedFor k w = false := by
  simp only [grantedFor, queuedOn, h, Bool.and_eq_false_iff, beq_eq_false_iff_ne]
  left; omega

theorem grantedOn_eq_zero_of_binary (h : t.Sound) (hv : t.semValidIdx idx = true)
    (hb : (t.semaphores idx).maxCount = 1) (hc : 0 < (t.semaphores idx).count) :
    t.grantedOn idx = 0 := by
  have hp := h.pool_le idx hv
  have := t.grantedOn_nonneg idx
  simp only [pool] at hp
  omega

/-! ### One write at a time -/

/-- Rewriting the record of a live semaphore. -/
theorem sound_setSem (h : t.Sound) (hcr : s.createrPid = (t.semaphores idx).createrPid)
    (hmax : s.maxCount = (t.semaphores idx).maxCount)
    (hnn : t.semValidIdx idx = true → 0 ≤ s.count)
    (hle : t.semValidIdx idx = true → s.count + t.grantedOn idx ≤ s.maxCount)
    (hocc : t.semValidIdx idx = true → (s.occupied = .occupied ↔ s.count = 0))
    (hown : s.maxCount = 1 → ∀ i < semWaiterMax, grantedFor idx (t.waiters i) = true →
      s.occupiedPid = (t.waiters i).pid) : (t.setSem idx s).Sound := by
  have hvalid := semValidIdx_setSem (t := t) hcr
  refine ⟨?_, ?_, ?_, ?_, h.keyed, ?_⟩
  · intro j hj
    rw [hvalid] at hj
    by_cases e : j = idx
    · subst e; simpa using hnn hj
    · simpa [e] using h.nonneg j hj
  · intro j hj
    rw [hvalid] at hj
    by_cases e : j = idx
    · subst e; simpa [pool] using hle hj
    · simpa [e, pool] using h.pool_le j hj
  · intro j hj
    rw [hvalid] at hj
    by_cases e : j = idx
    · subst e; simpa using hocc hj
    · simpa [e] using h.occupied_iff j hj
  · intro i hi hne
    rw [hvalid]
    exact h.named i hi hne
  · intro j hj i hi hg
    by_cases e : j = idx
    · subst e
      rw [setSem_same] at hj ⊢
      exact hown hj i hi hg
    · rw [setSem_other e] at hj ⊢
      exact h.owner j hj i hi hg

theorem sound_setWaiter_free (h : t.Sound) (hw : w.semId = 0) (hi : i < semWaiterMax) :
    (t.setWaiter i w).Sound := by
  have hfree : ∀ j, grantedFor j w = false := fun j => by simp [grantedFor, queuedOn, hw]
  refine ⟨h.nonneg, ?_, h.occupied_iff, ?_, ?_, ?_⟩
  · intro j hj
    have h1 := h.pool_le j hj
    have h2 := mark_nonneg (grantedFor j) (t.waiters i)
    simp only [pool, setWaiter_semaphores, grantedOn_setWaiter hi, mark_false (hfree j)] at h1 ⊢
    omega
  · intro k hk hne
    by_cases e : k = i
    · subst e; simp [hw] at hne
    · simp only [setWaiter_other e] at hne ⊢
      exact h.named k hk hne
  · intro k hk l hl hne heq hpid
    by_cases e : k = i
    · subst e; simp [hw] at hne
    · by_cases e' : l = i
      · subst e'; simp [e, hw] at hne heq; exact absurd heq hne
      · simp only [setWaiter_other e, setWaiter_other e'] at hne heq hpid
        exact h.keyed k hk l hl hne heq hpid
  · intro j hj k hk hg
    by_cases e : k = i
    · subst e; simp [hfree] at hg
    · simp only [setWaiter_other e] at hg ⊢
      exact h.owner j hj k hk hg

theorem sound_setWaiter_grant (h : t.Sound) (hi : i < semWaiterMax)
    (hw : (t.waiters i).semId = idx + 1) (hg : (t.waiters i).granted = false)
    (hc : 0 < (t.semaphores idx).count) :
    ((t.setWaiter i (t.waiters i).given).setSem idx
      ((t.semaphores idx).taken (t.waiters i).pid).refresh).Sound := by
  have hv : t.semValidIdx idx = true := by
    have := h.named i hi (by omega)
    rwa [hw] at this
  have hold : grantedFor idx (t.waiters i) = false := by simp [grantedFor, hg]
  have hnew : grantedFor idx (t.waiters i).given = true := by
    simp [grantedFor, queuedOn, hw]
  have hgo : (t.setWaiter i (t.waiters i).given).grantedOn idx
      = t.grantedOn idx + 1 := by
    rw [grantedOn_setWaiter hi, mark_false hold, mark_true hnew]; omega
  have hvalid : ∀ j, ((t.setWaiter i (t.waiters i).given).setSem idx
      ((t.semaphores idx).taken (t.waiters i).pid).refresh).semValidIdx j = t.semValidIdx j :=
    fun j => semValidIdx_setSem (by rfl) j
  refine ⟨?_, ?_, ?_, ?_, ?_, ?_⟩
  · intro j hj
    rw [hvalid] at hj
    by_cases e : j = idx
    · subst e; simp; omega
    · simpa [e] using h.nonneg j hj
  · intro j hj
    rw [hvalid] at hj
    have hp := h.pool_le j hj
    by_cases e : j = idx
    · subst e
      simp only [pool, setSem_same, grantedOn_setSem, hgo] at hp ⊢
      simp; omega
    · simp only [pool, setSem_other e, grantedOn_setSem, grantedOn_setWaiter hi] at hp ⊢
      rw [mark_false (grantedFor_other hw e), mark_false (grantedFor_other (w := Waiter.given _) hw e)]
      simpa using hp
  · intro j hj
    rw [hvalid] at hj
    by_cases e : j = idx
    · subst e
      rw [setSem_same, Sem.refresh_occupied_iff (by simp; omega)]
      simp
    · simpa [e] using h.occupied_iff j hj
  · intro k hk hne
    rw [hvalid]
    by_cases e : k = i
    · subst e; simpa using h.named k hk (by simpa using hne)
    · simp only [setSem_waiters, setWaiter_other e] at hne ⊢
      exact h.named k hk hne
  · intro k hk l hl
    have hk' : ∀ m, ((t.setWaiter i (t.waiters i).given).waiters m).semId
        = (t.waiters m).semId ∧
        ((t.setWaiter i (t.waiters i).given).waiters m).pid
        = (t.waiters m).pid := by
      intro m
      by_cases e : m = i
      · subst e; simp
      · simp [e]
    simp only [setSem_waiters, (hk' k).1, (hk' k).2, (hk' l).1, (hk' l).2]
    exact h.keyed k hk l hl
  · intro j hj k hk hgk
    by_cases ej : j = idx
    · subst ej
      have hb : (t.semaphores j).maxCount = 1 := by simpa using hj
      -- a binary semaphore with a free permit has no other granted slot
      have hz := grantedOn_eq_zero_of_binary h hv hb hc
      by_cases e : k = i
      · subst e; simp [Sem.taken, hb]
      · have := eq_false_of_tally_eq_zero hz hk
        simp only [setSem_waiters, setWaiter_other e] at hgk
        rw [this] at hgk
        exact absurd hgk (by simp)
    · have hki : k ≠ i := by
        rintro rfl
        simp only [setSem_waiters, setWaiter_same] at hgk
        rw [grantedFor_other (j := idx) (by exact hw) ej] at hgk
        exact absurd hgk (by simp)
      simp only [setSem_other ej, setSem_waiters, setWaiter_other hki, setWaiter_semaphores]
        at hj hgk ⊢
      exact h.owner j hj k hk hgk

/-! ### Deleting a wait slot -/

theorem semWaiterDelLocked_cases (t : Table) (slot : ℕ) (pid : ℤ) :
    t.semWaiterDelLocked slot pid = t ∨
    (slot < semWaiterMax ∧ (t.waiters slot).semId ≠ 0 ∧ (t.waiters slot).pid = pid ∧
      t.semWaiterDelLocked slot pid =
        t.setWaiter slot (t.waiters slot).freed) := by
  unfold semWaiterDelLocked
  simp only
  split
  · exact .inl rfl
  · rename_i hlt
    split
    · exact .inl rfl
    · rename_i hne
      push Not at hne
      exact .inr ⟨by omega, hne.1, hne.2, rfl⟩

theorem semWaiterDelLocked_eq (hlt : slot < semWaiterMax) (hne : (t.waiters slot).semId ≠ 0)
    (hp : (t.waiters slot).pid = pid) : t.semWaiterDelLocked slot pid =
      t.setWaiter slot (t.waiters slot).freed := by
  simp [semWaiterDelLocked, Nat.not_le.mpr hlt, hne, hp, Waiter.freed]

@[simp] theorem semWaiterDelLocked_semaphores :
    (t.semWaiterDelLocked slot pid).semaphores = t.semaphores := by
  rcases semWaiterDelLocked_cases t slot pid with h | ⟨-, -, -, h⟩ <;> rw [h]; rfl

@[simp] theorem semValidIdx_del {j : ℕ} :
    (t.semWaiterDelLocked slot pid).semValidIdx j = t.semValidIdx j := by
  simp [semValidIdx]

@[simp] theorem semWaiterDelLocked_waiterSeq :
    (t.semWaiterDelLocked slot pid).waiterSeq = t.waiterSeq := by
  rcases semWaiterDelLocked_cases t slot pid with h | ⟨-, -, -, h⟩ <;> rw [h]; rfl

theorem semWaiterDelLocked_slot (t : Table) (slot : ℕ) (pid : ℤ) (k : ℕ) :
    (t.semWaiterDelLocked slot pid).waiters k = t.waiters k ∨
    (k = slot ∧ (t.waiters k).pid = pid ∧ ((t.semWaiterDelLocked slot pid).waiters k).semId = 0) := by
  rcases semWaiterDelLocked_cases t slot pid with h | ⟨-, -, hp, h⟩ <;> rw [h]
  · exact .inl rfl
  · by_cases e : k = slot
    · subst e; exact .inr ⟨rfl, hp, by simp⟩
    · exact .inl (by simp [e])

theorem sound_del (h : t.Sound) : (t.semWaiterDelLocked slot pid).Sound := by
  rcases semWaiterDelLocked_cases t slot pid with e | ⟨hlt, -, -, e⟩ <;> rw [e]
  · exact h
  · exact sound_setWaiter_free h rfl hlt

theorem pool_del_ungranted (hg : (t.waiters slot).granted = false) (j : ℕ) :
    (t.semWaiterDelLocked slot pid).pool j = t.pool j := by
  rcases semWaiterDelLocked_cases t slot pid with e | ⟨hlt, -, -, e⟩ <;> rw [e]
  have h1 : grantedFor j (t.waiters slot) = false := by simp [grantedFor, hg]
  simp only [pool, setWaiter_semaphores, grantedOn_setWaiter hlt, mark_false h1]
  rw [mark_false (Waiter.grantedFor_freed j _)]
  omega

theorem pool_del_granted (hlt : slot < semWaiterMax) (hw : (t.waiters slot).semId = idx + 1)
    (hg : (t.waiters slot).granted = true) (j : ℕ) :
    (t.semWaiterDelLocked slot (t.waiters slot).pid).pool j
      = t.pool j - if j = idx then 1 else 0 := by
  rw [semWaiterDelLocked_eq hlt (by omega) rfl]
  simp only [pool, setWaiter_semaphores, grantedOn_setWaiter hlt]
  rw [mark_false (Waiter.grantedFor_freed j _)]
  by_cases e : j = idx
  · subst e
    rw [mark_true (grantedFor_iff.mpr ⟨hw, hg⟩)]; simp; omega
  · rw [mark_false (grantedFor_other hw e)]; simp [e]

/-- Slots are only freed or granted: nobody new is queued. -/
def Thin (t u : Table) : Prop :=
  ∀ k, (u.waiters k).semId = 0 ∨ u.waiters k = t.waiters k ∨ u.waiters k = (t.waiters k).given

theorem thin_of_eq {u : Table} (h : u.waiters = t.waiters) : Thin t u :=
  fun k => .inr (.inl (congrFun h k))

theorem Thin.trans {u v : Table} (h₁ : Thin t u) (h₂ : Thin u v) : Thin t v := by
  intro k
  rcases h₂ k with e | e | e
  · exact .inl e
  · rw [e]; exact h₁ k
  · rw [e]
    rcases h₁ k with e' | e' | e'
    · exact .inl (by simpa using e')
    · exact .inr (.inr (by rw [e']))
    · exact .inr (.inr (by rw [e']; rfl))

theorem thin_del (t : Table) (slot : ℕ) (pid : ℤ) : Thin t (t.semWaiterDelLocked slot pid) := by
  intro k
  rcases semWaiterDelLocked_slot t slot pid k with e | ⟨-, -, e⟩
  · exact .inr (.inl e)
  · exact .inl e

/-- An occupied slot has had its task and its place all along. -/
theorem Thin.occupied {u : Table} (h : Thin t u) {k : ℕ} (hne : (u.waiters k).semId ≠ 0) :
    (u.waiters k).semId = (t.waiters k).semId ∧ (u.waiters k).pid = (t.waiters k).pid ∧
      (u.waiters k).seq = (t.waiters k).seq := by
  rcases h k with e | e | e
  · exact absurd e hne
  · rw [e]; exact ⟨rfl, rfl, rfl⟩
  · rw [e]; exact ⟨rfl, rfl, rfl⟩

/-! ### The oldest waiter -/

/-- Slot `j` holds a task still waiting for a permit of semaphore `idx`. -/
def waitsOn (t : Table) (idx j : ℕ) : Prop :=
  (t.waiters j).semId = idx + 1 ∧ (t.waiters j).granted = false

theorem waitsFor_iff {j : ℕ} : waitsFor idx (t.waiters j) = true ↔ t.waitsOn idx j := by
  simp [waitsFor, queuedOn, waitsOn]

/-- What the scan for the oldest waiter knows after the first `n` slots. -/
def ScanOk (t : Table) (idx n : ℕ) : Option (ℕ × ℕ) → Prop
  | none => ∀ j < n, ¬ t.waitsOn idx j
  | some (b, sq) => b < n ∧ t.waitsOn idx b ∧ sq = (t.waiters b).seq ∧
      ∀ j < n, t.waitsOn idx j → sq ≤ (t.waiters j).seq

theorem scanOk_step {n : ℕ} {best : Option (ℕ × ℕ)} (h : t.ScanOk idx n best) :
    t.ScanOk idx (n + 1) (t.headStep idx best n) := by
  unfold headStep
  simp only
  split
  · rename_i hskip
    have hn : ¬ t.waitsOn idx n := by
      rintro ⟨h1, h2⟩
      rcases hskip with hs | hs
      · exact hs h1
      · simp [h2] at hs
    cases best with
    | none =>
      intro j hj
      rcases Nat.lt_succ_iff_lt_or_eq.mp hj with hlt | rfl
      · exact h j hlt
      · exact hn
    | some b =>
      obtain ⟨hb, hw, hs, hmin⟩ := h
      refine ⟨by omega, hw, hs, ?_⟩
      intro j hj hjw
      rcases Nat.lt_succ_iff_lt_or_eq.mp hj with hlt | rfl
      · exact hmin j hlt hjw
      · exact absurd hjw hn
  · rename_i hskip
    push Not at hskip
    have hn : t.waitsOn idx n := ⟨hskip.1, by simpa using hskip.2⟩
    cases best with
    | none =>
      refine ⟨by omega, hn, rfl, ?_⟩
      intro j hj hjw
      rcases Nat.lt_succ_iff_lt_or_eq.mp hj with hlt | rfl
      · exact absurd hjw (h j hlt)
      · exact le_refl _
    | some b =>
      obtain ⟨hb, hw, hs, hmin⟩ := h
      simp only
      split
      · refine ⟨by omega, hn, rfl, ?_⟩
        intro j hj hjw
        rcases Nat.lt_succ_iff_lt_or_eq.mp hj with hlt | rfl
        · have := hmin j hlt hjw; omega
        · exact le_refl _
      · refine ⟨by omega, hw, hs, ?_⟩
        intro j hj hjw
        rcases Nat.lt_succ_iff_lt_or_eq.mp hj with hlt | rfl
        · exact hmin j hlt hjw
        · omega

theorem scanOk_range (t : Table) (idx : ℕ) : ∀ n,
    t.ScanOk idx n ((List.range n).foldl (t.headStep idx) none)
  | 0 => fun j hj => absurd hj (by omega)
  | n + 1 => by
    rw [List.range_succ, List.foldl_append]
    exact scanOk_step (scanOk_range t idx n)

theorem head_some (h : t.semWaiterHeadLocked idx = some slot) :
    slot < semWaiterMax ∧ t.waitsOn idx slot ∧
      ∀ j < semWaiterMax, t.waitsOn idx j → (t.waiters slot).seq ≤ (t.waiters j).seq := by
  have hs := scanOk_range t idx semWaiterMax
  unfold semWaiterHeadLocked at h
  cases hf : (List.range semWaiterMax).foldl (t.headStep idx) none with
  | none => simp [hf] at h
  | some b =>
    rw [hf] at hs h
    obtain ⟨hb, hw, he, hmin⟩ := hs
    simp only [Option.map_some, Option.some.injEq] at h
    subst h
    exact ⟨hb, hw, fun j hj hjw => he ▸ hmin j hj hjw⟩

theorem head_none (h : t.semWaiterHeadLocked idx = none) :
    ∀ j < semWaiterMax, ¬ t.waitsOn idx j := by
  have hs := scanOk_range t idx semWaiterMax
  unfold semWaiterHeadLocked at h
  cases hf : (List.range semWaiterMax).foldl (t.headStep idx) none with
  | none => rwa [hf] at hs
  | some b => simp [hf] at h

/-! ### Hand-off -/

section Handoff
variable {alive : ℤ → Bool}

/-- The rule for hand-off: a property of the table that survives dropping a dead head and granting
    a live one survives the loop. -/
theorem semHandoffLoop_induct {P : Table → Prop}
    (hdel : ∀ u slot, P u → 0 < (u.semaphores idx).count → u.semWaiterHeadLocked idx = some slot →
      alive (u.waiters slot).pid = false → P (u.semWaiterDelLocked slot (u.waiters slot).pid))
    (hgrant : ∀ u slot, P u → 0 < (u.semaphores idx).count →
      u.semWaiterHeadLocked idx = some slot → alive (u.waiters slot).pid = true →
      P (u.grant idx slot)) :
    ∀ (fuel : ℕ) (t : Table), P t → P (semHandoffLoop alive idx fuel t)
  | 0, _, ht => ht
  | fuel + 1, t, ht => by
    unfold semHandoffLoop
    split
    · rename_i hc
      split
      · exact ht
      · rename_i slot hs
        simp only
        split
        · rename_i ha; exact hgrant t slot ht hc hs ha
        · rename_i ha
          exact semHandoffLoop_induct hdel hgrant fuel _ (hdel t slot ht hc hs (by simpa using ha))
    · exact ht

/-- What hand-off on `idx` does: it drops dead waiters, grants at most one permit, to the oldest
    live waiter, and stops only when a permit is spent or nobody waits. -/
structure Handed (alive : ℤ → Bool) (idx : ℕ) (t u : Table) : Prop where
  pool : ∀ j, u.pool j = t.pool j
  sems : ∀ j ≠ idx, u.semaphores j = t.semaphores j
  creater : (u.semaphores idx).createrPid = (t.semaphores idx).createrPid
  cap : (u.semaphores idx).maxCount = (t.semaphores idx).maxCount
  slots : ∀ k, u.waiters k = t.waiters k ∨
    (t.waitsOn idx k ∧ alive (t.waiters k).pid = false ∧ (u.waiters k).semId = 0) ∨
    (t.waitsOn idx k ∧ alive (t.waiters k).pid = true ∧ u.waiters k = (t.waiters k).given ∧
      ∀ j < semWaiterMax, t.waitsOn idx j → alive (t.waiters j).pid = true →
        (t.waiters k).seq ≤ (t.waiters j).seq)
  spent : 0 < (u.semaphores idx).count →
    (u.semaphores idx).count = (t.semaphores idx).count - 1 ∨
    ∀ j < semWaiterMax, ¬ u.waitsOn idx j

theorem Handed.thin {u : Table} (h : Handed alive idx t u) : Thin t u := by
  intro k
  rcases h.slots k with e | ⟨-, -, e⟩ | ⟨-, -, e, -⟩
  · exact .inr (.inl e)
  · exact .inl e
  · exact .inr (.inr e)

theorem Handed.createrPid {u : Table} (h : Handed alive idx t u) (j : ℕ) :
    (u.semaphores j).createrPid = (t.semaphores j).createrPid := by
  by_cases e : j = idx
  · subst e; exact h.creater
  · rw [h.sems j e]

theorem Handed.maxCount {u : Table} (h : Handed alive idx t u) (j : ℕ) :
    (u.semaphores j).maxCount = (t.semaphores j).maxCount := by
  by_cases e : j = idx
  · subst e; exact h.cap
  · rw [h.sems j e]

theorem handed_refl (h : 0 < (t.semaphores idx).count → ∀ j < semWaiterMax, ¬ t.waitsOn idx j) :
    Handed alive idx t t :=
  ⟨fun _ => rfl, fun _ _ => rfl, rfl, rfl, fun _ => .inl rfl, fun hc => .inr (h hc)⟩

theorem pool_grant (hlt : slot < semWaiterMax) (hw : t.waitsOn idx slot) (j : ℕ) :
    (t.grant idx slot).pool j = t.pool j := by
  have hold : grantedFor j (t.waiters slot) = false := by simp [grantedFor, hw.2]
  rw [grant_eq, pool_wake]
  simp only [pool, grantedOn_setSem, grantedOn_setWaiter hlt, mark_false hold]
  by_cases e : j = idx
  · subst e
    rw [mark_true (grantedFor_iff.mpr ⟨by exact hw.1, rfl⟩)]; simp
  · rw [mark_false (grantedFor_other (by exact hw.1) e)]; simp [e]

theorem handed_grant (hs : t.semWaiterHeadLocked idx = some slot)
    (ha : alive (t.waiters slot).pid = true) : Handed alive idx t (t.grant idx slot) := by
  obtain ⟨hlt, hw, hmin⟩ := head_some hs
  refine ⟨pool_grant hlt hw, ?_, ?_, ?_, ?_, ?_⟩
  · intro j hj; rw [grant_eq]; simp [hj]
  · rw [grant_eq]; simp
  · rw [grant_eq]; simp
  · intro k
    rw [grant_eq]
    by_cases e : k = slot
    · subst e
      exact .inr (.inr ⟨hw, ha, by simp, fun j hj hjw _ => hmin j hj hjw⟩)
    · exact .inl (by simp [e])
  · intro _; left; rw [grant_eq]; simp

/-- Dropping a dead waiter first. -/
theorem Handed.of_del {u : Table} (hs : t.semWaiterHeadLocked idx = some slot)
    (hd : alive (t.waiters slot).pid = false)
    (h : Handed alive idx (t.semWaiterDelLocked slot (t.waiters slot).pid) u) :
    Handed alive idx t u := by
  obtain ⟨hlt, hw, -⟩ := head_some hs
  have hne : (t.waiters slot).semId ≠ 0 := by rw [hw.1]; omega
  have hother : ∀ k, k ≠ slot →
      (t.semWaiterDelLocked slot (t.waiters slot).pid).waiters k = t.waiters k := by
    intro k hk; rw [semWaiterDelLocked_eq hlt hne rfl, setWaiter_other hk]
  refine ⟨fun j => by rw [h.pool, pool_del_ungranted hw.2], fun j hj => by simpa using h.sems j hj,
    by simpa using h.creater, by simpa using h.cap, ?_, by simpa using h.spent⟩
  intro k
  have hk := h.slots k
  by_cases e : k = slot
  · subst e
    have hfree : (t.semWaiterDelLocked k (t.waiters k).pid).waiters k = (t.waiters k).freed := by
      rw [semWaiterDelLocked_eq hlt hne rfl, setWaiter_same]
    rcases hk with e | ⟨hw', -⟩ | ⟨hw', -⟩
    · exact .inr (.inl ⟨hw, hd, by rw [e, hfree]; rfl⟩)
    · exact absurd hw'.1 (by rw [hfree]; simp)
    · exact absurd hw'.1 (by rw [hfree]; simp)
  · simp only [waitsOn, hother k e] at hk
    rcases hk with e' | e' | ⟨hw', ha, hg, hmin⟩
    · exact .inl e'
    · exact .inr (.inl e')
    · refine .inr (.inr ⟨hw', ha, hg, ?_⟩)
      intro j hj hjw hja
      have hjs : j ≠ slot := by rintro rfl; rw [hd] at hja; cases hja
      have := hmin j hj
      rw [hother j hjs] at this
      exact this hjw hja

/-- Every turn of the loop that goes on frees a slot, so the fuel covers the whole loop. -/
theorem handed_loop (alive : ℤ → Bool) (idx : ℕ) : ∀ (fuel : ℕ) (t : Table),
    tally semWaiterMax (waitsFor idx) t.waiters < fuel → Handed alive idx t (semHandoffLoop alive idx fuel t)
  | 0, t, h => absurd (tally_nonneg semWaiterMax (waitsFor idx) t.waiters) (by simpa using h)
  | fuel + 1, t, h => by
    unfold semHandoffLoop
    split
    · split
      · rename_i hs
        exact handed_refl fun _ => head_none hs
      · rename_i slot hs
        obtain ⟨hlt, hw, -⟩ := head_some hs
        simp only
        split
        · rename_i ha; exact handed_grant hs ha
        · rename_i ha
          refine Handed.of_del hs (by simpa using ha) (handed_loop alive idx fuel _ ?_)
          rw [semWaiterDelLocked_eq hlt (by rw [hw.1]; omega) rfl]
          show tally _ _ (Function.update _ _ _) < _
          rw [tally_update hlt, mark_true (waitsFor_iff.mpr hw), mark_false (by rfl)]
          push_cast at h
          omega
    · rename_i hc
      exact handed_refl fun h => absurd h hc

theorem handed_handoff (alive : ℤ → Bool) (t : Table) (idx : ℕ) :
    Handed alive idx t (t.semHandoffLocked alive idx) := by
  refine handed_loop alive idx _ t ?_
  have := tally_le semWaiterMax (waitsFor idx) t.waiters
  push_cast
  omega

theorem sound_handoff (alive : ℤ → Bool) (h : t.Sound) :
    (t.semHandoffLocked alive idx).Sound := by
  refine semHandoffLoop_induct (P := Sound) ?_ ?_ _ _ h
  · intro u slot hu _ _ _; exact sound_del hu
  · intro u slot hu hc hs _
    obtain ⟨hlt, hw, -⟩ := head_some hs
    rw [grant_eq]
    exact sound_wake (sound_setWaiter_grant hu hlt hw.1 hw.2 hc)

end Handoff

end Table

end EwokOS.Kernel.Semaphore
