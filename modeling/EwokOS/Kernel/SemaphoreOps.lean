import EwokOS.Kernel.SemaphoreTable

/-! The semaphore system calls, one specification each.

    Every call keeps `Sound`. `Takes` is what the calls that may return ACQUIRED do to the pool of
    permits; quit and the recovery of a dead task's lock raise it by one; all the others leave it
    where it is. Nothing but allocation and teardown changes which semaphores exist. -/

namespace EwokOS.Kernel.Semaphore
open EwokOS.Schemes

namespace Table
variable {t u : Table} {idx slot i semId : ℕ} {pid : ℤ} {w : Waiter}

/-- The permits, and which semaphores exist, after a call that took a permit of `idx` if `got`. -/
structure Takes (idx : ℕ) (got : Bool) (t u : Table) : Prop where
  sound : u.Sound
  pool : ∀ j, u.pool j = t.pool j - if got = true ∧ j = idx then 1 else 0
  creater : ∀ j, (u.semaphores j).createrPid = (t.semaphores j).createrPid
  cap : ∀ j, (u.semaphores j).maxCount = (t.semaphores j).maxCount
  live : got = true → t.semValidIdx idx = true ∧ 0 < t.pool idx

theorem takes_nothing (h : t.Sound) : Takes idx false t t :=
  ⟨h, fun _ => by simp, fun _ => rfl, fun _ => rfl, fun e => by simp at e⟩

/-- Dropping an ungranted slot afterwards changes no permit. -/
theorem Takes.del {got : Bool} (h : Takes idx got t u) (hg : (u.waiters slot).granted = false) :
    Takes idx got t (u.semWaiterDelLocked slot pid) :=
  ⟨sound_del h.sound, fun j => by rw [pool_del_ungranted hg, h.pool],
    fun j => by simpa using h.creater j, fun j => by simpa using h.cap j, h.live⟩

/-- Dropping an ungranted slot first changes no permit either. -/
theorem Takes.of_del {got : Bool} (hg : (t.waiters slot).granted = false)
    (h : Takes idx got (t.semWaiterDelLocked slot pid) u) : Takes idx got t u :=
  ⟨h.sound, fun j => by rw [h.pool, pool_del_ungranted hg], fun j => by simpa using h.creater j,
    fun j => by simpa using h.cap j,
    fun e => ⟨by simpa [semValidIdx] using (h.live e).1, by
      have := (h.live e).2
      rwa [pool_del_ungranted hg] at this⟩⟩

theorem takes_tryAcquire (h : t.Sound) (hv : t.semValidIdx idx = true) (pid : ℤ) :
    Takes idx (t.semTryAcquireLocked idx pid).1 t (t.semTryAcquireLocked idx pid).2 := by
  rw [semTryAcquireLocked_eq]
  split
  · exact takes_nothing h
  · rename_i hc
    have hpos : 0 < (t.semaphores idx).count := by omega
    have hp := h.pool_le idx hv
    have hn := t.grantedOn_nonneg idx
    refine ⟨?_, ?_, ?_, ?_, fun _ => ⟨hv, by simp only [Table.pool]; omega⟩⟩
    · refine sound_setSem h rfl rfl ?_ ?_ ?_ ?_
      · intro _; simp; omega
      · intro _; simp only [Table.pool] at hp; simp; omega
      · intro _
        rw [Sem.refresh_occupied_iff (by simp; omega)]; simp
      · intro hb i hi hg
        have hz := grantedOn_eq_zero_of_binary h hv (by simpa using hb) hpos
        rw [eq_false_of_tally_eq_zero hz hi] at hg
        exact absurd hg (by simp)
    · intro j
      by_cases e : j = idx
      · subst e; simp [Table.pool]; omega
      · simp [Table.pool, e]
    · intro j
      by_cases e : j = idx
      · subst e; simp
      · simp [e]
    · intro j
      by_cases e : j = idx
      · subst e; simp
      · simp [e]

theorem tryAcquire_waiters :
    ((t.semTryAcquireLocked idx pid).2).waiters = t.waiters := by
  rw [semTryAcquireLocked_eq]; split <;> rfl

/-- Collecting a permit that hand-off left in the task's slot. -/
theorem takes_collect (h : t.Sound) (hlt : slot < semWaiterMax)
    (hw : (t.waiters slot).semId = idx + 1) (hg : (t.waiters slot).granted = true) :
    Takes idx true t (t.semWaiterDelLocked slot (t.waiters slot).pid) := by
  have hv : t.semValidIdx idx = true := by
    have := h.named slot hlt (by omega)
    rwa [hw] at this
  have hpos : 0 < t.grantedOn idx := tally_pos hlt (grantedFor_iff.mpr ⟨hw, hg⟩)
  have hn := h.nonneg idx hv
  refine ⟨sound_del h, ?_, fun j => by simp, fun j => by simp, fun _ => ⟨hv, ?_⟩⟩
  · intro j; rw [pool_del_granted hlt hw hg]; simp
  · simp only [Table.pool]; omega

theorem find_some (h : t.semWaiterFindLocked semId pid = some i) :
    i < semWaiterMax ∧ (t.waiters i).semId = semId ∧ (t.waiters i).pid = pid := by
  unfold semWaiterFindLocked at h
  have hp := List.find?_some h
  have hm := List.mem_of_find?_eq_some h
  simp only [Bool.and_eq_true, beq_iff_eq] at hp
  exact ⟨List.mem_range.mp hm, hp.1, hp.2⟩

theorem find_none (h : t.semWaiterFindLocked semId pid = none) (hi : i < semWaiterMax)
    (hs : (t.waiters i).semId = semId) : (t.waiters i).pid ≠ pid := by
  unfold semWaiterFindLocked at h
  have := List.find?_eq_none.mp h i (List.mem_range.mpr hi)
  simp only [hs, beq_self_eq_true, Bool.true_and, beq_iff_eq] at this
  exact this

/-! ### Queueing a waiter -/

theorem semWaiterAddLocked_cases (t : Table) (semId : ℕ) (pid : ℤ) :
    (t.semWaiterAddLocked semId pid).1 = none ∧ (t.semWaiterAddLocked semId pid).2 = t ∨
    ∃ i < semWaiterMax, (t.waiters i).semId = 0 ∧ t.semWaiterAddLocked semId pid =
      (some i, { t.setWaiter i ⟨semId, pid, t.waiterSeq, false⟩ with
        waiterSeq := (t.waiterSeq + 1) % seqMod }) := by
  unfold semWaiterAddLocked
  split
  · exact .inl ⟨rfl, rfl⟩
  · rename_i i hi
    have hp := List.find?_some hi
    exact .inr ⟨i, List.mem_range.mp (List.mem_of_find?_eq_some hi), by simpa using hp, rfl⟩

theorem sound_seq (h : t.Sound) (n : ℕ) : ({ t with waiterSeq := n } : Table).Sound :=
  ⟨h.nonneg, h.pool_le, h.occupied_iff, h.named, h.keyed, h.owner⟩

theorem sound_setWaiter_add (h : t.Sound) (hi : i < semWaiterMax) (hfree : (t.waiters i).semId = 0)
    (hs : w.semId = idx + 1) (hg : w.granted = false) (hv : t.semValidIdx idx = true)
    (hnew : ∀ j < semWaiterMax, (t.waiters j).semId = idx + 1 → (t.waiters j).pid ≠ w.pid) :
    (t.setWaiter i w).Sound ∧ ∀ j, (t.setWaiter i w).pool j = t.pool j := by
  have hno : ∀ j, grantedFor j w = false := fun j => by simp [grantedFor, hg]
  have hno' : ∀ j, grantedFor j (t.waiters i) = false := fun j => by
    simp [grantedFor, queuedOn, hfree]
  have hpool : ∀ j, (t.setWaiter i w).pool j = t.pool j := fun j => by
    simp [pool, grantedOn_setWaiter hi, mark_false (hno j), mark_false (hno' j)]
  refine ⟨⟨h.nonneg, fun j hj => by rw [hpool]; exact h.pool_le j hj, h.occupied_iff, ?_, ?_, ?_⟩,
    hpool⟩
  · intro k hk hne
    by_cases e : k = i
    · subst e; simpa [hs] using hv
    · simp only [setWaiter_other e] at hne ⊢
      exact h.named k hk hne
  · intro k hk l hl hne heq hpid
    by_cases e : k = i <;> by_cases e' : l = i
    · omega
    · subst e
      simp only [setWaiter_same, setWaiter_other e', hs] at heq hpid
      exact absurd hpid.symm (hnew l hl heq.symm)
    · subst e'
      simp only [setWaiter_same, setWaiter_other e, hs] at heq hpid
      exact absurd hpid (hnew k hk heq)
    · simp only [setWaiter_other e, setWaiter_other e'] at hne heq hpid
      exact h.keyed k hk l hl hne heq hpid
  · intro j hj k hk hgk
    by_cases e : k = i
    · subst e; simp [hno] at hgk
    · simp only [setWaiter_other e] at hgk ⊢
      exact h.owner j hj k hk hgk

/-! ### Enter, try_enter and quit -/

/-- A valid identifier names the semaphore before it. -/
theorem eq_succ_of_not_out (h : ¬ (semId = 0 ∨ semaphoreMax < semId)) : semId = semId - 1 + 1 := by
  omega

/-- The task's own wait slot, if it has one, dropped. -/
def dropMine (u t : Table) (semId : ℕ) (pid : ℤ) : Table :=
  match t.semWaiterFindLocked semId pid with
  | some i => u.semWaiterDelLocked i pid
  | none => u

/-- Everything the first section of an enter can do. -/
inductive Entered (t : Table) (semId : ℕ) (pid : ℤ) : SemRes ⊕ ℕ → Table → Prop where
  | refused : Entered t semId pid (.inl .error) t
  | collected {i : ℕ} : semId = semId - 1 + 1 → t.semWaiterFindLocked semId pid = some i →
      (t.waiters i).granted = true →
      Entered t semId pid (.inl .acquired) (t.semWaiterDelLocked i pid)
  | acquired : semId = semId - 1 + 1 → t.semValidIdx (semId - 1) = true →
      (∀ i, t.semWaiterFindLocked semId pid = some i → (t.waiters i).granted = false) →
      0 < (t.semaphores (semId - 1)).count →
      Entered t semId pid (.inl .acquired)
        (dropMine (t.semTryAcquireLocked (semId - 1) pid).2 t semId pid)
  | reparked {i : ℕ} : semId = semId - 1 + 1 → t.semWaiterFindLocked semId pid = some i →
      (t.waiters i).granted = false → (t.semaphores (semId - 1)).count ≤ 0 →
      Entered t semId pid (.inr i) t
  | full : Entered t semId pid (.inl .occupied) t
  | queued {i : ℕ} : semId = semId - 1 + 1 → t.semValidIdx (semId - 1) = true →
      t.semWaiterFindLocked semId pid = none → (t.semaphores (semId - 1)).count ≤ 0 →
      i < semWaiterMax → (t.waiters i).semId = 0 →
      Entered t semId pid (.inr i) { t.setWaiter i ⟨semId, pid, t.waiterSeq, false⟩ with
        waiterSeq := (t.waiterSeq + 1) % seqMod }

theorem tryAcquire_got : (t.semTryAcquireLocked idx pid).1 = true ↔
    0 < (t.semaphores idx).count := by
  rw [semTryAcquireLocked_eq]
  split
  · simp; omega
  · simp; omega

theorem entered_enterRaw (t : Table) (semId : ℕ) (pid : ℤ) :
    Entered t semId pid (t.semaphoreEnterRaw semId pid).1 (t.semaphoreEnterRaw semId pid).2 := by
  unfold semaphoreEnterRaw
  split
  · exact .refused
  · rename_i hin
    have hid := eq_succ_of_not_out hin
    split
    · exact .refused
    · rename_i hv
      have hv : t.semValidIdx (semId - 1) = true := by simpa using hv
      simp only
      split
      · rename_i i hf
        split
        · rename_i hg; exact .collected hid hf hg
        · rename_i hg
          have hg : (t.waiters i).granted = false := by simpa using hg
          split
          · rename_i hgot
            have : Entered t semId pid _ _ := .acquired hid hv
              (fun k hk => by rw [hf] at hk; cases hk; exact hg) (tryAcquire_got.mp hgot)
            simpa only [dropMine, hf] using this
          · rename_i hgot
            rw [tryAcquire_got] at hgot
            exact .reparked hid hf hg (by omega)
      · rename_i hf
        split
        · rename_i hgot
          have : Entered t semId pid _ _ := .acquired hid hv
            (fun k hk => by rw [hf] at hk; cases hk) (tryAcquire_got.mp hgot)
          simpa only [dropMine, hf] using this
        · rename_i hgot
          rw [tryAcquire_got] at hgot
          rcases semWaiterAddLocked_cases t semId pid with ⟨e, e'⟩ | ⟨i, hi, hfree, e⟩
          · split
            · rename_i e''; rw [e''] at e'; cases e'; exact .full
            · rename_i e''; rw [e''] at e; cases e
          · rw [e]
            exact .queued hid hv hf (by omega) hi hfree

theorem takes_dropMine (h : t.Sound) (hv : t.semValidIdx (semId - 1) = true)
    (hg : ∀ i, t.semWaiterFindLocked semId pid = some i → (t.waiters i).granted = false)
    (hc : 0 < (t.semaphores (semId - 1)).count) :
    Takes (semId - 1) true t (dropMine (t.semTryAcquireLocked (semId - 1) pid).2 t semId pid) := by
  have hacq := takes_tryAcquire h hv pid
  rw [tryAcquire_got.mpr hc] at hacq
  unfold dropMine
  split
  · rename_i i hf
    exact hacq.del (by rw [tryAcquire_waiters]; exact hg i hf)
  · exact hacq

theorem takes_enterRaw (h : t.Sound) (semId : ℕ) (pid : ℤ) :
    Takes (semId - 1) ((t.semaphoreEnterRaw semId pid).1 == .inl .acquired) t
      (t.semaphoreEnterRaw semId pid).2 := by
  generalize hr : (t.semaphoreEnterRaw semId pid).1 = r
  generalize hu : (t.semaphoreEnterRaw semId pid).2 = u
  have he := entered_enterRaw t semId pid
  rw [hr, hu] at he
  cases he with
  | refused => exact takes_nothing h
  | collected hid hf hg =>
    obtain ⟨hlt, hs, rfl⟩ := find_some hf
    exact takes_collect h hlt (hs.trans hid) hg
  | acquired hid hv hg hc => exact takes_dropMine h hv hg hc
  | reparked => exact takes_nothing h
  | full => exact takes_nothing h
  | queued hid hv hf hc hi hfree =>
    have hadd := sound_setWaiter_add (w := ⟨semId, pid, t.waiterSeq, false⟩)
      h hi hfree hid rfl hv fun j hj hs => find_none hf hj (hs.trans hid.symm)
    show Takes (semId - 1) false t _
    exact ⟨sound_seq hadd.1 _, fun j => (hadd.2 j).trans (by simp), fun _ => rfl, fun _ => rfl,
      fun e => by simp at e⟩

/-- Everything a try_enter can do. -/
inductive Tried (t : Table) (semId : ℕ) (pid : ℤ) : SemRes → Table → Prop where
  | refused : Tried t semId pid .error t
  | collected {i : ℕ} : semId = semId - 1 + 1 → t.semWaiterFindLocked semId pid = some i →
      (t.waiters i).granted = true → Tried t semId pid .acquired (t.semWaiterDelLocked i pid)
  | acquired : semId = semId - 1 + 1 → t.semValidIdx (semId - 1) = true →
      (∀ i, t.semWaiterFindLocked semId pid = some i → (t.waiters i).granted = false) →
      0 < (t.semaphores (semId - 1)).count →
      Tried t semId pid .acquired
        ((dropMine t t semId pid).semTryAcquireLocked (semId - 1) pid).2
  | occupied : (∀ i, t.semWaiterFindLocked semId pid = some i → (t.waiters i).granted = false) →
      Tried t semId pid .occupied (dropMine t t semId pid)

theorem dropMine_semaphores (u : Table) : (dropMine u t semId pid).semaphores = u.semaphores := by
  unfold dropMine
  split
  · simp
  · rfl

theorem tried_tryEnter (t : Table) (semId : ℕ) (pid : ℤ) :
    Tried t semId pid (t.semaphoreTryEnter semId pid).1 (t.semaphoreTryEnter semId pid).2 := by
  have hlast : semId = semId - 1 + 1 → t.semValidIdx (semId - 1) = true →
      (∀ i, t.semWaiterFindLocked semId pid = some i → (t.waiters i).granted = false) →
      Tried t semId pid
        (if ((dropMine t t semId pid).semTryAcquireLocked (semId - 1) pid).1 then .acquired
          else .occupied)
        ((dropMine t t semId pid).semTryAcquireLocked (semId - 1) pid).2 := by
    intro hid hv hg
    split
    · rename_i hgot
      rw [tryAcquire_got, dropMine_semaphores] at hgot
      exact .acquired hid hv hg hgot
    · rename_i hgot
      rw [tryAcquire_got] at hgot
      rw [semTryAcquireLocked_eq, if_pos (by omega)]
      exact .occupied hg
  unfold semaphoreTryEnter
  split
  · exact .refused
  · rename_i hin
    have hid := eq_succ_of_not_out hin
    split
    · exact .refused
    · rename_i hv
      have hv : t.semValidIdx (semId - 1) = true := by simpa using hv
      simp only
      split
      · rename_i i hf
        split
        · rename_i hg; exact .collected hid hf hg
        · rename_i hg
          have := hlast hid hv fun k hk => by rw [hf] at hk; cases hk; simpa using hg
          simpa only [dropMine, hf] using this
      · rename_i hf
        have := hlast hid hv fun k hk => by rw [hf] at hk; cases hk
        simpa only [dropMine, hf] using this

theorem takes_tryEnter (h : t.Sound) (semId : ℕ) (pid : ℤ) :
    Takes (semId - 1) ((t.semaphoreTryEnter semId pid).1 == .acquired) t
      (t.semaphoreTryEnter semId pid).2 := by
  generalize hr : (t.semaphoreTryEnter semId pid).1 = r
  generalize hu : (t.semaphoreTryEnter semId pid).2 = u
  have he := tried_tryEnter t semId pid
  rw [hr, hu] at he
  have hdrop : (∀ i, t.semWaiterFindLocked semId pid = some i → (t.waiters i).granted = false) →
      ∀ v, Takes (semId - 1) (r == .acquired) (dropMine t t semId pid) v →
        Takes (semId - 1) (r == .acquired) t v := by
    intro hg v hv
    unfold dropMine at hv
    split at hv
    · rename_i i hf; exact Takes.of_del (hg i hf) hv
    · exact hv
  have hsound : (dropMine t t semId pid).Sound := by
    unfold dropMine
    split
    · exact sound_del h
    · exact h
  cases he with
  | refused => exact takes_nothing h
  | collected hid hf hg =>
    obtain ⟨hlt, hs, rfl⟩ := find_some hf
    exact takes_collect h hlt (hs.trans hid) hg
  | acquired hid hv hg hc =>
    refine hdrop hg _ ?_
    have hacq := takes_tryAcquire hsound
      (show (dropMine t t semId pid).semValidIdx (semId - 1) = true by
        simpa [semValidIdx, dropMine_semaphores] using hv) pid
    rwa [tryAcquire_got.mpr (by rwa [dropMine_semaphores])] at hacq
  | occupied hg => exact hdrop hg _ (takes_nothing hsound)

/-- The second section of a serving enter, when the slot it re-keys is this task's only for the
    semaphore it entered. -/
theorem takes_enterServing (h : t.Sound) (hlt : slot < semWaiterMax) (hid : semId = semId - 1 + 1)
    (hmine : (t.waiters slot).semId ≠ 0 → (t.waiters slot).pid = pid →
      (t.waiters slot).semId = semId) :
    Takes (semId - 1) ((t.semaphoreEnterServing semId slot pid).1 == .acquired) t
      (t.semaphoreEnterServing semId slot pid).2 := by
  unfold semaphoreEnterServing
  simp only
  split
  · rename_i hg
    obtain ⟨hs, rfl, hg⟩ := hg
    exact takes_collect h hlt (hs.trans hid) hg
  · rename_i hg
    rcases semWaiterDelLocked_cases t slot pid with e | ⟨-, hne, hp, -⟩
    · rw [e]; exact takes_nothing h
    · have hu : (t.waiters slot).granted = false := by
        by_contra hgr
        exact hg ⟨hmine hne hp, hp, by simpa using hgr⟩
      exact (takes_nothing h).del hu

/-- One permit of `idx` more in the pool. -/
structure Puts (idx : ℕ) (t u : Table) : Prop where
  sound : u.Sound
  pool : ∀ j, u.pool j = t.pool j + if j = idx then 1 else 0
  creater : ∀ j, (u.semaphores j).createrPid = (t.semaphores j).createrPid
  cap : ∀ j, (u.semaphores j).maxCount = (t.semaphores j).maxCount

theorem Puts.handoff (alive : ℤ → Bool) (h : Puts idx t u) (j : ℕ) :
    Puts idx t (u.semHandoffLocked alive j) := by
  have hh := handed_handoff alive u j
  exact ⟨sound_handoff alive h.sound, fun k => by rw [hh.pool, h.pool], fun k => by rw [hh.createrPid, h.creater],
    fun k => by rw [hh.maxCount, h.cap]⟩

/-- A quit that finds a permit missing from the pool. -/
theorem puts_posted (h : t.Sound) (hv : t.semValidIdx idx = true)
    (hlt : t.pool idx < (t.semaphores idx).maxCount) (pid : ℤ) :
    Puts idx t (t.setSem idx ((t.semaphores idx).posted pid).refresh) := by
  have hn := h.nonneg idx hv
  have hg := t.grantedOn_nonneg idx
  refine ⟨?_, ?_, ?_, ?_⟩
  · refine sound_setSem h rfl rfl ?_ ?_ ?_ ?_
    · intro _; simp; omega
    · intro _; simp only [Table.pool] at hlt; simp; omega
    · intro _
      rw [Sem.refresh_occupied_iff (by simp; omega)]; simp
    · intro hb i hi hgi
      have hb : (t.semaphores idx).maxCount = 1 := by simpa using hb
      have hz : t.grantedOn idx = 0 := by simp only [Table.pool] at hlt; omega
      rw [eq_false_of_tally_eq_zero hz hi] at hgi
      exact absurd hgi (by simp)
  · intro j
    by_cases e : j = idx
    · subst e; simp [Table.pool]; omega
    · simp [Table.pool, e]
  · intro j
    by_cases e : j = idx
    · subst e; simp
    · simp [e]
  · intro j
    by_cases e : j = idx
    · subst e; simp
    · simp [e]

theorem quit_cases (alive : ℤ → Bool) (t : Table) (semId : ℕ) (pid : ℤ) :
    ((t.semaphoreQuit alive semId pid).1 = false ∧ (t.semaphoreQuit alive semId pid).2 = t) ∨
    (semId = semId - 1 + 1 ∧ t.semValidIdx (semId - 1) = true ∧
      (t.semaphores (semId - 1)).count < (t.semaphores (semId - 1)).maxCount ∧
      t.semaphoreQuit alive semId pid =
        (true, (t.setSem (semId - 1) ((t.semaphores (semId - 1)).posted pid).refresh).semHandoffLocked
          alive (semId - 1))) := by
  rw [semaphoreQuit_eq]
  split
  · exact .inl ⟨rfl, rfl⟩
  · rename_i hin
    split
    · exact .inl ⟨rfl, rfl⟩
    · rename_i hok
      push Not at hok
      exact .inr ⟨eq_succ_of_not_out hin, by simpa using hok.1, hok.2, rfl⟩

/-! ### A dead task's permits -/

/-- The first loop of `semaphore_clear_occupied` after the slots below `n`. -/
structure Cleared (pid : ℤ) (n : ℕ) (t u : Table) : Prop where
  creater : ∀ j, (u.semaphores j).createrPid = (t.semaphores j).createrPid
  cap : ∀ j, (u.semaphores j).maxCount = (t.semaphores j).maxCount
  gone : ∀ k < n, (u.waiters k).semId ≠ 0 → (u.waiters k).pid ≠ pid
  thin : Thin t u

theorem clearWaiterStep_eq (alive : ℤ → Bool) : clearWaiterStep alive pid t i =
    if (t.waiters i).semId = 0 ∨ (t.waiters i).pid ≠ pid then t
    else if (t.waiters i).granted = false ∨ t.semValidIdx ((t.waiters i).semId - 1) = false then
      t.semWaiterDelLocked i pid
    else
      ((t.semWaiterDelLocked i pid).setSem ((t.waiters i).semId - 1)
        ((t.semaphores ((t.waiters i).semId - 1)).givenBack pid).refresh).semHandoffLocked alive
        ((t.waiters i).semId - 1) := by
  have hrec : ∀ s : Sem,
      (if (if s.count < s.maxCount then { s with count := s.count + 1 } else s).occupiedPid = pid
        then { (if s.count < s.maxCount then { s with count := s.count + 1 } else s) with
          occupiedPid := -1 }
        else (if s.count < s.maxCount then { s with count := s.count + 1 } else s))
      = s.givenBack pid := by
    intro s
    by_cases h1 : s.count < s.maxCount <;> by_cases h2 : s.occupiedPid = pid <;>
      simp [Sem.givenBack, h1, h2]
  simp only [clearWaiterStep, semRefreshOccupied_setSem, semWaiterDelLocked_semaphores,
    semValidIdx_del, hrec]

/-- A granted slot given back: the permit moves from the slot to the count. -/
theorem giveBack (h : t.Sound) (hlt : slot < semWaiterMax)
    (hw : (t.waiters slot).semId = idx + 1) (hg : (t.waiters slot).granted = true) :
    ((t.semWaiterDelLocked slot (t.waiters slot).pid).setSem idx
      ((t.semaphores idx).givenBack (t.waiters slot).pid).refresh).Sound ∧
    ∀ j, ((t.semWaiterDelLocked slot (t.waiters slot).pid).setSem idx
      ((t.semaphores idx).givenBack (t.waiters slot).pid).refresh).pool j = t.pool j := by
  have hc := takes_collect h hlt hw hg
  obtain ⟨hv, -⟩ := hc.live rfl
  have hp := h.pool_le idx hv
  have hn := h.nonneg idx hv
  have hpos : 0 < t.grantedOn idx := tally_pos hlt (grantedFor_iff.mpr ⟨hw, hg⟩)
  have hgo : (t.semWaiterDelLocked slot (t.waiters slot).pid).grantedOn idx = t.grantedOn idx - 1 := by
    have := hc.pool idx
    simp only [pool, semWaiterDelLocked_semaphores] at this
    simp at this
    omega
  -- a granted permit is missing from the count, so the ceiling does not bite
  have hroom : (t.semaphores idx).count < (t.semaphores idx).maxCount := by
    simp only [pool] at hp; omega
  have hcount : ((t.semaphores idx).givenBack (t.waiters slot).pid).count
      = (t.semaphores idx).count + 1 := by simp [Sem.givenBack, hroom]
  constructor
  · refine sound_setSem hc.sound (by simp) (by simp) ?_ ?_ ?_ ?_
    · intro _; simp [hcount]; omega
    · intro _; simp only [pool] at hp; simp [hcount, hgo]; omega
    · intro _
      rw [Sem.refresh_occupied_iff (by rw [hcount]; omega)]; simp
    · intro hb k hk hgk
      have hb : (t.semaphores idx).maxCount = 1 := by simpa using hb
      have hz : (t.semWaiterDelLocked slot (t.waiters slot).pid).grantedOn idx = 0 := by
        rw [hgo]; simp only [pool] at hp; omega
      rw [eq_false_of_tally_eq_zero hz hk] at hgk
      exact absurd hgk (by simp)
  · intro j
    have hpj := hc.pool j
    by_cases e : j = idx
    · subst e
      simp only [pool, setSem_same, grantedOn_setSem, Sem.refresh_count, hcount, hgo]; omega
    · simp only [e, and_false, if_false] at hpj
      simp only [pool, setSem_other e, grantedOn_setSem, semWaiterDelLocked_semaphores] at hpj ⊢
      simpa using hpj

theorem thin_clearWaiterStep (alive : ℤ → Bool) (pid : ℤ) (t : Table) (i : ℕ) :
    Thin t (clearWaiterStep alive pid t i) := by
  rw [clearWaiterStep_eq]
  split
  · exact thin_of_eq rfl
  · split
    · exact thin_del _ _ _
    · exact (thin_del t i pid).trans ((thin_of_eq rfl).trans (handed_handoff alive _ _).thin)

theorem cleared_step (alive : ℤ → Bool) {n : ℕ} (hn : n < semWaiterMax) (h : Cleared pid n t u) :
    Cleared pid (n + 1) t (clearWaiterStep alive pid u n) := by
  have hthin := thin_clearWaiterStep alive pid u n
  -- the slot of this turn ends free or another task's, the earlier ones stay that way
  have hgone : ∀ k < n + 1, ((clearWaiterStep alive pid u n).waiters k).semId ≠ 0 →
      ((clearWaiterStep alive pid u n).waiters k).pid ≠ pid := by
    intro k hk hne
    obtain ⟨hs, hp, -⟩ := hthin.occupied hne
    rw [hp]
    rw [hs] at hne
    rcases Nat.lt_succ_iff_lt_or_eq.mp hk with hlt | rfl
    · exact h.gone k hlt hne
    · intro hmine
      have hfree : ((u.semWaiterDelLocked k pid).waiters k).semId = 0 := by
        rw [semWaiterDelLocked_eq hn hne hmine]; simp
      rw [clearWaiterStep_eq, if_neg (by push Not; exact ⟨hne, hmine⟩)] at hs
      split at hs
      · omega
      · have hh := (handed_handoff alive ((u.semWaiterDelLocked k pid).setSem _ _)
          ((u.waiters k).semId - 1)).thin.occupied (by rw [hs]; exact hne)
        rw [hs, setSem_waiters, hfree] at hh
        exact hne hh.1
  refine ⟨?_, ?_, hgone, h.thin.trans hthin⟩
  · intro j
    rw [← h.creater, clearWaiterStep_eq]
    split
    · rfl
    · split
      · simp
      · rw [(handed_handoff alive _ _).createrPid]
        by_cases e : j = (u.waiters n).semId - 1
        · subst e; simp
        · simp [e]
  · intro j
    rw [← h.cap, clearWaiterStep_eq]
    split
    · rfl
    · split
      · simp
      · rw [(handed_handoff alive _ _).maxCount]
        by_cases e : j = (u.waiters n).semId - 1
        · subst e; simp
        · simp [e]

theorem cleared_range (alive : ℤ → Bool) (pid : ℤ) (t : Table) : ∀ n ≤ semWaiterMax,
    Cleared pid n t ((List.range n).foldl (clearWaiterStep alive pid) t)
  | 0, _ => ⟨fun _ => rfl, fun _ => rfl, fun k hk => absurd hk (by omega), thin_of_eq rfl⟩
  | n + 1, hn => by
    rw [List.range_succ, List.foldl_append]
    exact cleared_step alive (by omega) (cleared_range alive pid t n (by omega))

theorem cleared_clearWaiters (alive : ℤ → Bool) (pid : ℤ) (t : Table) :
    Cleared pid semWaiterMax t (t.clearWaiters alive pid) :=
  cleared_range alive pid t semWaiterMax (le_refl _)

theorem sound_clearWaiterStep (pid : ℤ) (alive : ℤ → Bool) (h : t.Sound) (hi : i < semWaiterMax) :
    (clearWaiterStep alive pid t i).Sound ∧
    ∀ j, (clearWaiterStep alive pid t i).pool j = t.pool j := by
  rw [clearWaiterStep_eq]
  split
  · exact ⟨h, fun _ => rfl⟩
  · rename_i hmine
    push Not at hmine
    obtain ⟨hne, rfl⟩ := hmine
    split
    · rename_i hcase
      have hun : (t.waiters i).granted = false := by
        rcases hcase with hu | hinv
        · exact hu
        · rw [h.named i hi hne] at hinv
          exact absurd hinv (by simp)
      exact ⟨sound_del h, fun j => pool_del_ungranted hun j⟩
    · rename_i hcase
      push Not at hcase
      have hb := giveBack h hi (show _ = (t.waiters i).semId - 1 + 1 by omega) (by simpa using hcase.1)
      exact ⟨sound_handoff alive hb.1, fun j => by rw [(handed_handoff alive _ _).pool, hb.2]⟩

theorem sound_clearWaiters (alive : ℤ → Bool) (pid : ℤ) (h : t.Sound) :
    (t.clearWaiters alive pid).Sound ∧ ∀ j, (t.clearWaiters alive pid).pool j = t.pool j := by
  unfold clearWaiters
  refine List.foldlRecOn (motive := fun u : Table => u.Sound ∧ ∀ j, u.pool j = t.pool j) _ _
    ⟨h, fun _ => rfl⟩ ?_
  intro u hu i hi
  obtain ⟨hs, hp⟩ := sound_clearWaiterStep pid alive hu.1 (List.mem_range.mp hi)
  exact ⟨hs, fun j => by rw [hp, hu.2]⟩

/-- The second loop of `semaphore_clear_occupied` after the semaphores below `n`. -/
structure Recovered (pid : ℤ) (n : ℕ) (t u : Table) : Prop where
  sound : u.Sound
  pool : ∀ j, u.pool j = t.pool j + if j < n ∧ t.heldBy pid j = true then 1 else 0
  creater : ∀ j, (u.semaphores j).createrPid = (t.semaphores j).createrPid
  cap : ∀ j, (u.semaphores j).maxCount = (t.semaphores j).maxCount
  ahead : ∀ j, n ≤ j → u.semaphores j = t.semaphores j
  thin : Thin t u

theorem heldBy_iff : t.heldBy pid idx = true ↔ t.semValidIdx idx = true ∧
    (t.semaphores idx).maxCount = 1 ∧ (t.semaphores idx).occupied = .occupied ∧
    (t.semaphores idx).occupiedPid = pid := by
  simp [heldBy, semIsBinary, and_assoc]

/-- A lock recorded as the dead task's has neither a free nor a granted permit. -/
theorem pool_of_heldBy (h : t.Sound) (hheld : t.heldBy pid idx = true)
    (hgone : ∀ k < semWaiterMax, (t.waiters k).semId ≠ 0 → (t.waiters k).pid ≠ pid) :
    t.grantedOn idx = 0 ∧ (t.semaphores idx).count = 0 := by
  obtain ⟨hv, hb, hocc, hpid⟩ := heldBy_iff.mp hheld
  refine ⟨tally_eq_zero ?_, (h.occupied_iff idx hv).mp hocc⟩
  intro k hk
  by_contra hg
  have hg : grantedFor idx (t.waiters k) = true := by simpa using hg
  have hs := (grantedFor_iff.mp hg).1
  exact hgone k hk (by omega) ((h.owner idx hb k hk hg).symm.trans hpid)

theorem clearHeldStep_eq (alive : ℤ → Bool) : clearHeldStep alive pid t i =
    if t.heldBy pid i = false then t
    else (t.setSem i (t.semaphores i).recovered).semHandoffLocked alive i := rfl

theorem recovered_step (alive : ℤ → Bool) {n : ℕ}
    (hgone : ∀ k < semWaiterMax, (t.waiters k).semId ≠ 0 → (t.waiters k).pid ≠ pid)
    (h : Recovered pid n t u) : Recovered pid (n + 1) t (clearHeldStep alive pid u n) := by
  have hsame : u.heldBy pid n = t.heldBy pid n := by
    simp [heldBy, semValidIdx, semIsBinary, h.ahead n (le_refl n)]
  rw [clearHeldStep_eq]
  split
  · rename_i hno
    rw [hsame] at hno
    refine { h with pool := ?_, ahead := fun j hj => h.ahead j (by omega) }
    intro j
    rw [h.pool]
    congr 1
    by_cases e : j = n
    · subst e; simp [hno]
    · simp only [show j < n + 1 ↔ j < n by omega]
  · rename_i hyes
    have hheld : u.heldBy pid n = true := by simpa using hyes
    have hgone' : ∀ k < semWaiterMax, (u.waiters k).semId ≠ 0 → (u.waiters k).pid ≠ pid := by
      intro k hk h0
      obtain ⟨hs, hp, -⟩ := h.thin.occupied h0
      rw [hp]
      exact hgone k hk (by rwa [← hs])
    obtain ⟨hz, hc⟩ := pool_of_heldBy h.sound hheld hgone'
    obtain ⟨hv, hb, -, -⟩ := heldBy_iff.mp hheld
    have hs : (u.setSem n (u.semaphores n).recovered).Sound := by
      refine sound_setSem h.sound rfl rfl ?_ ?_ ?_ ?_
      · intro _; simp [Sem.recovered, hb]
      · intro _; simp [Sem.recovered, hb, hz]
      · intro _; simp [Sem.recovered, hb]
      · intro _ k hk hg
        rw [eq_false_of_tally_eq_zero hz hk] at hg
        exact absurd hg (by simp)
    have hh := handed_handoff alive (u.setSem n (u.semaphores n).recovered) n
    refine ⟨sound_handoff alive hs, ?_, ?_, ?_, ?_, ?_⟩
    · intro j
      have hp := h.pool j
      rw [hh.pool]
      by_cases e : j = n
      · subst e
        simp only [Table.pool, setSem_same, grantedOn_setSem, hz, hc, Sem.recovered, hb] at hp ⊢
        rw [← hsame, hheld] at *
        simp at hp ⊢
        omega
      · simp only [Table.pool, setSem_other e, grantedOn_setSem] at hp ⊢
        simp only [show j < n + 1 ↔ j < n by omega]
        exact hp
    · intro j
      rw [hh.createrPid, ← h.creater]
      by_cases e : j = n
      · subst e; simp [Sem.recovered]
      · simp [e]
    · intro j
      rw [hh.maxCount, ← h.cap]
      by_cases e : j = n
      · subst e; simp [Sem.recovered]
      · simp [e]
    · intro j hj
      rw [hh.sems j (by omega), setSem_other (by omega)]
      exact h.ahead j (by omega)
    · exact (h.thin.trans (thin_of_eq rfl)).trans hh.thin

theorem recovered_range (alive : ℤ → Bool) (h : t.Sound)
    (hgone : ∀ k < semWaiterMax, (t.waiters k).semId ≠ 0 → (t.waiters k).pid ≠ pid) : ∀ n,
    Recovered pid n t ((List.range n).foldl (clearHeldStep alive pid) t)
  | 0 => ⟨h, fun _ => by simp, fun _ => rfl, fun _ => rfl, fun _ _ => rfl, thin_of_eq rfl⟩
  | n + 1 => by
    rw [List.range_succ, List.foldl_append]
    exact recovered_step alive hgone (recovered_range alive h hgone n)

/-- `semaphore_clear_occupied`: the pool gains exactly the locks the dead task held. -/
theorem recovered_clearOccupied (alive : ℤ → Bool) (pid : ℤ) (h : t.Sound) :
    Recovered pid semaphoreMax (t.clearWaiters alive pid) (t.semaphoreClearOccupied alive pid) :=
  recovered_range alive (sound_clearWaiters alive pid h).1 (cleared_clearWaiters alive pid t).gone
    semaphoreMax

/-! ### Teardown and allocation -/

/-- Replacing the record of a semaphore nobody queues on. -/
theorem sound_newSem (h : t.Sound) {s : Sem}
    (hno : ∀ k < semWaiterMax, (t.waiters k).semId ≠ idx + 1)
    (hs : s.createrPid ≠ -1 → 0 ≤ s.count ∧ s.count ≤ s.maxCount ∧
      (s.occupied = .occupied ↔ s.count = 0)) : (t.setSem idx s).Sound := by
  have hz : ∀ k < semWaiterMax, grantedFor idx (t.waiters k) = false := by
    intro k hk
    by_contra hg
    exact hno k hk (grantedFor_iff.mp (by simpa using hg)).1
  have hother : ∀ j, j ≠ idx → (t.setSem idx s).semValidIdx j = t.semValidIdx j := by
    intro j hj; simp [semValidIdx, hj]
  have hlive : (t.setSem idx s).semValidIdx idx = true → s.createrPid ≠ -1 := by
    intro hv; simpa using (semValidIdx_iff.mp hv).2
  refine ⟨?_, ?_, ?_, ?_, h.keyed, ?_⟩
  · intro j hj
    by_cases e : j = idx
    · subst e; simpa using (hs (hlive hj)).1
    · rw [hother j e] at hj; simpa [e] using h.nonneg j hj
  · intro j hj
    by_cases e : j = idx
    · subst e
      have hg : t.grantedOn j = 0 := tally_eq_zero hz
      simpa [pool, hg] using (hs (hlive hj)).2.1
    · rw [hother j e] at hj; simpa [e, pool] using h.pool_le j hj
  · intro j hj
    by_cases e : j = idx
    · subst e; simpa using (hs (hlive hj)).2.2
    · rw [hother j e] at hj; simpa [e] using h.occupied_iff j hj
  · intro k hk hne
    have hk' := hno k hk
    simp only [setSem_waiters] at hne ⊢
    rw [hother _ (by omega)]
    exact h.named k hk hne
  · intro j hj k hk hg
    by_cases e : j = idx
    · subst e; rw [setSem_waiters, hz k hk] at hg; exact absurd hg (by simp)
    · rw [setSem_other e] at hj ⊢
      exact h.owner j hj k hk hg

/-- Some semaphores reset together with their queues, the others untouched. -/
structure Torn (t u : Table) : Prop where
  sems : ∀ j, u.semaphores j = .free ∨ (u.semaphores j = t.semaphores j ∧ u.pool j = t.pool j)
  slots : ∀ k, (u.waiters k).semId = 0 ∨ u.waiters k = t.waiters k
  kept : ∀ k < semWaiterMax, (u.waiters k).semId ≠ 0 →
    u.semaphores ((u.waiters k).semId - 1) = t.semaphores ((u.waiters k).semId - 1)

theorem torn_refl (t : Table) : Torn t t :=
  ⟨fun _ => .inr ⟨rfl, rfl⟩, fun _ => .inr rfl, fun _ _ _ => rfl⟩

theorem Torn.trans {v : Table} (h₁ : Torn t u) (h₂ : Torn u v) : Torn t v := by
  refine ⟨?_, ?_, ?_⟩
  · intro j
    rcases h₂.sems j with e | ⟨e, hp⟩
    · exact .inl e
    · rw [e, hp]; exact h₁.sems j
  · intro k
    rcases h₂.slots k with e | e
    · exact .inl e
    · rw [e]; exact h₁.slots k
  · intro k hk hne
    have e := (h₂.slots k).resolve_left hne
    rw [h₂.kept k hk hne, e]
    exact h₁.kept k hk (by rwa [← e])

theorem Torn.thin (h : Torn t u) : Thin t u := by
  intro k
  rcases h.slots k with e | e
  · exact .inl e
  · exact .inr (.inl e)

theorem Torn.same (h : Torn t u) (hv : u.semValidIdx idx = true) :
    u.semaphores idx = t.semaphores idx ∧ u.pool idx = t.pool idx := by
  rcases h.sems idx with e | e
  · exact absurd (by rw [e]; rfl) (semValidIdx_iff.mp hv).2
  · exact e

theorem sound_torn (h : t.Sound) (ht : Torn t u) : u.Sound := by
  have hvalid : ∀ j, u.semValidIdx j = true → t.semValidIdx j = true := by
    intro j hj; simpa [semValidIdx, (ht.same hj).1] using hj
  refine ⟨?_, ?_, ?_, ?_, ?_, ?_⟩
  · intro j hj; rw [(ht.same hj).1]; exact h.nonneg j (hvalid j hj)
  · intro j hj; rw [(ht.same hj).1, (ht.same hj).2]; exact h.pool_le j (hvalid j hj)
  · intro j hj; rw [(ht.same hj).1]; exact h.occupied_iff j (hvalid j hj)
  · intro k hk hne
    have e := (ht.slots k).resolve_left hne
    have hn := h.named k hk (by rwa [← e])
    rw [← e] at hn
    simpa [semValidIdx, ht.kept k hk hne] using hn
  · intro k hk l hl hne heq hpid
    have e := (ht.slots k).resolve_left hne
    have e' := (ht.slots l).resolve_left (by rwa [← heq])
    rw [e] at hne heq hpid
    rw [e'] at heq hpid
    exact h.keyed k hk l hl hne heq hpid
  · intro j hj k hk hg
    have hs := (grantedFor_iff.mp hg).1
    have hne : (u.waiters k).semId ≠ 0 := by omega
    have hkept := ht.kept k hk hne
    rw [hs] at hkept
    have e := (ht.slots k).resolve_left hne
    simp only [Nat.add_sub_cancel] at hkept
    rw [hkept] at hj ⊢
    rw [e] at hg ⊢
    exact h.owner j hj k hk hg

/-- The purge of `idx` after the slots below `n`. -/
structure Purged (idx n : ℕ) (t u : Table) : Prop where
  sems : u.semaphores = t.semaphores
  pool : ∀ j ≠ idx, u.pool j = t.pool j
  slots : ∀ k, (u.waiters k).semId = 0 ∨ u.waiters k = t.waiters k
  others : ∀ k, (t.waiters k).semId ≠ idx + 1 → u.waiters k = t.waiters k
  gone : ∀ k < n, (u.waiters k).semId ≠ idx + 1

theorem pool_del_other (hw : (t.waiters slot).semId = idx + 1) {j : ℕ} (hj : j ≠ idx) :
    (t.semWaiterDelLocked slot pid).pool j = t.pool j := by
  rcases semWaiterDelLocked_cases t slot pid with e | ⟨hlt, -, -, e⟩ <;> rw [e]
  simp only [pool, setWaiter_semaphores, grantedOn_setWaiter hlt]
  rw [mark_false (grantedFor_other hw hj), mark_false (Waiter.grantedFor_freed j _)]
  omega

theorem purgeStep_cases (alive : ℤ → Bool) (idx : ℕ) (t : Table) (i : ℕ) :
    ((t.waiters i).semId ≠ idx + 1 ∧ purgeStep alive idx t i = t) ∨
    ((t.waiters i).semId = idx + 1 ∧ ∃ ws, purgeStep alive idx t i =
      { t.semWaiterDelLocked i (t.waiters i).pid with wakes := ws }) := by
  unfold purgeStep
  simp only
  split
  · rename_i h; exact .inl ⟨h, rfl⟩
  · rename_i h
    push Not at h
    refine .inr ⟨h, ?_⟩
    split
    · exact ⟨_, rfl⟩
    · exact ⟨(t.semWaiterDelLocked i (t.waiters i).pid).wakes, rfl⟩

theorem purged_step (alive : ℤ → Bool) {n : ℕ} (hn : n < semWaiterMax) (h : Purged idx n t u) :
    Purged idx (n + 1) t (purgeStep alive idx u n) := by
  rcases purgeStep_cases alive idx u n with ⟨hne, e⟩ | ⟨hw, ws, e⟩ <;> rw [e]
  · refine { h with gone := ?_ }
    intro k hk
    rcases Nat.lt_succ_iff_lt_or_eq.mp hk with hlt | rfl
    · exact h.gone k hlt
    · exact hne
  · have hslot : ∀ k, k ≠ n →
        (u.semWaiterDelLocked n (u.waiters n).pid).waiters k = u.waiters k := by
      intro k hk
      rcases semWaiterDelLocked_slot u n (u.waiters n).pid k with e | ⟨e, -⟩
      · exact e
      · exact absurd e hk
    have hself : ((u.semWaiterDelLocked n (u.waiters n).pid).waiters n).semId = 0 := by
      rw [semWaiterDelLocked_eq hn (by omega) rfl]; simp
    refine ⟨?_, ?_, ?_, ?_, ?_⟩
    · simp [h.sems]
    · intro j hj
      exact (pool_del_other hw hj).trans (h.pool j hj)
    · intro k
      by_cases e : k = n
      · subst e; exact .inl hself
      · rw [show ({ u.semWaiterDelLocked n (u.waiters n).pid with wakes := ws } : Table).waiters k
          = u.waiters k from hslot k e]
        exact h.slots k
    · intro k hk
      have hkn : k ≠ n := by
        rintro rfl
        rw [h.others k hk] at hw
        exact hk hw
      exact (hslot k hkn).trans (h.others k hk)
    · intro k hk
      by_cases e : k = n
      · subst e
        exact fun hbad => absurd (hself.symm.trans hbad) (by omega)
      · exact fun hbad => h.gone k (by omega) ((congrArg _ (hslot k e)).symm.trans hbad)

theorem purged_range (alive : ℤ → Bool) (idx : ℕ) (t : Table) : ∀ n ≤ semWaiterMax,
    Purged idx n t ((List.range n).foldl (purgeStep alive idx) t)
  | 0, _ => ⟨rfl, fun _ _ => rfl, fun _ => .inr rfl, fun _ _ => rfl,
      fun k hk => absurd hk (by omega)⟩
  | n + 1, hn => by
    rw [List.range_succ, List.foldl_append]
    exact purged_step alive (by omega) (purged_range alive idx t n (by omega))

theorem torn_reset (alive : ℤ → Bool) (t : Table) (idx : ℕ) :
    Torn t (t.semResetLocked alive idx) := by
  have hp : Purged idx semWaiterMax t (t.semWaiterPurgeLocked alive idx) :=
    purged_range alive idx t semWaiterMax (le_refl _)
  unfold semResetLocked
  generalize t.semWaiterPurgeLocked alive idx = u at hp
  refine ⟨?_, hp.slots, ?_⟩
  · intro j
    by_cases e : j = idx
    · subst e; exact .inl (by simp)
    · refine .inr ⟨?_, ?_⟩
      · rw [setSem_other e, hp.sems]
      · rw [← hp.pool j e]
        simp [Table.pool, e]
  · intro k hk hne
    have hgone := hp.gone k hk
    rw [setSem_waiters] at hne ⊢
    rw [setSem_other (by omega), hp.sems]

theorem torn_clear (alive : ℤ → Bool) (t : Table) (pid : ℤ) :
    Torn t (t.semaphoreClear alive pid) := by
  unfold semaphoreClear
  refine List.foldlRecOn (motive := Torn t) _ _ (torn_refl t) ?_
  intro u hu i _
  split
  · exact hu.trans (torn_reset alive u i)
  · exact hu

theorem torn_free (alive : ℤ → Bool) (t : Table) (pid : ℤ) (semId : ℕ) :
    Torn t (t.semaphoreFree alive pid semId) := by
  unfold semaphoreFree
  split
  · exact torn_refl t
  · split
    · exact torn_reset alive t _
    · exact torn_refl t

theorem alloc_cases (t : Table) (pid count maxCount : ℤ) :
    t.semAllocRaw pid count maxCount = (0, t) ∨
    ∃ i < semaphoreMax, (t.semaphores i).createrPid = -1 ∧ ∃ occ,
      t.semAllocRaw pid count maxCount =
        (i + 1, t.setSem i (Sem.refresh ⟨pid, -1, occ, max count 0, maxCount⟩)) := by
  unfold semAllocRaw
  simp only
  split
  · exact .inl rfl
  · rename_i i hi
    refine .inr ⟨i, List.mem_range.mp (List.mem_of_find?_eq_some hi),
      by simpa using List.find?_some hi, (t.semaphores i).occupied, ?_⟩
    rw [semRefreshOccupied_setSem]
    have hmax : (if count < 0 then 0 else count) = max count 0 := by split <;> omega
    rw [hmax]

theorem sound_alloc (pid : ℤ) (occ : Occupancy) (h : t.Sound)
    (hi : (t.semaphores i).createrPid = -1) {count maxCount : ℤ} (h0 : 0 ≤ count) (h1 : count ≤ maxCount) :
    (t.setSem i (Sem.refresh ⟨pid, -1, occ, count, maxCount⟩)).Sound ∧
    (t.setSem i (Sem.refresh ⟨pid, -1, occ, count, maxCount⟩)).pool i = count := by
  have hno : ∀ k < semWaiterMax, (t.waiters k).semId ≠ i + 1 := by
    intro k hk hbad
    have hv := h.named k hk (by omega)
    rw [hbad] at hv
    exact (semValidIdx_iff.mp hv).2 hi
  refine ⟨sound_newSem h hno fun _ => ⟨h0, h1, Sem.refresh_occupied_iff h0⟩, ?_⟩
  have hz : t.grantedOn i = 0 := tally_eq_zero fun k hk => by
    by_contra hg
    exact hno k hk (grantedFor_iff.mp (by simpa using hg)).1
  simp [pool, hz]

/-! ### Calls that queue nobody -/

theorem thin_alloc (t : Table) (owner count maxCount : ℤ) :
    Thin t (t.semAllocRaw owner count maxCount).2 := by
  rcases alloc_cases t owner count maxCount with e | ⟨i, -, -, occ, e⟩ <;> rw [e]
  · exact thin_of_eq rfl
  · exact thin_of_eq rfl

theorem thin_quit (alive : ℤ → Bool) (t : Table) (semId : ℕ) (pid : ℤ) :
    Thin t (t.semaphoreQuit alive semId pid).2 := by
  rcases quit_cases alive t semId pid with ⟨-, e⟩ | ⟨-, -, -, e⟩ <;> rw [e]
  · exact thin_of_eq rfl
  · exact (thin_of_eq rfl).trans (handed_handoff alive _ _).thin

theorem thin_clearHeld (alive : ℤ → Bool) (pid : ℤ) (t : Table) :
    Thin t (t.clearHeld alive pid) := by
  unfold clearHeld
  refine List.foldlRecOn (motive := Thin t) _ _ (thin_of_eq rfl) ?_
  intro u hu i _
  rw [clearHeldStep_eq]
  split
  · exact hu
  · exact hu.trans ((thin_of_eq rfl).trans (handed_handoff alive _ _).thin)

theorem thin_clearOccupied (alive : ℤ → Bool) (pid : ℤ) (t : Table) :
    Thin t (t.semaphoreClearOccupied alive pid) :=
  (cleared_clearWaiters alive pid t).thin.trans (thin_clearHeld alive pid _)

end Table

end EwokOS.Kernel.Semaphore
