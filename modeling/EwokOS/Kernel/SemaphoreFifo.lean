import EwokOS.Kernel.SemaphoreRun

/-! The order in which waiters are served.

    `arrival` numbers the wait slots in the order they were created, without a bound; the code orders
    them by a 32-bit `seq` and a plain less-than. As long as the counter is ahead of every waiter of
    a semaphore when one more queues on it, the two orders agree on the live waiters of a semaphore,
    and everything else follows from `Queue`: a free permit means nobody waits, and a granted slot is
    older than every slot still waiting. -/

namespace EwokOS.Kernel.Semaphore
open EwokOS.Schemes

/-- Slot `j` holds a live task still waiting for a permit of semaphore `idx`. -/
def Machine.Waiting (s : Machine) (idx j : ℕ) : Prop :=
  j < semWaiterMax ∧ s.tab.waitsOn idx j ∧ s.alive (s.tab.waiters j).pid = true

/-- Slot `i` holds a permit of semaphore `idx` that its task has not collected. -/
def Machine.Granted (s : Machine) (idx i : ℕ) : Prop :=
  i < semWaiterMax ∧ grantedFor idx (s.tab.waiters i) = true

/-- The order of one table: what the wait slots keep between critical sections. -/
structure Queue (alive : ℤ → Bool) (arrival : ℕ → ℕ) (t : Table) : Prop where
  named : ∀ i < semWaiterMax, (t.waiters i).semId ≠ 0 →
    t.semValidIdx ((t.waiters i).semId - 1) = true
  spare : ∀ idx, t.semValidIdx idx = true → 0 < (t.semaphores idx).count →
    ∀ j < semWaiterMax, t.waitsOn idx j → alive (t.waiters j).pid = false
  inSeq : ∀ idx, ∀ i < semWaiterMax, ∀ j < semWaiterMax, t.waitsOn idx i →
    alive (t.waiters i).pid = true → t.waitsOn idx j → alive (t.waiters j).pid = true →
    arrival i < arrival j → (t.waiters i).seq < (t.waiters j).seq
  served : ∀ idx, ∀ i < semWaiterMax, ∀ j < semWaiterMax, grantedFor idx (t.waiters i) = true →
    t.waitsOn idx j → alive (t.waiters j).pid = true → arrival i < arrival j
  distinct : ∀ i < semWaiterMax, ∀ j < semWaiterMax, (t.waiters i).semId ≠ 0 →
    (t.waiters j).semId ≠ 0 → arrival i = arrival j → i = j
  keyed : ∀ i < semWaiterMax, ∀ j < semWaiterMax, (t.waiters i).semId ≠ 0 →
    (t.waiters i).semId = (t.waiters j).semId → (t.waiters i).pid = (t.waiters j).pid → i = j

section Tables
variable {alive : ℤ → Bool} {arrival : ℕ → ℕ} {t u : Table} {idx : ℕ} {pid : ℤ}

theorem ne_zero_of_waitsOn {j : ℕ} (h : t.waitsOn idx j) : (t.waiters j).semId ≠ 0 := by
  rw [h.1]; omega

theorem ne_zero_of_granted {w : Waiter} (h : grantedFor idx w = true) : w.semId ≠ 0 := by
  rw [(Table.grantedFor_iff.mp h).1]; omega

/-- Slots given up, permits gone or semaphores torn down together with their slots: nothing here
    disturbs the order. -/
theorem queue_fewer (h : Queue alive arrival t)
    (hs : ∀ k, (u.waiters k).semId = 0 ∨ u.waiters k = t.waiters k)
    (hv : ∀ j, u.semValidIdx j = true → t.semValidIdx j = true ∧
      (u.semaphores j).count ≤ (t.semaphores j).count)
    (hn : ∀ k < semWaiterMax, (u.waiters k).semId ≠ 0 →
      t.semValidIdx ((u.waiters k).semId - 1) = true →
      u.semValidIdx ((u.waiters k).semId - 1) = true) : Queue alive arrival u := by
  have hsame : ∀ {k}, (u.waiters k).semId ≠ 0 → u.waiters k = t.waiters k :=
    fun hne => (hs _).resolve_left hne
  have hw : ∀ {idx j}, u.waitsOn idx j → u.waiters j = t.waiters j ∧ t.waitsOn idx j := by
    intro idx j hj
    have e := hsame (ne_zero_of_waitsOn hj)
    exact ⟨e, by simpa [Table.waitsOn, e] using hj⟩
  refine ⟨?_, ?_, ?_, ?_, ?_, ?_⟩
  · intro k hk hne
    have e := hsame hne
    refine hn k hk hne ?_
    rw [e] at hne ⊢
    exact h.named k hk hne
  · intro idx hj hc j hjlt hjw
    obtain ⟨hvt, hle⟩ := hv idx hj
    obtain ⟨e, hjw⟩ := hw hjw
    rw [e]
    exact h.spare idx hvt (by omega) j hjlt hjw
  · intro idx i hi j hj hiw hia hjw hja hlt
    obtain ⟨e, hiw⟩ := hw hiw
    obtain ⟨e', hjw⟩ := hw hjw
    rw [e] at hia
    rw [e'] at hja
    rw [e, e']
    exact h.inSeq idx i hi j hj hiw hia hjw hja hlt
  · intro idx i hi j hj hg hjw hja
    obtain ⟨e', hjw⟩ := hw hjw
    rw [hsame (ne_zero_of_granted hg)] at hg
    rw [e'] at hja
    exact h.served idx i hi j hj hg hjw hja
  · intro i hi j hj hni hnj harr
    have e := hsame hni
    have e' := hsame hnj
    rw [e] at hni
    rw [e'] at hnj
    exact h.distinct i hi j hj hni hnj harr
  · intro i hi j hj hne heq hpid
    have e := hsame hne
    have e' := hsame (k := j) (by rwa [← heq])
    rw [e] at hne heq hpid
    rw [e'] at heq hpid
    exact h.keyed i hi j hj hne heq hpid

theorem queue_del (h : Queue alive arrival t) (slot : ℕ) (pid : ℤ) :
    Queue alive arrival (t.semWaiterDelLocked slot pid) := by
  refine queue_fewer h ?_ (fun j hj => ⟨by simpa using hj, by simp⟩) (fun k _ _ hv => by simpa using hv)
  intro k
  rcases Table.semWaiterDelLocked_slot t slot pid k with e | ⟨-, -, e⟩
  · exact .inr e
  · exact .inl e

theorem queue_tryAcquire (h : Queue alive arrival t) (idx : ℕ) (pid : ℤ) :
    Queue alive arrival (t.semTryAcquireLocked idx pid).2 := by
  rw [Table.semTryAcquireLocked_eq]
  split
  · exact h
  · have hvalid : ∀ j, (t.setSem idx ((t.semaphores idx).taken pid).refresh).semValidIdx j
        = t.semValidIdx j := fun j => Table.semValidIdx_setSem (by rfl) j
    refine queue_fewer h (fun _ => .inr rfl) ?_ (fun k _ _ hv => by rw [hvalid]; exact hv)
    intro j hj
    refine ⟨by rw [← hvalid]; exact hj, ?_⟩
    by_cases e : j = idx
    · subst e; simp
    · simp [e]

theorem queue_dropMine {v : Table} (h : Queue alive arrival v) (semId : ℕ) (pid : ℤ) :
    Queue alive arrival (Table.dropMine v t semId pid) := by
  unfold Table.dropMine
  split
  · exact queue_del h _ _
  · exact h

theorem queue_torn (h : Queue alive arrival t) (ht : Table.Torn t u) : Queue alive arrival u := by
  refine queue_fewer h ht.slots ?_ ?_
  · intro j hj
    have e := (ht.same hj).1
    exact ⟨by simpa [Table.semValidIdx, e] using hj, by rw [e]⟩
  · intro k hk hne hv
    simpa [Table.semValidIdx, ht.kept k hk hne] using hv

/-- A permit that becomes available is handed on: at most one new permit where none was free. -/
theorem queue_post (h : Queue alive arrival t) {s : Sem}
    (hcr : s.createrPid = (t.semaphores idx).createrPid)
    (hone : 0 < (t.semaphores idx).count ∨ s.count ≤ 1) :
    Queue alive arrival ((t.setSem idx s).semHandoffLocked alive idx) := by
  have hh := Table.handed_handoff alive (t.setSem idx s) idx
  generalize (t.setSem idx s).semHandoffLocked alive idx = u at hh
  have hvalid : ∀ j, u.semValidIdx j = t.semValidIdx j := fun j =>
    (semValidIdx_congr hh.createrPid j).trans (Table.semValidIdx_setSem hcr j)
  have hslots := hh.slots
  have hspent := hh.spent
  simp only [Table.setSem_waiters, Table.setSem_same, Table.waitsOn] at hslots hspent
  -- a slot still waiting was waiting before, with the same task and place
  have hw : ∀ {idx' j}, u.waitsOn idx' j → u.waiters j = t.waiters j ∧ t.waitsOn idx' j := by
    intro idx' j hj
    rcases hslots j with e | ⟨-, -, e⟩ | ⟨-, -, e, -⟩
    · exact ⟨e, by simpa [Table.waitsOn, e] using hj⟩
    · exact absurd e (ne_zero_of_waitsOn hj)
    · exact absurd hj.2 (by rw [e]; simp)
  refine ⟨?_, ?_, ?_, ?_, ?_, ?_⟩
  · intro k hk hne
    obtain ⟨hs, -, -⟩ := hh.thin.occupied hne
    rw [hvalid, hs]
    exact h.named k hk (by rwa [hs] at hne)
  · intro idx' hv hc j hj hjw
    rw [hvalid] at hv
    obtain ⟨e, hjt⟩ := hw hjw
    rw [e]
    by_cases ei : idx' = idx
    · subst ei
      rcases hspent hc with hcount | hnone
      · exact h.spare idx' hv (by rcases hone with h1 | h1 <;> omega) j hj hjt
      · exact absurd hjw (hnone j hj)
    · rw [hh.sems idx' ei, Table.setSem_other ei] at hc
      exact h.spare idx' hv hc j hj hjt
  · intro idx' i hi j hj hiw hia hjw hja hlt
    obtain ⟨e, hiw⟩ := hw hiw
    obtain ⟨e', hjw⟩ := hw hjw
    rw [e] at hia
    rw [e'] at hja
    rw [e, e']
    exact h.inSeq idx' i hi j hj hiw hia hjw hja hlt
  · intro idx' i hi j hj hg hjw hja
    obtain ⟨e', hjt⟩ := hw hjw
    rw [e'] at hja
    rcases hslots i with e | ⟨-, -, e⟩ | ⟨hiw, hia, e, hmin⟩
    · rw [e] at hg
      exact h.served idx' i hi j hj hg hjt hja
    · exact absurd e (ne_zero_of_granted hg)
    · -- the slot granted now had the least `seq`, so it arrived first
      have hidx : idx' = idx := by
        have := (Table.grantedFor_iff.mp hg).1
        rw [e, Waiter.given_semId, hiw.1] at this
        omega
      subst hidx
      have hle := hmin j hj hjt hja
      have hne : arrival i ≠ arrival j := by
        intro heq
        have := h.distinct i hi j hj (ne_zero_of_waitsOn hiw) (ne_zero_of_waitsOn hjt) heq
        subst this
        exact absurd hjw.2 (by rw [e]; simp)
      by_contra hlt
      have := h.inSeq idx' j hj i hi hjt hja hiw hia (by omega)
      omega
  · intro i hi j hj hni hnj harr
    have hi' := (hh.thin.occupied hni).1
    have hj' := (hh.thin.occupied hnj).1
    exact h.distinct i hi j hj (by rwa [hi'] at hni) (by rwa [hj'] at hnj) harr
  · intro i hi j hj hne heq hpid
    obtain ⟨es, ep, -⟩ := hh.thin.occupied hne
    obtain ⟨es', ep', -⟩ := hh.thin.occupied (k := j) (by rwa [← heq])
    rw [es] at hne heq
    rw [es'] at heq
    rw [ep, ep'] at hpid
    exact h.keyed i hi j hj hne heq hpid

theorem queue_clearWaiters (h : Queue alive arrival t) (pid : ℤ) :
    Queue alive arrival (t.clearWaiters alive pid) := by
  unfold Table.clearWaiters
  refine List.foldlRecOn (motive := Queue alive arrival) _ _ h ?_
  intro u hu i _
  rw [Table.clearWaiterStep_eq]
  split
  · exact hu
  · split
    · exact queue_del hu _ _
    · refine queue_post (queue_del hu i pid) (by simp) ?_
      simp only [Table.semWaiterDelLocked_semaphores, Sem.refresh_count, Sem.givenBack]
      split <;> omega

theorem queue_clearOccupied (h : Queue alive arrival t) (pid : ℤ) :
    Queue alive arrival (t.semaphoreClearOccupied alive pid) := by
  unfold Table.semaphoreClearOccupied Table.clearHeld
  refine List.foldlRecOn (motive := Queue alive arrival) _ _ (queue_clearWaiters h pid) ?_
  intro u hu i _
  rw [Table.clearHeldStep_eq]
  split
  · exact hu
  · rename_i hheld
    have hb := (Table.heldBy_iff.mp (by simpa using hheld)).2.1
    exact queue_post hu rfl (.inr (by simp [Sem.recovered, hb]))

theorem queue_quit (h : Queue alive arrival t) (semId : ℕ) (pid : ℤ) :
    Queue alive arrival (t.semaphoreQuit alive semId pid).2 := by
  rcases Table.quit_cases alive t semId pid with ⟨-, e⟩ | ⟨-, -, -, e⟩ <;> rw [e]
  · exact h
  · exact queue_post h rfl (by simp; omega)

theorem queue_alloc (h : Queue alive arrival t) (owner count maxCount : ℤ) :
    Queue alive arrival (t.semAllocRaw owner count maxCount).2 := by
  rcases Table.alloc_cases t owner count maxCount with e | ⟨i, hi, hfree, occ, e⟩ <;> rw [e]
  · exact h
  -- nobody queues on a semaphore that does not exist yet
  have hno : ∀ k < semWaiterMax, (t.waiters k).semId ≠ 0 → (t.waiters k).semId - 1 ≠ i := by
    intro k hk hne hbad
    have hv := h.named k hk hne
    rw [hbad] at hv
    exact (Table.semValidIdx_iff.mp hv).2 hfree
  refine ⟨?_, ?_, h.inSeq, h.served, h.distinct, h.keyed⟩
  · intro k hk hne
    have hv := Table.semValidIdx_iff.mp (h.named k hk hne)
    rw [Table.semValidIdx_iff, Table.setSem_waiters, Table.setSem_other (hno k hk hne)]
    exact hv
  · intro idx hv hc j hj hjw
    have hji := hno j hj (ne_zero_of_waitsOn hjw)
    have hidx : idx ≠ i := by
      rintro rfl
      apply hji
      have := hjw.1
      rw [Table.setSem_waiters] at this
      omega
    have hv' : t.semValidIdx idx = true := by simpa [Table.semValidIdx, hidx] using hv
    rw [Table.setSem_other hidx] at hc
    exact h.spare idx hv' hc j hj hjw

/-- A task queues behind everybody: no permit is free, and the counter is ahead of the waiters. -/
theorem queue_add (h : Queue alive arrival t) {i n : ℕ} (hi : i < semWaiterMax)
    (hfree : (t.waiters i).semId = 0) (hv : t.semValidIdx idx = true)
    (hc : (t.semaphores idx).count ≤ 0)
    (hnew : ∀ j < semWaiterMax, (t.waiters j).semId = idx + 1 → (t.waiters j).pid ≠ pid)
    (hseq : ∀ j < semWaiterMax, t.waitsOn idx j → alive (t.waiters j).pid = true →
      (t.waiters j).seq < t.waiterSeq)
    (hbelow : ∀ j < semWaiterMax, (t.waiters j).semId ≠ 0 → arrival j < n) (sq : ℕ) :
    Queue alive (Function.update arrival i n)
      { t.setWaiter i ⟨idx + 1, pid, t.waiterSeq, false⟩ with waiterSeq := sq } := by
  -- the other slots are where they were
  have hw : ∀ {idx' j}, j ≠ i → (t.setWaiter i ⟨idx + 1, pid, t.waiterSeq, false⟩).waitsOn idx' j →
      t.waitsOn idx' j := by
    intro idx' j hj h; simpa [Table.waitsOn, hj] using h
  refine ⟨?_, ?_, ?_, ?_, ?_, ?_⟩
  · intro k hk hne
    by_cases e : k = i
    · subst e; simpa [Table.semValidIdx] using hv
    · simp only [Table.setWaiter_other e] at hne ⊢
      exact h.named k hk hne
  · intro idx' hv' hc' j hj hjw
    by_cases e : j = i
    · subst e
      have hidx : idx' = idx := by
        have := hjw.1
        simp at this
        omega
      subst hidx
      exact absurd hc' (by simpa using hc)
    · have := h.spare idx' hv' hc' j hj (hw e hjw)
      simpa [e] using this
  · intro idx' j hj k hk hjw hja hkw hka hlt
    by_cases ej : j = i <;> by_cases ek : k = i
    · rw [ej, ek] at hlt; omega
    · subst ej
      have hb := hbelow k hk (ne_zero_of_waitsOn (hw ek hkw))
      simp only [Function.update_self, Function.update_of_ne ek] at hlt
      omega
    · subst ek
      have hidx : idx' = idx := by
        have := hkw.1
        simp at this
        omega
      subst hidx
      simp only [Table.setWaiter_other ej, Table.setWaiter_same] at hja ⊢
      exact hseq j hj (hw ej hjw) hja
    · simp only [Function.update_of_ne ej, Function.update_of_ne ek] at hlt
      simp only [Table.setWaiter_other ej] at hja ⊢
      simp only [Table.setWaiter_other ek] at hka ⊢
      exact h.inSeq idx' j hj k hk (hw ej hjw) hja (hw ek hkw) hka hlt
  · intro idx' j hj k hk hg hkw hka
    have ej : j ≠ i := by
      rintro rfl
      simp [grantedFor] at hg
    simp only [Table.setWaiter_other ej] at hg
    rw [Function.update_of_ne ej]
    by_cases ek : k = i
    · subst ek
      rw [Function.update_self]
      exact hbelow j hj (ne_zero_of_granted hg)
    · rw [Function.update_of_ne ek]
      simp only [Table.setWaiter_other ek] at hka
      exact h.served idx' j hj k hk hg (hw ek hkw) hka
  · intro j hj k hk hnj hnk harr
    by_cases ej : j = i <;> by_cases ek : k = i
    · omega
    · subst ej
      simp only [Table.setWaiter_other ek] at hnk
      simp only [Function.update_self, Function.update_of_ne ek] at harr
      have := hbelow k hk hnk
      omega
    · subst ek
      simp only [Table.setWaiter_other ej] at hnj
      simp only [Function.update_self, Function.update_of_ne ej] at harr
      have := hbelow j hj hnj
      omega
    · simp only [Function.update_of_ne ej, Function.update_of_ne ek] at harr
      simp only [Table.setWaiter_other ej] at hnj
      simp only [Table.setWaiter_other ek] at hnk
      exact h.distinct j hj k hk hnj hnk harr
  · intro j hj k hk hne heq hpid
    by_cases ej : j = i <;> by_cases ek : k = i
    · omega
    · subst ej
      simp only [Table.setWaiter_same, Table.setWaiter_other ek] at heq hpid
      exact absurd hpid.symm (hnew k hk heq.symm)
    · subst ek
      simp only [Table.setWaiter_same, Table.setWaiter_other ej] at heq hpid
      exact absurd hpid (hnew j hj heq)
    · simp only [Table.setWaiter_other ej, Table.setWaiter_other ek] at hne heq hpid
      exact h.keyed j hj k hk hne heq hpid

/-- Fewer live waiters: a task dies, or a pid without slots is handed out. -/
theorem queue_alive {alive' : ℤ → Bool} (h : Queue alive arrival t)
    (ha : ∀ k < semWaiterMax, (t.waiters k).semId ≠ 0 → alive' (t.waiters k).pid = true →
      alive (t.waiters k).pid = true) : Queue alive' arrival t := by
  have hw : ∀ {idx j}, j < semWaiterMax → t.waitsOn idx j → alive' (t.waiters j).pid = true →
      alive (t.waiters j).pid = true := fun hj hjw => ha _ hj (ne_zero_of_waitsOn hjw)
  refine ⟨h.named, ?_, ?_, ?_, h.distinct, h.keyed⟩
  · intro idx hv hc j hj hjw
    by_contra hlive
    have := h.spare idx hv hc j hj hjw
    rw [hw hj hjw (by simpa using hlive)] at this
    cases this
  · intro idx i hi j hj hiw hia hjw hja
    exact h.inSeq idx i hi j hj hiw (hw hi hiw hia) hjw (hw hj hjw hja)
  · intro idx i hi j hj hg hjw hja
    exact h.served idx i hi j hj hg hjw (hw hj hjw hja)

/-- Live tasks keep their slots; at most they are granted. -/
def Kept (alive : ℤ → Bool) (t u : Table) : Prop :=
  ∀ k, (t.waiters k).semId ≠ 0 → alive (t.waiters k).pid = true →
    u.waiters k = t.waiters k ∨ u.waiters k = (t.waiters k).given

theorem Kept.trans {v : Table} (h₁ : Kept alive t u) (h₂ : Kept alive u v) : Kept alive t v := by
  intro k hne ha
  rcases h₁ k hne ha with e | e
  · have := h₂ k (by rwa [e]) (by rwa [e])
    rwa [e] at this
  · have := h₂ k (by rwa [e]) (by rwa [e])
    rw [e] at this
    right
    rcases this with e' | e'
    · exact e'
    · rw [e']; rfl

theorem kept_of_eq (h : u.waiters = t.waiters) : Kept alive t u :=
  fun k _ _ => .inl (congrFun h k)

theorem kept_handed (h : Table.Handed alive idx t u) : Kept alive t u := by
  intro k _ ha
  rcases h.slots k with e | ⟨-, hd, -⟩ | ⟨-, -, e, -⟩
  · exact .inl e
  · rw [ha] at hd; cases hd
  · exact .inr e

/-- Only a dead task's slot is deleted. -/
theorem kept_del (hd : alive pid = false) (slot : ℕ) :
    Kept alive t (t.semWaiterDelLocked slot pid) := by
  intro k _ ha
  rcases Table.semWaiterDelLocked_slot t slot pid k with e | ⟨-, e, -⟩
  · exact .inl e
  · rw [e, hd] at ha; cases ha

theorem kept_post {s : Sem} : Kept alive t ((t.setSem idx s).semHandoffLocked alive idx) :=
  (kept_of_eq (u := t.setSem idx s) rfl).trans (kept_handed (Table.handed_handoff alive _ idx))

theorem gone_clearOccupied (alive : ℤ → Bool) (pid : ℤ) (t : Table) {k : ℕ} (hk : k < semWaiterMax)
    (hne : ((t.semaphoreClearOccupied alive pid).waiters k).semId ≠ 0) :
    ((t.semaphoreClearOccupied alive pid).waiters k).pid ≠ pid := by
  have hgone := (Table.cleared_clearWaiters alive pid t).gone k hk
  rw [Table.semaphoreClearOccupied] at hne ⊢
  generalize t.clearWaiters alive pid = u at hgone hne ⊢
  obtain ⟨hs, hp, -⟩ := (Table.thin_clearHeld alive pid u).occupied hne
  rw [hp]
  exact hgone (by rwa [← hs])

theorem kept_clearOccupied (hd : alive pid = false) :
    Kept alive t (t.semaphoreClearOccupied alive pid) := by
  have hw : Kept alive t (t.clearWaiters alive pid) := by
    unfold Table.clearWaiters
    refine List.foldlRecOn (motive := Kept alive t) _ _ (kept_of_eq rfl) ?_
    intro u hu i _
    rw [Table.clearWaiterStep_eq]
    split
    · exact hu
    · split
      · exact hu.trans (kept_del hd i)
      · exact hu.trans ((kept_del hd i).trans kept_post)
  unfold Table.semaphoreClearOccupied Table.clearHeld
  refine List.foldlRecOn (motive := Kept alive t) _ _ hw ?_
  intro u hu i _
  rw [Table.clearHeldStep_eq]
  split
  · exact hu
  · exact hu.trans kept_post

end Tables

/-! ### Runs -/

/-- What a run keeps: the order of the table, arrivals numbered below the counter, and no slot left
    by a task whose pid may be handed out again. -/
structure FifoInv (s : Machine) : Prop where
  queue : Queue s.alive s.arrival s.tab
  below : ∀ j < semWaiterMax, (s.tab.waiters j).semId ≠ 0 → s.arrival j < s.arrivals
  clean : ∀ pid, s.alive pid = false → s.dirty pid = false →
    ∀ k < semWaiterMax, (s.tab.waiters k).semId ≠ 0 → (s.tab.waiters k).pid ≠ pid
  dead : ∀ pid, s.dirty pid = true → s.alive pid = false

/-- An enter of `pid` that finds no permit, no slot of its own, and a free slot. -/
def Table.QueuesNew (t : Table) (semId : ℕ) (pid : ℤ) : Prop :=
  semId ≠ 0 ∧ t.semValidIdx (semId - 1) = true ∧ (t.semaphores (semId - 1)).count ≤ 0 ∧
    t.semWaiterFindLocked semId pid = none ∧ ∃ i < semWaiterMax, (t.waiters i).semId = 0

/-- Whenever a wait slot is created, the 32-bit arrival counter is larger than the number of every
    live task waiting for the same semaphore. -/
def SeqAhead (s : Machine) : Op → Prop
  | .enter pid semId _ _ => s.tab.QueuesNew semId pid → ∀ j < semWaiterMax,
      s.tab.waitsOn (semId - 1) j → s.alive (s.tab.waiters j).pid = true →
      (s.tab.waiters j).seq < s.tab.waiterSeq
  | _ => True

/-- A free permit means nobody waits, and granted slots are older than waiting ones. -/
structure Fifo (s : Machine) : Prop where
  spare : ∀ idx, s.tab.semValidIdx idx = true → 0 < (s.tab.semaphores idx).count →
    ∀ j, ¬ s.Waiting idx j
  served : ∀ idx i j, s.Granted idx i → s.Waiting idx j → s.arrival i < s.arrival j

/-- A step from `s` to `t` serves the waiters in order. -/
structure Served (s : Machine) (o : Op) (t : Machine) : Prop where
  /-- A task that gets ACQUIRED while others wait collects a slot older than theirs. -/
  taken : ∀ idx pid, (t.book idx).log = .taken pid :: (s.book idx).log → ∀ j, s.Waiting idx j →
    ∃ i, s.Granted idx i ∧ (s.tab.waiters i).pid = pid ∧ s.arrival i < s.arrival j
  /-- A slot granted by the step is older than every slot that goes on waiting. -/
  handed : ∀ idx i j, s.Waiting idx i → t.Granted idx i → s.Waiting idx j →
    t.Granted idx j ∨ (t.Waiting idx j ∧ s.arrival i < s.arrival j)
  /-- A task that enters again keeps its place. -/
  again : ∀ pid semId timeoutUsec serving, o = .enter pid semId timeoutUsec serving →
    ∀ j, s.Waiting (semId - 1) j → (s.tab.waiters j).semId = semId → (s.tab.waiters j).pid = pid →
      t.tab.waiters j = s.tab.waiters j ∧ t.arrival j = s.arrival j

section Runs
variable {s : Machine} {u : Table} {pid : ℤ} {semId : ℕ}

theorem fifo_of_inv (h : FifoInv s) : Fifo s where
  spare idx hv hc j hj := by
    have := h.queue.spare idx hv hc j hj.1 hj.2.1
    rw [hj.2.2] at this
    cases this
  served idx i j hi hj := h.queue.served idx i hi.1 j hj.1 hi.2 hj.2.1 hj.2.2

/-- Steps that queue nobody need only keep the order of the table. -/
theorem fifoInv_thin (h : FifoInv s) (hq : Queue s.alive s.arrival u) (ht : Table.Thin s.tab u)
    {mid : ℤ → Option (ℕ × ℕ)} {res : ℤ → Option SemRes} {book : ℕ → Book} :
    FifoInv { s with tab := u, mid := mid, res := res, book := book } where
  queue := hq
  below j hj hne := h.below j hj (by rwa [← (ht.occupied hne).1])
  clean pid ha hd k hk hne := by
    obtain ⟨hs, hp, -⟩ := ht.occupied hne
    rw [hp]
    exact h.clean pid ha hd k hk (by rwa [← hs])
  dead := h.dead

theorem thin_dropMine {t : Table} {semId : ℕ} {pid : ℤ} :
    Table.Thin u (Table.dropMine u t semId pid) := by
  unfold Table.dropMine
  split
  · exact Table.thin_del _ _ _
  · exact Table.thin_of_eq rfl

theorem fifoInv_enter (h : FifoInv s) {pid : ℤ} (ha : s.alive pid = true) {semId timeoutUsec : ℕ}
    {serving : Bool} (hok : SeqAhead s (.enter pid semId timeoutUsec serving)) :
    FifoInv (s.enter pid semId timeoutUsec serving) := by
  have he := Table.entered_enterRaw s.tab semId pid
  unfold Machine.enter
  generalize s.tab.semaphoreEnterRaw semId pid = r at he
  obtain ⟨r, u⟩ := r
  simp only at he ⊢
  cases he with
  | refused => exact fifoInv_thin h h.queue (Table.thin_of_eq rfl)
  | collected => exact fifoInv_thin h (queue_del h.queue _ _) (Table.thin_del _ _ _)
  | acquired =>
    exact fifoInv_thin h (queue_dropMine (queue_tryAcquire h.queue _ _) _ _)
      ((Table.thin_of_eq Table.tryAcquire_waiters).trans thin_dropMine)
  | reparked hid hf =>
    simp only [hf, Option.isNone_some, Bool.false_eq_true, if_false]
    exact fifoInv_thin h h.queue (Table.thin_of_eq rfl)
  | full => exact fifoInv_thin h h.queue (Table.thin_of_eq rfl)
  | @queued i hid hv hf hc hi hfree =>
    simp only [hf, Option.isNone_none, if_true]
    have hseq := hok ⟨by omega, hv, hc, hf, i, hi, hfree⟩
    have hnew : ∀ j < semWaiterMax, (s.tab.waiters j).semId = semId - 1 + 1 →
        (s.tab.waiters j).pid ≠ pid := fun j hj hs => Table.find_none hf hj (hs.trans hid.symm)
    have hq := queue_add h.queue hi hfree hv hc hnew hseq h.below ((s.tab.waiterSeq + 1) % seqMod)
    rw [← hid] at hq
    refine ⟨hq, ?_, ?_, h.dead⟩
    · intro j hj hne
      by_cases e : j = i
      · subst e; simp
      · simp only [Table.setWaiter_other e] at hne
        simp only [Function.update_of_ne e]
        exact Nat.lt_succ_of_lt (h.below j hj hne)
    · intro q hq hd k hk hne
      by_cases e : k = i
      · subst e
        simp only [Table.setWaiter_same]
        rintro rfl
        rw [ha] at hq
        cases hq
      · simp only [Table.setWaiter_other e] at hne ⊢
        exact h.clean q hq hd k hk hne

theorem fifoInv_torn (h : FifoInv s) (ht : Table.Torn s.tab u) : FifoInv { s with tab := u } :=
  fifoInv_thin h (queue_torn h.queue ht) ht.thin

theorem fifoInv_tryEnter (h : FifoInv s) (pid : ℤ) (semId : ℕ) : FifoInv (s.tryEnter pid semId) := by
  have he := Table.tried_tryEnter s.tab semId pid
  unfold Machine.tryEnter
  generalize s.tab.semaphoreTryEnter semId pid = r at he
  obtain ⟨r, u⟩ := r
  simp only at he ⊢
  cases he with
  | refused => exact fifoInv_thin h h.queue (Table.thin_of_eq rfl)
  | collected => exact fifoInv_thin h (queue_del h.queue _ _) (Table.thin_del _ _ _)
  | acquired =>
    exact fifoInv_thin h (queue_tryAcquire (queue_dropMine h.queue _ _) _ _)
      (thin_dropMine.trans (Table.thin_of_eq Table.tryAcquire_waiters))
  | occupied => exact fifoInv_thin h (queue_dropMine h.queue _ _) thin_dropMine

theorem fifoInv_cleared (h : FifoInv s) {pid : ℤ} {book : ℕ → Book}
    (hq : Queue s.alive s.arrival u) (ht : Table.Thin s.tab u)
    (hgone : ∀ k < semWaiterMax, (u.waiters k).semId ≠ 0 → (u.waiters k).pid ≠ pid) :
    FifoInv { s with tab := u, dirty := Function.update s.dirty pid false, book := book } := by
  have hbase : FifoInv { s with tab := u, book := book } := fifoInv_thin h hq ht
  refine ⟨hq, hbase.below, ?_, ?_⟩
  · intro q ha hd k hk hne
    by_cases e : q = pid
    · subst e; exact hgone k hk hne
    · exact hbase.clean q ha (by simpa [e] using hd) k hk hne
  · intro q hd
    by_cases e : q = pid
    · subst e; simp at hd
    · exact h.dead q (by simpa [e] using hd)

theorem fifoInv_clearOccupied (h : FifoInv s) (pid : ℤ) : FifoInv (s.clearOccupied pid) :=
  fifoInv_cleared h (queue_clearOccupied h.queue pid) (Table.thin_clearOccupied s.alive pid s.tab)
    fun _ hk hne => gone_clearOccupied s.alive pid s.tab hk hne

theorem fifoInv_step {o : Op} {t : Machine} (h : FifoInv s) (hok : SeqAhead s o)
    (hst : step s o = some t) : FifoInv t := by
  cases stepped_of_step hst with
  | @alloc owner =>
    exact fifoInv_thin h (queue_alloc h.queue owner 1 1) (Table.thin_alloc s.tab owner 1 1)
  | @allocCount owner count =>
    exact fifoInv_thin h (queue_alloc h.queue owner count.toInt semaphoreCountMax)
      (Table.thin_alloc s.tab owner count.toInt semaphoreCountMax)
  | enter ha => exact fifoInv_enter h ha hok
  | enterServing => exact fifoInv_thin h (queue_del h.queue _ _) (Table.thin_del _ _ _)
  | tryEnter => exact fifoInv_tryEnter h _ _
  | @quit pid semId =>
    exact fifoInv_thin h (queue_quit h.queue semId pid) (Table.thin_quit s.alive s.tab semId pid)
  | @free owner semId => exact fifoInv_torn h (Table.torn_free s.alive s.tab owner semId)
  | @clear pid => exact fifoInv_torn h (Table.torn_clear s.alive s.tab pid)
  | clearOccupied => exact fifoInv_clearOccupied h _
  | @die pid =>
    refine ⟨queue_alive h.queue ?_, h.below, ?_, ?_⟩
    · intro k _ _ ha
      by_cases e : (s.tab.waiters k).pid = pid
      · simp [e] at ha
      · simpa [e] using ha
    · intro q ha hd
      by_cases e : q = pid
      · subst e; simp at hd
      · exact h.clean q (by simpa [e] using ha) (by simpa [e] using hd)
    · intro q hd
      by_cases e : q = pid
      · subst e; simp
      · simpa [e] using h.dead q (by simpa [e] using hd)
  | @spawn pid hdead hclean =>
    refine ⟨queue_alive h.queue ?_, h.below, ?_, ?_⟩
    · intro k hk hne ha
      have hp := h.clean pid hdead hclean k hk hne
      simpa [hp] using ha
    · intro q ha hd
      by_cases e : q = pid
      · subst e; simp at ha
      · exact h.clean q (by simpa [e] using ha) hd
    · intro q hd
      by_cases e : q = pid
      · subst e; rw [hclean] at hd; cases hd
      · simpa [e] using h.dead q hd

theorem fifoInv_boot : FifoInv boot := by
  have hfree : ∀ i, (boot.tab.waiters i).semId = 0 := fun _ => rfl
  refine ⟨⟨?_, ?_, ?_, ?_, ?_, ?_⟩, ?_, ?_, ?_⟩
  · intro i _ hne; exact absurd (hfree i) hne
  · intro idx _ _ j _ hjw; exact absurd (hfree j) (ne_zero_of_waitsOn hjw)
  · intro idx i _ j _ hiw; exact absurd (hfree i) (ne_zero_of_waitsOn hiw)
  · intro idx i _ j _ hg; exact absurd (hfree i) (ne_zero_of_granted hg)
  · intro i _ j _ hne; exact absurd (hfree i) hne
  · intro i _ j _ hne; exact absurd (hfree i) hne
  · intro j _ hne; exact absurd (hfree j) hne
  · intro pid _ _ k _ hne; exact absurd (hfree k) hne
  · intro pid hd; cases hd

/-! ### What each step serves -/

theorem log_ne_cons {e : Entry ℤ Return} {l : List (Entry ℤ Return)} : l ≠ e :: l := by
  intro h
  have := congrArg List.length h
  simp at this

/-- An ACQUIRED entry can only be the one this call made. -/
theorem of_took {book : ℕ → Book} {idx j : ℕ} {got : Bool} {pid q : ℤ}
    (h : (took book idx got pid j).log = .taken q :: (book j).log) :
    got = true ∧ j = idx ∧ q = pid := by
  cases got with
  | false => exact absurd h log_ne_cons
  | true =>
    simp only [took, if_true] at h
    by_cases e : j = idx
    · subst e
      rw [noted_same] at h
      simp only [List.cons.injEq, Entry.taken.injEq, and_true] at h
      exact ⟨rfl, rfl, h.symm⟩
    · rw [noted_other e] at h
      exact absurd h log_ne_cons

/-- Steps that grant nothing. -/
theorem handed_of_no_grant {t : Machine}
    (h : ∀ k, (t.tab.waiters k).semId = 0 ∨ t.tab.waiters k = s.tab.waiters k ∨
      (t.tab.waiters k).granted = false) (idx i j : ℕ) (hi : s.Waiting idx i)
    (hg : t.Granted idx i) :
    t.Granted idx j ∨ (t.Waiting idx j ∧ s.arrival i < s.arrival j) := by
  have hgi := Table.grantedFor_iff.mp hg.2
  exfalso
  rcases h i with e | e | e
  · exact ne_zero_of_granted hg.2 e
  · rw [e, hi.2.1.2] at hgi; cases hgi.2
  · rw [e] at hgi; cases hgi.2

/-- Steps that hand permits on: whoever is passed over still waits, and came later. -/
theorem handed_of_kept {t : Machine} (ht : FifoInv t) (halive : t.alive = s.alive)
    (harr : t.arrival = s.arrival) (hk : Kept s.alive s.tab t.tab) (idx i j : ℕ)
    (hg : t.Granted idx i) (hj : s.Waiting idx j) :
    t.Granted idx j ∨ (t.Waiting idx j ∧ s.arrival i < s.arrival j) := by
  rcases hk j (ne_zero_of_waitsOn hj.2.1) hj.2.2 with e | e
  · have hjt : t.Waiting idx j := by
      refine ⟨hj.1, ?_, ?_⟩
      · simpa [Table.waitsOn, e] using hj.2.1
      · rw [halive, e]; exact hj.2.2
    refine .inr ⟨hjt, ?_⟩
    rw [← harr]
    exact (fifo_of_inv ht).served idx i j hg hjt
  · left
    refine ⟨hj.1, ?_⟩
    rw [e, Table.grantedFor_iff]
    exact ⟨hj.2.1.1, rfl⟩

theorem fewer_del (t : Table) (slot : ℕ) (pid : ℤ) (k : ℕ) :
    ((t.semWaiterDelLocked slot pid).waiters k).semId = 0 ∨
      (t.semWaiterDelLocked slot pid).waiters k = t.waiters k := by
  rcases Table.semWaiterDelLocked_slot t slot pid k with e | ⟨-, -, e⟩
  · exact .inr e
  · exact .inl e

theorem fewer_dropMine (t : Table) (semId : ℕ) (pid : ℤ) (v : Table) (k : ℕ) :
    ((Table.dropMine v t semId pid).waiters k).semId = 0 ∨
      (Table.dropMine v t semId pid).waiters k = v.waiters k := by
  unfold Table.dropMine
  split
  · exact fewer_del _ _ _ k
  · exact .inr rfl

theorem no_grant_of_fewer {t : Table} (h : ∀ k, (u.waiters k).semId = 0 ∨ u.waiters k = t.waiters k)
    (k : ℕ) : (u.waiters k).semId = 0 ∨ u.waiters k = t.waiters k ∨
      (u.waiters k).granted = false := by
  rcases h k with e | e
  · exact .inl e
  · exact .inr (.inl e)

/-- Collecting a granted slot while others wait. -/
theorem taken_collected (h : FifoInv s) {semId i : ℕ} {pid : ℤ} (hid : semId = semId - 1 + 1)
    (hf : s.tab.semWaiterFindLocked semId pid = some i) (hg : (s.tab.waiters i).granted = true)
    {j : ℕ} (hj : s.Waiting (semId - 1) j) :
    ∃ i, s.Granted (semId - 1) i ∧ (s.tab.waiters i).pid = pid ∧ s.arrival i < s.arrival j := by
  obtain ⟨hlt, hs, hp⟩ := Table.find_some hf
  have hgr : s.Granted (semId - 1) i := ⟨hlt, Table.grantedFor_iff.mpr ⟨hs.trans hid, hg⟩⟩
  exact ⟨i, hgr, hp, (fifo_of_inv h).served _ i j hgr hj⟩

theorem served_enter (h : FifoInv s) {pid : ℤ} {semId timeoutUsec : ℕ} {serving : Bool} :
    Served s (.enter pid semId timeoutUsec serving) (s.enter pid semId timeoutUsec serving) := by
  have he := Table.entered_enterRaw s.tab semId pid
  unfold Machine.enter
  generalize s.tab.semaphoreEnterRaw semId pid = r at he
  obtain ⟨r, u⟩ := r
  simp only at he ⊢
  refine ⟨?_, ?_, ?_⟩
  · intro idx q hlog j hj
    cases he with
    | refused => exact absurd (of_took hlog).1 (by decide)
    | collected hid hf hg =>
      obtain ⟨-, rfl, rfl⟩ := of_took hlog
      exact taken_collected h hid hf hg hj
    | acquired hid hv hg hc =>
      obtain ⟨-, rfl, -⟩ := of_took hlog
      exact absurd hj ((fifo_of_inv h).spare _ hv hc j)
    | reparked => exact absurd hlog log_ne_cons
    | full => exact absurd (of_took hlog).1 (by decide)
    | queued => exact absurd hlog log_ne_cons
  · intro idx i j hi hg _
    refine handed_of_no_grant (fun k => ?_) idx i j hi hg
    cases he with
    | refused => exact .inr (.inl rfl)
    | collected => exact no_grant_of_fewer (fewer_del _ _ _) k
    | acquired =>
      have := fewer_dropMine s.tab semId pid (s.tab.semTryAcquireLocked (semId - 1) pid).2 k
      rw [Table.tryAcquire_waiters] at this
      rcases this with e | e
      · exact .inl e
      · exact .inr (.inl e)
    | reparked => exact .inr (.inl rfl)
    | full => exact .inr (.inl rfl)
    | @queued n =>
      by_cases e : k = n
      · subst e; right; right; simp
      · right; left; simp [e]
  · intro pid' semId' _ _ ho j hj hsid hpid
    cases ho
    have hmine : ∀ i, s.tab.semWaiterFindLocked semId pid = some i → i = j := by
      intro i hf
      obtain ⟨hlt, hs, hp⟩ := Table.find_some hf
      have hne := ne_zero_of_waitsOn hj.2.1
      exact h.queue.keyed i hlt j hj.1 (by rw [hs, ← hsid]; exact hne) (hs.trans hsid.symm)
        (hp.trans hpid.symm)
    cases he with
    | refused => exact ⟨rfl, rfl⟩
    | collected hid hf hg =>
      have := hmine _ hf
      subst this
      rw [hj.2.1.2] at hg
      cases hg
    | acquired hid hv hg hc => exact absurd hj ((fifo_of_inv h).spare _ hv hc j)
    | reparked hid hf =>
      simp only [hf, Option.isNone_some, Bool.false_eq_true, if_false]
      exact ⟨trivial, trivial⟩
    | full => exact ⟨rfl, rfl⟩
    | queued hid hv hf => exact absurd hpid (Table.find_none hf hj.1 hsid)

theorem served_tryEnter (h : FifoInv s) {pid : ℤ} {semId : ℕ} :
    Served s (.tryEnter pid semId) (s.tryEnter pid semId) := by
  have he := Table.tried_tryEnter s.tab semId pid
  unfold Machine.tryEnter
  generalize s.tab.semaphoreTryEnter semId pid = r at he
  obtain ⟨r, u⟩ := r
  simp only at he ⊢
  refine ⟨?_, ?_, fun _ _ _ _ ho => by cases ho⟩
  · intro idx q hlog j hj
    obtain ⟨hgot, rfl, rfl⟩ := of_took hlog
    cases he with
    | refused => exact absurd hgot (by decide)
    | collected hid hf hg => exact taken_collected h hid hf hg hj
    | acquired hid hv hg hc => exact absurd hj ((fifo_of_inv h).spare _ hv hc j)
    | occupied => exact absurd hgot (by decide)
  · intro idx i j hi hg _
    refine handed_of_no_grant (no_grant_of_fewer fun k => ?_) idx i j hi hg
    cases he with
    | refused => exact .inr rfl
    | collected => exact fewer_del _ _ _ k
    | acquired => rw [Table.tryAcquire_waiters]; exact fewer_dropMine _ _ _ _ k
    | occupied => exact fewer_dropMine _ _ _ _ k

theorem served_enterServing (h : FifoInv s) (hmid : MidOk s.tab s.mid) {pid : ℤ} {slot semId : ℕ}
    (hm : s.mid pid = some (slot, semId)) :
    Served s (.enterServing pid) (s.enterServing pid slot semId) := by
  obtain ⟨hlt, hid, -⟩ := hmid pid slot semId hm
  refine ⟨?_, ?_, fun _ _ _ _ ho => by cases ho⟩
  · intro idx q hlog j hj
    obtain ⟨hgot, rfl, rfl⟩ := of_took hlog
    simp only [Table.semaphoreEnterServing] at hgot
    split at hgot
    · rename_i hg
      have hgr : s.Granted (semId - 1) slot :=
        ⟨hlt, Table.grantedFor_iff.mpr ⟨hg.1.trans hid, hg.2.2⟩⟩
      exact ⟨slot, hgr, hg.2.1, (fifo_of_inv h).served _ slot j hgr hj⟩
    · exact absurd hgot (by decide)
  · intro idx i j hi hg _
    exact handed_of_no_grant (no_grant_of_fewer (fewer_del _ _ _)) idx i j hi hg

/-- Steps that neither take nor grant a permit. -/
theorem served_quiet {o : Op} {t : Machine} (ho : ∀ pid semId tm sv, o ≠ .enter pid semId tm sv)
    (hb : ∀ idx pid, (t.book idx).log ≠ .taken pid :: (s.book idx).log)
    (hw : ∀ k, (t.tab.waiters k).semId = 0 ∨ t.tab.waiters k = s.tab.waiters k) : Served s o t where
  taken idx pid hlog := absurd hlog (hb idx pid)
  handed idx i j hi hg _ := handed_of_no_grant (no_grant_of_fewer hw) idx i j hi hg
  again _ _ _ _ e := absurd e (ho _ _ _ _)

theorem served_torn {o : Op} (ho : ∀ pid semId tm sv, o ≠ .enter pid semId tm sv)
    (ht : Table.Torn s.tab u) : Served s o { s with tab := u } :=
  served_quiet ho (fun _ _ => log_ne_cons) ht.slots

theorem opened_not_taken {book : ℕ → Book} {semId : ℕ} {binary : Bool} {initial : ℤ} (idx : ℕ)
    (pid : ℤ) : (opened book semId binary initial idx).log ≠ .taken pid :: (book idx).log := by
  unfold opened
  split
  · exact log_ne_cons
  · by_cases e : idx = semId - 1
    · subst e; simp
    · simp [e]

theorem alloc_waiters (t : Table) (owner count maxCount : ℤ) :
    (t.semAllocRaw owner count maxCount).2.waiters = t.waiters := by
  rcases Table.alloc_cases t owner count maxCount with e | ⟨i, -, -, occ, e⟩ <;> rw [e]; rfl

/-- Steps that take nothing and hand permits on. -/
theorem served_handing {o : Op} (dirty : ℤ → Bool) {book : ℕ → Book}
    (h : FifoInv { s with tab := u, dirty := dirty, book := book })
    (ho : ∀ pid semId tm sv, o ≠ .enter pid semId tm sv)
    (hb : ∀ idx pid, (book idx).log ≠ .taken pid :: (s.book idx).log)
    (hk : Kept s.alive s.tab u) : Served s o { s with tab := u, dirty := dirty, book := book } where
  taken idx pid hlog := absurd hlog (hb idx pid)
  handed idx i j _ hg hj := handed_of_kept (s := s) h rfl rfl hk idx i j hg hj
  again _ _ _ _ e := absurd e (ho _ _ _ _)

theorem served_quit (h : FifoInv (s.quit pid semId)) :
    Served s (.quit pid semId) (s.quit pid semId) := by
  refine served_handing s.dirty h (by simp) ?_ ?_
  · intro idx q
    split
    · by_cases e : idx = semId - 1
      · subst e; rw [noted_same]; simp
      · rw [noted_other e]; exact log_ne_cons
    · exact log_ne_cons
  · rcases Table.quit_cases s.alive s.tab semId pid with ⟨-, e⟩ | ⟨-, -, -, e⟩ <;> rw [e]
    · exact kept_of_eq rfl
    · exact kept_post

theorem served_clearOccupied (hd : s.alive pid = false) (h : FifoInv (s.clearOccupied pid)) :
    Served s (.clearOccupied pid) (s.clearOccupied pid) := by
  refine served_handing _ h (by simp) ?_ (kept_clearOccupied hd)
  intro idx q
  split
  · simp
  · exact log_ne_cons

theorem served_step {o : Op} {t : Machine} (h : FifoInv s) (hmid : MidOk s.tab s.mid)
    (hok : SeqAhead s o) (hst : step s o = some t) : Served s o t := by
  have ht := fifoInv_step h hok hst
  cases stepped_of_step hst with
  | alloc =>
    refine served_quiet (by simp) (fun idx q => opened_not_taken idx q) fun k => .inr ?_
    exact congrFun (alloc_waiters s.tab _ 1 1) k
  | allocCount =>
    refine served_quiet (by simp) (fun idx q => opened_not_taken idx q) fun k => .inr ?_
    exact congrFun (alloc_waiters s.tab _ _ semaphoreCountMax) k
  | enter => exact served_enter h
  | enterServing hm => exact served_enterServing h hmid hm
  | tryEnter => exact served_tryEnter h
  | quit => exact served_quit ht
  | free => exact served_torn (by simp) (Table.torn_free s.alive s.tab _ _)
  | clear => exact served_torn (by simp) (Table.torn_clear s.alive s.tab _)
  | clearOccupied hdirty => exact served_clearOccupied (h.dead _ hdirty) ht
  | die => exact served_quiet (by simp) (fun _ _ => log_ne_cons) fun _ => .inr rfl
  | spawn => exact served_quiet (by simp) (fun _ _ => log_ne_cons) fun _ => .inr rfl

theorem fifoInv_reach (hr : Reach step SeqAhead boot s) : FifoInv s ∧ MidOk s.tab s.mid := by
  refine hr.inv (I := fun s => FifoInv s ∧ MidOk s.tab s.mid) ⟨fifoInv_boot, midOk_boot⟩ ?_
  intro s o t h hok hst
  exact ⟨fifoInv_step h.1 hok hst, midOk_step h.2 hst⟩

/-- In every run in which the arrival counter stays ahead of the waiters it joins, a free permit
    means nobody waits, and every step serves the waiters in the order they came. -/
theorem handoff_fifo (hr : Reach step SeqAhead boot s) :
    Fifo s ∧ ∀ o t, SeqAhead s o → step s o = some t → Served s o t := by
  obtain ⟨h, hmid⟩ := fifoInv_reach hr
  exact ⟨fifo_of_inv h, fun o t hok hst => served_step h hmid hok hst⟩

end Runs

instance (t : Table) (idx j : ℕ) : Decidable (t.waitsOn idx j) :=
  inferInstanceAs (Decidable (_ ∧ _))

instance (t : Table) (semId : ℕ) (pid : ℤ) : Decidable (t.QueuesNew semId pid) :=
  inferInstanceAs (Decidable (_ ∧ _ ∧ _ ∧ _ ∧ _))

instance (s : Machine) : DecidablePred (SeqAhead s)
  | .enter _ _ _ _ => inferInstanceAs (Decidable (_ → _))
  | .alloc _ | .allocCount _ _ | .enterServing _ | .tryEnter _ _ | .quit _ _ | .free _ _
  | .clear _ | .clearOccupied _ | .die _ | .spawn _ => inferInstanceAs (Decidable True)

/-- A holder and two waiters: the lock goes to the first of them. -/
def twoWaiters : List Op :=
  [.spawn 1, .spawn 2, .spawn 3, .alloc 1, .enter 1 1 0 false, .enter 3 1 0 false,
    .enter 2 1 0 false, .quit 1 1]

theorem handoff_fifo_twoWaiters : ∃ s,
    runIf step (fun s o => decide (SeqAhead s o)) boot twoWaiters = some s ∧
    Fifo s ∧ ∀ o t, SeqAhead s o → step s o = some t → Served s o t := by
  have hsome : (runIf step (fun s o => decide (SeqAhead s o)) boot twoWaiters).isSome = true := by
    decide +kernel
  obtain ⟨s, hs⟩ := Option.isSome_iff_exists.mp hsome
  exact ⟨s, hs, handoff_fifo (reach_of_runIf hs fun _ _ h => of_decide_eq_true h)⟩

/-! ### The counter wraps -/

section Wrap
variable {s : Machine} {pid : ℤ}

/-- A task that finds the lock taken parks in the first free slot. -/
theorem enter_parks (pid : ℤ) (tm : ℕ) {i k : ℕ} (hv : s.tab.semValidIdx 0 = true)
    (hc : (s.tab.semaphores 0).count = 0) (hf : s.tab.semWaiterFindLocked 1 pid = none)
    (hi : i < semWaiterMax) (hfree : (s.tab.waiters i).semId = 0)
    (hfirst : ∀ j < i, (s.tab.waiters j).semId ≠ 0) (hk : s.tab.waiterSeq = k) :
    (s.enter pid 1 tm false).tab = { s.tab.setWaiter i ⟨1, pid, k, false⟩ with
      waiterSeq := (k + 1) % seqMod } ∧
    (s.enter pid 1 tm false).alive = s.alive ∧ (s.enter pid 1 tm false).mid = s.mid ∧
    (s.enter pid 1 tm false).arrival = Function.update s.arrival i s.arrivals ∧
    (s.enter pid 1 tm false).arrivals = s.arrivals + 1 := by
  have hslot : (List.range semWaiterMax).find? (fun i => (s.tab.waiters i).semId == 0) = some i := by
    rw [List.find?_range_eq_some]
    exact ⟨by simpa using hfree, List.mem_range.mpr hi, fun j hj => by simpa using hfirst j hj⟩
  have hmax : ¬ semaphoreMax < 1 := by
    have := (Table.semValidIdx_iff.mp hv).1
    omega
  have hr : s.tab.semaphoreEnterRaw 1 pid = (.inr i, { s.tab.setWaiter i ⟨1, pid, k, false⟩ with
      waiterSeq := (k + 1) % seqMod }) := by
    simp [Table.semaphoreEnterRaw, hmax, hv, hf, Table.semTryAcquireLocked_eq, hc,
      Table.semWaiterAddLocked, hslot, hk]
  simp [Machine.enter, hr, hf]

/-- Task 1 holds the lock, tasks 2 and 3 are free to call, nobody waits, and the counter is at `k`. -/
structure Idle (k : ℕ) (s : Machine) : Prop where
  seq : s.tab.waiterSeq = k
  free : ∀ i < semWaiterMax, (s.tab.waiters i).semId = 0
  sem : s.tab.semaphores 0 = ⟨1, 1, .occupied, 0, 1⟩
  alive : s.alive 1 = true ∧ s.alive 2 = true ∧ s.alive 3 = true
  mid : s.mid 1 = none ∧ s.mid 2 = none ∧ s.mid 3 = none

theorem find_eq_none {t : Table}
    (h : ∀ i < semWaiterMax, (t.waiters i).semId = 1 → (t.waiters i).pid ≠ pid) :
    t.semWaiterFindLocked 1 pid = none := by
  unfold Table.semWaiterFindLocked
  rw [List.find?_eq_none]
  intro i hi
  simp only [Bool.and_eq_true, beq_iff_eq, not_and]
  exact h i (List.mem_range.mp hi)

theorem semHandoffLocked_grant {alive : ℤ → Bool} {t : Table} {idx slot : ℕ}
    (hc : 0 < (t.semaphores idx).count) (hs : t.semWaiterHeadLocked idx = some slot)
    (ha : alive (t.waiters slot).pid = true) : t.semHandoffLocked alive idx = t.grant idx slot := by
  simp [Table.semHandoffLocked, Table.semHandoffLoop, hc, hs, ha]

theorem zero_lt_semWaiterMax : 0 < semWaiterMax := by unfold semWaiterMax; decide

theorem one_lt_semWaiterMax : 1 < semWaiterMax := by unfold semWaiterMax; decide

theorem valid_zero {t : Table} (h : t.semaphores 0 = ⟨1, 1, .occupied, 0, 1⟩) :
    t.semValidIdx 0 = true := by
  rw [Table.semValidIdx_iff, h]
  exact ⟨by unfold semaphoreMax; decide, by decide⟩

/-- Task 2 queues with a timeout and gives up: the counter moves on by one. -/
theorem idle_cycle {k : ℕ} (h : Idle k s) :
    ∃ t, Reach step Free s t ∧ Idle ((k + 1) % seqMod) t := by
  have hv := valid_zero h.sem
  have hpark := enter_parks 2 1 hv (by rw [h.sem]) (find_eq_none fun i hlt hi => by
    rw [h.free i hlt] at hi; cases hi) zero_lt_semWaiterMax (h.free 0 zero_lt_semWaiterMax)
    (fun j hj => absurd hj (by omega)) h.seq
  generalize hu : s.enter 2 1 1 false = u at hpark
  obtain ⟨htab, hal, hm, -, -⟩ := hpark
  have hst : step s (.enter 2 1 1 false) = some u := by
    simp [step, Machine.free, h.alive.2.1, h.mid.2.1, hu]
  have hst' : step u (.tryEnter 2 1) = some (u.tryEnter 2 1) := by
    simp [step, Machine.free, hal, hm, h.alive.2.1, h.mid.2.1]
  refine ⟨u.tryEnter 2 1, .next (.next .start trivial hst) trivial hst', ?_⟩
  -- the slot is found, ungranted, and dropped; the lock is still taken
  have hfind : u.tab.semWaiterFindLocked 1 2 = some 0 := by
    unfold Table.semWaiterFindLocked
    rw [List.find?_range_eq_some]
    refine ⟨by simp [htab], List.mem_range.mpr zero_lt_semWaiterMax, ?_⟩
    intro j hj; omega
  have hmax : ¬ semaphoreMax < 1 := by
    have := (Table.semValidIdx_iff.mp hv).1
    omega
  have hsem : u.tab.semaphores 0 = ⟨1, 1, .occupied, 0, 1⟩ := by rw [htab]; exact h.sem
  have hgr : (u.tab.waiters 0).granted = false := by simp [htab]
  have hres : u.tab.semaphoreTryEnter 1 2 = (.occupied, u.tab.semWaiterDelLocked 0 2) := by
    simp [Table.semaphoreTryEnter, hmax, valid_zero hsem, hfind, Table.semTryAcquireLocked_eq, hsem,
      hgr]
  have hdel : u.tab.semWaiterDelLocked 0 2 = u.tab.setWaiter 0 (u.tab.waiters 0).freed :=
    Table.semWaiterDelLocked_eq zero_lt_semWaiterMax (by simp [htab]) (by simp [htab])
  refine ⟨?_, ?_, ?_, ?_, ?_⟩
  · simp only [Machine.tryEnter, hres, Table.semWaiterDelLocked_waiterSeq]
    rw [htab]
  · intro i hi
    simp only [Machine.tryEnter, hres, hdel]
    by_cases e : i = 0
    · subst e; simp
    · simp [e, htab, h.free i hi]
  · simpa [Machine.tryEnter, hres] using hsem
  · simpa [Machine.tryEnter, hal] using h.alive
  · simpa [Machine.tryEnter, hm] using h.mid

theorem idle_cycles (h : Idle 0 s) : ∀ n < seqMod, ∃ t, Reach step Free s t ∧ Idle n t
  | 0, _ => ⟨s, .start, h⟩
  | n + 1, hn => by
    obtain ⟨t, ht, hidle⟩ := idle_cycles h n (by omega)
    obtain ⟨u, hu, hidle'⟩ := idle_cycle hidle
    rw [Nat.mod_eq_of_lt hn] at hidle'
    exact ⟨u, ht.trans hu, hidle'⟩

instance (k : ℕ) (s : Machine) : Decidable (Idle k s) :=
  decidable_of_iff (s.tab.waiterSeq = k ∧ (∀ i < semWaiterMax, (s.tab.waiters i).semId = 0) ∧
    s.tab.semaphores 0 = ⟨1, 1, .occupied, 0, 1⟩ ∧
    (s.alive 1 = true ∧ s.alive 2 = true ∧ s.alive 3 = true) ∧
    (s.mid 1 = none ∧ s.mid 2 = none ∧ s.mid 3 = none))
    ⟨fun ⟨h1, h2, h3, h4, h5⟩ => ⟨h1, h2, h3, h4, h5⟩,
      fun h => ⟨h.seq, h.free, h.sem, h.alive, h.mid⟩⟩

/-- The run up to the first acquisition. -/
theorem idle_boot : ∃ s, Reach step Free boot s ∧ Idle 0 s := by
  have hrun : ((runOps step boot [.spawn 1, .spawn 2, .spawn 3, .alloc 1, .enter 1 1 0 false]).map
      fun s => decide (Idle 0 s)) = some true := by
    decide +kernel
  obtain ⟨s, hs, hidle⟩ := Option.map_eq_some_iff.mp hrun
  exact ⟨s, reach_of_runOps hs, of_decide_eq_true hidle⟩

end Wrap

/-- Without the condition the order breaks: once the counter wraps, task 2 queues with number 0
    behind task 3 with number 2^32 - 1, and is handed the lock first. -/
theorem wrapped_not_fifo : ¬ ∀ s, Reach step Free boot s →
    Fifo s ∧ ∀ o t, step s o = some t → Served s o t := by
  intro hall
  obtain ⟨s₀, hr₀, h₀⟩ := idle_boot
  obtain ⟨s, hr, h⟩ := idle_cycles h₀ (seqMod - 1) (by decide)
  -- task 3 parks in slot 0, task 2 in slot 1
  have hpark := enter_parks 3 0 (valid_zero h.sem) (by rw [h.sem])
    (find_eq_none fun i hlt hi => by
    rw [h.free i hlt] at hi; cases hi) zero_lt_semWaiterMax (h.free 0 zero_lt_semWaiterMax)
    (fun j hj => absurd hj (by omega)) h.seq
  generalize hu : s.enter 3 1 0 false = u at hpark
  obtain ⟨htab, hal, hm, harr, harrs⟩ := hpark
  have hsem : u.tab.semaphores 0 = ⟨1, 1, .occupied, 0, 1⟩ := by rw [htab]; exact h.sem
  have hpark' := enter_parks (s := u) 2 0 (i := 1) (k := 0) (valid_zero hsem) (by rw [hsem])
    (find_eq_none fun i hlt hi => by
      by_cases e : i = 0
      · subst e; simp [htab]
      · simp [htab, e, h.free i hlt] at hi)
    one_lt_semWaiterMax (by simp [htab, h.free 1 one_lt_semWaiterMax]) (fun j hj => by
      have : j = 0 := by omega
      subst this; simp [htab]) (by rw [htab]; show (seqMod - 1 + 1) % seqMod = 0; decide)
  generalize hu' : u.enter 2 1 0 false = v at hpark'
  obtain ⟨htab', hal', hm', harr', -⟩ := hpark'
  have hst : step s (.enter 3 1 0 false) = some u := by
    simp [step, Machine.free, h.alive.2.2, h.mid.2.2, hu]
  have hst' : step u (.enter 2 1 0 false) = some v := by
    simp [step, Machine.free, hal, hm, h.alive.2.1, h.mid.2.1, hu']
  have hst'' : step v (.quit 1 1) = some (v.quit 1 1) := by
    simp [step, Machine.free, hal, hm, hal', hm', h.alive.1, h.mid.1]
  have hreach : Reach step Free boot (v.quit 1 1) :=
    .next (.next (.next (hr₀.trans hr) trivial hst) trivial hst') trivial hst''
  -- the quit hands the lock to slot 1, whose number is the smaller one
  have hquit : (v.quit 1 1).tab = ((v.tab.setSem 0
      ((v.tab.semaphores 0).posted 1).refresh).grant 0 1) := by
    have hsem' : v.tab.semaphores 0 = ⟨1, 1, .occupied, 0, 1⟩ := by rw [htab']; exact hsem
    have hmax : ¬ semaphoreMax < 1 := by
      have := (Table.semValidIdx_iff.mp (valid_zero hsem')).1
      omega
    have hhead : (v.tab.setSem 0 ((v.tab.semaphores 0).posted 1).refresh).semWaiterHeadLocked 0
        = some 1 := by
      have hw1 : v.tab.waitsOn 0 1 := by simp [Table.waitsOn, htab']
      cases hhd : (v.tab.setSem 0 ((v.tab.semaphores 0).posted 1).refresh).semWaiterHeadLocked 0 with
      | none => exact absurd hw1 (Table.head_none hhd 1 one_lt_semWaiterMax)
      | some k =>
        obtain ⟨hk, hkw, hmin⟩ := Table.head_some hhd
        have hle := hmin 1 one_lt_semWaiterMax hw1
        by_contra hne
        have hk1 : k ≠ 1 := fun e => hne (by rw [e])
        by_cases hk0 : k = 0
        · subst hk0
          simp [htab', htab, seqMod] at hle
        · have := hkw.1
          simp [htab', htab, hk1, hk0, h.free k hk] at this
    show (v.tab.semaphoreQuit v.alive 1 1).2 = _
    rw [Table.semaphoreQuit_eq, if_neg (by simp [hmax]), if_neg (by simp [valid_zero hsem', hsem'])]
    refine semHandoffLocked_grant ?_ hhead ?_
    · simp [hsem']
    · simp [htab', hal', hal, h.alive.2.1]
  have hgr : (v.quit 1 1).Granted 0 1 := by
    refine ⟨one_lt_semWaiterMax, ?_⟩
    rw [hquit, Table.grant_eq]
    simp [htab', queuedOn]
  have hw : (v.quit 1 1).Waiting 0 0 := by
    refine ⟨zero_lt_semWaiterMax, ?_, ?_⟩
    · rw [hquit, Table.grant_eq]
      simp [Table.waitsOn, htab', htab]
    · rw [hquit, Table.grant_eq]
      simp [Machine.quit, htab', htab, hal', hal, h.alive.2.2]
  have hlt := (hall _ hreach).1.served 0 1 0 hgr hw
  simp [Machine.quit, harr', harr, harrs] at hlt

end EwokOS.Kernel.Semaphore
