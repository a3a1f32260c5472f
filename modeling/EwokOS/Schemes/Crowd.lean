import Mathlib.Data.Finset.Card
import Mathlib.Data.Fintype.EquivFin
import Mathlib.Logic.Function.Basic

/-! How many are at a place, of any number of walkers.

    `f t` is where `t` is and `q` marks places. `Crowd q f n` says that exactly `n` walkers are at a
    marked place; one step of one walker changes that by one at most:

        stay: n      join: n + 1      leave: n - 1 -/

namespace EwokOS.Schemes

universe u v
variable {τ : Type u} {β : Type v}

/-- A place is that of the walker that moved, or an old one. -/
theorem update_cases [DecidableEq τ] {f : τ → β} {t : τ} {b : β} {P : β → Prop} (v : τ) (h1 : v = t → P b) (h2 : v ≠ t → P (f v)) :
    P (Function.update f t b v) := by
  by_cases hv : v = t
  · subst hv
    simpa using h1 rfl
  · simpa [hv] using h2 hv

/-- The walkers at a place that `q` marks are `n`. -/
def Crowd (q : β → Bool) (f : τ → β) (n : ℕ) : Prop :=
  ∃ l : Finset τ, (∀ t, t ∈ l ↔ q (f t) = true) ∧ l.card = n

namespace Crowd
variable {q : β → Bool} {f : τ → β} {n m : ℕ} {t : τ} {b : β}

theorem empty (h : ∀ t, q (f t) = false) : Crowd q f 0 := ⟨∅, by simp [h], rfl⟩

theorem pos (h : Crowd q f n) (ht : q (f t) = true) : 0 < n := by
  obtain ⟨l, hl, rfl⟩ := h
  exact Finset.card_pos.mpr ⟨t, (hl t).mpr ht⟩

theorem exists_of_pos (h : Crowd q f n) (hn : 0 < n) : ∃ t, q (f t) = true := by
  obtain ⟨l, hl, rfl⟩ := h
  obtain ⟨t, ht⟩ := Finset.card_pos.mp hn
  exact ⟨t, (hl t).mp ht⟩

/-- There is one such number. -/
theorem eq (h : Crowd q f n) (h' : Crowd q f m) : n = m := by
  obtain ⟨l, hl, rfl⟩ := h
  obtain ⟨l', hl', rfl⟩ := h'
  have : l = l' := Finset.ext fun t => by rw [hl, hl']
  rw [this]

/-- The marked place may be told in another way. -/
theorem congr {q' : β → Bool} {f' : τ → β} (h : Crowd q f n) (he : ∀ t, q' (f' t) = q (f t)) : Crowd q' f' n := by
  obtain ⟨l, hl, hn⟩ := h
  exact ⟨l, fun t => by rw [hl, he], hn⟩

/-- A single walker there is all. -/
theorem single (h : Crowd q f n) (ht : q (f t) = true) (hu : ∀ u, q (f u) = true → u = t) : n = 1 := by
  obtain ⟨l, hl, rfl⟩ := h
  refine Finset.card_eq_one.mpr ⟨t, Finset.ext fun u => ?_⟩
  rw [hl, Finset.mem_singleton]
  refine ⟨hu u, ?_⟩
  rintro rfl
  exact ht

/-- Where at most one is, two are the same. -/
theorem unique (h : Crowd q f n) (hn : n ≤ 1) {u : τ} (ht : q (f t) = true) (hu : q (f u) = true) : u = t := by
  obtain ⟨l, hl, rfl⟩ := h
  exact Finset.card_le_one.mp hn u ((hl u).mpr hu) t ((hl t).mpr ht)

/-- With everybody there, they are all. -/
theorem all [Fintype τ] (h : Crowd q f n) (ha : ∀ t, q (f t) = true) : n = Fintype.card τ := by
  obtain ⟨l, hl, rfl⟩ := h
  rw [← Finset.card_univ, Finset.eq_univ_of_forall fun t => (hl t).mpr (ha t)]

variable [DecidableEq τ]

theorem stay (h : Crowd q f n) (hb : q b = q (f t)) : Crowd q (Function.update f t b) n := by
  refine h.congr fun u => ?_
  by_cases hu : u = t
  · rw [hu, Function.update_self, hb]
  · rw [Function.update_of_ne hu]

theorem join (h : Crowd q f n) (ht : q (f t) = false) (hb : q b = true) :
    Crowd q (Function.update f t b) (n + 1) := by
  obtain ⟨l, hl, rfl⟩ := h
  have hout : t ∉ l := by simp [hl, ht]
  refine ⟨insert t l, fun u => ?_, Finset.card_insert_of_notMem hout⟩
  by_cases hu : u = t
  · simp [hu, hb]
  · simp [hu, hl]

theorem leave (h : Crowd q f n) (ht : q (f t) = true) (hb : q b = false) :
    Crowd q (Function.update f t b) (n - 1) := by
  obtain ⟨l, hl, rfl⟩ := h
  have hin : t ∈ l := (hl t).mpr ht
  refine ⟨l.erase t, fun u => ?_, Finset.card_erase_of_mem hin⟩
  by_cases hu : u = t
  · simp [hu, hb]
  · simp [hu, hl]

/-- With room for one, all others are there. -/
theorem others [Fintype τ] (h : Crowd q f n) (ht : q (f t) = false) (hn : Fintype.card τ ≤ n + 1) {u : τ} (hu : u ≠ t) :
    q (f u) = true := by
  obtain ⟨l, hl, rfl⟩ := h
  rw [← hl]
  by_contra hout
  have hsub : l ⊆ (Finset.univ.erase t).erase u := fun v hv => by
    refine Finset.mem_erase.mpr ⟨?_, Finset.mem_erase.mpr ⟨?_, Finset.mem_univ v⟩⟩
    · rintro rfl
      exact hout hv
    · rintro rfl
      simp [hl, ht] at hv
  have hle := Finset.card_le_card hsub
  rw [Finset.card_erase_of_mem (by simp [hu]), Finset.card_erase_of_mem (Finset.mem_univ t), Finset.card_univ] at hle
  have : 1 < Fintype.card τ := Fintype.one_lt_card_iff.mpr ⟨u, t, hu⟩
  omega

end Crowd

end EwokOS.Schemes
