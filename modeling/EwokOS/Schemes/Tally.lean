import Mathlib.Algebra.BigOperators.Group.Finset.Piecewise
import Mathlib.Algebra.Order.BigOperators.Group.Finset
import Mathlib.Algebra.Group.Int.Defs
import Mathlib.Algebra.Order.Group.Int

/-! Counting the entries of a finite table.

    A table is a function on slot numbers of which the first `n` matter. `tally n p f` is the number
    of slots whose entry satisfies `p`, as an integer so that it can be added and subtracted along
    with other counters. Everything a table operation does to a tally follows from what it does to
    the one slot it writes (`tally_update`). -/

namespace EwokOS.Schemes

universe u
variable {α : Type u}

/-- 1 on the entries that satisfy `p`, 0 on the others. -/
def mark (p : α → Bool) (a : α) : ℤ := if p a then 1 else 0

@[simp] theorem mark_true {p : α → Bool} {a : α} (h : p a = true) : mark p a = 1 := by
  simp [mark, h]

@[simp] theorem mark_false {p : α → Bool} {a : α} (h : p a = false) : mark p a = 0 := by
  simp [mark, h]

theorem mark_nonneg (p : α → Bool) (a : α) : 0 ≤ mark p a := by
  unfold mark
  split <;> decide

/-- The number of slots below `n` whose entry satisfies `p`. -/
def tally (n : ℕ) (p : α → Bool) (f : ℕ → α) : ℤ := ∑ i ∈ Finset.range n, mark p (f i)

variable {n : ℕ} {p : α → Bool} {f g : ℕ → α} {i : ℕ}

theorem tally_nonneg (n : ℕ) (p : α → Bool) (f : ℕ → α) : 0 ≤ tally n p f :=
  Finset.sum_nonneg fun _ _ => mark_nonneg _ _

theorem tally_le (n : ℕ) (p : α → Bool) (f : ℕ → α) : tally n p f ≤ n := by
  have h := Finset.sum_le_card_nsmul (Finset.range n) (fun i => mark p (f i)) 1 fun i _ => by
    simp only [mark]; split <;> decide
  simpa [tally] using h

/-- Writing one slot changes the tally by the difference of the two entries. -/
theorem tally_update (hi : i < n) (a : α) :
    tally n p (Function.update f i a) = tally n p f - mark p (f i) + mark p a := by
  have hm : i ∈ Finset.range n := Finset.mem_range.mpr hi
  have hcomp : (fun j => mark p (Function.update f i a j))
      = Function.update (fun j => mark p (f j)) i (mark p a) := by
    funext j
    by_cases h : j = i
    · subst h; simp
    · simp [h]
  have hsum := Finset.add_sum_erase (Finset.range n) (fun j => mark p (f j)) hm
  unfold tally
  rw [show (∑ j ∈ Finset.range n, mark p (Function.update f i a j))
      = ∑ j ∈ Finset.range n, Function.update (fun j => mark p (f j)) i (mark p a) j from
    congrArg (fun h => ∑ j ∈ Finset.range n, h j) hcomp]
  rw [Finset.sum_update_of_mem hm, ← hsum, Finset.sdiff_singleton_eq_erase]
  omega

theorem tally_congr (h : ∀ j < n, p (f j) = p (g j)) : tally n p f = tally n p g :=
  Finset.sum_congr rfl fun j hj => by simp only [mark, h j (Finset.mem_range.mp hj)]

theorem tally_eq_zero (h : ∀ j < n, p (f j) = false) : tally n p f = 0 :=
  Finset.sum_eq_zero fun j hj => mark_false (h j (Finset.mem_range.mp hj))

/-- An entry that satisfies `p` is counted. -/
theorem tally_pos (hi : i < n) (h : p (f i) = true) : 0 < tally n p f := by
  have hle := Finset.single_le_sum (f := fun j => mark p (f j))
    (fun j _ => mark_nonneg p (f j)) (Finset.mem_range.mpr hi)
  rw [mark_true h] at hle
  exact hle

theorem eq_false_of_tally_eq_zero (h : tally n p f = 0) (hi : i < n) : p (f i) = false := by
  by_contra hp
  have := tally_pos (f := f) hi (by simpa using hp)
  omega

/-! ### Tables of tables -/

/-- The number of entries of `m` tables that satisfy `p`. -/
def tally₂ (m n : ℕ) (p : α → Bool) (f : ℕ → ℕ → α) : ℤ := ∑ i ∈ Finset.range m, tally n p (f i)

section
variable {m j : ℕ} {f : ℕ → ℕ → α}

theorem tally₂_update (hi : i < m) (hj : j < n) (a : α) :
    tally₂ m n p (Function.update f i (Function.update (f i) j a))
      = tally₂ m n p f - mark p (f i j) + mark p a := by
  have hm : i ∈ Finset.range m := Finset.mem_range.mpr hi
  have hcomp : (fun q => tally n p (Function.update f i (Function.update (f i) j a) q))
      = Function.update (fun q => tally n p (f q)) i (tally n p (f i) - mark p (f i j) + mark p a) := by
    funext q
    by_cases h : q = i
    · subst h
      rw [Function.update_self, Function.update_self, tally_update hj]
    · rw [Function.update_of_ne h, Function.update_of_ne h]
  have hsum := Finset.add_sum_erase (Finset.range m) (fun q => tally n p (f q)) hm
  unfold tally₂
  rw [hcomp, Finset.sum_update_of_mem hm, ← hsum, Finset.sdiff_singleton_eq_erase]
  omega

/-- An entry that satisfies `p` is counted. -/
theorem tally₂_pos (hi : i < m) (hj : j < n) (h : p (f i j) = true) : 0 < tally₂ m n p f := by
  have hle := Finset.single_le_sum (f := fun q => tally n p (f q))
    (fun q _ => tally_nonneg n p (f q)) (Finset.mem_range.mpr hi)
  exact Int.lt_of_lt_of_le (tally_pos hj h) hle

theorem tally₂_eq_zero (h : ∀ q < m, ∀ k < n, p (f q k) = false) : tally₂ m n p f = 0 :=
  Finset.sum_eq_zero fun q hq => tally_eq_zero fun k hk => h q (Finset.mem_range.mp hq) k hk

end

end EwokOS.Schemes
