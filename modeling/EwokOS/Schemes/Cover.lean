import EwokOS.Schemes.Tiling
import Mathlib.Data.List.Count

/-! Tables of pieces that cover an interval in any order, for any type of pieces.

    A table keeps its pieces where there is room for them, so there is no order to speak of; `cover`
    counts the pieces at an address instead. A piece of no size covers nothing.

        [ 3..5 | - | 0..3 | 5..9 ]            cover = 1 on 0..9, 0 elsewhere

    Writing an entry changes the count by what the old and the new piece cover (`cover_set`), and
    pieces are apart where nothing is covered twice (`apart_of_cover`). -/

namespace EwokOS.Schemes

universe u
variable {ν : Type u} {base size : ν → ℕ} {l : List ν} {m n : ν} {a i j : ℕ}

/-- Whether a piece lies over an address. -/
def lies (base size : ν → ℕ) (a : ℕ) (n : ν) : Bool := base n ≤ a ∧ a < base n + size n

def cover (base size : ν → ℕ) (l : List ν) (a : ℕ) : ℕ := l.countP (lies base size a)

theorem cover_append_singleton :
    cover base size (l ++ [n]) a = cover base size l a + (lies base size a n).toNat := by
  rw [cover, List.countP_append, List.countP_singleton, cover]
  cases lies base size a n <;> rfl

/-- What is counted once an entry is overwritten. -/
theorem countP_swap {p : ν → Bool} (hi : l[i]? = some m) :
    (l.set i n).countP p + (p m).toNat = l.countP p + (p n).toNat := by
  induction l generalizing i with
  | nil => cases hi
  | cons c l ih =>
    cases i with
    | zero =>
      cases hi
      simp only [List.set_cons_zero, List.countP_cons]
      cases p m <;> cases p n <;> simp
    | succ i =>
      have hrest := ih hi
      simp only [List.set_cons_succ, List.countP_cons]
      omega

/-- An entry is overwritten. -/
theorem cover_set (hi : l[i]? = some m) :
    cover base size (l.set i n) a + (lies base size a m).toNat =
      cover base size l a + (lies base size a n).toNat := countP_swap hi

theorem cover_pos (hi : l[i]? = some n) (h : lies base size a n = true) :
    0 < cover base size l a :=
  List.countP_pos_iff.mpr ⟨n, List.mem_of_getElem? hi, h⟩

/-- Two entries over one address count twice. -/
theorem two_le_cover (hi : l[i]? = some m) (hj : l[j]? = some n) (hij : i ≠ j)
    (hm : lies base size a m = true) (hn : lies base size a n = true) :
    2 ≤ cover base size l a := by
  induction l generalizing i j with
  | nil => cases hi
  | cons c l ih =>
    simp only [cover, List.countP_cons]
    cases i with
    | zero =>
      cases hi
      obtain ⟨j, rfl⟩ : ∃ k, j = k + 1 := ⟨j - 1, by omega⟩
      have hpos : 0 < cover base size l a := cover_pos hj hn
      rw [cover] at hpos
      rw [if_pos hm]
      omega
    | succ i =>
      cases j with
      | zero =>
        cases hj
        have hpos : 0 < cover base size l a := cover_pos hi hm
        rw [cover] at hpos
        rw [if_pos hn]
        omega
      | succ j =>
        have hrest := ih hi hj fun he => hij (by rw [he])
        rw [cover] at hrest
        omega

/-- Where nothing is covered twice, entries are apart. -/
theorem apart_of_cover (h : ∀ a, cover base size l a ≤ 1) (hi : l[i]? = some m)
    (hj : l[j]? = some n) (hij : i ≠ j) (hm : 0 < size m) (hn : 0 < size n) :
    Apart (base m, size m) (base n, size n) := by
  by_contra hmeet
  simp only [Apart, not_or, not_le] at hmeet
  have htwo := @two_le_cover ν base size l m n (max (base m) (base n)) i j hi hj hij
    (by rw [lies, decide_eq_true_eq]; omega) (by rw [lies, decide_eq_true_eq]; omega)
  have := h (max (base m) (base n))
  omega

end EwokOS.Schemes
