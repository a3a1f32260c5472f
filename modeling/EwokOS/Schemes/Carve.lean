import Mathlib.Algebra.BigOperators.Group.Multiset.Basic
import Mathlib.Algebra.BigOperators.Fin
import Mathlib.Data.Multiset.Bind
import Mathlib.Tactic.Abel

/-! Pieces cut from aligned pages, and tables of buckets, counted as multisets.

    `cut z k p` are the first `k` pieces of size `z` of the page at `p`. Pages that are distinct
    multiples of `P` share no piece as long as `k` pieces fit into `P`, so a multiset of pieces tells
    which pages it came from (`home_of_mem_cut`, `filter_bind_cut`). -/

namespace EwokOS.Schemes

universe u v
variable {P z k p x : ℕ}

def cut (z k p : ℕ) : List ℕ := (List.range k).map fun i => p + i * z

theorem mem_cut : x ∈ cut z k p ↔ ∃ i < k, p + i * z = x := by
  simp only [cut, List.mem_map, List.mem_range]

theorem nodup_cut (hz : 0 < z) : (cut z k p).Nodup :=
  List.nodup_range.map fun _ _ h => Nat.eq_of_mul_eq_mul_right hz (Nat.add_left_cancel h)

theorem length_cut : (cut z k p).length = k := by rw [cut, List.length_map, List.length_range]

/-- A piece lies in the page it was cut from. -/
theorem home_of_mem_cut (hp : P ∣ p) (hz : 0 < z) (hk : k * z ≤ P) (hx : x ∈ cut z k p) :
    x / P * P = p := by
  obtain ⟨i, hi, rfl⟩ := mem_cut.mp hx
  obtain ⟨j, rfl⟩ := hp
  have hlt : i * z < P := (Nat.mul_lt_mul_of_pos_right hi hz).trans_le hk
  rw [Nat.mul_add_div (Nat.zero_lt_of_lt hlt), Nat.div_eq_of_lt hlt, Nat.add_zero, Nat.mul_comm]

section
variable {s : Multiset ℕ}

/-- Pieces of distinct pages are distinct. -/
theorem nodup_bind_cut (hs : s.Nodup) (hal : ∀ p ∈ s, P ∣ p) (hz : 0 < z) (hk : k * z ≤ P) :
    (s.bind fun p => (cut z k p : Multiset ℕ)).Nodup := by
  refine Multiset.nodup_bind.mpr ⟨fun p _ => Multiset.coe_nodup.mpr (nodup_cut hz), ?_⟩
  refine hs.pairwise fun p hp q hq hne => ?_
  rw [Function.onFun, Multiset.disjoint_left]
  intro x hx hx'
  exact hne ((home_of_mem_cut (hal p hp) hz hk hx).symm.trans (home_of_mem_cut (hal q hq) hz hk hx'))

/-- The pieces of one page are the pieces that lie in it. -/
theorem filter_bind_cut (hs : (p ::ₘ s).Nodup) (hal : ∀ q ∈ p ::ₘ s, P ∣ q) (hz : 0 < z)
    (hk : k * z ≤ P) :
    ((p ::ₘ s).bind fun p => (cut z k p : Multiset ℕ)).filter (fun x => x / P * P = p) =
      (cut z k p : Multiset ℕ) := by
  have hself : (cut z k p : Multiset ℕ).filter (fun x => x / P * P = p) = cut z k p :=
    Multiset.filter_eq_self.mpr fun x hx =>
      home_of_mem_cut (hal p (Multiset.mem_cons_self p s)) hz hk hx
  have hrest : (s.bind fun p => (cut z k p : Multiset ℕ)).filter (fun x => x / P * P = p) = 0 := by
    refine Multiset.filter_eq_nil.mpr fun x hx hp => ?_
    obtain ⟨q, hq, hxq⟩ := Multiset.mem_bind.mp hx
    have hqp := (home_of_mem_cut (hal q (Multiset.mem_cons_of_mem hq)) hz hk hxq).symm.trans hp
    exact (Multiset.nodup_cons.mp hs).1 (hqp ▸ hq)
  rw [Multiset.cons_bind, Multiset.filter_add, hself, hrest, add_zero]

end

/-! ### Buckets -/

section
variable {ι : Type u} {ν : Type v} [Fintype ι]

/-- All the entries of a table of buckets. -/
def pooled (f : ι → List ν) : Multiset ν := ∑ i, (f i : Multiset ν)

theorem mem_pooled {f : ι → List ν} {x : ν} : x ∈ pooled f ↔ ∃ i, x ∈ f i := by
  simp only [pooled, Multiset.mem_sum, Finset.mem_univ, true_and, Multiset.mem_coe]

/-- One bucket is written. -/
theorem pooled_update [DecidableEq ι] (f : ι → List ν) (h : ι) (l : List ν) :
    pooled (Function.update f h l) + f h = l + pooled f := by
  have hrest : ∑ i ∈ Finset.univ.erase h, (Function.update f h l i : Multiset ν) =
      ∑ i ∈ Finset.univ.erase h, (f i : Multiset ν) :=
    Finset.sum_congr rfl fun i hi => by rw [Function.update_of_ne (Finset.ne_of_mem_erase hi)]
  have hl := Finset.add_sum_erase Finset.univ (fun i => (Function.update f h l i : Multiset ν))
    (Finset.mem_univ h)
  have hf := Finset.add_sum_erase Finset.univ (fun i => (f i : Multiset ν)) (Finset.mem_univ h)
  rw [pooled, pooled, ← hl, ← hf, Function.update_self, hrest]
  abel

-- membership in a sum over a large table would otherwise be unfolded entry by entry
attribute [irreducible] pooled

end
end EwokOS.Schemes
