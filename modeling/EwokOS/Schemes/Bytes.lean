import Mathlib.Algebra.Ring.Int.Defs
import Mathlib.Algebra.Ring.Nat
import Mathlib.Data.List.Basic
import Mathlib.Tactic.SplitIfs

/-! Memory by address, and what is written to it and read from it.

    `put mem p l` writes `l` from `p` on, `slice mem p n` reads `n` cells from `p` on:

        mem   . . . a b c . . .          put at p = 3, slice 3 3 = [a, b, c]

    A slice sees a write that covers it, and not one beside it. Numbers are kept as little-endian bytes. -/

namespace EwokOS.Schemes

universe u
variable {α : Type u}

def slice (mem : ℕ → α) : ℕ → ℕ → List α
  | _, 0 => []
  | p, n + 1 => mem p :: slice mem (p + 1) n

def put (mem : ℕ → α) (p : ℕ) (l : List α) : ℕ → α :=
  fun a => if p ≤ a then l.getD (a - p) (mem a) else mem a

variable {mem mem' : ℕ → α} {p q n k : ℕ} {l : List α}

@[simp] theorem length_slice : (slice mem p n).length = n := by
  induction n generalizing p with
  | zero => rfl
  | succ n ih => rw [slice, List.length_cons, ih]

theorem slice_congr (h : ∀ a, p ≤ a → a < p + n → mem' a = mem a) : slice mem' p n = slice mem p n := by
  induction n generalizing p with
  | zero => rfl
  | succ n ih =>
    rw [slice, slice, h p (Nat.le_refl p) (by omega), ih fun a ha hb => h a (by omega) (by omega)]

theorem slice_add : slice mem p (n + k) = slice mem p n ++ slice mem (p + n) k := by
  induction n generalizing p with
  | zero => rw [Nat.zero_add, slice, List.nil_append, Nat.add_zero]
  | succ n ih =>
    rw [Nat.add_right_comm, slice, slice, ih, List.cons_append]
    congr 3
    omega

/-- A list that goes on as memory does. -/
theorem append_slice_grows {S : List α} (h : l <+: S) (hm : ∀ i < n, S[l.length + i]? = some (mem (p + i))) :
    l ++ slice mem p n <+: S := by
  induction n generalizing l p with
  | zero => rwa [slice, List.append_nil]
  | succ n ih =>
    have hnext : l ++ [mem p] <+: S := by
      obtain ⟨t, rfl⟩ := h
      have h0 := hm 0 (Nat.succ_pos n)
      rw [Nat.add_zero, List.getElem?_append_right (Nat.le_refl _), Nat.sub_self] at h0
      cases t with
      | nil => cases h0
      | cons x t =>
        cases h0
        exact ⟨t, List.append_assoc ..⟩
    rw [slice, List.append_cons]
    refine ih hnext fun i hi => ?_
    rw [List.length_append, List.length_singleton, Nat.add_assoc, Nat.add_assoc, Nat.add_comm 1]
    exact hm (i + 1) (by omega)

theorem put_of_lt {a : ℕ} (h : a < p) : put mem p l a = mem a := if_neg (by omega)

theorem put_of_ge {a : ℕ} (h : p + l.length ≤ a) : put mem p l a = mem a := by
  unfold put
  split_ifs
  · rw [List.getD_eq_getElem?_getD, List.getElem?_eq_none (by omega)]
    rfl
  · rfl

theorem put_cons {b : α} : put mem p (b :: l) = put (put mem p [b]) (p + 1) l := by
  funext a
  rcases Nat.lt_trichotomy a p with h | rfl | h
  · rw [put_of_lt h, put_of_lt (by omega), put_of_lt h]
  · rw [put_of_lt (Nat.lt_succ_self a)]
    simp [put]
  · have hsub : a - p = a - (p + 1) + 1 := by omega
    rw [put, if_pos (by omega), put, if_pos (by omega), put_of_ge (by exact h), hsub, List.getD_cons_succ]

/-- What has been written is read. -/
theorem slice_put : slice (put mem p l) p l.length = l := by
  induction l generalizing p mem with
  | nil => rfl
  | cons b l ih =>
    rw [List.length_cons, slice, put_cons, ih, put_of_lt (Nat.lt_succ_self p)]
    simp [put]

theorem getD_slice {i : ℕ} {d : α} (h : i < n) : (slice mem p n).getD i d = mem (p + i) := by
  induction n generalizing p i with
  | zero => omega
  | succ n ih =>
    cases i with
    | zero => rfl
    | succ i =>
      rw [slice, List.getD_cons_succ, ih (by omega)]
      congr 1
      omega

/-- A copy of a slice. -/
theorem put_slice {a : ℕ} (h : a < n) : put mem' 0 (slice mem 0 n) a = mem a := by
  rw [put, if_pos (Nat.zero_le a), Nat.sub_zero, getD_slice h, Nat.zero_add]

/-- What lies before or behind a write is not seen to change. -/
theorem slice_put_of_disjoint (h : q + n ≤ p ∨ p + l.length ≤ q) : slice (put mem p l) q n = slice mem q n := by
  refine slice_congr fun a ha hb => ?_
  rcases h with h | h
  · exact put_of_lt (by omega)
  · exact put_of_ge (by omega)

/-! ### Numbers -/

def leBytes : ℕ → ℕ → List UInt8
  | 0, _ => []
  | k + 1, v => UInt8.ofNat v :: leBytes k (v / 256)

def ofLe : List UInt8 → ℕ
  | [] => 0
  | b :: l => b.toNat + 256 * ofLe l

@[simp] theorem length_leBytes (k v : ℕ) : (leBytes k v).length = k := by
  induction k generalizing v with
  | zero => rfl
  | succ k ih => rw [leBytes, List.length_cons, ih]

theorem ofLe_lt (l : List UInt8) : ofLe l < 256 ^ l.length := by
  induction l with
  | nil => exact Nat.one_pos
  | cons b l ih =>
    have hb : b.toNat < 256 := b.toNat_lt
    rw [ofLe, List.length_cons, Nat.pow_succ]
    omega

/-- A number is read back from as many bytes as hold it. -/
theorem ofLe_leBytes {k v : ℕ} (h : v < 256 ^ k) : ofLe (leBytes k v) = v := by
  induction k generalizing v with
  | zero =>
    rw [Nat.pow_zero] at h
    have hv : v = 0 := by omega
    rw [hv]
    rfl
  | succ k ih =>
    have hlow : (UInt8.ofNat v).toNat = v % 256 := by simp
    have hdiv : v / 256 < 256 ^ k := by
      rw [Nat.pow_succ] at h
      exact Nat.div_lt_of_lt_mul (by rw [Nat.mul_comm]; exact h)
    rw [leBytes, ofLe, ih hdiv, hlow]
    omega

end EwokOS.Schemes
