import Mathlib.Data.BitVec

/-! Places on a circle of `2 ^ w` numbers.

    A place is a base and a distance from it, which may be more than once around. The difference of two
    places that are less than once around apart is their distance, from the back to the front:

        b + y ---- x - y ----> b + x

    and from the front to the back it is what is missing to a whole round. -/

namespace EwokOS.Schemes

variable {w : ℕ} (b : BitVec w) {x y : ℕ}

theorem place_sub (h : y ≤ x) : (b + BitVec.ofNat w x) - (b + BitVec.ofNat w y) = BitVec.ofNat w (x - y) := by
  obtain ⟨d, rfl⟩ := Nat.exists_eq_add_of_le h
  rw [BitVec.ofNat_add, add_sub_add_left_eq_sub, add_sub_cancel_left, Nat.add_sub_cancel_left]

theorem toNat_place_sub (h : y ≤ x) (hw : x - y < 2 ^ w) :
    ((b + BitVec.ofNat w x) - (b + BitVec.ofNat w y)).toNat = x - y := by
  rw [place_sub b h, BitVec.toNat_ofNat, Nat.mod_eq_of_lt hw]

theorem toNat_place_sub_of_lt (h : x < y) (hw : y - x < 2 ^ w) :
    ((b + BitVec.ofNat w x) - (b + BitVec.ofNat w y)).toNat = 2 ^ w - (y - x) := by
  have hneg : (b + BitVec.ofNat w x) - (b + BitVec.ofNat w y) = -BitVec.ofNat w (y - x) := by
    rw [← place_sub b (Nat.le_of_lt h), neg_sub]
  rw [hneg, BitVec.toNat_neg, BitVec.toNat_ofNat, Nat.mod_eq_of_lt hw, Nat.mod_eq_of_lt (by omega)]

/-- Places less than once around apart are the same only at the same distance. -/
theorem place_inj (h : b + BitVec.ofNat w x = b + BitVec.ofNat w y) (hxy : x < y + 2 ^ w) (hyx : y < x + 2 ^ w) :
    x = y := by
  have hzero : ((b + BitVec.ofNat w x) - (b + BitVec.ofNat w y)).toNat = 0 := by rw [h, BitVec.sub_self, BitVec.toNat_zero]
  rcases Nat.lt_trichotomy x y with hlt | heq | hgt
  · rw [toNat_place_sub_of_lt b hlt (by omega)] at hzero
    omega
  · exact heq
  · rw [toNat_place_sub b (Nat.le_of_lt hgt) (by omega)] at hzero
    omega

theorem place_add (k : ℕ) : b + BitVec.ofNat w x + BitVec.ofNat w k = b + BitVec.ofNat w (x + k) := by
  rw [BitVec.ofNat_add, add_assoc]

end EwokOS.Schemes
