import Mathlib.Algebra.Order.Group.Nat
import Mathlib.Tactic.NormNum.DivMod

/-! What a build of the kernel fixes for its memory code: the page size (`mmudef.h`) and the width of
    an address (`ewokos_config.h`), and the rounding macros of `mmu.h` in that width. -/

namespace EwokOS.Memory

theorem shift_4k : (12 : ℕ) = 12 ∨ (12 : ℕ) = 14 ∨ (12 : ℕ) = 16 := .inl rfl
theorem shift_64k : (16 : ℕ) = 12 ∨ (16 : ℕ) = 14 ∨ (16 : ℕ) = 16 := .inr (.inr rfl)
theorem bits_32 : (32 : ℕ) = 32 ∨ (32 : ℕ) = 64 := .inl rfl
theorem bits_64 : (64 : ℕ) = 32 ∨ (64 : ℕ) = 64 := .inr rfl

/-- The builds there are: 4K, 16K or 64K pages, 32 or 64 bits. -/
structure Build where
  pageShift : ℕ
  addrBits : ℕ
  shift_mem : pageShift = 12 ∨ pageShift = 14 ∨ pageShift = 16
  bits_mem : addrBits = 32 ∨ addrBits = 64

namespace Build
variable (b : Build)

/-- `PAGE_SIZE`. -/
def page : ℕ := 2 ^ b.pageShift

/-- What an `ewokos_addr_t` wraps at. -/
def top : ℕ := 2 ^ b.addrBits

/-- `ALIGN_UP` of an address-width value; `n` is a power of two. -/
def alignUp (x n : ℕ) : ℕ := (x + (n - 1)) % b.top / n * n

variable {b}

theorem page_pos : 0 < b.page := Nat.two_pow_pos _

theorem page_dvd : b.page ∣ 2 ^ 32 := by
  refine Nat.pow_dvd_pow 2 ?_
  have := b.shift_mem
  omega

/-- A multiple of the page size as a number of 32 bits. -/
theorem page_mul_mod (i : ℕ) : b.page * i % 2 ^ 32 = b.page * (i % (2 ^ 32 / b.page)) := by
  have hfull : b.page * (2 ^ 32 / b.page) = 2 ^ 32 := Nat.mul_div_cancel' page_dvd
  calc b.page * i % 2 ^ 32 = b.page * i % (b.page * (2 ^ 32 / b.page)) := by rw [hfull]
    _ = b.page * (i % (2 ^ 32 / b.page)) := Nat.mul_mod_mul_left ..

theorem pages_pos : 0 < 2 ^ 32 / b.page := Nat.div_pos (Nat.le_of_dvd (by decide) page_dvd) page_pos

theorem top_dvd : 2 ^ 32 ∣ b.top := by
  refine Nat.pow_dvd_pow 2 ?_
  have := b.bits_mem
  omega

theorem le_top : 2 ^ 32 ≤ b.top := Nat.le_of_dvd (Nat.two_pow_pos _) top_dvd

end Build

/-- `ALIGN_DOWN`. -/
def alignDown (x n : ℕ) : ℕ := x / n * n

theorem dvd_alignDown (x n : ℕ) : n ∣ alignDown x n := Nat.dvd_mul_left ..

theorem alignDown_le (x n : ℕ) : alignDown x n ≤ x := Nat.div_mul_le_self x n

/-- Rounding up, as meant. -/
def roundUp (x n : ℕ) : ℕ := (x + (n - 1)) / n * n

theorem le_roundUp {x n : ℕ} (hn : 0 < n) : x ≤ roundUp x n := by
  have h := Nat.div_add_mod (x + (n - 1)) n
  have hlt := Nat.mod_lt (x + (n - 1)) hn
  rw [Nat.mul_comm] at h
  unfold roundUp
  omega

/-- The macro rounds up as meant when nothing wraps. -/
theorem Build.alignUp_eq {b : Build} {x n : ℕ} (h : x + (n - 1) < b.top) :
    b.alignUp x n = roundUp x n := by
  rw [alignUp, Nat.mod_eq_of_lt h, roundUp]

theorem roundUp_of_dvd {x n : ℕ} (hn : 0 < n) (h : n ∣ x) : roundUp x n = x := by
  obtain ⟨k, rfl⟩ := h
  rw [roundUp, Nat.mul_add_div hn, Nat.div_eq_of_lt (by omega), Nat.add_zero, Nat.mul_comm]

end EwokOS.Memory
