import Mathlib.Data.List.Perm.Basic
import Mathlib.Data.Set.Card

/-! Frames behind places, one place a frame, for any types of both.

    `look` says which frame stands behind a place, `refs` counts the places of a frame, and `rest` are
    the frames behind none. Mapping takes a frame out of `rest`, unmapping puts it back:

        rest: [p, q, r]   look: x ↦ none    --map x p-->    rest: [q, r]   look: x ↦ p    refs p = 1

    so frames are neither lost nor handed out twice. -/

namespace EwokOS.Schemes

universe u v
variable {κ : Type u} {ν : Type v}

structure Counted (frames : List ν) (look : κ → Option ν) (refs : ν → ℕ) (rest : List ν) : Prop where
  inj : ∀ x y p, look x = some p → look y = some p → x = y
  one : ∀ x p, look x = some p → refs p = 1
  zero : ∀ p ∈ rest, refs p = 0
  nodup : rest.Nodup
  apart : ∀ x p, look x = some p → p ∉ rest
  all : ∀ p, p ∈ frames ↔ p ∈ rest ∨ ∃ x, look x = some p

namespace Counted
variable {frames rest rest' : List ν} {look : κ → Option ν} {refs : ν → ℕ} {x : κ} {p : ν}

/-- The order of the rest is of no account. -/
theorem perm (h : Counted frames look refs rest) (hp : rest'.Perm rest) :
    Counted frames look refs rest' := by
  refine ⟨h.inj, h.one, fun p hr => h.zero p (hp.mem_iff.mp hr), hp.nodup_iff.mpr h.nodup,
    fun x p hx hr => h.apart x p hx (hp.mem_iff.mp hr), fun p => ?_⟩
  rw [h.all p, hp.mem_iff]

/-- A frame is counted once for every place it stands behind. -/
theorem refs_eq (h : Counted frames look refs rest) (hp : p ∈ frames) :
    refs p = Set.ncard {x | look x = some p} := by
  rcases (h.all p).mp hp with hr | ⟨x, hx⟩
  · have hempty : {x | look x = some p} = ∅ :=
      Set.eq_empty_iff_forall_notMem.mpr fun x hx => h.apart x p hx hr
    rw [h.zero p hr, hempty, Set.ncard_empty]
  · have hone : {x | look x = some p} = {x} := by
      ext y
      exact ⟨fun hy => h.inj y x p hy hx, fun hy => hy ▸ hx⟩
    rw [h.one x p hx, hone, Set.ncard_singleton]

variable [DecidableEq κ] [DecidableEq ν]

theorem map (h : Counted frames look refs (p :: rest)) (hx : look x = none) :
    Counted frames (Function.update look x (some p)) (Function.update refs p (refs p + 1)) rest := by
  obtain ⟨hpr, hnd⟩ := List.nodup_cons.mp h.nodup
  have hout : ∀ y, look y ≠ some p := fun y hy => h.apart y p hy List.mem_cons_self
  have hne : ∀ y q, look y = some q → y ≠ x := by
    rintro y q hy rfl
    rw [hx] at hy
    cases hy
  -- who looks at a frame now: `x` at `p`, and whoever looked before
  have hsome : ∀ {y q}, Function.update look x (some p) y = some q ↔
      (y = x ∧ p = q) ∨ (y ≠ x ∧ look y = some q) := by
    intro y q
    rw [Function.update_apply]
    split_ifs with hy
    · simp [hy]
    · simp [hy]
  refine ⟨?_, ?_, ?_, hnd, ?_, ?_⟩
  · intro y z q hy hz
    rcases hsome.mp hy with ⟨hyx, hq⟩ | ⟨-, hy'⟩ <;> rcases hsome.mp hz with ⟨hzx, hq'⟩ | ⟨-, hz'⟩
    · rw [hyx, hzx]
    · exact absurd (hq ▸ hz') (hout z)
    · exact absurd (hq' ▸ hy') (hout y)
    · exact h.inj y z q hy' hz'
  · intro y q hy
    rcases hsome.mp hy with ⟨rfl, rfl⟩ | ⟨-, hy⟩
    · rw [Function.update_self, h.zero p List.mem_cons_self]
    · have hqp : q ≠ p := fun he => hout y (he ▸ hy)
      rw [Function.update_of_ne hqp]
      exact h.one y q hy
  · intro q hq
    have hqp : q ≠ p := fun he => hpr (he ▸ hq)
    rw [Function.update_of_ne hqp]
    exact h.zero q (List.mem_cons_of_mem p hq)
  · intro y q hy hq
    rcases hsome.mp hy with ⟨rfl, rfl⟩ | ⟨-, hy⟩
    · exact hpr hq
    · exact h.apart y q hy (List.mem_cons_of_mem p hq)
  · intro q
    rw [h.all q, List.mem_cons]
    constructor
    · rintro ((rfl | hq) | ⟨y, hy⟩)
      · exact .inr ⟨x, hsome.mpr (.inl ⟨rfl, rfl⟩)⟩
      · exact .inl hq
      · exact .inr ⟨y, hsome.mpr (.inr ⟨hne y q hy, hy⟩)⟩
    · rintro (hq | ⟨y, hy⟩)
      · exact .inl (.inr hq)
      · rcases hsome.mp hy with ⟨-, rfl⟩ | ⟨-, hy⟩
        · exact .inl (.inl rfl)
        · exact .inr ⟨y, hy⟩

theorem unmap (h : Counted frames look refs rest) (hx : look x = some p) :
    Counted frames (Function.update look x none) (Function.update refs p (refs p - 1))
      (p :: rest) := by
  have hsome : ∀ {y q}, Function.update look x none y = some q ↔ y ≠ x ∧ look y = some q := by
    intro y q
    rw [Function.update_apply]
    split_ifs with hy
    · simp [hy]
    · simp [hy]
  have hother : ∀ {y q}, y ≠ x → look y = some q → q ≠ p := by
    rintro y q hy hq rfl
    exact hy (h.inj y x q hq hx)
  refine ⟨?_, ?_, ?_, List.nodup_cons.mpr ⟨h.apart x p hx, h.nodup⟩, ?_, ?_⟩
  · exact fun y z q hy hz => h.inj y z q (hsome.mp hy).2 (hsome.mp hz).2
  · intro y q hy
    obtain ⟨hyx, hy⟩ := hsome.mp hy
    rw [Function.update_of_ne (hother hyx hy)]
    exact h.one y q hy
  · intro q hq
    rcases List.mem_cons.mp hq with rfl | hq
    · rw [Function.update_self, h.one x q hx]
    · have hqp : q ≠ p := fun he => h.apart x p hx (he ▸ hq)
      rw [Function.update_of_ne hqp]
      exact h.zero q hq
  · intro y q hy hq
    obtain ⟨hyx, hy⟩ := hsome.mp hy
    rcases List.mem_cons.mp hq with rfl | hq
    · exact hother hyx hy rfl
    · exact h.apart y q hy hq
  · intro q
    rw [h.all q, List.mem_cons]
    constructor
    · rintro (hq | ⟨y, hy⟩)
      · exact .inl (.inr hq)
      · rcases eq_or_ne y x with rfl | hyx
        · rw [hx] at hy
          exact .inl (.inl (Option.some.inj hy).symm)
        · exact .inr ⟨y, hsome.mpr ⟨hyx, hy⟩⟩
    · rintro ((rfl | hq) | ⟨y, hy⟩)
      · exact .inr ⟨x, hx⟩
      · exact .inl hq
      · exact .inr ⟨y, (hsome.mp hy).2⟩

end Counted
end EwokOS.Schemes
