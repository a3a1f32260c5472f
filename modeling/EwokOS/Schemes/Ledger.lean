import Mathlib.Logic.Function.Basic
import Mathlib.Data.List.Basic

/-! Bookkeeping of requests that occupy places until they are settled.

    A ledger numbers the requests in the order in which they are admitted, remembers which place
    each open request holds, and collects what became of the others. `Valid` says that nothing is
    lost and nothing settled twice: an open request sits in exactly one place and has met no fate, a
    request without a place has met exactly one.

        enroll p            settle p f
        ───────▶ in place p ─────────▶ fates = [f] -/

namespace EwokOS.Schemes

universe u v
variable {π : Type u} {φ : Type v}

structure Ledger (π : Type u) (φ : Type v) where
  held : π → Option ℕ
  accepted : ℕ
  fates : ℕ → List φ

namespace Ledger

def fresh : Ledger π φ := ⟨fun _ => none, 0, fun _ => []⟩

structure Valid (l : Ledger π φ) : Prop where
  /-- Only admitted requests hold places. -/
  below : ∀ p r, l.held p = some r → r < l.accepted
  /-- No request holds two places. -/
  single : ∀ p q r, l.held p = some r → l.held q = some r → p = q
  /-- A request that holds a place has met no fate. -/
  unmet : ∀ p r, l.held p = some r → l.fates r = []
  /-- An admitted request that holds no place has met exactly one. -/
  met : ∀ r, r < l.accepted → (∀ p, l.held p ≠ some r) → ∃ f, l.fates r = [f]
  /-- A request yet to come has met none. -/
  unborn : ∀ r, l.accepted ≤ r → l.fates r = []

theorem valid_fresh : (fresh : Ledger π φ).Valid := by
  constructor <;> simp [fresh]

variable {l : Ledger π φ} {p q : π} {f : φ}

/-- What became of every admitted request: it still holds its one place, or it met one fate. -/
theorem Valid.open_or_met (hl : l.Valid) {r : ℕ} (hr : r < l.accepted) :
    ((∃! p, l.held p = some r) ∧ l.fates r = []) ∨
      (∀ p, l.held p ≠ some r) ∧ ∃ f, l.fates r = [f] := by
  by_cases h : ∃ p, l.held p = some r
  · obtain ⟨p, hp⟩ := h
    exact .inl ⟨⟨p, hp, fun q hq => hl.single q p r hq hp⟩, hl.unmet p r hp⟩
  · have h : ∀ p, l.held p ≠ some r := not_exists.mp h
    exact .inr ⟨h, hl.met r hr h⟩

variable [DecidableEq π]

/-- Place `p` takes the next request. -/
def enroll (l : Ledger π φ) (p : π) : Ledger π φ :=
  { l with held := Function.update l.held p (some l.accepted), accepted := l.accepted + 1 }

/-- Place `p` gives up its request, if it has one, with fate `f`. -/
def settle (f : φ) (l : Ledger π φ) (p : π) : Ledger π φ :=
  match l.held p with
  | none => l
  | some r =>
    { l with held := Function.update l.held p none,
             fates := Function.update l.fates r (l.fates r ++ [f]) }

@[simp] theorem enroll_held : (l.enroll p).held = Function.update l.held p (some l.accepted) := rfl

@[simp] theorem settle_accepted : (l.settle f p).accepted = l.accepted := by
  unfold settle
  split <;> rfl

theorem settle_held : (l.settle f p).held = Function.update l.held p none := by
  unfold settle
  split
  case h_1 h => rw [← h, Function.update_eq_self]
  case h_2 => rfl

theorem valid_enroll (hl : l.Valid) (hp : l.held p = none) : (l.enroll p).Valid := by
  refine ⟨?_, ?_, ?_, ?_, ?_⟩
  · intro q r hq
    show r < l.accepted + 1
    by_cases hqp : q = p
    · subst hqp
      simp at hq
      omega
    · rw [enroll_held, Function.update_of_ne hqp] at hq
      exact Nat.lt_succ_of_lt (hl.below q r hq)
  · intro q q' r hq hq'
    rw [enroll_held] at hq hq'
    -- a place other than `p` holds an older request than the one `p` just took
    rcases eq_or_ne q p with hqp | hqp <;> rcases eq_or_ne q' p with hqp' | hqp'
    · rw [hqp, hqp']
    · rw [hqp, Function.update_self, Option.some.injEq] at hq
      rw [Function.update_of_ne hqp'] at hq'
      exact absurd (hl.below _ _ hq') (by omega)
    · rw [hqp', Function.update_self, Option.some.injEq] at hq'
      rw [Function.update_of_ne hqp] at hq
      exact absurd (hl.below _ _ hq) (by omega)
    · rw [Function.update_of_ne hqp] at hq
      rw [Function.update_of_ne hqp'] at hq'
      exact hl.single q q' r hq hq'
  · intro q r hq
    rw [enroll_held] at hq
    rcases eq_or_ne q p with rfl | hqp
    · rw [Function.update_self, Option.some.injEq] at hq
      exact hl.unborn r (by omega)
    · rw [Function.update_of_ne hqp] at hq
      exact hl.unmet q r hq
  · intro r hr hno
    have hne : r ≠ l.accepted := by
      rintro rfl
      exact hno p (by simp)
    refine hl.met r (by simp only [enroll] at hr; omega) fun q hq => hno q ?_
    have hqp : q ≠ p := by
      rintro rfl
      simp [hp] at hq
    rw [enroll_held, Function.update_of_ne hqp, hq]
  · intro r hr
    exact hl.unborn r (by simp only [enroll] at hr; omega)

theorem valid_settle (hl : l.Valid) : (l.settle f p).Valid := by
  cases hp : l.held p with
  | none => simpa [settle, hp] using hl
  | some s =>
    have heq : l.settle f p = { l with held := Function.update l.held p none,
                                       fates := Function.update l.fates s (l.fates s ++ [f]) } := by
      simp [settle, hp]
    have hs : l.fates s = [] := hl.unmet p s hp
    have hother : ∀ q r, Function.update l.held p none q = some r → q ≠ p ∧ l.held q = some r := by
      intro q r hq
      rcases eq_or_ne q p with rfl | hqp
      · simp at hq
      · exact ⟨hqp, by rwa [Function.update_of_ne hqp] at hq⟩
    have hne : ∀ q r, q ≠ p → l.held q = some r → r ≠ s := by
      rintro q r hqp hq rfl
      exact hqp (hl.single q p r hq hp)
    rw [heq]
    refine ⟨?_, ?_, ?_, ?_, ?_⟩
    · intro q r hq
      exact hl.below q r (hother q r hq).2
    · intro q q' r hq hq'
      exact hl.single q q' r (hother q r hq).2 (hother q' r hq').2
    · intro q r hq
      obtain ⟨hqp, hq⟩ := hother q r hq
      simp only [Function.update_of_ne (hne q r hqp hq)]
      exact hl.unmet q r hq
    · intro r hr hno
      rcases eq_or_ne r s with rfl | hrs
      · exact ⟨f, by simp [hs]⟩
      · simp only [Function.update_of_ne hrs]
        refine hl.met r hr fun q hq => hno q ?_
        have hqp : q ≠ p := by
          rintro rfl
          exact hrs (by simpa [hp] using hq.symm)
        simp only [Function.update_of_ne hqp, hq]
    · intro r hr
      have hrs : r ≠ s := by
        rintro rfl
        exact absurd (hl.below p r hp) (by simp only at hr; omega)
      simp only [Function.update_of_ne hrs]
      exact hl.unborn r hr

/-- The request at `p` goes to `q`. -/
def move (l : Ledger π φ) (p q : π) : Ledger π φ :=
  { l with held := Function.update (Function.update l.held q (l.held p)) p none }

theorem move_held (p q x : π) : (l.move p q).held x = if x = p then none else if x = q then l.held p else l.held x := by
  simp only [move, Function.update_apply]

theorem valid_move (hl : l.Valid) {q : π} (hq : l.held q = none) : (l.move p q).Valid := by
  have hold : ∀ x r, (l.move p q).held x = some r → x ≠ p ∧ (x = q ∧ l.held p = some r ∨ l.held x = some r) := by
    intro x r hx
    rw [move_held] at hx
    split at hx
    · cases hx
    · rename_i hxp
      split at hx
      · rename_i hxq
        exact ⟨hxp, Or.inl ⟨hxq, hx⟩⟩
      · exact ⟨hxp, Or.inr hx⟩
  have hkept : ∀ x r, (l.move p q).held x = some r → ∃ y, l.held y = some r := by
    intro x r hx
    rcases (hold x r hx).2 with ⟨-, hp⟩ | hx
    · exact ⟨p, hp⟩
    · exact ⟨x, hx⟩
  refine ⟨fun x r hx => ?_, fun x y r hx hy => ?_, fun x r hx => ?_, fun r hr hno => ?_, hl.unborn⟩
  · obtain ⟨y, hy⟩ := hkept x r hx
    exact hl.below y r hy
  · obtain ⟨hxp, hx⟩ := hold x r hx
    obtain ⟨hyp, hy⟩ := hold y r hy
    rcases hx with ⟨hxq, hxr⟩ | hx <;> rcases hy with ⟨hyq, hyr⟩ | hy
    · rw [hxq, hyq]
    · exact absurd (hl.single y p r hy hxr) hyp
    · exact absurd (hl.single x p r hx hyr) hxp
    · exact hl.single x y r hx hy
  · obtain ⟨y, hy⟩ := hkept x r hx
    exact hl.unmet y r hy
  · refine hl.met r hr fun x hx => ?_
    by_cases hxp : x = p
    · subst hxp
      by_cases hqx : q = x
      · rw [hqx, hx] at hq
        cases hq
      · exact hno q (by rw [move_held, if_neg hqx, if_pos rfl, hx])
    · by_cases hxq : x = q
      · rw [hxq, hq] at hx
        cases hx
      · exact hno x (by rw [move_held, if_neg hxp, if_neg hxq, hx])

/-- Settling a list of places, one after another. -/
theorem valid_foldl_settle (ps : List π) (hl : l.Valid) : (ps.foldl (settle f) l).Valid := by
  induction ps generalizing l with
  | nil => exact hl
  | cons p ps ih => exact ih (valid_settle hl)

theorem foldl_settle_held (ps : List π) (l : Ledger π φ) (q : π) :
    (ps.foldl (settle f) l).held q = if q ∈ ps then none else l.held q := by
  induction ps generalizing l with
  | nil => simp
  | cons p ps ih =>
    rw [List.foldl_cons, ih, settle_held]
    rcases eq_or_ne q p with rfl | hqp <;> simp_all

end Ledger

end EwokOS.Schemes
