import Mathlib.Data.List.Basic
import Mathlib.Logic.Basic

/-! Runs of a transition system, for any state and operation types.

    `step s o = some t` is one operation; `none` says the operation cannot happen in `s`. A run is
    guarded by a condition `ok` on every step it takes, so that "in every run whose steps all meet
    the condition" is `Reach step ok`, and "in every run" is `Reach step Free`. An invariant is
    proved once per step and carried along the run by `Reach.inv`. -/

namespace EwokOS.Schemes

universe u v
variable {σ : Type u} {ο : Type v}

/-- Runs of two parties name them `0` and `1`. -/
instance neZero_two : @NeZero ℕ Zero.ofOfNat0 2 := @NeZero.mk ℕ Zero.ofOfNat0 2 (Nat.succ_ne_zero 1)

/-- The condition every step meets. -/
def Free (_ : σ) (_ : ο) : Prop := True

/-- The states reached from `s₀` by steps that all meet `ok`. -/
inductive Reach (step : σ → ο → Option σ) (ok : σ → ο → Prop) (s₀ : σ) : σ → Prop where
  | start : Reach step ok s₀ s₀
  | next {s t : σ} {o : ο} : Reach step ok s₀ s → ok s o → step s o = some t → Reach step ok s₀ t

variable {step : σ → ο → Option σ} {ok ok' : σ → ο → Prop} {s₀ s t : σ}

/-- The invariant rule: true at the start and kept by every step that meets `ok`. -/
theorem Reach.inv {I : σ → Prop} (h : Reach step ok s₀ t) (h0 : I s₀)
    (hs : ∀ s o t, I s → ok s o → step s o = some t → I t) : I t := by
  induction h with
  | start => exact h0
  | next _ hok hst ih => exact hs _ _ _ ih hok hst

theorem Reach.trans (h₁ : Reach step ok s₀ s) (h₂ : Reach step ok s t) : Reach step ok s₀ t := by
  induction h₂ with
  | start => exact h₁
  | next _ hok hst ih => exact .next ih hok hst

/-- A run that meets a condition meets every weaker one. -/
theorem Reach.mono (h : Reach step ok s₀ t) (hm : ∀ s o, ok s o → ok' s o) :
    Reach step ok' s₀ t := by
  induction h with
  | start => exact .start
  | next _ hok hst ih => exact .next ih (hm _ _ hok) hst

/-- Executing a list of operations, giving up at the first one that cannot happen or that `ok`
    refuses. -/
def runIf (step : σ → ο → Option σ) (ok : σ → ο → Bool) (s : σ) : List ο → Option σ
  | [] => some s
  | o :: os => if ok s o then (step s o).bind fun t => runIf step ok t os else none

/-- Executing a list of operations. -/
def runOps (step : σ → ο → Option σ) : σ → List ο → Option σ := runIf step fun _ _ => true

theorem reach_of_runIf {okb : σ → ο → Bool} {os : List ο} (h : runIf step okb s os = some t)
    (hok : ∀ s o, okb s o = true → ok s o) : Reach step ok s t := by
  induction os generalizing s with
  | nil => cases h; exact .start
  | cons o os ih =>
    simp only [runIf, Option.ite_none_right_eq_some] at h
    obtain ⟨hb, h⟩ := h
    obtain ⟨u, hu, ht⟩ := Option.bind_eq_some_iff.mp h
    exact Reach.trans (.next .start (hok s o hb) hu) (ih ht)

theorem reach_of_runOps {os : List ο} (h : runOps step s os = some t) : Reach step Free s t :=
  reach_of_runIf h fun _ _ _ => trivial

/-- Every operation of a list meets `ok` when its turn comes, for steps that cannot be refused. -/
def AllMeet (f : σ → ο → σ) (ok : σ → ο → Prop) (s : σ) : List ο → Prop
  | [] => True
  | o :: os => ok s o ∧ AllMeet f ok (f s o) os

theorem reach_of_allMeet {f : σ → ο → σ} {os : List ο} (h : AllMeet f ok s os) :
    Reach (fun s o => some (f s o)) ok s (os.foldl f s) := by
  induction os generalizing s with
  | nil => exact .start
  | cons o os ih => exact Reach.trans (.next .start h.1 rfl) (ih h.2)

theorem AllMeet.inv {f : σ → ο → σ} {os : List ο} {I : σ → Prop} (h : AllMeet f ok s os) (h0 : I s)
    (hs : ∀ s o, I s → ok s o → I (f s o)) : I (os.foldl f s) := by
  refine (reach_of_allMeet h).inv (I := I) h0 fun s o t hI hok ht => ?_
  cases ht
  exact hs s o hI hok

end EwokOS.Schemes
