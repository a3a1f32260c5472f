import Mathlib.Logic.Basic

/-! Operations that may fail, and keep what they have done when they do.

    `Sat P m Q E` is the rule of pre- and postconditions for them: from a state with `P`, the operation
    ends with a result `a` in a state with `Q a`, or fails in a state with `E`:

        P  --m-->  some a, Q a
           `---->  none,   E

    A sequence stops at the first operation that fails, so all of them share `E` (`sat_bind`). -/

namespace EwokOS.Schemes

/-- The state an operation leaves, and its result unless it fails. -/
def Act (σ α : Type) := σ → σ × Option α

namespace Act
variable {σ α β ι : Type}

def fail : Act σ α := fun s => (s, none)

def get : Act σ σ := fun s => (s, some s)

def modify (f : σ → σ) : Act σ Unit := fun s => (f s, some ())

instance : Monad (Act σ) where
  pure a := fun s => (s, some a)
  bind m f := fun s =>
    match m s with
    | (t, some a) => f a t
    | (t, none) => (t, none)

/-- `m` is done if `c` holds. -/
def when (c : Prop) [Decidable c] (m : Act σ Unit) : Act σ Unit := if c then m else pure ()

/-- A loop over a list. -/
def each (f : ι → Act σ Unit) : List ι → Act σ Unit
  | [] => pure ()
  | x :: l => do
    f x
    each f l

/-- From a state with `P`: success gives `Q`, failure `E`. -/
def Sat (P : σ → Prop) (m : Act σ α) (Q : α → σ → Prop) (E : σ → Prop) : Prop :=
  ∀ s, P s → (∀ a t, m s = (t, some a) → Q a t) ∧ ∀ t, m s = (t, none) → E t

variable {P P' : σ → Prop} {Q Q' : α → σ → Prop} {E E' : σ → Prop} {m h : Act σ α}

theorem Sat.mono (hm : Sat P m Q E) (hp : ∀ s, P' s → P s) (hq : ∀ a s, Q a s → Q' a s)
    (he : ∀ s, E s → E' s) : Sat P' m Q' E' := fun s hs =>
  ⟨fun a t ht => hq a t ((hm s (hp s hs)).1 a t ht), fun t ht => he t ((hm s (hp s hs)).2 t ht)⟩

theorem sat_pure {a : α} (hq : ∀ s, P s → Q a s) : Sat P (pure a) Q E := by
  refine fun s hs => ⟨fun b t ht => ?_, fun t ht => ?_⟩
  · cases ht
    exact hq s hs
  · cases ht

theorem sat_fail (he : ∀ s, P s → E s) : Sat P (fail : Act σ α) Q E := by
  refine fun s hs => ⟨fun b t ht => ?_, fun t ht => ?_⟩
  · cases ht
  · cases ht
    exact he s hs

theorem sat_get {Q : σ → σ → Prop} (hq : ∀ s, P s → Q s s) : Sat P get Q E := by
  refine fun s hs => ⟨fun b t ht => ?_, fun t ht => ?_⟩
  · cases ht
    exact hq s hs
  · cases ht

theorem sat_modify {Q : Unit → σ → Prop} {f : σ → σ} (hq : ∀ s, P s → Q () (f s)) :
    Sat P (modify f) Q E := by
  refine fun s hs => ⟨fun b t ht => ?_, fun t ht => ?_⟩
  · cases ht
    exact hq s hs
  · cases ht

theorem sat_bind {f : α → Act σ β} {R : β → σ → Prop} (hm : Sat P m Q E)
    (hf : ∀ a, Sat (Q a) (f a) R E) : Sat P (m >>= f) R E := by
  intro s hs
  obtain ⟨hok, herr⟩ := hm s hs
  have hdef : (m >>= f) s = match m s with
      | (t, some a) => f a t
      | (t, none) => (t, none) := rfl
  rw [hdef]
  rcases hr : m s with ⟨t, _ | a⟩
  · refine ⟨fun b u hu => ?_, fun u hu => ?_⟩
    · cases hu
    · cases hu
      exact herr t hr
  · exact hf a t (hok a t hr)

theorem sat_ite {c : Prop} [Decidable c] {n : Act σ α} (hm : c → Sat P m Q E) (hn : ¬c → Sat P n Q E) :
    Sat P (if c then m else n) Q E := by
  by_cases hc : c
  · rw [if_pos hc]
    exact hm hc
  · rw [if_neg hc]
    exact hn hc

theorem sat_when {c : Prop} [Decidable c] {m : Act σ Unit} {Q : Unit → σ → Prop} (hm : c → Sat P m Q E)
    (hn : ¬c → ∀ s, P s → Q () s) : Sat P (when c m) Q E :=
  sat_ite hm fun hc => sat_pure (hn hc)

/-- The precondition is used for one state at a time. -/
theorem sat_of_forall (hm : ∀ s, P s → Sat (fun t => t = s) m Q E) : Sat P m Q E :=
  fun s hs => hm s hs s rfl

/-! ### From one state -/

variable {v : σ}

/-- The state before is known: `m` runs in it. -/
theorem sat_then {k : α → Act σ β} {R : β → σ → Prop}
    (hm : Sat (· = v) m Q E) (hk : ∀ a w, Q a w → Sat (· = w) (k a) R E) :
    Sat (· = v) (m >>= k) R E :=
  sat_bind hm fun a => sat_of_forall (hk a)

theorem sat_read {k : σ → Act σ β} {R : β → σ → Prop}
    (hk : Sat (· = v) (k v) R E) : Sat (· = v) (get >>= k) R E := by
  refine sat_bind (sat_get (Q := fun a s => a = v ∧ s = v) fun s hs => ⟨hs, hs⟩) fun a => ?_
  rintro s ⟨rfl, rfl⟩
  exact hk s rfl

theorem sat_set {f : σ → σ} {k : Unit → Act σ β} {R : β → σ → Prop}
    (hk : Sat (· = f v) (k ()) R E) : Sat (· = v) (modify f >>= k) R E := by
  refine sat_bind (sat_modify (Q := fun _ s => s = f v) ?_) fun _ => hk
  rintro s rfl
  rfl

theorem sat_modify_eq {f : σ → σ} {Q : Unit → σ → Prop} (hq : Q () (f v)) :
    Sat (· = v) (modify f) Q E := by
  refine sat_modify ?_
  rintro s rfl
  exact hq

theorem sat_pure_eq {a : α} (hq : Q a v) :
    Sat (· = v) (pure a) Q E := by
  refine sat_pure ?_
  rintro s rfl
  exact hq

theorem sat_fail_eq {Q : α → σ → Prop} (he : E v) :
    Sat (· = v) (fail : Act σ α) Q E := by
  refine sat_fail ?_
  rintro s rfl
  exact he

end Act

end EwokOS.Schemes
