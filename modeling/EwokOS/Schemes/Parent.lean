import Mathlib.Data.List.Nodup
import Mathlib.Data.Nat.Notation
import Mathlib.Logic.Function.Basic

/-! Trees given by pointers to the parent, for any type of nodes.

    `Ends up a` says that the chain from `a` comes to an end, so that there is no cycle above `a`;
    `Under up a b` says that it passes `b`. Cutting a pointer keeps all chains finite, and so does
    setting one, unless what it points to is below:

        a            f            a  (cut)      a ---> f        fine, if f is not below a -/

namespace EwokOS.Schemes

universe u
variable {α : Type u}

inductive Ends (up : α → Option α) : α → Prop where
  | top {a : α} : up a = none → Ends up a
  | go {a b : α} : up a = some b → Ends up b → Ends up a

inductive Under (up : α → Option α) : α → α → Prop where
  | self (a : α) : Under up a a
  | go {a b c : α} : up a = some b → Under up b c → Under up a c

variable {up up' : α → Option α} {a b c n f : α}

theorem Under.trans (h : Under up a b) (h' : Under up b c) : Under up a c := by
  induction h with
  | self => exact h'
  | go hab _ ih => exact .go hab (ih h')

/-- Fewer pointers, fewer chains. -/
theorem Under.mono (h : Under up' a b) (hu : ∀ x y, up' x = some y → up x = some y) : Under up a b := by
  induction h with
  | self a => exact .self a
  | go hab _ ih => exact .go (hu _ _ hab) ih

theorem Under.cases_up (h : Under up a b) : a = b ∨ ∃ c, up a = some c ∧ Under up c b := by
  cases h with
  | self => exact .inl rfl
  | go hab h => exact .inr ⟨_, hab, h⟩

/-- A chain is the same while the pointers on it are. -/
theorem Under.congr (h : Under up a b) (hu : ∀ x, Under up a x → x ≠ b → up' x = up x) : Under up' a b := by
  induction h with
  | self a => exact .self a
  | @go a c b hac _ ih =>
    by_cases hab : a = b
    · exact hab ▸ .self a
    · exact .go ((hu a (.self a) hab).trans hac) (ih fun x hx => hu x (.go hac hx))

theorem Under.of_congr (h : Under up' a b) (hu : ∀ x, Under up a x → up' x = up x) : Under up a b := by
  induction h with
  | self a => exact .self a
  | @go a c b hac _ ih =>
    have hac : up a = some c := (hu a (.self a)).symm.trans hac
    exact .go hac (ih fun x hx => hu x (.go hac hx))

/-- A chain has one end. -/
theorem Under.end_unique (h : Under up a b) (h' : Under up a c) (hb : up b = none) (hc : up c = none) : b = c := by
  induction h with
  | self b =>
    rcases h'.cases_up with he | ⟨d, hd, -⟩
    · exact he
    · rw [hb] at hd
      cases hd
  | go had _ ih =>
    rcases h'.cases_up with rfl | ⟨e, he, h'⟩
    · rw [hc] at had
      cases had
    · rw [had] at he
      cases he
      exact ih h' hb

/-- Two nodes on one chain. -/
theorem Under.total (h : Under up a b) (h' : Under up a c) : Under up b c ∨ Under up c b := by
  induction h with
  | self => exact .inl h'
  | go hab h ih =>
    rcases h'.cases_up with rfl | ⟨d, hd, hu⟩
    · exact .inr (.go hab h)
    · rw [hab] at hd
      cases hd
      exact ih hu

/-- What has nothing below it has only itself below. -/
theorem Under.leaf (h : Under up a b) (hb : ∀ x, up x ≠ some b) : a = b := by
  induction h with
  | self => rfl
  | @go a c b hac _ ih =>
    have hcb : c = b := ih hb
    exact absurd (hcb ▸ hac) (hb a)

/-- A chain that ends does not come back. -/
theorem Ends.not_under (h : Ends up a) : ∀ b, up a = some b → ¬Under up b a := by
  induction h with
  | top ha =>
    intro b hb
    rw [ha] at hb
    cases hb
  | @go a c hac _ ih =>
    intro b hb hba
    rw [hac] at hb
    cases hb
    -- the chain from `c` passes `a` and goes on to `c`
    rcases hba.cases_up with rfl | ⟨d, hcd, hda⟩
    · exact ih c hac (.self c)
    · exact ih d hcd (hda.trans (.go hac (.self c)))

theorem Ends.last (h : Ends up a) : ∃ b, Under up a b ∧ up b = none := by
  induction h with
  | @top a ha => exact ⟨a, .self a, ha⟩
  | go hab _ ih =>
    obtain ⟨b, hb, hnone⟩ := ih
    exact ⟨b, .go hab hb, hnone⟩

theorem Ends.cut (h : Ends up a) (hu : ∀ x, up' x = none ∨ up' x = up x) : Ends up' a := by
  induction h with
  | top ha => exact .top ((hu _).elim id fun h => h.trans ha)
  | go hab _ ih =>
    rcases hu _ with h | h
    · exact .top h
    · exact .go (h.trans hab) ih

/-- The chain from a node comes to its end in fewer than so many steps. -/
def Within (up : α → Option α) : ℕ → α → Prop
  | 0, _ => False
  | k + 1, a => ∀ b, up a = some b → Within up k b

theorem Within.mono {k k' : ℕ} (h : Within up k a) (hk : k ≤ k') : Within up k' a := by
  induction k generalizing a k' with
  | zero => exact h.elim
  | succ k ih =>
    obtain ⟨k', rfl⟩ := Nat.exists_eq_succ_of_ne_zero (Nat.ne_of_gt (Nat.zero_lt_of_lt hk))
    exact fun b hb => ih (h b hb) (Nat.le_of_succ_le_succ hk)

theorem Within.congr {k : ℕ} (h : Within up' k a) (hu : ∀ x, Under up a x → up' x = up x) : Within up k a := by
  induction k generalizing a with
  | zero => exact h.elim
  | succ k ih => exact fun b hb => ih (h b ((hu a (.self a)).trans hb)) fun x hx => hu x (.go hb hx)

/-- A chain that ends passes no node twice. -/
theorem Ends.within (h : Ends up a) :
    ∃ l : List α, l.Nodup ∧ (∀ b ∈ l, Under up a b) ∧ Within up l.length a := by
  induction h with
  | @top a ha =>
    refine ⟨[a], List.nodup_singleton a, fun b hb => List.mem_singleton.mp hb ▸ .self b, fun b hb => ?_⟩
    rw [ha] at hb
    cases hb
  | @go a c hac hc ih =>
    obtain ⟨l, hnd, hl, hw⟩ := ih
    have hends : Ends up a := .go hac hc
    have hal : a ∉ l := fun hal => hends.not_under c hac (hl a hal)
    refine ⟨a :: l, List.nodup_cons.mpr ⟨hal, hnd⟩, fun b hb => ?_, fun b hb => ?_⟩
    · rcases List.mem_cons.mp hb with rfl | hb
      · exact .self b
      · exact .go hac (hl b hb)
    · rw [hac] at hb
      cases hb
      exact hw

/-- A pointer is set that does not lead back. -/
theorem Ends.graft (h : Ends up a) (hn : up' n = some f) (hf : Ends up f) (hnot : ¬Under up f n)
    (hu : ∀ x, x ≠ n → up' x = up x) : Ends up' a := by
  have hclear : ∀ {x}, Ends up x → ¬Under up x n → Ends up' x := by
    intro x hx
    induction hx with
    | @top a ha =>
      intro hnx
      have hne : a ≠ n := fun he => hnx (he ▸ .self a)
      exact .top ((hu a hne).trans ha)
    | @go a b hab _ ih =>
      intro hnx
      have hne : a ≠ n := fun he => hnx (he ▸ .self a)
      exact .go ((hu a hne).trans hab) (ih fun hb => hnx (.go hab hb))
  have htop : Ends up' n := .go hn (hclear hf hnot)
  induction h with
  | @top a ha =>
    by_cases he : a = n
    · exact he ▸ htop
    · exact .top ((hu a he).trans ha)
  | @go a b hab _ ih =>
    by_cases he : a = n
    · exact he ▸ htop
    · exact .go ((hu a he).trans hab) ih

end EwokOS.Schemes
