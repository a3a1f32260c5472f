import Mathlib.Data.Finset.Card

/-! A counting semaphore that hands a permit over.

    A permit that is posted goes to somebody in the line, if there is anybody, and else to the free ones.
    Whom it was given to takes it at the next try; who finds a free permit takes that one, and who finds
    none stands in the line, or, at a mere try, leaves it.

        post ──▶ line empty: count + 1          enter ──▶ given, or count > 0: got
             └─▶ else: line ──▶ given                 └─▶ else: into the line

    Whom of the line a permit goes to is left open. -/

namespace EwokOS.Schemes

universe u

structure Handoff (τ : Type u) where
  count : ℕ
  line : Finset τ
  given : Finset τ

namespace Handoff
variable {τ : Type u}

def fresh (n : ℕ) : Handoff τ := ⟨n, ∅, ∅⟩

/-- The permits that are not taken yet. -/
def permits (h : Handoff τ) : ℕ := h.count + h.given.card

/-- Nobody stands in the line of a free permit, or with a permit. -/
structure Settled (h : Handoff τ) : Prop where
  free : h.line.Nonempty → h.count = 0
  apart : ∀ t ∈ h.line, t ∉ h.given

theorem settled_fresh (n : ℕ) : (fresh n : Handoff τ).Settled := ⟨by simp [fresh], by simp [fresh]⟩

variable [DecidableEq τ] (h : Handoff τ) (t : τ)

/-- Whether `t` gets a permit at its next try. -/
def gets : Prop := t ∈ h.given ∨ h.count ≠ 0

instance : Decidable (h.gets t) := inferInstanceAs (Decidable (_ ∨ _))

/-- `t` takes the permit given to it, or a free one. -/
def take : Handoff τ :=
  if t ∈ h.given then { h with given := h.given.erase t }
  else { h with count := h.count - 1, line := h.line.erase t }

/-- `t` stands in the line. -/
def park : Handoff τ := { h with line := insert t h.line }

/-- `t` leaves the line. -/
def leave : Handoff τ := { h with line := h.line.erase t }

/-- One more permit, of at most `top` free ones; `w` is whom it goes to. -/
def post (top : ℕ) : Option τ → Option (Handoff τ)
  | some w => if w ∈ h.line ∧ h.count < top then some { h with line := h.line.erase w, given := insert w h.given } else none
  | none =>
    if top ≤ h.count then some h
    else if h.line = ∅ then some { h with count := h.count + 1 } else none

namespace Settled
variable {h : Handoff τ} {t w : τ} {top : ℕ} {o : Option τ} {g : Handoff τ}

theorem take (hs : h.Settled) : (h.take t).Settled := by
  unfold Handoff.take
  split
  · exact ⟨hs.free, fun v hv hg => hs.apart v hv (Finset.mem_of_mem_erase hg)⟩
  · refine ⟨fun hne => ?_, fun v hv => hs.apart v (Finset.mem_of_mem_erase hv)⟩
    simp [hs.free (hne.mono (Finset.erase_subset t h.line))]

theorem park (hs : h.Settled) (hg : ¬h.gets t) : (h.park t).Settled := by
  obtain ⟨hgiven, hcount⟩ := not_or.mp hg
  refine ⟨fun _ => by simpa [Handoff.park] using hcount, fun v hv => ?_⟩
  rcases Finset.mem_insert.mp hv with rfl | hv
  · exact hgiven
  · exact hs.apart v hv

theorem leave (hs : h.Settled) : (h.leave t).Settled :=
  ⟨fun hne => hs.free (hne.mono (Finset.erase_subset t h.line)), fun v hv => hs.apart v (Finset.mem_of_mem_erase hv)⟩

theorem post (hs : h.Settled) (hp : h.post top o = some g) : g.Settled := by
  cases o with
  | some w =>
    simp only [Handoff.post, Option.ite_none_right_eq_some, Option.some.injEq] at hp
    obtain ⟨⟨hw, -⟩, rfl⟩ := hp
    refine ⟨fun _ => hs.free ⟨w, hw⟩, fun v hv hg => ?_⟩
    obtain ⟨hne, hv⟩ := Finset.mem_erase.mp hv
    exact hs.apart v hv ((Finset.mem_insert.mp hg).resolve_left hne)
  | none =>
    simp only [Handoff.post] at hp
    split at hp
    · cases hp
      exact hs
    · simp only [Option.ite_none_right_eq_some, Option.some.injEq] at hp
      obtain ⟨hnone, rfl⟩ := hp
      exact ⟨fun hne => by simp [hnone] at hne, hs.apart⟩

end Settled

variable {h : Handoff τ} {t w v : τ} {top : ℕ} {o : Option τ} {g : Handoff τ}

theorem mem_line_take : v ∈ (h.take t).line → v ∈ h.line := by
  unfold take
  split
  · exact id
  · exact fun hv => Finset.mem_of_mem_erase hv

theorem mem_given_take : v ∈ (h.take t).given ↔ v ∈ h.given ∧ v ≠ t := by
  unfold take
  split
  · simp [and_comm]
  · rename_i ht
    exact ⟨fun hv => ⟨hv, fun he => ht (he ▸ hv)⟩, And.left⟩

/-- Whoever has got it is out of the line. -/
theorem not_mem_line_take (hs : h.Settled) : t ∉ (h.take t).line := by
  unfold take
  split
  · rename_i ht
    exact fun hl => hs.apart t hl ht
  · simp

/-- Nobody else is moved by it. -/
theorem stays_take (hv : v ≠ t) (hin : v ∈ h.line ∨ v ∈ h.given) : v ∈ (h.take t).line ∨ v ∈ (h.take t).given := by
  rcases hin with hin | hin
  · unfold take
    split
    · exact Or.inl hin
    · exact Or.inl (Finset.mem_erase.mpr ⟨hv, hin⟩)
  · exact Or.inr (mem_given_take.mpr ⟨hin, hv⟩)

/-- Taking costs one permit. -/
theorem permits_take (hg : h.gets t) : (h.take t).permits + 1 = h.permits := by
  unfold take permits
  split
  · rename_i ht
    have := Finset.card_pos.mpr ⟨t, ht⟩
    simp only [Finset.card_erase_of_mem ht]
    omega
  · rename_i ht
    have := hg.resolve_left ht
    simp only
    omega

/-- After a post there is a permit, unless the line swallowed none because nobody could take more. -/
theorem post_some (hp : h.post top o = some g) (ht : 0 < top) : 0 < g.count ∨ ∃ w, w ∈ g.given ∧ o = some w := by
  cases o with
  | some w =>
    simp only [Handoff.post, Option.ite_none_right_eq_some, Option.some.injEq] at hp
    obtain ⟨-, rfl⟩ := hp
    exact Or.inr ⟨w, by simp, rfl⟩
  | none =>
    simp only [Handoff.post] at hp
    split at hp
    · cases hp
      exact Or.inl (by omega)
    · simp only [Option.ite_none_right_eq_some, Option.some.injEq] at hp
      obtain ⟨-, rfl⟩ := hp
      exact Or.inl (Nat.succ_pos _)

theorem mem_line_post (hp : h.post top o = some g) : v ∈ g.line → v ∈ h.line := by
  cases o with
  | some w =>
    simp only [Handoff.post, Option.ite_none_right_eq_some, Option.some.injEq] at hp
    obtain ⟨-, rfl⟩ := hp
    exact fun hv => Finset.mem_of_mem_erase hv
  | none =>
    simp only [Handoff.post] at hp
    split at hp
    · cases hp
      exact id
    · simp only [Option.ite_none_right_eq_some, Option.some.injEq] at hp
      obtain ⟨-, rfl⟩ := hp
      exact id

/-- A permit is given to somebody in the line. -/
theorem mem_given_post (hp : h.post top o = some g) : v ∈ g.given → v ∈ h.given ∨ v ∈ h.line := by
  cases o with
  | some w =>
    simp only [Handoff.post, Option.ite_none_right_eq_some, Option.some.injEq] at hp
    obtain ⟨⟨hw, -⟩, rfl⟩ := hp
    intro hv
    rcases Finset.mem_insert.mp hv with rfl | hv
    · exact Or.inr hw
    · exact Or.inl hv
  | none =>
    simp only [Handoff.post] at hp
    split at hp
    · cases hp
      exact Or.inl
    · simp only [Option.ite_none_right_eq_some, Option.some.injEq] at hp
      obtain ⟨-, rfl⟩ := hp
      exact Or.inl

/-- Whoever was in the line, or had a permit, is or has. -/
theorem stays_post (hp : h.post top o = some g) (hin : v ∈ h.line ∨ v ∈ h.given) : v ∈ g.line ∨ v ∈ g.given := by
  cases o with
  | some w =>
    simp only [Handoff.post, Option.ite_none_right_eq_some, Option.some.injEq] at hp
    obtain ⟨-, rfl⟩ := hp
    by_cases hvw : v = w
    · exact Or.inr (by simp [hvw])
    · exact hin.imp (fun hl => Finset.mem_erase.mpr ⟨hvw, hl⟩) (fun hg => Finset.mem_insert_of_mem hg)
  | none =>
    simp only [Handoff.post] at hp
    split at hp
    · cases hp
      exact hin
    · simp only [Option.ite_none_right_eq_some, Option.some.injEq] at hp
      obtain ⟨-, rfl⟩ := hp
      exact hin

end Handoff

end EwokOS.Schemes
