import Mathlib.Data.List.Basic
import Mathlib.Data.Int.Notation
import Mathlib.Tactic.Linarith

/-! A permit account: what a lock or a counting semaphore is for.

    `pool` permits are free out of at most `cap`. `take` moves one to a taker, `put` brings one back,
    and the log (newest first) records who did what. The balance of the log accounts for every
    permit that left the pool, and with `cap = 1` two takes never follow each other without a
    return in between. -/

namespace EwokOS.Schemes

universe u v
variable {α : Type u} {β : Type v}

inductive Entry (α : Type u) (β : Type v) where
  | taken (who : α)
  | returned (how : β)
  deriving DecidableEq, Repr

/-- Takes minus returns. -/
def net : List (Entry α β) → ℤ
  | [] => 0
  | .taken _ :: l => net l + 1
  | .returned _ :: l => net l - 1

/-- Between any two takes there is a return. -/
def Exclusive (l : List (Entry α β)) : Prop :=
  ∀ l₁ l₂ l₃ a b, l = l₁ ++ .taken a :: l₂ ++ .taken b :: l₃ → ∃ r, .returned r ∈ l₂

structure Account (α : Type u) (β : Type v) where
  cap : ℤ
  initial : ℤ
  pool : ℤ
  log : List (Entry α β)

namespace Account

def fresh (cap initial : ℤ) : Account α β := ⟨cap, initial, initial, []⟩

def take (a : α) (c : Account α β) : Account α β :=
  { c with pool := c.pool - 1, log := .taken a :: c.log }

def put (r : β) (c : Account α β) : Account α β :=
  { c with pool := c.pool + 1, log := .returned r :: c.log }

/-- Every permit is in the pool or accounted for by the log, and a single permit has one holder. -/
structure Valid (c : Account α β) : Prop where
  nonneg : 0 ≤ c.pool
  le_cap : c.pool ≤ c.cap
  balance : c.pool + net c.log = c.initial
  drained : c.cap = 1 → ∀ a l, c.log = .taken a :: l → c.pool = 0
  exclusive : c.cap = 1 → Exclusive c.log

variable {c : Account α β}

theorem exclusive_nil : Exclusive ([] : List (Entry α β)) := by
  intro l₁ l₂ l₃ a b h
  simp at h

theorem exclusive_returned {l : List (Entry α β)} (r : β) (h : Exclusive l) :
    Exclusive (.returned r :: l) := by
  intro l₁ l₂ l₃ a b hl
  cases l₁ with
  | nil => simp at hl
  | cons e l₁ =>
    simp only [List.cons_append, List.cons.injEq] at hl
    exact h l₁ l₂ l₃ a b hl.2

/-- A take after a log that does not end in a take. -/
theorem exclusive_taken {l : List (Entry α β)} (a : α) (h : Exclusive l)
    (hd : ∀ b l', l ≠ .taken b :: l') : Exclusive (.taken a :: l) := by
  intro l₁ l₂ l₃ b d hl
  cases l₁ with
  | cons e l₁ =>
    simp only [List.cons_append, List.cons.injEq] at hl
    exact h l₁ l₂ l₃ b d hl.2
  | nil =>
    simp only [List.nil_append, List.cons_append, List.cons.injEq] at hl
    cases l₂ with
    | nil => exact absurd hl.2 (hd d l₃)
    | cons e l₂ =>
      cases e with
      | returned r => exact ⟨r, List.mem_cons_self⟩
      | taken x => exact absurd hl.2 (hd x _)

theorem valid_fresh {cap initial : ℤ} (h0 : 0 ≤ initial) (h1 : initial ≤ cap) :
    (fresh cap initial : Account α β).Valid := by
  refine ⟨h0, h1, by simp [fresh, net], ?_, fun _ => exclusive_nil⟩
  intro _ a l h
  simp [fresh] at h

theorem valid_take (a : α) (hv : c.Valid) (hpos : 0 < c.pool) : (c.take a).Valid := by
  obtain ⟨h0, h1, hb, hd, he⟩ := hv
  refine ⟨?_, ?_, ?_, ?_, ?_⟩ <;> simp only [take]
  · omega
  · omega
  · simp only [net]; omega
  · intro hcap _ _ _; omega
  · intro hcap
    refine exclusive_taken a (he hcap) ?_
    intro b l' hl
    have := hd hcap b l' hl
    omega

theorem valid_put (r : β) (hv : c.Valid) (hlt : c.pool < c.cap) : (c.put r).Valid := by
  obtain ⟨h0, h1, hb, hd, he⟩ := hv
  refine ⟨?_, ?_, ?_, ?_, fun hcap => exclusive_returned r (he hcap)⟩ <;> simp only [put]
  · omega
  · omega
  · simp only [net]; omega
  · intro _ a l h; simp at h

end Account

end EwokOS.Schemes
