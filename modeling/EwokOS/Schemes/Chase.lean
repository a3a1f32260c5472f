import Mathlib.Data.Finset.Card

/-! Following pointers to an answer, for any node and answer types.

    `f a` is what a node says: nothing, an answer, or the next node to ask. The loop that follows
    `f` needs a bound on its rounds; on a finite set of nodes the number of nodes is one, because a
    chain that ends in an answer never visits a node twice. -/

namespace EwokOS.Schemes

universe u v
variable {α : Type u} {β : Type v}

/-- At most `n` rounds of the loop. -/
def chase (f : α → Option (β ⊕ α)) : ℕ → α → Option β
  | 0, _ => none
  | n + 1, a =>
    match f a with
    | none => none
    | some (.inl b) => some b
    | some (.inr a') => chase f n a'

/-- From `a` the answer `b` is `n` hops away. -/
inductive Leads (f : α → Option (β ⊕ α)) (b : β) : ℕ → α → Prop where
  | stop {a : α} : f a = some (.inl b) → Leads f b 0 a
  | go {a a' : α} {n : ℕ} : f a = some (.inr a') → Leads f b n a' → Leads f b (n + 1) a

variable {f : α → Option (β ⊕ α)} {a : α} {b b' : β} {m n : ℕ}

theorem Leads.chase_eq (h : Leads f b n a) (hm : n < m) : chase f m a = some b := by
  induction h generalizing m with
  | stop ha =>
    obtain ⟨m, rfl⟩ := Nat.exists_eq_succ_of_ne_zero (Nat.ne_of_gt hm)
    rw [chase, ha]
  | go ha _ ih =>
    obtain ⟨m, rfl⟩ := Nat.exists_eq_succ_of_ne_zero (Nat.ne_of_gt (Nat.zero_lt_of_lt hm))
    rw [chase, ha]
    exact ih (Nat.lt_of_succ_lt_succ hm)

/-- Whatever the loop finds is the answer of some node. -/
theorem chase_answer (h : chase f m a = some b) : ∃ a', f a' = some (.inl b) := by
  induction m generalizing a with
  | zero => cases h
  | succ m ih =>
    rw [chase] at h
    split at h
    · cases h
    case h_2 hf => cases h; exact ⟨a, hf⟩
    case h_3 => exact ih h

theorem Leads.depth_unique (h : Leads f b n a) (h' : Leads f b' m a) : n = m := by
  induction h generalizing m with
  | stop ha =>
    cases h' with
    | stop => rfl
    | go ha' => rw [ha] at ha'; cases ha'
  | go ha _ ih =>
    cases h' with
    | stop ha' => rw [ha] at ha'; cases ha'
    | go ha' h' =>
      rw [ha] at ha'
      cases ha'
      rw [ih h']

/-- The nodes of a chain are distinct, and each of them is nearer to the answer than those before. -/
theorem Leads.nodes (h : Leads f b n a) : ∃ l : List α, l.Nodup ∧ l.length = n + 1 ∧
    ∀ x ∈ l, ∃ i ≤ n, Leads f b i x := by
  induction h with
  | @stop a ha =>
    refine ⟨[a], List.nodup_cons.mpr ⟨List.not_mem_nil, List.nodup_nil⟩, rfl, ?_⟩
    intro x hx
    rw [List.mem_singleton] at hx
    exact ⟨0, le_rfl, hx ▸ .stop ha⟩
  | @go a a' n ha h ih =>
    obtain ⟨l, hnd, hlen, hl⟩ := ih
    refine ⟨a :: l, List.nodup_cons.mpr ⟨?_, hnd⟩, by rw [List.length_cons, hlen], ?_⟩
    · intro hm
      obtain ⟨i, hi, hlead⟩ := hl a hm
      have hd := hlead.depth_unique (.go ha h)
      omega
    · intro x hx
      rcases List.mem_cons.mp hx with rfl | hx
      · exact ⟨n + 1, le_rfl, .go ha h⟩
      · obtain ⟨i, hi, hlead⟩ := hl x hx
        exact ⟨i, Nat.le_succ_of_le hi, hlead⟩

theorem Leads.isSome (h : Leads f b n a) : (f a).isSome = true := by
  cases h with
  | stop ha => rw [ha]; rfl
  | go ha => rw [ha]; rfl

/-- On finitely many nodes a chain is shorter than their number. -/
theorem Leads.depth_lt [DecidableEq α] (h : Leads f b n a) (S : Finset α)
    (hS : ∀ x, (f x).isSome = true → x ∈ S) : n < S.card := by
  obtain ⟨l, hnd, hlen, hl⟩ := h.nodes
  have hsub : l.toFinset ⊆ S := by
    intro x hx
    obtain ⟨i, -, hlead⟩ := hl x (List.mem_toFinset.mp hx)
    exact hS x hlead.isSome
  have hcard := Finset.card_le_card hsub
  rw [List.toFinset_card_of_nodup hnd, hlen] at hcard
  exact hcard

/-- A chain survives a change of `f` that keeps what every node of it says. -/
theorem Leads.mono {g : α → Option (β ⊕ α)} {P : α → Prop} (h : Leads f b n a) (ha : P a)
    (hstop : ∀ x c, P x → f x = some (.inl c) → g x = some (.inl c))
    (hgo : ∀ x y, P x → f x = some (.inr y) → g x = some (.inr y) ∧ P y) : Leads g b n a := by
  induction h with
  | stop hf => exact .stop (hstop _ _ ha hf)
  | go hf _ ih => exact .go (hgo _ _ ha hf).1 (ih (hgo _ _ ha hf).2)

end EwokOS.Schemes
