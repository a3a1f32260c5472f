import Mathlib.Data.Nat.Notation

/-! Going down a tree that is given by the lists of the kids, for any type of nodes.

    `Way kids p n d m` says that `m` is `d` levels below `n` and that `p` holds of every node from the one
    to the other; with `p` always true that is the subtree of `n`. `All` says that `p` holds in a whole
    subtree of fewer than so many levels, `Shut` that no way through `p` gets to a leaf above that level:

              n                    Shut: every way down meets a node without p
             / \                   before it gets to a leaf, or is too long
            a   (no p)
            |
         (no p)                                                                          -/

namespace EwokOS.Schemes

universe u
variable {α : Type u}

inductive Way (kids : α → List α) (p : α → Prop) : α → ℕ → α → Prop where
  | self {n : α} : p n → Way kids p n 0 n
  | kid {n c m : α} {d : ℕ} : p n → c ∈ kids n → Way kids p c d m → Way kids p n (d + 1) m

/-- `m` is `n` or below it. -/
def Below (kids : α → List α) (n m : α) : Prop := ∃ d, Way kids (fun _ => True) n d m

def All (kids : α → List α) (p : α → Prop) (k : ℕ) (n : α) : Prop :=
  ∀ d m, Way kids (fun _ => True) n d m → d < k ∧ p m

def Shut (kids : α → List α) (p : α → Prop) (k : ℕ) (n : α) : Prop :=
  ∀ d m, Way kids p n d m → kids m = [] → k ≤ d

variable {kids kids' : α → List α} {p p' : α → Prop} {n c m : α} {d k : ℕ}

theorem Way.is_below (h : Way kids p n d m) : Below kids n m := by
  induction h with
  | self => exact ⟨0, .self trivial⟩
  | kid _ hc _ ih =>
    obtain ⟨d, hd⟩ := ih
    exact ⟨d + 1, .kid trivial hc hd⟩

theorem Below.self (n : α) : Below kids n n := ⟨0, .self trivial⟩

theorem Below.kid (hc : c ∈ kids n) (h : Below kids c m) : Below kids n m := by
  obtain ⟨d, hd⟩ := h
  exact ⟨d + 1, .kid trivial hc hd⟩

theorem Below.trans {a : α} (h : Below kids n m) (h' : Below kids m a) : Below kids n a := by
  obtain ⟨d, hd⟩ := h
  induction hd with
  | self => exact h'
  | kid _ hc _ ih => exact (ih h').kid hc

theorem below_iff : Below kids n m ↔ m = n ∨ ∃ c ∈ kids n, Below kids c m := by
  constructor
  · rintro ⟨d, hd⟩
    cases hd with
    | self => exact .inl rfl
    | kid _ hc hd => exact .inr ⟨_, hc, _, hd⟩
  · rintro (rfl | ⟨c, hc, hm⟩)
    · exact .self m
    · exact hm.kid hc

/-- Ways are the same where the lists of the kids and the property are. -/
theorem Way.congr (h : Way kids p n d m) (hk : ∀ a, Below kids n a → kids' a = kids a)
    (hp : ∀ a, Below kids n a → p a → p' a) : Way kids' p' n d m := by
  induction h with
  | self hn => exact .self (hp _ (.self _) hn)
  | @kid n c m d hn hc _ ih =>
    have hc' : c ∈ kids' n := by
      rw [hk n (.self n)]
      exact hc
    exact .kid (hp n (.self n) hn) hc' (ih (fun a ha => hk a (ha.kid hc)) fun a ha => hp a (ha.kid hc))

theorem Below.congr (h : Below kids n m) (hk : ∀ a, Below kids n a → kids' a = kids a) : Below kids' n m := by
  obtain ⟨d, hd⟩ := h
  exact ⟨d, hd.congr hk fun _ _ _ => trivial⟩

/-- Equal lists below `n` are equal lists below `n`, from either side. -/
theorem below_congr (hk : ∀ a, Below kids n a → kids' a = kids a) : Below kids' n m ↔ Below kids n m := by
  refine ⟨fun h => ?_, fun h => h.congr hk⟩
  obtain ⟨d, hd⟩ := h
  induction hd with
  | self => exact .self _
  | @kid n c m d _ hc _ ih =>
    rw [hk n (.self n)] at hc
    exact (ih fun a ha => hk a (ha.kid hc)).kid hc

section
variable (hk : ∀ a, Below kids n a → kids' a = kids a) (hp : ∀ a, Below kids n a → (p' a ↔ p a))
include hk hp

theorem way_congr : Way kids' p' n d m ↔ Way kids p n d m := by
  refine ⟨fun h => h.congr (fun a ha => ?_) fun a ha => ?_, fun h => h.congr hk fun a ha => (hp a ha).mpr⟩
  · exact (hk a ((below_congr hk).mp ha)).symm
  · exact (hp a ((below_congr hk).mp ha)).mp

theorem all_congr : All kids' p' k n ↔ All kids p k n := by
  refine forall_congr' fun d => forall_congr' fun m => ?_
  rw [way_congr (p := fun _ => True) hk fun _ _ => Iff.rfl]
  exact imp_congr_right fun hw => and_congr_right fun _ => hp m hw.is_below

theorem shut_congr : Shut kids' p' k n ↔ Shut kids p k n := by
  refine forall_congr' fun d => forall_congr' fun m => ?_
  rw [way_congr hk hp]
  exact imp_congr_right fun hw => by rw [hk m hw.is_below]

end

/-! ### Level by level -/

theorem not_all_zero : ¬All kids p 0 n := fun h => Nat.not_lt_zero 0 (h 0 n (.self trivial)).1

theorem all_succ : All kids p (k + 1) n ↔ p n ∧ ∀ c ∈ kids n, All kids p k c := by
  constructor
  · refine fun h => ⟨(h 0 n (.self trivial)).2, fun c hc d m hd => ?_⟩
    obtain ⟨hlt, hm⟩ := h (d + 1) m (.kid trivial hc hd)
    exact ⟨Nat.lt_of_succ_lt_succ hlt, hm⟩
  · rintro ⟨hn, hkids⟩ d m hd
    cases hd with
    | self => exact ⟨Nat.succ_pos k, hn⟩
    | kid _ hc hd =>
      obtain ⟨hlt, hm⟩ := hkids _ hc _ _ hd
      exact ⟨Nat.succ_lt_succ hlt, hm⟩

theorem shut_zero : Shut kids p 0 n := fun _ _ _ _ => Nat.zero_le _

theorem shut_succ : Shut kids p (k + 1) n ↔ (p n → kids n ≠ [] ∧ ∀ c ∈ kids n, Shut kids p k c) := by
  constructor
  · refine fun h hn => ⟨fun hnil => ?_, fun c hc d m hd hm => ?_⟩
    · exact absurd (h 0 n (.self hn) hnil) (Nat.not_succ_le_zero k)
    · exact Nat.le_of_succ_le_succ (h (d + 1) m (.kid hn hc hd) hm)
  · rintro h d m hd hm
    cases hd with
    | self hn => exact absurd hm (h hn).1
    | kid hn hc hd => exact Nat.succ_le_succ ((h hn).2 _ hc _ _ hd hm)

/-- A subtree where the property holds everywhere has a way to a leaf. -/
theorem All.not_shut (h : All kids p k n) : ¬Shut kids p k n := by
  induction k generalizing n with
  | zero => exact absurd h not_all_zero
  | succ k ih =>
    obtain ⟨hn, hkids⟩ := all_succ.mp h
    intro hs
    obtain ⟨hne, hshut⟩ := shut_succ.mp hs hn
    obtain ⟨c, hc⟩ := List.exists_mem_of_ne_nil _ hne
    exact ih (hkids c hc) (hshut c hc)

end EwokOS.Schemes
