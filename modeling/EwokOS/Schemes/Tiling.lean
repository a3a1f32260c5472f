import Mathlib.Data.List.Chain
import Mathlib.Data.List.Pairwise
import Mathlib.Data.List.Perm.Basic

/-! Lists of pieces that tile an interval, for any type of pieces.

    A piece covers `[base, base + size)`. Allocators keep their memory as such a list and work on it
    in two ways: a piece is cut in two, or two idle neighbours are joined. Both keep the tiling, and
    joining touches idle pieces only:

        [ a | b | c ]  --join a b-->  [ ab | c ]            cover the same interval

    so whoever holds a busy piece does not notice (`Joins.busy`). -/

namespace EwokOS.Schemes

universe u
variable {ν : Type u}

/-- The pieces of `l` follow each other without gap or overlap, from `b` to `e`. -/
def Tiles (base size : ν → ℕ) : ℕ → List ν → ℕ → Prop
  | b, [], e => b = e
  | b, n :: l, e => base n = b ∧ Tiles base size (b + size n) l e

variable {base size : ν → ℕ} {b e m : ℕ} {l l' l₁ l₂ : List ν} {n : ν}

theorem tiles_append :
    Tiles base size b (l₁ ++ l₂) e ↔ ∃ m, Tiles base size b l₁ m ∧ Tiles base size m l₂ e := by
  induction l₁ generalizing b with
  | nil =>
    constructor
    · exact fun h => ⟨b, rfl, h⟩
    · rintro ⟨m, rfl, h⟩
      exact h
  | cons n l ih =>
    constructor
    · rintro ⟨hn, h⟩
      obtain ⟨m, h₁, h₂⟩ := ih.mp h
      exact ⟨m, ⟨hn, h₁⟩, h₂⟩
    · rintro ⟨m, ⟨hn, h₁⟩, h₂⟩
      exact ⟨hn, ih.mpr ⟨m, h₁, h₂⟩⟩

theorem Tiles.le (h : Tiles base size b l e) : b ≤ e := by
  induction l generalizing b with
  | nil => exact Nat.le_of_eq h
  | cons n l ih => exact (Nat.le_add_right b (size n)).trans (ih h.2)

/-- A piece lies inside what the list tiles. -/
theorem Tiles.inside (h : Tiles base size b l e) (hn : n ∈ l) : b ≤ base n ∧ base n + size n ≤ e := by
  induction l generalizing b with
  | nil => cases hn
  | cons a l ih =>
    obtain ⟨ha, h⟩ := h
    rcases List.mem_cons.mp hn with rfl | hn
    · rw [ha]
      exact ⟨le_rfl, h.le⟩
    · obtain ⟨hb, he⟩ := ih h hn
      exact ⟨(Nat.le_add_right b (size a)).trans hb, he⟩

/-- The pieces cover just what they tile. -/
theorem Tiles.covers (h : Tiles base size b l e) (a : ℕ) :
    (∃ n ∈ l, base n ≤ a ∧ a < base n + size n) ↔ b ≤ a ∧ a < e := by
  induction l generalizing b with
  | nil =>
    cases h
    exact ⟨nofun, fun hb => absurd hb.2 (Nat.not_lt.mpr hb.1)⟩
  | cons n l ih =>
    obtain ⟨hn, h⟩ := h
    have hle := h.le
    rw [List.exists_mem_cons_iff, ih h, hn]
    constructor
    · rintro (⟨h₁, h₂⟩ | ⟨h₁, h₂⟩) <;> omega
    · rintro ⟨h₁, h₂⟩
      omega

/-- Every piece ends before the later ones begin. -/
theorem Tiles.apart (h : Tiles base size b l e) :
    l.Pairwise fun m n => base m + size m ≤ base n := by
  induction l generalizing b with
  | nil => exact .nil
  | cons a l ih =>
    refine .cons (fun n hn => ?_) (ih h.2)
    rw [h.1]
    exact (h.2.inside hn).1

/-- Where the pieces start and end, in units all of them are multiples of. -/
theorem tiles_dvd {k : ℕ} (h : Tiles base size b l e) (hb : k ∣ b) (hl : ∀ n ∈ l, k ∣ size n) :
    k ∣ e := by
  induction l generalizing b with
  | nil => exact h ▸ hb
  | cons a l ih =>
    exact ih h.2 (Nat.dvd_add hb (hl a List.mem_cons_self)) fun n hn =>
      hl n (List.mem_cons_of_mem a hn)

/-- Ranges, given by base and size, that do not touch. -/
def Apart (r t : ℕ × ℕ) : Prop := r.1 + r.2 ≤ t.1 ∨ t.1 + t.2 ≤ r.1

instance (r t : ℕ × ℕ) : Decidable (Apart r t) := inferInstanceAs (Decidable (_ ∨ _))

theorem Apart.symm {r t : ℕ × ℕ} (h : Apart r t) : Apart t r := Or.symm h

/-- Ranges inside two that are apart are apart. -/
theorem Apart.mono {r t r' t' : ℕ × ℕ} (h : Apart r t) (hr : r.1 ≤ r'.1 ∧ r'.1 + r'.2 ≤ r.1 + r.2)
    (ht : t.1 ≤ t'.1 ∧ t'.1 + t'.2 ≤ t.1 + t.2) : Apart r' t' := by
  rcases h with h | h
  · exact .inl (hr.2.trans (h.trans ht.1))
  · exact .inr (ht.2.trans (h.trans hr.1))

/-- Of ranges that are apart in a list, two are the same or apart. -/
theorem same_or_apart {r : ν → ℕ × ℕ} (h : l.Pairwise fun a c => Apart (r a) (r c)) {a c : ν}
    (ha : a ∈ l) (hc : c ∈ l) : a = c ∨ Apart (r a) (r c) := by
  have : Std.Symm fun a c => Apart (r a) (r c) := ⟨fun _ _ h => h.symm⟩
  rcases eq_or_ne a c with rfl | hne
  · exact .inl rfl
  · exact .inr (h.forall ha hc hne)

/-- One piece is replaced by pieces that cover the same. -/
theorem Tiles.replace (h : Tiles base size b (l₁ ++ n :: l₂) e)
    (hl : Tiles base size (base n) l (base n + size n)) : Tiles base size b (l₁ ++ (l ++ l₂)) e := by
  obtain ⟨m, h₁, hn, h₂⟩ := tiles_append.mp h
  refine tiles_append.mpr ⟨m, h₁, tiles_append.mpr ⟨m + size n, ?_, h₂⟩⟩
  rwa [hn] at hl

/-- Where the pieces lie is all that counts. -/
theorem Tiles.map {f : ν → ν} (h : Tiles base size b l e) (hb : ∀ n ∈ l, base (f n) = base n)
    (hs : ∀ n ∈ l, size (f n) = size n) : Tiles base size b (l.map f) e := by
  induction l generalizing b with
  | nil => exact h
  | cons a l ih =>
    refine ⟨(hb a List.mem_cons_self).trans h.1, ?_⟩
    rw [hs a List.mem_cons_self]
    exact ih h.2 (fun n hn => hb n (List.mem_cons_of_mem a hn))
      fun n hn => hs n (List.mem_cons_of_mem a hn)

/-- Where and how long the pieces are is all that counts. -/
theorem Tiles.congr {base' size' : ν → ℕ} (h : Tiles base size b l e)
    (hb : ∀ n ∈ l, base' n = base n) (hs : ∀ n ∈ l, size' n = size n) : Tiles base' size' b l e := by
  induction l generalizing b with
  | nil => exact h
  | cons a l ih =>
    refine ⟨(hb a List.mem_cons_self).trans h.1, ?_⟩
    rw [hs a List.mem_cons_self]
    exact ih h.2 (fun n hn => hb n (List.mem_cons_of_mem a hn))
      fun n hn => hs n (List.mem_cons_of_mem a hn)

/-- There are no more pieces than room for them. -/
theorem Tiles.length_le (h : Tiles base size b l e) (hpos : ∀ n ∈ l, 0 < size n) :
    b + l.length ≤ e := by
  induction l generalizing b with
  | nil => exact Nat.le_of_eq h
  | cons a l ih =>
    have hrest := ih h.2 fun n hn => hpos n (List.mem_cons_of_mem a hn)
    have ha := hpos a List.mem_cons_self
    rw [List.length_cons]
    omega

/-- The first piece that meets `p`, with those before and after it. -/
def cutFirst (p : ν → Bool) : List ν → Option (List ν × ν × List ν)
  | [] => none
  | n :: l => if p n then some ([], n, l) else (cutFirst p l).map fun c => (n :: c.1, c.2)

theorem cutFirst_some {p : ν → Bool} (hc : cutFirst p l = some (l₁, n, l₂)) :
    l = l₁ ++ n :: l₂ ∧ p n = true := by
  induction l generalizing l₁ with
  | nil => cases hc
  | cons x l ih =>
    rw [cutFirst] at hc
    split_ifs at hc with hx
    · cases hc
      exact ⟨rfl, hx⟩
    · obtain ⟨⟨pre, y, post⟩, hcut, he⟩ := Option.map_eq_some_iff.mp hc
      cases he
      obtain ⟨hl, hp⟩ := ih hcut
      exact ⟨by rw [hl]; rfl, hp⟩

theorem cutFirst_none {p : ν → Bool} (hc : cutFirst p l = none) : ∀ x ∈ l, p x = false := by
  induction l with
  | nil => nofun
  | cons x l ih =>
    rw [cutFirst] at hc
    split_ifs at hc with hx
    intro y hy
    rcases List.mem_cons.mp hy with rfl | hy
    · exact Bool.not_eq_true _ ▸ hx
    · exact ih (Option.map_eq_none_iff.mp hc) y hy

/-! ### Joining idle neighbours -/

/-- `l'` is `l` with some idle neighbours joined, any number of times. -/
inductive Joins (base size : ν → ℕ) (idle : ν → Prop) (l : List ν) : List ν → Prop where
  | refl : Joins base size idle l l
  | join {l₁ l₂ : List ν} {a c d : ν} : Joins base size idle l (l₁ ++ a :: c :: l₂) →
      idle a → idle c → idle d → base d = base a → size d = size a + size c →
      Joins base size idle l (l₁ ++ d :: l₂)

namespace Joins
variable {idle : ν → Prop}

theorem trans (h : Joins base size idle l l₁) (h' : Joins base size idle l₁ l₂) :
    Joins base size idle l l₂ := by
  induction h' with
  | refl => exact h
  | join _ ha hc hd hbase hsize ih => exact .join ih ha hc hd hbase hsize

theorem tiles (h : Joins base size idle l l') (ht : Tiles base size b l e) :
    Tiles base size b l' e := by
  induction h with
  | refl => exact ht
  | @join l₁ l₂ a c d _ _ _ _ hbase hsize ih =>
    obtain ⟨m, h₁, ha, -, h₂⟩ := tiles_append.mp ih
    refine tiles_append.mpr ⟨m, h₁, hbase.trans ha, ?_⟩
    rwa [hsize, ← Nat.add_assoc]

/-- Busy pieces are not touched. -/
theorem busy [DecidablePred idle] (h : Joins base size idle l l') :
    l'.filter (fun n => ¬idle n) = l.filter fun n => ¬idle n := by
  induction h with
  | refl => rfl
  | @join l₁ l₂ a c d _ ha hc hd _ _ ih =>
    rw [← ih]
    simp only [List.filter_append, List.filter_cons, ha, hc, hd, not_true_eq_false, decide_false,
      Bool.false_eq_true, if_false]

theorem all {P : ν → Prop} (h : Joins base size idle l l') (hl : ∀ n ∈ l, P n)
    (hj : ∀ a c d, P a → P c → base d = base a → size d = size a + size c → idle d → P d) :
    ∀ n ∈ l', P n := by
  induction h with
  | refl => exact hl
  | @join l₁ l₂ a c d _ _ _ hd hbase hsize ih =>
    have ha := ih a (List.mem_append_right l₁ List.mem_cons_self)
    have hc := ih c (List.mem_append_right l₁ (List.mem_cons_of_mem a List.mem_cons_self))
    intro n hn
    rcases List.mem_append.mp hn with hn | hn
    · exact ih n (List.mem_append_left _ hn)
    · rcases List.mem_cons.mp hn with rfl | hn
      · exact hj a c n ha hc hbase hsize hd
      · exact ih n (List.mem_append_right l₁ (List.mem_cons_of_mem a (List.mem_cons_of_mem c hn)))

theorem ne_nil (h : Joins base size idle l l') (hl : l ≠ []) : l' ≠ [] := by
  cases h with
  | refl => exact hl
  | join => exact List.append_ne_nil_of_right_ne_nil _ (List.cons_ne_nil _ _)

end Joins

/-! ### No two idle neighbours -/

/-- Idle pieces are kept apart. -/
def Sparse (idle : ν → Prop) (l : List ν) : Prop := l.IsChain fun a c => ¬(idle a ∧ idle c)

/-- Two sparse lists fit together when the last piece of one or the first of the other is busy. -/
theorem Sparse.append {idle : ν → Prop} (h₁ : Sparse idle l₁) (h₂ : Sparse idle l₂)
    (h : ∀ a ∈ l₁.getLast?, ∀ c ∈ l₂.head?, ¬(idle a ∧ idle c)) : Sparse idle (l₁ ++ l₂) :=
  List.isChain_append.mpr ⟨h₁, h₂, h⟩

theorem Sparse.cons {idle : ν → Prop} (h : Sparse idle l)
    (hd : ∀ c ∈ l.head?, ¬(idle n ∧ idle c)) : Sparse idle (n :: l) := List.isChain_cons.mpr ⟨hd, h⟩

/-- Busy pieces stay busy. -/
theorem Sparse.mono {idle idle' : ν → Prop} (h : Sparse idle l) (hm : ∀ n ∈ l, idle' n → idle n) :
    Sparse idle' l := by
  induction l with
  | nil => exact List.isChain_nil
  | cons a l ih =>
    obtain ⟨ha, hl⟩ := List.isChain_cons.mp h
    refine Sparse.cons (ih hl fun n hn => hm n (List.mem_cons_of_mem a hn)) fun c hc hac => ?_
    exact ha c hc ⟨hm a List.mem_cons_self hac.1,
      hm c (List.mem_cons_of_mem a (List.mem_of_mem_head? hc)) hac.2⟩

/-- When everything is idle, one piece is all there can be. -/
theorem Sparse.single {idle : ν → Prop} (h : Sparse idle l) (hl : ∀ n ∈ l, idle n) (hne : l ≠ []) :
    ∃ n, l = [n] := by
  match l with
  | [] => exact absurd rfl hne
  | [n] => exact ⟨n, rfl⟩
  | a :: c :: l =>
    have hac := (List.isChain_cons_cons.mp h).1
    exact absurd ⟨hl a List.mem_cons_self, hl c (List.mem_cons_of_mem a List.mem_cons_self)⟩ hac

end EwokOS.Schemes
