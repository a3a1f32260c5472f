import Mathlib.Data.List.Basic
import Mathlib.Data.List.Nodup
import Mathlib.Data.List.Pairwise
import Mathlib.Data.List.Perm.Basic

/-! Trees of numbered blocks, in which a block holds the numbers of its children.

    `ptr b i` is entry `i` of block `b`, and 0 stands for no block. A tree of depth `d` below a block
    has `d` levels of entries and the leaves:

        tree 2 b:      b
                    /  |  \
                  x    0    y          x = ptr b 0, y = ptr b 2
                / | \     / | \
               .  .  .   .  .  .       leaves

    A tree is made of the entries of its own blocks, so that a change elsewhere leaves it alone
    (`tree_congr`), and a new child adds itself to it (`tree_insert`). -/

namespace EwokOS.Schemes

/-- The blocks of the tree of depth `d` below `b`, with `e` entries in a block. -/
def tree (e : ℕ) (ptr : ℕ → ℕ → ℕ) : ℕ → ℕ → List ℕ
  | 0, b => if b = 0 then [] else [b]
  | d + 1, b => if b = 0 then [] else b :: (List.range e).flatMap fun i => tree e ptr d (ptr b i)

/-- The blocks of it that hold entries. -/
def inner (e : ℕ) (ptr : ℕ → ℕ → ℕ) : ℕ → ℕ → List ℕ
  | 0, _ => []
  | d + 1, b => if b = 0 then [] else b :: (List.range e).flatMap fun i => inner e ptr d (ptr b i)

/-- The blocks of it that hold none. -/
def leaves (e : ℕ) (ptr : ℕ → ℕ → ℕ) : ℕ → ℕ → List ℕ
  | 0, b => if b = 0 then [] else [b]
  | d + 1, b => if b = 0 then [] else (List.range e).flatMap fun i => leaves e ptr d (ptr b i)

/-- The block at the end of a path of entries; 0 where one on the way is missing. -/
def follow (ptr : ℕ → ℕ → ℕ) : ℕ → List ℕ → ℕ
  | b, [] => b
  | b, i :: path => if b = 0 then 0 else follow ptr (ptr b i) path

/-- The blocks with entries on a path. -/
def passed (ptr : ℕ → ℕ → ℕ) : ℕ → List ℕ → List ℕ
  | _, [] => []
  | b, i :: path => if b = 0 then [] else b :: passed ptr (ptr b i) path

section
variable {e d b c i : ℕ} {ptr ptr' : ℕ → ℕ → ℕ}

@[simp] theorem tree_none (d : ℕ) : tree e ptr d 0 = [] := by
  cases d <;> rfl

theorem tree_leaf (h : b ≠ 0) : tree e ptr 0 b = [b] := if_neg h

theorem tree_node (h : b ≠ 0) :
    tree e ptr (d + 1) b = b :: (List.range e).flatMap fun i => tree e ptr d (ptr b i) := if_neg h

theorem root_mem_tree (h : b ≠ 0) : b ∈ tree e ptr d b := by
  cases d with
  | zero =>
    rw [tree_leaf h]
    exact List.mem_cons_self
  | succ d =>
    rw [tree_node h]
    exact List.mem_cons_self

theorem tree_child_subset (hb : b ≠ 0) (hi : i < e) (h : c ∈ tree e ptr d (ptr b i)) :
    c ∈ tree e ptr (d + 1) b := by
  rw [tree_node hb]
  exact List.mem_cons_of_mem b (List.mem_flatMap.mpr ⟨i, List.mem_range.mpr hi, h⟩)

theorem inner_node (h : b ≠ 0) :
    inner e ptr (d + 1) b = b :: (List.range e).flatMap fun i => inner e ptr d (ptr b i) := if_neg h

theorem leaves_node (h : b ≠ 0) :
    leaves e ptr (d + 1) b = (List.range e).flatMap fun i => leaves e ptr d (ptr b i) := if_neg h

@[simp] theorem inner_none (d : ℕ) : inner e ptr d 0 = [] := by
  cases d <;> rfl

@[simp] theorem leaves_none (d : ℕ) : leaves e ptr d 0 = [] := by
  cases d <;> rfl

/-- A tree is its blocks with entries and those without. -/
theorem tree_perm_inner : (tree e ptr d b).Perm (inner e ptr d b ++ leaves e ptr d b) := by
  induction d generalizing b with
  | zero => exact .refl _
  | succ d ih =>
    by_cases hb : b = 0
    · rw [hb, tree_none, inner_none, leaves_none]
      exact .refl _
    · rw [tree_node hb, inner_node hb, leaves_node hb, List.cons_append]
      refine List.Perm.cons b ?_
      refine (List.Perm.flatMap_left _ fun i _ => ih).trans ?_
      exact List.flatMap_append_perm _ _ _ |>.symm

theorem inner_subset (h : c ∈ inner e ptr d b) : c ∈ tree e ptr d b :=
  tree_perm_inner.mem_iff.mpr (List.mem_append_left _ h)

theorem leaves_subset (h : c ∈ leaves e ptr d b) : c ∈ tree e ptr d b :=
  tree_perm_inner.mem_iff.mpr (List.mem_append_right _ h)

/-- A tree depends on the entries of its own blocks only. -/
theorem tree_congr (h : ∀ x ∈ inner e ptr d b, ∀ i < e, ptr' x i = ptr x i) :
    tree e ptr' d b = tree e ptr d b := by
  induction d generalizing b with
  | zero => rfl
  | succ d ih =>
    by_cases hb : b = 0
    · rw [hb, tree_none, tree_none]
    · rw [tree_node hb, tree_node hb]
      rw [inner_node hb] at h
      congr 1
      refine List.flatMap_congr fun i hi => ?_
      have hi' := List.mem_range.mp hi
      rw [h b List.mem_cons_self i hi']
      exact ih fun x hx => h x (List.mem_cons_of_mem b (List.mem_flatMap.mpr ⟨i, hi, hx⟩))

/-- A block without entries is a tree of its own. -/
theorem tree_blank (hb : b ≠ 0) (h : ∀ i < e, ptr b i = 0) : tree e ptr d b = [b] := by
  cases d with
  | zero => exact tree_leaf hb
  | succ d =>
    rw [tree_node hb]
    congr 1
    refine List.flatMap_eq_nil_iff.mpr fun i hi => ?_
    rw [h i (List.mem_range.mp hi), tree_none]

/-! ### Trees in which no block occurs twice -/

theorem root_not_mem_child (h : (tree e ptr (d + 1) b).Nodup) (hb : b ≠ 0) (hi : i < e) :
    b ∉ tree e ptr d (ptr b i) := by
  rw [tree_node hb] at h
  exact fun hm => (List.nodup_cons.mp h).1 (List.mem_flatMap.mpr ⟨i, List.mem_range.mpr hi, hm⟩)

/-- One list of many gets longer. -/
theorem flatMap_perm {f f' : ℕ → List ℕ} {l : List ℕ} {x : List ℕ} (hl : l.Nodup) (hi : i ∈ l)
    (h : (f' i).Perm (x ++ f i)) (hne : ∀ j ∈ l, j ≠ i → f' j = f j) :
    (l.flatMap f').Perm (x ++ l.flatMap f) := by
  induction l with
  | nil => cases hi
  | cons j l ih =>
    obtain ⟨hj, hl⟩ := List.nodup_cons.mp hl
    rw [List.flatMap_cons, List.flatMap_cons]
    rcases List.mem_cons.mp hi with rfl | hi
    · have hrest : l.flatMap f' = l.flatMap f := List.flatMap_congr fun k hk =>
        hne k (List.mem_cons_of_mem _ hk) fun he => hj (he ▸ hk)
      rw [hrest, ← List.append_assoc]
      exact h.append_right _
    · rw [hne j List.mem_cons_self fun he => hj (he ▸ hi)]
      refine ((ih hl hi fun k hk => hne k (List.mem_cons_of_mem j hk)).append_left (f j)).trans ?_
      rw [← List.append_assoc, ← List.append_assoc]
      exact List.perm_append_comm.append_right _

/-- A change below one child. -/
theorem tree_perm (hb : b ≠ 0) (hi : i < e) {x : List ℕ}
    (hroot : ∀ j < e, j ≠ i → ptr' b j = ptr b j)
    (hx : (tree e ptr' d (ptr' b i)).Perm (x ++ tree e ptr d (ptr b i)))
    (hrest : ∀ j < e, j ≠ i → ∀ c ∈ inner e ptr d (ptr b j), ∀ k < e, ptr' c k = ptr c k) :
    (tree e ptr' (d + 1) b).Perm (x ++ tree e ptr (d + 1) b) := by
  rw [tree_node hb, tree_node hb]
  refine ((flatMap_perm List.nodup_range (List.mem_range.mpr hi) hx fun j hj hji => ?_).cons b).trans
    List.perm_middle.symm
  rw [List.mem_range] at hj
  rw [hroot j hj hji]
  exact tree_congr fun c hc k hk => hrest j hj hji c hc k hk

/-- A block and what lies below its other entries. -/
def beside (e : ℕ) (ptr : ℕ → ℕ → ℕ) (d b i : ℕ) : List ℕ :=
  b :: ((List.range e).erase i).flatMap fun j => tree e ptr d (ptr b j)

/-- A tree is what lies below one entry and the rest. -/
theorem tree_perm_beside (hb : b ≠ 0) (hi : i < e) :
    (tree e ptr (d + 1) b).Perm (tree e ptr d (ptr b i) ++ beside e ptr d b i) := by
  rw [tree_node hb, beside]
  refine List.Perm.trans (List.Perm.cons b ?_) List.perm_middle.symm
  exact (List.perm_cons_erase (List.mem_range.mpr hi)).flatMap_right fun j => tree e ptr d (ptr b j)

theorem beside_congr (h : ∀ x ∈ beside e ptr d b i, ∀ j < e, ptr' x j = ptr x j) :
    beside e ptr' d b i = beside e ptr d b i := by
  rw [beside, beside]
  congr 1
  refine List.flatMap_congr fun j hj => ?_
  have hj' := List.mem_range.mp (List.mem_of_mem_erase hj)
  rw [h b List.mem_cons_self j hj']
  exact tree_congr fun x hx => h x (List.mem_cons_of_mem b (List.mem_flatMap.mpr ⟨j, hj, inner_subset hx⟩))

/-! ### Paths -/

@[simp] theorem follow_none (path : List ℕ) : follow ptr 0 path = 0 := by
  cases path with
  | nil => rfl
  | cons i path => exact if_pos rfl

theorem follow_cons (hb : b ≠ 0) (path : List ℕ) : follow ptr b (i :: path) = follow ptr (ptr b i) path :=
  if_neg hb

/-- What a path leads to depends on the entries of the blocks on it. -/
theorem follow_congr {path : List ℕ} (hpath : ∀ i ∈ path, i < e)
    (h : ∀ x ∈ inner e ptr path.length b, ∀ i < e, ptr' x i = ptr x i) :
    follow ptr' b path = follow ptr b path := by
  induction path generalizing b with
  | nil => rfl
  | cons i path ih =>
    by_cases hb : b = 0
    · rw [hb, follow_none, follow_none]
    · have hi := hpath i List.mem_cons_self
      rw [List.length_cons, inner_node hb] at h
      rw [follow_cons hb, follow_cons hb, h b List.mem_cons_self i hi]
      refine ih (fun j hj => hpath j (List.mem_cons_of_mem i hj)) fun x hx => h x (List.mem_cons_of_mem b ?_)
      exact List.mem_flatMap.mpr ⟨i, List.mem_range.mpr hi, hx⟩

/-- The leaves are what the paths lead to. -/
theorem mem_leaves : c ∈ leaves e ptr d b ↔
    c ≠ 0 ∧ ∃ path : List ℕ, path.length = d ∧ (∀ i ∈ path, i < e) ∧ follow ptr b path = c := by
  induction d generalizing b with
  | zero =>
    constructor
    · intro h
      rw [leaves] at h
      split_ifs at h with hb
      · cases h
      · rw [List.mem_singleton] at h
        exact ⟨h ▸ hb, [], rfl, nofun, h.symm⟩
    · rintro ⟨hc, path, hlen, -, hf⟩
      rw [List.length_eq_zero_iff.mp hlen, follow] at hf
      rw [leaves, if_neg (hf ▸ hc), hf]
      exact List.mem_singleton_self c
  | succ d ih =>
    by_cases hb : b = 0
    · rw [hb, leaves_none]
      refine ⟨nofun, ?_⟩
      rintro ⟨hc, path, -, -, hf⟩
      exact absurd (hf.symm.trans (follow_none path)) hc
    · rw [leaves_node hb, List.mem_flatMap]
      constructor
      · rintro ⟨i, hi, hc⟩
        obtain ⟨hc, path, hlen, hpath, hf⟩ := ih.mp hc
        refine ⟨hc, i :: path, by rw [List.length_cons, hlen], ?_, by rw [follow_cons hb, hf]⟩
        exact List.forall_mem_cons.mpr ⟨List.mem_range.mp hi, hpath⟩
      · rintro ⟨hc, path, hlen, hpath, hf⟩
        obtain ⟨i, path, rfl⟩ := List.exists_cons_of_length_eq_add_one hlen
        obtain ⟨hi, hpath⟩ := List.forall_mem_cons.mp hpath
        rw [follow_cons hb] at hf
        exact ⟨i, List.mem_range.mpr hi, ih.mpr ⟨hc, path, Nat.succ.inj hlen, hpath, hf⟩⟩

/-- The blocks with entries are those on the paths. -/
theorem mem_inner (he : 0 < e) : c ∈ inner e ptr d b ↔
    ∃ path : List ℕ, path.length = d ∧ (∀ i ∈ path, i < e) ∧ c ∈ passed ptr b path := by
  induction d generalizing b with
  | zero =>
    refine ⟨nofun, ?_⟩
    rintro ⟨path, hlen, -, hc⟩
    rw [List.length_eq_zero_iff.mp hlen] at hc
    cases hc
  | succ d ih =>
    by_cases hb : b = 0
    · rw [hb, inner_none]
      refine ⟨nofun, ?_⟩
      rintro ⟨path, -, -, hc⟩
      cases path <;> cases hc
    · rw [inner_node hb, List.mem_cons, List.mem_flatMap]
      constructor
      · rintro (rfl | ⟨i, hi, hc⟩)
        · refine ⟨List.replicate (d + 1) 0, List.length_replicate, fun i hi => ?_, ?_⟩
          · rwa [List.eq_of_mem_replicate hi]
          · rw [List.replicate_succ, passed, if_neg hb]
            exact List.mem_cons_self
        · obtain ⟨path, hlen, hpath, hc⟩ := ih.mp hc
          refine ⟨i :: path, by rw [List.length_cons, hlen], ?_, ?_⟩
          · exact List.forall_mem_cons.mpr ⟨List.mem_range.mp hi, hpath⟩
          · rw [passed, if_neg hb]
            exact List.mem_cons_of_mem b hc
      · rintro ⟨path, hlen, hpath, hc⟩
        obtain ⟨i, path, rfl⟩ := List.exists_cons_of_length_eq_add_one hlen
        obtain ⟨hi, hpath⟩ := List.forall_mem_cons.mp hpath
        rw [passed, if_neg hb, List.mem_cons] at hc
        exact hc.imp_right fun hc => ⟨i, List.mem_range.mpr hi, ih.mpr ⟨path, Nat.succ.inj hlen, hpath, hc⟩⟩

end

end EwokOS.Schemes
