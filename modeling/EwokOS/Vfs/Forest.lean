import EwokOS.Schemes.Linked
import EwokOS.Schemes.Parent
import EwokOS.Vfs.Steady

/-! The nodes of `vfsd` as a forest.

    `Forest K s` says that the lists `K n` are the kids of the nodes: linked both ways, counted, and each
    kid names its father. A node that is in no list either has no father or is loose; every pointer to a
    father leads to a node, and following them comes to an end.

    The list surgery of `vfs_add_node`, `vfs_remove` and `vfsd_del_node` is given in closed form first:
    what it does to each field of each node. -/

namespace EwokOS.Vfs

open Schemes Vfsd

/-- The node above. -/
def up (s : Vfsd) (n : ℕ) : Option ℕ :=
  match s.node n with
  | none => none
  | some x => if x.father = 0 then none else some x.father

def nextOf (s : Vfsd) (n : ℕ) : ℕ := (s.node n).elim 0 Node.next

def prevOf (s : Vfsd) (n : ℕ) : ℕ := (s.node n).elim 0 Node.prev

theorem up_eq {s : Vfsd} {n : ℕ} {x : Node} (hx : s.node n = some x) (hf : x.father ≠ 0) :
    up s n = some x.father := by
  simp only [up, hx, if_neg hf]

structure Forest (K : ℕ → List ℕ) (s : Vfsd) : Prop where
  null : s.node 0 = none
  dead : ∀ n, s.node n = none → K n = []
  linked : ∀ n, Linked (nextOf s) (prevOf s) 0 (K n) 0
  head : ∀ n x, s.node n = some x → x.first = (K n).headD 0 ∧ x.last = (K n).getLastD 0 ∧ x.kids = (K n).length
  nodup : ∀ n, (K n).Nodup
  kid : ∀ n c, c ∈ K n → ∃ y, s.node c = some y ∧ y.father = n ∧ y.loose = false
  mem : ∀ n x, s.node n = some x → x.father ≠ 0 → x.loose = false → n ∈ K x.father
  alone : ∀ n x, s.node n = some x → x.father = 0 ∨ x.loose = true → x.next = 0 ∧ x.prev = 0
  father : ∀ n x, s.node n = some x → x.father ≠ 0 → ∃ y, s.node x.father = some y
  loose : ∀ n x, s.node n = some x → x.loose = true → x.father ≠ 0
  ends : ∀ n, Ends (up s) n
  root : ∃ x, s.node s.root = some x
  count : ∃ l : List ℕ, l.Nodup ∧ (∀ n, n ∈ l ↔ (s.node n).isSome = true) ∧ l.length = s.count

/-! ### Closed forms -/

section
variable (s : Vfsd)

theorem modify_node (a : ℕ) (f : Node → Node) (m : ℕ) :
    (s.modify a f).node m = (s.node m).map fun y => if m = a then f y else y := by
  rcases eq_or_ne m a with rfl | hm
  · simp
  · rw [modify_ne _ _ _ hm]
    simp [hm]

/-- What taking `n` out does to a node `m`. -/
def unlinked (n : ℕ) (x : Node) (m : ℕ) (y : Node) : Node :=
  { y with
    first := if m = x.father ∧ y.first = n then x.next else y.first
    last := if m = x.father ∧ y.last = n then x.prev else y.last
    kids := if m = x.father then y.kids - 1 else y.kids
    prev := if m = x.next then x.prev else y.prev
    next := if m = x.prev then x.next else y.next }

theorem unlink_node {n : ℕ} {x : Node} (hx : s.node n = some x) (m : ℕ) :
    (s.unlink n).node m = (s.node m).map (unlinked n x m) := by
  unfold unlink
  rw [hx]
  dsimp only
  rw [modify_node, modify_node, modify_node]
  cases s.node m with
  | none => rfl
  | some y =>
    simp only [Option.map_some, unlinked, Option.some.injEq]
    split_ifs <;> simp_all

/-- What putting `n` at the end of the list of `f` does to a node `m`. -/
def linkedTo (f : ℕ) (fx : Node) (n m : ℕ) (y : Node) : Node :=
  { y with
    father := if m = n then f else y.father
    loose := if m = n then false else y.loose
    first := if m = f ∧ fx.last = 0 then n else y.first
    last := if m = f then n else y.last
    kids := if m = f then y.kids + 1 else y.kids
    next := if m = fx.last ∧ fx.last ≠ 0 then n else y.next
    prev := if m = n ∧ fx.last ≠ 0 then fx.last else y.prev }

theorem addNode_frame (f n : ℕ) :
    (s.addNode f n).mnt = s.mnt ∧ (s.addNode f n).root = s.root ∧ (s.addNode f n).count = s.count := by
  unfold Vfsd.addNode
  dsimp only
  split
  · exact ⟨rfl, rfl, rfl⟩
  · split <;> exact ⟨rfl, rfl, rfl⟩

theorem addNode_node {f n : ℕ} {fx : Node} (hf : s.node f = some fx) (m : ℕ) :
    (s.addNode f n).node m = (s.node m).map (linkedTo f fx n m) := by
  have hlast : ∃ fy, (s.modify n fun x => { x with father := f, loose := false }).node f = some fy ∧
      fy.last = fx.last := by
    rw [modify_node, hf]
    refine ⟨_, rfl, ?_⟩
    split <;> rfl
  obtain ⟨fy, hfy, hl⟩ := hlast
  unfold addNode
  dsimp only
  rw [hfy]
  dsimp only
  rw [hl]
  split
  · rename_i h0
    rw [modify_node, modify_node, modify_node]
    cases s.node m with
    | none => rfl
    | some y =>
      simp only [Option.map_some, linkedTo, Option.some.injEq]
      split_ifs <;> simp_all
  · rename_i h0
    rw [modify_node, modify_node, modify_node, modify_node]
    cases s.node m with
    | none => rfl
    | some y =>
      simp only [Option.map_some, linkedTo, Option.some.injEq]
      split_ifs <;> simp_all

end

/-! ### The lists alone -/

/-- The lists `K n` are linked both ways and each kid in them names its father; what is in no list is
    linked to nothing. Where else the pointers to a father lead is left open. -/
structure Trees (K : ℕ → List ℕ) (s : Vfsd) : Prop where
  null : s.node 0 = none
  dead : ∀ n, s.node n = none → K n = []
  linked : ∀ n, Linked (nextOf s) (prevOf s) 0 (K n) 0
  head : ∀ n x, s.node n = some x → x.first = (K n).headD 0 ∧ x.last = (K n).getLastD 0
  nodup : ∀ n, (K n).Nodup
  kid : ∀ n c, c ∈ K n → ∃ y, s.node c = some y ∧ y.father = n
  alone : ∀ n x, s.node n = some x → n ∉ K x.father → x.next = 0 ∧ x.prev = 0
  ends : ∀ n, Ends (up s) n
  count : ∃ l : List ℕ, l.Nodup ∧ (∀ n, n ∈ l ↔ (s.node n).isSome = true) ∧ l.length = s.count

namespace Trees
variable {K : ℕ → List ℕ} {s t : Vfsd} (h : Trees K s) {n : ℕ} {x : Node}
include h

theorem kid_ne {m c : ℕ} (hc : c ∈ K m) : c ≠ 0 := by
  rintro rfl
  obtain ⟨y, hy, -⟩ := h.kid m 0 hc
  rw [h.null] at hy
  cases hy

/-- A node is in one list. -/
theorem kid_unique {m m' c : ℕ} (hc : c ∈ K m) (hc' : c ∈ K m') : m = m' := by
  obtain ⟨y, hy, hf⟩ := h.kid m c hc
  obtain ⟨y', hy', hf'⟩ := h.kid m' c hc'
  rw [hy] at hy'
  cases hy'
  exact hf.symm.trans hf'

variable (hx : s.node n = some x)
include hx

/-- The place of a node in its list. -/
theorem split_at (hn : n ∈ K x.father) : ∃ l₁ l₂, K x.father = l₁ ++ n :: l₂ ∧
    n ∉ l₁ ∧ n ∉ l₂ ∧ x.prev = l₁.getLastD 0 ∧ x.next = l₂.headD 0 := by
  obtain ⟨l₁, l₂, hK⟩ := List.append_of_mem hn
  have hnd := h.nodup x.father
  have hlk := h.linked x.father
  rw [hK] at hnd hlk
  obtain ⟨-, hnd₂, hdis⟩ := List.nodup_append.mp hnd
  obtain ⟨-, hprev, hnext, -⟩ := linked_append.mp hlk
  simp only [prevOf, nextOf, hx, Option.elim] at hprev hnext
  exact ⟨l₁, l₂, hK, fun hm => hdis n hm n List.mem_cons_self rfl, (List.nodup_cons.mp hnd₂).1, hprev, hnext⟩

/-- The lists when `n` has been taken out of its own, whatever becomes of `n` itself. -/
theorem unlink_lists (hn : n ∈ K x.father) (ht : ∀ m, m ≠ n → t.node m = (s.node m).map (unlinked n x m)) :
    (∀ m, Linked (nextOf t) (prevOf t) 0 (Function.update K x.father ((K x.father).erase n) m) 0) ∧
    ∀ m y, m ≠ n → t.node m = some y →
      y.first = (Function.update K x.father ((K x.father).erase n) m).headD 0 ∧
      y.last = (Function.update K x.father ((K x.father).erase n) m).getLastD 0 := by
  obtain ⟨l₁, l₂, hK, hn₁, hn₂, hprev, hnext⟩ := h.split_at hx hn
  have herase : (K x.father).erase n = l₁ ++ l₂ := by
    rw [hK, List.erase_append_right _ hn₁, List.erase_cons_head]
  have hnd := h.nodup x.father
  rw [hK] at hnd
  have hout : 0 ∉ l₁ ++ n :: l₂ := fun h0 => h.kid_ne (hK ▸ h0) rfl
  -- what the neighbours of `n` are
  have hprev_mem : x.prev = 0 ∨ x.prev ∈ K x.father := by
    rw [hprev, hK]
    rcases List.eq_nil_or_concat l₁ with rfl | ⟨l, d, rfl⟩
    · exact .inl rfl
    · right
      rw [List.concat_eq_append, getLastD_append_cons]
      simp
  have hnext_mem : x.next = 0 ∨ x.next ∈ K x.father := by
    rw [hnext, hK]
    cases l₂ with
    | nil => exact .inl rfl
    | cons d l => exact .inr (by simp)
  have hnextOf : ∀ m c, c ∈ K m → c ≠ n → nextOf t c = if c = x.prev then x.next else nextOf s c := by
    intro m c hc hcn
    obtain ⟨y, hy, -⟩ := h.kid m c hc
    simp only [nextOf, ht c hcn, hy, Option.map_some, Option.elim, unlinked]
  have hprevOf : ∀ m c, c ∈ K m → c ≠ n → prevOf t c = if c = x.next then x.prev else prevOf s c := by
    intro m c hc hcn
    obtain ⟨y, hy, -⟩ := h.kid m c hc
    simp only [prevOf, ht c hcn, hy, Option.map_some, Option.elim, unlinked]
  refine ⟨fun m => ?_, fun m y hm hy => ?_⟩
  · rcases eq_or_ne m x.father with rfl | hmf
    · rw [Function.update_self, herase]
      have hin : ∀ c ∈ l₁ ++ l₂, c ∈ K x.father ∧ c ≠ n := by
        intro c hc
        rw [hK]
        rcases List.mem_append.mp hc with hc | hc
        · exact ⟨List.mem_append_left _ hc, fun he => hn₁ (he ▸ hc)⟩
        · exact ⟨List.mem_append_right _ (List.mem_cons_of_mem n hc), fun he => hn₂ (he ▸ hc)⟩
      refine (hK ▸ h.linked x.father : Linked (nextOf s) (prevOf s) 0 (l₁ ++ n :: l₂) 0).cut hnd hout ?_ ?_
      · intro c hc
        rw [hnextOf _ c (hin c hc).1 (hin c hc).2, hprev, hnext]
      · intro c hc
        rw [hprevOf _ c (hin c hc).1 (hin c hc).2, hprev, hnext]
    · rw [Function.update_of_ne hmf]
      -- a kid of another node is neither `n` nor a neighbour of `n`
      have hfar : ∀ c ∈ K m, c ≠ n ∧ c ≠ x.prev ∧ c ≠ x.next := by
        intro c hc
        refine ⟨?_, ?_, ?_⟩
        · rintro rfl
          exact hmf (h.kid_unique hc hn)
        · rintro rfl
          exact hprev_mem.elim (h.kid_ne hc) fun h' => hmf (h.kid_unique hc h')
        · rintro rfl
          exact hnext_mem.elim (h.kid_ne hc) fun h' => hmf (h.kid_unique hc h')
      refine (h.linked m).congr (fun c hc => ?_) fun c hc => ?_
      · rw [hnextOf m c hc (hfar c hc).1, if_neg (hfar c hc).2.1]
      · rw [hprevOf m c hc (hfar c hc).1, if_neg (hfar c hc).2.2]
  · rw [ht m hm] at hy
    obtain ⟨z, hz, rfl⟩ := Option.map_eq_some_iff.mp hy
    obtain ⟨h₁, h₂⟩ := h.head m z hz
    rcases eq_or_ne m x.father with hmf | hmf
    · rw [hmf, Function.update_self, herase]
      rw [hmf, hK] at h₁ h₂
      simp only [unlinked, true_and]
      refine ⟨?_, ?_⟩
      · rw [h₁, hnext]
        cases l₁ with
        | nil => simp
        | cons d l =>
          have hd : d ≠ n := fun he => hn₁ (he ▸ List.mem_cons_self)
          simp [hd]
      · rw [h₂, hprev, getLastD_append_cons]
        rcases List.eq_nil_or_concat l₂ with rfl | ⟨l, d, rfl⟩
        · simp
        · have hd : d ≠ n := fun he => hn₂ (by simp [he])
          rw [List.concat_eq_append, ← List.append_assoc, getLastD_append_cons, getLastD_append_cons]
          simp [hd]
    · rw [Function.update_of_ne hmf]
      simp only [unlinked, hmf, false_and, if_false]
      exact ⟨h₁, h₂⟩

/-- The same for any node: one that is in no list is linked to nothing. -/
theorem unlink_any (ht : ∀ m, m ≠ n → t.node m = (s.node m).map (unlinked n x m)) :
    (∀ m, Linked (nextOf t) (prevOf t) 0 (Function.update K x.father ((K x.father).erase n) m) 0) ∧
    ∀ m y, m ≠ n → t.node m = some y →
      y.first = (Function.update K x.father ((K x.father).erase n) m).headD 0 ∧
      y.last = (Function.update K x.father ((K x.father).erase n) m).getLastD 0 := by
  by_cases hn : n ∈ K x.father
  · exact h.unlink_lists hx hn ht
  · obtain ⟨hnext, hprev⟩ := h.alone n x hx hn
    rw [List.erase_of_not_mem hn, Function.update_eq_self]
    have hout : ∀ m c, c ∈ K m → c ≠ n := by
      rintro m c hc rfl
      obtain ⟨y, hy, rfl⟩ := h.kid m c hc
      rw [hx] at hy
      cases hy
      exact hn hc
    have hlinks : ∀ m y, m ≠ n → s.node m = some y →
        ∃ z, t.node m = some z ∧ z.next = y.next ∧ z.prev = y.prev ∧ z.first = y.first ∧ z.last = y.last := by
      intro m y hm hy
      have hm0 : m ≠ 0 := by
        rintro rfl
        rw [h.null] at hy
        cases hy
      have hfirst : m = x.father → y.first ≠ n ∧ y.last ≠ n := by
        rintro rfl
        obtain ⟨h₁, h₂⟩ := h.head _ y hy
        have hn0 : n ≠ 0 := by
          rintro rfl
          rw [h.null] at hx
          cases hx
        refine ⟨fun he => ?_, fun he => ?_⟩
        · rw [h₁] at he
          cases hK : K x.father with
          | nil =>
            rw [hK] at he
            exact hn0 he.symm
          | cons d l =>
            rw [hK] at he hn
            exact hn (he ▸ List.mem_cons_self)
        · rw [h₂] at he
          rcases List.eq_nil_or_concat (K x.father) with hK | ⟨l, d, hK⟩
          · rw [hK] at he
            exact hn0 he.symm
          · rw [hK, List.concat_eq_append, getLastD_append_cons] at he
            rw [hK, List.concat_eq_append] at hn
            exact hn (he ▸ by simp)
      refine ⟨_, by rw [ht m hm, hy]; rfl, ?_, ?_, ?_, ?_⟩
      · simp only [unlinked, hprev, hm0, if_false]
      · simp only [unlinked, hnext, hm0, if_false]
      · simp only [unlinked]
        exact if_neg fun he => (hfirst he.1).1 he.2
      · simp only [unlinked]
        exact if_neg fun he => (hfirst he.1).2 he.2
    refine ⟨fun m => (h.linked m).congr (fun c hc => ?_) fun c hc => ?_, fun m y hm hy => ?_⟩
    · obtain ⟨y, hy, -⟩ := h.kid m c hc
      obtain ⟨z, hz, hzn, -⟩ := hlinks c y (hout m c hc) hy
      simp only [nextOf, hz, hy, Option.elim, hzn]
    · obtain ⟨y, hy, -⟩ := h.kid m c hc
      obtain ⟨z, hz, -, hzp, -⟩ := hlinks c y (hout m c hc) hy
      simp only [prevOf, hz, hy, Option.elim, hzp]
    · have hsome : ∃ z, s.node m = some z := by
        rw [ht m hm] at hy
        obtain ⟨z, hz, -⟩ := Option.map_eq_some_iff.mp hy
        exact ⟨z, hz⟩
      obtain ⟨z, hz⟩ := hsome
      obtain ⟨w, hw, -, -, hfirst, hlast⟩ := hlinks m z hm hz
      rw [hy] at hw
      cases hw
      rw [hfirst, hlast]
      exact h.head m z hz

end Trees

/-! ### Writes that keep the links -/

/-- The fields the forest is made of. -/
def shape (x : Node) : ℕ × ℕ × ℕ × ℕ × ℕ × ℤ × Bool :=
  (x.father, x.first, x.last, x.next, x.prev, x.kids, x.loose)

namespace Forest
variable {K : ℕ → List ℕ} {s t : Vfsd}

theorem congr (h : Forest K s) (hn : ∀ m, (t.node m).map shape = (s.node m).map shape)
    (hr : ∃ x, t.node t.root = some x) (hc : t.count = s.count) : Forest K t := by
  have hback : ∀ m y, t.node m = some y → ∃ x, s.node m = some x ∧ shape x = shape y := by
    intro m y hy
    have hm := hn m
    rw [hy] at hm
    obtain ⟨x, hx, he⟩ := Option.map_eq_some_iff.mp hm.symm
    exact ⟨x, hx, he⟩
  have hforth : ∀ m x, s.node m = some x → ∃ y, t.node m = some y ∧ shape y = shape x := by
    intro m x hx
    have hm := hn m
    rw [hx] at hm
    obtain ⟨y, hy, he⟩ := Option.map_eq_some_iff.mp hm
    exact ⟨y, hy, he⟩
  have hnone : ∀ m, t.node m = none ↔ s.node m = none := by
    intro m
    rw [← Option.map_eq_none_iff (f := shape), hn m, Option.map_eq_none_iff]
  have hnext : nextOf t = nextOf s ∧ prevOf t = prevOf s ∧ up t = up s := by
    refine ⟨funext fun m => ?_, funext fun m => ?_, funext fun m => ?_⟩
    all_goals
      cases hx : s.node m with
      | none => simp only [nextOf, prevOf, up, hx, (hnone m).mpr hx, Option.elim]
      | some x =>
        obtain ⟨y, hy, he⟩ := hforth m x hx
        simp only [shape, Prod.mk.injEq] at he
        simp only [nextOf, prevOf, up, hx, hy, Option.elim, he]
  refine ⟨(hnone 0).mpr h.null, fun m hm => h.dead m ((hnone m).mp hm), ?linked, ?head, h.nodup, ?kid, ?mem,
    ?alone, ?father, ?loose, ?ends, hr, ?count⟩
  case linked =>
    rw [hnext.1, hnext.2.1]
    exact h.linked
  case head =>
    intro m y hy
    obtain ⟨x, hx, he⟩ := hback m y hy
    simp only [shape, Prod.mk.injEq] at he
    have hh := h.head m x hx
    rw [he.2.1, he.2.2.1, he.2.2.2.2.2.1] at hh
    exact hh
  case kid =>
    intro m c hcm
    obtain ⟨x, hx, hf, hl⟩ := h.kid m c hcm
    obtain ⟨y, hy, he⟩ := hforth c x hx
    simp only [shape, Prod.mk.injEq] at he
    exact ⟨y, hy, he.1.trans hf, he.2.2.2.2.2.2.trans hl⟩
  case mem =>
    intro m y hy hf hl
    obtain ⟨x, hx, he⟩ := hback m y hy
    simp only [shape, Prod.mk.injEq] at he
    rw [← he.1] at hf ⊢
    exact h.mem m x hx hf (he.2.2.2.2.2.2.trans hl)
  case alone =>
    intro m y hy hf
    obtain ⟨x, hx, he⟩ := hback m y hy
    simp only [shape, Prod.mk.injEq] at he
    rw [← he.1, ← he.2.2.2.2.2.2] at hf
    rw [← he.2.2.2.1, ← he.2.2.2.2.1]
    exact h.alone m x hx hf
  case father =>
    intro m y hy hf
    obtain ⟨x, hx, he⟩ := hback m y hy
    simp only [shape, Prod.mk.injEq] at he
    rw [← he.1] at hf ⊢
    obtain ⟨z, hz⟩ := h.father m x hx hf
    obtain ⟨w, hw, -⟩ := hforth _ z hz
    exact ⟨w, hw⟩
  case loose =>
    intro m y hy hl
    obtain ⟨x, hx, he⟩ := hback m y hy
    simp only [shape, Prod.mk.injEq] at he
    rw [← he.1]
    exact h.loose m x hx (he.2.2.2.2.2.2.trans hl)
  case ends =>
    rw [hnext.2.2]
    exact h.ends
  case count =>
    obtain ⟨l, hnd, hl, hlen⟩ := h.count
    refine ⟨l, hnd, fun m => ?_, hlen.trans hc.symm⟩
    rw [hl m]
    cases hx : s.node m with
    | none => rw [(hnone m).mpr hx]
    | some x =>
      obtain ⟨y, hy, -⟩ := hforth m x hx
      rw [hy]
      rfl

theorem edit {n : ℕ} {f : Node → Node} (h : Forest K s) (hf : ∀ x, shape (f x) = shape x) :
    Forest K (s.modify n f) := by
  refine h.congr (fun m => ?_) ?_ rfl
  · rw [modify_node]
    cases s.node m with
    | none => rfl
    | some y =>
      simp only [Option.map_some, Option.some.injEq]
      split
      · exact hf y
      · rfl
  · obtain ⟨x, hx⟩ := h.root
    exact ⟨if s.root = n then f x else x, by rw [modify_root, modify_node, hx]; rfl⟩

/-! ### Where a node stands -/

variable (h : Forest K s) {n : ℕ} {x : Node} (hx : s.node n = some x)
include h

theorem trees : Trees K s where
  null := h.null
  dead := h.dead
  linked := h.linked
  head n x hx := ⟨(h.head n x hx).1, (h.head n x hx).2.1⟩
  nodup := h.nodup
  kid n c hc := by
    obtain ⟨y, hy, hf, -⟩ := h.kid n c hc
    exact ⟨y, hy, hf⟩
  alone n x hx hn := by
    refine h.alone n x hx ?_
    by_cases hf : x.father = 0
    · exact .inl hf
    · right
      cases hl : x.loose with
      | true => rfl
      | false => exact absurd (h.mem n x hx hf hl) hn
  ends := h.ends
  count := h.count

theorem kid_ne {m c : ℕ} (hc : c ∈ K m) : c ≠ 0 := h.trees.kid_ne hc

/-- A node is in one list. -/
theorem kid_unique {m m' c : ℕ} (hc : c ∈ K m) (hc' : c ∈ K m') : m = m' := h.trees.kid_unique hc hc'

include hx

theorem father_ne : x.father ≠ n := by
  intro he
  have hn : n ≠ 0 := by
    rintro rfl
    rw [h.null] at hx
    cases hx
  have hup := up_eq hx (he ▸ hn)
  rw [he] at hup
  exact (h.ends n).not_under n hup (.self n)

/-- The place of a node in its list. -/
theorem split_at (hf : x.father ≠ 0) (hl : x.loose = false) : ∃ l₁ l₂, K x.father = l₁ ++ n :: l₂ ∧
    n ∉ l₁ ∧ n ∉ l₂ ∧ x.prev = l₁.getLastD 0 ∧ x.next = l₂.headD 0 :=
  h.trees.split_at hx (h.mem n x hx hf hl)

/-- The lists when `n` has been taken out of its own, if it is in one, whatever becomes of `n` itself. -/
theorem unlink_lists {t : Vfsd} (hl : x.loose = false)
    (ht : ∀ m, m ≠ n → t.node m = (s.node m).map (unlinked n x m)) :
    (∀ m, Linked (nextOf t) (prevOf t) 0 (Function.update K x.father ((K x.father).erase n) m) 0) ∧
    ∀ m y, m ≠ n → t.node m = some y →
      y.first = (Function.update K x.father ((K x.father).erase n) m).headD 0 ∧
      y.last = (Function.update K x.father ((K x.father).erase n) m).getLastD 0 ∧
      y.kids = (Function.update K x.father ((K x.father).erase n) m).length := by
  obtain ⟨hlink, hhead⟩ := h.trees.unlink_any hx ht
  refine ⟨hlink, fun m y hm hy => ⟨(hhead m y hm hy).1, (hhead m y hm hy).2, ?_⟩⟩
  rw [ht m hm] at hy
  obtain ⟨z, hz, rfl⟩ := Option.map_eq_some_iff.mp hy
  have hkids := (h.head m z hz).2.2
  rcases eq_or_ne m x.father with rfl | hmf
  · have hf : x.father ≠ 0 := by
      intro hf
      rw [hf, h.null] at hz
      cases hz
    have hn := h.mem n x hx hf hl
    have hlen : (K x.father).length = ((K x.father).erase n).length + 1 := by
      rw [List.length_erase_of_mem hn]
      have := List.length_pos_of_mem hn
      omega
    rw [Function.update_self]
    simp only [unlinked, if_true]
    omega
  · rw [Function.update_of_ne hmf]
    simp only [unlinked, hmf, if_false]
    exact hkids

omit hx in
/-- What the pointers to the fathers alone decide. -/
theorem upward {t : Vfsd} {g : ℕ → Node → Node} (ht : ∀ m, t.node m = (s.node m).map (g m))
    (hg : ∀ m y, (g m y).father = y.father) (hr : t.root = s.root) (hc : t.count = s.count) :
    t.node 0 = none ∧ (∀ n x, t.node n = some x → x.father ≠ 0 → ∃ y, t.node x.father = some y) ∧
    (∀ n, Ends (up t) n) ∧ (∃ x, t.node t.root = some x) ∧
    ∃ l : List ℕ, l.Nodup ∧ (∀ n, n ∈ l ↔ (t.node n).isSome = true) ∧ l.length = t.count := by
  have hlive : ∀ m y, s.node m = some y → t.node m = some (g m y) := by
    intro m y hy
    rw [ht m, hy]
    rfl
  have hup : up t = up s := by
    funext m
    cases hy : s.node m with
    | none => simp only [up, ht m, hy, Option.map_none]
    | some y => simp only [up, ht m, hy, Option.map_some, hg]
  refine ⟨by rw [ht 0, h.null]; rfl, ?_, hup ▸ h.ends, ?_, ?_⟩
  · intro m y hy hf
    rw [ht m] at hy
    obtain ⟨z, hz, rfl⟩ := Option.map_eq_some_iff.mp hy
    rw [hg] at hf ⊢
    obtain ⟨w, hw⟩ := h.father m z hz hf
    exact ⟨_, hlive _ w hw⟩
  · obtain ⟨z, hz⟩ := h.root
    exact ⟨_, hr ▸ hlive _ z hz⟩
  · obtain ⟨l, hnd, hl, hlen⟩ := h.count
    refine ⟨l, hnd, fun m => ?_, hlen.trans hc.symm⟩
    rw [hl m, ht m, Option.isSome_map]

/-- The neighbours of a node are kids of its father. -/
theorem beside {m : ℕ} {y : Node} (hf : x.father ≠ 0) (hl : x.loose = false) (hy : s.node m = some y)
    (ha : y.father = 0 ∨ y.loose = true) : m ≠ x.prev ∧ m ≠ x.next := by
  obtain ⟨l₁, l₂, hK, -, -, hprev, hnext⟩ := h.split_at hx hf hl
  have hm : m ≠ 0 := by
    rintro rfl
    rw [h.null] at hy
    cases hy
  have hout : m ∉ K x.father := by
    intro hin
    obtain ⟨z, hz, hzf, hzl⟩ := h.kid _ m hin
    rw [hy] at hz
    cases hz
    rcases ha with ha | ha
    · exact hf (hzf.symm.trans ha)
    · rw [hzl] at ha
      cases ha
  rw [hK] at hout
  constructor
  · rw [hprev]
    rcases List.eq_nil_or_concat l₁ with rfl | ⟨l, d, rfl⟩
    · exact hm
    · rw [List.concat_eq_append, getLastD_append_cons]
      rintro rfl
      exact hout (by simp)
  · rw [hnext]
    cases l₂ with
    | nil => exact hm
    | cons d l =>
      rintro rfl
      exact hout (by simp)

omit h hx in
theorem erase_update {f m : ℕ} (hnd : ∀ n, (K n).Nodup) {c : ℕ} :
    c ∈ Function.update K f ((K f).erase n) m ↔ c ∈ K m ∧ ¬(m = f ∧ c = n) := by
  rcases eq_or_ne m f with rfl | hm
  · rw [Function.update_self, (hnd m).mem_erase_iff]
    simp [and_comm]
  · rw [Function.update_of_ne hm]
    simp [hm]

/-- A node that is in a list is taken out and stays as a loose one. -/
theorem remove (hf : x.father ≠ 0) (hl : x.loose = false) :
    Forest (Function.update K x.father ((K x.father).erase n)) (s.remove n) := by
  have hnf : n ≠ x.father := (h.father_ne hx).symm
  have hother : ∀ m, m ≠ n → (s.remove n).node m = (s.node m).map (unlinked n x m) := by
    intro m hm
    rw [Vfsd.remove, modify_ne _ _ _ hm, unlink_node s hx]
  have hself : (s.remove n).node n = some { x with next := 0, prev := 0, loose := true } := by
    rw [Vfsd.remove, modify_self, unlink_node s hx, hx]
    simp [unlinked, hnf]
  obtain ⟨hlink, hhead⟩ := h.unlink_lists hx hl hother
  obtain ⟨hnull, hfather, hends, hroot, hcount⟩ := h.upward (t := s.remove n)
    (g := fun m y => if m = n then { y with next := 0, prev := 0, loose := true } else unlinked n x m y) (by
      intro m
      rcases eq_or_ne m n with rfl | hm
      · rw [hself, hx]
        simp
      · rw [hother m hm]
        simp [hm]) (by
      intro m y
      split <;> rfl) (by
      simp only [Vfsd.remove, modify_root, unlink, hx]) (by
      simp only [Vfsd.remove, modify_count, unlink, hx])
  have hmem : ∀ m c, c ∈ Function.update K x.father ((K x.father).erase n) m ↔ c ∈ K m ∧ c ≠ n := by
    intro m c
    rw [erase_update h.nodup]
    refine and_congr_right fun hc => not_congr ⟨fun h' => h'.2, ?_⟩
    rintro rfl
    exact ⟨h.kid_unique hc (h.mem c x hx hf hl), rfl⟩
  -- a node other than `n` comes from one with the same father
  have hback : ∀ m y, m ≠ n → (s.remove n).node m = some y → ∃ z, s.node m = some z ∧ y = unlinked n x m z := by
    intro m y hm hy
    rw [hother m hm] at hy
    obtain ⟨z, hz, rfl⟩ := Option.map_eq_some_iff.mp hy
    exact ⟨z, hz, rfl⟩
  refine ⟨hnull, ?dead, hlink, ?head, ?nodup, ?kid, ?mem, ?alone, hfather, ?loose, hends, hroot, hcount⟩
  case dead =>
    intro m hm
    have hmn : m ≠ n := by
      rintro rfl
      rw [hself] at hm
      cases hm
    rw [hother m hmn, Option.map_eq_none_iff] at hm
    have hmf : m ≠ x.father := by
      rintro rfl
      obtain ⟨y, hy⟩ := h.father n x hx hf
      rw [hm] at hy
      cases hy
    rw [Function.update_of_ne hmf]
    exact h.dead m hm
  case head =>
    intro m y hy
    rcases eq_or_ne m n with rfl | hm
    · rw [hself] at hy
      cases hy
      rw [Function.update_of_ne hnf]
      exact h.head m x hx
    · exact hhead m y hm hy
  case nodup =>
    intro m
    rcases eq_or_ne m x.father with rfl | hmf
    · rw [Function.update_self]
      exact (h.nodup _).erase n
    · rw [Function.update_of_ne hmf]
      exact h.nodup m
  case kid =>
    intro m c hc
    obtain ⟨hc, hcn⟩ := (hmem m c).mp hc
    obtain ⟨y, hy, hyf, hyl⟩ := h.kid m c hc
    exact ⟨unlinked n x c y, by rw [hother c hcn, hy]; rfl, hyf, hyl⟩
  case mem =>
    intro m y hy hyf hyl
    have hmn : m ≠ n := by
      rintro rfl
      rw [hself] at hy
      cases hy
      cases hyl
    obtain ⟨z, hz, rfl⟩ := hback m y hmn hy
    exact (hmem _ m).mpr ⟨h.mem m z hz hyf hyl, hmn⟩
  case alone =>
    intro m y hy ha
    rcases eq_or_ne m n with rfl | hm
    · rw [hself] at hy
      cases hy
      exact ⟨rfl, rfl⟩
    · obtain ⟨z, hz, rfl⟩ := hback m y hm hy
      obtain ⟨hp, hn⟩ := h.beside hx hf hl hz ha
      simp only [unlinked, hp, hn, if_false]
      exact h.alone m z hz ha
  case loose =>
    intro m y hy hyl
    rcases eq_or_ne m n with rfl | hm
    · rw [hself] at hy
      cases hy
      exact hf
    · obtain ⟨z, hz, rfl⟩ := hback m y hm hy
      exact h.loose m z hz hyl

/-- A node without kids that nothing loose hangs on goes. -/
theorem free (hl : x.loose = false) (hK : K n = []) (hr : n ≠ s.root)
    (hhang : ∀ m y, s.node m = some y → y.loose = true → y.father ≠ n) :
    Forest (Function.update K x.father ((K x.father).erase n)) (s.free n) := by
  have hnf : n ≠ x.father := (h.father_ne hx).symm
  have hn0 : n ≠ 0 := by
    rintro rfl
    rw [h.null] at hx
    cases hx
  have hother : ∀ m, m ≠ n → (s.free n).node m = (s.node m).map (unlinked n x m) := by
    intro m hm
    refine (Function.update_of_ne hm _ _).trans ?_
    rw [unlink_node s hx]
  have hself : (s.free n).node n = none := Function.update_self ..
  obtain ⟨hlink, hhead⟩ := h.unlink_lists hx hl hother
  have hmem : ∀ m c, c ∈ Function.update K x.father ((K x.father).erase n) m ↔ c ∈ K m ∧ c ≠ n := by
    intro m c
    rw [erase_update h.nodup]
    refine and_congr_right fun hc => not_congr ⟨fun h' => h'.2, ?_⟩
    rintro rfl
    obtain ⟨y, hy, hyf, -⟩ := h.kid m c hc
    rw [hx] at hy
    cases hy
    exact ⟨hyf.symm, rfl⟩
  have hback : ∀ m y, (s.free n).node m = some y → m ≠ n ∧ ∃ z, s.node m = some z ∧ y = unlinked n x m z := by
    intro m y hy
    have hm : m ≠ n := by
      rintro rfl
      rw [hself] at hy
      cases hy
    rw [hother m hm] at hy
    obtain ⟨z, hz, rfl⟩ := Option.map_eq_some_iff.mp hy
    exact ⟨hm, z, hz, rfl⟩
  have hforth : ∀ m z, m ≠ n → s.node m = some z → (s.free n).node m = some (unlinked n x m z) := by
    intro m z hm hz
    rw [hother m hm, hz]
    rfl
  -- nobody has `n` for a father
  have hnone : ∀ m y, s.node m = some y → y.father ≠ n := by
    intro m y hy he
    cases hyl : y.loose with
    | true => exact hhang m y hy hyl he
    | false =>
      have hin := h.mem m y hy (he ▸ hn0) hyl
      rw [he, hK] at hin
      cases hin
  refine ⟨(hother 0 hn0.symm).trans (by rw [h.null]; rfl), ?dead, hlink, ?head, ?nodup, ?kid, ?mem, ?alone,
    ?father, ?loose, ?ends, ?root, ?count⟩
  case dead =>
    intro m hm
    rcases eq_or_ne m n with rfl | hmn
    · rw [Function.update_of_ne hnf]
      exact hK
    · rw [hother m hmn, Option.map_eq_none_iff] at hm
      rw [← List.eq_nil_iff_forall_not_mem.mpr fun c hc => ?_]
      have hc' := ((hmem m c).mp hc).1
      rw [h.dead m hm] at hc'
      cases hc'
  case head =>
    exact fun m y hy => hhead m y (hback m y hy).1 hy
  case nodup =>
    intro m
    rcases eq_or_ne m x.father with rfl | hmf
    · rw [Function.update_self]
      exact (h.nodup _).erase n
    · rw [Function.update_of_ne hmf]
      exact h.nodup m
  case kid =>
    intro m c hc
    obtain ⟨hc, hcn⟩ := (hmem m c).mp hc
    obtain ⟨y, hy, hyf, hyl⟩ := h.kid m c hc
    exact ⟨_, hforth c y hcn hy, hyf, hyl⟩
  case mem =>
    intro m y hy hyf hyl
    obtain ⟨hmn, z, hz, rfl⟩ := hback m y hy
    exact (hmem _ m).mpr ⟨h.mem m z hz hyf hyl, hmn⟩
  case alone =>
    intro m y hy ha
    obtain ⟨hmn, z, hz, rfl⟩ := hback m y hy
    have hbes : m ≠ x.prev ∧ m ≠ x.next := by
      by_cases hf : x.father = 0
      · obtain ⟨hnext, hprev⟩ := h.alone n x hx (.inl hf)
        have hm0 : m ≠ 0 := by
          rintro rfl
          rw [h.null] at hz
          cases hz
        rw [hnext, hprev]
        exact ⟨hm0, hm0⟩
      · exact h.beside hx hf hl hz ha
    simp only [unlinked, hbes.1, hbes.2, if_false]
    exact h.alone m z hz ha
  case father =>
    intro m y hy hyf
    obtain ⟨hmn, z, hz, rfl⟩ := hback m y hy
    obtain ⟨w, hw⟩ := h.father m z hz hyf
    exact ⟨_, hforth _ w (hnone m z hz) hw⟩
  case loose =>
    intro m y hy hyl
    obtain ⟨hmn, z, hz, rfl⟩ := hback m y hy
    exact h.loose m z hz hyl
  case ends =>
    intro m
    refine (h.ends m).cut fun j => ?_
    rcases eq_or_ne j n with rfl | hj
    · exact .inl (by simp only [up, hself])
    · right
      simp only [up, hother j hj]
      cases s.node j <;> rfl
  case root =>
    obtain ⟨y, hy⟩ := h.root
    have hroot : (s.free n).root = s.root := by
      simp only [Vfsd.free, unlink, hx, modify_root]
    exact ⟨_, hroot ▸ hforth _ y hr.symm hy⟩
  case count =>
    obtain ⟨l, hnd, hl', hlen⟩ := h.count
    have hnl : n ∈ l := (hl' n).mpr (by rw [hx]; rfl)
    refine ⟨l.erase n, hnd.erase n, fun m => ?_, ?_⟩
    · rw [hnd.mem_erase_iff, hl' m]
      rcases eq_or_ne m n with rfl | hm
      · simp [hself]
      · rw [hother m hm, Option.isSome_map]
        simp [hm]
    · rw [List.length_erase_of_mem hnl, hlen]
      simp only [Vfsd.free, unlink, hx, modify_count]

/-- A node without a father is in no list, and neither is a loose one. -/
theorem not_kid (hfree : x.father = 0 ∨ x.loose = true) (m : ℕ) : n ∉ K m := by
  intro hm
  obtain ⟨y, hy, hyf, hyl⟩ := h.kid m n hm
  rw [hx] at hy
  cases hy
  rcases hfree with hfree | hfree
  · rw [← hyf, hfree, h.dead 0 h.null] at hm
    cases hm
  · rw [hyl] at hfree
    cases hfree

theorem last_mem : x.last = 0 ∨ x.last ∈ K n := by
  rw [(h.head n x hx).2.1]
  rcases List.eq_nil_or_concat (K n) with hK | ⟨l, d, hK⟩
  · rw [hK]
    exact .inl rfl
  · right
    rw [hK, List.concat_eq_append, getLastD_append_cons]
    simp

/-- A node that is in no list is put at the end of one. It had this father before, or none and then
    the father is not below it. -/
theorem addNode {f : ℕ} {fx : Node} (hfx : s.node f = some fx) (hfree : x.father = 0 ∨ x.loose = true)
    (hup : x.father = f ∨ (x.father = 0 ∧ ¬Under (up s) f n)) :
    Forest (Function.update K f (K f ++ [n])) (s.addNode f n) := by
  have hf0 : f ≠ 0 := by
    rintro rfl
    rw [h.null] at hfx
    cases hfx
  have hn0 : n ≠ 0 := by
    rintro rfl
    rw [h.null] at hx
    cases hx
  have hfn : f ≠ n := by
    rintro rfl
    rcases hup with hup | ⟨-, hup⟩
    · exact h.father_ne hx hup
    · exact hup (.self f)
  have hnode := addNode_node s (n := n) hfx
  obtain ⟨hfirst, hlast, hkids⟩ := h.head f fx hfx
  have hnot : ∀ m, n ∉ K m := h.not_kid hx hfree
  have hlast_mem : fx.last = 0 ∨ fx.last ∈ K f := h.last_mem hfx
  have hfar : ∀ m c, c ∈ K m → m ≠ f → c ≠ fx.last := by
    rintro m c hc hm rfl
    exact hlast_mem.elim (h.kid_ne hc) fun h' => hm (h.kid_unique hc h')
  obtain ⟨hnext, hprev⟩ := h.alone n x hx hfree
  have hnextOf : ∀ m c, c ∈ K m → nextOf (s.addNode f n) c = if c = fx.last then n else nextOf s c := by
    intro m c hc
    obtain ⟨y, hy, -⟩ := h.kid m c hc
    have hc0 := h.kid_ne hc
    simp only [nextOf, hnode c, hy, Option.map_some, Option.elim, linkedTo]
    by_cases he : c = fx.last
    · rw [if_pos ⟨he, he ▸ hc0⟩, if_pos he]
    · rw [if_neg fun h' => he h'.1, if_neg he]
  have hprevOf : ∀ m c, c ∈ K m → prevOf (s.addNode f n) c = prevOf s c := by
    intro m c hc
    obtain ⟨y, hy, -⟩ := h.kid m c hc
    have hcn : c ≠ n := fun he => hnot m (he ▸ hc)
    simp only [prevOf, hnode c, hy, Option.map_some, Option.elim, linkedTo, hcn, false_and, if_false]
  have hback : ∀ m y, (s.addNode f n).node m = some y → ∃ z, s.node m = some z ∧ y = linkedTo f fx n m z := by
    intro m y hy
    rw [hnode m] at hy
    obtain ⟨z, hz, rfl⟩ := Option.map_eq_some_iff.mp hy
    exact ⟨z, hz, rfl⟩
  have hforth : ∀ m z, s.node m = some z → (s.addNode f n).node m = some (linkedTo f fx n m z) := by
    intro m z hz
    rw [hnode m, hz]
    rfl
  have hnd : (K f ++ [n]).Nodup := by
    rw [List.nodup_append]
    refine ⟨h.nodup f, by simp, fun c hc d hd => ?_⟩
    rw [List.mem_singleton] at hd
    rintro rfl
    exact hnot f (hd ▸ hc)
  refine ⟨by rw [hnode 0, h.null]; rfl, ?dead, ?linked, ?head, ?nodup, ?kid, ?mem, ?alone, ?father, ?loose,
    ?ends, ?root, ?count⟩
  case dead =>
    intro m hm
    rw [hnode m, Option.map_eq_none_iff] at hm
    have hmf : m ≠ f := by
      rintro rfl
      rw [hfx] at hm
      cases hm
    rw [Function.update_of_ne hmf]
    exact h.dead m hm
  case linked =>
    intro m
    rcases eq_or_ne m f with rfl | hmf
    · rw [Function.update_self]
      refine (h.linked m).snoc hnd ?_ ?_ ?_ fun c hc => hprevOf m c hc
      · have hne : n ≠ fx.last := by
          rintro he
          exact hlast_mem.elim (fun h0 => hn0 (he.trans h0)) fun hm => hnot m (he ▸ hm)
        simp only [nextOf, hforth n x hx, Option.elim, linkedTo, hne, false_and, if_false, hnext]
      · simp only [prevOf, hforth n x hx, Option.elim, linkedTo, true_and, ← hlast]
        split
        · rfl
        · rename_i h0
          rw [hprev]
          omega
      · intro c hc
        rw [hnextOf m c hc, hlast]
    · rw [Function.update_of_ne hmf]
      refine (h.linked m).congr (fun c hc => ?_) fun c hc => hprevOf m c hc
      rw [hnextOf m c hc, if_neg (hfar m c hc hmf)]
  case head =>
    intro m y hy
    obtain ⟨z, hz, rfl⟩ := hback m y hy
    rcases eq_or_ne m f with rfl | hmf
    · rw [hfx] at hz
      cases hz
      rw [Function.update_self]
      simp only [linkedTo, true_and, if_true]
      refine ⟨?_, ?_, ?_⟩
      · rcases List.eq_nil_or_concat (K m) with hK | ⟨l, d, hK⟩
        · rw [hlast, hK]
          rfl
        · have hl0 : fx.last ≠ 0 := by
            rw [hlast, hK, List.concat_eq_append, getLastD_append_cons]
            exact h.kid_ne (m := m) (by rw [hK]; simp)
          rw [if_neg hl0, hfirst, hK]
          cases l <;> rfl
      · rw [getLastD_append_cons]
        rfl
      · rw [hkids]
        simp
    · rw [Function.update_of_ne hmf]
      simp only [linkedTo, hmf, false_and, if_false]
      exact h.head m z hz
  case nodup =>
    intro m
    rcases eq_or_ne m f with rfl | hmf
    · rw [Function.update_self]
      exact hnd
    · rw [Function.update_of_ne hmf]
      exact h.nodup m
  case kid =>
    intro m c hc
    have hold : c ∈ K m ∨ (m = f ∧ c = n) := by
      rcases eq_or_ne m f with rfl | hmf
      · rw [Function.update_self] at hc
        rcases List.mem_append.mp hc with hc | hc
        · exact .inl hc
        · exact .inr ⟨rfl, List.mem_singleton.mp hc⟩
      · rw [Function.update_of_ne hmf] at hc
        exact .inl hc
    rcases hold with hc | ⟨rfl, rfl⟩
    · obtain ⟨y, hy, hyf, hyl⟩ := h.kid m c hc
      have hcn : c ≠ n := fun he => hnot m (he ▸ hc)
      refine ⟨_, hforth c y hy, ?_, ?_⟩
      · simp only [linkedTo, hcn, if_false, hyf]
      · simp only [linkedTo, hcn, if_false, hyl]
    · exact ⟨_, hforth c x hx, by simp [linkedTo], by simp [linkedTo]⟩
  case mem =>
    intro m y hy hyf hyl
    obtain ⟨z, hz, rfl⟩ := hback m y hy
    rcases eq_or_ne m n with rfl | hmn
    · simp [linkedTo]
    · simp only [linkedTo, hmn, if_false] at hyf hyl ⊢
      have hin := h.mem m z hz hyf hyl
      rcases eq_or_ne z.father f with he | he
      · rw [he, Function.update_self]
        exact List.mem_append_left _ (he ▸ hin)
      · rw [Function.update_of_ne he]
        exact hin
  case alone =>
    intro m y hy ha
    obtain ⟨z, hz, rfl⟩ := hback m y hy
    rcases eq_or_ne m n with rfl | hmn
    · simp [linkedTo, hf0] at ha
    · simp only [linkedTo, hmn, if_false, false_and] at ha ⊢
      have hml : ¬(m = fx.last ∧ fx.last ≠ 0) := by
        rintro ⟨rfl, h0⟩
        obtain ⟨w, hw, hwf, hwl⟩ := h.kid f _ (hlast_mem.resolve_left h0)
        rw [hz] at hw
        cases hw
        rcases ha with ha | ha
        · exact hf0 (hwf.symm.trans ha)
        · rw [hwl] at ha
          cases ha
      rw [if_neg hml]
      exact h.alone m z hz ha
  case father =>
    intro m y hy hyf
    obtain ⟨z, hz, rfl⟩ := hback m y hy
    rcases eq_or_ne m n with rfl | hmn
    · exact ⟨_, by simpa [linkedTo] using hforth f fx hfx⟩
    · simp only [linkedTo, hmn, if_false] at hyf ⊢
      obtain ⟨w, hw⟩ := h.father m z hz hyf
      exact ⟨_, hforth _ w hw⟩
  case loose =>
    intro m y hy hyl
    obtain ⟨z, hz, rfl⟩ := hback m y hy
    rcases eq_or_ne m n with rfl | hmn
    · simp [linkedTo] at hyl
    · simp only [linkedTo, hmn, if_false] at hyl ⊢
      exact h.loose m z hz hyl
  case ends =>
    have hupn : up (s.addNode f n) n = some f := by
      simp [up, hforth n x hx, linkedTo, hf0]
    have hupo : ∀ m, m ≠ n → up (s.addNode f n) m = up s m := by
      intro m hm
      cases hz : s.node m with
      | none => simp only [up, hnode m, hz, Option.map_none]
      | some z => simp only [up, hforth m z hz, hz, linkedTo, hm, if_false]
    intro m
    rcases hup with hup | ⟨-, hup⟩
    · refine (h.ends m).cut fun j => .inr ?_
      rcases eq_or_ne j n with rfl | hj
      · rw [hupn, up_eq hx (hup ▸ hf0), hup]
      · exact hupo j hj
    · exact (h.ends m).graft hupn (h.ends f) hup hupo
  case root =>
    obtain ⟨y, hy⟩ := h.root
    exact ⟨_, (addNode_frame s f n).2.1 ▸ hforth _ y hy⟩
  case count =>
    obtain ⟨l, hl, hmem, hlen⟩ := h.count
    refine ⟨l, hl, fun m => ?_, hlen.trans (addNode_frame s f n).2.2.symm⟩
    rw [hmem m, hnode m, Option.isSome_map]

omit hx in
/-- A new node, in no list. -/
theorem newNode {x : Node} {u : Vfsd × ℕ} (hid : s.node s.allocId = none) (hu : s.newNode x = some u)
    (hx : shape x = (0, 0, 0, 0, 0, 0, false)) : Forest K u.1 := by
  have hid0 : s.allocId ≠ 0 := by
    unfold allocId
    split
    · decide
    · assumption
  have hsub : u.1.node = Function.update s.node s.allocId (some x) ∧ u.1.root = s.root ∧
      u.1.count = s.count + 1 := by
    unfold Vfsd.newNode at hu
    split at hu
    · cases hu
    · cases hu
      exact ⟨rfl, rfl, rfl⟩
  obtain ⟨hnode, hroot, hcount⟩ := hsub
  simp only [shape, Prod.mk.injEq] at hx
  obtain ⟨hfather, hfirst, hlast, hnext, hprev, hkids, hloose⟩ := hx
  have hcases : ∀ m y, u.1.node m = some y → (m = s.allocId ∧ y = x) ∨ (m ≠ s.allocId ∧ s.node m = some y) := by
    intro m y hy
    rw [hnode] at hy
    rcases eq_or_ne m s.allocId with rfl | hm
    · rw [Function.update_self] at hy
      exact .inl ⟨rfl, (Option.some.inj hy).symm⟩
    · rw [Function.update_of_ne hm] at hy
      exact .inr ⟨hm, hy⟩
  have hold : ∀ m y, s.node m = some y → m ≠ s.allocId ∧ u.1.node m = some y := by
    intro m y hy
    have hm : m ≠ s.allocId := by
      rintro rfl
      rw [hid] at hy
      cases hy
    exact ⟨hm, by rw [hnode, Function.update_of_ne hm, hy]⟩
  have hKid : K s.allocId = [] := h.dead _ hid
  refine ⟨?null, ?dead, ?linked, ?head, h.nodup, ?kid, ?mem, ?alone, ?father, ?loose, ?ends, ?root, ?count⟩
  case null =>
    rw [hnode, Function.update_of_ne hid0.symm]
    exact h.null
  case dead =>
    intro m hm
    rcases eq_or_ne m s.allocId with rfl | hmn
    · exact hKid
    · rw [hnode, Function.update_of_ne hmn] at hm
      exact h.dead m hm
  case linked =>
    intro m
    refine (h.linked m).congr (fun c hc => ?_) fun c hc => ?_
    · obtain ⟨y, hy, -⟩ := h.kid m c hc
      simp only [nextOf, hy, (hold c y hy).2]
    · obtain ⟨y, hy, -⟩ := h.kid m c hc
      simp only [prevOf, hy, (hold c y hy).2]
  case head =>
    intro m y hy
    rcases hcases m y hy with ⟨rfl, rfl⟩ | ⟨-, hy⟩
    · rw [hKid, hfirst, hlast, hkids]
      exact ⟨rfl, rfl, rfl⟩
    · exact h.head m y hy
  case kid =>
    intro m c hc
    obtain ⟨y, hy, hyf⟩ := h.kid m c hc
    exact ⟨y, (hold c y hy).2, hyf⟩
  case mem =>
    intro m y hy hyf hyl
    rcases hcases m y hy with ⟨rfl, rfl⟩ | ⟨-, hy⟩
    · exact absurd hfather hyf
    · exact h.mem m y hy hyf hyl
  case alone =>
    intro m y hy ha
    rcases hcases m y hy with ⟨rfl, rfl⟩ | ⟨-, hy⟩
    · exact ⟨hnext, hprev⟩
    · exact h.alone m y hy ha
  case father =>
    intro m y hy hyf
    rcases hcases m y hy with ⟨rfl, rfl⟩ | ⟨-, hy⟩
    · exact absurd hfather hyf
    · obtain ⟨z, hz⟩ := h.father m y hy hyf
      exact ⟨z, (hold _ z hz).2⟩
  case loose =>
    intro m y hy hyl
    rcases hcases m y hy with ⟨rfl, rfl⟩ | ⟨-, hy⟩
    · rw [hloose] at hyl
      cases hyl
    · exact h.loose m y hy hyl
  case ends =>
    intro m
    refine (h.ends m).cut fun j => ?_
    rcases eq_or_ne j s.allocId with rfl | hj
    · left
      simp only [up, hnode, Function.update_self, hfather, if_true]
    · right
      simp only [up, hnode, Function.update_of_ne hj]
  case root =>
    obtain ⟨y, hy⟩ := h.root
    exact ⟨y, hroot ▸ (hold _ y hy).2⟩
  case count =>
    obtain ⟨l, hl, hmem, hlen⟩ := h.count
    refine ⟨s.allocId :: l, List.nodup_cons.mpr ⟨fun hm => ?_, hl⟩, fun m => ?_, ?_⟩
    · have hsome := (hmem _).mp hm
      rw [hid] at hsome
      cases hsome
    · rw [List.mem_cons, hmem m, hnode]
      rcases eq_or_ne m s.allocId with rfl | hm
      · simp
      · rw [Function.update_of_ne hm]
        simp [hm]
    · rw [List.length_cons, hlen, hcount]

end Forest

end EwokOS.Vfs
