import EwokOS.Vfs.TreeRun

/-! The mount table and the tree, over whole runs.

    A slot, the node mounted in it, the node it covers and the flag of an umount that waits are records of
    one relation. `Moored` is what holds between them, and the copies that come from opening an anonymous
    node share the slot of what they were made from:

        mnt i = (pid, org, root)      root.mountId = i      copy.mountId = i
                  |     |    |
                  |     |    left  -->  root pending and open
                  |     live
                  routed to

    Mounts over the root of all are stacked on the first root, which is node 1. -/

namespace EwokOS.Vfs

open Schemes Vfsd

/-- `n` is on top of the roots that are stacked on the first one, in the slots `l`. -/
inductive Stack (s : Vfsd) : ℕ → List ℕ → Prop where
  | first : Stack s 1 []
  | above {i : ℕ} {m : Mnt} {x : Node} {l : List ℕ} : s.mnt i = some m → s.node m.root = some x →
    x.father = 0 → i ∉ l → Stack s m.org l → Stack s m.root (i :: l)

/-- The slots, the nodes and the stack of roots agree. A root whose process has gone is pending and
    open, but for those of `c`. -/
structure MooredBut (c : ℕ → Prop) (s : Vfsd) : Prop where
  root : ∀ i m, s.mnt i = some m → ∃ x, s.node m.root = some x ∧ x.mountId = some i
  org : ∀ i m, s.mnt i = some m → ∃ o, s.node m.org = some o
  back : ∀ n x i, s.node n = some x → x.mountId = some i → ∃ m, s.mnt i = some m ∧ (m.root = n ∨ x.copy = true)
  stack : ∃ l, Stack s s.root l ∧ ∀ i m x, s.mnt i = some m → s.node m.root = some x → x.father = 0 → i ∈ l
  left : ∀ i m x, s.mnt i = some m → m.left = true → s.node m.root = some x →
    c m.root ∨ (x.pending = true ∧ (0 < x.refs ∨ 0 < x.refsW))

def Moored : Vfsd → Prop := MooredBut fun _ => False

section
variable {c : ℕ → Prop} {s t u : Vfsd} {n : ℕ}

theorem Stack.used {l : List ℕ} (h : Stack s n l) : ∀ i ∈ l, ∃ m x, s.mnt i = some m ∧
    s.node m.root = some x ∧ x.father = 0 := by
  induction h with
  | first => rintro i ⟨⟩
  | @above i m x l hm hx hf _ _ ih =>
    intro j hj
    rcases List.mem_cons.mp hj with rfl | hj
    · exact ⟨m, x, hm, hx, hf⟩
    · exact ih j hj

theorem Stack.carry {l : List ℕ} (h : Stack s n l)
    (hl : ∀ i ∈ l, ∀ m x, s.mnt i = some m → s.node m.root = some x → x.father = 0 →
      ∃ m' y, t.mnt i = some m' ∧ m'.root = m.root ∧ m'.org = m.org ∧ t.node m.root = some y ∧ y.father = 0) :
    Stack t n l := by
  induction h with
  | first => exact .first
  | @above i m x l hm hx hf hi _ ih =>
    obtain ⟨m', y, hm', hr, ho, hy, hyf⟩ := hl i List.mem_cons_self m x hm hx hf
    have hst : Stack t m'.org l := ho ▸ ih fun j hj => hl j (List.mem_cons_of_mem i hj)
    rw [← hr]
    exact .above hm' (hr ▸ hy) hyf hi hst

/-! ### What does not touch the table -/

/-- From `s` to `t` the slots stay, with the nodes they name and their counts, but for those of `c`. New
    nodes are in no slot, or copies. -/
structure RidesBut (c : ℕ → Prop) (s t : Vfsd) : Prop where
  mnt : t.mnt = s.mnt
  root : t.root = s.root
  keep : ∀ i m x, s.mnt i = some m → s.node m.root = some x → ∃ y, t.node m.root = some y ∧
    y.mountId = x.mountId ∧ y.father = x.father ∧
    (c m.root ∨ ((x.pending = true → y.pending = true) ∧ x.refs ≤ y.refs ∧ x.refsW ≤ y.refsW))
  org : ∀ i m o, s.mnt i = some m → s.node m.org = some o → ∃ o', t.node m.org = some o'
  back : ∀ n y i, t.node n = some y → y.mountId = some i →
    (∃ x, s.node n = some x ∧ x.mountId = some i ∧ x.copy = y.copy) ∨ (y.copy = true ∧ ∃ m, s.mnt i = some m)

theorem MooredBut.rides (h : MooredBut c s) (hr : RidesBut c s t) : MooredBut c t := by
  refine ⟨?_, ?_, ?_, ?_, ?_⟩
  · intro i m hm
    rw [hr.mnt] at hm
    obtain ⟨x, hx, hi⟩ := h.root i m hm
    obtain ⟨y, hy, hyi, -⟩ := hr.keep i m x hm hx
    exact ⟨y, hy, hyi.trans hi⟩
  · intro i m hm
    rw [hr.mnt] at hm
    obtain ⟨o, ho⟩ := h.org i m hm
    exact hr.org i m o hm ho
  · intro j y i hy hi
    rw [hr.mnt]
    rcases hr.back j y i hy hi with ⟨x, hx, hxi, hc⟩ | ⟨hc, m, hm⟩
    · obtain ⟨m, hm, hor⟩ := h.back j x i hx hxi
      exact ⟨m, hm, hc ▸ hor⟩
    · exact ⟨m, hm, .inr hc⟩
  · obtain ⟨l, hl, hall⟩ := h.stack
    rw [hr.mnt, hr.root]
    refine ⟨l, hl.carry fun i _ m x hm hx hf => ?_, fun i m y hm hy hf => ?_⟩
    · obtain ⟨y, hy, -, hyf, -⟩ := hr.keep i m x hm hx
      exact ⟨m, y, hr.mnt ▸ hm, rfl, rfl, hy, hyf.trans hf⟩
    · obtain ⟨x, hx, -⟩ := h.root i m hm
      obtain ⟨y', hy', -, hyf, -⟩ := hr.keep i m x hm hx
      rw [hy] at hy'
      cases hy'
      exact hall i m x hm hx (hyf ▸ hf)
  · intro i m y hm hleft hy
    rw [hr.mnt] at hm
    obtain ⟨x, hx, -⟩ := h.root i m hm
    obtain ⟨y', hy', -, -, hcount⟩ := hr.keep i m x hm hx
    rw [hy] at hy'
    cases hy'
    rcases hcount with hc | ⟨hp, hrefs, hrefsW⟩
    · exact .inl hc
    rcases h.left i m x hm hleft hx with hc | ⟨hpend, hopen⟩
    · exact .inl hc
    · exact .inr ⟨hp hpend, by omega⟩

/-- Those that were left out are in order too. -/
theorem MooredBut.settled (h : MooredBut c s)
    (hc : ∀ i m x, s.mnt i = some m → m.left = true → c m.root → s.node m.root = some x →
      x.pending = true ∧ (0 < x.refs ∨ 0 < x.refsW)) : Moored s := by
  refine ⟨h.root, h.org, h.back, h.stack, fun i m x hm hl hx => ?_⟩
  rcases h.left i m x hm hl hx with hcm | hok
  · exact .inr (hc i m x hm hl hcm hx)
  · exact .inr hok

theorem Moored.but (h : Moored s) : MooredBut c s :=
  ⟨h.root, h.org, h.back, h.stack, fun i m x hm hl hx => (h.left i m x hm hl hx).imp False.elim id⟩

namespace RidesBut

theorem trans (h : RidesBut c s t) (h' : RidesBut c t u) : RidesBut c s u := by
  refine ⟨h'.mnt.trans h.mnt, h'.root.trans h.root, ?_, ?_, ?_⟩
  · intro i m x hm hx
    obtain ⟨y, hy, hyi, hyf, hyc⟩ := h.keep i m x hm hx
    obtain ⟨z, hz, hzi, hzf, hzc⟩ := h'.keep i m y (h.mnt ▸ hm) hy
    refine ⟨z, hz, hzi.trans hyi, hzf.trans hyf, ?_⟩
    rcases hyc with hc | ⟨hp, hr, hw⟩
    · exact .inl hc
    rcases hzc with hc | ⟨hp', hr', hw'⟩
    · exact .inl hc
    · exact .inr ⟨fun hx => hp' (hp hx), hr.trans hr', hw.trans hw'⟩
  · intro i m o hm ho
    obtain ⟨o', ho'⟩ := h.org i m o hm ho
    exact h'.org i m o' (h.mnt ▸ hm) ho'
  · intro j z i hz hi
    rcases h'.back j z i hz hi with ⟨y, hy, hyi, hc⟩ | ⟨hc, m, hm⟩
    · rcases h.back j y i hy hyi with ⟨x, hx, hxi, hc'⟩ | ⟨hc', hm⟩
      · exact .inl ⟨x, hx, hxi, hc'.trans hc⟩
      · exact .inr ⟨hc ▸ hc', hm⟩
    · exact .inr ⟨hc, m, h.mnt ▸ hm⟩

/-- The tree has not changed. -/
theorem same (h : Same s t) (hc : ∀ i m x y, s.mnt i = some m → s.node m.root = some x → t.node m.root = some y →
      c m.root ∨ ((x.pending = true → y.pending = true) ∧ x.refs ≤ y.refs ∧ x.refsW ≤ y.refsW)) :
    RidesBut c s t := by
  have hforth : ∀ j x, s.node j = some x → ∃ y, t.node j = some y ∧ key y = key x := by
    intro j x hx
    have hj := h.node j
    rw [hx] at hj
    obtain ⟨y, hy, he⟩ := Option.map_eq_some_iff.mp hj
    exact ⟨y, hy, he⟩
  refine ⟨h.mnt, h.root, ?_, ?_, ?_⟩
  · intro i m x hm hx
    obtain ⟨y, hy, he⟩ := hforth _ x hx
    obtain ⟨hfa, -, hmi⟩ := Same.key_eq he
    exact ⟨y, hy, hmi, hfa, hc i m x y hm hx hy⟩
  · intro i m o hm ho
    obtain ⟨y, hy, -⟩ := hforth _ o ho
    exact ⟨y, hy⟩
  · intro j y i hy hi
    obtain ⟨x, hx, he⟩ := h.back hy
    have hcopy : x.copy = y.copy := congrArg (fun k => k.2.2) he
    exact .inl ⟨x, hx, (Same.key_eq he).2.2.trans hi, hcopy⟩

theorem calm (h : Calm s t) : RidesBut c s t := by
  refine .same h.toSame fun i m x y hm hx hy => .inr ?_
  obtain ⟨-, hp, hr, hw, -⟩ := h.held _ x y hx hy
  exact ⟨fun h => hp.trans h, hr, hw⟩

/-- A node is described anew. -/
theorem edit {f : Node → Node} (hf : ∀ x, key (f x) = key x ∧ (f x).pending = x.pending ∧ (f x).refs = x.refs ∧
    (f x).refsW = x.refsW) : RidesBut c s (s.modify n f) := by
  refine .same ((Same.refl s).modify fun x => (hf x).1) fun i m x y hm hx hy => .inr ?_
  rcases modify_cases s n f hy with ⟨-, hy⟩ | ⟨he, z, hz, rfl⟩
  · rw [hx] at hy
    cases hy
    exact ⟨id, Nat.le_refl _, Nat.le_refl _⟩
  · rw [← he, hx] at hz
    cases hz
    exact ⟨fun h => (hf x).2.1.trans h, (hf x).2.2.1.ge, (hf x).2.2.2.ge⟩

theorem newNode {x : Node} {v : Vfsd × ℕ} (hf : Fresh s) (hu : s.newNode x = some v)
    (hx : ∀ i, x.mountId = some i → x.copy = true ∧ ∃ m, s.mnt i = some m) : RidesBut c s v.1 := by
  have hold : ∀ j y, s.node j = some y → v.1.node j = some y := by
    intro j y hy
    have hj : j ≠ s.allocId := by
      rintro rfl
      rw [hf.id] at hy
      cases hy
    rw [(newNode_eq hu).2.1, Function.update_of_ne hj, hy]
  refine ⟨(newNode_frame hu).1, (newNode_frame hu).2, fun i m y hm hy => ?_, fun i m o hm ho => ?_, fun j y i hy hi => ?_⟩
  · exact ⟨y, hold _ y hy, rfl, rfl, .inr ⟨id, Nat.le_refl _, Nat.le_refl _⟩⟩
  · exact ⟨o, hold _ o ho⟩
  · rcases newNode_cases hu hy with ⟨-, rfl⟩ | ⟨-, hy⟩
    · exact .inr (hx i hi)
    · exact .inl ⟨y, hy, hi, rfl⟩

/-- A node that is in no slot is linked. -/
theorem addNode {f : ℕ} {fx : Node} (hfx : s.node f = some fx) (hn : ∀ i m, s.mnt i = some m → m.root ≠ n) :
    RidesBut c s (s.addNode f n) := by
  refine ⟨(addNode_frame s f n).1, (addNode_frame s f n).2.1, fun i m x hm hx => ?_, fun i m o hm ho => ?_,
    fun j y i hy hi => ?_⟩
  · have hy : (s.addNode f n).node m.root = some (linkedTo f fx n m.root x) := by
      rw [addNode_node s hfx, hx]
      rfl
    obtain ⟨z, hz, hh, -, hother⟩ := addNode_back hfx hy
    rw [hx] at hz
    cases hz
    simp only [hull, Prod.mk.injEq] at hh
    refine ⟨_, hy, hh.1, (hother (hn i m hm)).1, .inr ⟨fun h => hh.2.1.trans h, ?_, ?_⟩⟩
    · exact hh.2.2.1.ge
    · exact hh.2.2.2.1.ge
  · rw [addNode_node s hfx, ho]
    exact ⟨_, rfl⟩
  · obtain ⟨z, hz, hh, -⟩ := addNode_back hfx hy
    simp only [hull, Prod.mk.injEq] at hh
    exact .inl ⟨z, hz, hh.1 ▸ hi, hh.2.2.2.2.symm⟩

end RidesBut

/-- No slot names a node at or below `n`. -/
def Unmoored (s : Vfsd) (n : ℕ) : Prop :=
  ∀ i m, s.mnt i = some m → ¬Under (up s) m.root n ∧ ¬Under (up s) m.org n

theorem RidesBut.delNode (h : Grown s) (hc : Clear s n) (hu : Unmoored s n) : RidesBut c s (s.delNode n).1 := by
  obtain ⟨K, hK, -⟩ := h
  cases hx : s.node n with
  | none =>
    have he : (s.delNode n).1 = s := by
      show (delDepth (511 + 1) s n).1 = s
      rw [delDepth, hx]
    rw [he]
    exact .calm (.refl s)
  | some x =>
    obtain ⟨K', -, hp, -⟩ := deletes_delDepth delMaxDepth K s n x hK hx hc
    change Pruned [n] s (s.delNode n).1 at hp
    have hstay : ∀ j z, s.node j = some z → ¬Under (up s) j n → ∃ y, (s.delNode n).1.node j = some y ∧ bare y = bare z := by
      intro j z hz hj
      obtain ⟨y, hy⟩ := hp.stay j z hz fun k hk => List.mem_singleton.mp hk ▸ hj
      obtain ⟨z', hz', hb⟩ := hp.keep j y hy
      rw [hz] at hz'
      cases hz'
      exact ⟨y, hy, hb⟩
    refine ⟨hp.mnt, hp.root, fun i m z hm hz => ?_, fun i m o hm ho => ?_, fun j y i hy hi => ?_⟩
    · obtain ⟨y, hy, hb⟩ := hstay _ z hz (hu i m hm).1
      have hpend : y.pending = z.pending := (congrArg Node.pending hb :)
      have hr : y.refs = z.refs := (congrArg Node.refs hb :)
      have hw : y.refsW = z.refsW := (congrArg Node.refsW hb :)
      exact ⟨y, hy, bare_mountId hb, bare_father hb, .inr ⟨fun h => hpend.trans h, hr.ge, hw.ge⟩⟩
    · obtain ⟨y, hy, -⟩ := hstay _ o ho (hu i m hm).2
      exact ⟨y, hy⟩
    · obtain ⟨z, hz, hb⟩ := hp.keep j y hy
      have hcopy : y.copy = z.copy := (congrArg Node.copy hb :)
      exact .inl ⟨z, hz, (bare_mountId hb) ▸ hi, hcopy.symm⟩

theorem RidesBut.create {dir : ℕ} {x : Node} (h : MooredBut c s) (hf : Fresh s) (hmi : x.mountId = none)
    (hdir : dir ≠ 0 → ∃ f, s.node dir = some f) : RidesBut c s (s.create dir x) := by
  unfold Vfsd.create
  split
  · exact .calm (.refl s)
  rename_i t n hu
  have hnew : RidesBut c s t := .newNode hf hu fun i hi => by rw [hmi] at hi; cases hi
  split
  · exact hnew
  rename_i hd0
  obtain ⟨f, hf'⟩ := hdir hd0
  have hdn : dir ≠ s.allocId := by
    rintro rfl
    rw [hf.id] at hf'
    cases hf'
  have hnode : t.node = _ := (newNode_eq hu).2.1
  have hn : n = s.allocId := (newNode_eq hu).1
  refine hnew.trans (.addNode (by rw [hnode, Function.update_of_ne hdn, hf']) fun i m hm => ?_)
  rw [hnew.mnt] at hm
  obtain ⟨y, hy, -⟩ := h.root i m hm
  rintro rfl
  rw [hn, hf.id] at hy
  cases hy

/-! ### Mounting and unmounting -/

theorem Moored.mount {K : ℕ → List ℕ} {pid i org : ℕ} {o x : Node} (h : Moored s) (hx : s.node n = some x) (hmi : x.mountId = none)
    (hfree : s.mnt i = none) (ho : s.node org = some o) (htop : o.father = 0 → org = s.root)
    (hr : Raised K s t pid n i org o) : Moored t := by
  -- the roots of the other slots are other nodes
  have hroot : ∀ j m, s.mnt j = some m → j ≠ i ∧ t.mnt j = some m ∧ ∃ y z, s.node m.root = some z ∧
      t.node m.root = some y ∧ hull y = hull z ∧ y.father = z.father ∧ z.mountId = some j := by
    intro j m hm
    have hj : j ≠ i := by
      rintro rfl
      rw [hfree] at hm
      cases hm
    obtain ⟨z, hz, hzi⟩ := h.root j m hm
    have hmn : m.root ≠ n := by
      intro he
      rw [he, hx] at hz
      cases hz
      rw [hmi] at hzi
      cases hzi
    obtain ⟨y, hy⟩ := hr.forth _ z hz
    obtain ⟨z', hz', -, hother, -⟩ := hr.back _ y hy
    rw [hz] at hz'
    cases hz'
    refine ⟨hj, ?_, y, z, hz, hy, (hother hmn).1, (hother hmn).2, hzi⟩
    rw [hr.mnt, Function.update_of_ne hj, hm]
  have hold : ∀ j m, t.mnt j = some m → j ≠ i → s.mnt j = some m := by
    intro j m hm hj
    rw [hr.mnt, Function.update_of_ne hj] at hm
    exact hm
  have hnew : ∀ m, t.mnt i = some m → m = ⟨pid, org, n, false⟩ := by
    intro m hm
    rw [hr.mnt, Function.update_self] at hm
    exact (Option.some.inj hm).symm
  have hti : t.mnt i = some ⟨pid, org, n, false⟩ := by rw [hr.mnt, Function.update_self]
  obtain ⟨y, hy⟩ := hr.forth n x hx
  obtain ⟨-, -, hself, -⟩ := hr.back n y hy
  obtain ⟨hyi, hyf⟩ := hself rfl
  have hcarry : ∀ {k l}, Stack s k l → Stack t k l := by
    intro k l hl
    refine hl.carry fun j _ m z hm hz hzf => ?_
    obtain ⟨-, htm, y', z', hz', hy', -, hfa, -⟩ := hroot j m hm
    rw [hz] at hz'
    cases hz'
    exact ⟨m, y', htm, rfl, rfl, hy', hfa.trans hzf⟩
  refine ⟨?_, ?_, ?_, ?_, ?_⟩
  · intro j m hm
    rcases eq_or_ne j i with rfl | hj
    · rw [hnew m hm]
      exact ⟨y, hy, hyi⟩
    · obtain ⟨-, -, y', z, -, hy', hh, -, hzi⟩ := hroot j m (hold j m hm hj)
      exact ⟨y', hy', (hull_mountId hh).trans hzi⟩
  · intro j m hm
    rcases eq_or_ne j i with rfl | hj
    · rw [hnew m hm]
      exact hr.forth org o ho
    · obtain ⟨o', ho'⟩ := h.org j m (hold j m hm hj)
      exact hr.forth _ o' ho'
  · intro k w j hw hj
    obtain ⟨z, hz, hself, hother, -⟩ := hr.back k w hw
    rcases eq_or_ne k n with rfl | hk
    · rw [(hself rfl).1] at hj
      cases hj
      exact ⟨_, hti, .inl rfl⟩
    · have hh := (hother hk).1
      simp only [hull, Prod.mk.injEq] at hh
      obtain ⟨m, hm, hor⟩ := h.back k z j hz (hh.1 ▸ hj)
      exact ⟨m, (hroot j m hm).2.1, hh.2.2.2.2 ▸ hor⟩
  · obtain ⟨l, hl, hall⟩ := h.stack
    have hin : ∀ j m w, t.mnt j = some m → j ≠ i → t.node m.root = some w → w.father = 0 → j ∈ l := by
      intro j m w hm hj hw hwf
      obtain ⟨-, -, y', z, hz, hy', -, hfa, -⟩ := hroot j m (hold j m hm hj)
      rw [hw] at hy'
      cases hy'
      exact hall j m z (hold j m hm hj) hz (hfa ▸ hwf)
    by_cases hof : o.father = 0
    · have hnot : i ∉ l := by
        intro hi
        obtain ⟨m, -, hm, -⟩ := hl.used i hi
        rw [hfree] at hm
        cases hm
      refine ⟨i :: l, ?_, fun j m w hm hw hwf => ?_⟩
      · rw [hr.root, if_pos hof]
        exact Stack.above hti hy (hyf.trans hof) hnot (htop hof ▸ hcarry hl)
      · rcases eq_or_ne j i with rfl | hj
        · exact List.mem_cons_self
        · exact List.mem_cons_of_mem i (hin j m w hm hj hw hwf)
    · refine ⟨l, ?_, fun j m w hm hw hwf => ?_⟩
      · rw [hr.root, if_neg hof]
        exact hcarry hl
      · rcases eq_or_ne j i with rfl | hj
        · rw [hnew m hm, hy] at hw
          cases hw
          exact absurd (hyf ▸ hwf) hof
        · exact hin j m w hm hj hw hwf
  · intro j m w hm hleft hw
    rcases eq_or_ne j i with rfl | hj
    · rw [hnew m hm] at hleft
      cases hleft
    · obtain ⟨-, -, y', z, hz, hy', hh, -⟩ := hroot j m (hold j m hm hj)
      rw [hw] at hy'
      cases hy'
      simp only [hull, Prod.mk.injEq] at hh
      obtain ⟨-, hp, hrefs, hrefsW, -⟩ := hh
      rw [hp, hrefs, hrefsW]
      exact h.left j m z (hold j m hm hj) hleft hz

/-- An umount that takes effect is of the root its slot names and of no copy, the last one mounted over
    the root of all if it has no father, and deletes nothing that another slot names. No copy is left
    with its slot. -/
def Topmost (s : Vfsd) (n : ℕ) : Prop :=
  ∀ x i m, s.node n = some x → x.mountId = some i → s.mnt i = some m →
    m.root = n ∧ (x.father = 0 → n = s.root) ∧ (∀ k y, s.node k = some y → y.mountId = some i → k = n) ∧
    (x.father ≠ 0 → ∀ o, s.node m.org = some o → o.mountId = none →
      ∀ j m', j ≠ i → s.mnt j = some m' → ¬Under (up s) m'.root m.org ∧ ¬Under (up s) m'.org m.org)

theorem MooredBut.lift {K : ℕ → List ℕ} {i : ℕ} {m : Mnt} {o x : Node} (h : MooredBut (· = n) s) (ht : Topmost s n)
    (hx : s.node n = some x) (hi : x.mountId = some i) (hm : s.mnt i = some m) (ho : s.node m.org = some o)
    (hl : Lifted K s t n x i m.org o) : Moored t := by
  obtain ⟨hroot, hlast, halone, hbelow⟩ := ht x i m hx hi hm
  have hold : ∀ j m', t.mnt j = some m' → j ≠ i ∧ s.mnt j = some m' := by
    intro j m' hm'
    rw [hl.mnt] at hm'
    rcases eq_or_ne j i with rfl | hj
    · rw [Function.update_self] at hm'
      cases hm'
    · rw [Function.update_of_ne hj] at hm'
      exact ⟨hj, hm'⟩
  have hkeep : ∀ j m', j ≠ i → s.mnt j = some m' → t.mnt j = some m' ∧ m'.root ≠ n ∧ ∃ y z,
      s.node m'.root = some z ∧ t.node m'.root = some y ∧ hull y = hull z ∧ y.father = z.father ∧
      z.mountId = some j := by
    intro j m' hj hm'
    obtain ⟨z, hz, hzj⟩ := h.root j m' hm'
    have hmn : m'.root ≠ n := by
      intro he
      rw [he, hx] at hz
      cases hz
      rw [hi] at hzj
      exact hj (Option.some.inj hzj).symm
    obtain ⟨y, hy⟩ := hl.stay _ z hz fun hf hoi => (hbelow hf o ho hoi j m' hj hm').1
    obtain ⟨z', hz', -, hhull, hfa, -⟩ := hl.back _ y hy
    rw [hz] at hz'
    cases hz'
    refine ⟨?_, hmn, y, z, hz, hy, hhull hmn, hfa.resolve_right fun hno => ?_, hzj⟩
    · rw [hl.mnt, Function.update_of_ne hj, hm']
    · rw [hzj] at hno
      cases hno.2
  have hcarry : ∀ {k l}, i ∉ l → Stack s k l → Stack t k l := by
    intro k l hil hst
    refine hst.carry fun j hj m' z hm' hz hzf => ?_
    obtain ⟨htm, -, y, z', hz', hy, -, hfa, -⟩ := hkeep j m' (fun he => hil (he ▸ hj)) hm'
    rw [hz] at hz'
    cases hz'
    exact ⟨m', y, htm, rfl, rfl, hy, hfa.trans hzf⟩
  refine ⟨?_, ?_, ?_, ?_, ?_⟩
  · intro j m' hm'
    obtain ⟨hj, hm'⟩ := hold j m' hm'
    obtain ⟨-, -, y, z, -, hy, hh, -, hzj⟩ := hkeep j m' hj hm'
    exact ⟨y, hy, (hull_mountId hh).trans hzj⟩
  · intro j m' hm'
    obtain ⟨hj, hm'⟩ := hold j m' hm'
    obtain ⟨o', ho'⟩ := h.org j m' hm'
    exact hl.stay _ o' ho' fun hf hoi => (hbelow hf o ho hoi j m' hj hm').2
  · intro k y j hy hj
    obtain ⟨z, hz, hself, hother, -⟩ := hl.back k y hy
    have hkn : k ≠ n := by
      intro he
      rw [hself he] at hj
      cases hj
    have hh := hother hkn
    simp only [hull, Prod.mk.injEq] at hh
    have hzj : z.mountId = some j := hh.1 ▸ hj
    obtain ⟨m', hm', hor⟩ := h.back k z j hz hzj
    have hji : j ≠ i := by
      rintro rfl
      exact hkn (halone k z hz hzj)
    exact ⟨m', (hkeep j m' hji hm').1, hh.2.2.2.2 ▸ hor⟩
  · obtain ⟨l, hst, hall⟩ := h.stack
    have hin : ∀ j m' y, t.mnt j = some m' → t.node m'.root = some y → y.father = 0 → j ≠ i ∧ j ∈ l := by
      intro j m' y hm' hy hyf
      obtain ⟨hj, hm'⟩ := hold j m' hm'
      obtain ⟨-, -, y', z, hz, hy', -, hfa, -⟩ := hkeep j m' hj hm'
      rw [hy] at hy'
      cases hy'
      exact ⟨hj, hall j m' z hm' hz (hfa ▸ hyf)⟩
    by_cases hf : x.father = 0
    · -- the last one mounted over the root of all
      have hn := hlast hf
      have hil : i ∈ l := hall i m x hm (hroot ▸ hx) hf
      rw [hl.root, if_pos ⟨hf, hn⟩]
      rw [← hn] at hst
      generalize hk : n = k at hst
      cases hst with
      | first => cases hil
      | @above j m' x' l' hm' hx' hf' hj hst' =>
        have hji : j = i := by
          obtain ⟨z, hz, hzj⟩ := h.root j m' hm'
          rw [← hk, hx] at hz
          cases hz
          rw [hi] at hzj
          exact (Option.some.inj hzj).symm
        subst hji
        rw [hm] at hm'
        cases hm'
        refine ⟨l', hcarry hj hst', fun j' m'' y hm'' hy hyf => ?_⟩
        obtain ⟨hne, hmem⟩ := hin j' m'' y hm'' hy hyf
        exact (List.mem_cons.mp hmem).resolve_left hne
    · have hil : i ∉ l := by
        intro hmem
        obtain ⟨m', x', hm', hx', hf'⟩ := hst.used i hmem
        rw [hm] at hm'
        cases hm'
        rw [hroot, hx] at hx'
        cases hx'
        exact hf hf'
      rw [hl.root, if_neg fun hand => hf hand.1]
      exact ⟨l, hcarry hil hst, fun j m' y hm' hy hyf => (hin j m' y hm' hy hyf).2⟩
  · intro j m' y hm' hleft hy
    obtain ⟨hj, hm'⟩ := hold j m' hm'
    obtain ⟨-, hmn, y', z, hz, hy', hh, -⟩ := hkeep j m' hj hm'
    rw [hy] at hy'
    cases hy'
    simp only [hull, Prod.mk.injEq] at hh
    obtain ⟨-, hp, hrefs, hrefsW, -⟩ := hh
    rw [hp, hrefs, hrefsW]
    exact .inr ((h.left j m' z hm' hleft hz).resolve_left hmn)

theorem MooredBut.umountNow {x : Node} (h : MooredBut (· = n) s) (hg : Grown s) (hok : UmountOk s n)
    (ht : Topmost s n) (hx : s.node n = some x) (hmi : x.mountId.isSome = true) : Moored (s.umountNow n) := by
  obtain ⟨i, hi⟩ := Option.isSome_iff_exists.mp hmi
  obtain ⟨m, hm, -⟩ := h.back n x i hx hi
  obtain ⟨o, ho⟩ := h.org i m hm
  obtain ⟨K, hK, hd⟩ := hg
  exact h.lift ht hx hi hm ho (hK.lifted hd hok hx hi hm ho)

theorem Moored.marked {i : ℕ} {m : Mnt} (h : Moored s) (hm : s.mnt i = some m) :
    MooredBut (· = m.root) (marked s i m) := by
  have hmnt : ∀ j m', (Vfs.marked s i m).mnt j = some m' → ∃ m₀, s.mnt j = some m₀ ∧ m'.root = m₀.root ∧
      m'.org = m₀.org ∧ (j ≠ i → m' = m₀) := by
    intro j m' hm'
    change Function.update s.mnt i _ j = some m' at hm'
    rcases eq_or_ne j i with rfl | hj
    · rw [Function.update_self] at hm'
      cases hm'
      exact ⟨m, hm, rfl, rfl, fun h => absurd rfl h⟩
    · rw [Function.update_of_ne hj] at hm'
      exact ⟨m', hm', rfl, rfl, fun _ => rfl⟩
  have hback : ∀ j m₀, s.mnt j = some m₀ → ∃ m', (Vfs.marked s i m).mnt j = some m' ∧ m'.root = m₀.root ∧
      m'.org = m₀.org := by
    intro j m₀ hm₀
    rcases eq_or_ne j i with rfl | hj
    · rw [hm] at hm₀
      cases hm₀
      exact ⟨_, Function.update_self .., rfl, rfl⟩
    · exact ⟨m₀, (Function.update_of_ne hj _ _).trans hm₀, rfl, rfl⟩
  refine ⟨?_, ?_, ?_, ?_, ?_⟩
  · intro j m' hm'
    obtain ⟨m₀, hm₀, hr, -⟩ := hmnt j m' hm'
    rw [hr]
    exact h.root j m₀ hm₀
  · intro j m' hm'
    obtain ⟨m₀, hm₀, -, ho, -⟩ := hmnt j m' hm'
    rw [ho]
    exact h.org j m₀ hm₀
  · intro k x j hx hj
    obtain ⟨m₀, hm₀, hor⟩ := h.back k x j hx hj
    obtain ⟨m', hm', hr, -⟩ := hback j m₀ hm₀
    exact ⟨m', hm', hr ▸ hor⟩
  · obtain ⟨l, hl, hall⟩ := h.stack
    refine ⟨l, hl.carry fun j _ m₀ x hm₀ hx hf => ?_, fun j m' x hm' hx hf => ?_⟩
    · obtain ⟨m', hm', hr, ho⟩ := hback j m₀ hm₀
      exact ⟨m', x, hm', hr, ho, hx, hf⟩
    · obtain ⟨m₀, hm₀, hr, -⟩ := hmnt j m' hm'
      exact hall j m₀ x hm₀ (hr ▸ hx) hf
  · intro j m' x hm' hleft hx
    obtain ⟨m₀, hm₀, hr, -, hsame⟩ := hmnt j m' hm'
    rcases eq_or_ne j i with rfl | hj
    · rw [hm] at hm₀
      cases hm₀
      exact .inl hr
    · rw [hsame hj] at hleft hx
      exact .inr ((h.left j m₀ x hm₀ hleft hx).resolve_left id)

theorem Topmost.marked {i : ℕ} {m : Mnt} {x : Node} (h : Topmost s m.root) (hm : s.mnt i = some m)
    (hx : s.node m.root = some x) (hi : x.mountId = some i) : Topmost (marked s i m) m.root := by
  intro y j m' hy hj hm'
  change s.node m.root = some y at hy
  rw [hx] at hy
  cases hy
  rw [hi] at hj
  cases hj
  change Function.update s.mnt i _ i = some m' at hm'
  rw [Function.update_self] at hm'
  cases hm'
  obtain ⟨hr, hlast, halone, hbelow⟩ := h x i m hx hi hm
  refine ⟨hr, hlast, halone, fun hf o ho hoi j m' hj hm' => ?_⟩
  change Function.update s.mnt i _ j = some m' at hm'
  rw [Function.update_of_ne hj] at hm'
  exact hbelow hf o ho hoi j m' hj hm'

/-! ### Runs -/

/-- What is asked for where the mount table is to match the tree, besides what keeps the tree. -/
def mountRules : Rules where
  make := Fresh
  del s n := Clear s n ∧ Unmoored s n
  lift s n := UmountOk s n ∧ Topmost s n
  cover := treeRules.cover

def Anchored : Vfsd → Op → Prop := mountRules.Follows

theorem Same.unmoored (h : Same s t) (hu : Unmoored s n) : Unmoored t n := by
  intro i m hm
  rw [h.up]
  exact hu i m (h.mnt ▸ hm)

theorem Same.topmost (h : Same s t) (ht : Topmost s n) : Topmost t n := by
  intro y i m hy hi hm
  obtain ⟨x, hx, he⟩ := h.back hy
  obtain ⟨hfa, -, hmi⟩ := key_eq he
  rw [h.mnt] at hm
  obtain ⟨hr, hlast, halone, hbelow⟩ := ht x i m hx (hmi.trans hi) hm
  refine ⟨hr, fun hf => ?_, fun k z hz hzi => ?_, fun hf o ho hoi => ?_⟩
  · rw [h.root]
    exact hlast (hfa ▸ hf)
  · obtain ⟨z', hz', hez⟩ := h.back hz
    exact halone k z' hz' ((key_eq hez).2.2.trans hzi)
  · obtain ⟨o', ho', heo⟩ := h.back ho
    rw [h.up, h.mnt]
    exact hbelow (hfa ▸ hf) o' ho' ((key_eq heo).2.2.trans hoi)

theorem MooredBut.detach {x : Node} (h : MooredBut (· = n) s) (hg : Grown s) (hx : s.node n = some x)
    (hmi : x.mountId.isSome = true) (hok : x.refs = 0 → x.refsW = 0 → mountRules.lift s n) :
    Moored (s.detach n x) := by
  unfold Vfsd.detach
  split
  · rename_i hopen
    have hsame : Same s (s.modify n fun x => { x with pending := true }) := (Same.refl s).modify fun _ => rfl
    refine (h.rides (.same hsame fun i m x y hm hx hy => ?_)).settled fun i m y hm hl he hy => ?_
    · rcases modify_cases s n _ hy with ⟨-, hy⟩ | ⟨he, -⟩
      · rw [hx] at hy
        cases hy
        exact .inr ⟨id, Nat.le_refl _, Nat.le_refl _⟩
      · exact .inl he
    · rw [he, modify_self, hx] at hy
      cases hy
      exact ⟨rfl, hopen⟩
  · obtain ⟨hu, ht⟩ := hok (by omega) (by omega)
    exact h.umountNow hg hu ht hx hmi

theorem Moored.umountSlot {pid i : ℕ} (h : Moored s) (hg : Grown s) (hok : mountRules.SlotOk pid s i) :
    Moored (umountSlot pid s i) := by
  rcases umountSlot_cases (s := s) pid i with he | ⟨m, hm, hpid, ⟨x, hx, hi, he⟩ | ⟨hroot, -⟩⟩
  · rw [he]
    exact h
  · rw [he]
    refine (h.marked hm).detach (hg.marked hm) hx (by rw [hi]; rfl) fun hr hw => ?_
    obtain ⟨hu, ht⟩ := hok m x hm hpid hx hi hr hw
    exact ⟨hu.marked hm hx hi, ht.marked hm hx hi⟩
  · obtain ⟨x, hx, hi⟩ := h.root i m hm
    exact absurd hi (hroot x hx)

theorem Moored.closeFd {p k : ℕ} (h : Moored s) (hg : Grown s) (hok : mountRules.CloseOk p s k) :
    Moored (closeFd p s k) := by
  rcases closeFd_cases (s := s) p k with he | ⟨f, hf, hcase⟩
  · rw [he]
    exact h
  have hsame := same_dropped (s := s) p k f
  have ht := hsame.grown hg
  have hbut : MooredBut (· = f.node) (dropped s p k f) := by
    refine (Moored.but h).rides (.same hsame fun i m x y hm hx hy => ?_)
    rcases modify_cases _ _ _ hy with ⟨-, hy⟩ | ⟨he, -⟩
    · change s.node m.root = some y at hy
      rw [hx] at hy
      cases hy
      exact .inr ⟨id, Nat.le_refl _, Nat.le_refl _⟩
    · exact .inl he
  rcases hcase with ⟨hnone, he⟩ | ⟨x, y, hx, hy, hp, hmi, ⟨ha, hr, he⟩ | ⟨ha, hxm, hxp, hr, he⟩ | ⟨hopen, he⟩⟩
  · rw [he]
    refine hbut.settled fun i m x hm _ hc hx => ?_
    obtain ⟨z, hz, -⟩ := hsame.back hx
    rw [hc, hnone] at hz
    cases hz
  · -- an anonymous node is deleted, which is in no slot
    rw [he]
    obtain ⟨hclear, hun⟩ := (hok f x hf hx hr).1 ha
    have hun' := hsame.unmoored hun
    have hmoored : Moored (dropped s p k f) := hbut.settled fun i m x hm _ hc _ =>
      absurd (hc ▸ .self m.root) (hun' i m hm).1
    exact hmoored.rides (.delNode ht (hsame.clear hclear) hun')
  · rw [he]
    obtain ⟨hu, htop⟩ := (hok f x hf hx hr).2 ha hxm hxp
    exact hbut.umountNow ht (hsame.umountOk hu) (hsame.topmost htop) hy (hmi ▸ hxm)
  · rw [he]
    refine hbut.settled fun i m z hm hl hc hz => ?_
    rw [hc, hy] at hz
    cases hz
    rw [hsame.mnt] at hm
    rw [← hc] at hx
    have hxp := ((h.left i m x hm hl hx).resolve_left id).1
    obtain ⟨x', hx', hi⟩ := h.root i m hm
    rw [hx] at hx'
    cases hx'
    refine ⟨hp.trans hxp, ?_⟩
    have hsome : y.mountId.isSome = true := by
      rw [hmi, hi]
      rfl
    by_contra hzero
    exact hopen ⟨hsome, hp.trans hxp, by omega, by omega⟩

theorem keeps_moored : Keeps mountRules fun s => Grown s ∧ Moored s where
  calm _ _ h hc := ⟨hc.grown h.1, h.2.rides (.calm hc)⟩
  again _ _ h hc := h.calm hc
  kernel s pid x h _ := by
    refine ⟨keeps_grown.kernel s pid x h.1 trivial, h.2.rides (.same ⟨fun _ => rfl, rfl, rfl, rfl⟩ ?_)⟩
    intro i m x y _ hx hy
    cases hx.symm.trans hy
    exact .inr ⟨id, Nat.le_refl _, Nat.le_refl _⟩
  loaded s n h := by
    refine ⟨keeps_grown.loaded s n h.1, h.2.rides (.edit fun x => ?_)⟩
    dsimp only
    split <;> exact ⟨rfl, rfl, rfl, rfl⟩
  create s dir x h hf hx hdir := by
    obtain ⟨hg, hlive⟩ := keeps_grown.create s dir x h.1 hf hx hdir
    exact ⟨⟨hg, h.2.rides (.create h.2 hf (congrArg (fun k => k.2.1) hx) hdir)⟩, hlive⟩
  copy s n x c u h hf hx hu := by
    refine ⟨h.1.newNode hf hu rfl, h.2.rides (.newNode hf hu fun i hi => ⟨rfl, ?_⟩)⟩
    obtain ⟨m, hm, -⟩ := h.2.back n x i hx hi
    exact ⟨m, hm⟩
  data _ _ _ _ _ h _ _ _ _ := ⟨h.1.edit fun _ => rfl, h.2.rides (.edit fun _ => ⟨rfl, rfl, rfl, rfl⟩)⟩
  attrs _ _ _ _ _ _ h hc _ _ _ _ := ⟨(hc.grown h.1).edit fun _ => rfl,
    (h.2.rides (.calm hc)).rides (.edit fun _ => ⟨rfl, rfl, rfl, rfl⟩)⟩
  trunc _ _ _ _ _ _ h hc _ _ _ _ := ⟨(hc.grown h.1).edit fun _ => rfl,
    (h.2.rides (.calm hc)).rides (.edit fun _ => ⟨rfl, rfl, rfl, rfl⟩)⟩
  delNode s _ n _ h _ _ _ hc := ⟨h.1.delNode hc.1, h.2.rides (.delNode h.1 hc.1 hc.2)⟩
  mount s t pid org n o h _ ho _ hc hm := by
    obtain ⟨hl, hund⟩ := hc o ho
    obtain ⟨K, hK, -⟩ := h.1
    obtain ⟨x, i, hx, hmi, -, hfree, htop, hr⟩ := hK.raised ho hl hund hm
    exact ⟨h.1.mount ho hl hund hm, h.2.mount hx hmi hfree ho htop hr⟩
  umount s _ n x h _ hx hmi _ hok :=
    ⟨h.1.detach fun hr hw => (hok hr hw).1, (Moored.but h.2).detach h.1 hx hmi hok⟩
  umountSlot s pid i h hok := by
    refine ⟨h.1.umountSlot fun m x hm hpid hx hi hr hw => ?_, h.2.umountSlot h.1 hok⟩
    exact (hok m x hm hpid hx hi hr hw).1
  closeFd s p k h hok := by
    refine ⟨h.1.closeFd fun f x hf hx hr => ?_, h.2.closeFd h.1 hok⟩
    exact ⟨fun ha => ((hok f x hf hx hr).1 ha).1, fun ha hmi hp => ((hok f x hf hx hr).2 ha hmi hp).1⟩

theorem moored_init (max : ℕ) (task : ℕ → Task) : Moored (init max task) := by
  refine ⟨?_, ?_, ?_, ⟨[], .first, ?_⟩, ?_⟩
  · rintro i m ⟨⟩
  · rintro i m ⟨⟩
  · intro n x i hx hi
    simp only [init, Function.update_apply] at hx
    split at hx
    · cases hx
      cases hi
    · cases hx
  · rintro i m x ⟨⟩
  · rintro i m x ⟨⟩

end

/-- The mount table matches the tree. -/
structure Matched (s : Vfsd) : Prop where
  /-- A used slot belongs to one node, to its copies, and to a covered node. -/
  slot : ∀ i m, s.mnt i = some m → (∃ x, s.node m.root = some x ∧ x.mountId = some i) ∧
    (∃ o, s.node m.org = some o) ∧ ∀ n x, s.node n = some x → x.mountId = some i → n = m.root ∨ x.copy = true
  used : ∀ n x i, s.node n = some x → x.mountId = some i → ∃ m, s.mnt i = some m
  /-- A node is routed to who mounted an ancestor, or what an ancestor was copied from. -/
  routed : ∀ n p, s.getMountPid n = some p → ∃ a x i m, Under (up s) n a ∧ s.node a = some x ∧
    x.mountId = some i ∧ (m.root = a ∨ x.copy = true) ∧ s.mnt i = some m ∧ m.pid = p
  /-- The slot of a process that has gone is used while its root is open. -/
  freed : ∀ i m x, s.mnt i = some m → m.left = true → s.node m.root = some x → 0 < x.refs ∨ 0 < x.refsW
  /-- With no mount left over the root of all, the first root is the root. -/
  restored : (∀ i m x, s.mnt i = some m → s.node m.root = some x → x.father ≠ 0) → s.root = 1

/-- The walk of `vfs_get_mount_id` ends at an ancestor. -/
theorem climb_under {s : Vfsd} {k n i : ℕ} (hnull : s.node 0 = none) (h : s.climb k n = some i) :
    ∃ a x, Under (up s) n a ∧ s.node a = some x ∧ x.mountId = some i := by
  induction k generalizing n with
  | zero => cases h
  | succ k ih =>
    unfold climb at h
    split at h
    · cases h
    rename_i x hx
    split at h
    · rename_i j hj
      cases h
      exact ⟨n, x, .self n, hx, hj⟩
    · obtain ⟨a, y, hu, hy, hi⟩ := ih h
      have hf : x.father ≠ 0 := by
        intro hf
        rw [hf] at h
        cases k with
        | zero => cases h
        | succ k =>
          rw [climb, hnull] at h
          cases h
      exact ⟨a, y, .go (up_eq hx hf) hu, hy, hi⟩

theorem Moored.matched {s : Vfsd} (h : Moored s) (hg : Grown s) : Matched s := by
  refine ⟨fun i m hm => ⟨h.root i m hm, h.org i m hm, fun n x hx hi => ?_⟩, fun n x i hx hi => ?_, fun n p hp => ?_,
    fun i m x hm hl hx => ((h.left i m x hm hl hx).resolve_left id).2, fun hno => ?_⟩
  · obtain ⟨m', hm', hor⟩ := h.back n x i hx hi
    rw [hm] at hm'
    cases hm'
    exact hor.imp Eq.symm id
  · obtain ⟨m, hm, -⟩ := h.back n x i hx hi
    exact ⟨m, hm⟩
  · unfold getMountPid at hp
    split at hp
    · cases hp
    rename_i i hi
    split at hp
    swap
    · cases hp
    obtain ⟨K, hK, -⟩ := hg
    obtain ⟨a, x, hu, hx, hxi⟩ := climb_under hK.null hi
    obtain ⟨m, hm, hor⟩ := h.back a x i hx hxi
    rw [hm] at hp
    exact ⟨a, x, i, m, hu, hx, hxi, hor, hm, Option.some.inj hp⟩
  · obtain ⟨l, hl, -⟩ := h.stack
    generalize s.root = r at hl ⊢
    cases hl with
    | first => rfl
    | above hm hx hf _ _ => exact absurd hf (hno _ _ _ hm hx)

/-- In every state of every run whose requests are anchored the mount table matches the tree. -/
theorem mounts_matched {max : ℕ} {task : ℕ → Task} {s : Vfsd}
    (h : Reach Vfsd.step Anchored (init max task) s) : Matched s := by
  have hinv := h.inv (I := fun s => Grown s ∧ Moored s) ⟨grown_init max task, moored_init max task⟩
    fun _ _ _ hs hok ht => keeps_moored.step hs hok ht
  exact hinv.2.matched hinv.1

/-- What is at the mount point is served by the driver. -/
theorem mounts_matched_routed : someMounted.getMountPid 3 = some 1 ∧ Matched someMounted :=
  ⟨by decide +kernel, mounts_matched (reach_someMounted trivial rfl rfl)⟩

/-- A user opens an anonymous node that a driver has mounted: the slot belongs to two nodes. -/
theorem copy_shares_slot : ∃ s, Reach Vfsd.step Free (init 8 someTasks) s ∧
    ¬∀ i m, s.mnt i = some m → ∃ n, (∃ x, s.node n = some x ∧ x.mountId = some i) ∧
      ∀ k, (∃ x, s.node k = some x ∧ x.mountId = some i) → k = n := by
  have hrun : ((runOps Vfsd.step (init 8 someTasks) [
      .newNode 1 someDir 1 true false false,
      .newNode 1 somePipe 0 true false false,
      .mount 1 2 3,
      .openNode 5 3 ⟨false, false, false, false⟩]).bind fun s =>
        (s.mnt 0).bind fun m => (s.node 3).bind fun x => (s.node 4).map fun y => (m.root, x.mountId, y.mountId)) =
      some (3, some 0, some 0) := by
    decide +kernel
  obtain ⟨s, hs, hx⟩ := Option.bind_eq_some_iff.mp hrun
  obtain ⟨m, hm, hx⟩ := Option.bind_eq_some_iff.mp hx
  obtain ⟨x, hx, hy⟩ := Option.bind_eq_some_iff.mp hx
  obtain ⟨y, hy, he⟩ := Option.map_eq_some_iff.mp hy
  simp only [Prod.mk.injEq] at he
  refine ⟨s, reach_of_runOps hs, fun h => ?_⟩
  obtain ⟨n, -, hone⟩ := h 0 m hm
  have h3 := hone 3 ⟨x, hx, he.2.1⟩
  have h4 := hone 4 ⟨y, hy, he.2.2⟩
  omega

end EwokOS.Vfs
