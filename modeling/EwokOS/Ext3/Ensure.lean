import EwokOS.Ext3.Grow

/-! The blocks of an inode, and how `ext3_ensure_data_block` adds to them. -/

namespace EwokOS.Ext3.Vol

open Schemes Act

/-- The blocks of an inode: direct blocks and trees. -/
def refs (v : Vol) (n : Inode) : List ℕ := (List.range 15).flatMap fun i => treeOf v (i - 11) (n.block i)

/-- Those that do not hang on `i_block[i]`. -/
def refsBut (v : Vol) (n : Inode) (i : ℕ) : List ℕ :=
  ((List.range 15).erase i).flatMap fun j => treeOf v (j - 11) (n.block j)

/-- `n₀` is the inode as it was before some blocks were hung on it. -/
def Earlier (n₀ n : Inode) : Prop := ∀ i, n₀.block i = 0 ∨ n₀.block i = n.block i

/-- What is not changed while an inode gets more blocks. -/
structure Tended (v w : Vol) : Prop where
  eq : w = { v with
    bmap := w.bmap, bgroup := w.bgroup, bdirty := w.bdirty,
    free := w.free, groupFree := w.groupFree, next := w.next, raw := w.raw, slot := w.slot,
    dirty := w.dirty, buf := w.buf, io := w.io, seen := w.seen,
    cur := { v.cur with block := w.cur.block, blocks := w.cur.blocks } }
  quiet : v.Quiet → w.Quiet

/-- The buffer stands for a single-indirect block. It is what lies below unless it is dirty, or the
    block is new and only zeroed. -/
structure SlotOk (O : ℕ → Prop) (n₀ : Inode) (v : Vol) : Prop where
  role : v.slot = 0 ∨ v.slot = v.cur.block 12 ∨ O v.slot
  clean : v.slot = 0 ∨ v.dirty = true ∨ v.buf = v.raw v.slot ∨
    (v.slot = v.cur.block 12 ∧ n₀.block 12 = 0)

/-- A commit makes durable what the inode was before. -/
structure Durable (O : ℕ → Prop) (P : ℕ → Content) (n₀ : Inode) (s : Vol) : Prop where
  owns : Owns O P (refs s n₀) s
  slot : s.slot = 0 ∨ s.dirty = true ∨ s.buf = s.raw s.slot ∨ (¬O s.slot ∧ s.slot ∉ refs s n₀)

/-- The condition on what may be committed meanwhile. -/
def Allows (G : Image → Prop) (O : ℕ → Prop) (P : ℕ → Content) (n₀ : Inode) (v : Vol) : Prop :=
  ∀ s, Tended v s → Durable O P n₀ s → G s.image

/-- An inode at work on: its blocks, the buffer, and what it was before. -/
structure Work (O : ℕ → Prop) (P : ℕ → Content) (n₀ : Inode) (v : Vol) : Prop where
  owns : Owns O P (refs v v.cur) v
  slot : SlotOk O n₀ v
  earlier : Earlier n₀ v.cur

/-- The inode has got more blocks. -/
structure Ensured (G : Image → Prop) (O : ℕ → Prop) (P : ℕ → Content) (n₀ : Inode) (v w : Vol) :
    Prop where
  tended : Tended v w
  work : Work O P n₀ w
  seen : ∀ x ∈ w.seen, x ∈ v.seen ∨ G x
  exact : v.Quiet → Exact O (refs v v.cur) 0 v → Exact O (refs w w.cur) 0 w

/-- A place in the map of an inode: an entry of `i_block`, and a path from there. -/
def Place (v : Vol) (j : ℕ) (q : List ℕ) : Prop := j < 15 ∧ q.length = j - 11 ∧ ∀ k ∈ q, k < v.geo.entries

/-- The block at a place. -/
def spot (v : Vol) (j : ℕ) (q : List ℕ) : ℕ := follow v.view (v.cur.block j) q

/-- The map of the inode is what it was. -/
def Stays (v w : Vol) : Prop := ∀ j q, Place v j q → spot w j q = spot v j q

/-- Block `x` is now at a place, and the map is what it was at all others. -/
structure Placed (i : ℕ) (path : List ℕ) (x : ℕ) (v w : Vol) : Prop where
  here : spot w i path = x
  ne : x ≠ 0
  rest : ∀ j q, Place v j q → (j, q) ≠ (i, path) → spot w j q = spot v j q

section
variable {O : ℕ → Prop} {P : ℕ → Content} {G : Image → Prop} {n₀ n n' : Inode} {L L' : List ℕ} {K : ℕ}
  {v w u s : Vol} {a b d i : ℕ}

theorem Tended.trans (h : Tended v w) (h' : Tended w u) : Tended v u := by
  refine ⟨?_, fun hq => h'.quiet (h.quiet hq)⟩
  conv_lhs => rw [h'.eq, h.eq]

theorem Tended.refl (v : Vol) : Tended v v := ⟨rfl, id⟩

theorem Kept.tended (h : Kept v w) : Tended v w := by
  refine ⟨?_, h.quiet⟩
  rw [h.eq]

theorem Tended.geo (h : Tended v w) : w.geo = v.geo := by
  rw [h.eq]

theorem Ensured.trans (h : Ensured G O P n₀ v w) (h' : Ensured G O P n₀ w u) : Ensured G O P n₀ v u := by
  refine ⟨h.tended.trans h'.tended, h'.work, fun x hx => ?_, fun hq he => ?_⟩
  · rcases h'.seen x hx with hx | hx
    · exact h.seen x hx
    · exact .inr hx
  · exact h'.exact (h.tended.quiet hq) (h.exact hq he)

theorem Allows.of_tended (hG : Allows G O P n₀ v) (h : Tended v w) : Allows G O P n₀ w :=
  fun s hs => hG s (h.trans hs)

/-! ### The blocks of an inode -/

theorem refs_perm (v : Vol) (n : Inode) (hi : i < 15) :
    (refs v n).Perm (treeOf v (i - 11) (n.block i) ++ refsBut v n i) :=
  (List.perm_cons_erase (List.mem_range.mpr hi)).flatMap_right fun j => treeOf v (j - 11) (n.block j)

theorem refs_congr (hg : w.geo = v.geo) (hn : n'.block = n.block)
    (h : ∀ x ∈ refs v n, w.content x = v.content x) : refs w n' = refs v n := by
  rw [refs, refs, hn]
  refine List.flatMap_congr fun i hi => treeOf_congr hg fun x hx => h x ?_
  exact List.mem_flatMap.mpr ⟨i, hi, hx⟩

theorem refsBut_congr (hg : w.geo = v.geo) (hn : ∀ j, j ≠ i → n'.block j = n.block j)
    (h : ∀ x ∈ refsBut v n i, w.content x = v.content x) : refsBut w n' i = refsBut v n i := by
  rw [refsBut, refsBut]
  refine List.flatMap_congr fun j hj => ?_
  rw [hn j ((List.Nodup.mem_erase_iff List.nodup_range).mp hj).1]
  exact treeOf_congr hg fun x hx => h x (List.mem_flatMap.mpr ⟨j, hj, hx⟩)

/-- What is at a place depends on the blocks of its tree. -/
theorem spot_congr {j : ℕ} {q : List ℕ} (hp : Place v j q) (hb : w.cur.block j = v.cur.block j)
    (h : ∀ x ∈ treeOf v (j - 11) (v.cur.block j), w.content x = v.content x) : spot w j q = spot v j q := by
  rw [spot, spot, hb]
  refine follow_congr hp.2.2 fun x hx k _ => ?_
  rw [hp.2.1] at hx
  rw [view, view, h x (inner_subset hx)]

theorem tree_subset_refs {j : ℕ} (hj : j < 15) {x : ℕ} (hx : x ∈ treeOf v (j - 11) (n.block j)) : x ∈ refs v n :=
  List.mem_flatMap.mpr ⟨j, List.mem_range.mpr hj, hx⟩

theorem tree_subset_refsBut {j : ℕ} (hj : j < 15) (hji : j ≠ i) {x : ℕ}
    (hx : x ∈ treeOf v (j - 11) (n.block j)) : x ∈ refsBut v n i :=
  List.mem_flatMap.mpr ⟨j, (List.Nodup.mem_erase_iff List.nodup_range).mpr ⟨hji, List.mem_range.mpr hj⟩, hx⟩

theorem Placed.of_stays {path : List ℕ} (h : Placed i path a w u) (hs : Stays v w) (hg : w.geo = v.geo) :
    Placed i path a v u := by
  refine ⟨h.here, h.ne, fun j q hp hne => ?_⟩
  have hpw : Place w j q := ⟨hp.1, hp.2.1, fun k hk => hg ▸ hp.2.2 k hk⟩
  rw [h.rest j q hpw hne]
  exact hs j q hp

theorem Stays.trans (h : Stays v w) (hg : w.geo = v.geo) (h' : Stays w u) : Stays v u := by
  intro j q hp
  have hpw : Place w j q := ⟨hp.1, hp.2.1, fun k hk => hg ▸ hp.2.2 k hk⟩
  rw [h' j q hpw]
  exact h j q hp

/-- A block that is there already. -/
theorem Stays.placed {path : List ℕ} (h : Stays v w) (hx : spot w i path = a) (ha : a ≠ 0) :
    Placed i path a v w := ⟨hx, ha, fun j q hp _ => h j q hp⟩

theorem flatMap_sublist {f g : ℕ → List ℕ} (l : List ℕ) (h : ∀ i ∈ l, (f i).Sublist (g i)) :
    (l.flatMap f).Sublist (l.flatMap g) := by
  induction l with
  | nil => exact List.Sublist.refl _
  | cons i l ih =>
    rw [List.flatMap_cons, List.flatMap_cons]
    exact (h i List.mem_cons_self).append (ih fun j hj => h j (List.mem_cons_of_mem i hj))

theorem Earlier.sublist (h : Earlier n₀ n) (v : Vol) : (refs v n₀).Sublist (refs v n) := by
  refine flatMap_sublist _ fun i _ => ?_
  rcases h i with h0 | he
  · rw [h0, treeOf, tree_none]
    exact List.nil_sublist _
  · rw [he]

theorem Owns.sublist (h : Owns O P L v) (hs : L'.Sublist L) : Owns O P L' v :=
  ⟨h.books, h.range, h.zero, h.others, fun x hx => h.mine x (hs.subset hx), h.nodup.sublist hs,
    fun x hx => h.inside x (hs.subset hx), h.frame⟩

/-- A block of the single-indirect tree is in no other. -/
theorem Work.durable (h : Work O P n₀ v) : Durable O P n₀ v := by
  refine ⟨h.owns.sublist (h.earlier.sublist v), ?_⟩
  rcases h.slot.clean with h0 | hd | hb | ⟨hs, h0⟩
  · exact .inl h0
  · exact .inr (.inl hd)
  · exact .inr (.inr (.inl hb))
  · by_cases hz : v.slot = 0
    · exact .inl hz
    have hmem : v.slot ∈ treeOf v 1 (v.cur.block 12) := by
      rw [← hs]
      exact root_mem_tree hz
    have hperm := refs_perm v v.cur (show 12 < 15 by decide)
    refine .inr (.inr (.inr ⟨?_, fun hr => ?_⟩))
    · exact (h.owns.inside v.slot (hperm.mem_iff.mpr (List.mem_append_left _ hmem))).2.2.2
    · -- the earlier inode had no such tree
      have hperm₀ := refs_perm v n₀ (show 12 < 15 by decide)
      have hnil : treeOf v (12 - 11) (n₀.block 12) = [] := by
        rw [h0, treeOf, tree_none]
      rw [hperm₀.mem_iff, hnil, List.nil_append] at hr
      have hsub : (refsBut v n₀ 12).Sublist (refsBut v v.cur 12) := by
        refine flatMap_sublist _ fun i _ => ?_
        rcases h.earlier i with hi | hi
        · rw [hi, treeOf, tree_none]
          exact List.nil_sublist _
        · rw [hi]
      exact (List.nodup_append.mp (hperm.nodup_iff.mp h.owns.nodup)).2.2 _ hmem _ (hsub.subset hr) rfl

/-! ### Steps that move nothing -/

/-- The buffers have been used for something else; all blocks hold what they held. -/
structure Shifted (v w : Vol) : Prop where
  tended : Tended v w
  bmap : w.bmap = v.bmap
  free : w.free = v.free
  groupFree : w.groupFree = v.groupFree
  cur : w.cur = v.cur
  content : ∀ x, w.content x = v.content x
  seen : ∀ x ∈ w.seen, x ∈ v.seen ∨ x = v.image

theorem Idle.shifted (h : Idle v w) : Shifted v w := by
  refine ⟨h.kept.tended, ?_, ?_, ?_, ?_, h.content, h.seen⟩ <;> rw [h.eq]

theorem Shifted.used (h : Shifted v w) (x : ℕ) : w.used x = v.used x := by
  rw [Vol.used, Vol.used, h.bmap, h.tended.geo]

theorem Shifted.refs (h : Shifted v w) (n : Inode) : refs w n = Vol.refs v n :=
  refs_congr h.tended.geo rfl fun x _ => h.content x

theorem Shifted.stays (h : Shifted v w) : Stays v w := fun j q hp =>
  spot_congr hp (by rw [h.cur]) fun x _ => h.content x

theorem Shifted.owns (h : Shifted v w) (ho : Owns O P L v) : Owns O P L w :=
  ho.recontent h.bmap h.tended.geo h.free h.groupFree fun x _ => h.content x

theorem Shifted.exact (h : Shifted v w) (he : Exact O L K v) : Exact O L K w := by
  refine ⟨fun x h₁ h₂ hx => ?_, ?_⟩
  · rw [h.tended.geo] at h₁ h₂
    exact he.used x h₁ h₂ (by rw [← h.used]; exact hx)
  · rw [h.cur, h.tended.geo]
    exact he.blocks

theorem Shifted.ensured (h : Shifted v w) (hw : Work O P n₀ v) (hs : SlotOk O n₀ w)
    (hG : Allows G O P n₀ v) : Ensured G O P n₀ v w := by
  refine ⟨h.tended, ⟨?_, hs, by rw [h.cur]; exact hw.earlier⟩, fun x hx => ?_, fun _ he => ?_⟩
  · rw [h.refs, h.cur]
    exact h.owns hw.owns
  · rcases h.seen x hx with hx | rfl
    · exact .inl hx
    · exact .inr (hG v (.refl v) hw.durable)
  · rw [h.refs, h.cur]
    exact h.exact he

theorem Idle.slotOk (h : Idle v w) (hs : SlotOk O n₀ v) : SlotOk O n₀ w := by
  rw [h.eq]
  exact ⟨hs.role, hs.clean⟩

theorem Idle.ensured (h : Idle v w) (hw : Work O P n₀ v) (hG : Allows G O P n₀ v) :
    Ensured G O P n₀ v w :=
  h.shifted.ensured hw (h.slotOk hw.slot) hG

/-! ### Below a root that is there -/

theorem Work.focus (h : Work O P n₀ v) (hi : i < 15) :
    Owns (fun x => O x ∨ x ∈ refsBut v v.cur i) v.content (treeOf v (i - 11) (v.cur.block i)) v :=
  (h.owns.perm (refs_perm v v.cur hi).symm).focus

theorem Work.unfocus (h : Work O P n₀ v) (hi : i < 15) (hk : Kept v s)
    (hs : Owns (fun x => O x ∨ x ∈ refsBut v v.cur i) v.content (treeOf s (i - 11) (v.cur.block i)) s) :
    Work O P n₀ s ∧ (refs s s.cur).Perm (treeOf s (i - 11) (v.cur.block i) ++ refsBut v v.cur i) := by
  have hblock : s.cur.block = v.cur.block := by rw [hk.eq]
  have hbut : refsBut s s.cur i = refsBut v v.cur i :=
    refsBut_congr hk.geo (fun j _ => by rw [hblock]) fun x hx => hs.frame x (.inr hx)
  have hperm : (refs s s.cur).Perm (treeOf s (i - 11) (v.cur.block i) ++ refsBut v v.cur i) := by
    rw [← hbut, ← hblock]
    exact refs_perm s s.cur hi
  refine ⟨⟨?_, ?_, ?_⟩, hperm⟩
  · exact ((h.owns.perm (refs_perm v v.cur hi).symm).unfocus hk.geo hs).perm hperm
  · have hslot : s.slot = v.slot := hk.slot
    have hdirty : s.dirty = v.dirty := by rw [hk.eq]
    have hbuf : s.buf = v.buf := by rw [hk.eq]
    refine ⟨?_, ?_⟩
    · rw [hslot, hblock]
      exact h.slot.role
    · rw [hslot, hk.below, hdirty, hbuf, hblock]
      exact h.slot.clean
  · intro j
    rw [hblock]
    exact h.earlier j

theorem Allows.commits (hG : Allows G O P n₀ v) (h : Work O P n₀ v) (hi : i < 15) :
    Commits G (fun x => O x ∨ x ∈ refsBut v v.cur i) v.content (i - 11) (v.cur.block i) v :=
  fun s hk hs => hG s hk.tended (h.unfocus hi hk hs).1.durable

theorem Grown.ensured (hw : Work O P n₀ v) (hi : i < 15)
    (h : Grown G (fun x => O x ∨ x ∈ refsBut v v.cur i) v.content (i - 11) (v.cur.block i) v w) :
    Ensured G O P n₀ v w := by
  obtain ⟨hwork, hperm⟩ := hw.unfocus hi h.kept h.owns
  refine ⟨h.kept.tended, hwork, h.seen, fun hq he => ?_⟩
  have hex := exact_focus.mp (he.perm (refs_perm v v.cur hi).symm)
  exact (exact_focus.mpr (h.exact hq _ hex)).perm hperm

/-- Along a path below a root that is there. -/
theorem deep_spec {path : List ℕ} (hw : Work O P n₀ v) (hG : Allows G O P n₀ v) (hi : i < 15) (h12 : i ≠ 12)
    (hlen : path.length = i - 11) (hne : path ≠ []) (hpath : ∀ j ∈ path, j < v.geo.entries)
    (hb : v.cur.block i ≠ 0) :
    Sat (· = v) (descend (v.cur.block i) path)
      (fun r w => Ensured G O P n₀ v w ∧ Placed i path r.1 v w)
      (fun w => Ensured G O P n₀ v w ∧ (v.Quiet → Full w)) := by
  have hslot : v.slot = 0 ∨ (O v.slot ∨ v.slot ∈ refsBut v v.cur i) := by
    rcases hw.slot.role with h0 | h0 | h0
    · exact .inl h0
    · by_cases hz : v.slot = 0
      · exact .inl hz
      · refine .inr (.inr (List.mem_flatMap.mpr ⟨12, ?_, ?_⟩))
        · exact (List.Nodup.mem_erase_iff List.nodup_range).mpr ⟨Ne.symm h12, List.mem_range.mpr (by decide)⟩
        · rw [← h0]
          exact root_mem_tree hz
    · exact .inr (.inl h0)
  have hspec := descend_spec (G := G) hne hpath hb (hlen ▸ hw.focus hi) hslot (hlen ▸ hG.commits hw hi)
  rw [hlen] at hspec
  refine hspec.mono (fun _ h => h) ?_ fun w h => ⟨h.1.ensured hw hi, h.2⟩
  rintro r w ⟨hg, hr⟩
  have hblock : w.cur.block = v.cur.block := by rw [hg.kept.eq]
  refine ⟨hg.ensured hw hi, ?_, hr.ne, fun j q hp hne => ?_⟩
  · rw [spot, hblock]
    exact hr.here
  · by_cases hji : j = i
    · rw [spot, spot, hblock, hji]
      refine hr.rest q (by rw [hlen, hp.2.1, hji]) hp.2.2 fun he => hne ?_
      rw [hji, he]
    · refine spot_congr hp (by rw [hblock]) fun x hx => ?_
      exact hg.owns.frame x (.inr (tree_subset_refsBut hp.1 hji hx))

/-! ### A block hung on the inode -/

/-- A new block hangs on `i_block[i]`, with nothing below it. -/
theorem hung (h : Work O P n₀ v) (hfree : v.geo.first ≤ a ∧ v.used a = false) (hi : i < 15)
    (h0 : v.cur.block i = 0) (hs : Owns O P (refs v v.cur) s) (hgeo : s.geo = v.geo) (hlt : a < v.geo.count)
    (hused : s.used a = true) (hsame : ∀ x, x ≠ a → s.content x = v.content x)
    (hblock : s.cur.block = Function.update v.cur.block i a) (htree : treeOf s (i - 11) a = [a]) :
    (refs s s.cur).Perm (a :: refs v v.cur) ∧ Owns O P (refs s s.cur) s ∧ Earlier n₀ s.cur := by
  obtain ⟨ha0, ha, haO⟩ := h.owns.fresh hfree.1 hfree.2
  have hpermv := refs_perm v v.cur hi
  rw [h0, treeOf, tree_none, List.nil_append] at hpermv
  have hbut : refsBut s s.cur i = refsBut v v.cur i := by
    refine refsBut_congr hgeo (fun j hj => ?_) fun x hx => hsame x ?_
    · rw [hblock, Function.update_of_ne hj]
    · rintro rfl
      exact ha (hpermv.mem_iff.mpr hx)
  have hperm : (refs s s.cur).Perm (a :: refs v v.cur) := by
    refine (refs_perm s s.cur hi).trans ?_
    rw [hbut, hblock, Function.update_self, htree]
    exact hpermv.symm.cons a
  refine ⟨hperm, ?_, fun j => ?_⟩
  · exact (hs.add ha0 (hgeo ▸ hfree.1) (hgeo ▸ hlt) hused ha haO).perm hperm
  · rw [hblock]
    by_cases hj : j = i
    · subst hj
      rcases h.earlier j with he | he
      · exact .inl he
      · exact .inl (he.trans h0)
    · rw [Function.update_of_ne hj]
      exact h.earlier j

/-- Block `a` has been taken for `i_block[i]`; what it holds is still to be seen to. -/
structure Hanging (G : Image → Prop) (O : ℕ → Prop) (P : ℕ → Content) (n₀ : Inode) (i a : ℕ) (v s : Vol) :
    Prop where
  tended : Tended v s
  owns : Owns O P (refs v v.cur) s
  used : s.used a = true
  bits : ∀ x, v.geo.first ≤ x → s.used x = true → v.used x = true ∨ x = a
  same : ∀ x, x ≠ a → s.content x = v.content x
  block : s.cur.block = Function.update v.cur.block i a
  blocks : s.cur.blocks = v.cur.blocks + v.geo.sectors
  seen : ∀ x ∈ s.seen, x ∈ v.seen ∨ G x

theorem hanging_took (hw : Work O P n₀ v) (hG : Allows G O P n₀ v)
    (hfree : v.geo.first ≤ a ∧ a < v.geo.count ∧ v.used a = false) (hu : Idle v u) :
    Hanging G O P n₀ i a v (hang i a (took a u)) := by
  have hown : Owns O P (refs v v.cur) (took a u) :=
    (hu.owns hw.owns).take (hu.geo ▸ hfree.1) (hu.geo ▸ hfree.2.1) (by rw [hu.used]; exact hfree.2.2)
  refine ⟨⟨?_, hu.quiet⟩, hown.recontent rfl rfl rfl rfl fun _ _ => rfl, used_took_self a u,
    fun x hf hx => ?_, fun x _ => hu.content x, ?_, ?_, (hu.ensured hw hG).seen⟩
  · rw [hu.eq]
    rfl
  · have hx' : (markBlock a true u).used x = true := hx
    rw [used_markBlock (hu.geo ▸ hfree.1) (hu.geo ▸ hf), hu.used] at hx'
    split_ifs at hx' with he
    · exact .inr he
    · exact .inl hx'
  · rw [hu.eq]
    rfl
  · rw [hu.eq]
    rfl

/-- Once nothing lies below the new block, the inode has one block more. -/
theorem Hanging.ensured (h : Hanging G O P n₀ i a v s) (hw : Work O P n₀ v)
    (hfree : v.geo.first ≤ a ∧ a < v.geo.count ∧ v.used a = false) (hi : i < 15) (h0 : v.cur.block i = 0)
    (htree : treeOf s (i - 11) a = [a]) (hslot : SlotOk O n₀ s) : Ensured G O P n₀ v s := by
  obtain ⟨hperm, hown, hear⟩ := hung hw ⟨hfree.1, hfree.2.2⟩ hi h0 h.owns h.tended.geo hfree.2.1 h.used
    h.same h.block htree
  refine ⟨h.tended, ⟨hown, hslot, hear⟩, h.seen, fun _ he => Exact.perm ⟨fun x h₁ h₂ hx => ?_, ?_⟩ hperm⟩
  · rw [h.tended.geo] at h₁ h₂
    rcases h.bits x h₁ hx with hx | rfl
    · exact (he.used x h₁ h₂ hx).imp_right (List.mem_cons_of_mem a)
    · exact .inr List.mem_cons_self
  · rw [h.blocks, he.blocks, h.tended.geo, List.length_cons, ← Nat.add_assoc, Nat.succ_mul]

/-- A direct block. -/
theorem direct_spec (hw : Work O P n₀ v) (hG : Allows G O P n₀ v) (hi : i < 12) (h0 : v.cur.block i = 0) :
    Sat (· = v) (do let b ← balloc; Act.modify (hang i b); pure (b, true))
      (fun r w => Ensured G O P n₀ v w ∧ Placed i [] r.1 v w)
      (fun w => Ensured G O P n₀ v w ∧ (v.Quiet → Full w)) := by
  refine sat_then ((balloc_spec v hw.owns.range).mono (fun _ h => h) (fun _ _ h => h) ?_) ?_
  · exact fun w h => ⟨h.1.ensured hw hG, fun hq => h.1.full (h.2 hq)⟩
  rintro a t ⟨h₁, h₂, h₃, u, hu, rfl⟩
  have hfree : v.geo.first ≤ a ∧ a < v.geo.count ∧ v.used a = false := ⟨h₁, h₂, h₃⟩
  obtain ⟨ha0, -, -⟩ := hw.owns.fresh h₁ h₃
  have hhang := hanging_took (i := i) hw hG hfree hu
  have hdepth : i - 11 = 0 := by omega
  refine sat_set (sat_pure_eq ⟨hhang.ensured hw hfree (by omega) h0 ?_ ?_, ?_, ha0, fun j q hp hne => ?_⟩)
  · rw [hdepth]
    exact tree_leaf ha0
  · have hs := hu.slotOk hw.slot
    have h12 : (hang i a (took a u)).cur.block 12 = u.cur.block 12 :=
      Function.update_of_ne (by omega) ..
    exact ⟨by rw [h12]; exact hs.role, by rw [h12]; exact hs.clean⟩
  · rw [spot, hhang.block, Function.update_self, follow]
  · have hji : j ≠ i := by
      rintro rfl
      have hlen := hp.2.1
      rw [hdepth, List.length_eq_zero_iff] at hlen
      exact hne (by rw [hlen])
    exact spot_congr hp (by rw [hhang.block, Function.update_of_ne hji]) fun x _ => hu.content x

/-- A new block with nothing below it leads nowhere. -/
theorem Hanging.stays (h : Hanging G O P n₀ i a v s) (hw : Work O P n₀ v)
    (hfree : v.geo.first ≤ a ∧ v.used a = false) (hi : 11 < i) (h0 : v.cur.block i = 0)
    (hblank : s.content a = blank) : Stays v s := by
  obtain ⟨ha0, ha, -⟩ := hw.owns.fresh hfree.1 hfree.2
  intro j q hp
  by_cases hji : j = i
  · obtain ⟨k, q, rfl⟩ := List.exists_cons_of_ne_nil (List.ne_nil_of_length_pos (by rw [hp.2.1]; omega) : q ≠ [])
    rw [spot, spot, hji, h.block, Function.update_self, h0, follow_none, follow_cons ha0, view, hblank, entry_blank,
      follow_none]
  · refine spot_congr hp (by rw [h.block, Function.update_of_ne hji]) fun x hx => h.same x ?_
    rintro rfl
    exact ha (tree_subset_refs hp.1 hx)

theorem Hanging.idle (h : Hanging G O P n₀ i a v s) (hi : Idle s u)
    (hd : Durable O P n₀ s) (hG : Allows G O P n₀ v) : Hanging G O P n₀ i a v u := by
  refine ⟨h.tended.trans hi.kept.tended, hi.owns h.owns, by rw [hi.used]; exact h.used,
    fun x hf hx => h.bits x hf (by rw [← hi.used]; exact hx), fun x hx => (hi.content x).trans (h.same x hx),
    ?_, ?_, fun x hx => ?_⟩
  · rw [hi.eq]
    exact h.block
  · rw [hi.eq]
    exact h.blocks
  · rcases hi.seen x hx with hx | rfl
    · exact h.seen x hx
    · exact .inr (hG s h.tended hd)

/-- Before the new block is seen to, the inode as it was is safe. -/
theorem Hanging.durable (h : Hanging G O P n₀ i a v s) (hw : Work O P n₀ v)
    (hfree : v.geo.first ≤ a ∧ v.used a = false)
    (hslot : s.slot = 0 ∨ s.dirty = true ∨ s.buf = s.raw s.slot ∨ (¬O s.slot ∧ s.slot ∉ refs v n₀)) :
    Durable O P n₀ s := by
  obtain ⟨-, ha, -⟩ := hw.owns.fresh hfree.1 hfree.2
  have hrefs : refs s n₀ = refs v n₀ := by
    refine refs_congr h.tended.geo rfl fun x hx => h.same x ?_
    rintro rfl
    exact ha ((hw.earlier.sublist v).subset hx)
  refine ⟨?_, by rw [hrefs]; exact hslot⟩
  rw [hrefs]
  exact h.owns.sublist (hw.earlier.sublist v)

/-- The root of a tree of two or three levels. -/
theorem newRoot_spec (hw : Work O P n₀ v) (hG : Allows G O P n₀ v) (hi : i < 15) (hi' : 11 < i) (h12 : i ≠ 12)
    (h0 : v.cur.block i = 0) :
    Sat (· = v) (newRoot i) (fun _ w => Ensured G O P n₀ v w ∧ w.cur.block i ≠ 0 ∧ Stays v w)
      (fun w => v.Quiet → Ensured G O P n₀ v w ∧ Full w) := by
  refine sat_then ((balloc_spec v hw.owns.range).mono (fun _ h => h) (fun _ _ h => h) ?_) ?_
  · exact fun w h hq => ⟨h.1.ensured hw hG, h.1.full (h.2 hq)⟩
  rintro a t ⟨h₁, h₂, h₃, u, hu, rfl⟩
  have hfree : v.geo.first ≤ a ∧ a < v.geo.count ∧ v.used a = false := ⟨h₁, h₂, h₃⟩
  obtain ⟨ha0, ha, haO⟩ := hw.owns.fresh h₁ h₃
  have hhang := hanging_took (i := i) hw hG hfree hu
  have hs := hu.slotOk hw.slot
  have hdur : Durable O P n₀ (hang i a (took a u)) := by
    refine hhang.durable hw ⟨h₁, h₃⟩ ?_
    have hd := (hu.ensured hw hG).work.durable.slot
    rw [(hu.shifted).refs] at hd
    exact hd
  refine sat_set ((writeMeta_spec _ _).mono (fun _ h => h) ?_ ?_)
  · rintro _ _ ⟨s, his, rfl⟩
    have hh := hhang.idle his hdur hG
    have hcur : s.cur.block 12 = u.cur.block 12 := by
      rw [his.eq]
      exact Function.update_of_ne (Ne.symm h12) ..
    have hsl : s.slot = u.slot := by
      rw [his.eq]
      rfl
    have hne : s.slot ≠ a := by
      rw [hsl]
      rintro rfl
      rcases hs.role with hr | hr | hr
      · exact ha0 hr
      · refine ha ((refs_perm v v.cur (show 12 < 15 by decide)).mem_iff.mpr (List.mem_append_left _ ?_))
        have hcu : u.cur.block 12 = v.cur.block 12 := by rw [hu.eq]
        rw [← hcu, ← hr]
        exact root_mem_tree ha0
      · exact haO hr
    have hcont := content_update (c := blank) hne
    have hfin : Hanging G O P n₀ i a v { s with raw := Function.update s.raw a blank } := by
      refine ⟨hh.tended.trans ⟨rfl, id⟩, hh.owns.recontent rfl rfl rfl rfl fun x hx => ?_, hh.used, hh.bits,
        fun x hx => ?_, hh.block, hh.blocks, hh.seen⟩
      · rw [hcont, if_neg]
        rintro rfl
        exact haO hx
      · rw [hcont, if_neg hx]
        exact hh.same x hx
    have hblank : ({ s with raw := Function.update s.raw a blank } : Vol).content a = blank := by
      rw [hcont, if_pos rfl]
    refine ⟨hfin.ensured hw hfree hi h0 (tree_blank ha0 fun j _ => ?_) ⟨?_, ?_⟩, ?_,
      hfin.stays hw ⟨h₁, h₃⟩ hi' h0 hblank⟩
    · rw [view, hblank, entry_blank]
    · show s.slot = 0 ∨ s.slot = s.cur.block 12 ∨ O s.slot
      rw [hcur, hsl]
      exact hs.role
    · show s.slot = 0 ∨ s.dirty = true ∨ s.buf = Function.update s.raw a blank s.slot ∨
        (s.slot = s.cur.block 12 ∧ n₀.block 12 = 0)
      rw [Function.update_of_ne hne, hcur]
      have hraw : s.raw = u.raw ∧ s.dirty = u.dirty ∧ s.buf = u.buf := by
        rw [his.eq]
        exact ⟨rfl, rfl, rfl⟩
      rw [hraw.1, hraw.2.1, hraw.2.2, hsl]
      exact hs.clean
    · show s.cur.block i ≠ 0
      rw [hh.block, Function.update_self]
      exact ha0
  · rintro s ⟨hs', hq⟩ hv
    exact absurd (hhang.tended.quiet hv) hq

/-! ### The buffer of single-indirect blocks -/

/-- The buffer has been written back if it was dirty. -/
structure Washed (v w : Vol) : Prop where
  shifted : Shifted v w
  slot : w.slot = v.slot
  buf : w.buf = v.buf
  below : v.slot ≠ 0 → v.dirty = true ∨ v.buf = v.raw v.slot → w.raw v.slot = v.buf
  rest : ∀ x, x ≠ v.slot → w.raw x = v.raw x
  none : v.slot = 0 → w.raw = v.raw

theorem cleanSlot_spec (v : Vol) :
    Sat (· = v) cleanSlot (fun _ w => Washed v w) (fun w => Idle v w ∧ ¬v.Quiet) := by
  refine sat_read (sat_when (fun hd => ?_) fun hd w hw => ?_)
  · refine (writeMeta_spec _ v).mono (fun _ h => h) ?_ fun _ h => h
    rintro _ _ ⟨u, hu, rfl⟩
    have hslot : u.slot = v.slot := by rw [hu.eq]
    have hbuf : u.buf = v.buf := by rw [hu.eq]
    have hraw : u.raw = v.raw := by rw [hu.eq]
    have hs := hu.shifted
    refine ⟨⟨hs.tended.trans ⟨rfl, id⟩, hs.bmap, hs.free, hs.groupFree, hs.cur, fun x => ?_, hs.seen⟩, hslot,
      hbuf, fun _ _ => ?_, fun x hx => ?_, fun h0 => absurd h0 hd.1⟩
    · rw [← hu.content x, content, content]
      dsimp only
      by_cases hx : u.slot = x ∧ x ≠ 0
      · rw [if_pos hx, if_pos hx]
      · rw [if_neg hx, if_neg hx, Function.update_of_ne]
        rintro rfl
        exact hx ⟨rfl, hslot ▸ hd.1⟩
    · show Function.update u.raw u.slot u.buf v.slot = v.buf
      rw [hslot, Function.update_self, hbuf]
    · show Function.update u.raw u.slot u.buf x = v.raw x
      rw [hslot, Function.update_of_ne hx, hraw]
  · subst hw
    refine ⟨(Idle.refl w).shifted, rfl, rfl, fun h0 hb => ?_, fun _ _ => rfl, fun _ => rfl⟩
    rcases hb with hb | hb
    · exact absurd ⟨h0, hb⟩ hd
    · exact hb.symm

/-- What blocks hold when the buffer is used for block `b`. -/
theorem Washed.content (h : Washed v w) (hclean : v.slot = 0 ∨ v.dirty = true ∨ v.buf = v.raw v.slot)
    {x : ℕ} (hx : x ≠ b) {c : Content} {y : Bool} :
    ({ w with slot := b, buf := c, dirty := y } : Vol).content x = v.content x := by
  rw [Vol.content, Vol.content]
  dsimp only
  rw [if_neg fun he => hx he.1.symm]
  by_cases hs : v.slot = x ∧ x ≠ 0
  · rw [if_pos hs, ← hs.1]
    exact h.below (hs.1 ▸ hs.2) (hclean.resolve_left (hs.1 ▸ hs.2))
  · rw [if_neg hs]
    by_cases hxs : x = v.slot
    · -- block 0, when the buffer stands for none
      have hx0 : x = 0 := by
        by_contra hne
        exact hs ⟨hxs.symm, hne⟩
      rw [h.none (hxs ▸ hx0)]
    · exact h.rest x hxs

theorem SlotOk.settled (h : SlotOk O n₀ v) (hne : v.slot ≠ v.cur.block 12 ∨ v.cur.block 12 = 0) :
    v.slot = 0 ∨ v.dirty = true ∨ v.buf = v.raw v.slot := by
  rcases h.clean with h0 | hd | hb | ⟨hs, -⟩
  · exact .inl h0
  · exact .inr (.inl hd)
  · exact .inr (.inr hb)
  · rcases hne with hne | h0
    · exact absurd hs hne
    · exact .inl (hs.trans h0)

/-- The single-indirect block of the inode is brought into the buffer. -/
theorem getIndirect_spec (hw : Work O P n₀ v) (hG : Allows G O P n₀ v) (h0 : v.cur.block 12 ≠ 0) :
    Sat (· = v) (getIndirect (v.cur.block 12))
      (fun _ w => Ensured G O P n₀ v w ∧ Shifted v w ∧ w.slot = v.cur.block 12) (fun _ => ¬v.Quiet) := by
  refine sat_read (sat_ite (fun h => absurd h h0) fun _ => sat_ite (fun hs => ?_) fun hs => ?_)
  · have hid := Idle.refl v
    exact sat_pure_eq ⟨hid.ensured hw hG, hid.shifted, hs⟩
  · refine sat_then ((cleanSlot_spec v).mono (fun _ h => h) (fun _ _ h => h) fun w h => h.2) fun _ w hwash => ?_
    have hclean := hw.slot.settled (.inl hs)
    have hshift : Shifted v { w with buf := w.raw (v.cur.block 12), slot := v.cur.block 12 } := by
      have hsh := hwash.shifted
      refine ⟨hsh.tended.trans ⟨rfl, id⟩, hsh.bmap, hsh.free, hsh.groupFree, hsh.cur, fun x => ?_, hsh.seen⟩
      by_cases hx : x = v.cur.block 12
      · subst hx
        have hold : v.content (v.cur.block 12) = v.raw (v.cur.block 12) := if_neg fun h => hs h.1
        rw [hold, ← hwash.rest _ (Ne.symm hs)]
        exact if_pos ⟨rfl, h0⟩
      · exact hwash.content hclean hx
    refine sat_modify_eq ⟨hshift.ensured hw ⟨?_, ?_⟩ hG, hshift, rfl⟩
    · rw [hshift.cur]
      exact .inr (.inl rfl)
    · exact .inr (.inr (.inl rfl))

/-- The new single-indirect block is zeroed in the buffer only. -/
theorem newSingle_spec (hw : Work O P n₀ v) (hG : Allows G O P n₀ v) (h0 : v.cur.block 12 = 0) :
    Sat (· = v) newSingle (fun _ w => Ensured G O P n₀ v w ∧ w.cur.block 12 ≠ 0 ∧ Stays v w)
      (fun w => v.Quiet → Ensured G O P n₀ v w ∧ Full w) := by
  refine sat_then ((balloc_spec v hw.owns.range).mono (fun _ h => h) (fun _ _ h => h) ?_) ?_
  · exact fun w h hq => ⟨h.1.ensured hw hG, h.1.full (h.2 hq)⟩
  rintro a t ⟨h₁, h₂, h₃, u, hu, rfl⟩
  have hfree : v.geo.first ≤ a ∧ a < v.geo.count ∧ v.used a = false := ⟨h₁, h₂, h₃⟩
  obtain ⟨ha0, -, haO⟩ := hw.owns.fresh h₁ h₃
  have hhang := hanging_took (i := 12) hw hG hfree hu
  have hs := hu.slotOk hw.slot
  have hu12 : u.cur.block 12 = 0 := by
    rw [hu.eq]
    exact h0
  have hsettled := hs.settled (.inr hu12)
  have hdur : Durable O P n₀ (hang 12 a (took a u)) :=
    hhang.durable hw ⟨h₁, h₃⟩ (hsettled.imp_right fun h => h.imp_right .inl)
  have hne : u.slot ≠ a := by
    rintro rfl
    rcases hs.role with hr | hr | hr
    · exact ha0 hr
    · exact ha0 (hr.trans hu12)
    · exact haO hr
  refine sat_set (sat_read (sat_ite (fun he => absurd he hne) fun _ => ?_))
  refine sat_then ((cleanSlot_spec _).mono (fun _ h => h) (fun _ _ h => h) fun w h hv => ?_) fun _ w hwash => ?_
  · exact absurd (hhang.tended.quiet hv) h.2
  have hsh := hwash.shifted
  have hcont : ∀ x, x ≠ a → ({ w with slot := a, dirty := false, buf := blank } : Vol).content x =
      v.content x := fun x hx => (hwash.content hsettled hx).trans (hhang.same x hx)
  have hfin : Hanging G O P n₀ 12 a v { w with slot := a, dirty := false, buf := blank } := by
    refine ⟨(hhang.tended.trans hsh.tended).trans ⟨rfl, id⟩, ?_, ?_, fun x hf hx => ?_, hcont, ?_, ?_,
      fun x hx => ?_⟩
    · refine (hsh.owns hhang.owns).recontent rfl rfl rfl rfl fun x hx => ?_
      have hxa : x ≠ a := fun he => haO (he ▸ hx)
      rw [hcont x hxa, hsh.content x, hhang.same x hxa]
    · exact (hsh.used a).trans hhang.used
    · exact hhang.bits x hf ((hsh.used x).symm.trans hx)
    · exact (congrArg Inode.block hsh.cur).trans hhang.block
    · exact (congrArg Inode.blocks hsh.cur).trans hhang.blocks
    · rcases hsh.seen x hx with hx | rfl
      · exact hhang.seen x hx
      · exact .inr (hG _ hhang.tended hdur)
  have hcur : w.cur.block 12 = a := by
    rw [hsh.cur, hhang.block, Function.update_self]
  have hnew : ({ w with slot := a, dirty := false, buf := blank } : Vol).content a = blank :=
    if_pos ⟨rfl, ha0⟩
  refine sat_modify_eq ⟨hfin.ensured hw hfree (by decide) h0 (tree_blank ha0 fun j _ => ?_) ⟨?_, ?_⟩, ?_,
    hfin.stays hw ⟨h₁, h₃⟩ (by decide) h0 hnew⟩
  · rw [view, hnew, entry_blank]
  · exact .inr (.inl hcur.symm)
  · refine .inr (.inr (.inr ⟨hcur.symm, ?_⟩))
    rcases hw.earlier 12 with he | he
    · exact he
    · exact he.trans h0
  · show w.cur.block 12 ≠ 0
    rw [hcur]
    exact ha0

/-- Block `a` has been taken and entered in the buffer, which stands for the single-indirect block. -/
def entered (pos a : ℕ) (v : Vol) : Vol := countBlock { v with buf := setEntry v.buf pos a, dirty := true }

theorem entered_spec {pos : ℕ} (hw : Work O P n₀ v) (hG : Allows G O P n₀ v) (h0 : v.cur.block 12 ≠ 0)
    (hslot : v.slot = v.cur.block 12) (hpos : pos < v.geo.entries) (hz : entry v.buf pos = 0)
    (hfree : v.geo.first ≤ a ∧ a < v.geo.count ∧ v.used a = false) (hu : Idle v u) :
    Ensured G O P n₀ v (entered pos a (took a u)) ∧ Placed 12 [pos] a v (entered pos a (took a u)) := by
  obtain ⟨ha0, ha, haO⟩ := hw.owns.fresh hfree.1 hfree.2.2
  have hperm := refs_perm v v.cur (show 12 < 15 by decide)
  have hroot : v.cur.block 12 ∈ treeOf v 1 (v.cur.block 12) := root_mem_tree h0
  have hatree : a ∉ treeOf v 1 (v.cur.block 12) := fun h => ha (hperm.mem_iff.mpr (List.mem_append_left _ h))
  have hbO : ¬O (v.cur.block 12) :=
    (hw.owns.inside _ (hperm.mem_iff.mpr (List.mem_append_left _ hroot))).2.2.2
  have hbuf : v.content (v.cur.block 12) = v.buf := if_pos ⟨hslot, h0⟩
  have hueq : u.slot = v.slot ∧ u.buf = v.buf ∧ u.raw = v.raw := by
    rw [hu.eq]
    exact ⟨rfl, rfl, rfl⟩
  have hcont : ∀ x, (entered pos a (took a u)).content x =
      if x = v.cur.block 12 then setEntry v.buf pos a else v.content x := by
    intro x
    show (if u.slot = x ∧ x ≠ 0 then setEntry u.buf pos a else u.raw x) = _
    rw [hueq.1, hueq.2.1, hueq.2.2, hslot]
    by_cases hx : x = v.cur.block 12
    · rw [if_pos hx, if_pos ⟨hx.symm, hx ▸ h0⟩]
    · rw [if_neg hx, if_neg fun h => hx h.1.symm]
      exact (if_neg fun h => hx (h.1.symm.trans hslot)).symm
  have hgeo : (entered pos a (took a u)).geo = v.geo := hu.geo
  have hcur : (entered pos a (took a u)).cur.block = v.cur.block := by
    show u.cur.block = v.cur.block
    rw [hu.eq]
  have hlt : a < 2 ^ 32 := lt_trans hfree.2.1 v.geo.count_lt
  have htree : (treeOf (entered pos a (took a u)) 1 (v.cur.block 12)).Perm
      (a :: treeOf v 1 (v.cur.block 12)) := by
    refine treeOf_link hgeo hcont h0 hpos ?_ hatree ha0 ?_ (entry_setEntry_self hlt) (fun j hj => ?_) (.inl rfl)
    · exact (List.nodup_append.mp (hperm.nodup_iff.mp hw.owns.nodup)).1
    · rw [view, hbuf]
      exact hz
    · rw [entry_setEntry_of_ne hj, view, hbuf]
  have hbut : refsBut (entered pos a (took a u)) (entered pos a (took a u)).cur 12 = refsBut v v.cur 12 := by
    refine refsBut_congr hgeo (fun j _ => by rw [hcur]) fun x hx => ?_
    rw [hcont, if_neg]
    rintro rfl
    exact (List.nodup_append.mp (hperm.nodup_iff.mp hw.owns.nodup)).2.2 _ hroot _ hx rfl
  have hrefs : (refs (entered pos a (took a u)) (entered pos a (took a u)).cur).Perm (a :: refs v v.cur) := by
    refine (refs_perm _ _ (show 12 < 15 by decide)).trans ?_
    rw [hbut, hcur]
    exact (htree.append_right _).trans (hperm.symm.cons a)
  have hown : Owns O P (refs v v.cur) (took a u) :=
    (hu.owns hw.owns).take (hu.geo ▸ hfree.1) (hu.geo ▸ hfree.2.1) (by rw [hu.used]; exact hfree.2.2)
  have hown' : Owns O P (refs v v.cur) (entered pos a (took a u)) := by
    refine hown.recontent rfl rfl rfl rfl fun x hx => ?_
    have hxb : x ≠ v.cur.block 12 := fun he => hbO (he ▸ hx)
    rw [hcont, if_neg hxb]
    exact (hu.content x).symm
  refine ⟨⟨⟨?_, hu.quiet⟩, ⟨?_, ⟨?_, .inr (.inl rfl)⟩, fun j => ?_⟩, (hu.ensured hw hG).seen, fun _ he => ?_⟩, ?_,
    ha0, fun j q hp hne => ?_⟩
  · rw [hu.eq]
    rfl
  · exact (hown'.add ha0 (hgeo ▸ hfree.1) (hgeo ▸ hfree.2.1) (used_took_self a u) ha haO).perm hrefs
  · rw [hcur]
    exact .inr (.inl (hueq.1.trans hslot))
  · rw [hcur]
    exact hw.earlier j
  · refine Exact.perm ⟨fun x h₁ h₂ hx => ?_, ?_⟩ hrefs
    · rw [hgeo] at h₁ h₂
      have hx' : (markBlock a true u).used x = true := hx
      rw [used_markBlock (hu.geo ▸ hfree.1) (hu.geo ▸ h₁), hu.used] at hx'
      by_cases hxa : x = a
      · rw [hxa]
        exact .inr List.mem_cons_self
      · rw [if_neg hxa] at hx'
        exact (he.used x h₁ h₂ hx').imp_right (List.mem_cons_of_mem a)
    · have hblocks : (entered pos a (took a u)).cur.blocks = v.cur.blocks + v.geo.sectors := by
        show u.cur.blocks + u.geo.sectors = _
        rw [hu.eq]
      rw [hblocks, he.blocks, hgeo, List.length_cons, ← Nat.add_assoc, Nat.succ_mul]
  · rw [spot, hcur, follow_cons h0, view, hcont, if_pos rfl, entry_setEntry_self hlt, follow]
  · by_cases hj : j = 12
    · subst hj
      obtain ⟨k, rfl⟩ := List.length_eq_one_iff.mp hp.2.1
      have hk : k ≠ pos := by
        rintro rfl
        exact hne rfl
      rw [spot, spot, hcur, follow_cons h0, follow_cons h0, view, hcont, if_pos rfl, entry_setEntry_of_ne hk, view,
        hbuf, follow, follow]
    · refine spot_congr hp (by rw [hcur]) fun x hx => ?_
      rw [hcont, if_neg]
      rintro rfl
      exact (List.nodup_append.mp (hperm.nodup_iff.mp hw.owns.nodup)).2.2 _ hroot _
        (tree_subset_refsBut hp.1 hj hx) rfl

theorem ensureSingle_spec {pos : ℕ} (hw : Work O P n₀ v) (hG : Allows G O P n₀ v) (hpos : pos < v.geo.entries) :
    Sat (· = v) (ensureSingle pos)
      (fun r w => Ensured G O P n₀ v w ∧ Placed 12 [pos] r.1 v w)
      (fun w => v.Quiet → Ensured G O P n₀ v w ∧ Full w) := by
  refine sat_read (sat_then (Q := fun _ w => Ensured G O P n₀ v w ∧ w.cur.block 12 ≠ 0 ∧ Stays v w) ?_ ?_)
  · refine sat_when (newSingle_spec hw hG) fun h0 s hs => ?_
    subst hs
    exact ⟨(Idle.refl s).ensured hw hG, h0, fun _ _ _ => rfl⟩
  rintro _ w ⟨hvw, h0, hstay⟩
  have hGw := hG.of_tended hvw.tended
  refine sat_read (sat_then ((getIndirect_spec hvw.work hGw h0).mono (fun _ h => h) (fun _ _ h => h)
    fun s hs hq => absurd (hvw.tended.quiet hq) hs) ?_)
  rintro _ s ⟨hws, hsh, hslot⟩
  have hvs := hvw.trans hws
  have hGs := hG.of_tended hvs.tended
  have hstays := hstay.trans hvw.tended.geo hsh.stays
  have h12 : s.cur.block 12 = w.cur.block 12 := by rw [hsh.cur]
  have hs0 : s.cur.block 12 ≠ 0 := h12 ▸ h0
  have hslot' : s.slot = s.cur.block 12 := hslot.trans h12.symm
  have hps : pos < s.geo.entries := hvs.tended.geo ▸ hpos
  refine sat_read (sat_ite (fun hz => ?_) fun hz => ?_)
  · refine sat_then ((balloc_spec s hvs.work.owns.range).mono (fun _ h => h) (fun _ _ h => h) ?_) ?_
    · exact fun t ht hq => ⟨hvs.trans (ht.1.ensured hvs.work hGs), ht.1.full (ht.2 (hvs.tended.quiet hq))⟩
    rintro a t ⟨h₁, h₂, h₃, u, hu, rfl⟩
    have hus : (took a u).slot = s.cur.block 12 := by
      show u.slot = _
      rw [hu.eq]
      exact hslot'
    have hgot : Sat (· = took a u) (getIndirect (s.cur.block 12)) (fun _ t => t = took a u)
        (fun w => v.Quiet → Ensured G O P n₀ v w ∧ Full w) :=
      sat_read (sat_ite (fun h => absurd h hs0) fun _ => sat_ite (fun _ => sat_pure_eq rfl)
        fun h => absurd hus h)
    refine sat_then hgot ?_
    rintro _ _ rfl
    obtain ⟨hen, hput⟩ := entered_spec hvs.work hGs hs0 hslot' hps hz ⟨h₁, h₂, h₃⟩ hu
    exact sat_set (sat_pure_eq ⟨hvs.trans hen, hput.of_stays hstays hvs.tended.geo⟩)
  · have hbuf : s.content (s.cur.block 12) = s.buf := if_pos ⟨hslot', hs0⟩
    refine sat_pure_eq ⟨hvs, hstays.placed ?_ hz⟩
    rw [spot, follow_cons hs0, view, hbuf, follow]

/-! ### All of it -/

/-- The way to a block of the file starts at an entry of `i_block` that is deep enough for it. -/
theorem locate_spec {e lbk : ℕ} {path : List ℕ} (h : locate e lbk = some (i, path)) :
    i < 15 ∧ path.length = i - 11 ∧ ∀ j ∈ path, j < e := by
  rw [locate] at h
  split at h
  · next hl =>
    cases h
    exact ⟨by omega, (by simp; omega), nofun⟩
  · split at h
    · next h₁ h₂ =>
      cases h
      refine ⟨by decide, rfl, fun j hj => ?_⟩
      rw [List.mem_singleton] at hj
      omega
    · split at h
      · next h₁ h₂ h₃ =>
        cases h
        have hlt : lbk - 12 - e < e * e := by omega
        have he : 0 < e := Nat.pos_of_mul_pos_left (Nat.zero_lt_of_lt hlt)
        refine ⟨by decide, rfl, fun j hj => ?_⟩
        rcases List.mem_cons.mp hj with rfl | hj
        · exact Nat.div_lt_of_lt_mul hlt
        · rw [List.mem_singleton] at hj
          exact hj ▸ Nat.mod_lt _ he
      · split at h
        · next h₁ h₂ h₃ h₄ =>
          cases h
          have hlt : lbk - 12 - e - e * e < e * e * e := by omega
          have he : 0 < e := Nat.pos_of_mul_pos_left (Nat.zero_lt_of_lt hlt)
          refine ⟨by decide, rfl, fun j hj => ?_⟩
          rcases List.mem_cons.mp hj with rfl | hj
          · exact Nat.div_lt_of_lt_mul hlt
          rcases List.mem_cons.mp hj with rfl | hj
          · exact Nat.div_lt_of_lt_mul (Nat.mod_lt _ (Nat.mul_pos he he))
          · rw [List.mem_singleton] at hj
            exact hj ▸ Nat.mod_lt _ he
        · cases h

/-- A block of a file is there or is allocated, at its place and at no other. A block past the last
    is refused; any other is refused only where the volume is full. -/
theorem ensureDataBlock_spec (lbk : ℕ) (hw : Work O P n₀ v) (hG : Allows G O P n₀ v) :
    Sat (· = v) (ensureDataBlock lbk)
      (fun r w => Ensured G O P n₀ v w ∧
        ∃ i path, locate v.geo.entries lbk = some (i, path) ∧ Placed i path r.1 v w)
      (fun w => if locate v.geo.entries lbk = none then w = v
        else v.Quiet → Ensured G O P n₀ v w ∧ Full w) := by
  have hself := (Idle.refl v).ensured hw hG
  refine sat_read ?_
  cases hl : locate v.geo.entries lbk with
  | none => exact sat_fail_eq (by simp)
  | some r =>
    obtain ⟨i, path⟩ := r
    obtain ⟨hi, hlen, hpath⟩ := locate_spec hl
    simp only [reduceCtorEq, if_false]
    rcases path with _ | ⟨pos, _ | ⟨pos', path⟩⟩
    · rw [List.length_nil] at hlen
      refine sat_ite (fun h0 => ?_) fun h0 => sat_pure_eq ⟨hself, i, [], rfl, rfl, h0, fun _ _ _ _ => rfl⟩
      refine (direct_spec hw hG (by omega) h0).mono (fun _ h => h) ?_ fun w h hq => ⟨h.1, h.2 hq⟩
      exact fun r w h => ⟨h.1, i, [], rfl, h.2⟩
    · have hi12 : i = 12 := by
        rw [List.length_singleton] at hlen
        omega
      refine (ensureSingle_spec hw hG (hpath pos List.mem_cons_self)).mono (fun _ h => h) ?_ fun w h => h
      exact fun r w h => ⟨h.1, i, [pos], rfl, hi12 ▸ h.2⟩
    · rw [List.length_cons, List.length_cons] at hlen
      refine sat_then (Q := fun _ w => Ensured G O P n₀ v w ∧ w.cur.block i ≠ 0 ∧ Stays v w) ?_ ?_
      · refine sat_when (newRoot_spec hw hG hi (by omega) (by omega)) fun h0 s hs => ?_
        subst hs
        exact ⟨hself, h0, fun _ _ _ => rfl⟩
      rintro _ w ⟨hvw, h0, hstay⟩
      refine sat_read ((deep_spec hvw.work (hG.of_tended hvw.tended) hi (by omega) (by simpa using hlen)
        (List.cons_ne_nil _ _) (fun j hj => hvw.tended.geo ▸ hpath j hj) h0).mono (fun _ h => h) ?_ ?_)
      · exact fun r s hs => ⟨hvw.trans hs.1, i, _, rfl, hs.2.of_stays hstay hvw.tended.geo⟩
      · exact fun s hs hq => ⟨hvw.trans hs.1, hs.2 (hvw.tended.quiet hq)⟩

end

end EwokOS.Ext3.Vol
