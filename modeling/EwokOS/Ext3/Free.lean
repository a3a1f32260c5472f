import EwokOS.Ext3.Ensure

/-! How the blocks of an inode are given back (`ext3_free_inode_data`).

    While blocks are freed, the volume shows some of them as free and others not; all that is not to be
    freed stays as it is (`Freed`). In the end none of them is in use (`Gone`). -/

namespace EwokOS.Ext3.Vol

open Schemes Act

/-- Blocks of `L` are being freed; `G` holds of what was committed meanwhile. -/
structure Freed (G : Image → Prop) (L : List ℕ) (v w : Vol) : Prop where
  eq : w = { v with
    bmap := w.bmap, bgroup := w.bgroup, bdirty := w.bdirty,
    free := w.free, groupFree := w.groupFree, raw := w.raw, slot := w.slot, dirty := w.dirty, buf := w.buf,
    io := w.io, stale := w.stale, seen := w.seen,
    cur := { v.cur with block := w.cur.block, blocks := w.cur.blocks, size := w.cur.size } }
  quiet : v.Quiet → w.Quiet
  bits : ∀ x, v.geo.first ≤ x → x ∉ L → w.used x = v.used x
  content : ∀ x, x ∉ L → w.content x = v.content x
  slot : w.slot = 0 ∨
    (w.slot = v.slot ∧ w.dirty = v.dirty ∧ w.buf = v.buf ∧ w.raw w.slot = v.raw v.slot)
  seen : ∀ x ∈ w.seen, x ∈ v.seen ∨ G x

/-- The blocks `T` have been freed. -/
structure Gone (T : List ℕ) (v w : Vol) : Prop where
  books : Books w
  used : ∀ x, v.geo.first ≤ x → w.used x = if x ∈ T then false else v.used x
  content : ∀ x, x ∉ T → w.content x = v.content x
  slot : w.slot ∉ T

/-- The blocks `T` are in use and lie in the volume. -/
structure Freeable (L T : List ℕ) (v : Vol) : Prop where
  sub : ∀ x ∈ T, x ∈ L
  nodup : T.Nodup
  inside : ∀ x ∈ T, x ≠ 0 ∧ v.geo.first ≤ x ∧ x < v.geo.count ∧ v.used x = true
  books : Books v

section
variable {G : Image → Prop} {L T T₁ T₂ : List ℕ} {v w u s : Vol} {a b d i : ℕ}

theorem Freed.geo (h : Freed G L v w) : w.geo = v.geo := by
  rw [h.eq]

theorem Freed.refl (v : Vol) : Freed G L v v :=
  ⟨rfl, id, fun _ _ _ => rfl, fun _ _ => rfl, .inr ⟨rfl, rfl, rfl, rfl⟩, fun _ h => .inl h⟩

theorem Freed.trans (h : Freed G L v w) (h' : Freed G L w u) : Freed G L v u := by
  refine ⟨?_, fun hq => h'.quiet (h.quiet hq), fun x hf hx => ?_, fun x hx => ?_, ?_, fun x hx => ?_⟩
  · conv_lhs => rw [h'.eq, h.eq]
  · rw [h'.bits x (h.geo ▸ hf) hx, h.bits x hf hx]
  · rw [h'.content x hx, h.content x hx]
  · rcases h'.slot with h0 | ⟨h₁, h₂, h₃, h₄⟩
    · exact .inl h0
    · rcases h.slot with k0 | ⟨k₁, k₂, k₃, k₄⟩
      · exact .inl (h₁.trans k0)
      · exact .inr ⟨h₁.trans k₁, h₂.trans k₂, h₃.trans k₃, h₄.trans k₄⟩
  · rcases h'.seen x hx with hx | hx
    · exact h.seen x hx
    · exact .inr hx

theorem Freed.idle (h : Freed G L v s) (hi : Idle s u) (hG : ∀ s, Freed G L v s → G s.image) :
    Freed G L v u := by
  have hs : u.slot = s.slot ∧ u.dirty = s.dirty ∧ u.buf = s.buf ∧ u.raw = s.raw ∧ u.cur = s.cur := by
    rw [hi.eq]
    exact ⟨rfl, rfl, rfl, rfl, rfl⟩
  refine ⟨?_, fun hq => hi.quiet (h.quiet hq), fun x hf hx => (hi.used x).trans (h.bits x hf hx),
    fun x hx => (hi.content x).trans (h.content x hx), ?_, fun x hx => ?_⟩
  · conv_lhs => rw [hi.eq, h.eq]
    rw [hs.1, hs.2.1, hs.2.2.1, hs.2.2.2.1, hs.2.2.2.2]
    congr 1 <;> rw [hi.eq]
  · rw [hs.1, hs.2.1, hs.2.2.1, hs.2.2.2.1]
    exact h.slot
  · rcases hi.seen x hx with hx | rfl
    · exact h.seen x hx
    · exact .inr (hG s h)

theorem content_forgetBlock {x : ℕ} (hx : x ≠ b) : (forgetBlock b v).content x = v.content x := by
  show (if (if v.slot = b then 0 else v.slot) = x ∧ x ≠ 0 then (if v.slot = b then blank else v.buf)
    else Function.update v.raw b (v.stale 0) x) = _
  rw [Function.update_of_ne hx, Vol.content]
  by_cases hs : v.slot = b
  · rw [if_pos hs, if_neg fun h => h.2 h.1.symm, if_neg fun h => hx (h.1.symm.trans hs)]
  · rw [if_neg hs, if_neg hs]

theorem freed_forgetBlock (hb : b ∈ L) (v : Vol) : Freed G L v (forgetBlock b v) := by
  refine ⟨rfl, id, fun _ _ _ => rfl, fun x hx => content_forgetBlock ?_, ?_, fun _ h => .inl h⟩
  · rintro rfl
    exact hx hb
  · by_cases hs : v.slot = b
    · exact .inl (if_pos hs)
    · have hslot : (forgetBlock b v).slot = v.slot := if_neg hs
      refine .inr ⟨hslot, if_neg hs, if_neg hs, ?_⟩
      rw [hslot]
      exact Function.update_of_ne hs ..

theorem freed_markBlock (hb : b ∈ L) (hf : v.geo.first ≤ b) : Freed G L v (markBlock b false v) := by
  refine ⟨rfl, id, fun x hx hn => ?_, fun _ _ => rfl, .inr ⟨rfl, rfl, rfl, rfl⟩, fun _ h => .inl h⟩
  rw [used_markBlock hf hx, if_neg]
  rintro rfl
  exact hn hb

theorem Freeable.rest (h : Freeable L (T₁ ++ T₂) v) (hg : Gone T₁ v w) (hgeo : w.geo = v.geo) :
    Freeable L T₂ w := by
  obtain ⟨-, h₂, h₁₂⟩ := List.nodup_append.mp h.nodup
  refine ⟨fun x hx => h.sub x (List.mem_append_right T₁ hx), h₂, fun x hx => ?_, hg.books⟩
  obtain ⟨h0, hf, hc, hu⟩ := h.inside x (List.mem_append_right T₁ hx)
  refine ⟨h0, hgeo ▸ hf, hgeo ▸ hc, ?_⟩
  rw [hg.used x hf, if_neg fun hm => h₁₂ x hm x hx rfl]
  exact hu

theorem Freeable.left (h : Freeable L (T₁ ++ T₂) v) : Freeable L T₁ v :=
  ⟨fun x hx => h.sub x (List.mem_append_left T₂ hx), (List.nodup_append.mp h.nodup).1,
    fun x hx => h.inside x (List.mem_append_left T₂ hx), h.books⟩

theorem Gone.nil (h : Books v) : Gone [] v v :=
  ⟨h, fun _ _ => rfl, fun _ _ => rfl, List.not_mem_nil⟩

theorem Gone.append (h : Gone T₁ v w) (h' : Gone T₂ w u) (hf : Freed G L w u) (hgeo : w.geo = v.geo)
    (h0 : 0 ∉ T₁) : Gone (T₁ ++ T₂) v u := by
  refine ⟨h'.books, fun x hx => ?_, fun x hx => ?_, fun hx => ?_⟩
  · rw [h'.used x (hgeo ▸ hx), h.used x hx]
    by_cases h₁ : x ∈ T₁
    · rw [if_pos h₁, if_pos (List.mem_append_left T₂ h₁), ite_self]
    · by_cases h₂ : x ∈ T₂
      · rw [if_pos h₂, if_pos (List.mem_append_right T₁ h₂)]
      · rw [if_neg h₁, if_neg h₂, if_neg fun h => (List.mem_append.mp h).elim h₁ h₂]
  · have hn := List.mem_append.not.mp hx
    rw [h'.content x fun h₂ => hn (.inr h₂), h.content x fun h₁ => hn (.inl h₁)]
  · rcases List.mem_append.mp hx with hx | hx
    · rcases hf.slot with hs | ⟨hs, -⟩
      · exact h0 (hs ▸ hx)
      · exact h.slot (hs ▸ hx)
    · exact h'.slot hx

theorem Freeable.zero (h : Freeable L T v) : 0 ∉ T := fun hm => (h.inside 0 hm).1 rfl

theorem Gone.perm (h : Gone T₁ v w) (hp : T₂.Perm T₁) : Gone T₂ v w := by
  refine ⟨h.books, fun x hx => ?_, fun x hx => h.content x fun h₁ => hx (hp.mem_iff.mpr h₁),
    fun hx => h.slot (hp.mem_iff.mp hx)⟩
  rw [h.used x hx]
  by_cases hm : x ∈ T₁
  · rw [if_pos hm, if_pos (hp.mem_iff.mpr hm)]
  · rw [if_neg hm, if_neg fun h₂ => hm (hp.mem_iff.mp h₂)]

/-- One block. -/
theorem bdealloc_gone (h : Freeable L [b] v) (hG : ∀ s, Freed G L v s → G s.image) :
    Sat (· = v) (bdealloc b) (fun _ w => Freed G L v w ∧ Gone [b] v w ∧ w.cur = v.cur) (Freed G L v) := by
  obtain ⟨hb0, hf, hc, hu⟩ := h.inside b (List.mem_singleton_self b)
  have hbL := h.sub b (List.mem_singleton_self b)
  refine (bdealloc_spec b hb0 v).mono (fun _ h => h) ?_ ?_
  · rintro _ _ ⟨u, hi, rfl⟩
    have hfu : Freed G L v u := (freed_forgetBlock hbL v).idle hi hG
    have hgeo : u.geo = v.geo := hfu.geo
    have hused : ∀ x, u.used x = v.used x := fun x => hi.used x
    have hbooks : Books u := hi.books ⟨h.books.free, h.books.group⟩
    refine ⟨hfu.trans (freed_markBlock hbL (hgeo ▸ hf)), ⟨?_, fun x hx => ?_, fun x hx => ?_, ?_⟩, ?_⟩
    · exact hbooks.marked (hgeo ▸ hf) (hgeo ▸ hc) (by rw [hused]; exact hu)
    · rw [used_markBlock (hgeo ▸ hf) (hgeo ▸ hx), hused]
      by_cases hxb : x = b
      · rw [if_pos hxb, if_pos (List.mem_singleton.mpr hxb)]
      · rw [if_neg hxb, if_neg fun hm => hxb (List.mem_singleton.mp hm)]
    · exact (hi.content x).trans (content_forgetBlock fun he => hx (List.mem_singleton.mpr he))
    · have hslot : (markBlock b false u).slot = if v.slot = b then 0 else v.slot := by
        show u.slot = _
        rw [hi.eq]
        rfl
      rw [hslot, List.mem_singleton]
      by_cases hs : v.slot = b
      · rw [if_pos hs]
        exact Ne.symm hb0
      · rw [if_neg hs]
        exact hs
    · show u.cur = v.cur
      rw [hi.eq]
      rfl
  · exact fun w hw => (freed_forgetBlock hbL v).idle hw.1 hG

/-- What may be freed one after another. -/
theorem freeEach_gone {f : ℕ → Act Vol Unit} {t : Vol → ℕ → List ℕ}
    (ht : ∀ {v w : Vol} (i : ℕ), w.geo = v.geo → (∀ x ∈ t v i, w.content x = v.content x) → t w i = t v i)
    (hf : ∀ {v : Vol} {i : ℕ}, Freeable L (t v i) v → (∀ s, Freed G L v s → G s.image) →
      Sat (· = v) (f i) (fun _ w => Freed G L v w ∧ Gone (t v i) v w ∧ w.cur = v.cur) (Freed G L v))
    (l : List ℕ) (h : Freeable L (l.flatMap (t v)) v) (hG : ∀ s, Freed G L v s → G s.image) :
    Sat (· = v) (each f l) (fun _ w => Freed G L v w ∧ Gone (l.flatMap (t v)) v w ∧ w.cur = v.cur)
      (Freed G L v) := by
  induction l generalizing v with
  | nil => exact sat_pure_eq ⟨.refl v, .nil h.books, rfl⟩
  | cons i l ih =>
    rw [List.flatMap_cons] at h
    refine sat_then (hf h.left hG) ?_
    rintro _ w ⟨hfw, hgw, hcw⟩
    -- the others are not changed by that
    have hsame : l.flatMap (t w) = l.flatMap (t v) := by
      refine List.flatMap_congr fun j hj => ht j hfw.geo fun x hx => hgw.content x fun hx' => ?_
      have hmem : x ∈ l.flatMap (t v) := List.mem_flatMap.mpr ⟨j, hj, hx⟩
      exact (List.nodup_append.mp h.nodup).2.2 x hx' x hmem rfl
    have hrest : Freeable L (l.flatMap (t w)) w := by
      rw [hsame]
      exact h.rest hgw hfw.geo
    refine (ih hrest fun s hs => hG s (hfw.trans hs)).mono (fun _ h => h) ?_ fun u hu => hfw.trans hu
    rintro _ u ⟨hfu, hgu, hcu⟩
    rw [hsame] at hgu
    refine ⟨hfw.trans hfu, ?_, hcu.trans hcw⟩
    rw [List.flatMap_cons]
    exact hgw.append hgu hfu hfw.geo h.left.zero

/-- A tree of blocks. -/
theorem freeTree_gone (d b : ℕ) (h : Freeable L (treeOf v d b) v) (hG : ∀ s, Freed G L v s → G s.image) :
    Sat (· = v) (freeTree d b) (fun _ w => Freed G L v w ∧ Gone (treeOf v d b) v w ∧ w.cur = v.cur)
      (Freed G L v) := by
  induction d generalizing b v with
  | zero =>
    refine sat_ite (fun hb => ?_) fun hb => ?_
    · rw [hb, treeOf, tree_none]
      exact sat_pure_eq ⟨.refl v, .nil h.books, rfl⟩
    · rw [treeOf, tree_leaf hb] at h ⊢
      exact bdealloc_gone h hG
  | succ d ih =>
    refine sat_ite (fun hb => ?_) fun hb => ?_
    · rw [hb, treeOf, tree_none]
      exact sat_pure_eq ⟨.refl v, .nil h.books, rfl⟩
    · have hperm : (treeOf v (d + 1) b).Perm
          (((List.range v.geo.entries).flatMap fun i => treeOf v d (v.view b i)) ++ [b]) := by
        rw [treeOf, tree_node hb]
        exact (List.perm_append_singleton b _).symm
      have h' : Freeable L (((List.range v.geo.entries).flatMap fun i => treeOf v d (v.view b i)) ++ [b]) v :=
        ⟨fun x hx => h.sub x (hperm.mem_iff.mpr hx), hperm.nodup_iff.mp h.nodup,
          fun x hx => h.inside x (hperm.mem_iff.mpr hx), h.books⟩
      -- the entries are read before the first block below is freed
      refine sat_read (sat_then (freeEach_gone (t := fun s i => treeOf s d (v.view b i))
        (fun i hg hc => treeOf_congr hg hc) (fun {s i} hs hGs => ih (v.view b i) hs hGs) _ h'.left hG) ?_)
      rintro _ w ⟨hfw, hgw, hcw⟩
      refine (bdealloc_gone (h'.rest hgw hfw.geo) fun s hs => hG s (hfw.trans hs)).mono (fun _ h => h) ?_
        fun u hu => hfw.trans hu
      rintro _ u ⟨hfu, hgu, hcu⟩
      exact ⟨hfw.trans hfu, (hgw.append hgu hfu hfw.geo h'.left.zero).perm hperm, hcu.trans hcw⟩

/-! ### All blocks of an inode -/

theorem Freed.setCur (n : Inode) (hk : n.kind = v.cur.kind) (hl : n.links = v.cur.links) :
    Freed G L v { v with cur := n } := by
  refine ⟨?_, id, fun _ _ _ => rfl, fun _ _ => rfl, .inr ⟨rfl, rfl, rfl, rfl⟩, fun _ h => .inl h⟩
  dsimp only
  rw [← hk, ← hl]

/-- The direct blocks. -/
theorem freeDirects_gone (l : List ℕ) (hl : l.Nodup)
    (h : Freeable L (l.flatMap fun i => treeOf v 0 (v.cur.block i)) v) (hG : ∀ s, Freed G L v s → G s.image) :
    Sat (· = v) (each freeDirect l)
      (fun _ w => Freed G L v w ∧ Gone (l.flatMap fun i => treeOf v 0 (v.cur.block i)) v w ∧
        ∀ i, w.cur.block i = if i ∈ l then 0 else v.cur.block i)
      (Freed G L v) := by
  induction l generalizing v with
  | nil => exact sat_pure_eq ⟨.refl v, .nil h.books, fun _ => rfl⟩
  | cons i l ih =>
    rw [List.flatMap_cons] at h
    obtain ⟨hil, hl⟩ := List.nodup_cons.mp hl
    refine sat_then (Q := fun _ w => Freed G L v w ∧ Gone (treeOf v 0 (v.cur.block i)) v w ∧
      w.cur.block = Function.update v.cur.block i 0) ?_ ?_
    · refine sat_read (sat_then (freeTree_gone 0 _ h.left hG) ?_)
      rintro _ w ⟨hfw, hgw, hcur⟩
      refine sat_modify_eq ⟨hfw.trans (.setCur _ rfl rfl), ⟨?_, hgw.used, hgw.content, hgw.slot⟩, ?_⟩
      · exact ⟨hgw.books.free, hgw.books.group⟩
      · show Function.update w.cur.block i 0 = _
        rw [hcur]
    rintro _ w ⟨hfw, hgw, hcur⟩
    have hsame : (l.flatMap fun j => treeOf w 0 (w.cur.block j)) =
        l.flatMap fun j => treeOf v 0 (v.cur.block j) := by
      refine List.flatMap_congr fun j hj => ?_
      have hji : j ≠ i := fun he => hil (he ▸ hj)
      rw [hcur, Function.update_of_ne hji]
      rfl
    have hrest : Freeable L (l.flatMap fun j => treeOf w 0 (w.cur.block j)) w := by
      rw [hsame]
      exact h.rest hgw hfw.geo
    refine (ih hl hrest fun s hs => hG s (hfw.trans hs)).mono (fun _ h => h) ?_ fun u hu => hfw.trans hu
    rintro _ u ⟨hfu, hgu, hcu⟩
    rw [hsame] at hgu
    refine ⟨hfw.trans hfu, ?_, fun j => ?_⟩
    · rw [List.flatMap_cons]
      exact hgw.append hgu hfu hfw.geo h.left.zero
    · rw [hcu, hcur]
      by_cases hji : j = i
      · subst hji
        rw [Function.update_self, ite_self, if_pos List.mem_cons_self]
      · rw [Function.update_of_ne hji]
        by_cases hjl : j ∈ l
        · rw [if_pos hjl, if_pos (List.mem_cons_of_mem i hjl)]
        · rw [if_neg hjl, if_neg fun hm => (List.mem_cons.mp hm).elim hji hjl]

theorem refs_eq (v : Vol) (n : Inode) :
    refs v n = ((List.range 12).flatMap fun i => treeOf v 0 (n.block i)) ++
      (treeOf v 1 (n.block 12) ++ (treeOf v 2 (n.block 13) ++ treeOf v 3 (n.block 14))) := by
  have hrange : List.range 15 = List.range 12 ++ [12, 13, 14] := rfl
  have hdirect : ((List.range 12).flatMap fun i => treeOf v (i - 11) (n.block i)) =
      (List.range 12).flatMap fun i => treeOf v 0 (n.block i) := by
    refine List.flatMap_congr fun i hi => ?_
    have hi' := List.mem_range.mp hi
    rw [show i - 11 = 0 by omega]
  rw [refs, hrange, List.flatMap_append, hdirect]
  simp only [List.flatMap_cons, List.flatMap_nil, List.append_nil]

/-- The three trees, and the inode afterwards. -/
theorem freeTrees_gone (h : Freeable L (treeOf v 1 (v.cur.block 12) ++
      (treeOf v 2 (v.cur.block 13) ++ treeOf v 3 (v.cur.block 14))) v)
    (hG : ∀ s, Freed G L v s → G s.image) :
    Sat (· = v)
      (do
        freeTree 1 (v.cur.block 12)
        freeTree 2 (v.cur.block 13)
        freeTree 3 (v.cur.block 14)
        Act.modify fun v => { v with cur := { v.cur with
          block := fun i => if i < 12 then v.cur.block i else 0
          blocks := 0
          size := 0 } })
      (fun _ w => Freed G L v w ∧
        Gone (treeOf v 1 (v.cur.block 12) ++
          (treeOf v 2 (v.cur.block 13) ++ treeOf v 3 (v.cur.block 14))) v w ∧
        w.cur = { v.cur with
          block := fun i => if i < 12 then v.cur.block i else 0
          blocks := 0
          size := 0 })
      (Freed G L v) := by
  refine sat_then (freeTree_gone 1 _ h.left hG) ?_
  rintro _ w ⟨hfw, hgw, hcw⟩
  have hr := h.rest hgw hfw.geo
  have hsame : ∀ {d b : ℕ}, (∀ x ∈ treeOf v d b, x ∈ treeOf v 2 (v.cur.block 13) ++
      treeOf v 3 (v.cur.block 14)) → treeOf w d b = treeOf v d b := fun hx =>
    treeOf_congr hfw.geo fun x hm => hgw.content x fun h₁ =>
      (List.nodup_append.mp h.nodup).2.2 x h₁ x (hx x hm) rfl
  have h2 : treeOf w 2 (v.cur.block 13) = treeOf v 2 (v.cur.block 13) :=
    hsame fun x hx => List.mem_append_left _ hx
  have h3 : treeOf w 3 (v.cur.block 14) = treeOf v 3 (v.cur.block 14) :=
    hsame fun x hx => List.mem_append_right _ hx
  rw [← h2] at hr
  refine sat_then ((freeTree_gone 2 _ hr.left fun s hs => hG s (hfw.trans hs)).mono (fun _ h => h)
    (fun _ _ h => h) fun u hu => hfw.trans hu) ?_
  rintro _ u ⟨hfu, hgu, hcu⟩
  have hr' := hr.rest hgu hfu.geo
  have h3' : treeOf u 3 (v.cur.block 14) = treeOf v 3 (v.cur.block 14) := by
    rw [← h3]
    refine treeOf_congr hfu.geo fun x hm => hgu.content x fun h₁ => ?_
    exact (List.nodup_append.mp hr.nodup).2.2 x h₁ x (h3 ▸ hm) rfl
  rw [← h3'] at hr'
  have hfwu := hfw.trans hfu
  refine sat_then ((freeTree_gone 3 _ hr' fun s hs => hG s (hfwu.trans hs)).mono (fun _ h => h)
    (fun _ _ h => h) fun t ht => hfwu.trans ht) ?_
  rintro _ t ⟨hft, hgt, hct⟩
  have hcur : t.cur = v.cur := hct.trans (hcu.trans hcw)
  rw [h2] at hgu hr
  rw [h3'] at hgt
  have hgone := hgw.append (hgu.append hgt hft hfu.geo hr.left.zero) (hfu.trans hft) hfw.geo h.left.zero
  refine sat_modify_eq ⟨(hfwu.trans hft).trans (.setCur _ rfl rfl), ⟨?_, hgone.used, hgone.content,
    hgone.slot⟩, ?_⟩
  · exact ⟨hgone.books.free, hgone.books.group⟩
  · dsimp only
    rw [hcur]

/-- After the blocks of an inode have been freed it has none. -/
theorem freeInodeData_gone (h : Freeable L (refs v v.cur) v) (hG : ∀ s, Freed G L v s → G s.image) :
    Sat (· = v) freeInodeData
      (fun _ w => Freed G L v w ∧ Gone (refs v v.cur) v w ∧
        w.cur = { v.cur with block := fun _ => 0, blocks := 0, size := 0 })
      (Freed G L v) := by
  rw [refs_eq] at h ⊢
  refine sat_then (freeDirects_gone (List.range 12) List.nodup_range h.left hG) ?_
  rintro _ w ⟨hfw, hgw, hcw⟩
  have hblock : ∀ i, 12 ≤ i → w.cur.block i = v.cur.block i := fun i hi => by
    rw [hcw, if_neg fun hm => absurd (List.mem_range.mp hm) (by omega)]
  have hr₁ := h.rest hgw hfw.geo
  have hGw : ∀ s, Freed G L w s → G s.image := fun s hs => hG s (hfw.trans hs)
  have hbeyond : ∀ x, x ∈ treeOf v 1 (v.cur.block 12) ++
      (treeOf v 2 (v.cur.block 13) ++ treeOf v 3 (v.cur.block 14)) → w.content x = v.content x := fun x hx =>
    hgw.content x fun hm => (List.nodup_append.mp h.nodup).2.2 x hm x hx rfl
  have htrees : treeOf w 1 (w.cur.block 12) ++ (treeOf w 2 (w.cur.block 13) ++ treeOf w 3 (w.cur.block 14)) =
      treeOf v 1 (v.cur.block 12) ++ (treeOf v 2 (v.cur.block 13) ++ treeOf v 3 (v.cur.block 14)) := by
    rw [hblock 12 (by decide), hblock 13 (by decide), hblock 14 (by decide)]
    rw [treeOf_congr hfw.geo fun x hx => hbeyond x (List.mem_append_left _ hx),
      treeOf_congr hfw.geo fun x hx => hbeyond x (List.mem_append_right _ (List.mem_append_left _ hx)),
      treeOf_congr hfw.geo fun x hx => hbeyond x (List.mem_append_right _ (List.mem_append_right _ hx))]
  rw [← htrees] at hr₁ ⊢
  refine sat_read ((freeTrees_gone hr₁ hGw).mono (fun _ h => h) ?_ fun u hu => hfw.trans hu)
  rintro _ u ⟨hfu, hgu, hcu⟩
  refine ⟨hfw.trans hfu, hgw.append hgu hfu hfw.geo h.left.zero, ?_⟩
  have hnone : (fun i => if i < 12 then w.cur.block i else 0) = fun _ => 0 := by
    funext i
    by_cases hi : i < 12
    · rw [if_pos hi, hcw, if_pos (List.mem_range.mpr hi)]
    · rw [if_neg hi]
  have hkept : w.cur.kind = v.cur.kind ∧ w.cur.links = v.cur.links := by
    rw [hfw.eq]
    exact ⟨rfl, rfl⟩
  rw [hcu]
  dsimp only
  rw [hnone, hkept.1, hkept.2]

end

end EwokOS.Ext3.Vol
