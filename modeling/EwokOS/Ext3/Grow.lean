import EwokOS.Ext3.Alloc

/-! How a file grows: what `ext3_ensure_data_block` does to the blocks of an inode. -/

namespace EwokOS.Ext3

/-! ### Entries -/

theorem entry_setEntry_self {c : Content} {i w : ℕ} (hw : w < 2 ^ 32) : entry (setEntry c i w) i = w := by
  have hbyte : ∀ k, k < 4 → (setEntry c i w (4 * i + k)).toNat = w / 256 ^ k % 256 := by
    intro k hk
    rw [setEntry, if_pos (by omega), Nat.mul_add_mod, Nat.mod_eq_of_lt hk, UInt8.toNat_ofNat']
  rw [entry, ← Nat.add_zero (4 * i), hbyte 0 (by omega), Nat.add_zero, hbyte 1 (by omega),
    hbyte 2 (by omega), hbyte 3 (by omega)]
  rw [show (256 : ℕ) ^ 0 = 1 from rfl, show (256 : ℕ) ^ 1 = 256 from rfl,
    show (256 : ℕ) ^ 2 = 65536 from rfl, show (256 : ℕ) ^ 3 = 16777216 from rfl]
  omega

theorem entry_setEntry_of_ne {c : Content} {i j w : ℕ} (h : j ≠ i) :
    entry (setEntry c i w) j = entry c j := by
  have hbyte : ∀ k, k < 4 → setEntry c i w (4 * j + k) = c (4 * j + k) := by
    intro k hk
    rw [setEntry, if_neg (by omega)]
  rw [entry, entry, ← Nat.add_zero (4 * j), hbyte 0 (by omega), Nat.add_zero, hbyte 1 (by omega),
    hbyte 2 (by omega), hbyte 3 (by omega)]

theorem entry_blank (i : ℕ) : entry blank i = 0 := rfl

end EwokOS.Ext3

namespace EwokOS.Ext3.Vol

open Schemes Act

/-! ### Owning blocks -/

/-- The blocks `L` are owned by one inode; `O` are all other blocks in use, and hold `P`. Blocks may be
    marked that are neither. -/
structure Owns (O : ℕ → Prop) (P : ℕ → Content) (L : List ℕ) (v : Vol) : Prop where
  books : Books v
  range : v.geo.first ≤ v.geo.count
  zero : v.geo.first = 0 → O 0
  others : ∀ x, O x → v.used x = true
  mine : ∀ x ∈ L, v.used x = true
  nodup : L.Nodup
  inside : ∀ x ∈ L, x ≠ 0 ∧ v.geo.first ≤ x ∧ x < v.geo.count ∧ ¬O x
  frame : ∀ x, O x → v.content x = P x

/-- No other block is marked, and `i_blocks` counts `L` and `K` blocks more. -/
structure Exact (O : ℕ → Prop) (L : List ℕ) (K : ℕ) (v : Vol) : Prop where
  used : ∀ x, v.geo.first ≤ x → x < v.geo.count → v.used x = true → O x ∨ x ∈ L
  blocks : v.cur.blocks = (K + L.length) * v.geo.sectors

section
variable {O : ℕ → Prop} {P : ℕ → Content} {L L' R : List ℕ} {K : ℕ} {v w u : Vol} {a b d i : ℕ}

theorem Owns.perm (h : Owns O P L v) (hp : L'.Perm L) : Owns O P L' v :=
  ⟨h.books, h.range, h.zero, h.others, fun x hx => h.mine x (hp.mem_iff.mp hx), hp.nodup_iff.mpr h.nodup,
    fun x hx => h.inside x (hp.mem_iff.mp hx), h.frame⟩

theorem Exact.perm (h : Exact O L K v) (hp : L'.Perm L) : Exact O L' K v :=
  ⟨fun x h₁ h₂ hx => (h.used x h₁ h₂ hx).imp_right hp.mem_iff.mpr, by rw [hp.length_eq]; exact h.blocks⟩

/-- Some of the blocks are looked at alone. -/
theorem Owns.focus (h : Owns O P (L ++ R) v) : Owns (fun x => O x ∨ x ∈ R) v.content L v := by
  obtain ⟨hL, -, hLR⟩ := List.nodup_append.mp h.nodup
  refine ⟨h.books, h.range, fun h0 => .inl (h.zero h0), ?_, fun x hx => h.mine x (List.mem_append_left R hx),
    hL, fun x hx => ?_, fun _ _ => rfl⟩
  · rintro x (hx | hx)
    · exact h.others x hx
    · exact h.mine x (List.mem_append_right L hx)
  · obtain ⟨h₀, h₁, h₂, h₃⟩ := h.inside x (List.mem_append_left R hx)
    refine ⟨h₀, h₁, h₂, ?_⟩
    rintro (ho | hr)
    · exact h₃ ho
    · exact hLR x hx x hr rfl

/-- And together with the rest again. -/
theorem Owns.unfocus (h : Owns O P (L ++ R) v) (hg : w.geo = v.geo)
    (hw : Owns (fun x => O x ∨ x ∈ R) v.content L' w) : Owns O P (L' ++ R) w := by
  have hR := (List.nodup_append.mp h.nodup).2.1
  refine ⟨hw.books, hw.range, fun h0 => h.zero (hg ▸ h0), fun x hx => hw.others x (.inl hx), fun x hx => ?_,
    ?_, fun x hx => ?_, fun x hx => (hw.frame x (.inl hx)).trans (h.frame x hx)⟩
  · rcases List.mem_append.mp hx with hx | hx
    · exact hw.mine x hx
    · exact hw.others x (.inr hx)
  · refine List.nodup_append.mpr ⟨hw.nodup, hR, ?_⟩
    rintro x hx y hy rfl
    exact (hw.inside x hx).2.2.2 (.inr hy)
  · rcases List.mem_append.mp hx with hx | hx
    · obtain ⟨h₀, h₁, h₂, h₃⟩ := hw.inside x hx
      exact ⟨h₀, h₁, h₂, fun ho => h₃ (.inl ho)⟩
    · rw [hg]
      exact h.inside x (List.mem_append_right L hx)

theorem exact_focus : Exact O (L ++ R) K v ↔ Exact (fun x => O x ∨ x ∈ R) L (K + R.length) v := by
  constructor
  · intro h
    refine ⟨fun x h₁ h₂ hx => ?_, ?_⟩
    · rcases h.used x h₁ h₂ hx with ho | hm
      · exact .inl (.inl ho)
      · rcases List.mem_append.mp hm with hm | hm
        · exact .inr hm
        · exact .inl (.inr hm)
    · rw [h.blocks, List.length_append]
      congr 1
      omega
  · intro h
    refine ⟨fun x h₁ h₂ hx => ?_, ?_⟩
    · rcases h.used x h₁ h₂ hx with (ho | hm) | hm
      · exact .inl ho
      · exact .inr (List.mem_append_right L hm)
      · exact .inr (List.mem_append_left R hm)
    · rw [h.blocks, List.length_append]
      congr 1
      omega

theorem Idle.content (h : Idle v w) (x : ℕ) : w.content x = v.content x := by
  rw [h.eq]
  rfl

theorem Idle.owns (h : Idle v w) (ho : Owns O P L v) : Owns O P L w := by
  rw [h.eq]
  exact ⟨⟨ho.books.free, ho.books.group⟩, ho.range, ho.zero, ho.others, ho.mine, ho.nodup, ho.inside, ho.frame⟩

theorem Idle.exact (h : Idle v w) (he : Exact O L K v) : Exact O L K w := by
  rw [h.eq]
  exact ⟨he.used, he.blocks⟩

theorem used_took (h : v.used b = true) (a : ℕ) : (took a v).used b = true := by
  show setBit v.bmap (v.geo.groupOf a) (v.geo.bitOf a) true (v.geo.groupOf b) (v.geo.bitOf b) = true
  rw [setBit_apply]
  split_ifs
  · rfl
  · exact h

theorem used_took_self (a : ℕ) (v : Vol) : (took a v).used a = true := by
  show setBit v.bmap (v.geo.groupOf a) (v.geo.bitOf a) true (v.geo.groupOf a) (v.geo.bitOf a) = true
  rw [setBit_apply, if_pos ⟨rfl, rfl⟩]

/-- A block is taken and not put anywhere yet. -/
theorem Owns.take (h : Owns O P L v) (h₁ : v.geo.first ≤ a) (h₂ : a < v.geo.count)
    (ha : v.used a = false) : Owns O P L (took a v) := by
  have hb : Books (markBlock a true v) := h.books.marked h₁ h₂ ha
  exact ⟨⟨hb.free, hb.group⟩, h.range, h.zero, fun x hx => used_took (h.others x hx) a,
    fun x hx => used_took (h.mine x hx) a, h.nodup, h.inside, h.frame⟩

/-- A block that is free is none of those in use. -/
theorem Owns.fresh (h : Owns O P L v) (h₁ : v.geo.first ≤ a) (ha : v.used a = false) :
    a ≠ 0 ∧ a ∉ L ∧ ¬O a := by
  have ho : ¬O a := fun ho => by
    rw [h.others a ho] at ha
    cases ha
  refine ⟨?_, fun hm => ?_, ho⟩
  · rintro rfl
    exact ho (h.zero (Nat.le_zero.mp h₁))
  · rw [h.mine a hm] at ha
    cases ha

/-- A block in use becomes one of the inode's. -/
theorem Owns.add (h : Owns O P L v) (h₀ : a ≠ 0) (h₁ : v.geo.first ≤ a) (h₂ : a < v.geo.count)
    (hu : v.used a = true) (hL : a ∉ L) (hO : ¬O a) : Owns O P (a :: L) v := by
  refine ⟨h.books, h.range, h.zero, h.others, fun x hx => ?_, List.nodup_cons.mpr ⟨hL, h.nodup⟩,
    fun x hx => ?_, h.frame⟩
  · rcases List.mem_cons.mp hx with rfl | hx
    · exact hu
    · exact h.mine x hx
  · rcases List.mem_cons.mp hx with rfl | hx
    · exact ⟨h₀, h₁, h₂, hO⟩
    · exact h.inside x hx

/-- What the other blocks hold is not changed, and neither are the bits. -/
theorem Owns.recontent (h : Owns O P L v) (hbmap : w.bmap = v.bmap) (hgeo : w.geo = v.geo)
    (hfree : w.free = v.free) (hgroup : w.groupFree = v.groupFree)
    (hc : ∀ x, O x → w.content x = v.content x) : Owns O P L w := by
  have hused : ∀ x, w.used x = v.used x := by
    intro x
    rw [used, used, hbmap, hgeo]
  have hclear : w.clear = v.clear := by
    funext x
    rw [clear, clear, hused, hgeo]
  refine ⟨⟨?_, fun g => ?_⟩, hgeo ▸ h.range, fun h0 => h.zero (hgeo ▸ h0), fun x hx => ?_, fun x hx => ?_,
    h.nodup, fun x hx => ?_, fun x hx => (hc x hx).trans (h.frame x hx)⟩
  · rw [hfree, hgeo, hclear]
    exact h.books.free
  · rw [hgroup, hgeo, hclear]
    exact h.books.group g
  · rw [hused]
    exact h.others x hx
  · rw [hused]
    exact h.mine x hx
  · rw [hgeo]
    exact h.inside x hx

/-- The blocks below `b`. -/
def treeOf (v : Vol) (d b : ℕ) : List ℕ := tree v.geo.entries v.view d b

theorem content_update {c : Content} (hb : v.slot ≠ b) (x : ℕ) :
    ({ v with raw := Function.update v.raw b c } : Vol).content x = if x = b then c else v.content x := by
  rw [content, content]
  dsimp only
  by_cases hx : x = b
  · subst hx
    rw [if_neg fun h => hb h.1, if_pos rfl, Function.update_self]
  · rw [if_neg hx, Function.update_of_ne hx]

/-- A tree whose blocks hold what they held. -/
theorem treeOf_congr (hg : w.geo = v.geo) (h : ∀ x ∈ treeOf v d b, w.content x = v.content x) :
    treeOf w d b = treeOf v d b := by
  rw [treeOf, hg]
  refine tree_congr fun x hx i _ => ?_
  rw [view, view, h x (inner_subset hx)]

/-- Block `a` is entered in block `b`, which is one of the inode's. -/
theorem treeOf_link {c : Content} (hgeo : w.geo = v.geo)
    (hcont : ∀ x, w.content x = if x = b then c else v.content x) (hb : b ≠ 0) (hi : i < v.geo.entries)
    (hnd : (treeOf v (d + 1) b).Nodup) (ha : a ∉ treeOf v (d + 1) b) (ha0 : a ≠ 0) (hz : v.view b i = 0)
    (hca : entry c i = a) (hc : ∀ j, j ≠ i → entry c j = v.view b j)
    (hblank : d = 0 ∨ ∀ j, v.view a j = 0) :
    (treeOf w (d + 1) b).Perm (a :: treeOf v (d + 1) b) := by
  have hview : ∀ x j, w.view x j = if x = b then entry c j else v.view x j := by
    intro x j
    rw [view, hcont]
    split_ifs <;> rfl
  have hab : a ≠ b := by
    rintro rfl
    exact ha (root_mem_tree hb)
  rw [treeOf, hgeo]
  refine tree_perm (x := [a]) hb hi (fun j _ hj => ?_) ?_ (fun j hj hji x hx k _ => ?_)
  · rw [hview, if_pos rfl]
    exact hc j hj
  · rw [hview, if_pos rfl, hca, hz, tree_none, List.append_nil]
    rcases hblank with rfl | hblank
    · rw [tree_leaf ha0]
    · rw [tree_blank ha0 fun j _ => ?_]
      rw [hview, if_neg hab]
      exact hblank j
  · have hxb : x ≠ b := by
      rintro rfl
      exact root_not_mem_child hnd hb hj (inner_subset hx)
    rw [hview, if_neg hxb]

/-! ### One block more -/

/-- What is not changed while a tree of blocks grows. -/
structure Kept (v w : Vol) : Prop where
  eq : w = { v with
    bmap := w.bmap, bgroup := w.bgroup, bdirty := w.bdirty,
    free := w.free, groupFree := w.groupFree, next := w.next, raw := w.raw, io := w.io, seen := w.seen,
    cur := { v.cur with blocks := w.cur.blocks } }
  quiet : v.Quiet → w.Quiet
  below : w.raw v.slot = v.raw v.slot

theorem Kept.trans (h : Kept v w) (h' : Kept w u) : Kept v u := by
  refine ⟨?_, fun hq => h'.quiet (h.quiet hq), ?_⟩
  · conv_lhs => rw [h'.eq, h.eq]
  · have hslot : w.slot = v.slot := by rw [h.eq]
    rw [← hslot, h'.below, hslot, h.below]

theorem Idle.kept (h : Idle v w) : Kept v w := by
  refine ⟨?_, h.quiet, ?_⟩ <;> rw [h.eq]

theorem Kept.geo (h : Kept v w) : w.geo = v.geo := by
  rw [h.eq]

theorem Kept.slot (h : Kept v w) : w.slot = v.slot := by
  rw [h.eq]

/-- The tree below `b` has grown; `G` holds of all that was committed meanwhile. -/
structure Grown (G : Image → Prop) (O : ℕ → Prop) (P : ℕ → Content) (d b : ℕ) (v w : Vol) : Prop where
  kept : Kept v w
  owns : Owns O P (treeOf w d b) w
  seen : ∀ x ∈ w.seen, x ∈ v.seen ∨ G x
  exact : v.Quiet → ∀ K, Exact O (treeOf v d b) K v → Exact O (treeOf w d b) K w

variable {G : Image → Prop}

theorem Grown.trans (h : Grown G O P d b v w) (h' : Grown G O P d b w u) : Grown G O P d b v u := by
  refine ⟨h.kept.trans h'.kept, h'.owns, fun x hx => ?_, fun hq K he => ?_⟩
  · rcases h'.seen x hx with hx | hx
    · exact h.seen x hx
    · exact .inr hx
  · exact h'.exact (h.kept.quiet hq) K (h.exact hq K he)

theorem Idle.treeOf (h : Idle v w) (d b : ℕ) : treeOf w d b = Vol.treeOf v d b :=
  treeOf_congr h.geo fun x _ => h.content x

/-- No block is free. -/
def Full (v : Vol) : Prop := ∀ b, v.geo.first ≤ b → b < v.geo.count → v.used b = true

theorem Idle.full (h : Idle v w) (hv : Full v) : Full w := by
  intro b h₁ h₂
  rw [h.geo] at h₁ h₂
  rw [h.used]
  exact hv b h₁ h₂

/-- The condition on what may be committed: `G` holds of every volume in which the tree has grown. -/
def Commits (G : Image → Prop) (O : ℕ → Prop) (P : ℕ → Content) (d b : ℕ) (v : Vol) : Prop :=
  ∀ s, Kept v s → Owns O P (treeOf s d b) s → G s.image

theorem Idle.grown (h : Idle v w) (ho : Owns O P (Vol.treeOf v d b) v) (hG : Commits G O P d b v) :
    Grown G O P d b v w := by
  refine ⟨h.kept, ?_, fun x hx => ?_, fun _ K he => ?_⟩
  · rw [h.treeOf]
    exact h.owns ho
  · rcases h.seen x hx with hx | rfl
    · exact .inl hx
    · exact .inr (hG v (Idle.refl v).kept ho)
  · rw [h.treeOf]
    exact h.exact he

theorem Commits.of_kept (hG : Commits G O P d b v) (h : Kept v w) : Commits G O P d b w :=
  fun s hs => hG s (h.trans hs)

/-- Block `a` has been taken and counted, and is in no tree yet. -/
structure Mid (G : Image → Prop) (O : ℕ → Prop) (P : ℕ → Content) (d b a : ℕ) (v s : Vol) : Prop where
  kept : Kept v s
  owns : Owns O P (Vol.treeOf v d b) s
  used : s.used a = true
  same : ∀ x, x ≠ a → s.content x = v.content x
  blocks : s.cur.blocks = v.cur.blocks + v.geo.sectors
  bits : ∀ x, v.geo.first ≤ x → s.used x = true → v.used x = true ∨ x = a
  seen : ∀ x ∈ s.seen, x ∈ v.seen ∨ G x

section
variable {s t : Vol} (hfree : v.geo.first ≤ a ∧ a < v.geo.count ∧ v.used a = false)
  (ho : Owns O P (Vol.treeOf v d b) v) (hG : Commits G O P d b v)
include hfree ho

theorem Mid.treeOf (h : Mid G O P d b a v s) : treeOf s d b = Vol.treeOf v d b := by
  obtain ⟨-, ha, -⟩ := ho.fresh hfree.1 hfree.2.2
  refine treeOf_congr h.kept.geo fun x hx => h.same x ?_
  rintro rfl
  exact ha hx

/-- The new block is zeroed. -/
theorem Mid.zeroed (h : Mid G O P d b a v s) (hslot : v.slot = 0 ∨ O v.slot) :
    Mid G O P d b a v { s with raw := Function.update s.raw a blank } ∧
      ({ s with raw := Function.update s.raw a blank } : Vol).content a = blank := by
  obtain ⟨ha0, ha, haO⟩ := ho.fresh hfree.1 hfree.2.2
  have hne : s.slot ≠ a := by
    rw [h.kept.slot]
    rintro rfl
    rcases hslot with h0 | h0
    · exact ha0 h0
    · exact haO h0
  have hcont : ∀ x, ({ s with raw := Function.update s.raw a blank } : Vol).content x =
      if x = a then blank else s.content x := content_update hne
  refine ⟨⟨h.kept.trans ⟨rfl, id, Function.update_of_ne hne ..⟩, ?_, h.used, fun x hx => ?_, h.blocks, h.bits,
    h.seen⟩, ?_⟩
  · refine h.owns.recontent rfl rfl rfl rfl fun x hx => ?_
    rw [hcont, if_neg]
    rintro rfl
    exact haO hx
  · rw [hcont, if_neg hx]
    exact h.same x hx
  · rw [hcont, if_pos rfl]

/-- Without a further write nothing is lost but the block. -/
theorem Mid.grown (h : Mid G O P d b a v s) (hq : ¬v.Quiet) : Grown G O P d b v s := by
  refine ⟨h.kept, ?_, h.seen, fun hv => absurd hv hq⟩
  rw [h.treeOf hfree ho]
  exact h.owns

include hG

theorem Mid.idle (h : Mid G O P d b a v s) (hi : Idle s t) : Mid G O P d b a v t := by
  refine ⟨h.kept.trans hi.kept, hi.owns h.owns, by rw [hi.used]; exact h.used,
    fun x hx => (hi.content x).trans (h.same x hx), ?_, fun x hf hx => h.bits x hf (by rw [← hi.used]; exact hx),
    fun x hx => ?_⟩
  · rw [hi.eq]
    exact h.blocks
  · rcases hi.seen x hx with hx | rfl
    · exact h.seen x hx
    · refine .inr (hG s h.kept ?_)
      rw [h.treeOf hfree ho]
      exact h.owns

theorem mid_took (hu : Idle v u) : Mid G O P d b a v (countBlock (took a u)) := by
  have hown : Owns O P (Vol.treeOf v d b) (took a u) :=
    (hu.owns ho).take (hu.geo ▸ hfree.1) (hu.geo ▸ hfree.2.1) (by rw [hu.used]; exact hfree.2.2)
  refine ⟨⟨?_, hu.quiet, ?_⟩, hown.recontent rfl rfl rfl rfl fun _ _ => rfl, used_took_self a u,
    fun x _ => hu.content x, ?_, fun x hf hx => ?_, (hu.grown ho hG).seen⟩
  · rw [hu.eq]
    rfl
  · exact hu.kept.below
  · rw [hu.eq]
    rfl
  · have hx' : (markBlock a true u).used x = true := hx
    rw [used_markBlock (hu.geo ▸ hfree.1) (hu.geo ▸ hf), hu.used] at hx'
    split_ifs at hx' with he
    · exact .inr he
    · exact .inl hx'

end

/-- Block `a` is new, and entry `i` of block `b`. -/
structure Child (d b i a : ℕ) (v w : Vol) : Prop where
  view : ∀ x j, x ≠ a → w.view x j = if x = b ∧ j = i then a else v.view x j
  blank : d = 0 ∨ ∀ j, w.view a j = 0
  fresh : a ∉ Vol.treeOf v (d + 1) b
  ne : a ≠ 0

/-- The new block is entered in block `b`. -/
theorem Mid.link (hfree : v.geo.first ≤ a ∧ a < v.geo.count ∧ v.used a = false)
    (ho : Owns O P (Vol.treeOf v (d + 1) b) v) (h : Mid G O P (d + 1) b a v s)
    (hslot : v.slot = 0 ∨ O v.slot) (hb : b ≠ 0) (hi : i < v.geo.entries) (hz : v.view b i = 0)
    (hblank : d = 0 ∨ s.content a = blank) {c : Content} (hc : c = setEntry (v.raw b) i a) :
    Grown G O P (d + 1) b v { s with raw := Function.update s.raw b c } ∧
      Child d b i a v { s with raw := Function.update s.raw b c } := by
  obtain ⟨ha0, ha, haO⟩ := ho.fresh hfree.1 hfree.2.2
  have hbt : b ∈ Vol.treeOf v (d + 1) b := root_mem_tree hb
  have hbO : ¬O b := (ho.inside b hbt).2.2.2
  have hba : b ≠ a := by
    rintro rfl
    exact ha hbt
  have hvb : v.slot ≠ b := by
    rintro rfl
    rcases hslot with h0 | h0
    · exact hb h0
    · exact hbO h0
  have hsb : s.slot ≠ b := by
    rw [h.kept.slot]
    exact hvb
  have hlt : a < 2 ^ 32 := hfree.2.1.trans v.geo.count_lt
  have htree := h.treeOf hfree ho
  have hvraw : ∀ j, v.view b j = entry (v.raw b) j := by
    intro j
    rw [view, content, if_neg fun h => hvb h.1]
  have hview : ∀ j, s.view b j = v.view b j := by
    intro j
    rw [view, view, h.same b hba]
  set w : Vol := { s with raw := Function.update s.raw b c }
  have hperm : (Vol.treeOf w (d + 1) b).Perm (a :: Vol.treeOf s (d + 1) b) := by
    refine treeOf_link rfl (content_update hsb) hb (h.kept.geo ▸ hi) ?_ ?_ ha0 ?_ ?_ (fun j hj => ?_) (hblank.imp_right ?_)
    · rw [htree]
      exact ho.nodup
    · rw [htree]
      exact ha
    · rw [hview, hz]
    · rw [hc, entry_setEntry_self hlt]
    · rw [hc, entry_setEntry_of_ne hj, hview, hvraw]
    · intro hbl j
      rw [view, hbl, entry_blank]
  rw [htree] at hperm
  have hown : Owns O P (a :: Vol.treeOf v (d + 1) b) w := by
    refine (h.owns.add ha0 (h.kept.geo ▸ hfree.1) (h.kept.geo ▸ hfree.2.1) h.used ha haO).recontent
      rfl rfl rfl rfl fun x hx => ?_
    rw [content_update hsb, if_neg]
    rintro rfl
    exact hbO hx
  have hgeo : w.geo = v.geo := h.kept.geo
  refine ⟨⟨h.kept.trans ⟨rfl, id, Function.update_of_ne hsb ..⟩, hown.perm hperm, h.seen,
    fun _ K he => ?_⟩, ?_⟩
  · refine Exact.perm ⟨fun x h₁ h₂ hx => ?_, ?_⟩ hperm
    · rw [hgeo] at h₁ h₂
      rcases h.bits x h₁ hx with hx | rfl
      · exact (he.used x h₁ h₂ hx).imp_right (List.mem_cons_of_mem a)
      · exact .inr List.mem_cons_self
    · rw [hgeo]
      show s.cur.blocks = _
      rw [h.blocks, he.blocks, List.length_cons, ← Nat.add_assoc, Nat.succ_mul]
  · refine ⟨fun x j hx => ?_, hblank.imp_right fun hbl j => ?_, ha, ha0⟩
    · rw [view, content_update hsb]
      by_cases hxb : x = b
      · rw [if_pos hxb, hc]
        by_cases hj : j = i
        · rw [if_pos ⟨hxb, hj⟩, hj, entry_setEntry_self hlt]
        · rw [if_neg fun h => hj h.2, entry_setEntry_of_ne hj, hxb, hvraw]
      · rw [if_neg hxb, if_neg fun h => hxb h.1, view, h.same x hx]
    · rw [view, content_update hsb, if_neg (Ne.symm hba), hbl, entry_blank]

theorem addChild_spec {holds : Bool} (ho : Owns O P (Vol.treeOf v (d + 1) b) v)
    (hslot : v.slot = 0 ∨ O v.slot) (hb : b ≠ 0) (hi : i < v.geo.entries) (hz : v.view b i = 0)
    (hd : d = 0 ∨ holds = true) (hG : Commits G O P (d + 1) b v) :
    Sat (· = v) (addChild b i (v.raw b) holds)
      (fun a w => Grown G O P (d + 1) b v w ∧ Child d b i a v w)
      (fun w => Grown G O P (d + 1) b v w ∧ (v.Quiet → Full w)) := by
  refine sat_then ((balloc_spec v ho.range).mono (fun _ h => h) (fun _ _ h => h) ?_) ?_
  · exact fun w hw => ⟨hw.1.grown ho hG, fun hq => hw.1.full (hw.2 hq)⟩
  rintro a t ⟨h₁, h₂, h₃, u, hu, rfl⟩
  have hfree : v.geo.first ≤ a ∧ a < v.geo.count ∧ v.used a = false := ⟨h₁, h₂, h₃⟩
  have hmid := mid_took hfree ho hG hu
  have hloud : ∀ {s}, Mid G O P (d + 1) b a v s → ¬s.Quiet → ¬v.Quiet := fun hs hq hv => hq (hs.kept.quiet hv)
  refine sat_set (sat_then (Q := fun _ s => Mid G O P (d + 1) b a v s ∧ (d = 0 ∨ s.content a = blank)) ?_ ?_)
  · refine sat_when (fun _ => ?_) fun hh s hs => ?_
    · refine (writeMeta_spec _ _).mono (fun _ h => h) ?_ ?_
      · rintro _ _ ⟨s, hs, rfl⟩
        obtain ⟨hm, hbl⟩ := (hmid.idle hfree ho hG hs).zeroed hfree ho hslot
        exact ⟨hm, .inr hbl⟩
      · rintro s ⟨hs, hq⟩
        exact ⟨(hmid.idle hfree ho hG hs).grown hfree ho (hloud hmid hq), fun hv => absurd hv (hloud hmid hq)⟩
    · subst hs
      exact ⟨hmid, .inl (hd.resolve_right hh)⟩
  · rintro _ s ⟨hs, hbl⟩
    refine sat_then ((writeMeta_spec _ s).mono (fun _ h => h) (fun _ _ h => h) ?_) ?_
    · rintro t ⟨ht, hq⟩
      exact ⟨(hs.idle hfree ho hG ht).grown hfree ho (hloud hs hq), fun hv => absurd hv (hloud hs hq)⟩
    · rintro _ _ ⟨t, ht, rfl⟩
      exact sat_pure_eq ((hs.idle hfree ho hG ht).link hfree ho hslot hb hi hz
        (hbl.imp_right fun h => (ht.content a).trans h) rfl)

/-! ### Down the tree -/

/-- The blocks of the tree below `b` that are not below entry `i`. -/
def besideOf (v : Vol) (d b i : ℕ) : List ℕ := beside v.geo.entries v.view d b i

theorem treeOf_perm_beside (hb : b ≠ 0) (hi : i < v.geo.entries) :
    (Vol.treeOf v (d + 1) b).Perm (Vol.treeOf v d (v.view b i) ++ besideOf v d b i) :=
  tree_perm_beside hb hi

/-- What lies below an entry is looked at alone. -/
theorem Owns.child (ho : Owns O P (Vol.treeOf v (d + 1) b) v) (hb : b ≠ 0) (hi : i < v.geo.entries) {c : ℕ}
    (hc : v.view b i = c) :
    Owns (fun x => O x ∨ x ∈ besideOf v d b i) v.content (Vol.treeOf v d c) v := by
  subst hc
  exact (ho.perm (treeOf_perm_beside hb hi).symm).focus

theorem besideOf_congr (hg : w.geo = v.geo) (h : ∀ x ∈ besideOf v d b i, w.content x = v.content x) :
    w.view b i = v.view b i ∧ besideOf w d b i = besideOf v d b i := by
  refine ⟨?_, ?_⟩
  · rw [view, view, h b List.mem_cons_self]
  · rw [besideOf, hg]
    exact beside_congr fun x hx j _ => by rw [view, view, h x hx]

/-- And as a part of the whole again. -/
theorem Owns.parent (ho : Owns O P (Vol.treeOf v (d + 1) b) v) (hb : b ≠ 0) (hi : i < v.geo.entries) {c : ℕ}
    (hc : v.view b i = c) (hg : w.geo = v.geo)
    (hw : Owns (fun x => O x ∨ x ∈ besideOf v d b i) v.content (Vol.treeOf w d c) w) :
    Owns O P (Vol.treeOf w (d + 1) b) w ∧
      (Vol.treeOf w (d + 1) b).Perm (Vol.treeOf w d c ++ besideOf v d b i) := by
  have hperm := treeOf_perm_beside (d := d) hb hi
  obtain ⟨hview, hbeside⟩ := besideOf_congr hg fun x hx => hw.frame x (.inr hx)
  have hpermw : (Vol.treeOf w (d + 1) b).Perm (Vol.treeOf w d c ++ besideOf v d b i) := by
    rw [← hbeside, ← hc, ← hview]
    exact treeOf_perm_beside hb (hg ▸ hi)
  rw [hc] at hperm
  exact ⟨((ho.perm hperm.symm).unfocus hg hw).perm hpermw, hpermw⟩

theorem Commits.child (hG : Commits G O P (d + 1) b v) (ho : Owns O P (Vol.treeOf v (d + 1) b) v)
    (hb : b ≠ 0) (hi : i < v.geo.entries) {c : ℕ} (hc : v.view b i = c) :
    Commits G (fun x => O x ∨ x ∈ besideOf v d b i) v.content d c v :=
  fun s hs hown => hG s hs (ho.parent hb hi hc hs.geo hown).1

/-- What has grown below an entry has grown as a whole. -/
theorem Grown.parent (ho : Owns O P (Vol.treeOf v (d + 1) b) v) (hb : b ≠ 0) (hi : i < v.geo.entries)
    {c : ℕ} (hc : v.view b i = c)
    (h : Grown G (fun x => O x ∨ x ∈ besideOf v d b i) v.content d c v w) :
    Grown G O P (d + 1) b v w := by
  obtain ⟨hown, hpermw⟩ := ho.parent hb hi hc h.kept.geo h.owns
  refine ⟨h.kept, hown, h.seen, fun hq K he => ?_⟩
  have hperm := treeOf_perm_beside (d := d) hb hi
  rw [hc] at hperm
  have hex := exact_focus.mp (he.perm hperm.symm)
  exact (exact_focus.mpr (h.exact hq _ hex)).perm hpermw

/-- Block `x` is now at the end of the path below `b`; no other path leads elsewhere than before. -/
structure Reached (b : ℕ) (path : List ℕ) (x : ℕ) (v w : Vol) : Prop where
  here : follow w.view b path = x
  ne : x ≠ 0
  rest : ∀ q : List ℕ, q.length = path.length → (∀ i ∈ q, i < v.geo.entries) → q ≠ path →
    follow w.view b q = follow v.view b q

theorem Child.entry (h : Child d b i a v w) (hb : b ≠ 0) : w.view b i = a := by
  rw [h.view b i, if_pos ⟨rfl, rfl⟩]
  rintro rfl
  exact h.fresh (root_mem_tree hb)

/-- A new leaf. -/
theorem Child.reached (h : Child 0 b i a v w) (hb : b ≠ 0) : Reached b [i] a v w := by
  refine ⟨?_, h.ne, fun q hlen _ hq => ?_⟩
  · rw [follow_cons hb, h.entry hb, follow]
  · obtain ⟨j, rfl⟩ := List.length_eq_one_iff.mp hlen
    have hji : j ≠ i := by
      rintro rfl
      exact hq rfl
    have hba : b ≠ a := by
      rintro rfl
      exact h.fresh (root_mem_tree hb)
    rw [follow_cons hb, follow_cons hb, h.view b j hba, if_neg fun he => hji he.2, follow, follow]

/-- A new block without entries leads nowhere. -/
theorem Child.follow (h : Child (d + 1) b i a v w) (hb : b ≠ 0) (hnd : (Vol.treeOf v (d + 2) b).Nodup)
    (hz : v.view b i = 0) {q : List ℕ} (hlen : q.length = d + 2) (hq : ∀ i ∈ q, i < v.geo.entries) :
    follow w.view b q = follow v.view b q := by
  obtain ⟨j, q, rfl⟩ := List.exists_cons_of_length_eq_add_one hlen
  obtain ⟨hj, hq⟩ := List.forall_mem_cons.mp hq
  have hlen : q.length = d + 1 := Nat.succ.inj hlen
  have hba : b ≠ a := by
    rintro rfl
    exact h.fresh (root_mem_tree hb)
  rw [follow_cons hb, follow_cons hb, h.view b j hba]
  by_cases hji : j = i
  · obtain ⟨k, q, rfl⟩ := List.exists_cons_of_length_eq_add_one hlen
    have hnone : w.view a k = 0 := (h.blank.resolve_left (Nat.succ_ne_zero d)) k
    rw [if_pos ⟨rfl, hji⟩, hji, hz, follow_none, follow_cons h.ne, hnone, follow_none]
  · rw [if_neg fun he => hji he.2]
    refine follow_congr hq fun x hx k _ => ?_
    rw [hlen] at hx
    have hmem : x ∈ Vol.treeOf v (d + 1) (v.view b j) := inner_subset hx
    have hxa : x ≠ a := by
      rintro rfl
      exact h.fresh (tree_child_subset hb hj hmem)
    have hxb : x ≠ b := by
      rintro rfl
      exact root_not_mem_child hnd hb hj hmem
    rw [h.view x k hxa, if_neg fun he => hxb he.1]

/-- What has been reached below an entry. -/
theorem Reached.parent {path : List ℕ} (h : Reached (v.view b i) path a v w) (hb : b ≠ 0)
    (hframe : ∀ x ∈ besideOf v path.length b i, w.content x = v.content x) : Reached b (i :: path) a v w := by
  have hroot : ∀ j, w.view b j = v.view b j := fun j => by
    rw [view, view, hframe b List.mem_cons_self]
  refine ⟨?_, h.ne, fun q hlen hq hne => ?_⟩
  · rw [follow_cons hb, hroot, h.here]
  · obtain ⟨j, q, rfl⟩ := List.exists_cons_of_length_eq_add_one (hlen.trans (List.length_cons ..))
    obtain ⟨hj, hq⟩ := List.forall_mem_cons.mp hq
    have hlen : q.length = path.length := Nat.succ.inj hlen
    rw [follow_cons hb, follow_cons hb, hroot]
    by_cases hji : j = i
    · rw [hji]
      exact h.rest q hlen hq fun he => hne (by rw [hji, he])
    · refine follow_congr hq fun x hx k _ => ?_
      rw [hlen] at hx
      rw [view, view, hframe x]
      refine List.mem_cons_of_mem b (List.mem_flatMap.mpr ⟨j, ?_, inner_subset hx⟩)
      exact (List.Nodup.mem_erase_iff List.nodup_range).mpr ⟨hji, List.mem_range.mpr hj⟩

/-- The way down a tree: it grows where there is no block yet, and leads to a leaf. -/
theorem descend_spec {path : List ℕ} (hne : path ≠ []) (hpath : ∀ i ∈ path, i < v.geo.entries) (hb : b ≠ 0)
    (ho : Owns O P (Vol.treeOf v path.length b) v) (hslot : v.slot = 0 ∨ O v.slot)
    (hG : Commits G O P path.length b v) :
    Sat (· = v) (descend b path)
      (fun r w => Grown G O P path.length b v w ∧ Reached b path r.1 v w)
      (fun w => Grown G O P path.length b v w ∧ (v.Quiet → Full w)) := by
  induction path generalizing b v O P with
  | nil => exact absurd rfl hne
  | cons num path ih =>
    have hnum : num < v.geo.entries := hpath num List.mem_cons_self
    have hbO : ¬O b := (ho.inside b (root_mem_tree hb)).2.2.2
    have hraw : ∀ j, v.view b j = entry (v.raw b) j := by
      intro j
      rw [view, content, if_neg]
      rintro ⟨rfl, -⟩
      rcases hslot with h0 | h0
      · exact hb h0
      · exact hbO h0
    -- below an entry that is there
    have hdown : ∀ {u : Vol} {c : ℕ}, Grown G O P (path.length + 1) b v u → u.view b num = c → c ≠ 0 →
        path ≠ [] → (∀ q : List ℕ, q.length = path.length + 1 → (∀ i ∈ q, i < v.geo.entries) →
          follow u.view b q = follow v.view b q) → Sat (· = u) (descend c path)
          (fun r w => Grown G O P (path.length + 1) b v w ∧ Reached b (num :: path) r.1 v w)
          (fun w => Grown G O P (path.length + 1) b v w ∧ (v.Quiet → Full w)) := by
      intro u c hu hc hc0 hp hsame
      have hnu : num < u.geo.entries := hu.kept.geo ▸ hnum
      have hso : u.slot = 0 ∨ O u.slot := hu.kept.slot ▸ hslot
      refine (ih hp (fun i hi => hu.kept.geo ▸ hpath i (List.mem_cons_of_mem num hi)) hc0
        (hu.owns.child hb hnu hc) (hso.imp_right .inl)
        ((hG.of_kept hu.kept).child hu.owns hb hnu hc)).mono (fun _ h => h) ?_ ?_
      · rintro r w ⟨hw, hr⟩
        rw [← hc] at hr
        have hreach := hr.parent hb fun x hx => hw.owns.frame x (.inr hx)
        refine ⟨hu.trans (hw.parent hu.owns hb hnu hc), hreach.here, hreach.ne, fun q hlen hq hne => ?_⟩
        rw [hreach.rest q hlen (hu.kept.geo ▸ hq) hne]
        exact hsame q hlen hq
      · rintro w ⟨hw, hfull⟩
        exact ⟨hu.trans (hw.parent hu.owns hb hnu hc), fun hq => hfull (hu.kept.quiet hq)⟩
    have hself : Grown G O P (path.length + 1) b v v := (Idle.refl v).grown ho hG
    cases path with
    | nil =>
      refine sat_read (sat_ite (fun hz => ?_) fun hz => sat_pure_eq ⟨hself, ?_, hz, fun _ _ _ _ => rfl⟩)
      · refine sat_then (addChild_spec ho hslot hb hnum ((hraw num).trans hz) (.inl rfl) hG) ?_
        rintro a w ⟨hw, hc⟩
        exact sat_pure_eq ⟨hw, hc.reached hb⟩
      · rw [follow_cons hb, hraw, follow]
    | cons pos path =>
      refine sat_read (sat_ite (fun hz => ?_) fun hz => ?_)
      · have hz' := (hraw num).trans hz
        refine sat_then (addChild_spec ho hslot hb hnum hz' (.inr rfl) hG) ?_
        rintro a w ⟨hw, hc⟩
        exact hdown hw (hc.entry hb) hc.ne (List.cons_ne_nil pos path) fun q hlen hq =>
          hc.follow hb ho.nodup hz' hlen hq
      · exact hdown hself (hraw num) hz (List.cons_ne_nil pos path) fun _ _ _ => rfl

end

end EwokOS.Ext3.Vol
