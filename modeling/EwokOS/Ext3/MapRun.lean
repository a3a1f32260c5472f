import EwokOS.Ext3.BlockMap

/-! What growing and freeing do to the map of an inode.

    `ext3_ensure_data_block` changes the map at one block and nowhere else; `ext3_free_inode_data` gives
    back the blocks of the map, and the blocks with entries on the way to them, once each. -/

namespace EwokOS.Ext3.Vol

open Schemes Act

/-- What the entries of a volume are read from, when no read fails. -/
def source (v : Vol) : Source := ⟨v.slot, entry v.buf, fun b => some (entry (v.raw b)), fun _ p => p⟩

/-- Block `lbk` of the inode that is worked on (`ext3_get_data_block`). -/
def blockAt (v : Vol) (lbk : ℤ) : Option ℕ :=
  (mapDataBlock v.source v.geo.entries v.cur.block lbk none).1

/-- The blocks with entries on the way to it. -/
def onWay (v : Vol) (lbk : ℤ) : List ℕ :=
  match pathOf v.geo.entries lbk with
  | none => []
  | some (i, path) => passed v.view (v.cur.block i) path

section
variable {O : ℕ → Prop} {P : ℕ → Content} {n₀ : Inode} {v w : Vol} {lbk : ℤ} {x : ℕ}

theorem readPath_source (v : Vol) (b : ℕ) (path : List ℕ) :
    readPath v.source.readIndirect b path = some (follow v.view b path) := by
  induction path generalizing b with
  | nil => rfl
  | cons i path ih =>
    rw [readPath, follow]
    split_ifs with hb
    · rfl
    · have hread : v.source.readIndirect b = some (v.view b) := by
        rw [Source.readIndirect, if_neg hb]
        by_cases hs : v.source.slot = b
        · have hbuf : v.content b = v.buf := if_pos ⟨hs, hb⟩
          rw [if_pos hs]
          exact congrArg (fun c => some (entry c)) hbuf.symm
        · have hraw : v.content b = v.raw b := if_neg fun h => hs h.1
          rw [if_neg hs]
          exact congrArg (fun c => some (entry c)) hraw.symm
      rw [hread, Option.bind_some, ih]

theorem blockAt_eq (he : SizeOk v.geo.entries) :
    v.blockAt lbk = (pathOf v.geo.entries lbk).map fun p => spot v p.1 p.2 := by
  rw [blockAt, mapDataBlock_none he]
  cases pathOf v.geo.entries lbk with
  | none => rfl
  | some p => exact readPath_source v _ _

/-- A path of the map is a place of the inode, and each is the path of a block. -/
theorem place_iff {i : ℕ} {path : List ℕ} :
    Place v i path ↔ ∃ lbk, pathOf v.geo.entries lbk = some (i, path) := by
  constructor
  · rintro ⟨hi, hlen, hpath⟩
    refine ⟨numberOf v.geo.entries (i, path), ?_⟩
    rw [pathOf, if_neg (by omega), Int.toNat_natCast]
    exact locate_numberOf hi hlen hpath
  · rintro ⟨lbk, hp⟩
    rw [pathOf] at hp
    split_ifs at hp
    exact locate_spec hp

/-! ### Growing -/

/-- What a place of the inode has got, the map has got. -/
theorem Placed.blockAt (he : SizeOk v.geo.entries) (hg : w.geo = v.geo) {n i : ℕ} {path : List ℕ}
    (hn : locate v.geo.entries n = some (i, path)) (h : Placed i path x v w) :
    w.blockAt n = some x ∧ ∀ l, l ≠ (n : ℤ) → w.blockAt l = v.blockAt l := by
  have hpath : pathOf v.geo.entries n = some (i, path) := by
    rw [pathOf, if_neg (by omega), Int.toNat_natCast, hn]
  refine ⟨?_, fun l hl => ?_⟩
  · rw [blockAt_eq (hg ▸ he), hg, hpath, Option.map_some, h.here]
  · rw [blockAt_eq (hg ▸ he), blockAt_eq he, hg]
    cases hp : pathOf v.geo.entries l with
    | none => rfl
    | some p =>
      have hne : p ≠ (i, path) := by
        rintro rfl
        rw [pathOf] at hp
        split_ifs at hp with hneg
        have heq := locate_inj hp hn
        omega
      rw [Option.map_some, Option.map_some, h.rest p.1 p.2 (place_iff.mpr ⟨l, hp⟩) hne]

theorem ensureDataBlock_map (he : SizeOk v.geo.entries) (hw : Work O P n₀ v) (n : ℕ) :
    Sat (· = v) (ensureDataBlock n)
      (fun r w => w.blockAt n = some r.1 ∧ r.1 ≠ 0 ∧ ∀ l, l ≠ (n : ℤ) → w.blockAt l = v.blockAt l)
      (fun w => if InRange v.geo.entries n then v.Quiet → Full w else w = v) := by
  refine (ensureDataBlock_spec (G := fun _ => True) n hw fun _ _ _ => trivial).mono (fun _ h => h) ?_ ?_
  · rintro r w ⟨hens, i, path, hn, hput⟩
    obtain ⟨hat, hrest⟩ := hput.blockAt he hens.tended.geo hn
    exact ⟨hat, hput.ne, hrest⟩
  · intro w hfail
    have hrange : InRange v.geo.entries n ↔ locate v.geo.entries n ≠ none := by
      rw [← pathOf_isSome, pathOf, if_neg (by omega), Int.toNat_natCast, Option.isSome_iff_ne_none]
    split_ifs with hin
    · rw [if_neg (hrange.mp hin)] at hfail
      exact fun hq => (hfail hq).2
    · rwa [if_pos (not_not.mp fun h => hin (hrange.mpr h))] at hfail

/-! ### Freeing -/

/-- The blocks of an inode are those of its map and those on the way to them. -/
theorem mem_refs_iff (he : SizeOk v.geo.entries) : x ∈ refs v v.cur ↔
    (x ≠ 0 ∧ ∃ l, v.blockAt l = some x) ∨ ∃ l, x ∈ v.onWay l := by
  have hmap : (x ≠ 0 ∧ ∃ l, v.blockAt l = some x) ↔
      ∃ i path, Place v i path ∧ x ≠ 0 ∧ spot v i path = x := by
    constructor
    · rintro ⟨hx, l, hl⟩
      rw [blockAt_eq he, Option.map_eq_some_iff] at hl
      obtain ⟨⟨i, path⟩, hp, hs⟩ := hl
      exact ⟨i, path, place_iff.mpr ⟨l, hp⟩, hx, hs⟩
    · rintro ⟨i, path, hp, hx, hs⟩
      obtain ⟨l, hl⟩ := place_iff.mp hp
      exact ⟨hx, l, by rw [blockAt_eq he, hl, Option.map_some, hs]⟩
  have hway : (∃ l, x ∈ v.onWay l) ↔ ∃ i path, Place v i path ∧ x ∈ passed v.view (v.cur.block i) path := by
    constructor
    · rintro ⟨l, hl⟩
      rw [onWay] at hl
      cases hp : pathOf v.geo.entries l with
      | none =>
        rw [hp] at hl
        cases hl
      | some p =>
        rw [hp] at hl
        exact ⟨p.1, p.2, place_iff.mpr ⟨l, hp⟩, hl⟩
    · rintro ⟨i, path, hp, hx⟩
      obtain ⟨l, hl⟩ := place_iff.mp hp
      exact ⟨l, by rw [onWay, hl]; exact hx⟩
  rw [hmap, hway, refs, List.mem_flatMap]
  constructor
  · rintro ⟨i, hi, hx⟩
    have hi' := List.mem_range.mp hi
    rcases List.mem_append.mp (tree_perm_inner.mem_iff.mp hx) with hx | hx
    · obtain ⟨path, hlen, hpath, hx⟩ := (mem_inner he.bounds.1).mp hx
      exact .inr ⟨i, path, ⟨hi', hlen, hpath⟩, hx⟩
    · obtain ⟨hx0, path, hlen, hpath, hx⟩ := mem_leaves.mp hx
      exact .inl ⟨i, path, ⟨hi', hlen, hpath⟩, hx0, hx⟩
  · rintro (⟨i, path, ⟨hi, hlen, hpath⟩, hx0, hx⟩ | ⟨i, path, ⟨hi, hlen, hpath⟩, hx⟩)
    · exact ⟨i, List.mem_range.mpr hi, leaves_subset (mem_leaves.mpr ⟨hx0, path, hlen, hpath, hx⟩)⟩
    · exact ⟨i, List.mem_range.mpr hi, inner_subset ((mem_inner he.bounds.1).mpr ⟨path, hlen, hpath, hx⟩)⟩

/-- Every block that is freed adds one to the count. -/
theorem Gone.free {T : List ℕ} (h : Gone T v w) (hf : Freeable T T v) (hg : w.geo = v.geo) :
    w.free = v.free + T.length := by
  have hclear : ∀ b, w.clear b = if b ∈ T then true else v.clear b := by
    intro b
    rw [clear, clear, hg]
    by_cases hb : v.geo.first ≤ b
    · rw [h.used b hb]
      by_cases hT : b ∈ T
      · rw [if_pos hT, if_pos hT, decide_eq_true hb]
        rfl
      · rw [if_neg hT, if_neg hT]
    · have hT : b ∉ T := fun hT => hb (hf.inside b hT).2.1
      rw [if_neg hT, decide_eq_false hb, Bool.false_and, Bool.false_and]
  have hcount : ∀ (L : List ℕ), L.Nodup → (∀ x ∈ L, x < v.geo.count ∧ v.clear x = false) →
      tally v.geo.count id (fun b => if b ∈ L then true else v.clear b) =
        tally v.geo.count id v.clear + L.length := by
    intro L
    induction L with
    | nil => simp
    | cons a L ih =>
      intro hnd hL
      obtain ⟨ha, hnd⟩ := List.nodup_cons.mp hnd
      obtain ⟨hlt, hfree⟩ := hL a List.mem_cons_self
      have hfun : (fun b => if b ∈ a :: L then true else v.clear b) =
          Function.update (fun b => if b ∈ L then true else v.clear b) a true := by
        funext b
        by_cases hb : b = a
        · rw [hb, Function.update_self, if_pos List.mem_cons_self]
        · rw [Function.update_of_ne hb]
          simp only [List.mem_cons, hb, false_or]
      rw [hfun, tally_update hlt, ih hnd fun x hx => hL x (List.mem_cons_of_mem a hx), if_neg ha, hfree]
      simp [mark]
      omega
  have hin : ∀ x ∈ T, x < v.geo.count ∧ v.clear x = false := by
    intro x hx
    obtain ⟨-, -, hlt, hu⟩ := hf.inside x hx
    exact ⟨hlt, by rw [clear, hu, Bool.not_true, Bool.and_false]⟩
  rw [h.books.free, hf.books.free, hg, ← hcount T hf.nodup hin]
  exact congrArg _ (funext hclear)

theorem Owns.freeable (h : Owns O P (refs v v.cur) v) : Freeable (refs v v.cur) (refs v v.cur) v := by
  refine ⟨fun _ hx => hx, h.nodup, fun x hx => ?_, h.books⟩
  obtain ⟨h₀, h₁, h₂, -⟩ := h.inside x hx
  exact ⟨h₀, h₁, h₂, h.mine x hx⟩

/-- What is freed: the blocks of the map and those on the way to them, once each. -/
theorem freeInodeData_map (he : SizeOk v.geo.entries) (h : Owns O P (refs v v.cur) v) :
    Sat (· = v) freeInodeData
      (fun _ w => ∃ T : List ℕ, T.Nodup ∧
        (∀ x, x ∈ T ↔ (x ≠ 0 ∧ ∃ l, v.blockAt l = some x) ∨ ∃ l, x ∈ v.onWay l) ∧
        (∀ x, v.geo.first ≤ x → w.used x = (v.used x && decide (x ∉ T))) ∧ (∀ x ∈ T, v.used x = true) ∧
        w.free = v.free + T.length)
      (fun _ => True) := by
  refine (freeInodeData_gone (G := fun _ => True) h.freeable fun _ _ => trivial).mono (fun _ h => h) ?_
    fun _ _ => trivial
  rintro _ w ⟨hfreed, hgone, -⟩
  refine ⟨refs v v.cur, h.nodup, fun x => mem_refs_iff he, fun x hx => ?_, h.mine,
    hgone.free h.freeable hfreed.geo⟩
  rw [hgone.used x hx]
  by_cases hT : x ∈ refs v v.cur
  · rw [if_pos hT, decide_eq_false (not_not.mpr hT), Bool.and_false]
  · rw [if_neg hT, decide_eq_true hT, Bool.and_true]

/-- The walkers of block maps agree. Whatever was looked up before, a map that is carried along changes
    nothing; the journal's walker gives the same block, and an error for a hole. They accept the same
    blocks. A block that is ensured is mapped and nothing else moves, and what is freed is the map. -/
theorem walkers_agree (v : Vol)
    (hsize : v.geo.blockSize = 1024 ∨ v.geo.blockSize = 2048 ∨ v.geo.blockSize = 4096) :
    (∀ r iblock lbk earlier, (∀ x ∈ earlier, Harmless r v.geo.entries iblock x) →
      (mapDataBlock r v.geo.entries iblock lbk (carried v.geo.entries iblock earlier)).1 =
        (mapDataBlock r v.geo.entries iblock lbk none).1) ∧
    (∀ r iblock lbk, r.slot ∉ upper r v.geo.entries iblock →
      jbdMap r v.geo.entries iblock lbk = (mapDataBlock r v.geo.entries iblock lbk none).1.filter (· ≠ 0)) ∧
    (∀ r iblock lbk, ((mapDataBlock r v.geo.entries iblock lbk none).1.isSome → InRange v.geo.entries lbk) ∧
      (InRange v.geo.entries lbk → (∀ b, (r.readBlk b).isSome) →
        (mapDataBlock r v.geo.entries iblock lbk none).1.isSome)) ∧
    (∀ O P n₀, Work O P n₀ v → ∀ n : ℕ, Sat (· = v) (ensureDataBlock n)
      (fun r w => w.blockAt n = some r.1 ∧ r.1 ≠ 0 ∧ ∀ l, l ≠ (n : ℤ) → w.blockAt l = v.blockAt l)
      (fun w => if InRange v.geo.entries n then v.Quiet → Full w else w = v)) ∧
    ∀ O P, Owns O P (refs v v.cur) v → Sat (· = v) freeInodeData
      (fun _ w => ∃ T : List ℕ, T.Nodup ∧
        (∀ x, x ∈ T ↔ (x ≠ 0 ∧ ∃ l, v.blockAt l = some x) ∨ ∃ l, x ∈ v.onWay l) ∧
        (∀ x, v.geo.first ≤ x → w.used x = (v.used x && decide (x ∉ T))) ∧ (∀ x ∈ T, v.used x = true) ∧
        w.free = v.free + T.length)
      (fun _ => True) := by
  have he : SizeOk v.geo.entries := by
    rw [Geo.entries]
    rcases hsize with h | h | h <;> rw [h]
    · exact .inl rfl
    · exact .inr (.inl rfl)
    · exact .inr (.inr rfl)
  refine ⟨fun r iblock lbk earlier hear => ?_, fun r iblock lbk hslot => jbdMap_agrees he hslot,
    fun r iblock lbk => ?_, fun O P n₀ hw n => ensureDataBlock_map he hw n,
    fun O P h => freeInodeData_map he h⟩
  · obtain ⟨m, hm, hvalid⟩ := carried_valid he hear
    rw [hm]
    exact (mapDataBlock_some he hvalid iblock lbk).1
  · rw [mapDataBlock_none he, ← pathOf_isSome]
    cases pathOf v.geo.entries lbk with
    | none => exact ⟨nofun, nofun⟩
    | some p =>
      refine ⟨fun _ => rfl, fun _ hread => ?_⟩
      rw [Option.bind_some]
      exact readPath_isSome hread _ _

end

/-! ### A volume, and trees on which they differ -/

/-- A volume with seven blocks, all free, and an empty file. -/
def fresh : Vol where
  geo := ⟨1024, 1, 8, 8, by decide, by decide⟩
  bmap := fun _ _ => false
  bgroup := none
  bdirty := false
  free := 7
  groupFree := fun g => tally 8 id fun b => decide (1 ≤ b) && decide ((b - 1) / 8 = g)
  next := 1
  raw := fun _ => Ext3.blank
  slot := 0
  dirty := false
  buf := Ext3.blank
  cur := newFile
  io := []
  stale := fun _ => Ext3.blank
  seen := []

theorem owns_fresh : Owns (fun _ => False) (fun _ => Ext3.blank) (refs fresh fresh.cur) fresh := by
  have hrefs : refs fresh fresh.cur = [] :=
    List.flatMap_eq_nil_iff.mpr fun i _ => tree_none (i - 11)
  rw [hrefs]
  have hclear : fresh.clear = fun b => decide (1 ≤ b) := funext fun b => Bool.and_true _
  refine ⟨⟨?_, fun g => ?_⟩, by decide, fun h => absurd h (by decide), nofun, nofun, List.nodup_nil, nofun, nofun⟩
  · rw [hclear]
    rfl
  · rw [hclear]
    rfl

theorem walkers_agree_fresh : ∃ b w, ensureDataBlock 0 fresh = (w, some (b, true)) ∧
    w.blockAt 0 = some b ∧ w.blockAt 300 = fresh.blockAt 300 := by
  have hwork : Work (fun _ => False) (fun _ => Ext3.blank) fresh.cur fresh :=
    ⟨owns_fresh, ⟨.inl rfl, .inl rfl⟩, fun _ => .inl rfl⟩
  obtain ⟨-, -, -, hensure, -⟩ := walkers_agree fresh (.inl rfl)
  obtain ⟨hat, -, hrest⟩ := (hensure _ _ _ hwork 0 fresh rfl).1 (1, true) _ rfl
  exact ⟨1, _, rfl, hat, hrest 300 (by decide)⟩

/-- Block 5 holds entries, and block 6 cannot be read. -/
def torn : Source where
  slot := 0
  buf := fun _ => 0
  readBlk := fun b => if b = 6 then none else some fun i => if b = 7 then 6 else if i = 0 then 9 else 0
  torn := fun _ _ _ => 77

/-- A hole is a hole for one walker and an error for the other, and a read that failed is seen in what is
    looked up later with the same map. -/
theorem walkers_differ :
    (mapDataBlock torn 256 (fun i => if i = 12 then 5 else 7) 13 none).1 = some 0 ∧
      jbdMap torn 256 (fun i => if i = 12 then 5 else 7) 13 = none ∧
    (mapDataBlock torn 256 (fun i => if i = 12 then 5 else 7) 12 none).1 = some 9 ∧
      (mapDataBlock torn 256 (fun i => if i = 12 then 5 else 7) 12
        (carried 256 (fun i => if i = 12 then 5 else 7) [(torn, 12), (torn, 268)])).1 = some 77 := by
  decide +kernel

end EwokOS.Ext3.Vol
