import EwokOS.Ext3.Free
import Mathlib.Tactic.Ring

/-! The walkers of block maps (`ext3fs.c`).

    `ext3_map_data_block` looks a block up in a loop over the levels, with strides:

        i_block[14]  --index / e²-->  [ ]  --rem / e-->  [ ]  --rem-->  block
                        slot 2           slot 1             slot 0

    `ext3_read` carries a map along, which keeps the last block read for each level. `ext3_jbd_map` looks
    the blocks of the journal up in a ladder of its own, and reads the buffer of single-indirect blocks
    only where one can be in it. -/

namespace EwokOS.Ext3

open Schemes

/-- The entries of a block of block numbers. -/
abbrev Entries := ℕ → ℕ

/-- Where entries are read from: the buffer of single-indirect blocks, or what `ext3_read_blk` gives, from
    the pending copies or the device. A read that fails may leave anything where it was to put them. -/
structure Source where
  slot : ℕ
  buf : Entries
  readBlk : ℕ → Option Entries
  torn : ℕ → Entries → Entries

/-- `ext3_read_indirect_block`. -/
def Source.readIndirect (r : Source) (b : ℕ) : Option Entries :=
  if b = 0 then none else if r.slot = b then some r.buf else r.readBlk b

/-- `ext3_read_map_t`. -/
structure ReadMap where
  block : ℕ → ℕ
  pointers : ℕ → Entries

/-- A map as `ext3_read` starts with it. -/
def ReadMap.blank : ReadMap := ⟨fun _ => 0, fun _ _ => 0⟩

/-- A number taken as an `int32_t`. -/
def i32 (n : ℕ) : ℤ := Int.bmod n (2 ^ 32)

/-- The loop that finds the depth of a block, in no more than `n` rounds: the depth, and the index and
    the span of the tree. -/
def findDepth (e : ℕ) : ℕ → ℕ → ℕ → ℕ × ℕ × ℕ
  | 0, index, span => (3, index, span)
  | n + 1, index, span =>
    if span ≤ index then findDepth e n (index - span) (span * e % 2 ^ 32) else (3 - (n + 1), index, span)

/-- The entries of a block, from the map where there is one that has them. -/
def fetch (r : Source) (slot block : ℕ) : Option ReadMap → Option Entries × Option ReadMap
  | none => (r.readIndirect block, none)
  | some m =>
    if m.block slot = block then (some (m.pointers slot), some m)
    else
      match r.readIndirect block with
      | some p => (some p, some ⟨Function.update m.block slot block, Function.update m.pointers slot p⟩)
      | none => (none, some ⟨m.block, Function.update m.pointers slot (r.torn block (m.pointers slot))⟩)

/-- The loop over the levels of `ext3_map_data_block`. -/
def walkLevels (r : Source) (e : ℕ) : ℕ → ℕ → ℕ → ℕ → Option ReadMap → Option ℕ × Option ReadMap
  | 0, block, _, _, map => (some block, map)
  | level + 1, block, index, stride, map =>
    if block = 0 then (some 0, map)
    else
      match fetch r level block map with
      | (none, map) => (none, map)
      | (some p, map) => walkLevels r e level (p (index / stride)) (index % stride) (stride / e) map

/-- `ext3_map_data_block`; -1 is `none`, and 0 a hole. -/
def mapDataBlock (r : Source) (e : ℕ) (iblock : ℕ → ℕ) (lbk : ℤ) (map : Option ReadMap) :
    Option ℕ × Option ReadMap :=
  if lbk < 0 then (none, map)
  else if lbk < 12 then (some (iblock lbk.toNat), map)
  else
    let (depth, index, span) := findDepth e 2 (lbk.toNat - 12) e
    if span ≤ index then (none, map) else walkLevels r e depth (iblock (11 + depth)) index (span / e) map

/-- The ladder of `ext3_jbd_map`; -1 is `none`. -/
def jbdLadder (r : Source) (e : ℕ) (iblock : ℕ → ℕ) (lbk : ℤ) : Option ℕ :=
  if lbk < 0 then none
  else if lbk < 12 then some (iblock lbk.toNat)
  else if lbk < i32 (e + 12) then
    if iblock 12 = 0 then none
    else (r.readIndirect (iblock 12)).map fun p => p (lbk.toNat - 12)
  else if lbk < i32 (e * e + e + 12) then
    let count := lbk.toNat - 12 - e
    if iblock 13 = 0 then none
    else (r.readBlk (iblock 13)).bind fun p =>
      if p (count / e) = 0 then none
      else (r.readBlk (p (count / e))).map fun p => p (count % e)
  else if lbk < i32 (e * e * e + e * e + e + 12) then
    let count := lbk.toNat - 12 - e - e * e
    let rem := count % (e * e)
    if iblock 14 = 0 then none
    else (r.readBlk (iblock 14)).bind fun p =>
      if p (count / (e * e)) = 0 then none
      else (r.readBlk (p (count / (e * e)))).bind fun p =>
        if p (rem / e) = 0 then none
        else (r.readBlk (p (rem / e))).map fun p => p (rem % e)
  else none

/-- `ext3_jbd_map`: a hole is an error too. -/
def jbdMap (r : Source) (e : ℕ) (iblock : ℕ → ℕ) (lbk : ℤ) : Option ℕ :=
  (jbdLadder r e iblock lbk).filter (· ≠ 0)

/-! ### Paths -/

/-- The entries on the way to block `lbk`. -/
def pathOf (e : ℕ) (lbk : ℤ) : Option (ℕ × List ℕ) := if lbk < 0 then none else Vol.locate e lbk.toNat

/-- The block at the end of a path. -/
def readPath (read : ℕ → Option Entries) : ℕ → List ℕ → Option ℕ
  | b, [] => some b
  | b, i :: path => if b = 0 then some 0 else (read b).bind fun p => readPath read (p i) path

/-- The block sizes `ext3_validate_super` lets pass, as numbers of entries. -/
def SizeOk (e : ℕ) : Prop := e = 256 ∨ e = 512 ∨ e = 1024

section
variable {r : Source} {e n : ℕ} {iblock : ℕ → ℕ} {lbk : ℤ} {map : Option ReadMap} {m : ReadMap}

theorem SizeOk.bounds (he : SizeOk e) : 0 < e ∧ e * e ≤ 1048576 ∧ e * e * e ≤ 1073741824 := by
  rcases he with rfl | rfl | rfl <;> decide

theorem readPath_isSome (h : ∀ b, (r.readBlk b).isSome) (b : ℕ) (path : List ℕ) :
    (readPath r.readIndirect b path).isSome := by
  induction path generalizing b with
  | nil => rfl
  | cons i path ih =>
    rw [readPath]
    split_ifs with hb
    · rfl
    · have hread : (r.readIndirect b).isSome := by
        rw [Source.readIndirect, if_neg hb]
        split_ifs
        · rfl
        · exact h b
      obtain ⟨p, hp⟩ := Option.isSome_iff_exists.mp hread
      rw [hp, Option.bind_some]
      exact ih _

/-- What a path of levels is, for an index. -/
def digits (e : ℕ) : ℕ → ℕ → ℕ → List ℕ
  | 0, _, _ => []
  | level + 1, index, stride => index / stride :: digits e level (index % stride) (stride / e)

/-- Without a map the loop follows the digits of the index. -/
theorem walkLevels_none (level block index stride : ℕ) : walkLevels r e level block index stride none =
    (readPath r.readIndirect block (digits e level index stride), none) := by
  induction level generalizing block index stride with
  | zero => rfl
  | succ level ih =>
    rw [walkLevels, digits, readPath]
    split_ifs
    · rfl
    · rw [fetch]
      cases hr : r.readIndirect block with
      | none => rfl
      | some p => exact ih _ _ _

/-- The depth, by where the index lies. -/
theorem findDepth_eq (he : SizeOk e) (n : ℕ) : findDepth e 2 n e =
    if n < e then (1, n, e) else if n - e < e * e then (2, n - e, e * e)
      else (3, n - e - e * e, e * e * e) := by
  obtain ⟨-, h₂, h₃⟩ := he.bounds
  have hsq : e * e % 2 ^ 32 = e * e := Nat.mod_eq_of_lt (by omega)
  have hcube : e * e * e % 2 ^ 32 = e * e * e := Nat.mod_eq_of_lt (by omega)
  rw [findDepth, findDepth, findDepth, hsq, hcube]
  split_ifs <;> first | rfl | omega

theorem digits_one (n : ℕ) : digits e 1 n 1 = [n] := by
  rw [digits, digits, Nat.div_one]

theorem digits_two (he : 0 < e) (n : ℕ) : digits e 2 n e = [n / e, n % e] := by
  rw [digits, Nat.div_self he, digits_one]

theorem digits_three (he : 0 < e) (n : ℕ) :
    digits e 3 n (e * e) = [n / (e * e), n % (e * e) / e, n % (e * e) % e] := by
  rw [digits, Nat.mul_div_cancel _ he, digits_two he]

/-- The way to a block beyond the direct ones. -/
theorem locate_beyond (e n : ℕ) : Vol.locate e (n + 12) =
    if n < e then some (12, [n])
    else if n - e < e * e then some (13, [(n - e) / e, (n - e) % e])
    else if n - e - e * e < e * e * e then
      some (14, [(n - e - e * e) / (e * e), (n - e - e * e) % (e * e) / e, (n - e - e * e) % (e * e) % e])
    else none := by
  have h₀ : ¬n + 12 < 12 := by omega
  have h₁ : n + 12 < e + 12 ↔ n < e := by omega
  rw [Vol.locate, if_neg h₀]
  simp only [h₁, Nat.add_sub_cancel]
  by_cases hn : n < e
  · rw [if_pos hn, if_pos hn]
  · have h₂ : n + 12 < e * e + e + 12 ↔ n - e < e * e := by omega
    rw [if_neg hn, if_neg hn]
    simp only [h₂]
    by_cases hs : n - e < e * e
    · rw [if_pos hs, if_pos hs]
    · have h₃ : n + 12 < e * e * e + e * e + e + 12 ↔ n - e - e * e < e * e * e := by omega
      rw [if_neg hs, if_neg hs]
      simp only [h₃]

/-- The generic walker reads along the path of the ladder. -/
theorem mapDataBlock_none (he : SizeOk e) : mapDataBlock r e iblock lbk none =
    ((pathOf e lbk).bind fun p => readPath r.readIndirect (iblock p.1) p.2, none) := by
  have h0 := he.bounds.1
  rw [mapDataBlock, pathOf]
  split_ifs with hneg hdirect
  · rfl
  · rw [Vol.locate, if_pos (by omega)]
    rfl
  · obtain ⟨n, hn⟩ : ∃ n, lbk.toNat = n + 12 := ⟨lbk.toNat - 12, by omega⟩
    rw [hn, Nat.add_sub_cancel, findDepth_eq he, locate_beyond]
    by_cases h₁ : n < e
    · rw [if_pos h₁, if_pos h₁]
      dsimp only
      rw [if_neg (Nat.not_le.mpr h₁), Nat.div_self h0, walkLevels_none, digits_one]
      rfl
    rw [if_neg h₁, if_neg h₁]
    by_cases h₂ : n - e < e * e
    · rw [if_pos h₂, if_pos h₂]
      dsimp only
      rw [if_neg (Nat.not_le.mpr h₂), Nat.mul_div_cancel _ h0, walkLevels_none, digits_two h0]
      rfl
    rw [if_neg h₂, if_neg h₂]
    dsimp only
    by_cases h₃ : n - e - e * e < e * e * e
    · rw [if_neg (Nat.not_le.mpr h₃), if_pos h₃, Nat.mul_div_cancel _ h0, walkLevels_none, digits_three h0]
      rfl
    · rw [if_pos (Nat.not_lt.mp h₃), if_neg h₃]
      rfl

/-! ### The map that is carried along -/

/-- What the map keeps is what the blocks hold. -/
def ReadMap.Valid (r : Source) (m : ReadMap) : Prop :=
  ∀ s, m.block s ≠ 0 → r.readIndirect (m.block s) = some (m.pointers s)

theorem ReadMap.valid_blank (r : Source) : ReadMap.blank.Valid r := fun _ h => absurd rfl h

/-- A read that fails leaves the map alone. -/
def Source.Gentle (r : Source) : Prop := ∀ b p, r.torn b p = p

theorem fetch_spec (hm : m.Valid r) (slot : ℕ) {block : ℕ} (hb : block ≠ 0) :
    (fetch r slot block (some m)).1 = r.readIndirect block ∧
      ∃ m', (fetch r slot block (some m)).2 = some m' ∧
        ((r.readIndirect block).isSome ∨ r.Gentle → m'.Valid r) := by
  rw [fetch]
  split_ifs with hc
  · refine ⟨?_, m, rfl, fun _ => hm⟩
    rw [← hc, hm slot (hc ▸ hb)]
  · cases hr : r.readIndirect block with
    | some p =>
      refine ⟨rfl, _, rfl, fun _ s hs => ?_⟩
      dsimp only at hs ⊢
      by_cases hss : s = slot
      · rw [hss, Function.update_self, Function.update_self, hr]
      · rw [Function.update_of_ne hss] at hs ⊢
        rw [Function.update_of_ne hss]
        exact hm s hs
    | none =>
      refine ⟨rfl, _, rfl, fun hg => ?_⟩
      have hgentle : r.Gentle := hg.resolve_left (by simp)
      rw [hgentle, Function.update_eq_self]
      exact hm

theorem walkLevels_some (hm : m.Valid r) (level block index stride : ℕ) :
    (walkLevels r e level block index stride (some m)).1 = (walkLevels r e level block index stride none).1 ∧
      ∃ m', (walkLevels r e level block index stride (some m)).2 = some m' ∧
        ((walkLevels r e level block index stride none).1.isSome ∨ r.Gentle → m'.Valid r) := by
  induction level generalizing m block index stride with
  | zero => exact ⟨rfl, m, rfl, fun _ => hm⟩
  | succ level ih =>
    rw [walkLevels, walkLevels]
    by_cases hb : block = 0
    · rw [if_pos hb, if_pos hb]
      exact ⟨rfl, m, rfl, fun _ => hm⟩
    rw [if_neg hb, if_neg hb]
    obtain ⟨hfst, m', hsnd, hvalid⟩ := fetch_spec hm level hb
    have hnone : fetch r level block none = (r.readIndirect block, none) := rfl
    rw [hnone]
    rcases hf : fetch r level block (some m) with ⟨p, map⟩
    rw [hf] at hfst hsnd
    dsimp only at hfst hsnd
    rw [hsnd, hfst]
    cases hr : r.readIndirect block with
    | none =>
      rw [hr] at hvalid
      exact ⟨rfl, m', rfl, hvalid⟩
    | some p =>
      rw [hr] at hvalid
      exact ih (hvalid (.inl rfl)) _ _ _

/-- A block past the last. -/
theorem findDepth_past (he : SizeOk e) (n : ℕ) :
    (findDepth e 2 n e).2.2 ≤ (findDepth e 2 n e).2.1 ↔ Vol.locate e (n + 12) = none := by
  rw [findDepth_eq he, locate_beyond]
  split_ifs <;> simp <;> omega

/-- With a map, a look-up gives the same; it keeps the map valid unless a read fails and leaves something. -/
theorem mapDataBlock_some (he : SizeOk e) (hm : m.Valid r) (iblock : ℕ → ℕ) (lbk : ℤ) :
    (mapDataBlock r e iblock lbk (some m)).1 = (mapDataBlock r e iblock lbk none).1 ∧
      ∃ m', (mapDataBlock r e iblock lbk (some m)).2 = some m' ∧
        (pathOf e lbk = none ∨ (mapDataBlock r e iblock lbk none).1.isSome ∨ r.Gentle → m'.Valid r) := by
  rw [mapDataBlock, mapDataBlock]
  split_ifs with hneg hdirect
  · exact ⟨rfl, m, rfl, fun _ => hm⟩
  · exact ⟨rfl, m, rfl, fun _ => hm⟩
  · have hpast := findDepth_past he (lbk.toNat - 12)
    have hn : lbk.toNat - 12 + 12 = lbk.toNat := by omega
    rw [hn] at hpast
    rcases hfd : findDepth e 2 (lbk.toNat - 12) e with ⟨depth, index, span⟩
    rw [hfd] at hpast
    dsimp only at hpast ⊢
    split_ifs with hspan
    · exact ⟨rfl, m, rfl, fun _ => hm⟩
    · obtain ⟨hfst, m', hsnd, hvalid⟩ := walkLevels_some (e := e) hm depth (iblock (11 + depth)) index (span / e)
      refine ⟨hfst, m', hsnd, fun h => hvalid (h.resolve_left fun hp => hspan (hpast.mpr ?_))⟩
      rwa [pathOf, if_neg hneg] at hp

/-- A look-up may come before one through `r`: it reads the same entries, and no read of it fails and
    leaves something. -/
def Harmless (r : Source) (e : ℕ) (iblock : ℕ → ℕ) (x : Source × ℤ) : Prop :=
  x.1.readIndirect = r.readIndirect ∧
    (pathOf e x.2 = none ∨ (mapDataBlock r e iblock x.2 none).1.isSome ∨ x.1.Gentle)

/-- The map after some look-ups. -/
def carried (e : ℕ) (iblock : ℕ → ℕ) (earlier : List (Source × ℤ)) : Option ReadMap :=
  earlier.foldl (fun map x => (mapDataBlock x.1 e iblock x.2 map).2) (some .blank)

theorem readIndirect_congr {r' : Source} (he : SizeOk e) (h : r'.readIndirect = r.readIndirect) :
    mapDataBlock r' e iblock lbk none = mapDataBlock r e iblock lbk none := by
  rw [mapDataBlock_none he, mapDataBlock_none he, h]

theorem carried_valid (he : SizeOk e) {earlier : List (Source × ℤ)}
    (h : ∀ x ∈ earlier, Harmless r e iblock x) : ∃ m, carried e iblock earlier = some m ∧ m.Valid r := by
  have hrun : ∀ (l : List (Source × ℤ)) (m : ReadMap), m.Valid r → (∀ x ∈ l, Harmless r e iblock x) →
      ∃ m', l.foldl (fun map x => (mapDataBlock x.1 e iblock x.2 map).2) (some m) = some m' ∧ m'.Valid r := by
    intro l
    induction l with
    | nil => exact fun m hm _ => ⟨m, rfl, hm⟩
    | cons x l ih =>
      intro m hm hl
      obtain ⟨hsame, hread⟩ := hl x List.mem_cons_self
      have hmx : m.Valid x.1 := fun s hs => by rw [hsame]; exact hm s hs
      obtain ⟨-, m', hm', hvalid⟩ := mapDataBlock_some he hmx iblock x.2
      rw [readIndirect_congr he hsame] at hvalid
      have hr : m'.Valid r := fun s hs => by rw [← hsame]; exact hvalid hread s hs
      rw [List.foldl_cons, hm']
      exact ih m' hr fun y hy => hl y (List.mem_cons_of_mem x hy)
  exact hrun earlier .blank (ReadMap.valid_blank r) h

/-! ### The ladder of the journal -/

/-- The entries `ext3_read_blk` gives; none where it fails. -/
def Source.raw (r : Source) (b i : ℕ) : ℕ := ((r.readBlk b).map fun p => p i).getD 0

/-- Blocks that hold the numbers of other blocks with entries. -/
def upper (r : Source) (e : ℕ) (iblock : ℕ → ℕ) : List ℕ :=
  inner e r.raw 2 (iblock 13) ++ inner e r.raw 3 (iblock 14)

theorem readPath_raw {b : ℕ} {path : List ℕ} (hpath : ∀ i ∈ path, i < e)
    (h : r.slot ∉ inner e r.raw path.length b) : readPath r.readIndirect b path = readPath r.readBlk b path := by
  induction path generalizing b with
  | nil => rfl
  | cons i path ih =>
    rw [readPath, readPath]
    split_ifs with hb
    · rfl
    · rw [List.length_cons, inner_node hb, List.mem_cons, not_or] at h
      rw [Source.readIndirect, if_neg hb, if_neg h.1]
      cases hr : r.readBlk b with
      | none => rfl
      | some p =>
        refine ih (fun j hj => hpath j (List.mem_cons_of_mem i hj)) fun hm => h.2 ?_
        have hraw : r.raw b i = p i := by rw [Source.raw, hr]; rfl
        rw [← hraw] at hm
        exact List.mem_flatMap.mpr ⟨i, List.mem_range.mpr (hpath i List.mem_cons_self), hm⟩

theorem filter_readPath {read : ℕ → Option Entries} {b i : ℕ} {path : List ℕ} :
    (readPath read b (i :: path)).filter (· ≠ 0) =
      if b = 0 then none else (read b).bind fun p => (readPath read (p i) path).filter (· ≠ 0) := by
  rw [readPath]
  split_ifs
  · rfl
  · cases read b <;> rfl

/-- A number of the ladder fits in an `int32_t`. -/
theorem i32_eq {n : ℕ} (h : n < 2 ^ 31) : i32 n = n :=
  Int.bmod_eq_of_le (by omega) (by omega)

/-- The ladder finds what the path leads to, and nothing where it leads nowhere. -/
theorem jbdMap_eq (he : SizeOk e) : jbdMap r e iblock lbk =
    ((pathOf e lbk).bind fun p =>
      (readPath (if p.1 = 12 then r.readIndirect else r.readBlk) (iblock p.1) p.2).filter (· ≠ 0)) := by
  obtain ⟨-, h₂, h₃⟩ := he.bounds
  have hle : e ≤ 1024 := by rcases he with rfl | rfl | rfl <;> decide
  have h13 : (13 : ℕ) ≠ 12 := by decide
  have h14 : (14 : ℕ) ≠ 12 := by decide
  rw [jbdMap, jbdLadder, pathOf, i32_eq (by omega), i32_eq (by omega), i32_eq (by omega)]
  by_cases hneg : lbk < 0
  · rw [if_pos hneg, if_pos hneg]
    rfl
  rw [if_neg hneg, if_neg hneg]
  by_cases hdirect : lbk < 12
  · rw [if_pos hdirect, Vol.locate, if_pos (by omega)]
    rfl
  obtain ⟨n, hn⟩ : ∃ n, lbk.toNat = n + 12 := ⟨lbk.toNat - 12, by omega⟩
  rw [if_neg hdirect, hn, locate_beyond, Nat.add_sub_cancel]
  by_cases hs : n < e
  · rw [if_pos (by omega), if_pos hs, Option.bind_some, if_pos rfl, filter_readPath]
    split_ifs
    · rfl
    · cases r.readIndirect (iblock 12) <;> rfl
  have hs' : ¬lbk < ↑(e + 12) := by omega
  rw [if_neg hs', if_neg hs]
  by_cases hd : n - e < e * e
  · have hd' : lbk < ↑(e * e + e + 12) := by omega
    rw [if_pos hd', if_pos hd, Option.bind_some]
    dsimp only
    rw [if_neg h13, filter_readPath]
    split_ifs
    · rfl
    · cases r.readBlk (iblock 13) with
      | none => rfl
      | some p =>
        rw [Option.bind_some, Option.bind_some, filter_readPath]
        split_ifs
        · rfl
        · cases r.readBlk (p ((n - e) / e)) <;> rfl
  have hd' : ¬lbk < ↑(e * e + e + 12) := by omega
  rw [if_neg hd', if_neg hd]
  by_cases ht : n - e - e * e < e * e * e
  · have ht' : lbk < ↑(e * e * e + e * e + e + 12) := by omega
    rw [if_pos ht', if_pos ht, Option.bind_some]
    dsimp only
    rw [if_neg h14, filter_readPath]
    split_ifs
    · rfl
    · cases r.readBlk (iblock 14) with
      | none => rfl
      | some p =>
        rw [Option.bind_some, Option.bind_some, filter_readPath]
        split_ifs
        · rfl
        · cases r.readBlk (p ((n - e - e * e) / (e * e))) with
          | none => rfl
          | some q =>
            rw [Option.bind_some, Option.bind_some, filter_readPath]
            split_ifs
            · rfl
            · cases r.readBlk (q ((n - e - e * e) % (e * e) / e)) <;> rfl
  · have ht' : ¬lbk < ↑(e * e * e + e * e + e + 12) := by omega
    rw [if_neg ht', if_neg ht]
    rfl

/-- The journal's walker gives what the other gives, and an error for a hole, as long as the buffer is
    that of a single-indirect block. -/
theorem jbdMap_agrees (he : SizeOk e) (h : r.slot ∉ upper r e iblock) :
    jbdMap r e iblock lbk = (mapDataBlock r e iblock lbk none).1.filter (· ≠ 0) := by
  rw [jbdMap_eq he, mapDataBlock_none he]
  cases hp : pathOf e lbk with
  | none => rfl
  | some p =>
    obtain ⟨i, path⟩ := p
    dsimp only [Option.bind_some]
    split_ifs with h12
    · rfl
    · rw [pathOf] at hp
      split_ifs at hp
      obtain ⟨hi, hlen, hpath⟩ := Vol.locate_spec hp
      rw [readPath_raw hpath]
      rw [upper, List.mem_append, not_or] at h
      rw [hlen]
      by_cases hlow : i < 12
      · rw [show i - 11 = 0 by omega]
        exact List.not_mem_nil
      · obtain rfl | rfl : i = 13 ∨ i = 14 := by omega
        · exact h.1
        · exact h.2

/-- The blocks that are accepted. -/
def InRange (e : ℕ) (lbk : ℤ) : Prop := 0 ≤ lbk ∧ lbk < ↑(e * e * e + e * e + e + 12)

instance (e : ℕ) (lbk : ℤ) : Decidable (InRange e lbk) :=
  inferInstanceAs (Decidable (0 ≤ lbk ∧ lbk < ↑(e * e * e + e * e + e + 12)))

theorem pathOf_isSome : (pathOf e lbk).isSome ↔ InRange e lbk := by
  rw [pathOf, InRange]
  split_ifs with hneg
  · simp only [Option.isSome_none, Bool.false_eq_true, false_iff, not_and]
    omega
  · by_cases hdirect : lbk < 12
    · rw [Vol.locate, if_pos (by omega)]
      simp only [Option.isSome_some, true_iff]
      omega
    · obtain ⟨n, hn⟩ : ∃ n, lbk.toNat = n + 12 := ⟨lbk.toNat - 12, by omega⟩
      have hcast : (0 ≤ lbk ∧ lbk < ↑(e * e * e + e * e + e + 12)) ↔ n < e * e * e + e * e + e := by omega
      rw [hcast, hn, locate_beyond]
      split_ifs <;> simp <;> omega

/-- The block at a place. -/
def numberOf (e : ℕ) : ℕ × List ℕ → ℕ
  | (_, [k]) => 12 + k
  | (_, [j, k]) => 12 + e + (j * e + k)
  | (_, [i, j, k]) => 12 + e + e * e + (i * (e * e) + (j * e + k))
  | (i, _) => i

theorem numberOf_locate {p : ℕ × List ℕ} {l : ℕ} (h : Vol.locate e l = some p) : numberOf e p = l := by
  by_cases hdirect : l < 12
  · rw [Vol.locate, if_pos hdirect] at h
    rw [← Option.some.inj h]
    rfl
  · obtain ⟨n, rfl⟩ : ∃ n, l = n + 12 := ⟨l - 12, by omega⟩
    rw [locate_beyond] at h
    split_ifs at h with h₁ h₂ h₃
    · rw [← Option.some.inj h, numberOf]
      omega
    · have hn := Nat.div_add_mod' (n - e) e
      rw [← Option.some.inj h, numberOf]
      omega
    · have hn := Nat.div_add_mod' (n - e - e * e) (e * e)
      have hm := Nat.div_add_mod' ((n - e - e * e) % (e * e)) e
      rw [← Option.some.inj h, numberOf]
      omega

/-- Two blocks have different paths. -/
theorem locate_inj {p : ℕ × List ℕ} {l l' : ℕ} (h : Vol.locate e l = some p) (h' : Vol.locate e l' = some p) :
    l = l' := by
  rw [← numberOf_locate h, ← numberOf_locate h']

theorem div_mod_digit {a b d : ℕ} (hb : b < d) : (a * d + b) / d = a ∧ (a * d + b) % d = b := by
  rw [Nat.add_comm, Nat.add_mul_div_right _ _ (by omega), Nat.div_eq_of_lt hb, Nat.add_mul_mod_self_right,
    Nat.mod_eq_of_lt hb, Nat.zero_add]
  exact ⟨rfl, rfl⟩

theorem digit_lt {a b d c : ℕ} (ha : a < c) (hb : b < d) : a * d + b < c * d :=
  calc a * d + b < a * d + d := Nat.add_lt_add_left hb _
    _ = (a + 1) * d := (Nat.succ_mul a d).symm
    _ ≤ c * d := Nat.mul_le_mul_right d ha

/-- And each path is that of a block. -/
theorem locate_numberOf {i : ℕ} {path : List ℕ} (hi : i < 15) (hlen : path.length = i - 11)
    (hpath : ∀ k ∈ path, k < e) : Vol.locate e (numberOf e (i, path)) = some (i, path) := by
  rcases path with _ | ⟨k, _ | ⟨j, _ | ⟨i', _ | ⟨h, rest⟩⟩⟩⟩
  · rw [List.length_nil] at hlen
    rw [numberOf, Vol.locate, if_pos (by omega)]
    · exact fun k hk => List.cons_ne_nil _ _ hk.symm
    · exact fun j k hk => List.cons_ne_nil _ _ hk.symm
    · exact fun j k l hk => List.cons_ne_nil _ _ hk.symm
  · obtain rfl : i = 12 := by
      rw [List.length_singleton] at hlen
      omega
    have hk := hpath k List.mem_cons_self
    rw [numberOf, Nat.add_comm, locate_beyond, if_pos hk]
  · rename' k => j, j => k
    obtain rfl : i = 13 := by
      rw [List.length_cons, List.length_singleton] at hlen
      omega
    simp only [List.mem_cons, List.not_mem_nil, or_false, forall_eq_or_imp, forall_eq] at hpath
    obtain ⟨hj, hk⟩ := hpath
    have hlt := digit_lt hj hk
    obtain ⟨hdiv, hmod⟩ := div_mod_digit (a := j) hk
    have hn : numberOf e (13, [j, k]) = e + (j * e + k) + 12 := by
      rw [numberOf]
      omega
    rw [hn, locate_beyond, if_neg (by omega), Nat.add_sub_cancel_left, if_pos hlt, hdiv, hmod]
  · rename' k => i', i' => k
    obtain rfl : i = 14 := by
      rw [List.length_cons, List.length_cons, List.length_singleton] at hlen
      omega
    simp only [List.mem_cons, List.not_mem_nil, or_false, forall_eq_or_imp, forall_eq] at hpath
    obtain ⟨hi', hj, hk⟩ := hpath
    have hlow := digit_lt hj hk
    have hlt := digit_lt hi' hlow
    obtain ⟨hdiv, hmod⟩ := div_mod_digit (a := i') hlow
    obtain ⟨hdiv', hmod'⟩ := div_mod_digit (a := j) hk
    have hn : numberOf e (14, [i', j, k]) = e + (e * e + (i' * (e * e) + (j * e + k))) + 12 := by
      rw [numberOf]
      omega
    rw [← Nat.mul_assoc e e e] at hlt
    rw [hn, locate_beyond, if_neg (by omega), Nat.add_sub_cancel_left, if_neg (by omega), Nat.add_sub_cancel_left,
      if_pos hlt, hdiv, hmod, hdiv', hmod']
  · rw [List.length_cons, List.length_cons, List.length_cons, List.length_cons] at hlen
    omega

end

end EwokOS.Ext3
