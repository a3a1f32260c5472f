import EwokOS.Schemes.Act
import EwokOS.Schemes.PtrTree
import Mathlib.Algebra.Ring.Int.Defs
import Mathlib.Algebra.Ring.Nat
import Mathlib.Logic.Function.Basic

/-! The blocks of a volume and of an inode (`ext3fs.c`).

    An inode has twelve direct blocks and a tree each of one, two and three levels. Blocks are taken from
    and given back to bitmaps, one for a group:

        i_block   0 . . . 11 | 12 | 13 | 14            group g:  1 1 0 1 0 0 . . .
                  data        [..]  [[..]]  [[[..]]]             |
                                                        block first + g * perGroup + 2

    A single-indirect block is worked on in a buffer (`slot`, `buf`), and so is one block bitmap; a buffer
    is written back before it is used for another block. `cur` is the inode an operation works on. Every
    metadata write may fail, or be the one at which `ext3_cache_set` commits what is pending (`Fate`). -/

namespace EwokOS.Ext3

open Schemes

/-- The bytes of a block. -/
abbrev Content := ℕ → UInt8

/-- Entry `i` of a block of block numbers. -/
def entry (c : Content) (i : ℕ) : ℕ :=
  (c (4 * i)).toNat + 256 * (c (4 * i + 1)).toNat + 65536 * (c (4 * i + 2)).toNat +
    16777216 * (c (4 * i + 3)).toNat

def setEntry (c : Content) (i w : ℕ) : Content := fun k =>
  if k / 4 = i then UInt8.ofNat (w / 256 ^ (k % 4)) else c k

/-- A block of zeroes. -/
def blank : Content := fun _ => 0

/-- What the superblock says about the layout. -/
structure Geo where
  blockSize : ℕ
  first : ℕ
  count : ℕ
  perGroup : ℕ
  perGroup_pos : 0 < perGroup
  count_lt : count < 2 ^ 32

namespace Geo

/-- `ext3_indirect_entries`. -/
def entries (g : Geo) : ℕ := g.blockSize / 4

/-- `sectors_per_block`. -/
def sectors (g : Geo) : ℕ := g.blockSize / 512

/-- `get_gd_index_by_block`. -/
def groupOf (g : Geo) (b : ℕ) : ℕ := (b - g.first) / g.perGroup

/-- `get_block_in_group`. -/
def bitOf (g : Geo) (b : ℕ) : ℕ := b - (g.first + g.groupOf b * g.perGroup)

end Geo

/-- What an inode is. The target of a short symbolic link and the number of a device lie in `i_block`
    itself (`inl`), all others have block numbers there. -/
inductive Kind where
  | file
  | dir
  | link
  | inl
  deriving DecidableEq

/-- `EXT3_INODE`. -/
structure Inode where
  kind : Kind
  links : ℕ
  block : ℕ → ℕ
  blocks : ℕ
  size : ℕ

/-- How a metadata write goes. -/
inductive Fate where
  | plain
  | commits
  | fails
  deriving DecidableEq

/-- The metadata that a commit makes durable. -/
structure Image where
  bmap : ℕ → ℕ → Bool
  ptr : ℕ → ℕ → ℕ

structure Vol where
  geo : Geo
  bmap : ℕ → ℕ → Bool
  bgroup : Option ℕ
  bdirty : Bool
  free : ℤ
  groupFree : ℕ → ℤ
  next : ℕ
  raw : ℕ → Content
  slot : ℕ
  dirty : Bool
  buf : Content
  cur : Inode
  /-- How the next metadata writes go; all others succeed. -/
  io : List Fate
  /-- What the device shows of the blocks freed next: the last content, or an older one if the last had
      only been pending. -/
  stale : ℕ → Content
  /-- What was committed so far. -/
  seen : List Image

namespace Vol

/-- The bit of block `b`. -/
def used (v : Vol) (b : ℕ) : Bool := v.bmap (v.geo.groupOf b) (v.geo.bitOf b)

/-- What a block holds, with the buffer of indirect blocks taken into account. -/
def content (v : Vol) (b : ℕ) : Content := if v.slot = b ∧ b ≠ 0 then v.buf else v.raw b

/-- The entries of an indirect block (`ext3_read_indirect_block`). -/
def view (v : Vol) (b i : ℕ) : ℕ := entry (v.content b) i

/-- What a commit makes durable: it writes the dirty buffers first. -/
def image (v : Vol) : Image :=
  ⟨v.bmap, fun b i => if v.slot = b ∧ v.dirty then entry v.buf i else entry (v.raw b) i⟩

/-- A metadata write that has effect `f` (`ext3_write_meta_blk`). -/
def writeMeta (f : Vol → Vol) : Act Vol Unit := fun v =>
  match v.io with
  | .fails :: io => ({ v with io := io }, none)
  | .commits :: io => (f { v with io := io, seen := v.image :: v.seen }, some ())
  | _ => (f { v with io := v.io.tail }, some ())

/-! ### Bitmaps -/

/-- `ext3_get_block_bitmap`. -/
def getBlockBitmap (g : ℕ) : Act Vol Unit := do
  let v ← Act.get
  if v.bgroup = some g then pure ()
  else do
    Act.when v.bdirty (writeMeta fun v => { v with bdirty := false })
    Act.modify fun v => { v with bgroup := some g }

def setBit (m : ℕ → ℕ → Bool) (g i : ℕ) (x : Bool) : ℕ → ℕ → Bool :=
  Function.update m g (Function.update (m g) i x)

/-- Block `b` is marked, and the counters follow (`dec_free_blocks`, `inc_free_blocks`). -/
def markBlock (b : ℕ) (x : Bool) (v : Vol) : Vol :=
  let g := v.geo.groupOf b
  { v with
    bmap := setBit v.bmap g (v.geo.bitOf b) x
    bdirty := true
    free := if x then v.free - 1 else v.free + 1
    groupFree := Function.update v.groupFree g (if x then v.groupFree g - 1 else v.groupFree g + 1) }

/-- The scan of `ext3_balloc`. -/
def ballocFrom : List ℕ → Act Vol ℕ
  | [] => Act.fail
  | b :: l => do
    let v ← Act.get
    getBlockBitmap (v.geo.groupOf b)
    let v ← Act.get
    if v.used b then ballocFrom l
    else do
      Act.modify fun v => { markBlock b true v with
        next := if v.geo.count ≤ b + 1 then v.geo.first else b + 1 }
      pure b

/-- Where `ext3_balloc` starts. -/
def allocStart (v : Vol) : ℕ :=
  if v.next < v.geo.first ∨ v.geo.count ≤ v.next then v.geo.first else v.next

/-- The blocks in the order in which `ext3_balloc` looks at them. -/
def allocOrder (v : Vol) : List ℕ :=
  List.range' v.allocStart (v.geo.count - v.allocStart) ++
    List.range' v.geo.first (v.allocStart - v.geo.first)

/-- `ext3_balloc`. -/
def balloc : Act Vol ℕ := do
  let v ← Act.get
  ballocFrom v.allocOrder

/-- The start of `ext3_bdealloc`: the buffer and the pending copy of the block are given up. -/
def forgetBlock (b : ℕ) (v : Vol) : Vol :=
  { v with
    slot := if v.slot = b then 0 else v.slot
    dirty := if v.slot = b then false else v.dirty
    buf := if v.slot = b then blank else v.buf
    raw := Function.update v.raw b (v.stale 0)
    stale := fun n => v.stale (n + 1) }

/-- `ext3_bdealloc`. -/
def bdealloc (b : ℕ) : Act Vol Unit :=
  if b = 0 then Act.fail
  else do
    Act.modify (forgetBlock b)
    let v ← Act.get
    getBlockBitmap (v.geo.groupOf b)
    Act.modify (markBlock b false)

/-! ### Indirect blocks -/

/-- The buffer of indirect blocks is written back before it is used for another block. -/
def cleanSlot : Act Vol Unit := do
  let v ← Act.get
  Act.when (v.slot ≠ 0 ∧ v.dirty)
    (writeMeta fun v => { v with raw := Function.update v.raw v.slot v.buf, dirty := false })

/-- `ext3_get_cached_indirect_block`. -/
def getIndirect (b : ℕ) : Act Vol Unit := do
  let v ← Act.get
  if b = 0 then Act.fail
  else if v.slot = b then pure ()
  else do
    cleanSlot
    Act.modify fun v => { v with buf := v.raw b, slot := b }

/-- Block `i` of the inode becomes `b`, and `i_blocks` counts it. -/
def hang (i b : ℕ) (v : Vol) : Vol :=
  { v with
    cur := { v.cur with
      block := Function.update v.cur.block i b
      blocks := v.cur.blocks + v.geo.sectors } }

/-- `i_blocks` counts one block more. -/
def countBlock (v : Vol) : Vol := { v with cur := { v.cur with blocks := v.cur.blocks + v.geo.sectors } }

/-- The single-indirect block of an inode is allocated; it is zeroed in the buffer. -/
def newSingle : Act Vol Unit := do
  let b ← balloc
  Act.modify (hang 12 b)
  let v ← Act.get
  if v.slot = b then Act.modify fun v => { v with buf := blank }
  else do
    cleanSlot
    Act.modify fun v => { v with slot := b, dirty := false, buf := blank }

/-- The root of a tree of two or three levels is allocated. -/
def newRoot (i : ℕ) : Act Vol Unit := do
  let b ← balloc
  Act.modify (hang i b)
  writeMeta fun v => { v with raw := Function.update v.raw b blank }

/-- The part of `ext3_ensure_data_block` below block 12: the block, and whether it is new. -/
def ensureSingle (pos : ℕ) : Act Vol (ℕ × Bool) := do
  let v ← Act.get
  Act.when (v.cur.block 12 = 0) newSingle
  let v ← Act.get
  getIndirect (v.cur.block 12)
  let v ← Act.get
  if entry v.buf pos = 0 then do
    let b ← balloc
    getIndirect (v.cur.block 12)
    Act.modify fun v => countBlock { v with buf := setEntry v.buf pos b, dirty := true }
    pure (b, true)
  else pure (entry v.buf pos, false)

/-- A block is allocated and entered as entry `i` of block `b`, which holds `c`; one that is to hold
    entries itself is zeroed before. -/
def addChild (b i : ℕ) (c : Content) (holds : Bool) : Act Vol ℕ := do
  let a ← balloc
  Act.modify countBlock
  Act.when holds (writeMeta fun v => { v with raw := Function.update v.raw a blank })
  writeMeta fun v => { v with raw := Function.update v.raw b (setEntry c i a) }
  pure a

/-- The part of `ext3_ensure_data_block` below a block of block numbers, along a path of entries. -/
def descend (b : ℕ) : List ℕ → Act Vol (ℕ × Bool)
  | [] => pure (b, false)
  | [pos] => do
    let v ← Act.get
    if entry (v.raw b) pos = 0 then do
      let a ← addChild b pos (v.raw b) false
      pure (a, true)
    else pure (entry (v.raw b) pos, false)
  | num :: pos :: path => do
    let v ← Act.get
    if entry (v.raw b) num = 0 then do
      let a ← addChild b num (v.raw b) true
      descend a (pos :: path)
    else descend (entry (v.raw b) num) (pos :: path)

/-- The entries on the way to block `lbk` of a file, from `i_block` on. -/
def locate (e lbk : ℕ) : Option (ℕ × List ℕ) :=
  if lbk < 12 then some (lbk, [])
  else if lbk < e + 12 then some (12, [lbk - 12])
  else if lbk < e * e + e + 12 then
    let count := lbk - 12 - e
    some (13, [count / e, count % e])
  else if lbk < e * e * e + e * e + e + 12 then
    let count := lbk - 12 - e - e * e
    let rem := count % (e * e)
    some (14, [count / (e * e), rem / e, rem % e])
  else none

/-- `ext3_ensure_data_block`. -/
def ensureDataBlock (lbk : ℕ) : Act Vol (ℕ × Bool) := do
  let v ← Act.get
  match locate v.geo.entries lbk with
  | none => Act.fail
  | some (i, []) =>
    if v.cur.block i = 0 then do
      let b ← balloc
      Act.modify (hang i b)
      pure (b, true)
    else pure (v.cur.block i, false)
  | some (_, [pos]) => ensureSingle pos
  | some (i, path) => do
    Act.when (v.cur.block i = 0) (newRoot i)
    let v ← Act.get
    descend (v.cur.block i) path

/-! ### Freeing -/

/-- `ext3_free_indirect_tree`; for depth 0, the block itself. -/
def freeTree : ℕ → ℕ → Act Vol Unit
  | 0, b => if b = 0 then pure () else bdealloc b
  | d + 1, b =>
    if b = 0 then pure ()
    else do
      let v ← Act.get
      Act.each (fun i => freeTree d (v.view b i)) (List.range v.geo.entries)
      bdealloc b

/-- A direct block of the inode is freed. -/
def freeDirect (i : ℕ) : Act Vol Unit := do
  let v ← Act.get
  freeTree 0 (v.cur.block i)
  Act.modify fun v => { v with cur := { v.cur with block := Function.update v.cur.block i 0 } }

/-- `ext3_free_inode_data`. -/
def freeInodeData : Act Vol Unit := do
  Act.each freeDirect (List.range 12)
  let v ← Act.get
  freeTree 1 (v.cur.block 12)
  freeTree 2 (v.cur.block 13)
  freeTree 3 (v.cur.block 14)
  Act.modify fun v => { v with cur := { v.cur with
    block := fun i => if i < 12 then v.cur.block i else 0
    blocks := 0
    size := 0 } }

/-! ### Inodes -/

/-- The inode of a new file. -/
def newFile : Inode := ⟨.file, 1, fun _ => 0, 0, 0⟩

end Vol

end EwokOS.Ext3
