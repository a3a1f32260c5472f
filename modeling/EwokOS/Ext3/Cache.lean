import EwokOS.Ext3.Commit

/-! The deferred metadata buffers of `ext3fs.c`.

    Above the block cache of a commit lie three buffers of one block each, for a block bitmap, an inode
    bitmap and a single-indirect block. A buffer has a label, the block it stands for (0 for none), and
    a dirty flag. It is written back when another block is wanted or at a flush:

        buffer b*      --write back-->    cache     --commit-->    device
                       <-----------------  read  -----------------

    Device reads and writes may fail; what they do is an argument of the operation (`Io`). The block
    numbers that an operation works on come from the inodes and the group descriptors, and are
    arguments as well. -/

namespace EwokOS.Ext3

/-- Which of the three buffers. -/
inductive Which where
  | blockBitmap
  | inodeBitmap
  | indirect
  deriving DecidableEq

/-- A block of zeroes. -/
def zeroes : Block := fun _ => 0

/-- `_cached_*_blk`, `_cached_*_dirty` and the buffer. -/
structure Slot where
  label : Word
  dirty : Bool
  data : Block

/-- What a metadata block is used as: it goes through one of the buffers, or is read and written by
    `ext3_read_blk` and `ext3_write_meta_blk`. -/
inductive Role where
  | slot (w : Which)
  | plain
  deriving DecidableEq

/-- The file system below and the buffers. `role`, `logical`, `past` and `blank` are history and read by
    no operation: what the block is used as, its last write (or what the device held when it came into
    use), all it has held since, and whether the indirect block has only been zeroed so far. -/
structure Meta where
  fs : Fs
  journaled : Bool
  limit : ℕ
  slot : Which → Slot
  role : Word → Option Role
  logical : Word → Block
  past : Word → Block → Prop
  blank : Bool

/-- How the device behaves: whether a write without journal succeeds; the group descriptor and super
    blocks a flush writes, and how many of its writes it gets through; which write of a commit fails;
    whether the read of a refill succeeds, and what it leaves in the buffer if it does not. -/
structure Io where
  written : Bool
  extra : List (Word × Block)
  upTo : ℕ
  k : ℕ
  read : Bool
  junk : Block

namespace Meta

/-- Buffer `w` is changed. -/
def setSlot (s : Meta) (w : Which) (x : Slot) : Meta := { s with slot := Function.update s.slot w x }

/-- The last write to `b` is `d`. -/
def note (s : Meta) (b : Word) (d : Block) : Meta :=
  { s with
    logical := Function.update s.logical b d
    past := Function.update s.past b fun x => s.past b x ∨ x = d }

/-! ### Blocks -/

/-- `ext3_read_blk`. -/
def readBlk (s : Meta) (b : Word) (ok : Bool) : Option Block :=
  match s.fs.cache.lookup b with
  | some d => some d
  | none => if ok then some (s.fs.dev b.toNat) else none

/-- `ext3_read_indirect_block`. -/
def readIndirectBlock (s : Meta) (b : Word) (ok : Bool) : Option Block :=
  if b = 0 then none
  else if (s.slot .indirect).label = b then some (s.slot .indirect).data
  else s.readBlk b ok

/-- A metadata write where there is room for it: to the cache, or without journal to the device. -/
def store (s : Meta) (b : Word) (d : Block) : Meta :=
  if s.journaled then { s with fs := s.fs.cacheSet b d }
  else { s with fs := { s.fs with dev := Function.update s.fs.dev b.toNat d } }

/-- Write buffer `w` back, in a commit. -/
def putBack (w : Which) (s : Meta) : Meta :=
  if (s.slot w).label ≠ 0 ∧ (s.slot w).dirty then
    (s.store (s.slot w).label (s.slot w).data).setSlot w { s.slot w with dirty := false }
  else s

/-- The writes of `ext3_flush_meta`, in a commit. -/
def flushes (io : Io) : List (Meta → Meta) :=
  [putBack .indirect, putBack .blockBitmap, putBack .inodeBitmap] ++
    io.extra.map fun x s => (s.store x.1 x.2).note x.1 x.2

/-- `ext3_flush_meta`, in a commit. -/
def flushMeta (s : Meta) (io : Io) : Meta × Bool :=
  (((flushes io).take io.upTo).foldl (fun s f => f s) s, decide ((flushes io).length ≤ io.upTo))

/-- `ext3_commit`. -/
def commit (c : Ctx) (s : Meta) (io : Io) : Meta × Bool :=
  let r := s.flushMeta io
  if r.2 ∧ s.journaled then ({ r.1 with fs := (r.1.fs.commit c io.k).1 }, (r.1.fs.commit c io.k).2)
  else r

/-- `ext3_write_meta_blk`, with the commit that `ext3_cache_set` makes when the transaction is full. -/
def writeMetaBlk (c : Ctx) (s : Meta) (b : Word) (d : Block) (io : Io) : Meta × Bool :=
  if ¬s.journaled then if io.written then (s.store b d, true) else (s, false)
  else if b ∉ s.fs.cached ∧ s.limit ≤ s.fs.cache.length then
    if (s.commit c io).2 then ((s.commit c io).1.store b d, true) else ((s.commit c io).1, false)
  else (s.store b d, true)

/-! ### Buffers -/

/-- Write buffer `w` back if it is dirty. -/
def clean (c : Ctx) (s : Meta) (w : Which) (io : Io) : Meta × Bool :=
  if (s.slot w).label ≠ 0 ∧ (s.slot w).dirty then
    let r := s.writeMetaBlk c (s.slot w).label (s.slot w).data io
    (if r.2 then r.1.setSlot w { r.1.slot w with dirty := false } else r.1, r.2)
  else (s, true)

/-- Read `b` into buffer `w`. The label is changed after the read has succeeded. -/
def refill (s : Meta) (w : Which) (b : Word) (io : Io) : Meta × Bool :=
  match s.readBlk b io.read with
  | some d =>
    ({ s.setSlot w { s.slot w with label := b, data := d } with
       blank := if w = .indirect then false else s.blank }, true)
  | none => (s.setSlot w { s.slot w with data := io.junk }, false)

/-- `ext3_get_block_bitmap`, `ext3_get_inode_bitmap` and `ext3_get_cached_indirect_block`. -/
def get (c : Ctx) (s : Meta) (w : Which) (b : Word) (io : Io) : Meta × Bool :=
  if w = .indirect ∧ b = 0 then (s, false)
  else if (s.slot w).label = b then (s, true)
  else
    let r := s.clean c w io
    if r.2 then r.1.refill w b io else r

/-- What `ext3_balloc`, `ext3_bdealloc`, `ext3_ialloc`, `ext3_idealloc` and `ext3_ensure_data_block` do
    with a buffer: get it, change it (`f`) and mark it dirty. -/
def update (c : Ctx) (s : Meta) (w : Which) (b : Word) (f : Block → Block) (io : Io) : Meta × Bool :=
  let r := s.get c w b io
  if r.2 then
    let t : Meta := { r.1 with blank := if w = .indirect then false else r.1.blank }
    ((t.setSlot w { t.slot w with dirty := true, data := f (t.slot w).data }).note b (f (t.logical b)),
      true)
  else r

/-- `ext3_ensure_data_block` gives a file its single-indirect block `b`: the buffer is taken for it and
    zeroed, and not marked dirty. -/
def fresh (c : Ctx) (s : Meta) (b : Word) (io : Io) : Meta × Bool :=
  if (s.slot .indirect).label = b then
    let t : Meta := { s with blank := true }
    ((t.setSlot .indirect { t.slot .indirect with data := zeroes }).note b zeroes, true)
  else
    let r := s.clean c .indirect io
    if r.2 then
      let t : Meta := { r.1 with blank := true }
      ((t.setSlot .indirect ⟨b, false, zeroes⟩).note b zeroes, true)
    else r

/-- The first part of `ext3_bdealloc`: the pending copies of the block are given up. -/
def forget (s : Meta) (b : Word) : Meta :=
  let t : Meta := if (s.slot .indirect).label = b then
    { s.setSlot .indirect ⟨0, false, zeroes⟩ with blank := false } else s
  { t with fs := t.fs.cacheDrop b }

/-- `ext3_bdealloc`; its bit is in bitmap block `m`, and `f` clears it. -/
def bdealloc (c : Ctx) (s : Meta) (b m : Word) (f : Block → Block) (io : Io) : Meta × Bool :=
  if b = 0 then (s, false)
  else
    let r := (s.forget b).update c .blockBitmap m f io
    (if r.2 then { r.1 with role := Function.update r.1.role b none } else r.1, r.2)

end Meta

/-! ### Runs -/

namespace Meta

/-- What the library does with metadata blocks. `take` is a block that `ext3_balloc` gave out for
    metadata, `clean` a write-back of `ext3_flush_meta` outside of a commit, `data` the write of a data
    block. -/
inductive Op where
  | take (b : Word) (r : Role)
  | write (b : Word) (d : Block) (io : Io)
  | get (w : Which) (b : Word) (io : Io)
  | update (w : Which) (b : Word) (f : Block → Block) (io : Io)
  | clean (w : Which) (io : Io)
  | fresh (b : Word) (io : Io)
  | free (b m : Word) (f : Block → Block) (io : Io)
  | commit (io : Io)
  | data (b : Word) (d : Block) (ok : Bool)

def step (c : Ctx) (s : Meta) : Op → Meta
  | .take b r =>
    { s with
      role := Function.update s.role b (some r)
      logical := Function.update s.logical b (s.fs.dev b.toNat)
      past := Function.update s.past b fun x => x = s.fs.dev b.toNat }
  | .write b d io =>
    let r := s.writeMetaBlk c b d io
    if r.2 then r.1.note b d else r.1
  | .get w b io => (s.get c w b io).1
  | .update w b f io => (s.update c w b f io).1
  | .clean w io => (s.clean c w io).1
  | .fresh b io => (s.fresh c b io).1
  | .free b m f io => (s.bdealloc c b m f io).1
  | .commit io => (s.commit c io).1
  | .data b d ok =>
    if ok then { s with fs := { s.fs with dev := Function.update s.fs.dev b.toNat d } } else s

/-- The blocks a flush writes from RAM are the descriptor blocks and the superblock. -/
def Plain (role : Word → Option Role) (io : Io) : Prop := ∀ x ∈ io.extra, role x.1 = some .plain

/-- Every block is used as what it is: the bitmaps through their buffers, the single-indirect blocks
    through theirs, all others directly; none lies in the journal; data blocks are no metadata. -/
def Legal (c : Ctx) (s : Meta) : Op → Prop
  | .take b _ => s.role b = none ∧ b ≠ 0 ∧ ∀ i, c.map i ≠ b.toNat
  | .write b _ io => s.role b = some .plain ∧ Plain s.role io
  | .get w b io => s.role b = some (.slot w) ∧ Plain s.role io
  | .update w b _ io => s.role b = some (.slot w) ∧ Plain s.role io
  | .clean _ io => Plain s.role io
  | .fresh b io => s.role b = some (.slot .indirect) ∧ Plain s.role io
  | .free b m _ io => s.role b ≠ some (.slot .blockBitmap) ∧ s.role b ≠ some (.slot .inodeBitmap) ∧
      s.role m = some (.slot .blockBitmap) ∧ Plain (Function.update s.role b none) io
  | .commit io => Plain s.role io
  | .data b _ _ => s.role b = none

/-- A refill of buffer `w` by `b` does not fail, or leaves nothing in a buffer that has a label; and the
    indirect buffer is not taken from a block that has only been zeroed. -/
def Retargets (s : Meta) (w : Which) (b : Word) (io : Io) : Prop :=
  (s.slot w).label = b ∨ ((io.read ∨ (s.slot w).label = 0 ∨ io.junk = (s.slot w).data) ∧
    ¬(w = .indirect ∧ s.blank))

/-- A copy of `b` is pending. -/
def Pends (s : Meta) (b : Word) : Prop :=
  b ∈ s.fs.cached ∨
    ((s.slot .indirect).label = b ∧ ((s.slot .indirect).dirty ∨ s.blank))

/-- The condition on a step. -/
def Careful (c : Ctx) (s : Meta) : Op → Prop
  | .get w b io => s.Retargets w b io
  | .update w b _ io => s.Retargets w b io
  | .fresh b _ => (s.slot .indirect).label = b ∨ ¬s.blank
  | .free b m _ io => (s.forget b).Retargets .blockBitmap m io ∧
      (s.Pends b → s.role b ≠ none → ((s.forget b).get c .blockBitmap m io).2 = true)
  | _ => True

/-- A file system that has just been mounted. -/
structure Mint (c : Ctx) (s : Meta) : Prop where
  cache : s.fs.cache = []
  slots : ∀ w, (s.slot w).label = 0 ∧ (s.slot w).dirty = false
  blank : s.blank = false
  apart : ∀ b, s.role b ≠ none → b ≠ 0 ∧ ∀ i, c.map i ≠ b.toNat
  logical : ∀ b, s.role b ≠ none → s.logical b = s.fs.dev b.toNat
  past : ∀ b, s.role b ≠ none → s.past b (s.fs.dev b.toNat)

/-- Every read of a metadata block that succeeds gives its last write. -/
structure ReadsBack (c : Ctx) (s : Meta) : Prop where
  blk : ∀ b ok d, s.role b = some .plain → s.readBlk b ok = some d → d = s.logical b
  indirect : ∀ b ok d, s.role b = some .plain ∨ s.role b = some (.slot .indirect) →
    s.readIndirectBlock b ok = some d → d = s.logical b
  buffer : ∀ w b io, s.role b = some (.slot w) → Plain s.role io → (s.get c w b io).2 = true →
    ((s.get c w b io).1.slot w).data = s.logical b

/-- What is pending for a metadata block, and what the device holds, is what it has held itself. -/
def OwnContents (role : Word → Option Role) (s : Meta) : Prop :=
  ∀ b, role b ≠ none → s.past b (s.fs.dev b.toNat) ∧ ∀ d, (b, d) ∈ s.fs.cache → s.past b d

end Meta

end EwokOS.Ext3
