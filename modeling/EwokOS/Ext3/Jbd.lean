import Mathlib.Algebra.Ring.Int.Defs
import Mathlib.Algebra.Ring.Nat
import Mathlib.Data.List.Basic
import Mathlib.Logic.Function.Basic

/-! The journal (`ext3/src/jbd.c`).

    A block is its big-endian words: every field of the format lies at a multiple of 4. Journal block
    0 holds the journal superblock, `[first, maxlen)` is the log, and `map` says which block of the
    device holds a journal block:

        0      first                          maxlen
        | sb | . . . | R | D d d d | D d | C | . . . |        R revoke, D descriptor, C commit

    A transaction is written behind `head`, around the end of the log if need be, and published by
    the superblock (`start` and `sequence`). Recovery scans the log twice, once for revoke records and
    once to write the blocks of complete transactions to their homes. -/

namespace EwokOS.Ext3

abbrev Word := BitVec 32

instance word_lawful : LawfulBEq Word := instLawfulBEq

/-- A block, by its words. -/
abbrev Block := ℕ → Word

/-- A device, by its blocks. -/
abbrev Dev := ℕ → Block

/-- What the journal is given: where its blocks lie, and `s_blocks_count`. -/
structure Ctx where
  map : ℕ → ℕ
  fsBlocks : ℕ
  inj : Function.Injective map

/-- `jbd_t`. -/
structure Jbd where
  blockSize : ℕ
  first : ℕ
  maxlen : ℕ
  head : ℕ
  nextSequence : Word
  sb : Block

namespace Jbd

/-- `JBD_MAGIC_NUMBER`. -/
def magic : Word := 0xc03b3998

/-- `jbd_log_capacity`. -/
def capacity (j : Jbd) : ℕ := j.maxlen - j.first

/-- `jbd_log_wrap`. -/
def wrap (j : Jbd) (pos i : ℕ) : ℕ := j.first + (pos - j.first + i) % j.capacity

/-- `jbd_write_header`, on a block of zeroes. -/
def header (blocktype : ℕ) (sequence : Word) : Block := fun i =>
  if i = 0 then magic else if i = 1 then blocktype else if i = 2 then sequence else 0

/-- `jbd_check_header`. -/
def checkHeader (buf : Block) : Option (ℕ × Word) :=
  if buf 0 ≠ magic then none
  else if (buf 1).toNat = 0 ∨ 5 < (buf 1).toNat then none
  else some ((buf 1).toNat, buf 2)

/-! ### The journal superblock -/

/-- `s_sequence`. -/
def sbSequence (sb : Block) : Word := sb 6

/-- `s_start`. -/
def sbStart (sb : Block) : ℕ := (sb 7).toNat

/-- The superblock with a new `s_start` and `s_sequence`. -/
def publish (sb : Block) (start : ℕ) (sequence : Word) : Block :=
  Function.update (Function.update sb 7 (BitVec.ofNat 32 start)) 6 sequence

/-- What `jbd_load` makes of the features of a version 2 journal: the superblock to be written, if
    the checksums of a clean journal are given up. -/
def features (sb : Block) : Except ℤ (Option Block) :=
  if sb 10 &&& ~~~(0x3f : Word) ≠ 0 then .error (-19)
  else if sb 10 &&& 0x22 ≠ 0 then .error (-20)
  else if sb 10 &&& 0x18 ≠ 0 ∨ sb 9 &&& 1 ≠ 0 then
    if sbStart sb ≠ 0 then .error (-21)
    else .ok (some (Function.update (Function.update sb 9 (sb 9 &&& ~~~(1 : Word)))
      10 (sb 10 &&& ~~~(0x18 : Word))))
  else .ok none

/-- `jbd_load` once the geometry is known. -/
def loaded (sb : Block) : Except ℤ Jbd :=
  let first := (sb 5).toNat
  if sbStart sb = 0 then
    .ok ⟨(sb 3).toNat, first, (sb 4).toNat, first, sbSequence sb + 1, sb⟩
  else if sbStart sb < first ∨ (sb 4).toNat ≤ sbStart sb then .error (-21)
  else .ok ⟨(sb 3).toNat, first, (sb 4).toNat, sbStart sb, sbSequence sb, sb⟩

/-- `jbd_load`: the journal and the device, which it writes to if it gives up checksums. -/
def load (c : Ctx) (dev : Dev) : Except ℤ (Jbd × Dev) :=
  let sb := dev (c.map 0)
  match checkHeader sb with
  | none => .error (-13)
  | some (blocktype, _) =>
    if blocktype ≠ 3 ∧ blocktype ≠ 4 then .error (-14)
    else if sb 3 ≠ 1024 ∧ sb 3 ≠ 2048 ∧ sb 3 ≠ 4096 then .error (-15)
    else if (sb 4).toNat < 1024 then .error (-17)
    else if (sb 5).toNat = 0 ∨ (sb 4).toNat ≤ (sb 5).toNat then .error (-18)
    else if blocktype = 4 then
      match features sb with
      | .error e => .error e
      | .ok (some sb') => (loaded sb').map fun j => (j, Function.update dev (c.map 0) sb')
      | .ok none => (loaded sb).map fun j => (j, dev)
    else (loaded sb).map fun j => (j, dev)

/-! ### Records of the log -/

/-- The tags of a descriptor block from offset `tagp` on, at most `n`: block and flags. -/
def tagsFrom (blockSize : ℕ) (desc : Block) : ℕ → ℕ → List (Word × Word)
  | 0, _ => []
  | n + 1, tagp =>
    if blockSize < tagp + 8 then []
    else
      let flags := desc (tagp / 4 + 1)
      (desc (tagp / 4), flags) ::
        if flags &&& 8 ≠ 0 then []
        else tagsFrom blockSize desc n (tagp + 8 + if flags &&& 2 = 0 then 16 else 0)

/-- What `jbd_do_one_pass` tells apart. -/
inductive Rec where
  | revoke (blocks : List Word)
  | descriptor (tags : List (Word × Word))
  | commit

/-- The record in a log block, if it belongs to transaction `sequence`. -/
def record (blockSize : ℕ) (desc : Block) (sequence : Word) : Option Rec :=
  match checkHeader desc with
  | none => none
  | some (blocktype, seq) =>
    if seq ≠ sequence then none
    else if blocktype = 5 then
      if (desc 3).toNat < 16 ∨ blockSize < (desc 3).toNat then none
      else some (.revoke ((List.range (((desc 3).toNat - 16) / 4)).map fun i => desc (4 + i)))
    else if blocktype = 1 then some (.descriptor (tagsFrom blockSize desc ((blockSize - 12) / 8) 12))
    else if blocktype = 2 then some .commit
    else none

/-! ### Recovery -/

/-- A pending tag: the block, where its copy lies in the log, and the flags. -/
structure Tag where
  block : Word
  logBlock : ℕ
  flags : Word

/-- A write to a home block; `txn` is the number of the transaction in the scan. -/
structure Put where
  txn : ℕ
  block : ℕ
  data : Block

/-- `jbd_pass_t`. -/
inductive Pass where
  | revoke
  | replay
  deriving DecidableEq

/-- `jbd_replay_t` and the variables of the loop. -/
structure Replay where
  dev : Dev
  next : ℕ
  sequence : Word
  scanned : ℕ
  revokes : List (Word × Word)
  tags : List Tag
  puts : List Put
  lastSeq : Word
  txns : ℕ

/-- The tags of a descriptor at `next`; their copies follow it. -/
def placed (j : Jbd) (next : ℕ) : List (Word × Word) → List Tag
  | [] => []
  | t :: ts => ⟨t.1, j.wrap next 1, t.2⟩ :: placed j (j.wrap next 1) ts

/-- `jbd_revoke_test`. -/
def revokeTest (revokes : List (Word × Word)) (block sequence : Word) : Bool :=
  revokes.any fun r => r.1 == block && decide (sequence ≤ r.2)

/-- A copy in the log as it was before it was escaped. -/
def unescape (flags : Word) (data : Block) : Block :=
  if flags &&& 1 ≠ 0 then Function.update data 0 magic else data

/-- What a commit record does with one tag. -/
def applyTag (c : Ctx) (r : Replay) (t : Tag) : Replay :=
  if t.block = 0 ∨ c.fsBlocks ≤ t.block.toNat then r
  else if revokeTest r.revokes t.block r.sequence then r
  else
    let data := unescape t.flags (r.dev (c.map t.logBlock))
    { r with
      dev := Function.update r.dev t.block.toNat data
      puts := r.puts ++ [⟨r.txns, t.block.toNat, data⟩] }

/-- A commit record: in the second pass the pending tags are applied. -/
def committed (c : Ctx) (p : Pass) (r : Replay) : Replay :=
  let r := match p with
    | .revoke => r
    | .replay =>
      let r := r.tags.foldl (applyTag c) r
      { r with tags := [], txns := r.txns + 1 }
  { r with lastSeq := r.sequence, sequence := r.sequence + 1 }

/-- What a record does, but for where the scan goes on. -/
def absorb (j : Jbd) (c : Ctx) (p : Pass) (r : Replay) : Rec → Replay
  | .revoke bs =>
    match p with
    | .revoke => { r with revokes := (bs.map fun b => (b, r.sequence)).reverse ++ r.revokes }
    | .replay => r
  | .descriptor ts =>
    match p with
    | .revoke => r
    | .replay => { r with tags := r.tags ++ placed j r.next ts }
  | .commit => committed c p r

/-- How many log blocks a record takes. -/
def Rec.span : Rec → ℕ
  | .revoke _ => 1
  | .descriptor ts => 1 + ts.length
  | .commit => 1

/-- The scan goes on behind a record. -/
def advance (j : Jbd) (r : Replay) (k : ℕ) : Replay :=
  { r with next := j.wrap r.next k, scanned := r.scanned + k }

/-- The loop of `jbd_do_one_pass`, for at most `n` records. -/
def scan (j : Jbd) (c : Ctx) (p : Pass) : ℕ → Replay → Replay
  | 0, r => r
  | n + 1, r =>
    if j.capacity ≤ r.scanned then r
    else
      match record j.blockSize (r.dev (c.map r.next)) r.sequence with
      | none => r
      | some d => scan j c p n (advance j (absorb j c p r d) d.span)

/-- `jbd_do_one_pass`. -/
def doOnePass (j : Jbd) (c : Ctx) (p : Pass) (r : Replay) : Replay :=
  scan j c p j.capacity { r with
    next := sbStart j.sb
    sequence := sbSequence j.sb
    scanned := 0
    tags := [] }

/-- The two passes of `jbd_recover`. -/
def replay (j : Jbd) (c : Ctx) (dev : Dev) : Replay :=
  doOnePass j c .replay (doOnePass j c .revoke ⟨dev, 0, 0, 0, [], [], [], 0, 0⟩)

/-- `jbd_recover`: the journal, the writes to home blocks, and the device. -/
def recover (j : Jbd) (c : Ctx) (dev : Dev) : Jbd × List Put × Dev :=
  if sbStart j.sb = 0 then
    ({ j with head := j.first, nextSequence := sbSequence j.sb + 1 }, [], dev)
  else
    let r := replay j c dev
    let next := if 0 < r.txns then r.lastSeq + 1 else sbSequence j.sb + 1
    let sb := publish j.sb 0 (next - 1)
    ({ j with head := j.first, nextSequence := next, sb := sb }, r.puts,
      Function.update r.dev (c.map 0) sb)

/-! ### Commit -/

/-- `jbd_txn_t`: blocks with their contents, and blocks to revoke. -/
structure Txn where
  blocks : List (Word × Block)
  revokes : List Word

/-- A list in pieces of `n`, at most `k` of them. -/
def chunks {α : Type} (n : ℕ) : ℕ → List α → List (List α)
  | 0, _ => []
  | k + 1, l => if l.isEmpty then [] else l.take n :: chunks n k (l.drop n)

/-- A revoke block. -/
def revokeBlock (sequence : Word) (l : List Word) : Block := fun i =>
  if i < 3 then header 5 sequence i
  else if i = 3 then BitVec.ofNat 32 (16 + l.length * 4)
  else l.getD (i - 4) 0

/-- The flags of a tag: `JBD_FLAG_SAME_UUID`, and `JBD_FLAG_ESCAPE` and `JBD_FLAG_LAST_TAG` where they
    apply. -/
def tagFlags (data : Block) (last : Bool) : Word :=
  2 ||| (if data 0 = magic then 1 else 0) ||| (if last then 8 else 0)

/-- The tags of a descriptor block. -/
def tagsOf : List (Word × Block) → List (Word × Word)
  | [] => []
  | x :: l => (x.1, tagFlags x.2 l.isEmpty) :: tagsOf l

/-- A descriptor block. -/
def descBlock (sequence : Word) (l : List (Word × Block)) : Block := fun i =>
  if i < 3 then header 1 sequence i
  else
    let t := (tagsOf l).getD ((i - 3) / 2) (0, 0)
    if (i - 3) % 2 = 0 then t.1 else t.2

/-- A data block as the log holds it: without the magic it may start with. -/
def escape (data : Block) : Block := if data 0 = magic then Function.update data 0 0 else data

/-- Entries of a revoke block, and tags of a descriptor block. -/
def entriesPerRevoke (j : Jbd) : ℕ := (j.blockSize - 16) / 4
def tagsPerDesc (j : Jbd) : ℕ := (j.blockSize - 12) / 8

/-- The log blocks of a transaction, in order. -/
def txnBlocks (j : Jbd) (txn : Txn) : List Block :=
  (chunks j.entriesPerRevoke txn.revokes.length txn.revokes).map (revokeBlock j.nextSequence) ++
    (chunks j.tagsPerDesc txn.blocks.length txn.blocks).flatMap (fun l =>
      descBlock j.nextSequence l :: l.map fun x => escape x.2) ++
    [header 2 j.nextSequence]

/-- `jbd_txn_log_blocks`. -/
def txnLogBlocks (j : Jbd) (txn : Txn) : ℕ :=
  (txn.revokes.length + j.entriesPerRevoke - 1) / j.entriesPerRevoke +
    (txn.blocks.length + j.tagsPerDesc - 1) / j.tagsPerDesc + txn.blocks.length + 1

/-- The writes that put blocks into the log from `pos` on. -/
def logWrites (j : Jbd) (c : Ctx) : ℕ → List Block → List (ℕ × Block)
  | _, [] => []
  | pos, b :: l => (c.map pos, b) :: logWrites j c (j.wrap pos 1) l

/-- Where the log goes on behind some blocks. -/
def past (j : Jbd) : ℕ → List Block → ℕ
  | pos, [] => pos
  | pos, _ :: l => past j (j.wrap pos 1) l

/-- Blocks are written one after the other. -/
def writeAll (dev : Dev) (l : List (ℕ × Block)) : Dev :=
  l.foldl (fun d x => Function.update d x.1 x.2) dev

/-- `jbd_commit`, if no write fails. -/
def commit (j : Jbd) (c : Ctx) (txn : Txn) (dev : Dev) : Option (Jbd × Dev) :=
  if txn.blocks.isEmpty ∧ txn.revokes.isEmpty then some (j, dev)
  else if j.capacity < j.txnLogBlocks txn then none
  else
    let dev := writeAll dev (j.logWrites c j.head (j.txnBlocks txn))
    let sb := publish j.sb j.head j.nextSequence
    some ({ j with
      head := j.past j.head (j.txnBlocks txn)
      nextSequence := j.nextSequence + 1
      sb := sb }, Function.update dev (c.map 0) sb)

end Jbd
end EwokOS.Ext3
