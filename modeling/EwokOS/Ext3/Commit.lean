import EwokOS.Ext3.Mount

/-! Commits that fail (`ext3_commit` and the block cache of `ext3fs.c`).

    A commit writes the transaction to the log, publishes it, writes the cached blocks to their homes
    and empties the log. Any of these writes may be the first that fails; the commit stops there:

        log blocks . . . | superblock | home blocks . . . | superblock
        0 . . . . . .  n-1      n       n+1  . . . . n+m      n+m+1        write number `k` fails

    A machine that stops after `k` writes leaves the same device as one whose write number `k` fails,
    so the states reached by failing commits are also the states a crash can leave. -/

namespace EwokOS.Ext3

open Jbd

/-- What a commit works on: the device, the journal, the cache of dirty blocks and the revoke list. -/
structure Fs where
  dev : Dev
  j : Jbd
  cache : List (Word × Block)
  revokes : List Word

namespace Fs

/-- The blocks in the cache. -/
def cached (s : Fs) : List Word := s.cache.map Prod.fst

/-- `ext3_cache_set`, once there is room; the order of the revoke list plays no part. -/
def cacheSet (s : Fs) (b : Word) (data : Block) : Fs :=
  { s with
    cache := if b ∈ s.cached then s.cache.map fun x => if x.1 = b then (b, data) else x
      else (b, data) :: s.cache
    revokes := s.revokes.erase b }

/-- `ext3_cache_drop`. -/
def cacheDrop (s : Fs) (b : Word) : Fs :=
  if b ∈ s.cached then
    { s with
      cache := s.cache.filter fun x => decide (x.1 ≠ b)
      revokes := if b ∈ s.revokes then s.revokes else s.revokes ++ [b] }
  else s

/-- The transaction a commit makes of the cache. -/
def txn (s : Fs) : Txn := ⟨s.cache, s.revokes⟩

/-- The writes that put it into the log. -/
def logged (c : Ctx) (s : Fs) : List (ℕ × Block) := s.j.logWrites c s.j.head (s.j.txnBlocks s.txn)

/-- The superblock that publishes it. -/
def published (s : Fs) : Block := publish s.j.sb s.j.head s.j.nextSequence

/-- `jbd_commit` whose write number `k` fails: `j->sb` is changed before it is written, `head` and
    `next_sequence` after that. -/
def jbdCommit (c : Ctx) (s : Fs) (k : ℕ) : Fs :=
  if k < (s.logged c).length then { s with dev := writeAll s.dev ((s.logged c).take k) }
  else if k = (s.logged c).length then
    { s with dev := writeAll s.dev (s.logged c), j := { s.j with sb := s.published } }
  else
    { s with
      dev := Function.update (writeAll s.dev (s.logged c)) (c.map 0) s.published
      j := { s.j with
        head := s.j.past s.j.head (s.j.txnBlocks s.txn)
        nextSequence := s.j.nextSequence + 1
        sb := s.published } }

/-- The writes of the cached blocks to their homes. -/
def homeWrites (s : Fs) : List (ℕ × Block) := s.cache.map fun x => (x.1.toNat, x.2)

/-- The superblock of an empty log. -/
def emptied (s : Fs) : Block := publish s.j.sb 0 (s.j.nextSequence - 1)

/-- `ext3_checkpoint_cache` with `jbd_checkpoint_done`, and what `ext3_commit` does when both succeed. -/
def checkpoint (c : Ctx) (s : Fs) (k : ℕ) : Fs × Bool :=
  if k < s.homeWrites.length then ({ s with dev := writeAll s.dev (s.homeWrites.take k) }, false)
  else
    let dev := writeAll s.dev s.homeWrites
    if sbStart s.j.sb = 0 then (⟨dev, s.j, [], []⟩, true)
    else
      let j := { s.j with head := s.j.first, sb := s.emptied }
      if k = s.homeWrites.length then ({ s with dev := dev, j := j }, false)
      else (⟨Function.update dev (c.map 0) s.emptied, j, [], []⟩, true)

/-- `ext3_commit` whose write number `k` fails, and whether it returns success. -/
def commit (c : Ctx) (s : Fs) (k : ℕ) : Fs × Bool :=
  if s.cache.isEmpty ∧ s.revokes.isEmpty then (s, true)
  else if s.j.capacity < s.j.txnLogBlocks s.txn then (s, false)
  else if k ≤ (s.logged c).length then (jbdCommit c s k, false)
  else checkpoint c (jbdCommit c s k) (k - (s.logged c).length - 1)

/-- Whether the commit has nothing to do, or its journal superblock reaches the device. -/
def Reaches (c : Ctx) (s : Fs) (k : ℕ) : Prop :=
  (s.cache.isEmpty ∧ s.revokes.isEmpty) ∨
    (¬s.j.capacity < s.j.txnLogBlocks s.txn ∧ (s.logged c).length < k)

instance (c : Ctx) (s : Fs) (k : ℕ) : Decidable (s.Reaches c k) := inferInstanceAs (Decidable (_ ∨ _))

/-- The transaction the superblock on the device points to is still there to be replayed. -/
def Live (c : Ctx) (s : Fs) : Prop :=
  sbStart (s.dev (c.map 0)) ≠ 0 ∧
    record s.j.blockSize (s.dev (c.map (sbStart (s.dev (c.map 0))))) (sbSequence (s.dev (c.map 0))) ≠ none

/-- What a commit has to heed while `t` is still to be replayed: its log blocks are not written into
    the middle of `t`; unless all of `t` is on its homes, they leave `t` alone and revoke nothing of it;
    and no earlier commit with the same number has left a record behind `t`. -/
structure Heeds (c : Ctx) (s : Fs) (t : Txn) : Prop where
  apart : ∀ k, 0 < k → k < s.j.txnLogBlocks t → s.j.head ≠ s.j.wrap (sbStart (s.dev (c.map 0))) k
  whole : (∀ x ∈ t.blocks, s.dev x.1.toNat = x.2) ∨
    (s.j.txnLogBlocks t + s.j.txnLogBlocks s.txn ≤ s.j.capacity ∧ ∀ x ∈ t.blocks, x.1 ∉ s.revokes)
  fresh : record s.j.blockSize
    (s.dev (c.map (s.j.wrap (sbStart (s.dev (c.map 0))) (s.j.txnLogBlocks t)))) s.j.nextSequence = none

end Fs

/-! ### Runs -/

/-- The file system with its history: what the metadata blocks hold now, what they held when the last
    commit was begun, and when the last one was published, and the transaction that was published. -/
structure Sys where
  fs : Fs
  now : Contents
  tried : Contents
  pub : Contents
  last : Txn

/-- A metadata block is written, a metadata block is freed, or a commit is made. -/
inductive Op where
  | set (b : Word) (data : Block)
  | drop (b : Word)
  | commit (k : ℕ)

def step (c : Ctx) (s : Sys) : Op → Sys
  | .set b data =>
    { s with fs := s.fs.cacheSet b data, now := Function.update s.now b (some data) }
  | .drop b => { s with fs := s.fs.cacheDrop b, now := Function.update s.now b none }
  | .commit k =>
    { s with
      fs := (s.fs.commit c k).1
      tried := s.now
      pub := if s.fs.Reaches c k then s.now else s.pub
      last := if ¬(s.fs.cache.isEmpty ∧ s.fs.revokes.isEmpty) ∧ s.fs.Reaches c k then s.fs.txn
        else s.last }

/-- The condition on a step. -/
def Careful (c : Ctx) (s : Sys) : Op → Prop
  | .set b _ => b ≠ 0 ∧ b.toNat < c.fsBlocks ∧ ∀ i, c.map i ≠ b.toNat
  | .drop _ => True
  | .commit _ => s.fs.j.nextSequence.toNat + 1 < 2 ^ 32 ∧ (s.fs.Live c → s.fs.Heeds c s.last)

/-- A file system that has just been mounted. -/
structure Mint (c : Ctx) (s : Sys) : Prop where
  accepted : Accepted s.fs.j
  empty : EmptyLog c s.fs.j s.fs.dev
  old : ∀ p, InLog s.fs.j p → ∀ w d, record s.fs.j.blockSize (s.fs.dev (c.map p)) w = some d →
    w.toNat ≤ s.fs.j.nextSequence.toNat
  cache : s.fs.cache = []
  revokes : s.fs.revokes = []
  tried : s.tried = s.now
  pub : s.pub = s.now
  agrees : Agrees s.now s.fs.dev
  clear : Clear c s.now

end EwokOS.Ext3
