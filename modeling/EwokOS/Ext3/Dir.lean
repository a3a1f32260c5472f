import Mathlib.Algebra.Ring.Int.Defs
import Mathlib.Algebra.Ring.Nat
import Mathlib.Data.List.Basic
import Mathlib.Data.List.Dedup
import Mathlib.Data.List.Perm.Basic

/-! Directories (`write_child`, `ext3_rm_child`, `ext3_search` and `ext3_dir_is_empty` of `ext3fs.c`).

    A block of a directory is tiled by entries, each of which says how far it reaches. An entry with
    inode 0 is dead; the last entry of a block has the free space behind its name:

        0          12         24               40                              1024
        | 11 "."   | 2 ".."   | 0 (dead)       | 17 "a.txt"  . . . free . . .  |

    The walkers go from entry to entry and stop at one without a name. -/

namespace EwokOS.Ext3.Directory

/-- A name, by its bytes. -/
abbrev Name := List UInt8

/-- `EXT3_DIR_T`; `name_len` is the length of the name. -/
structure Entry where
  inode : ℕ
  recLen : ℕ
  name : Name
  fileType : ℕ
  deriving DecidableEq

abbrev Block := List Entry

/-- The blocks of a directory, in the order of its inode. -/
abbrev Dir := List Block

/-- `need_len`. -/
def needLen (len : ℕ) : ℕ := 4 * ((8 + len + 3) / 4)

/-- `EXT3_MAX_BLOCK_SIZE`, the size of the buffer a block is read into. -/
def maxBlockSize : ℕ := 4096

/-- `sizeof(EXT3_DIR_T)`. -/
def sizeofDirT : ℕ := 264

/-- Whether a walker stops at an entry at `pos`. -/
def stops (bs pos : ℕ) (e : Entry) : Bool :=
  decide (e.name.length = 0 ∨ e.recLen < 12 ∨ e.recLen < needLen e.name.length ∨ bs < pos + e.recLen)

/-! ### Searching -/

/-- The first live entry with this name that the walker meets, and where it is. -/
def searchFrom (bs : ℕ) (name : Name) : ℕ → List Entry → Option (ℕ × ℕ)
  | _, [] => none
  | pos, e :: es =>
    if stops bs pos e then none
    else if e.inode ≠ 0 ∧ e.name = name then some (e.inode, pos)
    else searchFrom bs name (pos + e.recLen) es

/-- `ext3_search`: the inode, and where in its block the entry was found. -/
def searchIn (bs : ℕ) (name : Name) : Dir → Option (ℕ × ℕ)
  | [] => none
  | b :: d =>
    match searchFrom bs name 0 b with
    | some r => some r
    | none => searchIn bs name d

/-- What `ext3_search` returns. -/
def search (bs : ℕ) (name : Name) (d : Dir) : ℕ := ((searchIn bs name d).map Prod.fst).getD 0

/-- The names `.` and `..`. -/
def dot : Name := [46]
def dotdot : Name := [46, 46]

/-- Whether the walker meets a live entry that is neither. -/
def othersFrom (bs : ℕ) : ℕ → List Entry → Bool
  | _, [] => false
  | pos, e :: es =>
    if stops bs pos e then false
    else if e.inode ≠ 0 ∧ e.name ≠ dot ∧ e.name ≠ dotdot then true
    else othersFrom bs (pos + e.recLen) es

/-- `ext3_dir_is_empty`. -/
def dirIsEmpty (bs : ℕ) (d : Dir) : Bool := !d.any (othersFrom bs 0)

/-! ### Writing -/

/-- The walk to the last entry of a block: the entries before it, its place, and the entry. -/
def toLast (bs : ℕ) (pre : List Entry) (pos : ℕ) : Entry → List Entry → List Entry × ℕ × Entry
  | e, [] => (pre, pos, e)
  | e, e' :: es =>
    if bs ≤ pos + e.recLen ∨ e.recLen = 0 ∨ e.recLen < needLen e.name.length then (pre, pos, e)
    else toLast bs (pre ++ [e]) (pos + e.recLen) e' es

/-- A last entry that is broken is made to reach to the end of the block. -/
def heal (bs pos : ℕ) (e : Entry) : Entry :=
  if e.recLen = 0 ∨ e.recLen < needLen e.name.length ∨ bs < pos + e.recLen then
    { e with recLen := bs - pos }
  else e

/-- What there is to write: an entry but for its length. -/
structure Child where
  ino : ℕ
  name : Name
  ftype : ℕ

/-- The entry, of a given length. -/
def Child.entry (c : Child) (recLen : ℕ) : Entry := ⟨c.ino, recLen, c.name, c.ftype⟩

/-- Where `strcpy` ends, for an entry at `pos`. -/
def Child.ends (c : Child) (pos : ℕ) : ℕ := pos + 8 + c.name.length + 1

/-- `write_child` in one block, if there is room: the block, and where `strcpy` ends. -/
def writeBlock (bs : ℕ) (c : Child) : Block → Option (Block × ℕ)
  | [] => none
  | e :: es =>
    if e.inode = 0 then some ([c.entry bs], c.ends 0)
    else
      let (pre, pos, last) := toLast bs [] 0 e es
      let last := heal bs pos last
      if last.inode = 0 then
        if needLen c.name.length ≤ last.recLen then some (pre ++ [c.entry last.recLen], c.ends pos)
        else none
      else
        let idealLen := needLen last.name.length
        if needLen c.name.length ≤ last.recLen - idealLen then
          some (pre ++ [{ last with recLen := idealLen }, c.entry (last.recLen - idealLen)],
            c.ends (pos + idealLen))
        else none

/-- `write_child`; `grow` says whether a block can be had if one is needed. -/
def writeChild (bs : ℕ) (grow : Bool) (c : Child) : Dir → Option (Dir × ℕ)
  | [] => if grow then some ([[c.entry bs]], c.ends 0) else none
  | b :: d =>
    match writeBlock bs c b with
    | some (b', n) => some (b' :: d, n)
    | none => (writeChild bs grow c d).map fun r => (b :: r.1, r.2)

/-! ### Removing -/

/-- The last entry is made to reach to the end of the block. -/
def extend (bs used : ℕ) : Block → Block
  | [] => []
  | e :: es =>
    let (pre, pos, last) := toLast used [] 0 e es
    pre ++ [{ last with recLen := bs - pos }]

/-- The last of these entries, which end at `pos`, is made to reach to the end of the block. -/
def swallow (bs pos : ℕ) : List Entry → Block
  | [] => []
  | [e] => [{ e with recLen := bs - (pos - e.recLen) }]
  | e :: e' :: es => e :: swallow bs pos (e' :: es)

/-- `ext3_rm_child` in one block: the walk, with the entries before `pos`. -/
def rmFrom (bs : ℕ) (name : Name) (pre : List Entry) (pos : ℕ) : List Entry → Option Block
  | [] => none
  | e :: es =>
    if stops bs pos e then none
    else if e.inode ≠ 0 ∧ e.name = name then
      if e.recLen = bs then some (pre ++ { e with inode := 0 } :: es)
      else if pre ≠ [] ∧ pos + e.recLen = bs then some (swallow bs pos pre)
      else some (extend bs (bs - e.recLen) (pre ++ es))
    else rmFrom bs name (pre ++ [e]) (pos + e.recLen) es

/-- `ext3_rm_child`. -/
def rmChild (bs : ℕ) (name : Name) : Dir → Option Dir
  | [] => none
  | b :: d =>
    match rmFrom bs name [] 0 b with
    | some b' => some (b' :: d)
    | none => (rmChild bs name d).map (b :: ·)

/-! ### What a directory means -/

/-- The bindings of a block. -/
def bindings (b : Block) : List (Name × ℕ) :=
  (b.filter fun e => decide (e.inode ≠ 0)).map fun e => (e.name, e.inode)

/-- The bindings of a directory. -/
def contents (d : Dir) : List (Name × ℕ) := d.flatMap bindings

/-- A block is tiled by entries that have room for their names; live ones have a name. -/
structure Tiled (bs : ℕ) (b : Block) : Prop where
  long : ∀ e ∈ b, 12 ≤ e.recLen ∧ needLen e.name.length ≤ e.recLen
  named : ∀ e ∈ b, e.inode ≠ 0 → e.name ≠ []
  whole : (b.map Entry.recLen).sum = bs

/-- A directory: tiled blocks, no name bound twice. -/
structure WellFormed (bs : ℕ) (d : Dir) : Prop where
  size : bs = 1024 ∨ bs = 2048 ∨ bs = 4096
  tiled : ∀ b ∈ d, Tiled bs b
  nodup : ((contents d).map Prod.fst).Nodup

end EwokOS.Ext3.Directory
