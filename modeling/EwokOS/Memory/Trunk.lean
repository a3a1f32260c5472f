import EwokOS.Memory.Build
import EwokOS.Schemes.Linked
import EwokOS.Schemes.Run
import EwokOS.Schemes.Tiling

/-! The heap of the kernel (`mm/trunkmem.c`).

    Memory is a map from addresses to block headers; a block is a header with its payload behind it,
    and blocks are doubly linked in the order of their addresses. `m->expand` and `m->shrink` move
    the memory tail by the pages they are given; whether `expand` succeeds is up to the call.

        head                             tail            memTail
         ▼                                ▼                 ▼
         [h|payload][h|payload  ][h|pay.][h|payload        ]

    Ghosts: what callers hold (`live`, a pointer with the size asked for) and every call of `shrink`
    with the bytes of the block that was dropped for it (`shrunk`). NULL is 0. -/

namespace EwokOS.Memory

/-- `mem_block_t`. -/
structure Header where
  next : ℕ
  prev : ℕ
  size : ℕ
  used : Bool
  mem : ℕ
  deriving DecidableEq, Repr

/-- `malloc_t` and the memory it manages. -/
structure Heap where
  hdr : ℕ → Header
  head : ℕ
  tail : ℕ
  start : ℕ
  memTail : ℕ
  live : List (ℕ × ℕ)
  shrunk : List (ℕ × ℕ)

namespace Heap
variable (b : Build)

/-- `sizeof(mem_block_t)`: four words. -/
def hdrSize : ℕ := 4 * (b.addrBits / 8)

/-- What the `size` field wraps at: it shares its word with `used`. -/
def sizeTop : ℕ := 2 ^ (b.addrBits - 1)

variable (m : Heap)

abbrev next (a : ℕ) : ℕ := (m.hdr a).next
abbrev prev (a : ℕ) : ℕ := (m.hdr a).prev
abbrev size (a : ℕ) : ℕ := (m.hdr a).size
abbrev used (a : ℕ) : Bool := (m.hdr a).used
abbrev mem (a : ℕ) : ℕ := (m.hdr a).mem

/-- A header is written. -/
def mod (a : ℕ) (f : Header → Header) : Heap :=
  { m with hdr := Function.update m.hdr a (f (m.hdr a)) }

/-! ### Finding blocks -/

/-- `trunk_ptr_aligned`. -/
def ptrAligned (p : ℕ) : Bool := p % (b.addrBits / 8) = 0

/-- `trunk_ptr_in_heap`. -/
def ptrInHeap (heapBegin heapEnd p : ℕ) : Bool :=
  heapBegin ≠ 0 ∧ heapEnd ≠ 0 ∧ p ≠ 0 ∧ heapBegin ≤ p ∧ p < heapEnd

/-- `trunk_block_sane`. -/
def blockSane (heapBegin heapEnd prev block : ℕ) : Bool :=
  let blockEnd := (m.mem block + m.size block) % b.top
  block ≠ 0 ∧ ptrInHeap heapBegin heapEnd block ∧ ptrAligned b block ∧
    m.mem block = (block + hdrSize b) % b.top ∧ m.mem block ≤ heapEnd ∧
    m.mem block ≤ blockEnd ∧ blockEnd ≤ heapEnd ∧
    m.prev block = prev ∧ (prev ≠ 0 → m.next prev = block) ∧
    (m.next block ≠ 0 → ptrInHeap heapBegin heapEnd (m.next block) ∧ ptrAligned b (m.next block) ∧
      block < m.next block ∧ blockEnd ≤ m.next block ∧ m.prev (m.next block) = block)

/-- The loop of `trunk_find_block`. Sane blocks lie below the tail in rising order, so it needs no
    more rounds than there are addresses. -/
def findFrom (target : ℕ) : ℕ → ℕ → ℕ → ℕ
  | 0, _, _ => 0
  | n + 1, prev, block =>
    if block = 0 then 0
    else if m.blockSane b m.head m.memTail prev block = false then 0
    else if block = target then block
    else findFrom target n block (m.next block)

/-- `trunk_find_block`. -/
def trunkFindBlock (target : ℕ) : ℕ :=
  if target = 0 ∨ m.head = 0 ∨ m.memTail = 0 then 0
  else m.findFrom b target (m.memTail + 1) 0 m.head

/-- `get_block`. -/
def getBlock (p : ℕ) : ℕ := if p < hdrSize b then 0 else p - hdrSize b

/-! ### Allocation -/

/-- The header `gen_block` writes at `p`; both callers set `used` next. -/
def genBlock (p size : ℕ) : Header :=
  ⟨0, 0, (size + b.top - hdrSize b) % b.top % sizeTop b, false, (p + hdrSize b) % b.top⟩

/-- `try_break`. -/
def tryBreak (block size : ℕ) : Heap :=
  if m.size block / 2 < (hdrSize b + size) % b.top then m
  else
    let p := (m.mem block + size) % b.top
    let next := m.next block
    let new := { genBlock b p (m.size block - size) with next := next, prev := block, used := false }
    let m := if next ≠ 0 then m.mod next fun h => { h with prev := p } else m
    let m := m.mod p fun _ => new
    let m := m.mod block fun h => { h with size := size % sizeTop b, next := p }
    if m.tail = block then { m with tail := p } else m

/-- What the search of `trunk_malloc` comes to. -/
inductive Found where
  | block (a : ℕ)
  | nothing
  | corrupt
  deriving DecidableEq

/-- The loop of `trunk_malloc`. -/
def search (size : ℕ) : ℕ → ℕ → ℕ → Found
  | 0, _, _ => .nothing
  | n + 1, prev, block =>
    if block = 0 then .nothing
    else if m.head ≠ 0 ∧ m.memTail ≠ 0 ∧ m.blockSane b m.head m.memTail prev block = false then
      .corrupt
    else if m.used block = true ∨ m.size block < size then search size n block (m.next block)
    else .block block

/-- A block is marked for a caller who asked for `req` bytes. -/
def take (block req : ℕ) : Heap :=
  { m.mod block fun h => { h with used := true } with
    live := (m.mem block, req) :: m.live }

/-- The pages `trunk_malloc` asks for. -/
def pagesFor (size : ℕ) : ℕ :=
  let expandSize := (size + hdrSize b) % b.top
  (expandSize / b.page + if 0 < expandSize % b.page then 1 else 0) % 2 ^ 32

/-- A block over new pages, linked behind the tail, for a caller who asked for `req` bytes. -/
def grow (pages req : ℕ) : Heap :=
  let p := m.memTail
  let new := { genBlock b p (pages * b.page % b.top) with prev := m.tail, used := true }
  let m := if m.tail ≠ 0 then m.mod m.tail fun h => { h with next := p } else m
  { m.mod p fun _ => new with
    head := if m.head = 0 then p else m.head,
    tail := p,
    memTail := (m.memTail + pages * b.page) % b.top,
    live := (new.mem, req) :: m.live }

/-- Cuts the block to size and moves `start` behind it. -/
def settle (block size : ℕ) : ℕ × Heap :=
  let m := m.tryBreak b block size
  (m.mem block, { m with start := m.next block })

/-- Where the search of `trunk_malloc` begins: the block before and the block. -/
def entry : ℕ × ℕ :=
  if m.start ≠ 0 ∧ m.trunkFindBlock b m.start ≠ 0 then
    (m.prev (m.trunkFindBlock b m.start), m.trunkFindBlock b m.start)
  else (0, m.head)

/-- `trunk_malloc`; `ok` is whether `expand` succeeds. -/
def trunkMalloc (size : ℕ) (ok : Bool) : ℕ × Heap :=
  let sz := b.alignUp size 16
  match m.search b sz (m.memTail + 1) (m.entry b).1 (m.entry b).2 with
  | .corrupt => (0, m)
  | .block a => (m.take a size).settle b a sz
  | .nothing =>
    if ok = false then (0, m)
    else (m.grow b (pagesFor b sz) size).settle b m.memTail sz

/-! ### Freeing -/

/-- One half of `try_merge`: `a` takes in `c`. -/
def join (a c : ℕ) : Heap :=
  let next := m.next c
  let size := (m.size a + (m.size c + hdrSize b)) % sizeTop b
  let m := if next ≠ 0 then m.mod next fun h => { h with prev := a } else { m with tail := a }
  m.mod a fun h => { h with size := size, next := next }

/-- `try_merge`, with the block that is left. -/
def tryMerge (block : ℕ) : ℕ × Heap :=
  let m := if m.next block ≠ 0 ∧ m.used (m.next block) = false then m.join b block (m.next block) else m
  if m.prev block ≠ 0 ∧ m.used (m.prev block) = false then (m.prev block, m.join b (m.prev block) block)
  else (block, m)

/-- `try_shrink`. -/
def tryShrink : Heap :=
  if m.tail = 0 ∨ m.used m.tail = true ∨ m.tail % b.page ≠ 0 then m
  else
    let bytes := m.size m.tail + hdrSize b
    let pages := bytes % b.top / b.page % 2 ^ 32
    let m := { m with tail := m.prev m.tail }
    let m := if m.tail ≠ 0 then m.mod m.tail fun h => { h with next := 0 } else { m with head := 0 }
    { m with
      memTail := (m.memTail + b.top - pages * b.page % b.top) % b.top,
      shrunk := (pages, bytes) :: m.shrunk }

/-- `trunk_free`. -/
def trunkFree (p : ℕ) : Heap :=
  let a := m.trunkFindBlock b (getBlock b p)
  if a = 0 then m
  else if m.used a = false then m
  else
    let m : Heap := { m.mod a fun h => { h with used := false } with
      live := m.live.filter fun x => x.1 ≠ p }
    let r : ℕ × Heap := m.tryMerge b a
    let m : Heap := r.2
    if r.1 = 0 ∨ m.trunkFindBlock b r.1 = 0 then m
    else
      let m := if m.start = 0 ∨ r.1 ≤ m.start then { m with start := m.prev r.1 } else m
      m.tryShrink b

/-- The calls. -/
inductive Op where
  | malloc (size : ℕ) (ok : Bool)
  | free (p : ℕ)

def step : Op → Option Heap
  | .malloc size ok => some (m.trunkMalloc b (size % b.top) ok).2
  | .free p => some (m.trunkFree b (p % b.top))

end Heap

/-- Where the heap begins: on a page, not at NULL. -/
structure Arena (b : Build) where
  base : ℕ
  pos : 0 < base
  dvd : b.page ∣ base
  lt : base < b.top

/-- An empty heap over memory with anything in it. -/
def Arena.boot {b : Build} (ar : Arena b) (mem : ℕ → Header) : Heap := ⟨mem, 0, 0, 0, ar.base, [], []⟩

end EwokOS.Memory
