import EwokOS.Memory.Build
import EwokOS.Schemes.Carve
import EwokOS.Schemes.Run

/-! The page allocator and its 1K chunks (`mm/kalloc.c`).

    Free pages form a list threaded through the pages. A page is split into chunks of 1K when
    `kalloc1k` finds none; a record in a hash table keeps, per split page, a mask and a count of
    its free chunks, and the page goes back when the record says that all of them are:

        page list ──split──▶ 1K list ──kalloc1k──▶ live
            ▲                    ▲──────kfree1k──────┘
            └── all chunks free ─┘

    The records themselves are cut from pages that are never given back. Ghosts: the pages appended,
    the pages and chunks callers hold, and the pages cut into records. -/

namespace EwokOS.Memory

open Schemes (cut)

/-- `split_page_meta_t`, with its address. -/
structure Meta where
  addr : ℕ
  pageBase : ℕ
  freeMask : BitVec 32
  freeCount : ℕ
  deriving DecidableEq, Repr

structure Kalloc where
  freeListPage : List ℕ
  freeList1k : List ℕ
  freeMemSize : ℕ
  buckets : Fin 64 → List Meta
  metaFree : List ℕ
  pages : List ℕ
  heldPages : List ℕ
  held1k : List ℕ
  metaPages : List ℕ

namespace Kalloc
variable (b : Build)

def chunkSize : ℕ := 1024

/-- `KALLOC_1K_CHUNKS_PER_PAGE`. -/
def chunksPerPage : ℕ := b.page / chunkSize

/-- `sizeof(split_page_meta_t)`: two words and two 32-bit fields. -/
def metaSize : ℕ := 2 * (b.addrBits / 8) + 8

instance neZero_buckets : NeZero 64 := ⟨Nat.succ_ne_zero 63⟩

/-- `split_page_meta_hash`. -/
def metaHash (pageBase : ℕ) : Fin 64 := Fin.ofNat 64 (pageBase / b.page)

def pageBase (mem : ℕ) : ℕ := alignDown mem b.page

def chunkIndex (mem : ℕ) : ℕ := (mem - pageBase b mem) / chunkSize

/-- `kalloc1k_chunk_mask`. A 32-bit shift takes its amount modulo 32. -/
def chunkMask (index : ℕ) : BitVec 32 := 1#32 <<< (index % 32)

/-- `kalloc1k_full_mask`. -/
def fullMask : BitVec 32 :=
  if 32 ≤ chunksPerPage b then BitVec.allOnes 32 else (1#32 <<< chunksPerPage b) - 1#32

variable (s : Kalloc)

/-! ### Pages -/

/-- `kalloc_page`. -/
def kallocPage : Option ℕ × Kalloc :=
  match s.freeListPage with
  | [] => (none, s)
  | p :: l => (some p, { s with
      freeListPage := l, freeMemSize := (s.freeMemSize + b.top - b.page) % b.top })

/-- `kfree_page`. -/
def kfreePage (p : ℕ) : Kalloc := { s with
  freeListPage := p :: s.freeListPage, freeMemSize := (s.freeMemSize + b.page) % b.top }

/-- The pages `kalloc_append` finds in a range. -/
def pagesIn (start stop : ℕ) : List ℕ :=
  cut b.page ((alignDown stop b.page - b.alignUp start b.page) / b.page) (b.alignUp start b.page)

/-- `kalloc_append`. -/
def kallocAppend (start stop : ℕ) : Kalloc := { s with
  freeListPage := (pagesIn b start stop).reverse ++ s.freeListPage,
  freeMemSize := (s.freeMemSize + (pagesIn b start stop).length * b.page) % b.top,
  pages := pagesIn b start stop ++ s.pages }

/-! ### Records of split pages -/

/-- `split_page_meta_find`. -/
def metaFind (p : ℕ) : Option Meta := (s.buckets (metaHash b p)).find? fun m => m.pageBase = p

/-- `split_page_meta_grow`: the records of a new page, the last one first. -/
def metaGrow : Option Kalloc :=
  match s.kallocPage b with
  | (none, _) => none
  | (some q, s) => some { s with
      metaFree := (cut (metaSize b) (b.page / metaSize b) q).reverse ++ s.metaFree,
      metaPages := q :: s.metaPages }

/-- `split_page_meta_alloc`, with the mask and count that `kalloc1k_split_page` writes. -/
def metaAlloc (p : ℕ) : Option Kalloc :=
  match if s.metaFree = [] then s.metaGrow b else some s with
  | none => none
  | some s =>
    match s.metaFree with
    | [] => none
    | a :: l => some { s with
        metaFree := l,
        buckets := Function.update s.buckets (metaHash b p)
          (⟨a, p, fullMask b, chunksPerPage b⟩ :: s.buckets (metaHash b p)) }

/-- `split_page_meta_free`. -/
def splitPageMetaFree (m : Meta) : Kalloc := { s with
  buckets := Function.update s.buckets (metaHash b m.pageBase)
    ((s.buckets (metaHash b m.pageBase)).eraseP fun x => x.addr = m.addr),
  metaFree := m.addr :: s.metaFree }

/-- A record is written in its place. -/
def metaWrite (m m' : Meta) : Kalloc := { s with
  buckets := Function.update s.buckets (metaHash b m.pageBase)
    ((s.buckets (metaHash b m.pageBase)).map fun x => if x.addr = m.addr then m' else x) }

/-! ### Chunks -/

/-- `kalloc1k_split_page`, with whether it succeeds. -/
def splitPage : Bool × Kalloc :=
  match s.kallocPage b with
  | (none, _) => (false, s)
  | (some p, t) =>
    match t.metaAlloc b p with
    | none => (false, t.kfreePage b p)
    | some t => (true, { t with
        freeList1k := (cut chunkSize (chunksPerPage b) p).reverse ++ t.freeList1k })

/-- What `kalloc1k` writes into the record of the chunk it takes. -/
def noteTaken (c : ℕ) : Kalloc :=
  match s.metaFind b (pageBase b c) with
  | none => s
  | some m =>
    if m.freeMask &&& chunkMask (chunkIndex b c) ≠ 0 then
      s.metaWrite b m { m with
        freeMask := m.freeMask &&& ~~~chunkMask (chunkIndex b c),
        freeCount := if 0 < m.freeCount then m.freeCount - 1 else m.freeCount }
    else s

/-- `kalloc1k`. -/
def kalloc1k : Option ℕ × Kalloc :=
  match if s.freeList1k = [] then s.splitPage b else (true, s) with
  | (false, s) => (none, s)
  | (true, s) =>
    match s.freeList1k with
    | [] => (none, s)
    | c :: l => (some c, { s with freeList1k := l }.noteTaken b c)

/-- `kfree1k`. -/
def kfree1k (c : ℕ) : Kalloc :=
  match s.metaFind b (pageBase b c) with
  | none => { s with freeList1k := c :: s.freeList1k }
  | some m =>
    if m.freeMask &&& chunkMask (chunkIndex b c) ≠ 0 then s
    else
      let m' := { m with
        freeMask := m.freeMask ||| chunkMask (chunkIndex b c),
        freeCount := (m.freeCount + 1) % 2 ^ 32 }
      let t := { s.metaWrite b m m' with freeList1k := c :: s.freeList1k }
      if m'.freeCount = chunksPerPage b ∧ m'.freeMask = fullMask b then
        ({ t with freeList1k := t.freeList1k.filter fun x => pageBase b x ≠ pageBase b c
          }.splitPageMetaFree b m').kfreePage b (pageBase b c)
      else t

/-- `get_free_mem_size`. -/
def getFreeMemSize : ℕ := s.freeMemSize

/-- The calls. -/
inductive Op where
  | append (start stop : ℕ)
  | allocPage
  | freePage (p : ℕ)
  | alloc1k
  | free1k (c : ℕ)
  deriving DecidableEq

/-- One call: new memory is appended once and lies above 0, and callers free what they hold. -/
def step : Op → Option Kalloc
  | .append start stop =>
    if ∀ p ∈ pagesIn b (start % b.top) (stop % b.top), 0 < p ∧ p ∉ s.pages then
      some (s.kallocAppend b (start % b.top) (stop % b.top))
    else none
  | .allocPage =>
    match s.kallocPage b with
    | (none, t) => some t
    | (some p, t) => some { t with heldPages := p :: t.heldPages }
  | .freePage p =>
    if p ∈ s.heldPages then some ({ s with heldPages := s.heldPages.erase p }.kfreePage b p)
    else none
  | .alloc1k =>
    match s.kalloc1k b with
    | (none, t) => some t
    | (some c, t) => some { t with held1k := c :: t.held1k }
  | .free1k c =>
    if c ∈ s.held1k then some ({ s with held1k := s.held1k.erase c }.kfree1k b c) else none

end Kalloc

/-- `kalloc_reset`. -/
def Kalloc.reset : Kalloc := ⟨[], [], 0, fun _ => [], [], [], [], [], []⟩

end EwokOS.Memory
