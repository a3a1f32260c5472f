import EwokOS.Memory.Build
import EwokOS.Schemes.Cover

/-! The sub-allocator for the contiguous slab of shared memory (`_shm_pool` in `mm/shm.c`).

    A table of at most 128 runs of pages, in no order; an entry with address 0 is empty. Allocation is
    best fit and cuts the run if there is an entry for the rest, freeing joins the run with its free
    neighbours, wherever in the table they stand. The slab does not reach the end of the address
    space, so sums of addresses do not wrap. -/

namespace EwokOS.Memory

/-- `shm_pool_item_t`. -/
structure Run where
  paddr : ℕ
  pages : ℕ
  used : Bool
  deriving DecidableEq, Repr

/-- The slab: where it lies and how many whole pages it has, none where it is not configured. -/
structure Slab (b : Build) where
  base : ℕ
  pages : ℕ
  pos : 0 < base

namespace ShmPool

/-- `SHM_POOL_MAX`. -/
def poolMax : ℕ := 128

variable (b : Build) (t : List Run)

def get (i : ℕ) : Run := t.getD i ⟨0, 0, false⟩

/-- `shm_pool_slot`: an emptied entry, or one more. -/
def slot : Option ℕ :=
  match (List.range t.length).find? fun j => (get t j).paddr = 0 with
  | some j => some j
  | none => if poolMax ≤ t.length then none else some t.length

/-- An entry is written, behind the last one if need be. -/
def put (j : ℕ) (r : Run) : List Run := if j < t.length then t.set j r else t ++ [r]

/-- Whether entry `i` is a free run of `n` pages or more. -/
def fits (n i : ℕ) : Bool := (get t i).paddr ≠ 0 ∧ (get t i).used = false ∧ n ≤ (get t i).pages

/-- The loop of `shm_pool_alloc`: the smallest run that fits, the first of them. -/
def best (n : ℕ) : Option ℕ :=
  (List.range t.length).foldl (fun o i =>
    if fits t n i = false then o
    else match o with
      | none => some i
      | some k => if (get t i).pages < (get t k).pages then some i else some k) none

/-- `shm_pool_alloc`. -/
def alloc (n : ℕ) : ℕ × List Run :=
  match best t n with
  | none => (0, t)
  | some i =>
    let r := get t i
    if n < r.pages then
      match slot t with
      | some j => (r.paddr, (put t j ⟨r.paddr + n * b.page, r.pages - n, false⟩).set i ⟨r.paddr, n, true⟩)
      | none => (r.paddr, t.set i { r with used := true })
    else (r.paddr, t.set i { r with used := true })

/-- The run at `i` takes in the run at `j` if that is a free neighbour. -/
def mergeAt (i : ℕ) (t : List Run) (j : ℕ) : List Run :=
  let r := get t i
  let q := get t j
  if j = i ∨ q.paddr = 0 ∨ q.used = true then t
  else if r.paddr + r.pages * b.page = q.paddr then
    (t.set i { r with pages := r.pages + q.pages }).set j { q with paddr := 0 }
  else if q.paddr + q.pages * b.page = r.paddr then
    (t.set i { r with paddr := q.paddr, pages := r.pages + q.pages }).set j { q with paddr := 0 }
  else t

/-- `shm_pool_free`. -/
def free (paddr : ℕ) : List Run :=
  match (List.range t.length).find? fun i => (get t i).paddr = paddr ∧ (get t i).used = true with
  | none => t
  | some i => (List.range t.length).foldl (mergeAt b i) (t.set i { get t i with used := false })

/-! ### Well-formed tables -/

/-- The bytes of an entry. -/
def bytes (r : Run) : ℕ := if r.paddr = 0 then 0 else r.pages * b.page

/-- The entries tile the slab and no two free ones are neighbours. -/
structure Good (sl : Slab b) (t : List Run) : Prop where
  tiled : ∀ a, Schemes.cover Run.paddr (bytes b) t a =
    if sl.base ≤ a ∧ a < sl.base + sl.pages * b.page then 1 else 0
  pos : ∀ r ∈ t, r.paddr ≠ 0 → 0 < r.pages
  sparse : ∀ r ∈ t, ∀ q ∈ t, r.paddr ≠ 0 → q.paddr ≠ 0 → r.used = false → q.used = false →
    r.paddr + r.pages * b.page ≠ q.paddr
  size : t.length ≤ poolMax

end ShmPool
end EwokOS.Memory
