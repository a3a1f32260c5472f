import EwokOS.Memory.ShmPool
import EwokOS.Schemes.Run

/-! Shared memory segments (`mm/shm.c`).

    One list holds the blocks of two windows, scattered and contiguous, each tiling its window in the
    order of the list up to the tail of its kind:

        segs:   [S 4][C 2][C 1][S 3][C 5]        S S   tile the scattered window
                                                 C C C tile the contiguous one

    A block is used or free; a free one is cut for a request that it is large enough for. The pages of
    a scattered block stay with it when it is freed, those of a contiguous one go back to the slab.
    `vm` is the kernel's page table over both windows, `mem` what the frames hold (a number for the
    bytes of a page, 0 for a page of zeroes). A page that is not mapped resolves to frame 0.

    What a call meets outside is its argument: whether `kmalloc` succeeds, how many pages `kalloc_page`
    has left and which, whether `map_page` finds its tables, what `check_access` says. -/

namespace EwokOS.Memory

/-- `share_mem_t`. -/
structure Seg where
  id : ℕ
  key : ℕ
  addr : ℕ
  pages : ℕ
  used : Bool
  flag : ℕ
  owner : ℤ
  refs : ℤ
  contig : Bool
  phyBase : ℕ
  deriving DecidableEq, Repr

/-- Where the windows lie, and the slab. -/
structure Layout (b : Build) where
  base : ℕ
  contigBase : ℕ
  winSize : ℕ
  slabSize : ℕ
  slab : Slab b
  base_dvd : b.page ∣ base
  contig_dvd : b.page ∣ contigBase
  win_dvd : b.page ∣ winSize
  apart : contigBase + slabSize ≤ base
  lt : base + winSize < b.top
  slab_lt : base + slabSize < b.top
  win_small : winSize < 2 ^ 32
  slab_small : slabSize < 2 ^ 32
  pages : slab.pages = slabSize / b.page
  page_le : slabSize = 0 ∨ b.page ≤ slabSize

structure Shm where
  segs : List Seg
  tail : ℕ
  contigTail : ℕ
  idCounter : ℕ
  pool : List Run
  spaces : List (List ℕ)
  vm : ℕ → Option ℕ
  mem : ℕ → ℕ

/-- What a creating call meets: the caller's pid, `kmalloc`, the pages `kalloc_page` has left, and
    `map_page`. -/
structure Env where
  pid : ℤ
  new : Bool
  room : ℕ
  frame : ℕ → ℕ
  maps : ℕ → Bool

/-- `SHM_MAX`. -/
def shmMax : ℕ := 128

namespace Shm
variable {b : Build} (L : Layout b) (s : Shm)

/-! ### Blocks -/

/-- `shm_new`. -/
def blank : Seg := ⟨0, 0, 0, 0, false, 0, -1, 0, false, 0⟩

/-- The first block that meets `p`, with those before and after it. -/
def cut (p : Seg → Bool) : List Seg → Option (List Seg × Seg × List Seg)
  | [] => none
  | g :: l => if p g then some ([], g, l) else (cut p l).map fun c => (g :: c.1, c.2)

def tailOf (contig : Bool) : ℕ := if contig then s.contigTail else s.tail

/-- The end of a window. -/
def winTop (contig : Bool) : ℕ := if contig then L.contigBase + L.slabSize else L.base + L.winSize

/-- The first half of `free_item`: a free block takes in the one after it. -/
def mergeRight (g : Seg) : List Seg → Seg × List Seg
  | [] => (g, [])
  | p :: l =>
    if p.used = false ∧ p.contig = g.contig then ({ g with pages := g.pages + p.pages }, l)
    else (g, p :: l)

/-- The second half: the block before it takes in a free block. -/
def mergeLeft (pre : List Seg) (g : Seg) : List Seg :=
  match pre.getLast? with
  | none => [g]
  | some q =>
    if q.used = false ∧ q.contig = g.contig then
      pre.dropLast ++ [{ q with pages := q.pages + g.pages }]
    else pre ++ [g]

/-- `free_item` on a block between `pre` and `post`: what stands before and after it then. -/
def mergeFree (pre : List Seg) (g : Seg) (post : List Seg) : List Seg × List Seg :=
  let r := mergeRight { g with used := false } post
  (mergeLeft pre r.1, r.2)

/-- The pool after `free_item`. -/
def poolAfter (b : Build) (g : Seg) (pool : List Run) : List Run :=
  if g.contig then ShmPool.free b pool g.phyBase else pool

/-! ### Pages -/

/-- A page is zeroed and mapped, if `map_page` succeeds. -/
def mapOne (v f : ℕ) (ok : Bool) : Shm :=
  { s with
    mem := Function.update s.mem f 0
    vm := if ok then Function.update s.vm v (some f) else s.vm }

/-- `shm_map_pages`. -/
def mapPages (addr n : ℕ) (e : Env) : Bool × Shm :=
  let m := (List.range (min n e.room)).foldl (fun s k => s.mapOne (addr + k * b.page) (e.frame k) (e.maps k)) s
  if n ≤ e.room then (true, m)
  else (false, (List.range e.room).foldl (fun s k =>
    { s with vm := Function.update s.vm (addr + k * b.page) none }) m)

/-- `shm_map_pages_contig`. -/
def mapPagesContig (addr paddr n : ℕ) (e : Env) : Shm :=
  (List.range n).foldl (fun s k => s.mapOne (addr + k * b.page) (paddr + k * b.page) (e.maps k)) s

/-! ### Creating -/

/-- What a segment is created with. -/
structure Req where
  key : ℕ
  size : ℕ
  pages : ℕ
  flag : ℕ
  contig : Bool
  paddr : ℕ

/-- The pages of `size` bytes. -/
def pagesFor (b : Build) (size : ℕ) : ℕ := size / b.page + if size % b.page = 0 then 0 else 1

/-- A tail is moved by `pages * PAGE_SIZE`, a 32-bit product. -/
def bump (b : Build) (tail pages : ℕ) : ℕ := (tail + pages * b.page % 2 ^ 32) % b.top

/-- A new block is mapped, and a contiguous one in any case: its old run is another's now. -/
def mapped (r : Req) (e : Env) (g : Seg) : Bool × Shm :=
  if r.contig then (true, s.mapPagesContig (b := b) g.addr r.paddr r.pages e)
  else if g.pages = 0 then s.mapPages (b := b) g.addr r.pages e
  else (true, s)

/-- `shm_alloc` once it has its block `g`, which stands between `pre` and `post`. -/
def finish (r : Req) (e : Env) (pre : List Seg) (g : Seg) (post : List Seg) : Option ℕ × Shm :=
  let m := s.mapped (b := b) r e g
  if m.1 = false then (none, { m.2 with segs := pre ++ g :: post })
  else
    let s := m.2
    let g' := { g with
      used := true
      key := r.key
      id := s.idCounter
      pages := if g.pages = 0 ∨ r.contig = true then r.pages else g.pages
      contig := r.contig
      phyBase := r.paddr
      owner := e.pid
      flag := r.flag }
    (some s.idCounter, { s with
      segs := pre ++ g' :: post
      tail := if r.contig = false ∧ g.addr = s.tail then bump b s.tail r.pages else s.tail
      contigTail := if r.contig = true ∧ g.addr = s.contigTail then bump b s.contigTail r.pages
        else s.contigTail
      idCounter := (s.idCounter + 1) % 2 ^ 32 })

/-- A reused block and what is cut off it. -/
def split (b : Build) (r : Req) (e : Env) (g : Seg) : Seg × List Seg :=
  if r.pages < g.pages ∧ e.new = true then
    ({ g with pages := r.pages },
      [{ blank with pages := g.pages - r.pages, addr := g.addr + r.pages * b.page, contig := g.contig }])
  else (g, [])

/-- `shm_alloc` once it has its physical run. -/
def place (r : Req) (e : Env) : Option ℕ × Shm :=
  match cut (fun g => !g.used && decide (r.pages ≤ g.pages) && g.contig == r.contig) s.segs with
  | some (pre, g, post) =>
    s.finish (b := b) r e pre (split b r e g).1 ((split b r e g).2 ++ post)
  | none =>
    if winTop L r.contig ≤ (s.tailOf r.contig + r.size) % b.top ∨ e.new = false then
      (none, { s with pool := if r.contig then ShmPool.free b s.pool r.paddr else s.pool })
    else s.finish (b := b) r e s.segs { blank with addr := s.tailOf r.contig } []

/-- `shm_alloc`. -/
def shmAlloc (key size flag : ℕ) (contig : Bool) (e : Env) : Option ℕ × Shm :=
  let size := b.alignUp size 32 % 2 ^ 32
  let n := pagesFor b size
  if contig then
    let p := ShmPool.alloc b s.pool n
    if p.1 = 0 then (none, s)
    else { s with pool := p.2 }.place L ⟨key, size, n, flag, true, p.1⟩ e
  else s.place L ⟨key, size, n, flag, false, 0⟩ e

/-- `shm_item_by_key`. -/
def itemByKey (key : ℕ) : Option Seg := s.segs.find? fun g => g.used && g.key == key

/-- `shm_get`: bits 9, 10 and 24 of the flag are `IPC_CREAT`, `IPC_EXCL` and `IPC_CONTIG`. -/
def shmGet (key size flag : ℕ) (e : Env) : Option ℕ × Shm :=
  if key = 0 then s.shmAlloc L key size 0o666 false e
  else
    match s.itemByKey key with
    | some g => (if flag.testBit 10 then none else some g.id, s)
    | none =>
      if flag.testBit 9 = false then (none, s)
      else s.shmAlloc L key size (flag &&& 0o666) (flag.testBit 24) e

/-! ### Attaching and freeing -/

/-- `shm_item_by_id`. -/
def byId (id : ℕ) : Option (List Seg × Seg × List Seg) := cut (fun g => g.used && g.id == id) s.segs

/-- `shm_item_by_addr`. -/
def byAddr (addr : ℕ) : Option (List Seg × Seg × List Seg) :=
  cut (fun g => g.used && g.addr == addr) s.segs

/-- `shm_proc_map`: `access` is whether `check_access` allows any, `ok` whether `map_page` succeeds
    throughout. -/
def procMap (sp id : ℕ) (access ok : Bool) : Option ℕ × Shm :=
  match s.byId id, s.spaces[sp]? with
  | some (pre, g, post), some l =>
    if access = false then (none, s)
    else if id ∈ l then (some g.addr, s)
    else
      match l.findIdx? (· == 0) with
      | none => (none, s)
      | some k =>
        if ok = false then (none, s)
        else (some g.addr, { s with
          segs := pre ++ { g with refs := g.refs + 1 } :: post
          spaces := s.spaces.set sp (l.set k id) })
  | _, _ => (none, s)

/-- `free_item`. -/
def freeItem (pre : List Seg) (g : Seg) (post : List Seg) : Shm :=
  { s with
    segs := (mergeFree pre g post).1 ++ (mergeFree pre g post).2
    pool := poolAfter b g s.pool }

/-- `shm_proc_unmap_it`. -/
def procUnmapIt (sp : ℕ) (freeIt : Bool) (pre : List Seg) (g : Seg) (post : List Seg) : Shm :=
  match s.spaces[sp]? with
  | none => s
  | some l =>
    match l.findIdx? (· == g.id) with
    | none => s
    | some k =>
      let s := { s with spaces := s.spaces.set sp (l.set k 0) }
      let g := { g with refs := g.refs - 1 }
      if freeIt = true ∧ g.refs ≤ (0 : ℤ) then s.freeItem (b := b) pre g post
      else { s with segs := pre ++ g :: post }

/-- `shm_proc_unmap_by_id`. -/
def procUnmapById (sp id : ℕ) (freeIt : Bool) : Shm :=
  match s.byId id with
  | none => s
  | some (pre, g, post) => s.procUnmapIt (b := b) sp freeIt pre g post

/-- `shm_proc_unmap`. -/
def procUnmap (sp addr : ℕ) : Shm :=
  match s.byAddr addr with
  | none => s
  | some (pre, g, post) => s.procUnmapIt (b := b) sp true pre g post

/-- `shm_ctrl(IPC_RMID)`. -/
def ctrlRmid (id : ℕ) : Shm :=
  match s.byId id with
  | none => s
  | some (pre, g, post) => if g.refs ≤ 0 then s.freeItem (b := b) pre g post else s

/-- The walk of `shm_release_orphans`: the blocks passed, those to come, and the pool. -/
def reapFrom (b : Build) (pid : ℤ) : ℕ → List Seg → List Seg → List Run → List Seg × List Run
  | 0, pre, post, pool => (pre ++ post, pool)
  | _ + 1, pre, [], pool => (pre, pool)
  | n + 1, pre, g :: post, pool =>
    if g.used = true ∧ g.owner = pid ∧ g.refs ≤ 0 then
      reapFrom b pid n (mergeFree pre g post).1 (mergeFree pre g post).2 (poolAfter b g pool)
    else reapFrom b pid n (pre ++ [g]) post pool

/-- `shm_release_orphans`. -/
def releaseOrphans (pid : ℤ) : Shm :=
  if pid < 0 then s
  else
    let r := reapFrom b pid (s.segs.length + 1) [] s.segs s.pool
    { s with segs := r.1, pool := r.2 }

/-- `shm_set_owner`. -/
def setOwner (id : ℕ) (pid : ℤ) : Shm :=
  match s.byId id with
  | none => s
  | some (pre, g, post) => { s with segs := pre ++ { g with owner := pid } :: post }

/-! ### Runs -/

/-- What a page of the windows holds. -/
def read (v : ℕ) : ℕ := s.mem ((s.vm v).getD 0)

/-- The calls, a new address space, and a process that writes to a page of a segment it has
    attached. -/
inductive Op where
  | get (key size flag : ℕ) (e : Env)
  | procMap (sp id : ℕ) (access ok : Bool)
  | procUnmap (sp addr : ℕ)
  | procUnmapById (sp id : ℕ) (freeIt : Bool)
  | rmid (id : ℕ)
  | releaseOrphans (pid : ℤ)
  | setOwner (id : ℕ) (pid : ℤ)
  | spawn
  | write (id k bytes : ℕ)

def step : Op → Option Shm
  | .get key size flag e => some (s.shmGet L (key % 2 ^ 32) (size % 2 ^ 32) (flag % 2 ^ 32) e).2
  | .procMap sp id access ok => some (s.procMap sp id access ok).2
  | .procUnmap sp addr => some (s.procUnmap (b := b) sp addr)
  | .procUnmapById sp id freeIt => some (s.procUnmapById (b := b) sp id freeIt)
  | .rmid id => some (s.ctrlRmid (b := b) id)
  | .releaseOrphans pid => some (s.releaseOrphans (b := b) pid)
  | .setOwner id pid => some (s.setOwner id pid)
  | .spawn => some { s with spaces := s.spaces ++ [List.replicate shmMax 0] }
  | .write id k bytes =>
    match s.byId id with
    | none => none
    | some (_, g, _) =>
      if 0 < g.refs ∧ k < g.pages then
        some { s with mem := Function.update s.mem ((s.vm (g.addr + k * b.page)).getD 0) bytes }
      else none

end Shm

/-- `shm_init`; frames may hold anything. -/
def Layout.boot {b : Build} (L : Layout b) (mem : ℕ → ℕ) : Shm :=
  ⟨[], L.base, L.contigBase, 1,
    if 0 < L.slabSize then [⟨L.slab.base, L.slab.pages, false⟩] else [], [], fun _ => none, mem⟩

end EwokOS.Memory
