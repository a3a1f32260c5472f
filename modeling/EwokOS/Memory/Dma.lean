import EwokOS.Memory.Build
import EwokOS.Schemes.Run
import EwokOS.Schemes.Tiling

/-! The DMA allocator (`mm/dma.c`).

    A driver registers a physical carve-out as a block; a block is a list of nodes, each free
    (`pid == 0`), allocated, or given up by its owner while a device still holds pins on it:

        alloc           free / release            last unpin
        free ──▶ allocated ──▶ (pinned, pid 0) ──▶ free
                     └────── no pins ───────────────▲

    Neighbouring reusable nodes are merged on free, on release and on the last unpin, by three
    different loops. The ghost `held` of a block is what its users believe they have: the ranges
    returned by `dma_alloc` and not yet freed or released, with the size they asked for. -/

namespace EwokOS.Memory.Dma

open Schemes (Reach Free Tiles)

/-- `dma_t`. -/
structure Node where
  pid : ℤ
  pins : ℕ
  size : ℕ
  base : ℕ
  deriving DecidableEq, Repr

/-- `dma_new`. -/
def dmaNew (base size : ℕ) : Node := ⟨0, 0, size, base⟩

/-- A range some pid was given. -/
structure Grant where
  pid : ℤ
  base : ℕ
  size : ℕ
  deriving DecidableEq, Repr

namespace Node
variable (d : Node)

/-- `dma_reusable`. -/
def reusable : Bool := d.pid = 0 ∧ d.pins = 0

/-- `prev->size += d->size`. -/
def absorb (n : Node) : Node := { d with size := (d.size + n.size) % 2 ^ 32 }

def grant : Grant := ⟨d.pid, d.base, d.size⟩

/-- What `dma_release` does to a node of the pid it releases. -/
def release (pid : ℤ) : Node := if d.pid = pid then { d with pid := 0 } else d

end Node

/-- `dma_block_t`. -/
structure Block where
  nodes : List Node
  phyBase : ℕ
  vBase : ℕ
  size : ℕ
  ownerPid : ℤ
  shared : Bool
  held : List Grant
  deriving DecidableEq, Repr

def dmaBlockMax : ℕ := 16

/-- `_dma_blocks`, as far as `_dma_block_count`. -/
structure Pool where
  blocks : List Block
  deriving DecidableEq, Repr

/-! ### Lists of nodes -/

/-- The second loop of `dma_coalesce`. -/
def mergeNext (d : Node) : List Node → List Node
  | [] => [d]
  | n :: l => if n.reusable then mergeNext (d.absorb n) l else d :: n :: l

/-- `dma_coalesce` of `d` between `prev` and the nodes after it. -/
def dmaCoalesce (prev : Option Node) (d : Node) (post : List Node) : List Node :=
  if d.reusable then
    match prev with
    | none => mergeNext d post
    | some p => if p.reusable then mergeNext (p.absorb d) post else p :: mergeNext d post
  else prev.toList ++ d :: post

/-- The walk of `dma_free` and `dma_unpin`: the first node that matches is written and coalesced. -/
def editFirst (hit : Node → Bool) (f : Node → Node) (prev : Option Node) :
    List Node → Option (List Node)
  | [] => none
  | d :: l =>
    if hit d then some (dmaCoalesce prev (f d) l)
    else (editFirst hit f (some d) l).map fun l' => prev.toList ++ l'

/-- The walk of `dma_pin`. -/
def pinFirst (hit : Node → Bool) : List Node → Option (List Node)
  | [] => none
  | d :: l =>
    if hit d then
      if d.pins = 2 ^ 32 - 1 then none else some ({ d with pins := d.pins + 1 } :: l)
    else (pinFirst hit l).map (d :: ·)

/-- The walk of `dma_alloc`: first fit, cut to size. -/
def allocFirst (b : Build) (pid : ℤ) (size : ℕ) : List Node → Option (ℕ × List Node)
  | [] => none
  | d :: l =>
    if d.reusable = false ∨ d.size < size then
      (allocFirst b pid size l).map fun r => (r.1, d :: r.2)
    else if size < d.size then
      some (d.base, { d with pid := pid, size := size } ::
        dmaNew ((d.base + size) % b.top) (d.size - size) :: l)
    else some (d.base, { d with pid := pid } :: l)

/-- The walk of `dma_release`: a node merges into the one before it, never into the one after. -/
def releaseNodes (pid : ℤ) : Option Node → List Node → List Node
  | prev, [] => prev.toList
  | none, d :: l => releaseNodes pid (some (d.release pid)) l
  | some p, d :: l =>
    if (d.release pid).reusable && p.reusable then releaseNodes pid (some (p.absorb d)) l
    else p :: releaseNodes pid (some (d.release pid)) l

/-! ### The calls -/

namespace Pool
variable (b : Build) (m : Pool)

def setBlock (i : ℕ) (B : Block) : Pool := ⟨m.blocks.set i B⟩

/-- `dma_block_id` in range, and its block. -/
def block (id : ℤ) : Option (ℕ × Block) :=
  if id < 0 then none else (m.blocks[id.toNat]?).map fun B => (id.toNat, B)

/-- `dma_alloc`; 0 for none. The size asked for is kept with the range. -/
def dmaAlloc (id pid : ℤ) (size : ℕ) : ℕ × Pool :=
  match m.block id with
  | none => (0, m)
  | some (i, B) =>
    match allocFirst b pid (b.alignUp size b.page % 2 ^ 32) B.nodes with
    | none => (0, m)
    | some (base, l) =>
      (base, m.setBlock i { B with
        nodes := l,
        held := ⟨pid, base, roundUp size b.page⟩ :: B.held })

/-- The node that `dma_free` of this pid and address finds. -/
def hitOf (pid : ℤ) (phy : ℕ) (d : Node) : Bool := d.pid = pid ∧ d.base = phy

/-- `dma_free`. -/
def dmaFree (id pid : ℤ) (phy : ℕ) : Pool :=
  match m.block id with
  | none => m
  | some (i, B) =>
    match editFirst (hitOf pid phy) (fun d => { d with pid := 0 }) none B.nodes with
    | none => m
    | some l =>
      m.setBlock i { B with
        nodes := l,
        held := match B.nodes.find? (hitOf pid phy) with
          | none => B.held
          | some d => B.held.erase d.grant }

/-- `dma_release`, less the peer mappings it revokes first. -/
def dmaRelease (pid : ℤ) : Pool :=
  ⟨m.blocks.map fun B => { B with
    nodes := releaseNodes pid none B.nodes,
    held := B.held.filter fun g => g.pid ≠ pid }⟩

/-- `dma_pin`, with whether it succeeds. -/
def dmaPin (id pid : ℤ) (phy size : ℕ) : Bool × Pool :=
  if pid = 0 ∨ size = 0 then (false, m)
  else match m.block id with
    | none => (false, m)
    | some (i, B) =>
      match pinFirst (fun d => d.pid = pid ∧ d.base = phy ∧ size ≤ d.size) B.nodes with
      | none => (false, m)
      | some l => (true, m.setBlock i { B with nodes := l })

/-- `dma_unpin`. -/
def dmaUnpin (id : ℤ) (phy : ℕ) : Bool × Pool :=
  match m.block id with
  | none => (false, m)
  | some (i, B) =>
    match editFirst (fun d => d.base = phy ∧ d.pins ≠ 0)
        (fun d => { d with pins := d.pins - 1 }) none B.nodes with
    | none => (false, m)
    | some l => (true, m.setBlock i { B with nodes := l })

/-- What the search of `dma_set` over the blocks comes to. -/
inductive Scan where
  | refused
  | reclaim (i : ℕ)
  | fresh
  deriving DecidableEq

/-- The search of `dma_set`: `i` counts the blocks passed. -/
def scan (pid : ℤ) (phy size : ℕ) (ownerLive : ℤ → Bool) : ℕ → List Block → Scan
  | _, [] => .fresh
  | i, B :: l =>
    if B.phyBase ≠ phy ∨ B.size ≠ size then scan pid phy size ownerLive (i + 1) l
    else if B.nodes.any fun d => d.pins ≠ 0 then .refused
    else if B.ownerPid < 0 then scan pid phy size ownerLive (i + 1) l
    else if B.ownerPid ≠ pid ∧ ownerLive B.ownerPid then scan pid phy size ownerLive (i + 1) l
    else .reclaim i

/-- The size `dma_set` registers, if it accepts the range at all. The aligned base it computes is
    only used for this. -/
def setSize (phy size : ℕ) : Option ℕ :=
  let s := alignDown size b.page % 2 ^ 32
  if b.alignUp phy b.page = phy then some s
  else if s < b.page * 2 then none
  else some (s - b.page)

/-- `dma_set`; `none` for -1. `uidOk` is the check of a calling process, `ownerLive` the look at the
    previous owner. -/
def dmaSet (pid : ℤ) (phy v size : ℕ) (shared uidOk : Bool) (ownerLive : ℤ → Bool) :
    Option ℕ × Pool :=
  if 0 ≤ pid ∧ uidOk = false then (none, m)
  else match setSize b phy size with
    | none => (none, m)
    | some s =>
      match scan pid phy s ownerLive 0 m.blocks with
      | .refused => (none, m)
      | .reclaim i =>
        match m.blocks[i]? with
        | none => (none, m)
        | some B => (some i, m.setBlock i { B with
            nodes := [dmaNew phy s], ownerPid := pid, vBase := v, shared := shared })
      | .fresh =>
        if dmaBlockMax ≤ m.blocks.length then (none, m)
        else (some m.blocks.length, ⟨m.blocks ++ [⟨[dmaNew phy s], phy, v, s, pid, shared, []⟩]⟩)

end Pool

/-- The calls, with what they find in the task table. -/
inductive Op where
  | set (pid : ℤ) (phy v size : ℕ) (shared uidOk : Bool) (ownerLive : ℤ → Bool)
  | alloc (id pid : ℤ) (size : ℕ)
  | free (id pid : ℤ) (phy : ℕ)
  | release (pid : ℤ)
  | pin (id pid : ℤ) (phy size : ℕ)
  | unpin (id : ℤ) (phy : ℕ)

/-- One call. Its arguments arrive in 32-bit and address-width words. -/
def step (b : Build) (m : Pool) : Op → Option Pool
  | .set pid phy v size shared uidOk ownerLive =>
    some (m.dmaSet b pid (phy % b.top) (v % b.top) (size % 2 ^ 32) shared uidOk ownerLive).2
  | .alloc id pid size => some (m.dmaAlloc b id pid (size % 2 ^ 32)).2
  | .free id pid phy => some (m.dmaFree id pid phy)
  | .release pid => some (m.dmaRelease pid)
  | .pin id pid phy size => some (m.dmaPin id pid phy size).2
  | .unpin id phy => some (m.dmaUnpin id phy).2

/-- Before `dma_init` has registered the pool of the system. -/
def boot : Pool := ⟨[]⟩

end EwokOS.Memory.Dma
