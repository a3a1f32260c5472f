import EwokOS.Memory.Dma

/-! DMA ranges mapped by other processes (`mm/dma.c`, `svc.c`).

    `sys_dma_alloc` maps its range into the caller only; another process pulls the same frames in
    through `sys_mem_map`, and the kernel notes that in `_dma_peer_maps`, so that it can take the
    mapping back when the owner dies:

        owner ──sys_dma_alloc──▶ frames ◀──sys_mem_map── peer
          └─ exit: revoke the peers, then free             └─ noted as (owner, peer, vaddr, paddr)

    Ghosts say which lease a frame is under (`lease`), counting every allocation, and under which
    one a page was mapped by `sys_mem_map` (`via`). An address is its page number here; page tables
    of a process that is gone are empty. -/

namespace EwokOS.Memory.Dma

/-- What a page table entry points at. -/
structure Pte where
  frame : ℕ
  via : Option ℕ
  deriving DecidableEq, Repr

/-- The page tables of the processes, by pid. -/
abbrev Vm := ℤ → ℕ → Option Pte

/-- `dma_peer_map_t`, in use. -/
structure Peer where
  ownerPid : ℤ
  peerPid : ℤ
  peerVaddr : ℕ
  paddr : ℕ
  size : ℕ
  deriving DecidableEq, Repr

def dmaPeerMapMax : ℕ := 64

structure World where
  pool : Pool
  peerMaps : List (Option Peer)
  vm : Vm
  lease : ℕ → Option (ℤ × ℕ)
  leases : ℕ

/-- Where the kernel core ends and the pool of the system lies (`_sys_info`). -/
structure Layout where
  kernelBase : ℕ
  kmallocEnd : ℕ
  dmaBase : ℕ
  dmaSize : ℕ

section
variable (b : Build)

/-! ### Page tables -/

/-- The page number of the `i`-th page from `vaddr` on. -/
def vpage (vaddr i : ℕ) : ℕ := (vaddr / b.page + i) % (b.top / b.page)

def Vm.write (vm : Vm) (pid : ℤ) (u : ℕ) (e : Option Pte) : Vm := fun q x =>
  if q = pid ∧ x = u then e else vm q x

/-- How many pages `map_pages_size` covers. -/
def pageCount (paddr size : ℕ) : ℕ :=
  (b.alignUp ((paddr + size) % b.top) b.page - alignDown paddr b.page) / b.page

/-- The loop of `map_pages`, as far as `n` pages. -/
def mapPages (vm : Vm) (pid : ℤ) (vaddr paddr : ℕ) (via : ℕ → Option ℕ) : ℕ → Vm
  | 0 => vm
  | n + 1 => (mapPages vm pid vaddr paddr via n).write pid (vpage b vaddr n)
      (some ⟨paddr / b.page + n, via (paddr / b.page + n)⟩)

/-- The page number of the `i`-th page of `unmap_pages`, where `PAGE_SIZE*i` is a number of 32 bits. -/
def upage (vaddr i : ℕ) : ℕ := vpage b vaddr (b.page * i % 2 ^ 32 / b.page)

/-- `unmap_pages`. -/
def unmapPages (vm : Vm) (pid : ℤ) (vaddr : ℕ) : ℕ → Vm
  | 0 => vm
  | n + 1 => (unmapPages vm pid vaddr n).write pid (upage b vaddr n) none

/-! ### The table of peer mappings -/

/-- The live owner of a range, -1 for none. -/
def dmaFindOwner (m : Pool) (paddr size : ℕ) : ℤ :=
  match (m.blocks.flatMap Block.nodes).find? fun d =>
      d.pid ≠ 0 ∧ d.base ≤ paddr ∧ (paddr + size) % b.top ≤ (d.base + d.size) % b.top with
  | some d => d.pid
  | none => -1

/-- The first loop of `dma_peer_map_track`: the same peer maps the same range again. -/
def refresh (e : Peer) : List (Option Peer) → Option (List (Option Peer))
  | [] => none
  | none :: l => (refresh e l).map (none :: ·)
  | some m :: l =>
    if m.peerPid = e.peerPid ∧ m.peerVaddr = e.peerVaddr ∧ m.paddr = e.paddr then
      some (some { m with ownerPid := e.ownerPid, size := e.size } :: l)
    else (refresh e l).map (some m :: ·)

/-- The second loop: the first slot not in use. -/
def fill (e : Peer) : List (Option Peer) → Option (List (Option Peer))
  | [] => none
  | none :: l => some (some e :: l)
  | some m :: l => (fill e l).map (some m :: ·)

/-- What becomes of a mapping: -1, -2, or noted in the table. -/
inductive Track where
  | untracked
  | full
  | kept (t : List (Option Peer))

/-- `dma_peer_map_by_paddr` with `dma_peer_map_track`. -/
def dmaPeerMapByPaddr (m : Pool) (t : List (Option Peer)) (pid : ℤ) (vaddr paddr size : ℕ) : Track :=
  let owner := dmaFindOwner b m paddr size
  if owner ≤ 0 then .untracked
  else if pid ≤ 0 then .untracked
  else match refresh ⟨owner, pid, vaddr, paddr, size⟩ t with
    | some t' => .kept t'
    | none =>
      match fill ⟨owner, pid, vaddr, paddr, size⟩ t with
      | some t' => .kept t'
      | none => .full

/-- The loop of `dma_peer_map_revoke_owner`. -/
def revokeOwner (owner : ℤ) : List (Option Peer) → Vm → List (Option Peer) × Vm
  | [], vm => ([], vm)
  | none :: l, vm => let r := revokeOwner owner l vm; (none :: r.1, r.2)
  | some e :: l, vm =>
    if e.ownerPid = owner then
      let r := revokeOwner owner l (unmapPages b vm e.peerPid e.peerVaddr (e.size / b.page))
      (none :: r.1, r.2)
    else let r := revokeOwner owner l vm; (some e :: r.1, r.2)

def dmaPeerMapRevokeOwner (owner : ℤ) (t : List (Option Peer)) (vm : Vm) : List (Option Peer) × Vm :=
  if owner ≤ 0 then (t, vm) else revokeOwner b owner t vm

def dmaPeerMapForgetPeer (pid : ℤ) (t : List (Option Peer)) : List (Option Peer) :=
  if pid ≤ 0 then t else t.map fun o => o.filter fun e => e.peerPid ≠ pid

/-- The loop of `dma_peer_unmap`. -/
def peerUnmap (pid : ℤ) (vaddr : ℕ) : List (Option Peer) → Vm → List (Option Peer) × Vm
  | [], vm => ([], vm)
  | none :: l, vm => let r := peerUnmap pid vaddr l vm; (none :: r.1, r.2)
  | some e :: l, vm =>
    if e.peerPid = pid ∧ e.peerVaddr = vaddr then
      (none :: l, unmapPages b vm pid vaddr (e.size / b.page))
    else let r := peerUnmap pid vaddr l vm; (some e :: r.1, r.2)

def dmaPeerUnmap (pid : ℤ) (vaddr : ℕ) (t : List (Option Peer)) (vm : Vm) :
    List (Option Peer) × Vm :=
  if pid ≤ 0 then (t, vm) else peerUnmap b pid vaddr t vm

/-! ### The system calls -/

/-- A frame of a range. -/
def inRange (base size f : ℕ) : Bool := base ≤ f * b.page ∧ f * b.page < base + size

namespace World
variable (lay : Layout) (w : World)

/-- `sys_dma_alloc`; `got` is how many pages `map_page` finds room for. -/
def sysDmaAlloc (id pid : ℤ) (size : ℕ) (cap : Bool) (got : ℕ) : World :=
  if cap = false then w
  else match w.pool.block id with
    | none => w
    | some (_, B) =>
      match allocFirst b pid (b.alignUp size b.page % 2 ^ 32) B.nodes with
      | none => w
      | some (base, _) =>
        let vaddr := (base + b.top - B.phyBase + B.vBase) % b.top
        { w with
          pool := (w.pool.dmaAlloc b id pid size).2,
          lease := fun f =>
            if inRange b base (roundUp size b.page) f then some (pid, w.leases) else w.lease f,
          leases := w.leases + 1,
          vm := if base = 0 ∨ vaddr = 0 then w.vm
            else mapPages b w.vm pid vaddr base (fun _ => none) (min got (pageCount b base size)) }

/-- `sys_dma_free`. -/
def sysDmaFree (id pid : ℤ) (vaddr : ℕ) (cap : Bool) : World :=
  if cap = false then w
  else match w.pool.block id with
    | none => w
    | some (_, B) =>
      let paddr := (vaddr + b.top - B.vBase + B.phyBase) % b.top
      if paddr = 0 then w
      else match B.nodes.find? (Pool.hitOf pid paddr) with
        | none => w
        | some d => { w with
            pool := w.pool.dmaFree id pid paddr,
            lease := fun f => if inRange b d.base d.size f then none else w.lease f,
            vm := unmapPages b w.vm pid vaddr (d.size / b.page) }

/-- What `sys_mem_map` checks before it maps frames of the pool. -/
def mapGate (vaddr paddr size : ℕ) (cap : Bool) : Bool :=
  let mend := (vaddr + b.alignUp size b.page) % b.top
  size ≠ 0 ∧ vaddr ≤ mend ∧ ¬(vaddr < lay.kmallocEnd ∧ lay.kernelBase < mend) ∧
    lay.dmaBase ≤ paddr ∧ (paddr + size) % b.top ≤ (lay.dmaBase + lay.dmaSize) % b.top ∧ cap

/-- `sys_mem_map` of a range inside the pool. -/
def sysMemMap (pid : ℤ) (vaddr paddr size : ℕ) (cap : Bool) (got : ℕ) : World :=
  if mapGate b lay vaddr paddr size cap = false then w
  else
    let sz := b.alignUp size b.page % 2 ^ 32
    let vm := mapPages b w.vm pid vaddr paddr (fun f => (w.lease f).map Prod.snd)
      (min got (pageCount b paddr sz))
    match dmaPeerMapByPaddr b w.pool w.peerMaps pid vaddr paddr sz with
    | .untracked => { w with vm := vm }
    | .full => { w with vm := unmapPages b vm pid vaddr (sz / b.page) }
    | .kept t => { w with vm := vm, peerMaps := t }

/-- `sys_dma_unmap`. -/
def sysDmaUnmap (pid : ℤ) (vaddr : ℕ) : World :=
  let r := dmaPeerUnmap b pid vaddr w.peerMaps w.vm
  { w with peerMaps := r.1, vm := r.2 }

/-- The funeral of a process: `dma_release`, `dma_peer_map_forget_peer`, and its page tables go. -/
def procFuneral (pid : ℤ) : World :=
  let r := dmaPeerMapRevokeOwner b pid w.peerMaps w.vm
  { w with
    pool := w.pool.dmaRelease pid,
    peerMaps := dmaPeerMapForgetPeer pid r.1,
    vm := fun q u => if q = pid then none else r.2 q u,
    lease := fun f => (w.lease f).filter fun o => o.1 ≠ pid }

end World

/-- The calls of processes; a driver's `dma_set`, `dma_pin` and `dma_unpin` come as they are. -/
inductive Call where
  | dmaAlloc (id pid : ℤ) (size : ℕ) (cap : Bool) (got : ℕ)
  | dmaFree (id pid : ℤ) (vaddr : ℕ) (cap : Bool)
  | memMap (pid : ℤ) (vaddr paddr size : ℕ) (cap : Bool) (got : ℕ)
  | dmaUnmap (pid : ℤ) (vaddr : ℕ)
  | funeral (pid : ℤ)
  | driver (o : Op)

/-- One call. -/
def call (lay : Layout) (w : World) : Call → Option World
  | .dmaAlloc id pid size cap got => some (w.sysDmaAlloc b id pid (size % 2 ^ 32) cap got)
  | .dmaFree id pid vaddr cap => some (w.sysDmaFree b id pid (vaddr % b.top) cap)
  | .memMap pid vaddr paddr size cap got =>
    some (w.sysMemMap b lay pid (vaddr % b.top) (paddr % b.top) (size % 2 ^ 32) cap got)
  | .dmaUnmap pid vaddr => some (w.sysDmaUnmap b pid (vaddr % b.top))
  | .funeral pid => some (w.procFuneral b pid)
  | .driver (.alloc ..) | .driver (.free ..) | .driver (.release ..) => none
  | .driver o => (step b w.pool o).map fun m => { w with pool := m }

end

/-- Before `dma_init`. -/
def World.boot : World :=
  ⟨Memory.Dma.boot, List.replicate dmaPeerMapMax none, fun _ _ => none, fun _ => none, 0⟩

end EwokOS.Memory.Dma
