import EwokOS.Memory.Build
import EwokOS.Schemes.Run
import EwokOS.Schemes.Tables

/-! The page tables of aarch64 (`mmu_arch.c`, `mmu_pte_flags.c`, `mm/mmu.c`).

    A table is a page of entries, and memory is what the entries of each page frame hold. The root belongs to
    the process space, the tables below it come from `kalloc_page`. With pages of 64K there is one level below
    the root, with smaller ones there are two:

        4K, 16K   root ─l1─▶ table ─l2─▶ table ─l3─▶ page
        64K       root ─l2─────────────▶ table ─l3─▶ page

    The half above `KERNEL_BASE` is shared by all spaces and not followed here. A page that is given back keeps
    a pointer of the free list in its first word, so it may hold anything when it becomes a table. -/

namespace EwokOS.Memory.Mmu

open Schemes

/-- `page_table_entry_t`, by the fields that are written; `memset` clears the others for good. -/
structure Entry where
  entryType : ℕ
  memAttr : ℕ
  s2ap : ℕ
  sh : ℕ
  af : ℕ
  ng : ℕ
  address : ℕ
  pxn : ℕ
  uxn : ℕ
  nsTable : ℕ

namespace Entry

def zero : Entry := ⟨0, 0, 0, 0, 0, 0, 0, 0, 0, 0⟩

/-- `TYPE_PAGE` and `TYPE_TABLE`. -/
def typePage : ℕ := 3

/-- `PTE_ATTR_DEV` and `PTE_ATTR_NOCACHE`. -/
def attrDev : ℕ := 1
def attrNocache : ℕ := 5

variable (b : Build) (e : Entry)

/-- `pte_set_address`: what does not fit the field is cut off. -/
def setAddress (address : ℕ) : Entry := { e with address := address % 2 ^ (48 - b.pageShift) }

/-- An entry is made to lead to a table. -/
def setTable (table : ℕ) : Entry :=
  { e with nsTable := 1, entryType := typePage, af := 1 }.setAddress b table

/-- `set_pte_flags`. -/
def setFlags (attr : ℕ) : Entry :=
  let e := { e with nsTable := 1, entryType := typePage, af := 1, sh := 3, pxn := 0, uxn := 0 }
  if attr = attrDev then { e with pxn := 1, uxn := 1, sh := 2, memAttr := 0 }
  else if attr = attrNocache then { e with memAttr := 2 }
  else { e with memAttr := 3 }

/-- The table an entry leads to. -/
def link : Option ℕ := if e.entryType = 0 then none else some e.address

end Entry

/-! ### Indices -/

section
variable (b : Build)

def kernelBase : ℕ := 0x4000000000

/-- `PAGE_LEVEL_BITS`. -/
def levelBits : ℕ := b.pageShift - 3

/-- `PAGE_DIR_NUM`. -/
def pageDirNum : ℕ := 2 ^ levelBits b

def pageL3Index (va : ℕ) : ℕ := va / 2 ^ b.pageShift % pageDirNum b

def pageL2Index (va : ℕ) : ℕ := va / 2 ^ (b.pageShift + levelBits b) % pageDirNum b

def pageL1Index (va : ℕ) : ℕ := va / 2 ^ (b.pageShift + levelBits b + levelBits b) % pageDirNum b

/-- `PAGE_ROOT_INDEX`. -/
def pageRootIndex (va : ℕ) : ℕ := if b.pageShift = 16 then pageL2Index b va else pageL1Index b va

end

/-- Memory as tables, and the free list of pages. -/
structure Tables where
  mem : ℕ → ℕ → Entry
  free : List ℕ

namespace Tables
variable (b : Build) (scrap : Option ℕ → Entry) (s : Tables)

def kallocPage : Option (ℕ × Tables) :=
  match s.free with
  | [] => none
  | p :: l => some (p, { s with free := l })

def write (t i : ℕ) (e : Entry) : Tables :=
  { s with mem := Function.update s.mem t (Function.update (s.mem t) i e) }

/-- `kfree_page`. What the pointer to the rest of the list looks like as an entry is `scrap`. -/
def kfreePage (p : ℕ) : Tables := { s.write p 0 (scrap s.free.head?) with free := p :: s.free }

/-- `memset`. -/
def clear (p : ℕ) : Tables := { s with mem := Function.update s.mem p fun _ => Entry.zero }

/-- The table behind an entry, a new one if there is none. -/
def nextTable (t i : ℕ) : Option ℕ × Tables :=
  if (s.mem t i).entryType = 0 then
    match s.kallocPage with
    | none => (none, s)
    | some (u, s) =>
      let s := s.clear u
      (some u, s.write t i ((s.mem t i).setTable b u))
  else (some (s.mem t i).address, s)

/-- The entry of a page is written. -/
def setPage (t i va pa permissions attr : ℕ) : Tables :=
  let e := { s.mem t i with s2ap := permissions % 4 }
  let e := (e.setAddress b (pa / 2 ^ b.pageShift)).setFlags attr
  s.write t i { e with ng := if va < kernelBase then 1 else 0 }

def mapPage (vm va pa permissions attr : ℕ) : Bool × Tables :=
  if b.pageShift = 16 then
    match s.nextTable b vm (pageRootIndex b va) with
    | (none, s) => (false, s)
    | (some l3, s) => (true, s.setPage b l3 (pageL3Index b va) va pa permissions attr)
  else
    match s.nextTable b vm (pageL1Index b va) with
    | (none, s) => (false, s)
    | (some l2, s) =>
      match s.nextTable b l2 (pageL2Index b va) with
      | (none, s) => (false, s)
      | (some l3, s) => (true, s.setPage b l3 (pageL3Index b va) va pa permissions attr)

/-- The table that has the entry of an address, as far as there are tables. -/
def lastTable (vm va : ℕ) : Option ℕ :=
  if b.pageShift = 16 then (s.mem vm (pageRootIndex b va)).link
  else (s.mem vm (pageL1Index b va)).link.bind fun l2 => (s.mem l2 (pageL2Index b va)).link

/-- `unmap_page`: only the type is cleared. -/
def unmapPage (vm va : ℕ) : Tables :=
  match s.lastTable b vm va with
  | none => s
  | some l3 => s.write l3 (pageL3Index b va) { s.mem l3 (pageL3Index b va) with entryType := 0 }

/-- `get_page_table_entry`: the table and the index of the entry. -/
def getPageTableEntry (vm va : ℕ) : Option (ℕ × ℕ) :=
  (s.lastTable b vm va).bind fun l3 =>
    if (s.mem l3 (pageL3Index b va)).entryType = 0 then none else some (l3, pageL3Index b va)

/-- `resolve_phy_address`. -/
def resolvePhyAddress (vm va : ℕ) : ℕ :=
  match s.lastTable b vm va with
  | none => 0
  | some l3 =>
    if (s.mem l3 (pageL3Index b va)).entryType = 0 then 0
    else (s.mem l3 (pageL3Index b va)).address * 2 ^ b.pageShift ||| va % 2 ^ b.pageShift

/-- `arch_mark_pte_noexec`. -/
def archMarkPteNoexec (vm va : ℕ) : Tables :=
  match s.getPageTableEntry b vm va with
  | none => s
  | some (t, i) => s.write t i { s.mem t i with uxn := 1 }

/-- The loop of `map_pages` over `n` pages. -/
def mapLoop (vm : ℕ) : ℕ → ℕ → ℕ → ℕ → ℕ → Tables → Bool × Tables
  | 0, _, _, _, _, s => (true, s)
  | n + 1, va, pa, permissions, attr, s =>
    match s.mapPage b vm va pa permissions attr with
    | (false, s) => (false, s)
    | (true, s) => mapLoop vm n ((va + b.page) % b.top) (pa + b.page) permissions attr s

/-- How many pages `map_pages` is to map. -/
def pageCount (pstart pend : ℕ) : ℕ := (b.alignUp pend b.page - alignDown pstart b.page) / b.page

def mapPages (vm va pstart pend permissions attr : ℕ) : Bool × Tables :=
  mapLoop b vm (pageCount b pstart pend) (alignDown va b.page) (alignDown pstart b.page) permissions attr s

/-- `unmap_pages`, where `PAGE_SIZE*i` is a number of 32 bits. -/
def unmapPages (vm va pages : ℕ) : Tables :=
  (List.range pages).foldl (fun s i => s.unmapPage b vm ((va + b.page * i % 2 ^ 32) % b.top)) s

/-- How many different pages that are: behind 4 GiB it is the first ones again. -/
def unmapCount (pages : ℕ) : ℕ := min pages (2 ^ 32 / b.page)

/-- `free_page_tables`. -/
def freePageTables (vm : ℕ) : Tables :=
  (List.range (pageRootIndex b kernelBase)).foldl (fun s i =>
    if (s.mem vm i).entryType = 0 then s
    else if b.pageShift = 16 then s.kfreePage scrap (s.mem vm i).address
    else
      let l2 := (s.mem vm i).address
      ((List.range (pageDirNum b)).foldl (fun s j =>
        if (s.mem l2 j).entryType = 0 then s else s.kfreePage scrap (s.mem l2 j).address) s).kfreePage scrap l2) s

/-- `arch_set_proc_vm`: the upper half is the kernel's, and the window of the DMA pool is mapped below. -/
def archSetProcVm (kernelVm dmaBase dmaSize : ℕ) (vm : ℕ) : Tables :=
  let s := s.clear vm
  let s := { s with mem := Function.update s.mem vm fun i =>
    if pageRootIndex b kernelBase ≤ i then s.mem kernelVm i else s.mem vm i }
  (s.mapPages b vm dmaBase dmaBase ((dmaBase + dmaSize) % b.top) 0 5).2

/-! ### `dl_window_protect` -/

/-- `DL_WINDOW_END` and `DL_WINDOW_BASE`, counted down from `KERNEL_BASE`. -/
def dlWindowEnd : ℕ := kernelBase - b.page - 64 * 2 ^ 20 - 256 * 2 ^ 20 - 512 * 2 ^ 20 - 64 * 2 ^ 20

def dlWindowBase : ℕ := dlWindowEnd b - 256 * 2 ^ 20

/-- `dl_prot_to_ap`. -/
def dlProtToAp (prot : ℕ) : ℕ := if prot.testBit 1 then 1 else if prot.testBit 0 then 3 else 0

/-- `dl_prot_ok`. -/
def dlProtOk (prot : ℕ) : Bool := decide (prot < 8) && !(prot.testBit 1 && !prot.testBit 0)

/-- `dl_range_ok`, with the end of the range. -/
def dlRangeOk (va size : ℕ) : Option ℕ :=
  if size = 0 then none
  else if va % b.page ≠ 0 then none
  else
    let end' := (va + size) % b.top
    if end' < va then none
    else if va < dlWindowBase b ∨ dlWindowEnd b < end' then none
    else some end'

/-- The pages of a range. -/
def rangePages (va end' : ℕ) : List ℕ :=
  (List.range ((end' - va + (b.page - 1)) / b.page)).map fun k => va + b.page * k

/-- One page gets new permissions. -/
def protectPage (vm prot : ℕ) (s : Tables) (v : ℕ) : Tables :=
  let phy := s.resolvePhyAddress b vm v
  let s := (s.mapPage b vm v phy (dlProtToAp prot) 0).2
  if prot.testBit 2 then s else s.archMarkPteNoexec b vm v

def dlWindowProtect (vm va size prot : ℕ) : Bool × Tables :=
  if dlProtOk prot = false then (false, s)
  else
    match dlRangeOk b va size with
    | none => (false, s)
    | some end' =>
      if (rangePages b va end').any fun v => decide (s.resolvePhyAddress b vm v = 0) then (false, s)
      else (true, (rangePages b va end').foldl (fun s v => protectPage b vm prot s v) s)

end Tables

/-! ### The spaces of a machine -/

/-- What a board fixes: the page directory of the kernel, the window of the DMA pool, the pages there are, and
    how a pointer of the free list looks as an entry. -/
structure Board (b : Build) where
  kernelVm : ℕ
  dmaBase : ℕ
  dmaSize : ℕ
  pages : List ℕ
  scrap : Option ℕ → Entry
  wide : b.addrBits = 64
  dma_low : dmaBase + dmaSize ≤ kernelBase
  nodup : pages.Nodup
  small : ∀ p ∈ pages, p < 2 ^ (48 - b.pageShift)
  apart : kernelVm ∉ pages

/-- The tables, the page directories in use, the pages the rest of the kernel holds, and what the last call
    returned. -/
structure Machine where
  tables : Tables
  live : List ℕ
  taken : List ℕ
  ret : Bool

inductive Op where
  | newVm (vm : ℕ)
  | mapPages (vm va pstart pend permissions attr : ℕ)
  | unmapPages (vm va pages : ℕ)
  | protect (vm va size prot : ℕ)
  | freeVm (vm : ℕ)
  | take
  | give (p : ℕ)
  | store (t i : ℕ) (e : Entry)

namespace Machine
variable {b : Build} (w : Board b) (s : Machine)

/-- A page directory comes into use when it is not, and out of use when its tables are given back; the rest of
    the kernel takes and gives pages, and writes those it holds, the shared half of a directory, and memory that
    is no page of the pool. -/
def step (s : Machine) : Op → Option Machine
  | .newVm vm =>
    if vm ∈ s.live ∨ vm ∈ w.pages then none
    else some { s with tables := s.tables.archSetProcVm b w.kernelVm w.dmaBase w.dmaSize vm, live := vm :: s.live }
  | .mapPages vm va pstart pend permissions attr =>
    if vm ∈ s.live then
      let r := s.tables.mapPages b vm va pstart pend permissions attr
      some { s with tables := r.2, ret := r.1 }
    else none
  | .unmapPages vm va pages =>
    if vm ∈ s.live then some { s with tables := s.tables.unmapPages b vm va pages } else none
  | .protect vm va size prot =>
    if vm ∈ s.live then
      let r := s.tables.dlWindowProtect b vm va size prot
      some { s with tables := r.2, ret := r.1 }
    else none
  | .freeVm vm =>
    if vm ∈ s.live ∧ vm ≠ w.kernelVm then
      some { s with tables := s.tables.freePageTables b w.scrap vm, live := s.live.erase vm }
    else none
  | .take => s.tables.kallocPage.map fun r => { s with tables := r.2, taken := r.1 :: s.taken }
  | .give p =>
    if p ∈ s.taken then some { s with tables := s.tables.kfreePage w.scrap p, taken := s.taken.erase p } else none
  | .store t i e =>
    if t ∈ s.taken ∨ t ∉ w.pages ∧ (t ∉ s.live ∨ pageRootIndex b kernelBase ≤ i) then
      some { s with tables := s.tables.write t i e }
    else none

/-- The pages mapped and unmapped are of the user half. -/
def Low : Op → Prop
  | .mapPages _ va pstart pend _ _ => alignDown va b.page + b.page * Tables.pageCount b pstart pend ≤ kernelBase
  | .unmapPages _ va pages => va + b.page * Tables.unmapCount b pages ≤ kernelBase
  | _ => True

/-- Boot: the directory of the kernel, with nothing in its lower half. -/
def Boot (s : Machine) : Prop :=
  s.live = [w.kernelVm] ∧ s.taken = [] ∧ s.tables.free = w.pages ∧
    ∀ i < pageRootIndex b kernelBase, s.tables.mem w.kernelVm i = Entry.zero

end Machine

end EwokOS.Memory.Mmu
