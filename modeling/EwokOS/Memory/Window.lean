import EwokOS.Memory.Build
import EwokOS.Schemes.Counted
import EwokOS.Schemes.Run

/-! The anonymous mapping window of a process space (`mm/mmu.c`).

    The window is cut into slots of 64K with a bitmap over them; a slot is a few pages, each mapped to
    a frame of its own. Page frames go by their `page_ref_index`. A process space is modelled as far as
    the window reaches: the entries of its page table and its bitmap.

        slot      0        1        2                used: ■ □ ■
        pages  |f f f f|        |f   f f|            holes are allowed, used or not

    `map_page` may have to take pages for page tables first; how many is up to the call (`need`). It
    fails when there are not enough, and keeps the ones it got (`tables`). Frames that the rest of the
    kernel holds are `outside`. The bitmap is walked slot by slot; skipping a byte of zeroes does what
    eight unused slots do. -/

namespace EwokOS.Memory

/-- The access permissions of an entry. -/
inductive Ap where
  | rwRw
  | rwR
  | rwD
  deriving DecidableEq, Repr

/-- `page_table_entry_t`: the frame behind a page, `S2AP` and the opposite of `UXN`. -/
structure Pte where
  frame : ℕ
  ap : Ap
  exec : Bool
  deriving DecidableEq, Repr

/-- `proc_space_t`. -/
@[ext]
structure Space where
  pt : ℕ → Option Pte
  used : ℕ → Bool

/-- Where the window lies, whether the target can mark pages execute-never, how many frames are
    counted and the index that a hole would have. -/
structure Window (b : Build) where
  base : ℕ
  pos : 0 < base
  dvd : 64 * 1024 ∣ base
  lt : base + 256 * 2 ^ 20 < b.top
  noexec : Bool
  max : ℕ
  hole : ℕ

structure Dl where
  spaces : ℕ → Space
  count : ℕ
  free : List ℕ
  refs : ℕ → ℕ
  tables : List ℕ
  outside : List ℕ

namespace Dl

/-- `DL_WINDOW_SLOT`. -/
def slotSize : ℕ := 64 * 1024

/-- `DL_WINDOW_SIZE`. -/
def windowSize : ℕ := 256 * 2 ^ 20

/-- `DL_WINDOW_SLOTS`. -/
def slots : ℕ := windowSize / slotSize

variable {b : Build} (w : Window b) (s : Dl)

/-- `DL_WINDOW_PAGES_PER_SLOT`. -/
def pagesPerSlot (b : Build) : ℕ := slotSize / b.page

/-- `get_page_table_entry`. -/
def pte (i v : ℕ) : Option Pte := (s.spaces i).pt v

/-- A process space is changed. -/
def modSpace (i : ℕ) (f : Space → Space) : Dl :=
  { s with spaces := Function.update s.spaces i (f (s.spaces i)) }

def setPte (i v : ℕ) (e : Option Pte) : Dl :=
  s.modSpace i fun sp => { sp with pt := Function.update sp.pt v e }

/-- `dl_slot_mark`. -/
def slotMark (i slot : ℕ) (used : Bool) : Dl :=
  s.modSpace i fun sp => { sp with used := Function.update sp.used slot used }

/-! ### Pages -/

/-- `kalloc_page`. -/
def kallocPage : Option (ℕ × Dl) :=
  match s.free with
  | [] => none
  | f :: l => some (f, { s with free := l })

/-- `kfree_page`. -/
def kfreePage (f : ℕ) : Dl := { s with free := f :: s.free }

/-- `map_page`, which first takes `need` pages for page tables; entries come executable. -/
def mapPage (i v f : ℕ) (ap : Ap) (need : ℕ) : Bool × Dl :=
  if s.free.length < need then (false, { s with free := [], tables := s.free ++ s.tables })
  else
    let s := { s with free := s.free.drop need, tables := s.free.take need ++ s.tables }
    (true, s.setPte i v (some ⟨f, ap, true⟩))

/-- `map_page_ref`. -/
def mapPageRef (i v f : ℕ) (ap : Ap) (need : ℕ) : Bool × Dl :=
  match s.mapPage i v f ap need with
  | (false, s) => (false, s)
  | (true, s) => (true, if f < w.max then { s with refs := Function.update s.refs f (s.refs f + 1) } else s)

/-- `unmap_page_ref`. -/
def unmapPageRef (i v : ℕ) : Dl :=
  let f := ((s.pte i v).map Pte.frame).getD w.hole
  let s := if f < w.max then
      let s := { s with refs := Function.update s.refs f (s.refs f - 1) }
      if s.refs f = 0 then s.kfreePage f else s
    else s
  s.setPte i v none

/-- `arch_mark_pte_noexec`. -/
def markNoexec (i v : ℕ) : Dl :=
  if w.noexec then s.setPte i v ((s.pte i v).map fun e => { e with exec := false }) else s

/-- `dl_prot_to_ap`: bit 0 is read, bit 1 write, bit 2 execute. -/
def protToAp (prot : ℕ) : Ap :=
  if prot.testBit 1 then .rwRw else if prot.testBit 0 then .rwR else .rwD

/-- `dl_prot_ok`. -/
def protOk (prot : ℕ) : Bool := prot < 8 && (!prot.testBit 1 || prot.testBit 0)

/-- `dl_range_ok`. -/
def rangeOk (vaddr size : ℕ) : Bool :=
  let stop := (vaddr + size) % b.top
  size ≠ 0 ∧ vaddr % b.page = 0 ∧ vaddr ≤ stop ∧ w.base ≤ vaddr ∧ stop ≤ w.base + windowSize

/-- `dl_map_page`. -/
def mapOne (i v f prot need : ℕ) : Bool × Dl :=
  match s.mapPageRef w i v f (protToAp prot) need with
  | (false, s) => (false, s)
  | (true, s) => (true, if prot.testBit 2 then s else s.markNoexec w i v)

/-! ### The calls -/

/-- How many slots from `i` on are unused, of `n`. -/
def runLen (used : ℕ → Bool) : ℕ → ℕ → ℕ
  | 0, _ => 0
  | n + 1, i => if used i then 0 else runLen used n (i + 1) + 1

/-- First fit over the bitmap: on a miss, past the slot that broke the run. -/
def findFrom (used : ℕ → Bool) (n : ℕ) : ℕ → ℕ → Option ℕ
  | 0, _ => none
  | k + 1, i =>
    if slots < i + n then none
    else if runLen used n i = n then some i
    else findFrom used n k (i + runLen used n i + 1)

/-- The loop of `dl_window_alloc` that fills `n` pages from page `p` on; comes back with the pages it
    has filled. -/
def mapFrom (i vaddr prot : ℕ) (need : ℕ → ℕ) : ℕ → ℕ → Dl → Bool × ℕ × Dl
  | 0, p, s => (true, p, s)
  | n + 1, p, s =>
    match s.kallocPage with
    | none => (false, p, s)
    | some (f, s) =>
      match s.mapOne w i (vaddr + p * b.page) f prot (need (vaddr + p * b.page)) with
      | (false, s) => (false, p, s.kfreePage f)
      | (true, s) => mapFrom i vaddr prot need n (p + 1) s

/-- The slots that hold `size` bytes. -/
def slotsFor (size : ℕ) : ℕ := (size + slotSize - 1) / slotSize

/-- `dl_window_alloc` once it has found its slots. -/
def allocAt (i start n prot : ℕ) (need : ℕ → ℕ) : ℕ × Dl :=
  let vaddr := w.base + start * slotSize
  match mapFrom w i vaddr prot need (n * pagesPerSlot b) 0 s with
  | (true, _, s) => (vaddr, (List.range n).foldl (fun s k => s.slotMark i (start + k) true) s)
  | (false, p, s) => (0, (List.range p).foldl (fun s k => s.unmapPageRef w i (vaddr + k * b.page)) s)

/-- `dl_window_alloc`. -/
def windowAlloc (i size prot : ℕ) (need : ℕ → ℕ) : ℕ × Dl :=
  if protOk prot = false ∨ size = 0 ∨ windowSize < size then (0, s)
  else
    match findFrom (s.spaces i).used (slotsFor size) (slots + 1) 0 with
    | none => (0, s)
    | some start => s.allocAt w i start (slotsFor size) prot need

/-- The pages from `vaddr` on that begin before `vaddr + size`. -/
def pagesIn (b : Build) (vaddr size : ℕ) : List ℕ :=
  (List.range ((size + b.page - 1) / b.page)).map fun k => vaddr + k * b.page

/-- A mapped page gets new permissions. -/
def remap (i prot v : ℕ) : Dl :=
  match s.pte i v with
  | none => s
  | some e =>
    let s := s.setPte i v (some ⟨e.frame, protToAp prot, true⟩)
    if prot.testBit 2 then s else s.markNoexec w i v

/-- `dl_window_protect`. -/
def windowProtect (i vaddr size prot : ℕ) : Bool × Dl :=
  if protOk prot = false ∨ rangeOk w vaddr size = false then (false, s)
  else if (pagesIn b vaddr size).any fun v => (s.pte i v).isNone then (false, s)
  else (true, (pagesIn b vaddr size).foldl (fun s v => s.remap w i prot v) s)

/-- Unmaps the pages that are mapped. -/
def unmapRange (i : ℕ) (vs : List ℕ) : Dl :=
  vs.foldl (fun s v => if (s.pte i v).isSome then s.unmapPageRef w i v else s) s

/-- Whether `[vaddr, stop)` covers a slot whole. -/
def covers (vaddr stop slot : ℕ) : Bool :=
  vaddr ≤ w.base + slot * slotSize ∧ w.base + slot * slotSize + slotSize ≤ stop

/-- `dl_window_free`. -/
def windowFree (i vaddr size : ℕ) : Bool × Dl :=
  if rangeOk w vaddr size = false then (false, s)
  else
    let stop := vaddr + size
    let touched := (List.range slots).filter fun slot =>
      (vaddr - w.base) / slotSize ≤ slot ∧ w.base + slot * slotSize < stop
    (true, touched.foldl (fun s slot => if covers w vaddr stop slot then s.slotMark i slot false else s)
      (s.unmapRange w i (pagesIn b vaddr size)))

/-- The pages of a slot. -/
def pagesOf (slot : ℕ) : List ℕ :=
  (List.range (pagesPerSlot b)).map fun p => w.base + slot * slotSize + p * b.page

/-- `dl_window_release`. -/
def windowRelease (i : ℕ) : Dl :=
  (List.range slots).foldl (fun s slot =>
    if (s.spaces i).used slot then (s.unmapRange w i (pagesOf w slot)).slotMark i slot false else s) s

/-- `arch_clone_pte_prot`. -/
def clonePteProt (dst v f : ℕ) (e : Pte) (need : ℕ) : Bool × Dl :=
  match s.mapPageRef w dst v f e.ap need with
  | (false, s) => (false, s)
  | (true, s) => (true, if e.exec then s else s.markNoexec w dst v)

/-- The loop of `dl_window_clone` over the pages of a slot. -/
def clonePages (dst src : ℕ) (need : ℕ → ℕ) : List ℕ → Dl → Bool × Dl
  | [], s => (true, s)
  | v :: vs, s =>
    match s.pte src v with
    | none => clonePages dst src need vs s
    | some e =>
      match s.kallocPage with
      | none => (false, s)
      | some (f, s) =>
        match s.clonePteProt w dst v f e (need v) with
        | (false, s) => (false, s.kfreePage f)
        | (true, s) => clonePages dst src need vs s

/-- The loop of `dl_window_clone` over the slots. -/
def cloneSlots (dst src : ℕ) (need : ℕ → ℕ) : List ℕ → Dl → Bool × Dl
  | [], s => (true, s)
  | slot :: l, s =>
    if (s.spaces src).used slot then
      match clonePages w dst src need (pagesOf w slot) s with
      | (false, s) => (false, s)
      | (true, s) => cloneSlots dst src need l (s.slotMark dst slot true)
    else cloneSlots dst src need l s

/-- `dl_window_clone`, given the slots to walk. -/
def cloneOver (dst src : ℕ) (need : ℕ → ℕ) (l : List ℕ) : Bool × Dl :=
  match cloneSlots w dst src need l s with
  | (false, s) => (false, s.windowRelease w dst)
  | (true, s) => (true, s)

/-- `dl_window_clone`. -/
def windowClone (dst src : ℕ) (need : ℕ → ℕ) : Bool × Dl := s.cloneOver w dst src need (List.range slots)

/-! ### Runs -/

/-- The calls, a new space, and the rest of the kernel taking and giving back pages. A clone fills a
    new space, as `fork` does. -/
inductive Op where
  | alloc (i size prot : ℕ) (need : ℕ → ℕ)
  | protect (i vaddr size prot : ℕ)
  | free (i vaddr size : ℕ)
  | clone (src : ℕ) (need : ℕ → ℕ)
  | release (i : ℕ)
  | spawn
  | take
  | give (f : ℕ)

def step : Op → Option Dl
  | .alloc i size prot need => if i < s.count then
      some (s.windowAlloc w i (size % 2 ^ 32) (prot % 2 ^ 32) need).2 else none
  | .protect i vaddr size prot => if i < s.count then
      some (s.windowProtect w i (vaddr % b.top) (size % 2 ^ 32) (prot % 2 ^ 32)).2 else none
  | .free i vaddr size => if i < s.count then
      some (s.windowFree w i (vaddr % b.top) (size % 2 ^ 32)).2 else none
  | .clone src need => if src < s.count then
      some (({ s with count := s.count + 1 } : Dl).windowClone w s.count src need).2 else none
  | .release i => if i < s.count then some (s.windowRelease w i) else none
  | .spawn => some { s with count := s.count + 1 }
  | .take =>
    match s.free with
    | [] => some s
    | f :: l => some { s with free := l, outside := f :: s.outside }
  | .give f => if f ∈ s.outside then
      some { s with free := f :: s.free, outside := s.outside.erase f } else none

end Dl

/-- No page is mapped and no frame counted. -/
def Dl.boot (frames : List ℕ) : Dl :=
  ⟨fun _ => ⟨fun _ => none, fun _ => false⟩, 0, frames, fun _ => 0, [], []⟩

end EwokOS.Memory
