import EwokOS.Memory.Build
import EwokOS.Schemes.Bytes
import Mathlib.Logic.Function.Basic

/-! Loading a program image (`proc_load_elf` of `proc.c`, the macros of `elf.h`).

    The image lies in a segment of shared memory; `byte` is what is found from its address on, and the
    first `size` bytes are the image's own. The loader gives the process a heap that starts at 0 and
    copies the segments into it, a page at a time through the kernel's alias of the frame:

        heap   |......|VVVVVV|VV00000|         V = bytes of the file, up to filesz
               0      vaddr         heap_size  0 = zeroed, up to memsz

    Pages and frames go by their number; a page that is not mapped resolves to physical zero, whatever
    the offset into the page. A page's table is there, or `map_page` finds memory for it (`tables`); a
    frame that is unmapped goes back to `kalloc` with its last reference, a hole is not counted.

    Ghosts: the bytes of the image that were read, by offset and length, and every store with the heap
    size it met and whether its page was mapped. -/

namespace EwokOS.Memory

open Schemes (put ofLe)

/-- Where a class of ELF files keeps its fields: offset and length. -/
structure Form where
  phoff : ℕ × ℕ
  phnum : ℕ × ℕ
  entry : ℕ × ℕ
  phsize : ℕ
  off : ℕ × ℕ
  vaddr : ℕ × ℕ
  filesz : ℕ × ℕ
  memsz : ℕ × ℕ
  flags : ℕ × ℕ

/-- `struct elf_header` and `struct elf_program_header`. -/
def form32 : Form := ⟨(28, 4), (44, 2), (24, 4), 32, (4, 4), (8, 4), (16, 4), (20, 4), (24, 4)⟩

/-- `struct elf64_header` and `struct elf64_program_header`. -/
def form64 : Form := ⟨(32, 8), (56, 2), (24, 8), 56, (8, 8), (16, 8), (32, 8), (40, 8), (4, 4)⟩

structure Image where
  byte : ℕ → UInt8
  size : ℕ
  lt : size < 2 ^ 32

namespace Image
variable (b : Build) (img : Image)

/-- A field of the image; addresses wrap. -/
def read (r : ℕ × ℕ) : ℕ := ofLe ((List.range r.2).map fun j => img.byte ((r.1 + j) % b.top))

/-- `ELF_CLASS` is `ELFCLASS_32`, or anything else. -/
def form : Form := if img.read b (4, 1) = 1 then form32 else form64

/-- `ELF_TYPE`. -/
def type : ℕ := img.read b (16, 2)

/-- `ELF_PHNUM`. -/
def phnum : ℕ := img.read b (img.form b).phnum

/-- `ELF_PHEAD`, as an offset into the image. -/
def phead (i : ℕ) : ℕ := img.read b (img.form b).phoff + (img.form b).phsize * i

/-- Where a field of program header `i` lies. -/
def spot (i : ℕ) (f : ℕ × ℕ) : ℕ × ℕ := ((img.phead b i + f.1) % b.top, f.2)

/-- A field of program header `i`. -/
def field (i : ℕ) (f : ℕ × ℕ) : ℕ := img.read b (img.spot b i f)

/-- `ELF_PVADDR`, `ELF_PSIZE`, `ELF_PFILESZ`, `ELF_POFFSET` and `ELF_PFLAGS`, kept as `uint32_t`. -/
def vaddr (i : ℕ) : ℕ := img.field b i (img.form b).vaddr % 2 ^ 32
def memsz (i : ℕ) : ℕ := img.field b i (img.form b).memsz % 2 ^ 32
def filesz (i : ℕ) : ℕ := img.field b i (img.form b).filesz % 2 ^ 32
def off (i : ℕ) : ℕ := img.field b i (img.form b).off % 2 ^ 32
def flags (i : ℕ) : ℕ := img.field b i (img.form b).flags % 2 ^ 32

/-- What the macros read for program header `i`. -/
def headReads (i : ℕ) : List (ℕ × ℕ) :=
  (4, 1) :: (img.form b).phoff :: [(img.form b).vaddr, (img.form b).memsz, (img.form b).filesz,
    (img.form b).off, (img.form b).flags].map (img.spot b i)

/-- The bytes of segment `i` the image has. -/
def copySize (i : ℕ) : ℕ :=
  if img.off b i < img.size then min (img.filesz b i) (img.size - img.off b i) else 0

/-- Where they start. -/
def source (i : ℕ) : ℕ := if img.off b i < img.size then img.off b i else 0

/-- `need_heap_size`. -/
def need (i : ℕ) : ℕ := b.alignUp (img.vaddr b i + img.memsz b i) b.page

end Image

/-- Where the DMA window lies, and which pages have a table or can get one. -/
structure Machine where
  dmaBase : ℕ
  tables : ℕ → Bool

structure Store where
  vaddr : ℕ
  len : ℕ
  heap : ℕ
  mapped : Bool
  deriving DecidableEq, Repr

/-- `proc_space_t` and what the loader sets in `proc_t`, with the pages of `kalloc`. -/
structure Load where
  heap : ℕ
  rwBase : ℕ
  mallocBase : ℕ
  pc : ℕ
  vm : ℕ → Option (ℕ × Bool)
  refs : ℕ → ℕ
  free : List ℕ
  mem : ℕ → ℕ → UInt8
  reads : List (ℕ × ℕ)
  stores : List Store

namespace Load
variable (b : Build) (k : Machine) (img : Image) (s : Load)

/-! ### Pages -/

/-- `map_page`; `ro` is `AP_RW_R`. -/
def mapPage (p f : ℕ) (ro : Bool) : Load :=
  if k.tables p then { s with vm := Function.update s.vm p (some (f, ro)) } else s

/-- `map_page_ref`. -/
def mapPageRef (p f : ℕ) : Load :=
  if k.tables p then { s.mapPage k p f false with refs := Function.update s.refs f (s.refs f + 1) }
  else s

/-- `unmap_page_ref`. -/
def unmapPageRef (p : ℕ) : Load :=
  match s.vm p with
  | none => s
  | some (f, _) =>
    let r := s.refs f - 1
    { s with
      refs := Function.update s.refs f r
      free := if r = 0 then f :: s.free else s.free
      vm := Function.update s.vm p none }

/-- `proc_shrink_mem`. -/
def shrinkMem : ℕ → Load → Load
  | 0, s => s
  | n + 1, s =>
    let s := { s.unmapPageRef ((s.heap - b.page) / b.page) with heap := s.heap - b.page }
    if s.heap = 0 then s else shrinkMem n s

/-- The loop of `proc_expand_mem` from page `i` on. -/
def expandFrom : ℕ → ℕ → Load → Bool × Load
  | 0, _, s => (true, s)
  | n + 1, i, s =>
    match s.free with
    | [] => (false, s.shrinkMem b i)
    | f :: l =>
      let s := { s with free := l, mem := Function.update s.mem f fun _ => 0 }
      expandFrom n (i + 1) { s.mapPageRef k (s.heap / b.page) f with heap := s.heap + b.page }

/-- `proc_expand_mem`. -/
def expandMem (n : ℕ) : Bool × Load :=
  if 4 * 2 ^ 30 < k.dmaBase ∧ k.dmaBase < s.heap + n * b.page then (false, s)
  else s.expandFrom b k n 0

/-- `proc_free_heap`. -/
def freeHeap : Load := s.shrinkMem b (s.heap / b.page)

/-! ### Segments -/

/-- `resolve_kernel_address`: the frame and the offset into it. -/
def resolveKernelAddress (v : ℕ) : ℕ × ℕ :=
  match s.vm (v / b.page) with
  | some e => (e.1, v % b.page)
  | none => (0, 0)

/-- Bytes are stored at `v` through the kernel's alias, all in one page. -/
def store (v : ℕ) (l : List UInt8) : Load :=
  let r := s.resolveKernelAddress b v
  { s with
    mem := Function.update s.mem r.1 (put (s.mem r.1) r.2 l)
    stores := ⟨v, l.length, s.heap, (s.vm (v / b.page)).isSome⟩ :: s.stores }

/-- The image is read. -/
def note (l : List (ℕ × ℕ)) : Load := { s with reads := l ++ s.reads }

/-- How much of `stop - copied` bytes fits behind `v` in its page. -/
def chunkSize (v copied stop : ℕ) : ℕ := min (b.page - v % b.page) (stop - copied)

/-- A chunk is stored: `memcpy` from an offset of the image, or `memset`. -/
def fillChunk (src : Option ℕ) (v copied chunk : ℕ) : Load :=
  match src with
  | some o => (s.note [(o + copied, chunk)]).store b v
      ((List.range chunk).map fun j => img.byte (o + copied + j))
  | none => s.store b v (List.replicate chunk 0)

/-- The loops of `proc_load_segment` from `copied` to `stop`, in no more than `stop - copied` rounds. -/
def fillFrom (vaddr : ℕ) (src : Option ℕ) (stop : ℕ) : ℕ → ℕ → Load → Load
  | 0, _, s => s
  | n + 1, copied, s =>
    if copied < stop then
      let v := (vaddr + copied) % 2 ^ 32
      let chunk := chunkSize b v copied stop
      fillFrom vaddr src stop n (copied + chunk) (s.fillChunk b img src v copied chunk)
    else s

/-- `proc_load_segment`; the first loop ends at `filesz`. -/
def loadSegment (vaddr src filesz memsz : ℕ) : Load :=
  (s.fillFrom b img vaddr (some src) filesz filesz 0).fillFrom b img vaddr none memsz (memsz - filesz)
    filesz

/-- `rw_heap_base` is the lowest address of a writable segment. -/
def lower (vaddr : ℕ) : Load :=
  if s.rwBase = 0 ∨ vaddr < s.rwBase then { s with rwBase := vaddr } else s

/-- The pages from `p` on are mapped again, read-only. -/
def remap : ℕ → ℕ → Load → Load
  | 0, _, s => s
  | n + 1, p, s => remap n (p + 1) (s.mapPage k p (((s.vm p).map Prod.fst).getD 0) true)

/-- The heap grows for segment `i`. -/
def makeRoom (i : ℕ) : Bool × Load :=
  if s.heap < img.need b i then s.expandMem b k ((img.need b i - s.heap) / b.page) else (true, s)

/-- The loop of `proc_load_elf` from program header `i` on. -/
def loadFrom : ℕ → ℕ → Load → Bool × Load
  | 0, _, s => (true, s)
  | n + 1, i, s =>
    let s := s.note (img.headReads b i)
    let rdonly := !(img.flags b i).testBit 1
    let s := if rdonly then s else s.lower (img.vaddr b i)
    match s.makeRoom b k img i with
    | (false, s) => (false, s)
    | (true, t) =>
      let t := t.loadSegment b img (img.vaddr b i) (img.source b i) (img.copySize b i) (img.memsz b i)
      let t := if rdonly then t.remap k ((t.heap - s.heap) / b.page) (s.heap / b.page) else t
      loadFrom n (i + 1) t

/-- `proc_load_elf`, with the image mapped. -/
def procLoadElf : Bool × Load :=
  let s := { s.freeHeap b with rwBase := 0 }
  let s := s.note [(16, 2)]
  if img.type b ≠ 2 then (false, s)
  else
    let s := s.note [(4, 1), (img.form b).phnum]
    match s.loadFrom b k img (img.phnum b) 0 with
    | (false, s) => (false, s)
    | (true, s) =>
      let s := s.note [(4, 1), (img.form b).entry]
      (true, { s with
        rwBase := max s.rwBase 0x400
        mallocBase := s.heap
        pc := img.read b (img.form b).entry % b.top })

end Load
end EwokOS.Memory
