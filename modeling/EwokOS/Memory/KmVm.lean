import EwokOS.Memory.Build
import EwokOS.Schemes.Run
import EwokOS.Schemes.Tiling
import Mathlib.Algebra.BigOperators.Group.Finset.Basic
import Mathlib.Algebra.Order.BigOperators.Group.Finset
import Mathlib.Data.Int.Notation

/-! The kernel's own virtual blocks (`mm/kmalloc_vm.c`).

    A list of blocks stands for the window from its base up to a tail; a request takes the first free
    block that is large enough and cuts it, or appends a block at the tail. Only then its pages are
    mapped, one `kalloc_page` at a time:

        blocks:  [U 2][F 1][U 3]|                 the tail moves when the new block is mapped;
                                ▲ tail            when that fails the block stays in the list

    Frames go by their physical address; a page that is not mapped resolves to frame 0. How many pages
    `map_page` needs for tables is up to the call (`need`), and it maps nothing when they are not
    there; whether `kmalloc` has a list node is up to the call too. -/

namespace EwokOS.Memory

/-- `km_vm_t`. -/
structure VmBlock where
  addr : ℕ
  pages : ℕ
  used : Bool
  deriving DecidableEq, Repr

/-- `KMALLOC_VM_BASE`. -/
structure VmBase (b : Build) where
  base : ℕ
  pos : 0 < base
  dvd : b.page ∣ base
  lt : base + 64 * 2 ^ 20 < b.top

/-- The list with `km_vm_mem_tail`, the page directories and the page list of `kalloc`. -/
structure KmVm where
  blocks : List VmBlock
  tail : ℕ
  vm : ℕ → ℕ → Option ℕ
  free : List ℕ

namespace KmVm

open Schemes (cutFirst cutFirst_some cutFirst_none Apart Tiles tiles_append Reach Free)

/-- `KMALLOC_VM_SIZE`. -/
def windowSize : ℕ := 64 * 2 ^ 20

variable {b : Build} (w : VmBase b) (s : KmVm)

/-! ### Pages -/

def setPage (d v : ℕ) (f : Option ℕ) : KmVm :=
  { s with vm := Function.update s.vm d (Function.update (s.vm d) v f) }

/-- `map_page`, which first takes `need` pages for page tables. -/
def mapPage (d v f need : ℕ) : KmVm :=
  if s.free.length < need then { s with free := [] }
  else { s with free := s.free.drop need }.setPage d v (some f)

/-- `km_vm_unmap_pages`. -/
def unmapPages (b : Build) (d addr n : ℕ) : KmVm :=
  (List.range n).foldl (fun s i =>
    let v := (addr + i * b.page) % b.top
    { s with free := (s.vm d v).getD 0 :: s.free }.setPage d v none) s

/-- `km_vm_map_pages` from page `i` on. -/
def mapFrom (b : Build) (d addr : ℕ) (need : ℕ → ℕ) : ℕ → ℕ → KmVm → Bool × KmVm
  | 0, _, s => (true, s)
  | n + 1, i, s =>
    match s.free with
    | [] => (false, s.unmapPages b d addr i)
    | f :: l =>
      mapFrom b d addr need n (i + 1)
        ({ s with free := l }.mapPage d ((addr + i * b.page) % b.top) f (need i))

/-! ### Allocation -/

/-- The bytes `kmalloc_vm` rounds a size to. -/
def bytesFor (b : Build) (size : ℕ) : ℕ := b.alignUp size b.page % 2 ^ 32

/-- The pages it takes for them. -/
def pagesFor (b : Build) (size : ℕ) : ℕ := bytesFor b size / b.page + 1

/-- What it searches for. -/
def fits (pages : ℕ) (g : VmBlock) : Bool := !g.used && decide (pages ≤ g.pages)

/-- A reused block and what is cut off it. -/
def split (b : Build) (pages : ℕ) (node : Bool) (g : VmBlock) : VmBlock × List VmBlock :=
  if pages < g.pages ∧ node = true then
    ({ g with pages := pages },
      [⟨(g.addr + pages * b.page % 2 ^ 32) % b.top, g.pages - pages, false⟩])
  else (g, [])

/-- `kmalloc_vm` once it has its block, which stands between `pre` and `post`. -/
def commit (b : Build) (d : ℕ) (pre : List VmBlock) (g : VmBlock) (post : List VmBlock)
    (need : ℕ → ℕ) : Option ℕ × KmVm :=
  match mapFrom b d g.addr need g.pages 0 s with
  | (false, s) => (none, { s with blocks := pre ++ g :: post })
  | (true, s) =>
    (some g.addr, { s with
      blocks := pre ++ { g with used := true } :: post
      tail := if g.addr = s.tail then (s.tail + g.pages * b.page % 2 ^ 32) % b.top else s.tail })

/-- `kmalloc_vm`; `node` is whether there is a list node to be had. -/
def kmallocVm (d size : ℕ) (node : Bool) (need : ℕ → ℕ) : Option ℕ × KmVm :=
  match cutFirst (fits (pagesFor b size)) s.blocks with
  | some (pre, g, post) =>
    let c := split b (pagesFor b size) node g
    s.commit b d pre c.1 (c.2 ++ post) need
  | none =>
    if w.base + windowSize ≤ (s.tail + bytesFor b size) % b.top ∨ node = false then (none, s)
    else s.commit b d s.blocks ⟨s.tail, pagesFor b size, false⟩ [] need

/-! ### Freeing -/

/-- The first half of `free_item`: a free block takes in the one after it. -/
def mergeRight (g : VmBlock) : List VmBlock → VmBlock × List VmBlock
  | [] => (g, [])
  | p :: l => if p.used = false then ({ g with pages := g.pages + p.pages }, l) else (g, p :: l)

/-- The second half: the block before it takes in a free block. -/
def mergeLeft (pre : List VmBlock) (g : VmBlock) : List VmBlock :=
  match pre.getLast? with
  | none => [g]
  | some q =>
    if q.used = false then pre.dropLast ++ [{ q with pages := q.pages + g.pages }] else pre ++ [g]

/-- `free_item` on a block between `pre` and `post`. -/
def freeItem (pre : List VmBlock) (g : VmBlock) (post : List VmBlock) : List VmBlock :=
  let r := mergeRight { g with used := false } post
  mergeLeft pre r.1 ++ r.2

/-- `kfree_vm`. -/
def kfreeVm (b : Build) (d p : ℕ) : KmVm :=
  match cutFirst (fun g => g.used && decide (g.addr = p)) s.blocks with
  | none => s
  | some (pre, g, post) => { s.unmapPages b d g.addr g.pages with blocks := freeItem pre g post }

/-! ### Runs -/

/-- A call of `kmalloc_vm` or of `kfree_vm`, or the rest of the kernel takes and gives back pages. -/
inductive Op where
  | alloc (d size : ℕ) (node : Bool) (need : ℕ → ℕ)
  | free (d p : ℕ)
  | pages (l : List ℕ)

def step (w : VmBase b) (s : KmVm) : Op → Option KmVm
  | .alloc d size node need => if size < 2 ^ 32 then some (s.kmallocVm w d size node need).2 else none
  | .free d p => some (s.kfreeVm b d p)
  | .pages l => some { s with free := l }

/-- `kmalloc_vm_init`. -/
def start (w : VmBase b) (vm : ℕ → ℕ → Option ℕ) (free : List ℕ) : KmVm :=
  ⟨[], b.alignUp w.base b.page, vm, free⟩

/-! ### What a call promises -/

/-- The bytes of a block. -/
def bytes (b : Build) (g : VmBlock) : ℕ := g.pages * b.page

/-- The addresses there are for later calls: those of free blocks, and the rest of the window. -/
def avail (w : VmBase b) (s : KmVm) : Set ℕ :=
  {a | (∃ g ∈ s.blocks, g.used = false ∧ g.addr ≤ a ∧ a < g.addr + bytes b g) ∨
    s.tail ≤ a ∧ a < w.base + windowSize}

/-- Used blocks lie in the window and share nothing, free ones lie below the tail and share nothing
    with them. -/
structure Parted (w : VmBase b) (s : KmVm) : Prop where
  inside : ∀ g ∈ s.blocks, g.used = true → w.base ≤ g.addr ∧ g.addr + bytes b g ≤ w.base + windowSize
  used : s.blocks.Pairwise fun g h =>
    g.used = true → h.used = true → Apart (g.addr, bytes b g) (h.addr, bytes b h)
  below : ∀ g ∈ s.blocks, g.used = false → g.addr + bytes b g ≤ s.tail
  free : ∀ g ∈ s.blocks, ∀ h ∈ s.blocks, g.used = false → h.used = true →
    Apart (g.addr, bytes b g) (h.addr, bytes b h)

/-- Mapping `n` pages never finds `kalloc` without a page. -/
def Covered (need : ℕ → ℕ) (n : ℕ) (s : KmVm) : Prop :=
  n = 0 ∨ n + ∑ i ∈ Finset.range (n - 1), need i ≤ s.free.length

/-- A request that appends a block gets all its pages, and adding its size to the tail does not wrap. -/
def Served (w : VmBase b) (s : KmVm) : Op → Prop
  | .alloc _ size node need =>
    (∃ g ∈ s.blocks, fits (pagesFor b size) g = true) ∨ node = false ∨
      s.tail + bytesFor b size < b.top ∧
        (w.base + windowSize ≤ s.tail + bytesFor b size ∨ Covered need (pagesFor b size) s)
  | _ => True

/-! ### Pages -/

variable {w : VmBase b} {s : KmVm} {d addr n i : ℕ} {need : ℕ → ℕ} {pre post : List VmBlock}
  {g h : VmBlock}

theorem mapPage_same (d v f n : ℕ) :
    (s.mapPage d v f n).blocks = s.blocks ∧ (s.mapPage d v f n).tail = s.tail := by
  rw [mapPage]
  split_ifs <;> exact ⟨rfl, rfl⟩

theorem mapPage_free (d v f n : ℕ) : (s.mapPage d v f n).free.length = s.free.length - n := by
  rw [mapPage]
  split_ifs with hn
  · rw [List.length_nil]
    omega
  · exact List.length_drop

theorem unmapPages_same (d addr n : ℕ) :
    (s.unmapPages b d addr n).blocks = s.blocks ∧ (s.unmapPages b d addr n).tail = s.tail := by
  rw [unmapPages]
  induction n with
  | zero => exact ⟨rfl, rfl⟩
  | succ n ih =>
    rw [List.range_succ, List.foldl_append]
    exact ih

/-- Mapping touches no block. -/
theorem mapFrom_same (n i : ℕ) (s : KmVm) : (mapFrom b d addr need n i s).2.blocks = s.blocks ∧
    (mapFrom b d addr need n i s).2.tail = s.tail := by
  induction n generalizing i s with
  | zero => exact ⟨rfl, rfl⟩
  | succ n ih =>
    rw [mapFrom]
    split
    · exact unmapPages_same d addr i
    · obtain ⟨hb, ht⟩ := ih (i + 1) _
      exact ⟨hb.trans (mapPage_same ..).1, ht.trans (mapPage_same ..).2⟩

/-- Mapping succeeds when the pages are there, and only then: the tables of the last page are not
    waited for. -/
theorem mapFrom_fst (n i : ℕ) (s : KmVm) : (mapFrom b d addr need n i s).1 = true ↔
    Covered (fun j => need (i + j)) n s := by
  induction n generalizing i s with
  | zero => simp [mapFrom, Covered]
  | succ n ih =>
    rw [mapFrom]
    split
    · rename_i hf
      simp [Covered, hf]
    · rename_i f l hf
      rw [ih, Covered, Covered, mapPage_free, hf, List.length_cons]
      cases n with
      | zero => simp
      | succ n =>
        have hsum := Finset.sum_range_succ' (fun j => need (i + j)) n
        simp only [Nat.add_zero, ← Nat.add_assoc, Nat.add_right_comm i _ 1] at hsum
        simp only [Nat.add_sub_cancel, hsum, Nat.add_eq_zero_iff, one_ne_zero, and_false, false_or]
        omega

/-! ### The invariant -/

/-- The blocks tile the window from its base to the tail, and none is empty. -/
structure Inv (w : VmBase b) (s : KmVm) : Prop where
  tiles : Tiles VmBlock.addr (bytes b) w.base s.blocks s.tail
  pos : ∀ g ∈ s.blocks, 0 < g.pages
  top : s.tail ≤ w.base + windowSize

theorem bytes_pos (hg : 0 < g.pages) : 0 < bytes b g := Nat.mul_pos hg Build.page_pos

/-- The window is a number of pages in every build. -/
theorem page_dvd_window : b.page ∣ windowSize := by
  have hp : b.page ∣ 2 ^ 26 := Nat.pow_dvd_pow 2 (by have := b.shift_mem; omega)
  simpa [windowSize] using hp

theorem Inv.tail_dvd (hi : Inv w s) : b.page ∣ s.tail :=
  Schemes.tiles_dvd hi.tiles w.dvd fun _ _ => Nat.dvd_mul_left ..

theorem page_dvd_bytesFor (size : ℕ) : b.page ∣ bytesFor b size :=
  (Nat.dvd_mod_iff Build.page_dvd).mpr (Nat.dvd_mul_left ..)

theorem pagesFor_mul (size : ℕ) : pagesFor b size * b.page = bytesFor b size + b.page := by
  rw [pagesFor, Nat.add_mul, Nat.one_mul, Nat.div_mul_cancel (page_dvd_bytesFor size)]

theorem Inv.parted (hi : Inv w s) : Parted w s := by
  have happ := hi.tiles.apart
  refine ⟨fun g hg _ => ?_, happ.imp fun hgh _ _ => .inl hgh, fun g hg _ => (hi.tiles.inside hg).2,
    fun g hg h hh hgu hhu => ?_⟩
  · obtain ⟨hb, he⟩ := hi.tiles.inside hg
    exact ⟨hb, he.trans hi.top⟩
  · have hpair : s.blocks.Pairwise fun g h => Apart (g.addr, bytes b g) (h.addr, bytes b h) :=
      happ.imp fun hgh => .inl hgh
    rcases Schemes.same_or_apart hpair hg hh with rfl | hapart
    · rw [hgu] at hhu
      cases hhu
    · exact hapart

/-- A block that is not empty starts below the tail. -/
theorem Inv.addr_lt (hi : Inv w s) (hg : g ∈ s.blocks) : g.addr < s.tail := by
  have hpos := bytes_pos (b := b) (hi.pos g hg)
  have hin := (hi.tiles.inside hg).2
  omega

/-! ### Allocation -/

/-- The block between `pre` and `post` is replaced by others over the same bytes. -/
theorem Inv.replace {l : List VmBlock} (hi : Inv w s) (hs : s.blocks = pre ++ g :: post)
    (ht : Tiles VmBlock.addr (bytes b) g.addr l (g.addr + bytes b g)) (hl : ∀ h ∈ l, 0 < h.pages)
    {t : KmVm} (hb : t.blocks = pre ++ (l ++ post)) (htail : t.tail = s.tail) : Inv w t := by
  have htiles := hi.tiles
  have hpos := hi.pos
  rw [hs] at htiles hpos
  refine ⟨by rw [hb, htail]; exact htiles.replace ht, fun h hh => ?_, htail ▸ hi.top⟩
  rw [hb, List.mem_append, List.mem_append] at hh
  rcases hh with hh | hh | hh
  · exact hpos h (List.mem_append_left _ hh)
  · exact hl h hh
  · exact hpos h (List.mem_append_right _ (List.mem_cons_of_mem g hh))

/-- What cutting a free block comes to: the parts are free and cover the block. -/
structure Parts (b : Build) (g : VmBlock) (c : VmBlock × List VmBlock) : Prop where
  tiles : Tiles VmBlock.addr (bytes b) g.addr (c.1 :: c.2) (g.addr + bytes b g)
  pos : ∀ h ∈ c.1 :: c.2, 0 < h.pages
  idle : ∀ h ∈ c.1 :: c.2, h.used = false

theorem Inv.parts (hi : Inv w s) (hg : g ∈ s.blocks) (hu : g.used = false) (hn : 0 < n) (node : Bool) :
    Parts b g (split b n node g) := by
  rw [split]
  split_ifs with hc
  · have hin := hi.tiles.inside hg
    have htop := hi.top
    have hlt : n * b.page < g.pages * b.page := Nat.mul_lt_mul_of_pos_right hc.1 Build.page_pos
    have hw : windowSize < 2 ^ 32 := by decide
    have hwlt := w.lt
    have hbytes : bytes b g = g.pages * b.page := rfl
    rw [show 64 * 2 ^ 20 = windowSize from rfl] at hwlt
    have haddr : (g.addr + n * b.page % 2 ^ 32) % b.top = g.addr + n * b.page := by
      rw [Nat.mod_eq_of_lt (show n * b.page < 2 ^ 32 by omega), Nat.mod_eq_of_lt (by omega)]
    refine ⟨⟨rfl, haddr, ?_⟩, fun h hh => ?_, fun h hh => ?_⟩
    · have hsum : n * b.page + (g.pages - n) * b.page = g.pages * b.page := by
        rw [← Nat.add_mul, Nat.add_sub_cancel' (Nat.le_of_lt hc.1)]
      change g.addr + n * b.page + (g.pages - n) * b.page = g.addr + g.pages * b.page
      omega
    · simp only [List.mem_cons, List.not_mem_nil, or_false] at hh
      rcases hh with rfl | rfl
      · exact hn
      · exact Nat.sub_pos_of_lt hc.1
    · simp only [List.mem_cons, List.not_mem_nil, or_false] at hh
      rcases hh with rfl | rfl
      · exact hu
      · rfl
  · refine ⟨⟨rfl, rfl⟩, fun h hh => ?_, fun h hh => ?_⟩ <;> rw [List.mem_singleton.mp hh]
    · exact hi.pos g hg
    · exact hu

/-- Cutting a free block leaves the same addresses to later calls. -/
theorem Parts.avail {c : VmBlock × List VmBlock} {t : KmVm} (hc : Parts b g c)
    (hs : s.blocks = pre ++ g :: post) (hu : g.used = false)
    (hb : t.blocks = pre ++ (c.1 :: c.2 ++ post)) (ht : t.tail = s.tail) : avail w t = avail w s := by
  have hcov := hc.tiles.covers
  ext a
  have hin : (∃ h ∈ c.1 :: c.2, h.used = false ∧ h.addr ≤ a ∧ a < h.addr + bytes b h) ↔
      g.addr ≤ a ∧ a < g.addr + bytes b g := by
    rw [← hcov a]
    constructor
    · rintro ⟨h, hh, -, ha⟩
      exact ⟨h, hh, ha⟩
    · rintro ⟨h, hh, ha⟩
      exact ⟨h, hh, hc.idle h hh, ha⟩
  rw [List.exists_mem_cons_iff] at hin
  simp only [KmVm.avail, Set.mem_ofPred_eq, hb, hs, ht, List.mem_append, or_and_right, exists_or, hin,
    List.exists_mem_cons_iff, hu, true_and]

/-- What `commit` does: the block is used when its pages came, and only a block at the tail moves it. -/
theorem commit_spec (d : ℕ) (pre : List VmBlock) (g : VmBlock) (post : List VmBlock) (need : ℕ → ℕ)
    (hu : g.used = false) {ok : Bool} (hok : (mapFrom b d g.addr need g.pages 0 s).1 = ok) :
    (s.commit b d pre g post need).1 = (if ok then some g.addr else none) ∧
    (s.commit b d pre g post need).2.blocks = pre ++ { g with used := ok } :: post ∧
    (s.commit b d pre g post need).2.tail =
      if ok = true ∧ g.addr = s.tail then (s.tail + g.pages * b.page % 2 ^ 32) % b.top else s.tail := by
  have htail : (mapFrom b d g.addr need g.pages 0 s).2.tail = s.tail := (mapFrom_same g.pages 0 s).2
  rw [commit]
  split
  · rename_i t hm
    rw [hm] at hok htail
    subst hok
    refine ⟨rfl, ?_, ?_⟩
    · rw [← hu]
    · simpa using htail
  · rename_i t hm
    rw [hm] at hok htail
    subst hok
    simp_all

/-- A free block is given out, whole or cut. -/
theorem Inv.reuse (hi : Inv w s) (hs : s.blocks = pre ++ g :: post) (hu : g.used = false) (hn : 0 < n)
    (node : Bool) :
    let c := split b n node g
    let r := s.commit b d pre c.1 (c.2 ++ post) need
    Inv w r.2 ∧ (r.1 = none → avail w r.2 = avail w s) := by
  intro c r
  have hg : g ∈ s.blocks := hs ▸ List.mem_append_right pre List.mem_cons_self
  have hc : Parts b g c := hi.parts hg hu hn node
  obtain ⟨hret, hblocks, htail⟩ := commit_spec (s := s) (b := b) d pre c.1 (c.2 ++ post) need
    (hc.idle c.1 List.mem_cons_self) rfl
  have haddr : c.1.addr ≠ s.tail := by
    have hlt := hi.addr_lt hg
    rw [hc.tiles.1]
    omega
  rw [if_neg fun h => haddr h.2] at htail
  refine ⟨hi.replace (l := { c.1 with used := (mapFrom b d c.1.addr need c.1.pages 0 s).1 } :: c.2) hs
    hc.tiles (fun h hh => ?_) hblocks htail, fun hnone => ?_⟩
  · rcases List.mem_cons.mp hh with rfl | hh
    · exact hc.pos c.1 List.mem_cons_self
    · exact hc.pos h (List.mem_cons_of_mem _ hh)
  · have hok : (mapFrom b d c.1.addr need c.1.pages 0 s).1 = false := by
      by_contra hne
      rw [Bool.not_eq_false] at hne
      rw [hret, hne] at hnone
      cases hnone
    refine hc.avail hs hu ?_ htail
    rw [hblocks, hok, ← hc.idle c.1 List.mem_cons_self]
    rfl

/-- A block is appended and its pages come. -/
theorem Inv.append {size : ℕ} (hi : Inv w s)
    (hlt : s.tail + bytesFor b size < w.base + windowSize)
    (d : ℕ) (hcov : Covered need (pagesFor b size) s) :
    let r := s.commit b d s.blocks ⟨s.tail, pagesFor b size, false⟩ [] need
    Inv w r.2 ∧ r.1 = some s.tail := by
  intro r
  have hok : (mapFrom b d s.tail need (pagesFor b size) 0 s).1 = true := by
    rw [mapFrom_fst]
    simpa only [Nat.zero_add] using hcov
  obtain ⟨hret, hblocks, htail⟩ := commit_spec d s.blocks ⟨s.tail, pagesFor b size, false⟩ [] need
    rfl hok
  -- whole pages below the end leave room for one more
  have hroom : s.tail + bytesFor b size + b.page ≤ w.base + windowSize := by
    obtain ⟨k, hk⟩ := Nat.dvd_add hi.tail_dvd (page_dvd_bytesFor (b := b) size)
    obtain ⟨m, hm⟩ := Nat.dvd_add w.dvd (page_dvd_window (b := b))
    rw [hk, hm] at hlt ⊢
    rw [← Nat.mul_succ]
    exact Nat.mul_le_mul_left _ (Nat.lt_of_mul_lt_mul_left hlt)
  have hpages := pagesFor_mul (b := b) size
  have hw : windowSize < 2 ^ 32 := by decide
  have hbase := hi.tiles.le
  have hwlt := w.lt
  rw [show 64 * 2 ^ 20 = windowSize from rfl] at hwlt
  rw [if_pos ⟨rfl, rfl⟩] at htail
  have hnew : r.2.tail = s.tail + pagesFor b size * b.page := by
    rw [htail, Nat.mod_eq_of_lt (show pagesFor b size * b.page < 2 ^ 32 by omega),
      Nat.mod_eq_of_lt (by omega)]
  refine ⟨⟨?_, fun g hg => ?_, ?_⟩, hret⟩
  · rw [hblocks, hnew]
    exact tiles_append.mpr ⟨s.tail, hi.tiles, rfl, rfl⟩
  · rw [hblocks, List.mem_append, List.mem_singleton] at hg
    rcases hg with hg | rfl
    · exact hi.pos g hg
    · exact Nat.succ_pos _
  · rw [hnew]
    omega

theorem Inv.kmallocVm {size : ℕ} {node : Bool} (hi : Inv w s)
    (hs : Served w s (.alloc d size node need)) :
    Inv w (s.kmallocVm w d size node need).2 ∧
      ((s.kmallocVm w d size node need).1 = none →
        avail w (s.kmallocVm w d size node need).2 = avail w s) := by
  rw [KmVm.kmallocVm]
  split
  · rename_i pre g post hc
    obtain ⟨hblocks, hfit⟩ := cutFirst_some hc
    rw [fits, Bool.and_eq_true, Bool.not_eq_true'] at hfit
    exact hi.reuse hblocks hfit.1 (Nat.succ_pos _) node
  · rename_i hc
    split_ifs with hstop
    · exact ⟨hi, fun _ => rfl⟩
    · rw [not_or, Nat.not_le] at hstop
      rcases hs with ⟨g, hg, hfit⟩ | hnode | ⟨hwrap, htop⟩
      · rw [cutFirst_none hc g hg] at hfit
        cases hfit
      · exact absurd hnode hstop.2
      · rw [Nat.mod_eq_of_lt hwrap] at hstop
        obtain ⟨hinv, hret⟩ := hi.append hstop.1 d
          (htop.resolve_left (Nat.not_le.mpr hstop.1))
        exact ⟨hinv, fun hnone => by rw [hret] at hnone; cases hnone⟩

/-- And when they do not come, a free block stays in the list above the tail. -/
theorem starved_unparted {size : ℕ} (hfit : ∀ g ∈ s.blocks, fits (pagesFor b size) g = false)
    (hlt : (s.tail + bytesFor b size) % b.top < w.base + windowSize)
    (hcov : ¬Covered need (pagesFor b size) s) : ¬Parted w (s.kmallocVm w d size true need).2 := by
  have hok : (mapFrom b d s.tail need (pagesFor b size) 0 s).1 = false := by
    rw [← Bool.not_eq_true, mapFrom_fst]
    simpa only [Nat.zero_add] using hcov
  obtain ⟨-, hblocks, htail⟩ := commit_spec d s.blocks ⟨s.tail, pagesFor b size, false⟩ [] need
    rfl hok
  have hcut : cutFirst (fits (pagesFor b size)) s.blocks = none := by
    cases hc : cutFirst (fits (pagesFor b size)) s.blocks with
    | none => rfl
    | some c =>
      obtain ⟨pre, g, post⟩ := c
      obtain ⟨hb, hg⟩ := cutFirst_some hc
      rw [hfit g (hb ▸ List.mem_append_right pre List.mem_cons_self)] at hg
      cases hg
  simp only [KmVm.kmallocVm, hcut, Nat.not_le.mpr hlt, Bool.true_eq_false, or_self, if_false]
  intro hp
  have hbelow := hp.below ⟨s.tail, pagesFor b size, false⟩
    (hblocks ▸ List.mem_append_right s.blocks List.mem_cons_self) rfl
  have hpos : 0 < bytes b ⟨s.tail, pagesFor b size, false⟩ := bytes_pos (Nat.succ_pos _)
  rw [htail, if_neg (fun h => Bool.false_ne_true h.1)] at hbelow
  exact absurd hbelow (Nat.not_le.mpr (Nat.lt_add_of_pos_right hpos))

/-! ### Freeing -/

/-- Blocks in a row, none of them empty. -/
def Row (b : Build) (x : ℕ) (l : List VmBlock) (e : ℕ) : Prop :=
  Tiles VmBlock.addr (bytes b) x l e ∧ ∀ g ∈ l, 0 < g.pages

theorem row_append {l l' : List VmBlock} {x e : ℕ} :
    Row b x (l ++ l') e ↔ ∃ m, Row b x l m ∧ Row b m l' e := by
  simp only [Row, tiles_append, List.mem_append, or_imp, forall_and]
  constructor
  · rintro ⟨⟨m, h, h'⟩, hp, hp'⟩
    exact ⟨m, ⟨h, hp⟩, h', hp'⟩
  · rintro ⟨m, ⟨h, hp⟩, h', hp'⟩
    exact ⟨⟨m, h, h'⟩, hp, hp'⟩

/-- Two blocks in a row are one. -/
theorem Row.join {x e : ℕ} {l : List VmBlock} (hr : Row b x (g :: h :: l) e) :
    Row b x ({ g with pages := g.pages + h.pages } :: l) e := by
  obtain ⟨⟨hg, -, hl⟩, hp⟩ := hr
  refine ⟨⟨hg, ?_⟩, fun y hy => ?_⟩
  · rwa [bytes, Nat.add_mul, ← Nat.add_assoc]
  · rcases List.mem_cons.mp hy with rfl | hy
    · exact Nat.add_pos_left (hp g List.mem_cons_self) _
    · exact hp y (List.mem_cons_of_mem g (List.mem_cons_of_mem h hy))

theorem Row.mergeRight {x e : ℕ} (hr : Row b x (g :: post) e) :
    Row b x ((mergeRight g post).1 :: (mergeRight g post).2) e := by
  cases post with
  | nil => exact hr
  | cons p l =>
    rw [KmVm.mergeRight]
    split_ifs
    · exact hr.join
    · exact hr

theorem Row.mergeLeft {x e : ℕ} (hr : Row b x (pre ++ g :: post) e) :
    Row b x (mergeLeft pre g ++ post) e := by
  rw [KmVm.mergeLeft]
  split
  · rename_i hlast
    rw [List.getLast?_eq_none_iff.mp hlast] at hr
    exact hr
  · rename_i q hlast
    obtain ⟨l, rfl⟩ := List.getLast?_eq_some_iff.mp hlast
    rw [List.dropLast_concat]
    rw [List.append_assoc] at hr
    split_ifs
    · obtain ⟨m, hl, hq⟩ := row_append.mp hr
      rw [List.append_assoc]
      exact row_append.mpr ⟨m, hl, hq.join⟩
    · simpa using hr

theorem Inv.kfreeVm (hi : Inv w s) (d p : ℕ) : Inv w (s.kfreeVm b d p) := by
  rw [KmVm.kfreeVm]
  split
  · exact hi
  · rename_i pre g post hc
    obtain ⟨hblocks, -⟩ := cutFirst_some hc
    have htail := (unmapPages_same (b := b) (s := s) d g.addr g.pages).2
    have hrow : Row b w.base (pre ++ { g with used := false } :: post) s.tail := by
      have hrep := hi.replace (l := [{ g with used := false }]) (t := { s with
        blocks := pre ++ { g with used := false } :: post }) hblocks ⟨rfl, rfl⟩
        (fun h hh => List.mem_singleton.mp hh ▸ hi.pos g (hblocks ▸ by simp)) rfl rfl
      exact ⟨hrep.tiles, hrep.pos⟩
    obtain ⟨m, hpre, hpost⟩ := row_append.mp hrow
    have hall := (row_append.mpr ⟨m, hpre, hpost.mergeRight⟩).mergeLeft
    refine ⟨?_, hall.2, ?_⟩
    · rw [htail]
      exact hall.1
    · rw [htail]
      exact hi.top

/-! ### Runs -/

variable {t : KmVm} {o : Op}

theorem Inv.start (vm : ℕ → ℕ → Option ℕ) (free : List ℕ) : Inv w (start w vm free) := by
  have hlt := w.lt
  have hp := Nat.le_of_dvd (by decide) (page_dvd_window (b := b))
  have hpos := b.page_pos
  have hbase : (KmVm.start w vm free).tail = w.base := by
    rw [KmVm.start, Build.alignUp_eq (by rw [windowSize] at hp; omega), roundUp_of_dvd hpos w.dvd]
  refine ⟨?_, nofun, ?_⟩
  · exact hbase.symm
  · rw [hbase]
    exact Nat.le_add_right ..

theorem Inv.step (hi : Inv w s) (hok : Served w s o) (hst : step w s o = some t) : Inv w t := by
  cases o with
  | alloc d size node need =>
    cases (Option.ite_none_right_eq_some.mp hst).2
    exact (hi.kmallocVm hok).1
  | free d p =>
    cases hst
    exact hi.kfreeVm d p
  | pages l =>
    cases hst
    exact ⟨hi.tiles, hi.pos, hi.top⟩

/-- In every run in which blocks that are appended get their pages, blocks stay apart, and a call that
    returns NULL leaves the same addresses to later ones. -/
theorem blocks_apart (w : VmBase b) (vm : ℕ → ℕ → Option ℕ) (free : List ℕ) {s : KmVm}
    (hr : Reach (step w) (Served w) (start w vm free) s) :
    Parted w s ∧ ∀ d size node need, Served w s (.alloc d size node need) →
      (s.kmallocVm w d size node need).1 = none →
        avail w (s.kmallocVm w d size node need).2 = avail w s := by
  have hi : Inv w s := hr.inv (.start vm free) fun _ _ _ hi hok hst => hi.step hok hst
  exact ⟨hi.parted, fun d size node need hs => (hi.kmallocVm hs).2⟩

instance (need : ℕ → ℕ) (n : ℕ) (s : KmVm) : Decidable (Covered need n s) :=
  inferInstanceAs (Decidable (_ ∨ _))

instance (w : VmBase b) (s : KmVm) (o : Op) : Decidable (Served w s o) := by
  cases o <;> (dsimp only [Served]; infer_instance)

/-- 32 bits, 4K pages, and the window where the kernel has it. -/
def small : VmBase ⟨12, 32, shift_4k, bits_32⟩ :=
  ⟨0x5ffff000, by decide, by decide, by decide⟩

/-- Three blocks, the middle one freed and cut for a smaller one. -/
theorem blocks_apart_cut : ∃ s : KmVm,
    s.blocks.map (fun g => (g.pages, g.used)) = [(2, true), (1, true), (2, false), (1, true)] ∧
    Parted small s ∧ ∀ d size node need, Served small s (.alloc d size node need) →
      (s.kmallocVm small d size node need).1 = none →
        avail small (s.kmallocVm small d size node need).2 = avail small s := by
  have hrun : (Schemes.runIf (step small) (fun s o => decide (Served small s o))
      (start small (fun _ _ => none) ((List.range 12).map fun i => 0x10000 + i * 0x1000))
      [.alloc 0 4096 true fun _ => 0, .alloc 0 8192 true fun _ => 0, .alloc 0 0 true fun _ => 0,
        .free 0 0x60001000, .alloc 0 0 true fun _ => 0]).map
      (fun s => s.blocks.map fun g => (g.pages, g.used)) =
        some [(2, true), (1, true), (2, false), (1, true)] := by decide +kernel
  obtain ⟨s, hs, hb⟩ := Option.map_eq_some_iff.mp hrun
  exact ⟨s, hb, blocks_apart small _ _ (Schemes.reach_of_runIf hs fun _ _ h => of_decide_eq_true h)⟩

/-- A block whose pages did not come stays in the list while the tail does not move: a larger block is
    appended over it, and then it is given out itself. -/
theorem blocks_alias : ∃ s, Reach (step small) Free (start small (fun _ _ => none) [0x10000]) s ∧
    s.blocks = [⟨0x5ffff000, 2, true⟩, ⟨0x5ffff000, 3, true⟩] ∧ ¬Parted small s := by
  have hrun : (Schemes.runOps (step small) (start small (fun _ _ => none) [0x10000])
      [.alloc 0 4096 true fun _ => 0, .pages ((List.range 12).map fun i => 0x10000 + i * 0x1000),
        .alloc 0 8192 true fun _ => 0, .alloc 0 4096 true fun _ => 0]).map KmVm.blocks =
      some [⟨0x5ffff000, 2, true⟩, ⟨0x5ffff000, 3, true⟩] := by decide +kernel
  obtain ⟨s, hs, hb⟩ := Option.map_eq_some_iff.mp hrun
  refine ⟨s, Schemes.reach_of_runOps hs, hb, fun hp => ?_⟩
  have hused := hp.used
  rw [hb, List.pairwise_pair] at hused
  exact absurd (hused rfl rfl) (by decide)

end KmVm
end EwokOS.Memory
