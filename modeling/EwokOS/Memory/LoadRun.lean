import EwokOS.Memory.LoadHeap
import Mathlib.Data.Nat.ModEq

/-! Loading is contained.

    What the loader reads and stores comes down to the image and the pages there are: the size of the
    heap after `i` segments is `heapAt i`, and segment `i` is reached when all before it fit (`Fits`).
    `At` is the state the loop has before program header `i`. -/

namespace EwokOS.Memory

variable {b : Build} {k : Machine} {img : Image} {s t : Load}

namespace Load
variable {vaddr n : ℕ}

/-! ### One segment -/

variable {filesz memsz off : ℕ}

theorem same_segment : Same s (s.loadSegment b img vaddr off filesz memsz) :=
  (same_fill _ _ s).trans (same_fill _ _ _)

theorem safe_segment (h : Sane b k s n) (hsrc : off + filesz ≤ img.size) :
    Safe b img (s.loadSegment b img vaddr off filesz memsz) ↔
      Safe b img s ∧ ∀ j < max filesz memsz, Good b s ((vaddr + j) % 2 ^ 32) := by
  have hsame : Same s (s.fillFrom b img vaddr (some off) filesz filesz 0) := same_fill filesz 0 s
  rw [loadSegment, safe_fill (h.of_same hsame) (fun o ho => by cases ho) (by omega),
    safe_fill h (fun o ho => by cases ho; exact hsrc) (by omega), and_assoc]
  simp only [hsame.good]
  refine and_congr_right fun _ => ⟨fun ⟨h₁, h₂⟩ j hj => ?_, fun hall =>
    ⟨fun j _ hj => hall j (by omega), fun j _ hj => hall j (by omega)⟩⟩
  rcases Nat.lt_or_ge j filesz with hlt | hge
  · exact h₁ j (Nat.zero_le j) hlt
  · exact h₂ j hge (by omega)

/-- What a segment leaves in the heap: the bytes of the file, then zeroes. -/
theorem byteAt_segment (h : Sane b k s n) (hle : filesz ≤ memsz) (hwrap : vaddr + memsz ≤ 2 ^ 32)
    (hgood : ∀ j < memsz, Good b s ((vaddr + j) % 2 ^ 32)) {a : ℕ} (ha : a < s.heap) :
    (s.loadSegment b img vaddr off filesz memsz).byteAt b a =
      if vaddr ≤ a ∧ a < vaddr + memsz then
        some (if a - vaddr < filesz then img.byte (off + (a - vaddr)) else 0)
      else s.byteAt b a := by
  have hsame : Same s (s.fillFrom b img vaddr (some off) filesz filesz 0) := same_fill filesz 0 s
  rw [loadSegment, byteAt_fill (h.of_same hsame) hwrap
    (fun j _ hj => (hsame.good _).mpr (hgood j hj)) (by omega) (hsame.heap ▸ ha),
    byteAt_fill h (by omega) (fun j _ hj => hgood j (by omega)) (by omega) ha]
  simp only [source]
  split_ifs <;> first | rfl | omega

/-- Mapping mapped pages again changes no frame. -/
theorem remap_same (m p : ℕ) (s : Load)
    (hf : ∀ q, p ≤ q → q < p + m → k.tables q = true → (s.frame q).isSome) :
    Same s (s.remap k m p) ∧ (s.remap k m p).mem = s.mem ∧ Quiet s (s.remap k m p) := by
  induction m generalizing p s with
  | zero => exact ⟨⟨rfl, rfl, rfl⟩, rfl, rfl, rfl⟩
  | succ m ih =>
    set u := s.mapPage k p (((s.vm p).map Prod.fst).getD 0) true with hu
    have hframe : u.frame = s.frame := by
      funext q
      rw [hu, frame_map]
      split_ifs with hq
      · obtain ⟨f, hf⟩ := Option.isSome_iff_exists.mp (hf p (Nat.le_refl p) (by omega) hq.2)
        rw [hq.1, hf]
        exact congrArg some (by rw [frame] at hf; rw [hf]; rfl)
      · rfl
    have hrest : u.heap = s.heap ∧ u.free = s.free ∧ u.mem = s.mem ∧ Quiet s u := by
      rw [hu, mapPage]
      split_ifs <;> exact ⟨rfl, rfl, rfl, rfl, rfl⟩
    obtain ⟨hheap, hfree, hmem, hquiet⟩ := hrest
    obtain ⟨hsame, hmem', hquiet'⟩ := ih (p + 1) u fun q hq hlt => by
      rw [hframe]
      exact hf q (by omega) (by omega)
    exact ⟨Same.trans ⟨hheap, hframe, hfree⟩ hsame, hmem'.trans hmem, hquiet.trans hquiet'⟩

end Load

/-! ### The heap the image asks for -/

namespace Image

/-- The size of the heap after `i` segments. -/
def heapAt (b : Build) (img : Image) : ℕ → ℕ
  | 0 => 0
  | i + 1 => max (heapAt b img i) (img.need b i)

/-- There is room for the first `i` segments: `pages` pages, and nothing of the DMA window. -/
def Fits (b : Build) (k : Machine) (img : Image) (pages i : ℕ) : Prop :=
  img.heapAt b i ≤ pages * b.page ∧ (4 * 2 ^ 30 < k.dmaBase → img.heapAt b i ≤ k.dmaBase)

/-- What is stored of segment `i` lies below the heap it makes, on pages that can be mapped. -/
def Held (b : Build) (k : Machine) (img : Image) (i : ℕ) : Prop :=
  let m := max (img.copySize b i) (img.memsz b i)
  (m = 0 ∨ min (img.vaddr b i + m) (2 ^ 32) ≤ img.heapAt b (i + 1)) ∧
    ∀ j < m, k.tables ((img.vaddr b i + j) % 2 ^ 32 / b.page) = true

theorem page_dvd_need (i : ℕ) : b.page ∣ img.need b i := Nat.dvd_mul_left ..

theorem heapAt_mono {i j : ℕ} (h : i ≤ j) : img.heapAt b i ≤ img.heapAt b j := by
  induction h with
  | refl => exact Nat.le_refl _
  | step _ ih => exact ih.trans (Nat.le_max_left ..)

theorem Fits.mono {pages i j : ℕ} (h : img.Fits b k pages j) (hij : i ≤ j) : img.Fits b k pages i :=
  ⟨(heapAt_mono hij).trans h.1, fun hd => (heapAt_mono hij).trans (h.2 hd)⟩

theorem source_le (i : ℕ) : img.source b i + img.copySize b i ≤ img.size := by
  rw [source, copySize]
  split_ifs <;> omega

end Image

namespace Load
variable {pages i : ℕ}

/-- The state before program header `i`. -/
structure At (b : Build) (k : Machine) (img : Image) (pages : ℕ) (s : Load) (i n : ℕ) : Prop where
  sane : Sane b k s n
  filled : Filled k s n
  heap : s.heap = img.heapAt b i
  pages : n + s.free.length = pages

/-- The heap grows for segment `i` when there is room for it, and only then. -/
theorem At.makeRoom (h : At b k img pages s i n) (hf : img.Fits b k pages i) :
    (img.Fits b k pages (i + 1) ∧ (s.makeRoom b k img i).1 = true ∧
      ∃ m, Grows b k s n m (s.makeRoom b k img i).2 ∧ At b k img pages (s.makeRoom b k img i).2 (i + 1) (n + m)) ∨
    ¬img.Fits b k pages (i + 1) ∧ (s.makeRoom b k img i).1 = false ∧ Quiet s (s.makeRoom b k img i).2 := by
  obtain ⟨c, hc⟩ := @Image.page_dvd_need b img i
  have hp := b.page_pos
  have hheap := h.sane.heap
  have hnext : img.heapAt b (i + 1) = max s.heap (img.need b i) := by rw [Image.heapAt, ← h.heap]
  rw [Load.makeRoom]
  split_ifs with hlt
  · -- the heap ends where the segment does
    rw [hheap, hc] at hlt
    have hnc : n < c := Nat.lt_of_mul_lt_mul_left hlt
    have hm : (img.need b i - s.heap) / b.page = c - n := by
      rw [hheap, hc, ← Nat.mul_sub, Nat.mul_div_cancel_left _ hp]
    have hend : s.heap + (c - n) * b.page = b.page * c := by
      rw [hheap, Nat.mul_comm (c - n), ← Nat.mul_add, Nat.add_sub_cancel' (Nat.le_of_lt hnc)]
    have hmax : img.heapAt b (i + 1) = b.page * c := by
      rw [hnext, hheap, hc]
      exact Nat.max_eq_right (Nat.le_of_lt hlt)
    have hfits : img.Fits b k pages (i + 1) ↔
        c - n ≤ s.free.length ∧ ¬(4 * 2 ^ 30 < k.dmaBase ∧ k.dmaBase < b.page * c) := by
      have hpages := h.pages
      rw [Image.Fits, hmax, Nat.mul_comm pages, Nat.mul_le_mul_left_iff hp]
      refine and_congr ⟨fun _ => by omega, fun _ => by omega⟩ ?_
      rw [not_and, Nat.not_lt]
    have hgrow := h.sane.expandFrom (c - n) 0
    rw [hm, expandMem, hend]
    split_ifs with hdma
    · exact .inr ⟨fun hfit => (hfits.mp hfit).2 hdma, rfl, rfl, rfl⟩
    · split_ifs at hgrow with hlen
      · obtain ⟨hok, hg⟩ := hgrow
        refine .inl ⟨hfits.mpr ⟨hlen, hdma⟩, hok, c - n, hg, hg.sane, fun p hlt ht => ?_, ?_, ?_⟩
        · rcases Nat.lt_or_ge p n with hold | hnew
          · rw [hg.old p hold]
            exact h.filled p hold ht
          · obtain ⟨f, hframe, -⟩ := hg.new p hnew hlt ht
            rw [hframe]
            rfl
        · rw [hg.sane.heap, hmax, Nat.add_sub_cancel' (Nat.le_of_lt hnc)]
        · rw [hg.free, List.length_drop]
          have hpages := h.pages
          omega
      · exact .inr ⟨fun hfit => hlen (hfits.mp hfit).1, hgrow⟩
  · have hmax : img.heapAt b (i + 1) = img.heapAt b i := by
      rw [hnext, h.heap]
      exact Nat.max_eq_left (h.heap ▸ Nat.not_lt.mp hlt)
    refine .inl ⟨?_, rfl, 0, .refl h.sane, h.sane, h.filled, h.heap.trans hmax.symm, h.pages⟩
    rwa [Image.Fits, hmax]

/-- The addresses of segment `i` can be stored to just when it is held. -/
theorem At.held (h : At b k img pages s (i + 1) n) :
    (∀ j < max (img.copySize b i) (img.memsz b i), Good b s ((img.vaddr b i + j) % 2 ^ 32)) ↔ img.Held b k i := by
  rw [Image.Held]
  set m := max (img.copySize b i) (img.memsz b i)
  have hlt : img.vaddr b i < 2 ^ 32 := Nat.mod_lt _ (Nat.two_pow_pos 32)
  have hheap := h.heap
  constructor
  · intro hall
    refine ⟨?_, fun j hj => h.sane.tables _ (hall j hj).2⟩
    rcases Nat.eq_zero_or_pos m with h0 | hpos
    · exact .inl h0
    · right
      -- the highest address stored to
      rcases Nat.le_total (img.vaddr b i + m) (2 ^ 32) with hle | hge
      · have hlast := (hall (m - 1) (by omega)).1
        rw [Nat.mod_eq_of_lt (by omega)] at hlast
        omega
      · have hlast := (hall (2 ^ 32 - 1 - img.vaddr b i) (by omega)).1
        rw [Nat.mod_eq_of_lt (by omega)] at hlast
        omega
  · rintro ⟨hm, ht⟩ j hj
    have hmod := Nat.mod_lt (img.vaddr b i + j) (Nat.two_pow_pos 32)
    have hle := Nat.mod_le (img.vaddr b i + j) (2 ^ 32)
    have hin : (img.vaddr b i + j) % 2 ^ 32 < s.heap := by omega
    refine ⟨hin, h.filled _ ?_ (ht j hj)⟩
    rw [h.sane.heap] at hin
    exact Nat.div_lt_of_lt_mul hin

/-! ### All segments -/

/-- What `loadFrom` does for program header `i` once there is room. -/
def place (b : Build) (k : Machine) (img : Image) (i : ℕ) (s t : Load) : Load :=
  let t := t.loadSegment b img (img.vaddr b i) (img.source b i) (img.copySize b i) (img.memsz b i)
  if !(img.flags b i).testBit 1 then t.remap k ((t.heap - s.heap) / b.page) (s.heap / b.page) else t

/-- And what it does before. -/
def announce (b : Build) (img : Image) (i : ℕ) (s : Load) : Load :=
  let s := s.note (img.headReads b i)
  if !(img.flags b i).testBit 1 then s else s.lower (img.vaddr b i)

theorem loadFrom_succ (r i : ℕ) (s : Load) : s.loadFrom b k img (r + 1) i =
    match (s.announce b img i).makeRoom b k img i with
    | (false, t) => (false, t)
    | (true, t) => (place b k img i (s.announce b img i) t).loadFrom b k img r (i + 1) := rfl

theorem announce_same (i : ℕ) (s : Load) : Same s (s.announce b img i) ∧ (s.announce b img i).mem = s.mem ∧
    Quiet (s.note (img.headReads b i)) (s.announce b img i) := by
  rw [announce, lower]
  split_ifs <;> exact ⟨⟨rfl, rfl, rfl⟩, rfl, rfl, rfl⟩

theorem At.announce (h : At b k img pages s i n) : At b k img pages (s.announce b img i) i n := by
  obtain ⟨hsame, -, -⟩ := @announce_same b img i s
  exact ⟨h.sane.of_same hsame, by rw [Filled, hsame.frame]; exact h.filled, hsame.heap.trans h.heap,
    hsame.free ▸ h.pages⟩

/-- Making the pages of a segment read-only leaves what is in them. -/
theorem At.place_same (h : At b k img pages t (i + 1) n) (s : Load) :
    let u := t.loadSegment b img (img.vaddr b i) (img.source b i) (img.copySize b i) (img.memsz b i)
    Same u (place b k img i s t) ∧ (place b k img i s t).mem = u.mem ∧ Quiet u (place b k img i s t) := by
  intro u
  rw [place]
  split_ifs
  · refine remap_same _ _ u fun q hq hlt ht => ?_
    have hsame : Same t u := same_segment
    have hdiv := @Nat.div_add_div_le_add_div s.heap (u.heap - s.heap) b.page
    have hn : q < n := by
      rcases Nat.le_total s.heap u.heap with hle | hge
      · rw [Nat.add_sub_cancel' hle, hsame.heap, h.sane.heap, Nat.mul_div_cancel_left _ Build.page_pos] at hdiv
        have hheap : u.heap = b.page * n := hsame.heap.trans h.sane.heap
        rw [hheap] at hlt
        omega
      · rw [Nat.sub_eq_zero_of_le hge, Nat.zero_div] at hlt
        omega
    rw [hsame.frame]
    exact h.filled q hn ht
  · exact ⟨⟨rfl, rfl, rfl⟩, rfl, rfl, rfl⟩

theorem At.place (h : At b k img pages t (i + 1) n) (s : Load) :
    At b k img pages (place b k img i s t) (i + 1) n ∧
      (Safe b img (Load.place b k img i s t) ↔ Safe b img t ∧ img.Held b k i) := by
  obtain ⟨hsame, -, hquiet⟩ := h.place_same s
  have hall : Same t (Load.place b k img i s t) := same_segment.trans hsame
  refine ⟨⟨h.sane.of_same hall, by rw [Filled, hall.frame]; exact h.filled, hall.heap.trans h.heap,
    hall.free ▸ h.pages⟩, ?_⟩
  rw [Safe.quiet hquiet, safe_segment h.sane (Image.source_le i), h.held]

/-- The loop ends well when there is room for all segments. It is safe when each program header that is
    reached lies in the image, and each segment there is room for is held. -/
theorem At.loadFrom (h : At b k img pages s i n) (hf : img.Fits b k pages i) (r : ℕ) :
    ((s.loadFrom b k img r i).1 = true ↔ img.Fits b k pages (i + r)) ∧
    (Safe b img (s.loadFrom b k img r i).2 ↔ Safe b img s ∧ ∀ j, i ≤ j → j < i + r → img.Fits b k pages j →
      (∀ x ∈ img.headReads b j, img.Inside b x) ∧ (img.Fits b k pages (j + 1) → img.Held b k j)) := by
  induction r generalizing i s n with
  | zero => exact ⟨iff_of_true rfl hf, fun hs => ⟨hs, fun j hj hlt => by omega⟩, And.left⟩
  | succ r ih =>
    obtain ⟨-, -, hnote⟩ := @announce_same b img i s
    have hsafe : Safe b img (s.announce b img i) ↔ Safe b img s ∧ ∀ x ∈ img.headReads b i, img.Inside b x := by
      rw [Safe.quiet hnote, safe_note]
    have hat : ∀ j, i ≤ j → j < i + (r + 1) → j = i ∨ i + 1 ≤ j ∧ j < i + 1 + r := fun j _ _ => by omega
    rw [loadFrom_succ]
    rcases h.announce.makeRoom hf with ⟨hnext, hok, m, hg, hroom⟩ | ⟨hnext, hok, hquiet⟩
    · generalize (s.announce b img i).makeRoom b k img i = x at hok hg hroom ⊢
      obtain ⟨ok, t⟩ := x
      cases hok
      obtain ⟨hplace, hheld⟩ := hroom.place (s.announce b img i)
      obtain ⟨hret, hrest⟩ := ih hplace hnext
      dsimp only
      rw [hret, hrest, hheld, Safe.quiet hg.quiet, hsafe, Nat.add_right_comm i 1 r, Nat.add_assoc]
      refine ⟨Iff.rfl, ⟨?_, ?_⟩⟩
      · rintro ⟨⟨⟨hs, hin⟩, hi⟩, hmore⟩
        refine ⟨hs, fun j hj hlt hfj => ?_⟩
        rcases hat j hj hlt with rfl | ⟨hj, hlt⟩
        · exact ⟨hin, fun _ => hi⟩
        · exact hmore j hj (by omega) hfj
      · rintro ⟨hs, hall⟩
        obtain ⟨hin, hi⟩ := hall i (Nat.le_refl i) (by omega) hf
        exact ⟨⟨⟨hs, hin⟩, hi hnext⟩, fun j hj hlt => hall j (by omega) (by omega)⟩
    · generalize (s.announce b img i).makeRoom b k img i = x at hok hquiet ⊢
      obtain ⟨ok, t⟩ := x
      cases hok
      refine ⟨iff_of_false Bool.false_ne_true fun hfit => hnext (hfit.mono (by omega)), ?_⟩
      dsimp only
      rw [Safe.quiet hquiet, hsafe]
      refine and_congr_right fun _ => ⟨fun hin j hj hlt hfj => ?_, fun hall =>
        (hall i (Nat.le_refl i) (by omega) hf).1⟩
      rcases hat j hj hlt with rfl | ⟨hj, -⟩
      · exact ⟨hin, fun hfit => absurd hfit hnext⟩
      · exact absurd (hfj.mono hj) hnext

end Load

/-! ### What the image says -/

namespace Image

/-- The addresses of segment `i`. -/
def Covers (b : Build) (img : Image) (i a : ℕ) : Prop :=
  img.field b i (img.form b).vaddr ≤ a ∧
    a < img.field b i (img.form b).vaddr + img.field b i (img.form b).memsz

/-- What segment `i` has at an address. -/
def want (b : Build) (img : Image) (i a : ℕ) : UInt8 :=
  let j := a - img.field b i (img.form b).vaddr
  if j < img.field b i (img.form b).filesz then img.byte (img.field b i (img.form b).off + j) else 0

/-- The file holds what it says, and no more than is asked for. -/
def WellFormed (b : Build) (img : Image) : Prop :=
  ∀ i < img.phnum b, img.field b i (img.form b).filesz ≤ img.field b i (img.form b).memsz ∧
    img.field b i (img.form b).off + img.field b i (img.form b).filesz ≤ img.size

/-- No segment ends behind the first 4G. -/
def Low (b : Build) (img : Image) : Prop :=
  ∀ i < img.phnum b, img.field b i (img.form b).vaddr < 2 ^ 32 ∧ img.field b i (img.form b).memsz < 2 ^ 32 ∧
    img.field b i (img.form b).vaddr + img.field b i (img.form b).memsz ≤ 2 ^ 32

/-- The fields of a segment of a good image survive as 32-bit values. -/
structure Fields (b : Build) (img : Image) (i : ℕ) : Prop where
  vaddr : img.vaddr b i = img.field b i (img.form b).vaddr
  memsz : img.memsz b i = img.field b i (img.form b).memsz
  copy : img.copySize b i = img.field b i (img.form b).filesz
  source : 0 < img.copySize b i → img.source b i = img.field b i (img.form b).off
  le : img.copySize b i ≤ img.memsz b i
  wrap : img.vaddr b i + img.memsz b i ≤ 2 ^ 32

theorem fields {i : ℕ} (hw : img.WellFormed b) (hl : img.Low b) (hi : i < img.phnum b) : Fields b img i := by
  obtain ⟨hfm, hos⟩ := hw i hi
  obtain ⟨hv, hm, hvm⟩ := hl i hi
  have hsize := img.lt
  have ev : img.vaddr b i = img.field b i (img.form b).vaddr := Nat.mod_eq_of_lt hv
  have em : img.memsz b i = img.field b i (img.form b).memsz := Nat.mod_eq_of_lt hm
  have ef : img.filesz b i = img.field b i (img.form b).filesz := Nat.mod_eq_of_lt (by omega)
  have eo : img.off b i = img.field b i (img.form b).off := Nat.mod_eq_of_lt (by omega)
  have ec : img.copySize b i = img.field b i (img.form b).filesz := by
    rw [copySize, ef, eo]
    split_ifs <;> omega
  refine ⟨ev, em, ec, fun hpos => ?_, by omega, by omega⟩
  rw [Image.source, eo, if_pos (by omega)]

end Image

namespace Load
variable {pages i : ℕ}

/-- The heap shows the first `i` segments, the later over the earlier ones. -/
def Shows (b : Build) (img : Image) (s : Load) (i : ℕ) : Prop :=
  ∀ j < i, ∀ a, img.Covers b j a → (∀ l, j < l → l < i → ¬img.Covers b l a) →
    s.byteAt b a = some (img.want b j a)

/-- Growing leaves what is in the heap. -/
theorem Grows.byteAt {m : ℕ} (hs : Sane b k s n) (hg : Grows b k s n m t) {a : ℕ} (ha : a < s.heap) :
    t.byteAt b a = s.byteAt b a := by
  have hp : a / b.page < n := Nat.div_lt_of_lt_mul (hs.heap ▸ ha)
  rw [Load.byteAt, Load.byteAt, hg.old _ hp]
  cases hf : s.frame (a / b.page) with
  | none => rfl
  | some f => rw [Option.map_some, Option.map_some, hg.mem f (hs.fresh _ hp f hf)]

theorem At.shows (h : At b k img pages s i n) (hw : img.WellFormed b) (hl : img.Low b) {r : ℕ}
    (hr : i + r ≤ img.phnum b) (hf : img.Fits b k pages (i + r)) (hheld : ∀ j < i + r, img.Held b k j)
    (hs : Shows b img s i) : Shows b img (s.loadFrom b k img r i).2 (i + r) := by
  induction r generalizing i s n with
  | zero => exact hs
  | succ r ih =>
    rw [loadFrom_succ]
    obtain ⟨hsame, hmem, -⟩ := @announce_same b img i s
    rcases h.announce.makeRoom (hf.mono (by omega)) with ⟨-, hok, m, hg, hroom⟩ | ⟨hnext, -⟩
    · generalize (s.announce b img i).makeRoom b k img i = x at hok hg hroom ⊢
      obtain ⟨ok, t⟩ := x
      cases hok
      have hfields := Image.fields hw hl (show i < img.phnum b by omega)
      obtain ⟨hplace, -⟩ := hroom.place (s.announce b img i)
      obtain ⟨hsame', hmem', -⟩ := hroom.place_same (s.announce b img i)
      rw [Nat.add_comm r 1, ← Nat.add_assoc] at hr hf hheld ⊢
      refine ih hplace hr hf hheld fun j hj a ha hlast => ?_
      have hfj := Image.fields hw hl (show j < img.phnum b by omega)
      -- an address of a segment that is held lies in the heap it made
      have hin : a < img.heapAt b (j + 1) := by
        obtain ⟨hm, -⟩ := hheld j (by omega)
        have h₁ := hfj.vaddr
        have h₂ := hfj.memsz
        have h₃ := hfj.wrap
        have h₄ := ha.1
        have h₅ := ha.2
        rw [Nat.max_eq_right hfj.le] at hm
        omega
      have hgood : ∀ d < img.memsz b i, Good b t ((img.vaddr b i + d) % 2 ^ 32) := fun d hd =>
        hroom.held.mpr (hheld i (by omega)) d (by omega)
      have hat : a < t.heap := by
        rw [hroom.heap]
        exact hin.trans_le (Image.heapAt_mono (by omega))
      rw [hsame'.byteAt hmem', byteAt_segment hroom.sane hfields.le hfields.wrap hgood hat]
      rcases Nat.lt_succ_iff_lt_or_eq.mp hj with hlt | rfl
      · -- an earlier segment, not covered by this one
        have hnot := hlast i hlt (Nat.lt_succ_self i)
        have hold : a < (s.announce b img i).heap := by
          rw [h.announce.heap]
          exact hin.trans_le (Image.heapAt_mono hlt)
        rw [Image.Covers, ← hfields.vaddr, ← hfields.memsz] at hnot
        rw [if_neg hnot, hg.byteAt h.announce.sane hold, hsame.byteAt hmem]
        exact hs j hlt a ha fun l hjl hli => hlast l hjl (by omega)
      · rw [Image.Covers, ← hfields.vaddr, ← hfields.memsz] at ha
        rw [if_pos ha, Image.want, ← hfields.vaddr, ← hfields.copy]
        congr 1
        split_ifs with hin'
        · rw [← hfields.source (by omega)]
        · rfl
    · exact absurd (hf.mono (by omega)) hnext

/-! ### The loader -/

end Load

/-- The ELF header and each program header that is reached lie in the image, and each segment there is
    room for is held. -/
def Image.Contained (b : Build) (k : Machine) (img : Image) (pages : ℕ) : Prop :=
  img.Inside b (16, 2) ∧ (img.type b = 2 → img.Inside b (img.form b).phnum ∧
    ∀ i < img.phnum b, img.Fits b k pages i →
      (∀ r ∈ img.headReads b i, img.Inside b r) ∧ (img.Fits b k pages (i + 1) → img.Held b k i))

/-- What loading promises: it is safe, and the heap shows the segments of a well-formed image. -/
def Image.Proper (b : Build) (img : Image) (r : Bool × Load) : Prop :=
  r.2.Safe b img ∧ (img.WellFormed b → r.1 = true → r.2.Shows b img (img.phnum b))

namespace Image

/-- The first bytes of an image that holds a field of its ELF header. -/
theorem Inside.first {r : ℕ × ℕ} (h : img.Inside b r) (hr : 0 < r.2) (hlt : r.1 + r.2 ≤ 2 ^ 32) {q : ℕ × ℕ}
    (hq : q.1 + q.2 ≤ r.1 + r.2) : img.Inside b q := by
  intro j hj
  have htop := @Build.le_top b
  have hlast := h (r.2 - 1) (by omega)
  rw [Nat.mod_eq_of_lt (by omega)] at hlast ⊢
  omega

end Image

namespace Load

/-- The loader with the old heap gone. -/
theorem At.start {n : ℕ} (hs : Sane b k s n) (hst : Same (s.freeHeap b) t) :
    At b k img (s.freeHeap b).free.length t 0 0 := by
  have h := hs.freeHeap
  refine ⟨h.of_same hst, nofun, hst.heap.trans h.heap, ?_⟩
  rw [hst.free, Nat.zero_add]

/-- The class and a field of the ELF header are read. -/
theorem safe_header {r : ℕ × ℕ} : Safe b img (s.note [(4, 1), r]) ↔
    Safe b img s ∧ img.Inside b (4, 1) ∧ img.Inside b r := by
  rw [safe_note, List.forall_mem_cons, List.forall_mem_singleton]

/-- The entry point lies before the number of program headers. -/
theorem inside_entry (h : img.Inside b (img.form b).phnum) : img.Inside b (img.form b).entry := by
  rw [Image.form] at h ⊢
  split_ifs at h ⊢
  · exact h.first (by decide) (by decide) (by decide)
  · exact h.first (by decide) (by decide) (by decide)

/-- Loading reads the image and stores in the heap just when the image is contained; then the heap shows
    what a well-formed image says, if its segments are low. -/
theorem load_contained {n : ℕ} (img : Image) (hs : Sane b k s n) (hr : s.reads = []) (hst : s.stores = []) :
    (img.Proper b (s.procLoadElf b k img) → img.Contained b k (s.freeHeap b).free.length) ∧
    (img.Contained b k (s.freeHeap b).free.length → (img.WellFormed b → img.Low b) →
      img.Proper b (s.procLoadElf b k img)) := by
  have hquiet : Quiet s { s.freeHeap b with rwBase := 0 } := quiet_shrink _ s
  have hempty : Safe b img { s.freeHeap b with rwBase := 0 } := by
    rw [Safe.quiet hquiet]
    exact ⟨hr ▸ nofun, hst ▸ nofun⟩
  have hfits : img.Fits b k (s.freeHeap b).free.length 0 := ⟨Nat.zero_le _, fun _ => Nat.zero_le _⟩
  rw [procLoadElf, Image.Contained]
  dsimp only
  split_ifs with htype
  · rw [Image.Proper, safe_note, List.forall_mem_singleton]
    exact ⟨fun h => ⟨h.1.2, fun he => absurd he htype⟩, fun h _ => ⟨⟨hempty, h.1⟩, nofun⟩⟩
  · rw [ne_eq, not_not] at htype
    set u := ({ s.freeHeap b with rwBase := 0 }.note [(16, 2)]).note [(4, 1), (img.form b).phnum] with hu
    have hat : At b k img (s.freeHeap b).free.length u 0 0 := .start hs ⟨rfl, rfl, rfl⟩
    obtain ⟨hret, hsafe⟩ := hat.loadFrom hfits (img.phnum b)
    have hhead : Safe b img u ↔ img.Inside b (16, 2) ∧ img.Inside b (img.form b).phnum := by
      rw [hu, safe_header, safe_note, List.forall_mem_singleton]
      constructor
      · exact fun h => ⟨h.1.2, h.2.2⟩
      · exact fun h => ⟨⟨hempty, h.1⟩, h.1.first (by decide) (by decide) (by decide), h.2⟩
    have hcont : Safe b img (u.loadFrom b k img (img.phnum b) 0).2 ↔ img.Contained b k (s.freeHeap b).free.length := by
      rw [hsafe, hhead, and_assoc, Image.Contained, Nat.zero_add]
      exact and_congr_right fun _ => ⟨fun h _ => ⟨h.1, fun i => h.2 i (Nat.zero_le i)⟩, fun h =>
        ⟨(h htype).1, fun i _ => (h htype).2 i⟩⟩
    have hshow : (u.loadFrom b k img (img.phnum b) 0).1 = true → img.Contained b k (s.freeHeap b).free.length →
        img.WellFormed b → img.Low b → Shows b img (u.loadFrom b k img (img.phnum b) 0).2 (img.phnum b) := by
      intro hok hc hw hl
      have hall := hret.mp hok
      have h := hat.shows hw hl (Nat.le_of_eq (Nat.zero_add _)) hall (fun j hj => ?_) nofun
      · rwa [Nat.zero_add] at h
      · exact ((hc.2 htype).2 j (by omega) (hall.mono (by omega))).2 (hall.mono (by omega))
    change (_ → img.Contained b k _) ∧ (img.Contained b k _ → _)
    generalize u.loadFrom b k img (img.phnum b) 0 = r at hcont hshow ⊢
    obtain ⟨ok, t⟩ := r
    cases ok
    · exact ⟨fun h => hcont.mp h.1, fun h _ => ⟨hcont.mpr h, nofun⟩⟩
    · dsimp only at hcont hshow ⊢
      rw [Image.Proper]
      have hlast : Quiet (t.note [(4, 1), (img.form b).entry]) { t.note [(4, 1), (img.form b).entry] with
          rwBase := max t.rwBase 0x400
          mallocBase := t.heap
          pc := img.read b (img.form b).entry % b.top } := ⟨rfl, rfl⟩
      have hentry := (Safe.quiet hlast).trans (@safe_header b img t _)
      refine ⟨fun h => hcont.mp (hentry.mp h.1).1, fun h hl => ⟨hentry.mpr ⟨hcont.mpr h, ?_, ?_⟩, fun hw _ => ?_⟩⟩
      · exact h.1.first (by decide) (by decide) (by decide)
      · exact inside_entry (h.2 htype).1
      · exact hshow rfl h hw (hl hw)

end Load

namespace Image

instance (r : ℕ × ℕ) : Decidable (img.Inside b r) := inferInstanceAs (Decidable (∀ _ < _, _))

instance (pages i : ℕ) : Decidable (img.Fits b k pages i) := inferInstanceAs (Decidable (_ ∧ _))

instance (i : ℕ) : Decidable (img.Held b k i) := inferInstanceAs (Decidable (_ ∧ ∀ _ < _, _))

instance (pages : ℕ) : Decidable (img.Contained b k pages) :=
  inferInstanceAs (Decidable (_ ∧ (_ → _ ∧ ∀ _ < _, _ → _ ∧ _)))

instance : Decidable (img.Low b) := inferInstanceAs (Decidable (∀ _ < _, _))

/-- An image given by the bytes that are not zero. -/
def ofBytes (l : List (ℕ × UInt8)) (size : ℕ) (h : size < 2 ^ 32) : Image :=
  ⟨fun i => (l.lookup i).getD 0, size, h⟩

/-- One segment of three bytes with three zeroes behind them, over a page boundary. -/
def across : Image :=
  ofBytes [(4, 1), (16, 2), (28, 52), (44, 1), (56, 84), (60, 0xfe), (61, 0x0f), (68, 3), (72, 6), (76, 5),
    (84, 0x11), (85, 0x22), (86, 0x33)] 87 (by decide)

/-- One segment with a byte in the file and none in memory. -/
def longer : Image :=
  ofBytes [(4, 1), (16, 2), (28, 52), (44, 1), (68, 1), (76, 6)] 84 (by decide)

end Image

namespace Load

/-- 32 bits and 4K pages. -/
def desk : Build := ⟨12, 32, shift_4k, bits_32⟩

/-- Every table can be had. -/
def roomy : Machine := ⟨0, fun _ => true⟩

/-- A process without a heap, and two pages. -/
def bare : Load := ⟨0, 0, 0, 0, fun _ => none, fun _ => 0, [7, 8], fun _ _ => 0xaa, [], []⟩

theorem sane_bare : Sane desk roomy bare 0 := ⟨rfl, nofun, by decide, nofun, nofun⟩

theorem load_contained_across : Image.across.Proper desk (bare.procLoadElf desk roomy Image.across) ∧
    (bare.procLoadElf desk roomy Image.across).1 = true :=
  ⟨(load_contained Image.across sane_bare rfl rfl).2 (by decide +kernel) fun _ => by decide +kernel,
    by decide +kernel⟩

/-- `filesz` is not held against `memsz`: the byte goes to physical zero. -/
theorem load_beyond_heap : (bare.procLoadElf desk roomy Image.longer).2.stores = [⟨0, 1, 0, false⟩] ∧
    ¬Image.longer.Proper desk (bare.procLoadElf desk roomy Image.longer) := by
  have hst : (bare.procLoadElf desk roomy Image.longer).2.stores = [⟨0, 1, 0, false⟩] := by decide +kernel
  refine ⟨hst, fun h => ?_⟩
  have hsafe := h.1.stores
  rw [hst] at hsafe
  exact absurd (hsafe _ List.mem_cons_self) (by decide)

end Load
end EwokOS.Memory
