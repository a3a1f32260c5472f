import EwokOS.Memory.Kalloc
import Mathlib.Tactic.IntervalCases

/-! Chunks and pages are conserved, and the records say what is free, when the mask has a bit for
    every chunk.

    Nothing is lost or made: free, held, record and split pages together are the pages appended, and
    the chunks on the list together with those held are the chunks of the split pages. While a call
    moves a page or a chunk it is neither here nor there, so the invariant carries what is spare. A
    page of 64K has 64 chunks and the mask 32 bits; there the mask says nothing of the upper half
    (`wide_missed`), and a page whose lower half has been freed goes back while the upper half is
    live. -/

namespace EwokOS.Memory.Kalloc

open Schemes (Reach Free cut mem_cut nodup_cut home_of_mem_cut nodup_bind_cut filter_bind_cut pooled
  mem_pooled pooled_update runOps reach_of_runOps)

section
variable {b : Build} {s t : Kalloc} {m m' : Meta} {p c i j : ℕ} {l : List ℕ} {x y : Multiset ℕ}

/-! ### Masks -/

theorem chunkMask_bit (hj : j < 32) : (chunkMask j).getLsbD i = decide (i = j) := by
  rw [chunkMask, Nat.mod_eq_of_lt hj, BitVec.getLsbD_shiftLeft, BitVec.getLsbD_one, Bool.eq_iff_iff]
  simp only [Bool.and_eq_true, decide_eq_true_eq, Bool.not_eq_true', decide_eq_false_iff_not]
  omega

/-- `free_mask & mask`, as the code tests it. -/
theorem and_chunkMask {w : BitVec 32} (hj : j < 32) :
    w &&& chunkMask j ≠ 0 ↔ w.getLsbD j = true := by
  constructor
  · intro h
    by_contra hw
    refine h (BitVec.eq_of_getLsbD_eq fun i _ => ?_)
    rw [BitVec.getLsbD_and, chunkMask_bit hj, BitVec.ofNat_eq_ofNat, BitVec.getLsbD_zero]
    rcases eq_or_ne i j with rfl | hne
    · rw [Bool.eq_false_of_not_eq_true hw, Bool.false_and]
    · rw [decide_eq_false hne, Bool.and_false]
  · intro h h0
    have hbit : (w &&& chunkMask j).getLsbD j = (0 : BitVec 32).getLsbD j := by rw [h0]
    rw [BitVec.getLsbD_and, chunkMask_bit hj, h, decide_eq_true rfl, BitVec.ofNat_eq_ofNat,
      BitVec.getLsbD_zero] at hbit
    cases hbit

/-- The builds whose mask has a bit for every chunk. -/
def Narrow (b : Build) : Prop := b.pageShift ≠ 16

theorem chunksPerPage_eq (hb : Narrow b) : chunksPerPage b = 4 ∨ chunksPerPage b = 16 := by
  rcases b.shift_mem with h | h | h
  · exact .inl (by rw [chunksPerPage, Build.page, h]; rfl)
  · exact .inr (by rw [chunksPerPage, Build.page, h]; rfl)
  · exact absurd h hb

theorem chunks_le (hb : Narrow b) : chunksPerPage b ≤ 32 := by
  rcases chunksPerPage_eq hb with h | h <;> omega

theorem fullMask_bit (hb : Narrow b) (hi : i < 32) :
    (fullMask b).getLsbD i = decide (i < chunksPerPage b) := by
  rcases chunksPerPage_eq hb with h | h
  · rw [fullMask, h]
    interval_cases i <;> rfl
  · rw [fullMask, h]
    interval_cases i <;> rfl

/-! ### Where chunks lie -/

theorem chunk_dvd : chunkSize ∣ b.page := by
  refine Nat.pow_dvd_pow 2 (show 10 ≤ b.pageShift from ?_)
  have := b.shift_mem
  omega

theorem chunks_page : chunksPerPage b * chunkSize = b.page := Nat.div_mul_cancel chunk_dvd

/-- The chunks of a page. -/
def chunks (b : Build) (p : ℕ) : List ℕ := cut chunkSize (chunksPerPage b) p

/-- The records of a page. -/
def records (b : Build) (p : ℕ) : List ℕ := cut (metaSize b) (b.page / metaSize b) p

theorem metaSize_pos : 0 < metaSize b := Nat.succ_pos _

theorem pageBase_chunk (hp : b.page ∣ p) (hc : c ∈ chunks b p) : pageBase b c = p :=
  home_of_mem_cut hp (by decide) chunks_page.le hc

theorem mem_chunks : c ∈ chunks b p ↔ ∃ i < chunksPerPage b, p + i * chunkSize = c := mem_cut

theorem chunkIndex_eq (hp : b.page ∣ p) (hi : i < chunksPerPage b) :
    chunkIndex b (p + i * chunkSize) = i := by
  rw [chunkIndex, pageBase_chunk hp (mem_chunks.mpr ⟨i, hi, rfl⟩), Nat.add_sub_cancel_left,
    Nat.mul_div_cancel _ (by decide)]

/-- Distinct pages below the top of the address space never fill it. -/
theorem size_lt (hn : l.Nodup) (hl : ∀ p ∈ l, b.page ∣ p ∧ 0 < p ∧ p < b.top) :
    b.page * l.length < b.top := by
  have hpos : 0 < b.page := Build.page_pos
  have hinj : ((0 :: l).map (· / b.page)).Nodup := by
    refine List.Nodup.map_on ?_ (List.nodup_cons.mpr ⟨fun h0 => absurd (hl 0 h0).2.1 (lt_irrefl 0), hn⟩)
    have hdvd : ∀ p ∈ 0 :: l, b.page ∣ p := by
      rintro p (_ | ⟨_, hp⟩)
      · exact dvd_zero _
      · exact (hl p hp).1
    intro p hp q hq h
    rw [← Nat.div_mul_cancel (hdvd p hp), h, Nat.div_mul_cancel (hdvd q hq)]
  have hsub : (0 :: l).map (· / b.page) ⊆ List.range (b.top / b.page) := by
    intro k hk
    obtain ⟨p, hp, rfl⟩ := List.mem_map.mp hk
    have hlt : p < b.top := by
      rcases List.mem_cons.mp hp with rfl | hp
      · exact Nat.two_pow_pos _
      · exact (hl p hp).2.2
    exact List.mem_range.mpr (Nat.div_lt_div_of_lt_of_dvd (Build.page_dvd.trans Build.top_dvd) hlt)
  have hlen := (hinj.subperm hsub).length_le
  rw [List.length_map, List.length_cons, List.length_range] at hlen
  calc b.page * l.length < b.page * (l.length + 1) := Nat.mul_lt_mul_of_pos_left (Nat.lt_succ_self _) hpos
    _ ≤ b.page * (b.top / b.page) := Nat.mul_le_mul_left _ hlen
    _ ≤ b.top := Nat.mul_div_le ..

/-! ### The invariant -/

/-- The split pages. -/
def splits (s : Kalloc) : Multiset ℕ := (pooled s.buckets).map Meta.pageBase

/-- A record says which chunks of its page are on the list, and how many. -/
structure Describes (b : Build) (free : List ℕ) (m : Meta) : Prop where
  mask : ∀ i < chunksPerPage b, m.freeMask.getLsbD i = decide (m.pageBase + i * chunkSize ∈ free)
  rest : ∀ i, chunksPerPage b ≤ i → m.freeMask.getLsbD i = false
  count : m.freeCount = free.countP fun c => pageBase b c = m.pageBase

/-- What holds at all times, when the pages `x` and the chunks `y` are on their way. -/
structure Inv (b : Build) (x y : Multiset ℕ) (s : Kalloc) : Prop where
  nodup : s.pages.Nodup
  placed : ∀ p ∈ s.pages, b.page ∣ p ∧ 0 < p ∧ p < b.top
  pages : (s.freeListPage : Multiset ℕ) + s.heldPages + s.metaPages + splits s + x = s.pages
  chunks : (s.freeList1k : Multiset ℕ) + s.held1k + y =
    (splits s).bind fun p => (chunks b p : Multiset ℕ)
  records : (s.metaFree : Multiset ℕ) + (pooled s.buckets).map Meta.addr =
    (s.metaPages : Multiset ℕ).bind fun p => (records b p : Multiset ℕ)
  hashed : ∀ h, ∀ m ∈ s.buckets h, metaHash b m.pageBase = h
  described : ∀ h, ∀ m ∈ s.buckets h, Describes b s.freeList1k m
  size : s.freeMemSize = b.page * s.freeListPage.length

namespace Describes

/-- A chunk of another page comes or goes. -/
theorem other (hd : b.page ∣ m.pageBase) (hc : pageBase b c ≠ m.pageBase) :
    Describes b (c :: l) m ↔ Describes b l m := by
  have hne : ∀ i < chunksPerPage b, m.pageBase + i * chunkSize ≠ c := by
    rintro i hi rfl
    exact hc (pageBase_chunk hd (mem_chunks.mpr ⟨i, hi, rfl⟩))
  have hmem : ∀ i < chunksPerPage b,
      decide (m.pageBase + i * chunkSize ∈ c :: l) = decide (m.pageBase + i * chunkSize ∈ l) := by
    intro i hi
    simp [hne i hi]
  have hcount : (c :: l).countP (fun c => pageBase b c = m.pageBase) =
      l.countP fun c => pageBase b c = m.pageBase := List.countP_cons_of_neg (by simp [hc])
  constructor
  · intro h
    exact ⟨fun i hi => (h.mask i hi).trans (hmem i hi), h.rest, h.count.trans hcount⟩
  · intro h
    exact ⟨fun i hi => (h.mask i hi).trans (hmem i hi).symm, h.rest, h.count.trans hcount.symm⟩

/-- Chunks of other pages come. -/
theorem others {l' : List ℕ} (hd : b.page ∣ m.pageBase) (hc : ∀ c ∈ l', pageBase b c ≠ m.pageBase)
    (h : Describes b l m) : Describes b (l' ++ l) m := by
  induction l' with
  | nil => exact h
  | cons c l' ih =>
    exact (other hd (hc c List.mem_cons_self)).mpr (ih fun c hc' => hc c (List.mem_cons_of_mem _ hc'))

/-- A page whose chunks have just been linked. -/
theorem fresh (hb : Narrow b) {a : ℕ} (hd : b.page ∣ p) (hl : ∀ c ∈ l, pageBase b c ≠ p) :
    Describes b ((cut chunkSize (chunksPerPage b) p).reverse ++ l)
      ⟨a, p, fullMask b, chunksPerPage b⟩ := by
  refine ⟨fun i hi => ?_, fun i hi => ?_, ?_⟩
  · rw [fullMask_bit hb (hi.trans_le (chunks_le hb)), decide_eq_true hi]
    have hin : p + i * chunkSize ∈ cut chunkSize (chunksPerPage b) p := mem_chunks.mpr ⟨i, hi, rfl⟩
    exact (decide_eq_true (List.mem_append_left _ (List.mem_reverse.mpr hin))).symm
  · rcases lt_or_ge i 32 with hlt | hge
    · rw [fullMask_bit hb hlt]
      exact decide_eq_false (not_lt.mpr hi)
    · exact BitVec.getLsbD_of_ge _ _ hge
  · have hnone : l.countP (fun c => pageBase b c = p) = 0 :=
      List.countP_eq_zero.mpr fun c hc => by simp [hl c hc]
    have hall : (cut chunkSize (chunksPerPage b) p).reverse.countP (fun c => pageBase b c = p) =
        chunksPerPage b := by
      rw [List.countP_reverse, List.countP_eq_length.mpr, Schemes.length_cut]
      exact fun c hc => decide_eq_true (pageBase_chunk hd hc)
    rw [List.countP_append, hnone, hall, Nat.add_zero]

/-- On a list with one more chunk of the page, every other chunk is there as before. -/
theorem mem_cons_iff (hne : j ≠ i) :
    m.pageBase + j * chunkSize ∈ (m.pageBase + i * chunkSize) :: l ↔
      m.pageBase + j * chunkSize ∈ l := by
  rw [List.mem_cons, or_iff_right]
  exact fun he => hne (Nat.eq_of_mul_eq_mul_right (by decide) (Nat.add_left_cancel he))

variable (hb : Narrow b) (hd : b.page ∣ m.pageBase) (hi : i < chunksPerPage b)
include hb hd hi

/-- The chunk is taken from the list. -/
theorem take (hl : m.pageBase + i * chunkSize ∉ l)
    (h : Describes b ((m.pageBase + i * chunkSize) :: l) m) :
    Describes b l { m with
      freeMask := m.freeMask &&& ~~~chunkMask i,
      freeCount := if 0 < m.freeCount then m.freeCount - 1 else m.freeCount } := by
  have hi32 : i < 32 := hi.trans_le (chunks_le hb)
  have hbase := pageBase_chunk hd (mem_chunks.mpr ⟨i, hi, rfl⟩)
  refine ⟨fun j hj => ?_, fun j hj => ?_, ?_⟩
  · have hj32 : j < 32 := hj.trans_le (chunks_le hb)
    rw [BitVec.getLsbD_and, BitVec.getLsbD_not, chunkMask_bit hi32, h.mask j hj, decide_eq_true hj32,
      Bool.true_and]
    rcases eq_or_ne j i with rfl | hne
    · simp [hl]
    · simp only [mem_cons_iff hne, decide_eq_false hne, Bool.not_false, Bool.and_true]
  · rw [BitVec.getLsbD_and, h.rest j hj, Bool.false_and]
  · have hcount := h.count
    rw [List.countP_cons_of_pos (by simp [hbase])] at hcount
    dsimp only
    rw [if_pos (by omega), hcount, Nat.add_sub_cancel]

/-- The chunk is put on the list. -/
theorem put (h : Describes b l m) (hlt : m.freeCount + 1 < 2 ^ 32) :
    Describes b ((m.pageBase + i * chunkSize) :: l) { m with
      freeMask := m.freeMask ||| chunkMask i, freeCount := (m.freeCount + 1) % 2 ^ 32 } := by
  have hi32 : i < 32 := hi.trans_le (chunks_le hb)
  have hbase := pageBase_chunk hd (mem_chunks.mpr ⟨i, hi, rfl⟩)
  refine ⟨fun j hj => ?_, fun j hj => ?_, ?_⟩
  · rw [BitVec.getLsbD_or, chunkMask_bit hi32, h.mask j hj]
    rcases eq_or_ne j i with rfl | hne
    · simp
    · simp only [mem_cons_iff hne, decide_eq_false hne, Bool.or_false]
  · rw [BitVec.getLsbD_or, h.rest j hj, chunkMask_bit hi32, Bool.false_or]
    exact decide_eq_false (by omega)
  · rw [List.countP_cons_of_pos (by simp [hbase]), ← h.count]
    exact Nat.mod_eq_of_lt hlt

end Describes

/-- All chunks of another page leave the list. -/
theorem Describes.unlink (hd : b.page ∣ m.pageBase) (hp : m.pageBase ≠ p) (h : Describes b l m) :
    Describes b (l.filter fun c => pageBase b c ≠ p) m := by
  refine ⟨fun i hi => ?_, h.rest, ?_⟩
  · have hbase := pageBase_chunk hd (mem_chunks.mpr ⟨i, hi, rfl⟩)
    rw [h.mask i hi]
    simp [hbase, hp]
  · rw [h.count, List.countP_filter]
    refine List.countP_congr fun c _ => ?_
    simp only [decide_eq_true_eq, ne_eq, Bool.and_eq_true, decide_not, Bool.not_eq_true',
      decide_eq_false_iff_not]
    exact ⟨fun hc => ⟨hc, hc ▸ hp⟩, fun hc => hc.1⟩

namespace Inv

theorem mem_pages (h : Inv b x y s)
    (hp : p ∈ (s.freeListPage : Multiset ℕ) + s.heldPages + s.metaPages + splits s + x) :
    p ∈ s.pages := by
  rw [h.pages] at hp
  exact hp

theorem nodup_all (h : Inv b x y s) :
    ((s.freeListPage : Multiset ℕ) + s.heldPages + s.metaPages + splits s + x).Nodup := by
  rw [h.pages]
  exact h.nodup

theorem split_mem (h : Inv b x y s) (hp : p ∈ splits s) : b.page ∣ p :=
  (h.placed p (h.mem_pages (by simp [hp]))).1

theorem nodup_splits (h : Inv b x y s) : (splits s).Nodup :=
  Multiset.nodup_of_le (Multiset.le_add_left _ _ |>.trans (Multiset.le_add_right _ _)) h.nodup_all

/-- Every chunk is there once. -/
theorem nodup_chunks (h : Inv b x y s) :
    ((s.freeList1k : Multiset ℕ) + s.held1k + y).Nodup := by
  rw [h.chunks]
  exact nodup_bind_cut h.nodup_splits (fun p hp => h.split_mem hp) (by decide) chunks_page.le

/-- Every record is there once. -/
theorem nodup_records (h : Inv b x y s) :
    ((s.metaFree : Multiset ℕ) + (pooled s.buckets).map Meta.addr).Nodup := by
  rw [h.records]
  refine nodup_bind_cut ?_ (fun p hp => ?_) metaSize_pos (Nat.div_mul_le_self ..)
  · refine Multiset.nodup_of_le ?_ h.nodup_all
    exact (Multiset.le_add_left _ _).trans ((Multiset.le_add_right _ _).trans (Multiset.le_add_right _ _))
  · exact (h.placed p (h.mem_pages (by simp [Multiset.mem_coe.mp hp]))).1

/-- A chunk on the list or on its way belongs to one split page. -/
theorem home (h : Inv b x y s) (hc : c ∈ (s.freeList1k : Multiset ℕ) + s.held1k + y) :
    pageBase b c ∈ splits s ∧ c ∈ Kalloc.chunks b (pageBase b c) := by
  rw [h.chunks] at hc
  obtain ⟨p, hp, hcp⟩ := Multiset.mem_bind.mp hc
  have hbase := pageBase_chunk (h.split_mem hp) hcp
  rw [hbase]
  exact ⟨hp, hcp⟩

/-- The record of a split page is found. -/
theorem find (h : Inv b x y s) (hp : p ∈ splits s) :
    ∃ m ∈ s.buckets (metaHash b p), m.pageBase = p ∧ s.metaFind b p = some m := by
  obtain ⟨m, hm, rfl⟩ := Multiset.mem_map.mp hp
  obtain ⟨k, hk⟩ := mem_pooled.mp hm
  have hbucket := hk
  rw [← h.hashed k m hk] at hbucket
  have hsome : (s.metaFind b m.pageBase).isSome := by
    rw [metaFind, List.find?_isSome]
    exact ⟨m, hbucket, decide_eq_true rfl⟩
  obtain ⟨m', hm'⟩ := Option.isSome_iff_exists.mp hsome
  have hbase := List.find?_some hm'
  exact ⟨m', List.mem_of_find?_eq_some hm', of_decide_eq_true hbase, hm'⟩

/-- The chunks of one split page, wherever they are. -/
theorem filter_home (h : Inv b x y s) (hp : p ∈ splits s) :
    ((s.freeList1k : Multiset ℕ) + s.held1k + y).filter (fun c => pageBase b c = p) =
      (Kalloc.chunks b p : Multiset ℕ) := by
  obtain ⟨r, hr⟩ := Multiset.exists_cons_of_mem hp
  rw [h.chunks, hr]
  refine filter_bind_cut (hr ▸ h.nodup_splits) (fun q hq => ?_) (by decide) chunks_page.le
  exact h.split_mem (hr ▸ hq)

/-- No record counts more chunks than its page has. -/
theorem count_le (h : Inv b x y s) {k : Fin 64} (hm : m ∈ s.buckets k) :
    m.freeCount ≤ chunksPerPage b := by
  have hp : m.pageBase ∈ splits s := Multiset.mem_map_of_mem _ (mem_pooled.mpr ⟨k, hm⟩)
  have hcard := congrArg Multiset.card (h.filter_home hp)
  rw [Multiset.filter_add, Multiset.filter_add, Multiset.card_add, Multiset.card_add,
    Multiset.coe_card, Kalloc.chunks, Schemes.length_cut] at hcard
  have hcount : (s.freeList1k : Multiset ℕ).filter (fun c => pageBase b c = m.pageBase) =
      (s.freeList1k.filter fun c => pageBase b c = m.pageBase : List ℕ) := Multiset.filter_coe ..
  rw [(h.described k m hm).count, List.countP_eq_length_filter, ← Multiset.coe_card, ← hcount]
  omega

/-- A record is known by its address. -/
theorem same_addr (h : Inv b x y s) {k k' : Fin 64} (hm : m ∈ s.buckets k) (hm' : m' ∈ s.buckets k')
    (ha : m'.addr = m.addr) : m' = m := by
  have hnd : ((pooled s.buckets).map Meta.addr).Nodup :=
    Multiset.nodup_of_le (Multiset.le_add_left _ _) h.nodup_records
  exact Multiset.inj_on_of_nodup_map hnd _ (mem_pooled.mpr ⟨k', hm'⟩) _ (mem_pooled.mpr ⟨k, hm⟩) ha

/-- A split page has one record. -/
theorem same_base (h : Inv b x y s) {k k' : Fin 64} (hm : m ∈ s.buckets k) (hm' : m' ∈ s.buckets k')
    (hp : m'.pageBase = m.pageBase) : m' = m :=
  Multiset.inj_on_of_nodup_map h.nodup_splits _ (mem_pooled.mpr ⟨k', hm'⟩) _
    (mem_pooled.mpr ⟨k, hm⟩) hp

/-! ### Writing and dropping records -/

section
variable (h : Inv b x y s) (hm : m ∈ s.buckets (metaHash b m.pageBase))
include h hm

/-- The records keep their pages and addresses. -/
theorem pooled_metaWrite {f : Meta → ℕ} (hf : f m' = f m) :
    (pooled (s.metaWrite b m m').buckets).map f = (pooled s.buckets).map f := by
  have hu := congrArg (Multiset.map f) (pooled_update s.buckets (metaHash b m.pageBase)
    ((s.buckets (metaHash b m.pageBase)).map fun x => if x.addr = m.addr then m' else x))
  have hsame : (((s.buckets (metaHash b m.pageBase)).map fun x =>
      if x.addr = m.addr then m' else x).map f) = (s.buckets (metaHash b m.pageBase)).map f := by
    rw [List.map_map]
    refine List.map_congr_left fun r hr => ?_
    dsimp only [Function.comp_apply]
    split_ifs with hra
    · rw [h.same_addr hm hr hra, hf]
    · rfl
  rw [Multiset.map_add, Multiset.map_add, Multiset.map_coe, Multiset.map_coe, hsame, add_comm] at hu
  exact add_left_cancel hu

/-- Every other record is as it was. -/
theorem mem_metaWrite {k : Fin 64} {r : Meta} (hr : r ∈ (s.metaWrite b m m').buckets k) :
    (r = m' ∧ k = metaHash b m.pageBase) ∨ (r ∈ s.buckets k ∧ r.pageBase ≠ m.pageBase) := by
  have hother : ∀ r' ∈ s.buckets k, r' ≠ m → r'.pageBase ≠ m.pageBase := fun r' hr' hne hb =>
    hne (h.same_base hm hr' hb)
  rw [metaWrite] at hr
  rcases eq_or_ne k (metaHash b m.pageBase) with rfl | hk
  · dsimp only at hr
    rw [Function.update_self] at hr
    obtain ⟨r', hr', rfl⟩ := List.mem_map.mp hr
    split_ifs with hra
    · exact .inl ⟨rfl, rfl⟩
    · exact .inr ⟨hr', hother r' hr' fun he => hra (he ▸ rfl)⟩
  · dsimp only at hr
    rw [Function.update_of_ne hk] at hr
    refine .inr ⟨hr, hother r hr fun he => hk ?_⟩
    rw [← he, h.hashed k r hr]

omit h in
theorem mem_metaWrite_self : m' ∈ (s.metaWrite b m m').buckets (metaHash b m.pageBase) := by
  rw [Kalloc.metaWrite]
  dsimp only
  rw [Function.update_self]
  exact List.mem_map.mpr ⟨m, hm, if_pos rfl⟩

/-- A record is rewritten together with the list of chunks. -/
theorem metaWrite (hd : Describes b l m') (ha : m'.addr = m.addr) (hp : m'.pageBase = m.pageBase)
    {y' : Multiset ℕ}
    (hy : (l : Multiset ℕ) + s.held1k + y' = (s.freeList1k : Multiset ℕ) + s.held1k + y)
    (hrest : ∀ k, ∀ r ∈ s.buckets k, r.pageBase ≠ m.pageBase →
      Describes b l r) : Inv b x y' { s.metaWrite b m m' with freeList1k := l } := by
  have hsplits : (pooled (s.metaWrite b m m').buckets).map Meta.pageBase = splits s :=
    h.pooled_metaWrite hm hp
  refine ⟨h.nodup, h.placed, ?_, ?_, ?_, fun k r hr => ?_, fun k r hr => ?_, h.size⟩
  · rw [splits, hsplits]
    exact h.pages
  · rw [splits, hsplits]
    exact hy.trans h.chunks
  · rw [h.pooled_metaWrite hm ha]
    exact h.records
  · rcases h.mem_metaWrite hm hr with ⟨rfl, rfl⟩ | ⟨hr, -⟩
    · rw [hp]
    · exact h.hashed k r hr
  · rcases h.mem_metaWrite hm hr with ⟨rfl, -⟩ | ⟨hr, hne⟩
    · exact hd
    · exact hrest k r hr hne

end

/-- The page of a record. -/
theorem base_dvd (h : Inv b x y s) {k : Fin 64} (hm : m ∈ s.buckets k) : b.page ∣ m.pageBase :=
  h.split_mem (Multiset.mem_map_of_mem _ (mem_pooled.mpr ⟨k, hm⟩))

/-- The first chunk of the list is taken and the record told. -/
theorem taken (hb : Narrow b) (h : Inv b x y s) (hl : s.freeList1k = c :: l) :
    Inv b x (c ::ₘ y) ({ s with freeList1k := l }.noteTaken b c) := by
  have hnd := h.nodup_chunks
  have hhome := h.home (c := c) (by rw [hl]; simp)
  rw [hl] at hnd
  have hcl : c ∉ l := by
    have := Multiset.nodup_of_le (Multiset.le_add_right _ _ |>.trans (Multiset.le_add_right _ _)) hnd
    exact (List.nodup_cons.mp (Multiset.coe_nodup.mp this)).1
  obtain ⟨m, hm, hbase, hfind⟩ := h.find hhome.1
  have hdvd := h.base_dvd hm
  have hdesc := h.described _ m hm
  rw [← hbase] at hm hhome
  obtain ⟨i, hi, rfl⟩ := mem_chunks.mp hhome.2
  rw [hl] at hdesc
  have hbit : m.freeMask &&& chunkMask i ≠ 0 := by
    rw [and_chunkMask (hi.trans_le (chunks_le hb)), hdesc.mask i hi]
    exact decide_eq_true List.mem_cons_self
  have hfind' : ({ s with freeList1k := l } : Kalloc).metaFind b
      (pageBase b (m.pageBase + i * chunkSize)) = some m := hfind
  simp only [noteTaken, hfind', chunkIndex_eq hdvd hi, hbit, if_true, ne_eq, not_false_eq_true]
  refine h.metaWrite hm (hdesc.take hb hdvd hi hcl) rfl rfl ?_ fun k r hr hne => ?_
  · rw [hl, ← Multiset.cons_coe, Multiset.add_cons, Multiset.cons_add, Multiset.cons_add]
  · have hr' := h.described k r hr
    rw [hl] at hr'
    refine (Describes.other (h.base_dvd hr) ?_).mp hr'
    rw [← hbase]
    exact hne.symm

section
variable (h : Inv b x y s) (hm : m ∈ s.buckets (metaHash b m.pageBase))
include h hm

/-- One record less. -/
theorem pooled_metaFree : pooled s.buckets = m ::ₘ pooled (s.splitPageMetaFree b m).buckets := by
  have hp : (fun r : Meta => decide (r.addr = m.addr)) m = true := decide_eq_true rfl
  obtain ⟨r, l₁, l₂, -, hr, hl, he⟩ :=
    @List.exists_of_eraseP _ (fun r : Meta => decide (r.addr = m.addr)) _ _ hm hp
  have hrm : r = m := h.same_addr hm (hl ▸ List.mem_append_right l₁ List.mem_cons_self)
    (of_decide_eq_true hr)
  have hbucket : (s.buckets (metaHash b m.pageBase) : Multiset Meta) = m ::ₘ (l₁ ++ l₂ : List Meta) := by
    rw [hl, hrm, Multiset.cons_coe, Multiset.coe_eq_coe]
    exact List.perm_middle
  have hu := pooled_update s.buckets (metaHash b m.pageBase) (l₁ ++ l₂)
  rw [hbucket, Multiset.add_cons, add_comm, ← Multiset.add_cons] at hu
  rw [splitPageMetaFree, he]
  exact (add_left_cancel hu).symm

theorem splits_metaFree : splits s = m.pageBase ::ₘ splits (s.splitPageMetaFree b m) := by
  rw [splits, h.pooled_metaFree hm, Multiset.map_cons]
  rfl

/-- The records that stay are those of other pages. -/
theorem mem_metaFree {k : Fin 64} {r : Meta} (hr : r ∈ (s.splitPageMetaFree b m).buckets k) :
    r ∈ s.buckets k ∧ r.pageBase ≠ m.pageBase := by
  refine ⟨?_, fun hbase => ?_⟩
  · rw [splitPageMetaFree] at hr
    dsimp only at hr
    rcases eq_or_ne k (metaHash b m.pageBase) with rfl | hk
    · rw [Function.update_self] at hr
      exact List.mem_of_mem_eraseP hr
    · rwa [Function.update_of_ne hk] at hr
  · have hin : r.pageBase ∈ splits (s.splitPageMetaFree b m) :=
      Multiset.mem_map_of_mem Meta.pageBase (mem_pooled.mpr ⟨k, hr⟩)
    rw [hbase] at hin
    exact (Multiset.nodup_cons.mp (h.splits_metaFree hm ▸ h.nodup_splits)).1 hin

/-- When all chunks of the page are on the list, they are what lies there in the page. -/
theorem filter_all (hall : ∀ c ∈ Kalloc.chunks b m.pageBase, c ∈ s.freeList1k) :
    (s.freeList1k : Multiset ℕ).filter (fun c => pageBase b c = m.pageBase) =
      (Kalloc.chunks b m.pageBase : Multiset ℕ) := by
  have hfree : (s.freeList1k : Multiset ℕ).Nodup := Multiset.nodup_of_le
    ((Multiset.le_add_right _ _).trans (Multiset.le_add_right _ _)) h.nodup_chunks
  refine (Multiset.Nodup.ext (hfree.filter _) (Multiset.coe_nodup.mpr (nodup_cut (by decide)))).mpr
    fun c => ?_
  rw [Multiset.mem_filter, Multiset.mem_coe, Multiset.mem_coe]
  constructor
  · rintro ⟨hc, hbase⟩
    have hin := (h.home (c := c) (by simp [hc])).2
    rwa [hbase] at hin
  · exact fun hc => ⟨hall c hc, pageBase_chunk (h.base_dvd hm) hc⟩

/-- A split page whose chunks are all on the list loses them and its record, and is spare. -/
theorem unlinked (hall : ∀ c ∈ Kalloc.chunks b m.pageBase, c ∈ s.freeList1k) :
    Inv b (m.pageBase ::ₘ x) y ({ s with
      freeList1k := s.freeList1k.filter fun c => pageBase b c ≠ m.pageBase }.splitPageMetaFree b m) := by
  refine ⟨h.nodup, h.placed, ?_, ?_, ?_, fun k r hr => ?_, fun k r hr => ?_, h.size⟩
  · have hpages := h.pages
    rw [h.splits_metaFree hm, Multiset.add_cons, Multiset.cons_add, ← Multiset.add_cons] at hpages
    exact hpages
  · have hchunks := h.chunks
    rw [h.splits_metaFree hm, Multiset.cons_bind] at hchunks
    have hsum := Multiset.filter_add_not (fun c => pageBase b c = m.pageBase)
      (s.freeList1k : Multiset ℕ)
    rw [h.filter_all hm hall] at hsum
    rw [← hsum, add_assoc, add_assoc, Multiset.filter_coe (fun c => ¬pageBase b c = m.pageBase)]
      at hchunks
    have hrest := add_left_cancel hchunks
    rw [← add_assoc] at hrest
    exact hrest
  · have hrec := h.records
    rw [h.pooled_metaFree hm, Multiset.map_cons, Multiset.add_cons, ← Multiset.cons_add,
      Multiset.cons_coe] at hrec
    exact hrec
  · exact h.hashed k r (h.mem_metaFree hm hr).1
  · obtain ⟨hr', hne⟩ := h.mem_metaFree hm hr
    exact (h.described k r hr').unlink (h.base_dvd hr') hne

end

/-! ### Pages -/

theorem length_lt (h : Inv b x y s) : b.page * s.freeListPage.length < b.top := by
  refine size_lt (Multiset.coe_nodup.mp (Multiset.nodup_of_le ?_ h.nodup_all)) fun p hp =>
    h.placed p (h.mem_pages (by simp [hp]))
  exact (Multiset.le_add_right _ _).trans ((Multiset.le_add_right _ _).trans
    ((Multiset.le_add_right _ _).trans (Multiset.le_add_right _ _)))

theorem kallocPage (h : Inv b x y s) (hk : s.kallocPage b = (some p, t)) :
    Inv b (p ::ₘ x) y t ∧ t = { s with
      freeListPage := t.freeListPage, freeMemSize := t.freeMemSize } := by
  rw [Kalloc.kallocPage] at hk
  split at hk
  · cases hk
  · rename_i q l hl
    cases hk
    refine ⟨⟨h.nodup, h.placed, ?_, h.chunks, h.records, h.hashed, h.described, ?_⟩, rfl⟩
    · have hpages := h.pages
      rw [hl, ← Multiset.cons_coe] at hpages
      rw [← hpages]
      simp only [Multiset.cons_add, Multiset.add_cons]
      rfl
    · have hlt := h.length_lt
      have hsize := h.size
      rw [hl, List.length_cons, Nat.mul_succ] at hlt hsize
      dsimp only
      rw [hsize, show b.page * l.length + b.page + b.top - b.page = b.page * l.length + b.top by omega,
        Nat.add_mod_right, Nat.mod_eq_of_lt (by omega)]

theorem kfreePage (h : Inv b (p ::ₘ x) y s) : Inv b x y (s.kfreePage b p) := by
  have hpages : ((p :: s.freeListPage : List ℕ) : Multiset ℕ) + s.heldPages + s.metaPages + splits s +
      x = s.pages := by
    rw [← h.pages, ← Multiset.cons_coe]
    simp only [Multiset.cons_add, Multiset.add_cons]
  have hnew : ∀ n, Inv b x y { s with
      freeListPage := p :: s.freeListPage, freeMemSize := n } → _ := fun n hn => hn.length_lt
  refine ⟨h.nodup, h.placed, hpages, h.chunks, h.records, h.hashed, h.described, ?_⟩
  have hlt := (hnew (b.page * (p :: s.freeListPage).length)
    ⟨h.nodup, h.placed, hpages, h.chunks, h.records, h.hashed, h.described, rfl⟩)
  have hsize := h.size
  rw [List.length_cons, Nat.mul_succ] at hlt
  rw [Kalloc.kfreePage]
  dsimp only
  rw [hsize, Nat.mod_eq_of_lt hlt, List.length_cons, Nat.mul_succ]

/-! ### Chunks -/

/-- A chunk on its way is freed, and its page with it when it is the last. -/
theorem kfree1k (hb : Narrow b) (h : Inv b x (c ::ₘ y) s) : Inv b x y (s.kfree1k b c) := by
  obtain ⟨hsplit, hchunk⟩ := h.home (c := c) (by simp)
  have hfree : c ∉ s.freeList1k := by
    have hnd := h.nodup_chunks
    rw [Multiset.add_cons, Multiset.nodup_cons] at hnd
    exact fun hc => hnd.1 (by simp [hc])
  obtain ⟨m, hm, hbase, hfind⟩ := h.find hsplit
  have hdvd := h.base_dvd hm
  have hdesc := h.described _ m hm
  have hcount := h.count_le hm
  have hk := chunks_le hb
  rw [← hbase] at hm hchunk
  obtain ⟨i, hi, rfl⟩ := mem_chunks.mp hchunk
  have hi32 : i < 32 := hi.trans_le hk
  have hbit : m.freeMask &&& chunkMask i = 0 := by
    by_contra hne
    rw [← ne_eq, and_chunkMask hi32, hdesc.mask i hi] at hne
    exact hfree (of_decide_eq_true hne)
  have hdesc' := hdesc.put hb hdvd hi (by omega)
  have hwritten : Inv b x y _ := h.metaWrite hm hdesc' rfl rfl
    (by rw [← Multiset.cons_coe, Multiset.add_cons, Multiset.cons_add, Multiset.cons_add])
    fun k r hr hne => (Describes.other (h.base_dvd hr) (by rw [← hbase]; exact hne.symm)).mpr
      (h.described k r hr)
  simp only [Kalloc.kfree1k, hfind, chunkIndex_eq hdvd hi, hbit, ne_eq, not_true_eq_false, if_false]
  split_ifs with hall
  · have hin : ∀ c ∈ Kalloc.chunks b m.pageBase,
        c ∈ (m.pageBase + i * chunkSize) :: s.freeList1k := by
      intro c hc
      obtain ⟨j, hj, rfl⟩ := mem_chunks.mp hc
      have hmask := hdesc'.mask j hj
      rw [hall.2, fullMask_bit hb (hj.trans_le hk), decide_eq_true hj] at hmask
      exact of_decide_eq_true hmask.symm
    have hself : ({ m with
        freeMask := m.freeMask ||| chunkMask i, freeCount := (m.freeCount + 1) % 2 ^ 32 } : Meta) ∈
        (s.metaWrite b m _).buckets (metaHash b m.pageBase) := mem_metaWrite_self hm
    rw [← hbase]
    exact (hwritten.unlinked hself hin).kfreePage
  · exact hwritten

theorem metaGrow (h : Inv b x y s) (hg : s.metaGrow b = some t) : Inv b x y t := by
  rw [Kalloc.metaGrow] at hg
  split at hg
  · cases hg
  · rename_i q u hk
    cases hg
    obtain ⟨hu, -⟩ := h.kallocPage hk
    refine ⟨hu.nodup, hu.placed, ?_, hu.chunks, ?_, hu.hashed, hu.described, hu.size⟩
    · rw [← hu.pages, ← Multiset.cons_coe]
      simp only [Multiset.cons_add, Multiset.add_cons]
      rfl
    · rw [← Multiset.cons_coe, Multiset.cons_bind, ← hu.records, ← Multiset.coe_add,
        Multiset.coe_reverse, add_assoc]
      rfl

/-- A spare page gets a record and its chunks are linked. -/
theorem linked (hb : Narrow b) {a : ℕ} (h : Inv b (p ::ₘ x) y s) (hf : s.metaFree = a :: l) :
    Inv b x y { s with
      metaFree := l,
      buckets := Function.update s.buckets (metaHash b p)
        (⟨a, p, fullMask b, chunksPerPage b⟩ :: s.buckets (metaHash b p)),
      freeList1k := (cut chunkSize (chunksPerPage b) p).reverse ++ s.freeList1k } := by
  have hpool : pooled (Function.update s.buckets (metaHash b p)
      (⟨a, p, fullMask b, chunksPerPage b⟩ :: s.buckets (metaHash b p))) =
      ⟨a, p, fullMask b, chunksPerPage b⟩ ::ₘ pooled s.buckets := by
    have hu := pooled_update s.buckets (metaHash b p)
      (⟨a, p, fullMask b, chunksPerPage b⟩ :: s.buckets (metaHash b p))
    rw [← Multiset.cons_coe, Multiset.cons_add, add_comm, ← Multiset.add_cons] at hu
    exact add_left_cancel hu
  have hdvd : b.page ∣ p := (h.placed p (h.mem_pages (by simp))).1
  have hnot : p ∉ splits s := by
    have hnd := h.nodup_all
    rw [Multiset.add_cons, Multiset.nodup_cons] at hnd
    exact fun hp => hnd.1 (by simp [hp])
  have hmem : ∀ k, ∀ r ∈ Function.update s.buckets (metaHash b p)
      (⟨a, p, fullMask b, chunksPerPage b⟩ :: s.buckets (metaHash b p)) k,
      (r = ⟨a, p, fullMask b, chunksPerPage b⟩ ∧ k = metaHash b p) ∨ r ∈ s.buckets k := by
    intro k r hr
    rcases eq_or_ne k (metaHash b p) with rfl | hk
    · rw [Function.update_self] at hr
      exact (List.mem_cons.mp hr).imp_left fun hr => ⟨hr, rfl⟩
    · rw [Function.update_of_ne hk] at hr
      exact .inr hr
  refine ⟨h.nodup, h.placed, ?_, ?_, ?_, fun k r hr => ?_, fun k r hr => ?_, h.size⟩
  · rw [splits, hpool, Multiset.map_cons, Multiset.add_cons, Multiset.cons_add]
    have hpages := h.pages
    rw [Multiset.add_cons] at hpages
    exact hpages
  · rw [splits, hpool, Multiset.map_cons, Multiset.cons_bind, ← Multiset.coe_add, Multiset.coe_reverse,
      add_assoc, add_assoc, ← add_assoc (s.freeList1k : Multiset ℕ)]
    exact congrArg _ h.chunks
  · have hrec := h.records
    rw [hf, ← Multiset.cons_coe] at hrec
    rw [hpool, Multiset.map_cons, Multiset.add_cons, ← Multiset.cons_add]
    exact hrec
  · rcases hmem k r hr with ⟨rfl, rfl⟩ | hr
    · rfl
    · exact h.hashed k r hr
  · rcases hmem k r hr with ⟨rfl, rfl⟩ | hold
    · exact Describes.fresh hb hdvd fun c hc hbase => hnot (hbase ▸ (h.home (by simp [hc])).1)
    · refine Describes.others (h.base_dvd hold) (fun c hc heq => hnot ?_) (h.described k r hold)
      rw [← pageBase_chunk hdvd (List.mem_reverse.mp hc), heq]
      exact Multiset.mem_map_of_mem _ (mem_pooled.mpr ⟨k, hold⟩)

/-- A page is split when the list of chunks is empty. -/
theorem splitPage (hb : Narrow b) (h : Inv b x y s) : Inv b x y (s.splitPage b).2 := by
  rw [Kalloc.splitPage]
  split
  · exact h
  · rename_i p u hk
    obtain ⟨hu, -⟩ := h.kallocPage hk
    split
    · exact hu.kfreePage
    · rename_i v hv
      rw [metaAlloc] at hv
      split at hv
      · cases hv
      · rename_i w hw
        have hwi : Inv b (p ::ₘ x) y w := by
          split_ifs at hw
          · exact hu.metaGrow hw
          · cases hw
            exact hu
        split at hv
        · cases hv
        · rename_i a l hf
          cases hv
          exact hwi.linked hb hf

theorem kalloc1k (hb : Narrow b) (h : Inv b x y s) {o : Option ℕ} (hk : s.kalloc1k b = (o, t)) :
    Inv b x (o.elim y (· ::ₘ y)) t := by
  rw [Kalloc.kalloc1k] at hk
  have hready : Inv b x y (if s.freeList1k = [] then s.splitPage b else (true, s)).2 := by
    split_ifs
    · exact h.splitPage hb
    · exact h
  split at hk
  · rename_i u hu
    rw [hu] at hready
    cases hk
    exact hready
  · rename_i u hu
    rw [hu] at hready
    split at hk
    · cases hk
      exact hready
    · rename_i c l hl
      cases hk
      exact hready.taken hb hl

end Inv

theorem mem_pagesIn {start stop : ℕ} (hs : stop < b.top) (hp : p ∈ pagesIn b start stop) :
    b.page ∣ p ∧ p < b.top := by
  obtain ⟨i, hi, rfl⟩ := mem_cut.mp hp
  refine ⟨Nat.dvd_add (Nat.dvd_mul_left ..) (Nat.dvd_mul_left ..), ?_⟩
  have hmul := Nat.mul_lt_mul_of_pos_right hi (Build.page_pos (b := b))
  have hdiv := Nat.div_mul_le_self (alignDown stop b.page - b.alignUp start b.page) b.page
  have hdown := alignDown_le stop b.page
  omega

theorem Inv.kallocAppend {start stop : ℕ} (h : Inv b 0 0 s) (hs : stop < b.top)
    (hnew : ∀ p ∈ pagesIn b start stop, 0 < p ∧ p ∉ s.pages) :
    Inv b 0 0 (s.kallocAppend b start stop) := by
  have hnodup : (pagesIn b start stop ++ s.pages).Nodup :=
    List.nodup_append'.mpr ⟨nodup_cut Build.page_pos, h.nodup, fun p hp hp' => (hnew p hp).2 hp'⟩
  have hplaced : ∀ p ∈ pagesIn b start stop ++ s.pages, b.page ∣ p ∧ 0 < p ∧ p < b.top := by
    intro p hp
    rcases List.mem_append.mp hp with hp | hp
    · obtain ⟨hdvd, hlt⟩ := mem_pagesIn hs hp
      exact ⟨hdvd, (hnew p hp).1, hlt⟩
    · exact h.placed p hp
  have hpages : (((pagesIn b start stop).reverse ++ s.freeListPage : List ℕ) : Multiset ℕ) +
      s.heldPages + s.metaPages + splits s + 0 = (pagesIn b start stop ++ s.pages : List ℕ) := by
    rw [← Multiset.coe_add, ← Multiset.coe_add, Multiset.coe_reverse, ← h.pages]
    simp only [add_assoc]
  have hlt := Inv.length_lt (s := { s with
      freeListPage := (pagesIn b start stop).reverse ++ s.freeListPage,
      pages := pagesIn b start stop ++ s.pages,
      freeMemSize := b.page * ((pagesIn b start stop).reverse ++ s.freeListPage).length })
    ⟨hnodup, hplaced, hpages, h.chunks, h.records, h.hashed, h.described, rfl⟩
  refine ⟨hnodup, hplaced, hpages, h.chunks, h.records, h.hashed, h.described, ?_⟩
  have hsum : s.freeMemSize + (pagesIn b start stop).length * b.page =
      b.page * ((pagesIn b start stop).reverse ++ s.freeListPage).length := by
    rw [h.size, List.length_append, List.length_reverse, Nat.mul_add, Nat.mul_comm _ b.page,
      Nat.add_comm]
  rw [Kalloc.kallocAppend]
  dsimp only
  rw [hsum, Nat.mod_eq_of_lt hlt]

/-- One call. -/
theorem inv_step {o : Op} (hb : Narrow b) (h : Inv b 0 0 s) (hst : s.step b o = some t) :
    Inv b 0 0 t := by
  cases o with
  | append start stop =>
    rw [step] at hst
    split_ifs at hst with hnew
    cases hst
    exact h.kallocAppend (Nat.mod_lt _ (Nat.two_pow_pos _)) hnew
  | allocPage =>
    rw [step] at hst
    split at hst
    · rename_i u hu
      cases hst
      rw [Kalloc.kallocPage] at hu
      split at hu
      · cases hu
        exact h
      · cases hu
    · rename_i p u hu
      cases hst
      obtain ⟨hi, -⟩ := h.kallocPage hu
      refine ⟨hi.nodup, hi.placed, ?_, hi.chunks, hi.records, hi.hashed, hi.described, hi.size⟩
      rw [← hi.pages, ← Multiset.cons_coe]
      simp only [Multiset.cons_add, Multiset.add_cons]
      rfl
  | freePage p =>
    rw [step] at hst
    split_ifs at hst with hp
    cases hst
    refine Inv.kfreePage ⟨h.nodup, h.placed, ?_, h.chunks, h.records, h.hashed, h.described, h.size⟩
    rw [← h.pages]
    have hheld : (s.heldPages : Multiset ℕ) = p ::ₘ (s.heldPages.erase p : List ℕ) := by
      rw [Multiset.cons_coe, Multiset.coe_eq_coe]
      exact List.perm_cons_erase hp
    rw [hheld]
    simp only [Multiset.cons_add, Multiset.add_cons]
    rfl
  | alloc1k =>
    rw [step] at hst
    split at hst
    · rename_i u hu
      cases hst
      exact h.kalloc1k hb hu
    · rename_i c u hu
      cases hst
      have hi := h.kalloc1k hb hu
      refine ⟨hi.nodup, hi.placed, hi.pages, ?_, hi.records, hi.hashed, hi.described, hi.size⟩
      have hchunks := hi.chunks
      rw [← Multiset.cons_coe, Multiset.add_cons, Multiset.cons_add]
      rw [Option.elim_some, Multiset.add_cons] at hchunks
      exact hchunks
  | free1k c =>
    rw [step] at hst
    split_ifs at hst with hc
    cases hst
    refine Inv.kfree1k hb ⟨h.nodup, h.placed, h.pages, ?_, h.records, h.hashed, h.described, h.size⟩
    have hheld : (s.held1k : Multiset ℕ) = c ::ₘ (s.held1k.erase c : List ℕ) := by
      rw [Multiset.cons_coe, Multiset.coe_eq_coe]
      exact List.perm_cons_erase hc
    have hchunks := h.chunks
    rw [hheld, Multiset.add_cons, Multiset.cons_add] at hchunks
    rw [Multiset.add_cons]
    exact hchunks

theorem inv_reset : Inv b 0 0 Kalloc.reset := by
  have hpool : pooled Kalloc.reset.buckets = 0 := Multiset.eq_zero_of_forall_notMem fun m hm => by
    obtain ⟨k, hk⟩ := mem_pooled.mp hm
    cases hk
  refine ⟨.nil, nofun, ?_, ?_, ?_, nofun, nofun, rfl⟩
  · rw [splits, hpool]
    rfl
  · rw [splits, hpool]
    rfl
  · rw [hpool]
    rfl

/-! ### What it comes to -/

/-- What is promised of pages and chunks. -/
structure Sound (b : Build) (s : Kalloc) : Prop where
  live : ∀ c ∈ s.held1k, c ∉ s.freeList1k
  returned : ∀ p ∈ s.freeListPage, ∀ c, pageBase b c = p → c ∉ s.freeList1k ∧ c ∉ s.held1k
  described : ∀ k, ∀ m ∈ s.buckets k, Describes b s.freeList1k m
  pages : (s.freeListPage : Multiset ℕ) + s.heldPages + s.metaPages + splits s = s.pages ∧
    s.pages.Nodup
  chunks : (s.freeList1k : Multiset ℕ) + s.held1k =
      ((splits s).bind fun p => (Kalloc.chunks b p : Multiset ℕ)) ∧
    ((s.freeList1k : Multiset ℕ) + s.held1k).Nodup
  size : s.getFreeMemSize = b.page * s.freeListPage.length

theorem Inv.sound (h : Inv b 0 0 s) : Sound b s := by
  have hpages := h.pages
  have hchunks := h.chunks
  have hnd := h.nodup_chunks
  have hall := h.nodup_all
  rw [add_zero] at hpages hchunks hnd hall
  refine ⟨fun c hc hfree => ?_, fun p hp c hbase => ?_, h.described, ⟨hpages, h.nodup⟩,
    ⟨hchunks, hnd⟩, h.size⟩
  · exact Multiset.disjoint_left.mp (Multiset.nodup_add.mp hnd).2.2 hfree hc
  · have hnot : pageBase b c ∉ splits s := by
      intro hin
      have hdisj := (Multiset.nodup_add.mp hall).2.2
      exact Multiset.disjoint_left.mp hdisj (by simp [hbase, hp]) hin
    exact ⟨fun hc => hnot (h.home (by simp [hc])).1, fun hc => hnot (h.home (by simp [hc])).1⟩

/-- Two pages of 64K, and one chunk taken. -/
def wide : List Op := [.append 0x10000 0x30000, .alloc1k]

/-- Whether some record of the table misses its chunk 40. -/
def missed (s : Kalloc) : Bool := (s.buckets 2).any fun m =>
  !m.freeMask.getLsbD 40 && decide (m.pageBase + 40 * chunkSize ∈ s.freeList1k)

/-- A record with 64 chunks to describe and 32 bits. -/
theorem missed_unsound (hb : 40 < chunksPerPage b) (h : missed s = true) : ¬Sound b s := by
  intro hs
  obtain ⟨m, hm, hbad⟩ := List.any_eq_true.mp h
  obtain ⟨hbit, hin⟩ := Bool.and_eq_true_iff.mp hbad
  have hmask := (hs.described 2 m hm).mask 40 hb
  rw [hin] at hmask
  rw [hmask] at hbit
  cases hbit

theorem wide_missed (hb : b.pageShift = 16) :
    (runOps (step b) Kalloc.reset wide).map missed = some true := by
  obtain ⟨shift, bits, hshift, hbits⟩ := b
  cases hb
  rcases hbits with rfl | rfl
  · change (runOps (step ⟨16, 32, shift_64k, bits_32⟩) _ _).map _ = _
    decide +kernel
  · change (runOps (step ⟨16, 64, shift_64k, bits_64⟩) _ _).map _ = _
    decide +kernel

/-- Chunks and pages are sound in every run exactly on the builds with at most 32 chunks a page. -/
theorem kalloc_sound_iff :
    (∀ s, Reach (step b) Free Kalloc.reset s → Sound b s) ↔ b.pageShift ≠ 16 := by
  constructor
  · intro hall hb
    obtain ⟨s, hs, hmiss⟩ := Option.map_eq_some_iff.mp (wide_missed hb)
    have hlt : 40 < chunksPerPage b := by
      rw [chunksPerPage, Build.page, hb]
      decide
    exact missed_unsound hlt hmiss (hall s (reach_of_runOps hs))
  · intro hb s hr
    exact (hr.inv inv_reset fun _ _ _ hi _ hst => inv_step hb hi hst).sound

end

/-- 64K pages and 64 bits. -/
def pages64k : Build := ⟨16, 64, shift_64k, bits_64⟩

theorem pages64k_unsound :
    ∃ s, Reach (step pages64k) Free Kalloc.reset s ∧ ¬Sound pages64k s := by
  obtain ⟨s, hs, hmiss⟩ := Option.map_eq_some_iff.mp (wide_missed (b := pages64k) rfl)
  exact ⟨s, reach_of_runOps hs, missed_unsound (by decide) hmiss⟩

end EwokOS.Memory.Kalloc
