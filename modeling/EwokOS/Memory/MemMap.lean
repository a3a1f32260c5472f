import EwokOS.Memory.PeerRun
import Mathlib.Data.Int.ModEq
import Mathlib.Tactic.SplitIfs

/-! What `sys_mem_map` maps (`svc.c`, `mmu.c`).

    The window it checks, the pages it maps and the pages that are taken back are counted in three ways:

        check     [vaddr, vaddr + up(size))                        up: rounded to pages
        map       from the page of vaddr, as many as [down(paddr), up(paddr + up(size))) has
        unmap     [down(vaddr), up(vaddr + size)), and up(size) / PAGE_SIZE for the rollback

    They are one where `paddr` is a page boundary and `vaddr` close enough to one. -/

namespace EwokOS.Memory.Dma

variable (b : Build)

/-- The pages that a loop over `n` pages from `vaddr` on touches. -/
def pagesOf (vaddr n : ℕ) : List ℕ := (List.range n).map (vpage b vaddr)

/-- The pages that `unmap_pages` touches. -/
def unmappedOf (vaddr n : ℕ) : List ℕ := (List.range n).map (upage b vaddr)

/-- The check of the window that the caller chose. -/
def windowOk (lay : Layout) (vaddr size : ℕ) : Bool :=
  let mend := (vaddr + b.alignUp size b.page) % b.top
  size ≠ 0 ∧ vaddr ≤ mend ∧ ¬(vaddr < lay.kmallocEnd ∧ lay.kernelBase < mend)

/-- The frames are the pool's. -/
def inPool (lay : Layout) (paddr size : ℕ) : Bool :=
  lay.dmaBase ≤ paddr ∧ (paddr + size) % b.top ≤ (lay.dmaBase + lay.dmaSize) % b.top

/-- The size once it is rounded: a `uint32_t`. -/
def rounded (size : ℕ) : ℕ := b.alignUp size b.page % 2 ^ 32

/-- What a call meets: the caller's `CAP_DMA`, `check_mem_map_arch`, `proc_cap_check_frame`, and how many pages
    `map_page` finds tables for. -/
structure Meets where
  dmaCap : Bool
  archOk : Bool
  frameCap : Bool
  got : ℕ

def Track.isFull : Track → Bool
  | .full => true
  | .untracked | .kept _ => false

namespace World
variable (lay : Layout) (w : World) (pid : ℤ) (vaddr paddr size : ℕ) (m : Meets)

/-- `sys_mem_map` of anything: whether the call is accepted, and what it leaves. -/
def sysMemMapAny : Bool × World :=
  if windowOk b lay vaddr size = false then (false, w)
  else if inPool b lay paddr size then
    if m.dmaCap = false then (false, w)
    else (!(dmaPeerMapByPaddr b w.pool w.peerMaps pid vaddr paddr (rounded b size)).isFull,
      w.sysMemMap b lay pid vaddr paddr size true m.got)
  else if m.archOk = false ∨ m.frameCap = false then (false, w)
  else (true, { w with
    vm := mapPages b w.vm pid vaddr paddr (fun _ => none) (min m.got (pageCount b paddr (rounded b size))) })

/-- How many pages `sys_mem_unmap` takes back. -/
def unmapCount : ℕ :=
  let start := alignDown vaddr b.page
  let stop := (start + b.alignUp ((vaddr - start + size) % b.top) b.page) % b.top
  if size = 0 ∨ stop < start ∨ (start < lay.kmallocEnd ∧ lay.kernelBase < stop) then 0
  else (stop - start) / b.page % 2 ^ 32

/-- `sys_mem_unmap`. -/
def sysMemUnmap : World := { w with vm := unmapPages b w.vm pid (alignDown vaddr b.page) (unmapCount b lay vaddr size) }

/-- The pages and the frames that `sys_mem_map` maps. -/
def mapped : List ℕ := pagesOf b vaddr (min m.got (pageCount b paddr (rounded b size)))

def frames : List ℕ := (List.range (min m.got (pageCount b paddr (rounded b size)))).map (paddr / b.page + ·)

/-- A call keeps off the kernel core; its own rollback, and `dma_peer_unmap` by the size that is noted, take back
    what it mapped, and so does `sys_mem_unmap`; and every frame that it maps meets the range that was checked. -/
structure Contained : Prop where
  core : ∀ u, (w.sysMemMapAny b lay pid vaddr paddr size m).2.vm pid u ≠ w.vm pid u →
    (u + 1) * b.page ≤ lay.kernelBase ∨ lay.kmallocEnd ≤ u * b.page
  rollback : ∀ u, u ∈ mapped b vaddr paddr size m ↔ u ∈ unmappedOf b vaddr (rounded b size / b.page)
  unmap : ∀ u, u ∈ mapped b vaddr paddr size m ↔
    u ∈ unmappedOf b (alignDown vaddr b.page) (unmapCount b lay vaddr size)
  frames : ∀ f ∈ frames b paddr size m, f * b.page < paddr + size ∧ paddr < (f + 1) * b.page

/-- The offset of `vaddr` in its page fits into what the rounding of the size leaves, and the pages from there on
    keep off the core; the physical range ends below the last page; and `paddr` is a page boundary, or `map_page`
    fails just at the page too many. A size that rounds to 0 maps nothing where `paddr` is a page boundary or in
    the last page, and `sys_mem_unmap` must find nothing to do either. -/
def Fits : Prop :=
  let start := alignDown vaddr b.page
  if size + b.page ≤ 2 ^ 32 then
    vaddr % b.page + size ≤ roundUp size b.page ∧
      ¬(start < lay.kmallocEnd ∧ lay.kernelBase < start + roundUp size b.page) ∧
      paddr + roundUp size b.page + b.page ≤ b.top ∧
      (m.got = roundUp size b.page / b.page ∨ roundUp size b.page / b.page ≤ m.got ∧ b.page ∣ paddr)
  else
    let e := b.alignUp ((vaddr % b.page + size) % b.top) b.page
    (e = 0 ∨ b.top ≤ start + e ∨ (start < lay.kmallocEnd ∧ lay.kernelBase < start + e)) ∧
      (m.got = 0 ∨ b.page ∣ paddr ∨ b.top < paddr + b.page)

instance : Decidable (Fits b lay vaddr paddr size m) := by
  unfold Fits
  dsimp only
  split <;> infer_instance

end World

/-! ### Counting pages -/

variable {b} {lay : Layout} {w : World} {pid : ℤ} {vaddr paddr size x n k : ℕ} {m : Meets} {vm : Vm} {q : ℤ} {u : ℕ}

/-- A page too many for what is left over. -/
def extra (b : Build) (x : ℕ) : ℕ := if b.page ∣ x then 0 else 1

theorem page_le : b.page ≤ 2 ^ 16 := by
  rcases b.shift_mem with h | h | h <;> simp [Build.page, h]

theorem ceil_div (x : ℕ) : (x + (b.page - 1)) / b.page = x / b.page + extra b x := by
  have hpos : 0 < b.page := Build.page_pos
  have hlt := Nat.mod_lt x hpos
  have hx : x + (b.page - 1) = b.page * (x / b.page) + (x % b.page + (b.page - 1)) := by
    rw [← Nat.add_assoc, Nat.div_add_mod]
  rw [hx, Nat.mul_add_div hpos, Nat.add_right_inj, extra]
  split
  · rename_i hd
    rw [Nat.dvd_iff_mod_eq_zero] at hd
    exact Nat.div_eq_of_lt (by omega)
  · rename_i hd
    rw [Nat.dvd_iff_mod_eq_zero] at hd
    exact Nat.div_eq_of_lt_le (by omega) (by omega)

theorem page_le_top : b.page ≤ b.top := (page_le.trans (by decide)).trans Build.le_top

/-- The pages up to where an address rounds to; none if that wraps. -/
theorem alignUp_div (hx : x < b.top) :
    b.alignUp x b.page = (if x + b.page ≤ b.top then x / b.page + extra b x else 0) * b.page := by
  have hpos : 0 < b.page := Build.page_pos
  have hle : b.page ≤ b.top := page_le_top
  rw [Build.alignUp]
  split
  · rw [Nat.mod_eq_of_lt (by omega), ceil_div]
  · rw [Nat.mod_eq_sub_mod (by omega), Nat.mod_eq_of_lt (a := x + (b.page - 1) - b.top) (by omega), Nat.div_eq_of_lt (by omega)]

theorem roundUp_div (x : ℕ) : roundUp x b.page = (x / b.page + extra b x) * b.page := by rw [roundUp, ceil_div]

theorem roundUp_lt (x : ℕ) : roundUp x b.page < x + b.page := by
  have hpos : 0 < b.page := Build.page_pos
  have := Nat.div_mul_le_self (x + (b.page - 1)) b.page
  rw [roundUp]
  omega

/-- A rounded size fits in 32 bits, or wraps to 0. -/
theorem rounded_eq (hs : size < 2 ^ 32) : rounded b size = if size + b.page ≤ 2 ^ 32 then roundUp size b.page else 0 := by
  have hpos : 0 < b.page := Build.page_pos
  have hle : b.page ≤ 2 ^ 16 := page_le
  have htop : 2 ^ 32 ≤ b.top := Build.le_top
  unfold rounded
  split
  · rename_i h
    rw [Build.alignUp_eq (by omega), Nat.mod_eq_of_lt]
    exact (roundUp_lt size).trans_le h
  · rename_i h
    rw [alignUp_div (by omega)]
    split
    · rename_i h64
      rw [← roundUp_div]
      -- it rounds to 2 ^ 32 itself
      obtain ⟨c, hc⟩ := Build.page_dvd (b := b)
      obtain ⟨d, hd⟩ : b.page ∣ roundUp size b.page := Nat.dvd_mul_left ..
      have hlt : b.page * d < size + b.page := hd ▸ roundUp_lt size
      have hge : size ≤ b.page * d := hd ▸ le_roundUp hpos
      have h1 : d < c + 1 := Nat.lt_of_mul_lt_mul_left (a := b.page) (by rw [Nat.mul_succ, ← hc]; omega)
      have h2 : c < d + 1 := Nat.lt_of_mul_lt_mul_left (a := b.page) (by rw [Nat.mul_succ, ← hc]; omega)
      obtain rfl : c = d := by omega
      rw [hd, hc, Nat.mod_self]
    · rw [Nat.zero_mul, Nat.zero_mod]

/-- The loop of `map_pages`: one page more where `paddr` is inside of a page, and none where the range wraps. -/
theorem pageCount_of_dvd (hp : paddr < b.top) (hs : b.page ∣ size) (hlt : size + b.page ≤ b.top) :
    pageCount b paddr size = if paddr + size + b.page ≤ b.top then size / b.page + extra b paddr else 0 := by
  have hpos : 0 < b.page := Build.page_pos
  obtain ⟨r, rfl⟩ := hs
  have hdiv : (paddr + b.page * r) / b.page = paddr / b.page + r := Nat.add_mul_div_left _ _ hpos
  have hextra : extra b (paddr + b.page * r) = extra b paddr := by
    unfold extra
    simp only [Nat.dvd_add_left (Nat.dvd_mul_right b.page r)]
  rw [pageCount, alignUp_div (Nat.mod_lt _ (by have := Build.le_top (b := b); omega)), alignDown, ← Nat.sub_mul,
    Nat.mul_div_cancel _ hpos, Nat.mul_div_cancel_left _ hpos]
  by_cases hw : paddr + b.page * r < b.top
  · rw [Nat.mod_eq_of_lt hw]
    split
    · rw [hdiv, hextra]
      omega
    · rw [Nat.zero_sub]
  · have hno : ¬ paddr + b.page * r + b.page ≤ b.top := by omega
    rw [if_neg hno, Nat.mod_eq_sub_mod (by omega), Nat.mod_eq_of_lt (a := paddr + b.page * r - b.top) (by omega)]
    split
    · have hle : (paddr + b.page * r - b.top + b.page) / b.page ≤ paddr / b.page := Nat.div_le_div_right (by omega)
      rw [Nat.add_div_right _ hpos] at hle
      have : extra b (paddr + b.page * r - b.top) ≤ 1 := by
        unfold extra
        split <;> omega
      omega
    · rw [Nat.zero_sub]

/-! ### Lists of pages -/

theorem vpage_inj {i j : ℕ} (hi : i < b.top / b.page) (hj : j < b.top / b.page) (h : vpage b vaddr i = vpage b vaddr j) : i = j := by
  have hmod : Nat.ModEq (b.top / b.page) i j := Nat.ModEq.add_left_cancel' (vaddr / b.page) h
  rwa [Nat.ModEq, Nat.mod_eq_of_lt hi, Nat.mod_eq_of_lt hj] at hmod

theorem mem_pagesOf : u ∈ pagesOf b vaddr n ↔ ∃ i < n, vpage b vaddr i = u := by
  simp [pagesOf]

/-- No page comes twice, so the number of pages tells a list from another. -/
theorem pagesOf_ext (hn : n ≤ b.top / b.page) (hk : k ≤ b.top / b.page) :
    (∀ u, u ∈ pagesOf b vaddr n ↔ u ∈ pagesOf b vaddr k) ↔ n = k := by
  have hle : ∀ {n k}, n ≤ b.top / b.page → (∀ u, u ∈ pagesOf b vaddr n → u ∈ pagesOf b vaddr k) → n ≤ k := by
    intro n k hn h
    by_contra hlt
    obtain ⟨i, hi, he⟩ := mem_pagesOf.mp (h _ (mem_pagesOf.mpr ⟨k, by omega, rfl⟩))
    have := vpage_inj (by omega) (by omega) he
    omega
  refine ⟨fun h => ?_, fun h u => by rw [h]⟩
  exact Nat.le_antisymm (hle hn fun u hu => (h u).mp hu) (hle hk fun u hu => (h u).mpr hu)

theorem pagesOf_alignDown : pagesOf b (alignDown vaddr b.page) n = pagesOf b vaddr n := by
  simp [pagesOf, vpage, alignDown, Nat.mul_div_cancel _ (Build.page_pos (b := b))]

/-- Behind 4 GiB `unmap_pages` takes the first pages again. -/
theorem mem_unmappedOf : u ∈ unmappedOf b vaddr n ↔ u ∈ pagesOf b vaddr (min n (2 ^ 32 / b.page)) := by
  simp only [unmappedOf, pagesOf, List.mem_map, List.mem_range]
  constructor
  · rintro ⟨i, hi, rfl⟩
    refine ⟨i % (2 ^ 32 / b.page), ?_, ?_⟩
    · have hlt := Nat.mod_lt i (Build.pages_pos (b := b))
      have hle := Nat.mod_le i (2 ^ 32 / b.page)
      omega
    · rw [upage, Build.page_mul_mod, Nat.mul_div_cancel_left _ Build.page_pos]
  · rintro ⟨i, hi, rfl⟩
    refine ⟨i, by omega, upage_eq ?_⟩
    calc b.page * i < b.page * (2 ^ 32 / b.page) := Nat.mul_lt_mul_of_pos_left (by omega) Build.page_pos
      _ = 2 ^ 32 := Nat.mul_div_cancel' Build.page_dvd

/-- A loop changes no other page. -/
theorem mapPages_other {via : ℕ → Option ℕ} (h : mapPages b vm pid vaddr paddr via n q u ≠ vm q u) :
    q = pid ∧ u ∈ pagesOf b vaddr n := by
  induction n with
  | zero => exact absurd rfl h
  | succ n ih =>
    rw [mapPages, Vm.write] at h
    split_ifs at h with hw
    · exact ⟨hw.1, mem_pagesOf.mpr ⟨n, Nat.lt_succ_self n, hw.2.symm⟩⟩
    · obtain ⟨hq, hu⟩ := ih h
      obtain ⟨i, hi, he⟩ := mem_pagesOf.mp hu
      exact ⟨hq, mem_pagesOf.mpr ⟨i, Nat.lt_succ_of_lt hi, he⟩⟩

namespace World

theorem mapGate_eq (c : Bool) : mapGate b lay vaddr paddr size c = (windowOk b lay vaddr size && inPool b lay paddr size && c) := by
  simp only [mapGate, windowOk, inPool, Bool.decide_and, Bool.decide_eq_true, Bool.and_assoc]

/-- A call that is accepted found the window as it should be, and ran the loop. -/
theorem accepted (h : (w.sysMemMapAny b lay pid vaddr paddr size m).1 = true) : windowOk b lay vaddr size = true ∧
    ∃ via, (w.sysMemMapAny b lay pid vaddr paddr size m).2.vm =
      mapPages b w.vm pid vaddr paddr via (min m.got (pageCount b paddr (rounded b size))) := by
  unfold sysMemMapAny at h ⊢
  split at h
  · cases h
  rename_i hwin
  simp only [Bool.not_eq_false] at hwin
  refine ⟨hwin, ?_⟩
  split at h
  · rename_i hpool
    split at h
    · cases h
    rename_i hcap
    refine ⟨fun f => (w.lease f).map Prod.snd, ?_⟩
    simp only [hwin, hpool, hcap, Bool.true_eq_false, if_false, if_true, sysMemMap, mapGate_eq, Bool.and_self, rounded] at h ⊢
    split
    · rfl
    · rename_i hfull
      rw [hfull] at h
      cases h
    · rfl
  · rename_i hpool
    split at h
    · cases h
    rename_i hcaps
    simp only [hwin, hpool, hcaps, Bool.true_eq_false, if_false]
    exact ⟨_, rfl⟩

theorem pageCount_le : pageCount b paddr size ≤ b.top / b.page := by
  refine Nat.div_le_div_right ((Nat.sub_le _ _).trans ?_)
  rw [Build.alignUp]
  exact (Nat.div_mul_le_self _ _).trans (Nat.mod_lt _ (Nat.two_pow_pos _)).le

theorem unmapCount_le : unmapCount b lay vaddr size ≤ b.top / b.page := by
  unfold unmapCount
  dsimp only
  split
  · exact Nat.zero_le _
  · refine (Nat.mod_le _ _).trans (Nat.div_le_div_right ((Nat.sub_le _ _).trans ?_))
    exact (Nat.mod_lt _ (Nat.two_pow_pos _)).le

/-! ### The counts of a call -/

theorem add_page_le {y : ℕ} (hx : b.page ∣ x) (hy : b.page ∣ y) (h : x < y) : x + b.page ≤ y := by
  obtain ⟨i, rfl⟩ := hx
  obtain ⟨j, rfl⟩ := hy
  rw [← Nat.mul_succ]
  exact Nat.mul_le_mul_left _ (Nat.lt_of_mul_lt_mul_left h)

theorem dvd_roundUp : b.page ∣ roundUp x b.page := Nat.dvd_mul_left ..

theorem dvd_rounded : b.page ∣ rounded b size := (Nat.dvd_mod_iff Build.page_dvd).mpr (Nat.dvd_mul_left ..)

theorem rounded_add_le : rounded b size + b.page ≤ 2 ^ 32 :=
  add_page_le dvd_rounded Build.page_dvd (Nat.mod_lt _ (by decide))

theorem roundUp_eq {y : ℕ} (hy : b.page ∣ y) (hle : x ≤ y) (hlt : y < x + b.page) : roundUp x b.page = y := by
  have hpos : 0 < b.page := Build.page_pos
  refine Nat.le_antisymm ?_ ?_
  · by_contra hgt
    have := add_page_le hy dvd_roundUp (Nat.lt_of_not_le hgt)
    have := roundUp_lt (b := b) x
    omega
  · by_contra hgt
    have := add_page_le dvd_roundUp hy (Nat.lt_of_not_le hgt)
    have := le_roundUp (x := x) hpos
    omega

theorem count_eq (hp : paddr < b.top) : pageCount b paddr (rounded b size) =
    if paddr + rounded b size + b.page ≤ b.top then rounded b size / b.page + extra b paddr else 0 :=
  pageCount_of_dvd hp dvd_rounded (rounded_add_le.trans Build.le_top)

theorem extra_eq : extra b x = 0 ↔ b.page ∣ x := by
  unfold extra
  split <;> simp_all

theorem extra_le : extra b x ≤ 1 := by
  unfold extra
  split <;> omega

/-- The window, once it is accepted. -/
theorem windowOk_spec (h : windowOk b lay vaddr size = true) (hv : vaddr < b.top) (hs : size + b.page ≤ 2 ^ 32) :
    0 < roundUp size b.page ∧ vaddr + roundUp size b.page < b.top := by
  have hpos : 0 < b.page := Build.page_pos
  have htop : 2 ^ 32 ≤ b.top := Build.le_top
  have hge := le_roundUp (x := size) hpos
  have hlt := roundUp_lt (b := b) size
  simp only [windowOk, decide_eq_true_eq, Bool.decide_and, Bool.and_eq_true, ne_eq] at h
  obtain ⟨hne, hle, -⟩ := h
  rw [Build.alignUp_eq (by omega)] at hle
  refine ⟨by omega, ?_⟩
  by_contra hwrap
  rw [Nat.mod_eq_sub_mod (by omega), Nat.mod_eq_of_lt (by omega)] at hle
  omega

/-- How many pages `sys_mem_unmap` takes back, by what its size rounds to. -/
theorem unmapCount_eq (hv : vaddr < b.top) {e : ℕ} (he : b.alignUp ((vaddr % b.page + size) % b.top) b.page = e)
    (hsize : size ≠ 0) (hsmall : e < 2 ^ 34) : unmapCount b lay vaddr size =
      if b.top ≤ alignDown vaddr b.page + e ∨ (alignDown vaddr b.page < lay.kmallocEnd ∧ lay.kernelBase < alignDown vaddr b.page + e)
      then 0 else e / b.page := by
  have hstart : alignDown vaddr b.page ≤ vaddr := alignDown_le ..
  have hoff : vaddr - alignDown vaddr b.page = vaddr % b.page := by
    have := Nat.div_add_mod vaddr b.page
    rw [Nat.mul_comm] at this
    rw [alignDown]
    omega
  have hetop : e < b.top := by
    rw [← he, Build.alignUp]
    exact (Nat.div_mul_le_self _ _).trans_lt (Nat.mod_lt _ (Nat.two_pow_pos _))
  rw [unmapCount, hoff, he]
  by_cases hwrap : b.top ≤ alignDown vaddr b.page + e
  · have hbad : (alignDown vaddr b.page + e) % b.top < alignDown vaddr b.page := by
      rw [Nat.mod_eq_sub_mod hwrap, Nat.mod_eq_of_lt (by omega)]
      omega
    simp [hbad, hwrap]
  · rw [Nat.mod_eq_of_lt (by omega), Nat.add_sub_cancel_left]
    refine if_congr ?_ rfl (Nat.mod_eq_of_lt ?_)
    · simp [hsize, hwrap]
    · refine (Nat.div_lt_iff_lt_mul Build.page_pos).mpr (hsmall.trans_le ?_)
      refine Nat.le_trans (by decide) (Nat.mul_le_mul_left (2 ^ 32) (?_ : 2 ^ 12 ≤ b.page))
      rcases b.shift_mem with h | h | h <;> simp [Build.page, h]

/-- The size that `sys_mem_unmap` rounds, for a size that rounds within 32 bits. -/
theorem unmap_iff (hv : vaddr < b.top) (hs : size + b.page ≤ 2 ^ 32) (hsize : size ≠ 0)
    (hlt : vaddr + roundUp size b.page < b.top) :
    unmapCount b lay vaddr size = roundUp size b.page / b.page ↔ vaddr % b.page + size ≤ roundUp size b.page ∧
      ¬(alignDown vaddr b.page < lay.kmallocEnd ∧ lay.kernelBase < alignDown vaddr b.page + roundUp size b.page) := by
  have hpos : 0 < b.page := Build.page_pos
  have hle : b.page ≤ 2 ^ 16 := page_le
  have htop : 2 ^ 32 ≤ b.top := Build.le_top
  have hoff := Nat.mod_lt vaddr hpos
  have hge := le_roundUp (x := size) hpos
  have hup := roundUp_lt (b := b) size
  have hfull : roundUp size b.page + b.page ≤ 2 ^ 32 := add_page_le dvd_roundUp Build.page_dvd (by omega)
  have hpages : 0 < roundUp size b.page / b.page := Nat.div_pos (Nat.le_of_dvd (by omega) dvd_roundUp) hpos
  have hstart : alignDown vaddr b.page ≤ vaddr := alignDown_le ..
  have hx : vaddr % b.page + size < b.top := by omega
  by_cases hfit : vaddr % b.page + size ≤ roundUp size b.page
  · have he : b.alignUp ((vaddr % b.page + size) % b.top) b.page = roundUp size b.page := by
      rw [Nat.mod_eq_of_lt hx, Build.alignUp_eq (by omega)]
      exact roundUp_eq dvd_roundUp hfit (by omega)
    rw [unmapCount_eq hv he hsize (by omega)]
    split
    · rename_i hbad
      refine ⟨fun h => by omega, fun h => absurd hbad ?_⟩
      rintro (hwrap | hcore)
      · omega
      · exact h.2 hcore
    · rename_i hok
      exact ⟨fun _ => ⟨hfit, fun h => hok (.inr h)⟩, fun _ => rfl⟩
  · -- a page more, or the rounding wraps
    refine iff_of_false (fun h => ?_) fun h => hfit h.1
    have he : b.alignUp ((vaddr % b.page + size) % b.top) b.page =
        if vaddr % b.page + size + b.page ≤ b.top then roundUp size b.page + b.page else 0 := by
      rw [Nat.mod_eq_of_lt hx, alignUp_div hx]
      split
      · rw [← roundUp_div]
        exact roundUp_eq (Nat.dvd_add dvd_roundUp (dvd_refl _)) (by omega) (by omega)
      · rw [Nat.zero_mul]
    split at he
    · rw [unmapCount_eq hv he hsize (by omega)] at h
      split at h
      · omega
      · rw [Nat.add_div_right _ hpos] at h
        omega
    · rw [unmapCount_eq hv he hsize (by decide)] at h
      split at h
      · omega
      · rw [Nat.zero_div] at h
        omega

/-- A size that rounds to 0 is nothing to the rollback. -/
theorem unmap_none_iff (hv : vaddr < b.top) (hlt : size < 2 ^ 32) (hsize : size ≠ 0) {e : ℕ}
    (he : b.alignUp ((vaddr % b.page + size) % b.top) b.page = e) : unmapCount b lay vaddr size = 0 ↔
      e = 0 ∨ b.top ≤ alignDown vaddr b.page + e ∨
        (alignDown vaddr b.page < lay.kmallocEnd ∧ lay.kernelBase < alignDown vaddr b.page + e) := by
  have hpos : 0 < b.page := Build.page_pos
  have hle : b.page ≤ 2 ^ 16 := page_le
  have hoff := Nat.mod_lt vaddr hpos
  have hsmall : e < 2 ^ 34 := by
    rw [← he, Build.alignUp]
    refine (Nat.div_mul_le_self _ _).trans_lt ((Nat.mod_le _ _).trans_lt ?_)
    have := Nat.mod_le (vaddr % b.page + size) b.top
    omega
  have hdvd : b.page ∣ e := he ▸ Nat.dvd_mul_left ..
  rw [unmapCount_eq hv he hsize hsmall]
  split
  · rename_i h
    exact iff_of_true rfl (.inr h)
  · rename_i h
    rw [or_iff_left h, Nat.div_eq_zero_iff_lt hpos]
    exact ⟨fun hlt => Nat.eq_zero_of_dvd_of_lt hdvd hlt, fun h0 => h0 ▸ hpos⟩

/-- The pages of an accepted call that fits are outside of the core. -/
theorem outside {i : ℕ} (hlt : vaddr + roundUp size b.page < b.top) (hi : i < roundUp size b.page / b.page)
    (hcore : ¬(alignDown vaddr b.page < lay.kmallocEnd ∧ lay.kernelBase < alignDown vaddr b.page + roundUp size b.page)) :
    (vpage b vaddr i + 1) * b.page ≤ lay.kernelBase ∨ lay.kmallocEnd ≤ vpage b vaddr i * b.page := by
  have hpos : 0 < b.page := Build.page_pos
  obtain ⟨r, hr⟩ : b.page ∣ roundUp size b.page := dvd_roundUp
  rw [hr, Nat.mul_div_cancel_left _ hpos] at hi
  have hstart : alignDown vaddr b.page ≤ vaddr := alignDown_le ..
  have hle : i * b.page + b.page ≤ roundUp size b.page := by
    rw [hr, Nat.mul_comm b.page, ← Nat.succ_mul]
    exact Nat.mul_le_mul_right _ hi
  have hpage : vpage b vaddr i = vaddr / b.page + i := by
    refine Nat.mod_eq_of_lt ((Nat.le_div_iff_mul_le hpos).mpr ?_)
    rw [alignDown] at hstart
    rw [Nat.succ_mul, Nat.add_mul]
    omega
  rw [hpage, Nat.succ_mul, Nat.add_mul]
  rw [alignDown] at hcore
  by_cases h : vaddr / b.page * b.page < lay.kmallocEnd
  · left
    have := not_and.mp hcore h
    omega
  · right
    omega

/-- A frame of a call that maps no more pages than its size has. -/
theorem meets {f : ℕ} (hf : f < roundUp size b.page / b.page) :
    (paddr / b.page + f) * b.page < paddr + size ∧ paddr < (paddr / b.page + f + 1) * b.page := by
  have hpos : 0 < b.page := Build.page_pos
  have hdown : paddr / b.page * b.page ≤ paddr := Nat.div_mul_le_self ..
  have hup := roundUp_lt (b := b) size
  obtain ⟨r, hr⟩ : b.page ∣ roundUp size b.page := dvd_roundUp
  rw [hr, Nat.mul_div_cancel_left _ hpos] at hf
  have hle : (f + 1) * b.page ≤ roundUp size b.page := by
    rw [hr, Nat.mul_comm b.page]
    exact Nat.mul_le_mul_right _ hf
  rw [Nat.add_mul, one_mul] at hle
  constructor
  · rw [Nat.add_mul]
    omega
  · have := Nat.lt_div_mul_add (a := paddr) hpos
    rw [Nat.add_mul, Nat.add_mul]
    omega

theorem memMap_contained (hv : vaddr < b.top) (hp : paddr < b.top) (hs : size < 2 ^ 32)
    (h : (w.sysMemMapAny b lay pid vaddr paddr size m).1 = true) :
    Contained b lay w pid vaddr paddr size m ↔ Fits b lay vaddr paddr size m := by
  have hpos : 0 < b.page := Build.page_pos
  obtain ⟨hwin, via, hvm⟩ := accepted h
  have hsize : size ≠ 0 := by
    simp only [windowOk, Bool.decide_and, Bool.and_eq_true, decide_eq_true_eq] at hwin
    exact hwin.1
  have hm : min m.got (pageCount b paddr (rounded b size)) ≤ b.top / b.page := (Nat.min_le_right _ _).trans pageCount_le
  have hr : rounded b size / b.page ≤ b.top / b.page :=
    Nat.div_le_div_right ((Nat.le_add_right _ _).trans (rounded_add_le.trans Build.le_top))
  have hreach : rounded b size / b.page < 2 ^ 32 / b.page := by
    rw [← Nat.succ_le_iff, Nat.succ_eq_add_one, ← Nat.add_div_right _ hpos]
    exact Nat.div_le_div_right rounded_add_le
  have hcount : pageCount b paddr (rounded b size) = _ := count_eq hp
  have hextra := extra_le (b := b) (x := paddr)
  constructor
  · rintro ⟨-, hroll, hunmap, -⟩
    simp only [mem_unmappedOf, pagesOf_alignDown] at hroll hunmap
    have hroll : _ = _ := (pagesOf_ext hm ((Nat.min_le_left _ _).trans hr)).mp hroll
    have hunmap : _ = _ := (pagesOf_ext hm ((Nat.min_le_left _ _).trans unmapCount_le)).mp hunmap
    -- the size is below 4 GiB, so that none of the two comes round
    have hunmap : min m.got (pageCount b paddr (rounded b size)) = unmapCount b lay vaddr size := by omega
    have hroll : min m.got (pageCount b paddr (rounded b size)) = rounded b size / b.page := by omega
    rw [hcount] at hroll hunmap
    unfold Fits
    dsimp only
    rw [rounded_eq hs] at hroll hunmap
    split
    · rename_i hfit
      rw [if_pos hfit] at hroll hunmap
      obtain ⟨hR, hlt⟩ := windowOk_spec hwin hv hfit
      have hpages : 0 < roundUp size b.page / b.page := Nat.div_pos (Nat.le_of_dvd hR dvd_roundUp) hpos
      obtain ⟨h1, h2⟩ := (unmap_iff hv hfit hsize hlt).mp (hunmap.symm.trans hroll)
      refine ⟨h1, h2, ?_⟩
      split at hroll
      · rename_i hrange
        refine ⟨hrange, ?_⟩
        rw [← extra_eq]
        omega
      · omega
    · rename_i hfit
      rw [if_neg hfit] at hroll hunmap
      rw [Nat.zero_div] at hroll hunmap
      refine ⟨(unmap_none_iff hv hs hsize rfl).mp (hunmap.symm.trans hroll), ?_⟩
      rw [← extra_eq]
      split at hroll <;> omega
  · intro hfits
    unfold Fits at hfits
    dsimp only at hfits
    -- what remains is to count the pages
    suffices hsame : min m.got (pageCount b paddr (rounded b size)) = rounded b size / b.page ∧
        unmapCount b lay vaddr size = rounded b size / b.page by
      refine ⟨fun u hu => ?_, fun u => ?_, fun u => ?_, fun f hf => ?_⟩
      · rw [hvm, hsame.1] at hu
        obtain ⟨i, hi, rfl⟩ := mem_pagesOf.mp (mapPages_other hu).2
        rw [rounded_eq hs] at hi
        split at hi
        · rename_i hfit
          rw [if_pos hfit] at hfits
          exact outside (windowOk_spec hwin hv hfit).2 hi hfits.2.1
        · simp at hi
      · rw [mem_unmappedOf, Nat.min_eq_left hreach.le]
        exact (pagesOf_ext hm hr).mpr hsame.1 u
      · rw [mem_unmappedOf, pagesOf_alignDown, hsame.2, Nat.min_eq_left hreach.le]
        exact (pagesOf_ext hm hr).mpr hsame.1 u
      · simp only [frames, hsame.1, List.mem_map, List.mem_range] at hf
        obtain ⟨i, hi, rfl⟩ := hf
        rw [rounded_eq hs] at hi
        split at hi
        · exact meets hi
        · simp at hi
    rw [hcount]
    rw [rounded_eq hs]
    split at hfits
    · rename_i hfit
      rw [if_pos hfit]
      obtain ⟨h1, h2, hrange, hgot⟩ := hfits
      refine ⟨?_, (unmap_iff hv hfit hsize (windowOk_spec hwin hv hfit).2).mpr ⟨h1, h2⟩⟩
      rw [if_pos hrange]
      rcases hgot with hgot | ⟨hgot, hdvd⟩
      · omega
      · rw [extra_eq.mpr hdvd]
        omega
    · rename_i hfit
      rw [if_neg hfit, Nat.zero_div]
      refine ⟨?_, (unmap_none_iff hv hs hsize rfl).mpr hfits.1⟩
      rcases hfits.2 with hgot | hdvd | hlast
      · rw [hgot, Nat.zero_min]
      · simp [extra_eq.mpr hdvd]
      · rw [if_neg (by omega), Nat.min_zero]

end World

/-- A page of kernel text right behind the window that was checked, for the size of a page. -/
def q8b : Layout := ⟨0x4000000000, 0x4010000000, 0x80000000, 0x1000000⟩

/-- 64-bit addresses and 4K pages. -/
def wide : Build := ⟨12, 64, shift_4k, bits_64⟩

def root : Meets := ⟨true, true, true, 8⟩

theorem memMap_contained_page : World.Contained wide q8b World.boot 3 0x5000000000 0xfe000000 0x1000 root :=
  (World.memMap_contained (by decide) (by decide) (by decide) (by decide +kernel)).mpr (by decide +kernel)

/-- The frame range is a word inside of a page; two pages are mapped, and the second one is the kernel's first. -/
theorem memMap_hits_core : (World.boot.sysMemMapAny wide q8b 3 0x3ffffff000 0xfe000ffc 4 root).1 = true ∧
    (World.boot.sysMemMapAny wide q8b 3 0x3ffffff000 0xfe000ffc 4 root).2.vm 3 (0x4000000000 / 0x1000) = some ⟨0xfe001, none⟩ ∧
    ¬ World.Contained wide q8b World.boot 3 0x3ffffff000 0xfe000ffc 4 root := by
  refine ⟨by decide +kernel, by decide +kernel, fun h => ?_⟩
  have hpage : (World.boot.sysMemMapAny wide q8b 3 0x3ffffff000 0xfe000ffc 4 root).2.vm 3 (0x4000000000 / 0x1000) ≠
      World.boot.vm 3 (0x4000000000 / 0x1000) := by decide +kernel
  have := h.core _ hpage
  revert this
  decide +kernel

end EwokOS.Memory.Dma
