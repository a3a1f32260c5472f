import EwokOS.Memory.Build
import EwokOS.Schemes.Run
import Mathlib.Data.Int.Notation
import Mathlib.Logic.Function.Basic

/-! The break of a process (`proc.c`).

    The image is below `malloc_base`, and the heap goes on from there. The break `heap_used` is moved by the
    bytes that are asked for, and `heap_size` follows it in whole pages:

        | image ......... | heap ................... used |  ..... |
        ^ 0               ^ malloc_base                   ^        ^ heap_size, a multiple of PAGE_SIZE

    The request is signed and is added before anything is looked at; the difference becomes a number of pages,
    rounded down or up by its sign, and that number an `int32_t`. -/

namespace EwokOS.Memory.Brk

open Schemes (Reach Free runIf runOps reach_of_runIf reach_of_runOps)

/-- What there is of a `proc_space_t` here; `vm` has the frame of each page of the heap. -/
structure Space where
  heapUsed : ℕ
  heapSize : ℕ
  mallocBase : ℕ
  vm : ℕ → Option ℕ

/-- What `kalloc_page` gives for one page after the other, and whether `map_page` has a table for it. -/
abbrev Supply := ℕ → Option (ℕ × Bool)

variable (b : Build)

namespace Space
variable (s : Space)

/-- The last page goes. -/
def dropPage : Space :=
  let vaddr := (s.heapSize + b.top - b.page) % b.top
  { s with heapSize := vaddr, vm := Function.update s.vm (vaddr / b.page) none }

/-- The loop of `proc_shrink_mem`. -/
def shrinkLoop : ℕ → Space → Space
  | 0, s => s
  | n + 1, s => if (s.dropPage b).heapSize = 0 then s.dropPage b else shrinkLoop n (s.dropPage b)

/-- `proc_shrink_mem`. -/
def procShrinkMem (pageNum : ℤ) : Space := shrinkLoop b pageNum.toNat s

/-- A page comes; that `map_page` fails is not noticed. -/
def addPage (p : ℕ × Bool) : Space :=
  { s with
    heapSize := (s.heapSize + b.page) % b.top
    vm := if p.2 then Function.update s.vm (s.heapSize / b.page) (some p.1) else s.vm }

/-- The loop of `proc_expand_mem`, from page `i` on. -/
def growLoop (sup : Supply) : ℕ → ℕ → Space → Bool × Space
  | 0, _, s => (true, s)
  | n + 1, i, s =>
    match sup i with
    | none => (false, s.procShrinkMem b i)
    | some p => growLoop sup n (i + 1) (s.addPage b p)

/-- The heap would grow over `limit`, the DMA window where that is at the top of the memory. -/
def overLimit (limit : Option ℕ) (pages : ℕ) : Bool := limit.any fun l => l < (s.heapSize + pages * b.page) % b.top

/-- `proc_expand_mem`. -/
def procExpandMem (limit : Option ℕ) (sup : Supply) (pageNum : ℤ) : Bool × Space :=
  if pageNum ≤ 0 then (true, s)
  else if s.overLimit b limit pageNum.toNat then (false, s)
  else growLoop b sup pageNum.toNat 0 s

/-- Where the break is moved to. -/
def moved (size : ℤ) : ℕ := ((s.heapUsed + size) % b.top).toNat

/-- `proc_malloc`, with `none` for `NULL`. -/
def procMalloc (limit : Option ℕ) (sup : Supply) (size : ℤ) : Option ℕ × Space :=
  let t := { s with heapUsed := s.moved b size }
  let delta := Int.bmod (t.heapUsed - t.heapSize) (2 ^ 64)
  if delta = 0 then (some t.mallocBase, t)
  else
    let sizeAbs :=
      if delta < 0 then alignDown (delta.natAbs % b.top) b.page else b.alignUp (delta.natAbs % b.top) b.page
    let pages := sizeAbs / b.page
    if pages = 0 then (some t.mallocBase, t)
    else if delta < 0 then (some t.mallocBase, t.procShrinkMem b (Int.bmod pages (2 ^ 32)))
    else if 0x7fffffff < pages then (none, { t with heapUsed := t.moved b (-size) })
    else
      match t.procExpandMem b limit sup (Int.bmod pages (2 ^ 32)) with
      | (true, u) => (some t.mallocBase, u)
      | (false, u) => (none, { u with heapUsed := u.moved b (-size) })

end Space

/-- A call, and what it meets. -/
structure Call where
  size : BitVec 64
  supply : Supply

namespace Space
variable (limit : Option ℕ) (s : Space)

def step (c : Call) : Option Space := some (s.procMalloc b limit c.supply c.size.toInt).2

/-- A process whose image has been loaded. -/
structure Loaded (s : Space) : Prop where
  aligned : b.page ∣ s.heapSize
  small : s.heapSize < b.top
  mapped : ∀ v, (s.vm v).isSome = true ↔ v * b.page < s.heapSize
  base : s.mallocBase = s.heapSize
  used : s.heapUsed = s.heapSize

/-- The break and the pages of the heap are right. -/
structure Good (s : Space) : Prop where
  aligned : b.page ∣ s.heapSize
  small : s.heapSize < b.top
  mapped : ∀ v, (s.vm v).isSome = true ↔ v * b.page < s.heapSize
  base : s.mallocBase ≤ s.heapUsed
  used : s.heapUsed ≤ s.heapSize
  tight : s.heapSize < s.heapUsed + b.page

end Space

/-- How many of `n` pages get a frame, from page `i` on. -/
def granted (sup : Supply) : ℕ → ℕ → ℕ
  | 0, _ => 0
  | n + 1, i =>
    match sup i with
    | none => 0
    | some _ => granted sup n (i + 1) + 1

namespace Space
variable (limit : Option ℕ) (s : Space)

/-- The pages that a growth to `u` takes. -/
def ask (u : ℕ) : ℕ := roundUp (u - s.heapSize) b.page / b.page

/-- The break stays above the image. What it goes down is less than 2^31 pages. What it goes up is less than 2^63
    bytes and leaves the address space with room, and is refused for its size, or the pages that get frames leave
    room too, and if they all do they all find tables. -/
def Fits (c : Call) : Prop :=
  let u := s.moved b c.size.toInt
  s.mallocBase ≤ u ∧
    if u ≤ s.heapSize then (s.heapSize - u) / b.page < 2 ^ 31
    else
      u < s.heapSize + 2 ^ 63 ∧ s.ask b u * b.page < b.top ∧
        (2 ^ 31 ≤ s.ask b u ∨ s.overLimit b limit (s.ask b u) = true ∨
          (s.heapSize + granted c.supply (s.ask b u) 0 * b.page < b.top ∧
            (granted c.supply (s.ask b u) 0 = s.ask b u → ∀ i < s.ask b u, (c.supply i).all Prod.snd = true)))

end Space

/-! ### The loops -/

variable {b} {s : Space} {sup : Supply} {m n i g : ℕ}

theorem page_dvd_top : b.page ∣ b.top := Build.page_dvd.trans Build.top_dvd

theorem dropPage_eq (h : s.heapSize = (m + 1) * b.page) (hm : (m + 1) * b.page < b.top) :
    s.dropPage b = { s with heapSize := m * b.page, vm := Function.update s.vm m none } := by
  have hpos : 0 < b.page := Build.page_pos
  have hsub : (s.heapSize + b.top - b.page) % b.top = m * b.page := by
    rw [h, Nat.succ_mul]
    rw [Nat.succ_mul] at hm
    have : m * b.page + b.page + b.top - b.page = m * b.page + b.top := by omega
    rw [this, Nat.add_mod_right, Nat.mod_eq_of_lt (by omega)]
  rw [Space.dropPage, hsub, Nat.mul_div_cancel _ hpos]

/-- So many pages go, and no others. -/
theorem shrinkLoop_eq (h : s.heapSize = m * b.page) (hm : m * b.page < b.top) (hn : n ≤ m) :
    Space.shrinkLoop b n s =
      { s with heapSize := (m - n) * b.page, vm := fun v => if m - n ≤ v ∧ v < m then none else s.vm v } := by
  induction n generalizing s m with
  | zero =>
    have hvm : (fun v => if m - 0 ≤ v ∧ v < m then none else s.vm v) = s.vm := by
      funext v
      rw [if_neg (by omega)]
    rw [Space.shrinkLoop, hvm, Nat.sub_zero, ← h]
  | succ n ih =>
    obtain ⟨k, rfl⟩ := Nat.exists_eq_succ_of_ne_zero (by omega : m ≠ 0)
    have hpos : 0 < b.page := Build.page_pos
    have hk : k * b.page < b.top := Nat.lt_of_le_of_lt (Nat.mul_le_mul_right _ (Nat.le_succ k)) hm
    rw [Space.shrinkLoop, dropPage_eq h hm]
    split
    · rename_i h0
      have hk0 : k = 0 := by
        rcases Nat.mul_eq_zero.mp h0 with h | h <;> omega
      have hn0 : n = 0 := by omega
      subst hk0 hn0
      congr 1
      funext v
      by_cases hv : v = 0
      · simp [hv]
      · rw [Function.update_of_ne hv, if_neg (by omega)]
    · rw [ih rfl hk (by omega)]
      have hsub : k + 1 - (n + 1) = k - n := by omega
      simp only [Nat.succ_eq_add_one, hsub]
      congr 1
      funext v
      by_cases hv : v = k
      · rw [hv, Function.update_self, ite_self, if_pos (by omega)]
      · rw [Function.update_of_ne hv]
        by_cases hin : k - n ≤ v ∧ v < k
        · rw [if_pos hin, if_pos (by omega)]
        · rw [if_neg hin, if_neg (by omega)]

/-- The space with `g` pages more. -/
def grown (b : Build) (sup : Supply) (s : Space) (m i g : ℕ) : Space :=
  { s with
    heapSize := (m + g) * b.page
    vm := fun v =>
      if m ≤ v ∧ v < m + g then (sup (i + (v - m))).bind fun p => if p.2 then some p.1 else s.vm v else s.vm v }

theorem grown_zero (h : s.heapSize = m * b.page) : grown b sup s m i 0 = s := by
  have hvm : (grown b sup s m i 0).vm = s.vm := by
    funext v
    exact if_neg (by omega)
  obtain ⟨used, size, base, vm⟩ := s
  cases h
  exact congrArg (Space.mk used _ base) hvm

/-- A page first and then the others. -/
theorem grown_add (h : s.heapSize = m * b.page) (hm : (m + 1) * b.page < b.top) {p : ℕ × Bool} (hs : sup i = some p) :
    (s.addPage b p).heapSize = (m + 1) * b.page ∧
      grown b sup (s.addPage b p) (m + 1) (i + 1) g = grown b sup s m i (g + 1) := by
  have hsum : m + 1 + g = m + (g + 1) := by omega
  have hdiv : s.heapSize / b.page = m := by rw [h, Nat.mul_div_cancel _ Build.page_pos]
  refine ⟨?_, ?_⟩
  · rw [Space.addPage, h, ← Nat.succ_mul]
    exact Nat.mod_eq_of_lt hm
  · simp only [grown, Space.addPage, hdiv, hsum]
    congr 1
    funext v
    by_cases hv : v = m
    · have hout : ¬(m + 1 ≤ m ∧ m < m + (g + 1)) := by omega
      have hin : m ≤ m ∧ m < m + (g + 1) := by omega
      rw [hv, if_neg hout, if_pos hin, Nat.sub_self, Nat.add_zero, hs]
      obtain ⟨f, ok⟩ := p
      cases ok <;> simp
    · have hother : (if p.2 = true then Function.update s.vm m (some p.1) else s.vm) v = s.vm v := by
        split
        · exact Function.update_of_ne hv _ _
        · rfl
      rw [hother]
      by_cases hin : m + 1 ≤ v ∧ v < m + (g + 1)
      · have hidx : i + 1 + (v - (m + 1)) = i + (v - m) := by omega
        rw [if_pos hin, if_pos (by omega), hidx]
      · rw [if_neg hin, if_neg (by omega)]

/-- The pages come while there are frames, and go again if there are not enough. -/
theorem growLoop_eq (h : s.heapSize = m * b.page) (hm : (m + granted sup n i) * b.page < b.top) :
    Space.growLoop b sup n i s =
      if granted sup n i = n then (true, grown b sup s m i n)
      else (false, (grown b sup s m i (granted sup n i)).procShrinkMem b (i + granted sup n i : ℕ)) := by
  induction n generalizing s m i with
  | zero => rw [Space.growLoop, granted, if_pos rfl, grown_zero h]
  | succ n ih =>
    cases hs : sup i with
    | none =>
      have hg : granted sup (n + 1) i = 0 := by rw [granted, hs]
      rw [Space.growLoop, hs, hg, if_neg (by omega), grown_zero h]
      rfl
    | some p =>
      have hg : granted sup (n + 1) i = granted sup n (i + 1) + 1 := by rw [granted, hs]
      rw [hg] at hm ⊢
      have hsum : m + 1 + granted sup n (i + 1) = m + (granted sup n (i + 1) + 1) := by omega
      have hone : (m + 1) * b.page < b.top := Nat.lt_of_le_of_lt (Nat.mul_le_mul_right _ (by omega)) hm
      have hidx : i + 1 + granted sup n (i + 1) = i + (granted sup n (i + 1) + 1) := by omega
      obtain ⟨hsize, -⟩ := grown_add (g := 0) h hone hs
      rw [Space.growLoop, hs]
      dsimp only
      rw [ih hsize (by rwa [hsum]), (grown_add h hone hs).2, (grown_add h hone hs).2, hidx]
      by_cases hall : granted sup n (i + 1) = n
      · rw [if_pos hall, if_pos (by omega)]
      · rw [if_neg hall, if_neg (by omega)]

theorem granted_le (sup : Supply) (n i : ℕ) : granted sup n i ≤ n := by
  induction n generalizing i with
  | zero => exact Nat.le_refl _
  | succ n ih =>
    rw [granted]
    split
    · exact Nat.zero_le _
    · exact Nat.succ_le_succ (ih _)

theorem granted_some {k : ℕ} (h : k < granted sup n i) : (sup (i + k)).isSome = true := by
  induction n generalizing i k with
  | zero => exact absurd h (Nat.not_lt_zero k)
  | succ n ih =>
    rw [granted] at h
    split at h
    · exact absurd h (Nat.not_lt_zero k)
    · rename_i p hs
      cases k with
      | zero => rw [Nat.add_zero, hs, Option.isSome_some]
      | succ k =>
        have hk := ih (i := i + 1) (Nat.lt_of_succ_lt_succ h)
        rwa [Nat.add_assoc, Nat.add_comm 1 k] at hk

/-! ### A call -/

namespace Space
variable {limit : Option ℕ} {c : Call} {size : ℤ} {u : ℕ}

theorem top_pos : 0 < b.top := Nat.lt_of_lt_of_le (by decide) Build.le_top

theorem moved_lt : s.moved b size < b.top := by
  have htop : (0 : ℤ) < b.top := Int.natCast_pos.mpr top_pos
  have h0 := Int.emod_nonneg (s.heapUsed + size) (by omega : (b.top : ℤ) ≠ 0)
  have hlt := Int.emod_lt_of_pos (s.heapUsed + size) htop
  rw [moved]
  omega

/-- Moving the break back. -/
theorem moved_back (hused : s.heapUsed < b.top) (t : Space) (ht : t.heapUsed = s.moved b size) :
    t.moved b (-size) = s.heapUsed := by
  have htop : (0 : ℤ) < b.top := Int.natCast_pos.mpr top_pos
  have h0 := Int.emod_nonneg (s.heapUsed + size) (by omega : (b.top : ℤ) ≠ 0)
  rw [moved, ht, moved, Int.toNat_of_nonneg h0, ← Int.sub_eq_add_neg, Int.emod_sub_emod, Int.add_sub_cancel,
    Int.emod_eq_of_lt (by omega) (by omega), Int.toNat_natCast]

/-- The break goes down. -/
theorem procMalloc_down (hg : s.Good b) (hu : s.moved b size ≤ s.heapSize)
    (hk : (s.heapSize - s.moved b size) / b.page < 2 ^ 31) :
    ∃ k, k * b.page ≤ s.heapSize - s.moved b size ∧ s.heapSize - s.moved b size < (k + 1) * b.page ∧
      s.procMalloc b limit sup size = (some s.mallocBase,
        { s with
          heapUsed := s.moved b size
          heapSize := (s.heapSize / b.page - k) * b.page
          vm := fun v => if s.heapSize / b.page - k ≤ v ∧ v < s.heapSize / b.page then none else s.vm v }) := by
  have hpos : 0 < b.page := Build.page_pos
  obtain ⟨m, hm⟩ := hg.aligned
  rw [Nat.mul_comm] at hm
  have hsmall := hg.small
  have hdiv : s.heapSize / b.page = m := by rw [hm, Nat.mul_div_cancel _ hpos]
  refine ⟨(s.heapSize - s.moved b size) / b.page, Nat.div_mul_le_self _ _,
    Nat.lt_mul_of_div_lt (Nat.lt_succ_self _) hpos, ?_⟩
  obtain ⟨d, hd⟩ : ∃ d, d = s.heapSize - s.moved b size := ⟨_, rfl⟩
  rw [← hd] at hk ⊢
  have hlow : d / b.page * b.page ≤ d := Nat.div_mul_le_self _ _
  have hkm : d / b.page ≤ m := by
    rw [← hdiv]
    exact Nat.div_le_div_right (by omega)
  have hd63 : d < 2 ^ 63 := by
    have h16 : b.page ≤ 2 ^ 16 := by
      rcases b.shift_mem with h | h | h <;> simp [Build.page, h]
    have h1 := Nat.lt_mul_of_div_lt hk hpos
    have h2 : 2 ^ 31 * b.page ≤ 2 ^ 31 * 2 ^ 16 := Nat.mul_le_mul_left _ h16
    omega
  have hdelta : Int.bmod ((s.moved b size : ℤ) - s.heapSize) (2 ^ 64) = -d := by
    have : (s.moved b size : ℤ) - s.heapSize = -d := by omega
    rw [this]
    exact Int.bmod_eq_of_le (by omega) (by omega)
  obtain ⟨k, hkd⟩ : ∃ k, k = d / b.page := ⟨_, rfl⟩
  rw [← hkd] at hk hlow hkm ⊢
  have hshrunk : ∀ t : Space, t.heapSize = s.heapSize → t.procShrinkMem b (Int.bmod k (2 ^ 32)) =
      { t with
        heapSize := (m - k) * b.page
        vm := fun v => if m - k ≤ v ∧ v < m then none else t.vm v } := by
    intro t ht
    rw [procShrinkMem, Int.bmod_eq_of_le (by omega) (by omega), Int.toNat_natCast]
    exact shrinkLoop_eq (ht.trans hm) (hm ▸ hsmall) hkm
  have hsame : k = 0 → ({ s with
      heapUsed := s.moved b size
      heapSize := (m - k) * b.page
      vm := fun v => if m - k ≤ v ∧ v < m then none else s.vm v } : Space) =
      { s with heapUsed := s.moved b size } := by
    intro h0
    have hvm : (fun v => if m - k ≤ v ∧ v < m then none else s.vm v) = s.vm := by
      funext v
      rw [if_neg (by omega)]
    rw [hvm, h0, Nat.sub_zero, ← hm]
  simp only [procMalloc, hdelta, hdiv]
  by_cases hd0 : d = 0
  · rw [if_pos (by omega), hsame (by rw [hkd, hd0, Nat.zero_div])]
  · have hneg : (-d : ℤ) < 0 := by omega
    have habs : alignDown ((-d : ℤ).natAbs % b.top) b.page / b.page = k := by
      rw [Int.natAbs_neg, Int.natAbs_natCast, Nat.mod_eq_of_lt (by omega), alignDown, Nat.mul_div_cancel _ hpos, hkd]
    rw [if_neg (by omega), if_pos hneg, habs]
    by_cases hk0 : k = 0
    · rw [if_pos hk0, hsame hk0]
    · rw [if_neg hk0, if_pos hneg, hshrunk { s with heapUsed := s.moved b size } rfl]

/-- The break goes up. -/
theorem procMalloc_up (hg : s.Good b) (hu : s.heapSize < s.moved b size) (hbig : s.moved b size < s.heapSize + 2 ^ 63)
    (hask : s.ask b (s.moved b size) * b.page < b.top) :
    s.procMalloc b limit sup size =
      if 2 ^ 31 ≤ s.ask b (s.moved b size) ∨ s.overLimit b limit (s.ask b (s.moved b size)) = true then (none, s)
      else
        match growLoop b sup (s.ask b (s.moved b size)) 0 { s with heapUsed := s.moved b size } with
        | (true, u) => (some s.mallocBase, u)
        | (false, u) => (none, { u with heapUsed := u.moved b (-size) }) := by
  have hpos : 0 < b.page := Build.page_pos
  have hback : ∀ t : Space, t.heapUsed = s.moved b size → t.moved b (-size) = s.heapUsed :=
    moved_back (Nat.lt_of_le_of_lt hg.used hg.small)
  have hlt : s.moved b size < b.top := moved_lt
  obtain ⟨d, hd⟩ : ∃ d, d = s.moved b size - s.heapSize := ⟨_, rfl⟩
  have hask' : s.ask b (s.moved b size) = roundUp d b.page / b.page := by rw [ask, ← hd]
  rw [hask'] at hask ⊢
  have hdvd : b.page ∣ roundUp d b.page := Nat.dvd_mul_left ..
  have hle : d ≤ roundUp d b.page := le_roundUp hpos
  rw [Nat.div_mul_cancel hdvd] at hask
  -- the rounding does not wrap
  have hwrap : d + (b.page - 1) < b.top := by
    by_contra hge
    obtain ⟨k, hk⟩ := page_dvd_top (b := b)
    have h1 : b.top / b.page ≤ (d + (b.page - 1)) / b.page := Nat.div_le_div_right (by omega)
    have h2 := Nat.mul_le_mul_right b.page h1
    rw [Nat.div_mul_cancel page_dvd_top] at h2
    rw [roundUp] at hask
    omega
  have hdelta : Int.bmod ((s.moved b size : ℤ) - s.heapSize) (2 ^ 64) = d := by
    have : (s.moved b size : ℤ) - s.heapSize = d := by omega
    rw [this]
    exact Int.bmod_eq_of_le (by omega) (by omega)
  have habs : b.alignUp ((d : ℤ).natAbs % b.top) b.page = roundUp d b.page := by
    rw [Int.natAbs_natCast, Nat.mod_eq_of_lt (by omega), Build.alignUp_eq hwrap]
  have hne : roundUp d b.page / b.page ≠ 0 := by
    rw [Nat.div_ne_zero_iff]
    exact ⟨Nat.ne_of_gt hpos, Nat.le_of_dvd (by omega) hdvd⟩
  simp only [procMalloc, hdelta]
  have hpositive : ¬(d : ℤ) < 0 := by omega
  rw [if_neg (by omega), if_neg hpositive, habs, if_neg hne, if_neg hpositive]
  by_cases h31 : 2 ^ 31 ≤ roundUp d b.page / b.page
  · rw [if_pos (by omega), if_pos (.inl h31), hback _ rfl]
  · rw [if_neg (by omega), procExpandMem, Int.bmod_eq_of_le (by omega) (by omega), if_neg (by omega),
      Int.toNat_natCast]
    by_cases hlim : s.overLimit b limit (roundUp d b.page / b.page) = true
    · have hlim' : ({ s with heapUsed := s.moved b size } : Space).overLimit b limit (roundUp d b.page / b.page) = true :=
        hlim
      rw [if_pos hlim', if_pos (.inr hlim)]
      dsimp only
      rw [hback _ rfl]
    · have hlim' : ¬({ s with heapUsed := s.moved b size } : Space).overLimit b limit (roundUp d b.page / b.page) = true :=
        hlim
      rw [if_neg hlim', if_neg (by rintro (h | h) <;> contradiction)]

theorem Good.call_down (hg : s.Good b) (hbase : s.mallocBase ≤ s.moved b size) (hu : s.moved b size ≤ s.heapSize)
    (hk : (s.heapSize - s.moved b size) / b.page < 2 ^ 31) :
    (s.procMalloc b limit sup size).2.Good b ∧ (s.procMalloc b limit sup size).2.mallocBase = s.mallocBase ∧
      (∀ v, v * b.page < s.mallocBase → (s.procMalloc b limit sup size).2.vm v = s.vm v) ∧
      (s.procMalloc b limit sup size).1 ≠ none := by
  have hpos : 0 < b.page := Build.page_pos
  obtain ⟨k, hlow, hhigh, hr⟩ := procMalloc_down hg hu hk
  obtain ⟨m, hm⟩ := hg.aligned
  rw [Nat.mul_comm] at hm
  have hdiv : s.heapSize / b.page = m := by rw [hm, Nat.mul_div_cancel _ hpos]
  have hsmall := hg.small
  rw [hdiv] at hr
  rw [hr]
  have hsub : (m - k) * b.page = s.heapSize - k * b.page := by rw [Nat.sub_mul, ← hm]
  rw [Nat.succ_mul] at hhigh
  have hcell : ∀ v, v < m - k ↔ v * b.page < (m - k) * b.page := fun v =>
    ⟨fun h => Nat.mul_lt_mul_of_pos_right h hpos, fun h => Nat.lt_of_mul_lt_mul_right h⟩
  refine ⟨⟨Nat.dvd_mul_left .., ?_, fun v => ?_, hbase, ?_, ?_⟩, rfl, fun v hv => ?_, by simp⟩
  · dsimp only
    omega
  · dsimp only
    by_cases hin : m - k ≤ v ∧ v < m
    · rw [if_pos hin, ← hcell]
      simp only [Option.isSome_none, Bool.false_eq_true, false_iff]
      omega
    · rw [if_neg hin, hg.mapped v, ← hcell, hm]
      constructor
      · intro h
        have := Nat.lt_of_mul_lt_mul_right h
        omega
      · intro h
        exact Nat.mul_lt_mul_of_pos_right (by omega) hpos
  · dsimp only
    omega
  · dsimp only
    omega
  · dsimp only
    rw [if_neg]
    have hlt : v < m - k := (hcell v).mpr (by omega)
    omega

theorem Good.call_up (hg : s.Good b) (hbase : s.mallocBase ≤ s.moved b size) (hu : s.heapSize < s.moved b size)
    (hbig : s.moved b size < s.heapSize + 2 ^ 63) (hask : s.ask b (s.moved b size) * b.page < b.top)
    (hroom : 2 ^ 31 ≤ s.ask b (s.moved b size) ∨ s.overLimit b limit (s.ask b (s.moved b size)) = true ∨
      (s.heapSize + granted sup (s.ask b (s.moved b size)) 0 * b.page < b.top ∧
        (granted sup (s.ask b (s.moved b size)) 0 = s.ask b (s.moved b size) →
          ∀ i < s.ask b (s.moved b size), (sup i).all Prod.snd = true))) :
    (s.procMalloc b limit sup size).2.Good b ∧ (s.procMalloc b limit sup size).2.mallocBase = s.mallocBase ∧
      (∀ v, v * b.page < s.mallocBase → (s.procMalloc b limit sup size).2.vm v = s.vm v) ∧
      ((s.procMalloc b limit sup size).1 = none → (s.procMalloc b limit sup size).2 = s) := by
  have hpos : 0 < b.page := Build.page_pos
  rw [procMalloc_up hg hu hbig hask]
  by_cases hno : 2 ^ 31 ≤ s.ask b (s.moved b size) ∨ s.overLimit b limit (s.ask b (s.moved b size)) = true
  · rw [if_pos hno]
    exact ⟨hg, rfl, fun _ _ => rfl, fun _ => rfl⟩
  rw [if_neg hno]
  obtain ⟨hlt, htables⟩ := (hroom.resolve_left fun h => hno (.inl h)).resolve_left fun h => hno (.inr h)
  obtain ⟨m, hm⟩ := hg.aligned
  rw [Nat.mul_comm] at hm
  have hmoved : s.moved b size - s.heapSize ≤ s.ask b (s.moved b size) * b.page ∧
      s.ask b (s.moved b size) * b.page < s.moved b size - s.heapSize + b.page := by
    have hdvd : b.page ∣ roundUp (s.moved b size - s.heapSize) b.page := Nat.dvd_mul_left ..
    rw [ask, Nat.div_mul_cancel hdvd]
    refine ⟨le_roundUp hpos, ?_⟩
    have := Nat.div_mul_le_self (s.moved b size - s.heapSize + (b.page - 1)) b.page
    rw [roundUp]
    omega
  generalize hn : s.ask b (s.moved b size) = n at *
  have hgle := granted_le sup n 0
  rw [hm, ← Nat.add_mul] at hlt
  have hloop := growLoop_eq (s := { s with heapUsed := s.moved b size }) hm hlt
  rw [hloop]
  by_cases hall : granted sup n 0 = n
  · -- all the pages are there
    rw [if_pos hall]
    rw [hall] at hlt
    have hsum : (m + n) * b.page = s.heapSize + n * b.page := by rw [Nat.add_mul, ← hm]
    refine ⟨⟨Nat.dvd_mul_left .., hlt, fun v => ?_, hbase, ?_, ?_⟩, rfl, fun v hv => ?_, fun h => by cases h⟩
    · have hcell : v < m + n ↔ v * b.page < (m + n) * b.page :=
        ⟨fun h => Nat.mul_lt_mul_of_pos_right h hpos, fun h => Nat.lt_of_mul_lt_mul_right h⟩
      have hold : v < m ↔ v * b.page < m * b.page :=
        ⟨fun h => Nat.mul_lt_mul_of_pos_right h hpos, fun h => Nat.lt_of_mul_lt_mul_right h⟩
      simp only [grown]
      rw [← hcell]
      by_cases hin : m ≤ v ∧ v < m + n
      · rw [if_pos hin, Nat.zero_add]
        obtain ⟨p, hp⟩ := Option.isSome_iff_exists.mp
          (granted_some (show v - m < granted sup n 0 by omega))
        rw [Nat.zero_add] at hp
        have htab := htables hall (v - m) (by omega)
        rw [hp, Option.all_some] at htab
        rw [hp, Option.bind_some, if_pos htab]
        simp only [Option.isSome_some, true_iff]
        exact hin.2
      · rw [if_neg hin, hg.mapped v, hm, ← hold]
        omega
    · simp only [grown]
      omega
    · simp only [grown]
      omega
    · simp only [grown]
      have hvm : v < m := by
        have h1 := hg.base
        have h2 := hg.used
        have : v * b.page < m * b.page := by omega
        exact Nat.lt_of_mul_lt_mul_right this
      rw [if_neg (by omega)]
  · -- the pages that are there go again
    rw [if_neg hall]
    have hshrunk : (grown b sup { s with heapUsed := s.moved b size } m 0 (granted sup n 0)).procShrinkMem b
        (0 + granted sup n 0 : ℕ) = { s with heapUsed := s.moved b size } := by
      rw [procShrinkMem, Int.toNat_natCast, Nat.zero_add, shrinkLoop_eq rfl hlt (Nat.le_add_left _ _)]
      simp only [grown, Nat.add_sub_cancel, ← hm]
      congr 1
      funext v
      by_cases hin : m ≤ v ∧ v < m + granted sup n 0
      · rw [if_pos hin]
        have hnone : ¬(s.vm v).isSome = true := by
          rw [hg.mapped v, hm]
          have := Nat.mul_le_mul_right b.page hin.1
          omega
        exact (by simpa using hnone : s.vm v = none).symm
      · rw [if_neg hin, if_neg hin]
    dsimp only
    rw [hshrunk]
    have hres : ({ s with heapUsed := ({ s with heapUsed := s.moved b size } : Space).moved b (-size) } : Space) = s := by
      rw [moved_back (Nat.lt_of_le_of_lt hg.used hg.small) { s with heapUsed := s.moved b size } rfl]
    rw [hres]
    exact ⟨hg, rfl, fun _ _ => rfl, fun _ => rfl⟩

/-- What one call does. -/
theorem Good.call (hg : s.Good b) (hf : Fits b limit s c) :
    (s.procMalloc b limit c.supply c.size.toInt).2.Good b ∧
      (s.procMalloc b limit c.supply c.size.toInt).2.mallocBase = s.mallocBase ∧
      (∀ v, v * b.page < s.mallocBase → (s.procMalloc b limit c.supply c.size.toInt).2.vm v = s.vm v) ∧
      ((s.procMalloc b limit c.supply c.size.toInt).1 = none → (s.procMalloc b limit c.supply c.size.toInt).2 = s) := by
  obtain ⟨hbase, hf⟩ := hf
  split at hf
  · rename_i hu
    obtain ⟨h1, h2, h3, h4⟩ := hg.call_down hbase hu hf
    exact ⟨h1, h2, h3, fun h => absurd h h4⟩
  · rename_i hu
    exact hg.call_up hbase (by omega) hf.1 hf.2.1 hf.2.2

theorem Loaded.good (h : s.Loaded b) : s.Good b :=
  ⟨h.aligned, h.small, h.mapped, by rw [h.base, h.used], Nat.le_of_eq h.used, by
    rw [h.used]
    exact Nat.lt_add_of_pos_right Build.page_pos⟩

/-- While every request fits, the break and the heap stay right, the image stays mapped as it was, and a call that
    fails leaves everything as it was. -/
theorem break_consistent {s₀ : Space} (h₀ : s₀.Loaded b) (h : Reach (step b limit) (Fits b limit) s₀ s) :
    s.Good b ∧ (∀ v, v * b.page < s₀.mallocBase → s.vm v = s₀.vm v) ∧
      ∀ c, Fits b limit s c → (s.procMalloc b limit c.supply c.size.toInt).1 = none →
        (s.procMalloc b limit c.supply c.size.toInt).2 = s := by
  have hinv : s.Good b ∧ s.mallocBase = s₀.mallocBase ∧ ∀ v, v * b.page < s₀.mallocBase → s.vm v = s₀.vm v := by
    refine h.inv (I := fun s => s.Good b ∧ s.mallocBase = s₀.mallocBase ∧
      ∀ v, v * b.page < s₀.mallocBase → s.vm v = s₀.vm v) ⟨h₀.good, rfl, fun _ _ => rfl⟩ ?_
    rintro t c u ⟨hg, hb, hvm⟩ hf hstep
    cases hstep
    obtain ⟨h1, h2, h3, -⟩ := hg.call hf
    exact ⟨h1, h2.trans hb, fun v hv => (h3 v (hb ▸ hv)).trans (hvm v hv)⟩
  exact ⟨hinv.1, hinv.2.2, fun c hf => (hinv.1.call hf).2.2.2⟩

instance : DecidablePred (Fits b limit s) := fun c => by
  unfold Fits
  dsimp only
  refine @instDecidableAnd _ _ inferInstance ?_
  split <;> infer_instance

/-- Pages of 4K and addresses of 64 bits. -/
def aarch64 : Build := ⟨12, 64, shift_4k, bits_64⟩

/-- An image of two pages. -/
def image : Space := ⟨8192, 8192, 8192, fun v => if v < 2 then some v else none⟩

theorem image_loaded : image.Loaded aarch64 := by
  refine ⟨⟨2, rfl⟩, by decide, fun v => ?_, rfl, rfl⟩
  have hpage : aarch64.page = 4096 := rfl
  rw [hpage]
  simp only [image]
  split
  · simp only [Option.isSome_some, true_iff]
    omega
  · simp only [Option.isSome_none, Bool.false_eq_true, false_iff]
    omega

/-- So many frames, and tables for all of them. -/
def frames (n : ℕ) : Supply := fun i => if i < n then some (100 + i, true) else none

/-- The heap grows by two pages, shrinks by one, and cannot grow by three. -/
theorem break_consistent_image : ∃ s, Reach (step aarch64 none) (Fits aarch64 none) image s ∧
    (s.heapUsed, s.heapSize, s.vm 2, s.vm 3) = (10192, 12288, some 100, none) ∧ s.Good aarch64 ∧
    ∀ v, v * aarch64.page < 8192 → s.vm v = image.vm v := by
  have hrun : (runIf (step aarch64 none) (fun s c => decide (Fits aarch64 none s c)) image
      [⟨5000, frames 2⟩, ⟨-3000, frames 0⟩, ⟨12000, frames 2⟩]).map
      (fun s => (s.heapUsed, s.heapSize, s.vm 2, s.vm 3)) = some (10192, 12288, some 100, none) := by decide +kernel
  obtain ⟨s, hs, hfacts⟩ := Option.map_eq_some_iff.mp hrun
  have hr : Reach (step aarch64 none) (Fits aarch64 none) image s := reach_of_runIf hs fun _ _ => of_decide_eq_true
  obtain ⟨hgood, himage, -⟩ := break_consistent image_loaded hr
  exact ⟨s, hr, hfacts, hgood, himage⟩

/-- A request that goes below the image unmaps it. -/
theorem image_unmapped : image.Loaded aarch64 ∧ ∃ s, Reach (step aarch64 none) Free image s ∧
    image.vm 0 = some 0 ∧ s.vm 0 = none ∧ s.vm 1 = none ∧ ¬s.Good aarch64 := by
  refine ⟨image_loaded, ?_⟩
  have hrun : (runOps (step aarch64 none) image [⟨-8192, frames 0⟩]).map
      (fun s => (s.vm 0, s.vm 1, s.heapUsed, s.mallocBase)) = some (none, none, 0, 8192) := by decide +kernel
  obtain ⟨s, hs, hfacts⟩ := Option.map_eq_some_iff.mp hrun
  simp only [Prod.mk.injEq] at hfacts
  refine ⟨s, reach_of_runOps hs, rfl, hfacts.1, hfacts.2.1, fun hgood => ?_⟩
  have := hgood.base
  omega

end Space

end EwokOS.Memory.Brk
