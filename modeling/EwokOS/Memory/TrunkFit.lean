import EwokOS.Memory.TrunkRun

/-! Whether `trunk_malloc` grows the heap with room left in it (`mm/trunkmem.c`).

    The search begins at `start`, which is moved behind every block that is given out and back in front of
    every block that is freed. It misses what lies before:

        [ free ][ used ][ small free ][ used ]        start points here, and a request that only
                   ▲ start                            the first block holds takes fresh pages

    That happens when a request passes over a free block, and when a block is freed while `start` is NULL:
    the search would have begun at the head, and now it begins in front of the block that was freed. -/

namespace EwokOS.Memory.Heap

open Schemes (Reach Free runIf runOps reach_of_runIf reach_of_runOps getLastD_append_cons)

section
variable (b : Build) (m : Heap)

/-- The blocks from `block` on, by `next`. -/
def chain : ℕ → ℕ → List ℕ
  | 0, _ => []
  | n + 1, block => if block = 0 then [] else block :: chain n (m.next block)

/-- The blocks of the heap. -/
def blocks : List ℕ := m.chain (m.memTail + 1) m.head

/-- The blocks that a search looks at. -/
def ahead : List ℕ := if m.start ∈ m.blocks then m.blocks.dropWhile (· ≠ m.start) else m.blocks

/-- A free block that holds the request is given out, whatever `expand` would say; and a caller gets NULL only
    where no free block holds the request and `expand` fails. -/
structure UsesFree (size : ℕ) : Prop where
  found : (∃ a ∈ m.blocks, m.holds (b.alignUp size 16) a = true) → ∃ a ∈ m.blocks, m.holds (b.alignUp size 16) a = true ∧
    ∀ ok, m.trunkMalloc b size ok = (m.take a size).settle b a (b.alignUp size 16) ∧
      (m.trunkMalloc b size ok).1 = a + hdrSize b
  null : ∀ ok, (m.trunkMalloc b size ok).1 = 0 → ok = false ∧ ∀ a ∈ m.blocks, m.holds (b.alignUp size 16) a = false

/-- `try_break` leaves a block of `size` bytes whole. -/
def Whole (size sz : ℕ) : Prop := size / 2 < (hdrSize b + sz) % b.top

/-- The block that `trunk_free` leaves: the one before takes it in if that is free. -/
def mergedInto (a : ℕ) : ℕ := if m.prev a ≠ 0 ∧ m.used (m.prev a) = false then m.prev a else a

/-- The hint is not moved past a free block. A request takes the first free block of all, or the last block whole;
    fresh pages come where there is no free block, or are given out whole. A block is freed while `start` names a
    block, or it ends in the first free block of all. -/
def Heedful : Op → Prop
  | .malloc size ok =>
    let sz := b.alignUp (size % b.top) 16
    match m.ahead.find? (m.holds sz) with
    | some a => (∀ f ∈ m.blocks, m.used f = false → a ≤ f) ∨ (m.next a = 0 ∧ Whole b (m.size a) sz)
    | none => ok = true → (∀ f ∈ m.blocks, m.used f = true) ∨ Whole b (pagesFor b sz * b.page - hdrSize b) sz
  | .free p =>
    m.start ∈ m.blocks ∨ ∀ f ∈ m.blocks, m.used f = false → m.mergedInto (getBlock b (p % b.top)) ≤ f

end

section
variable {b : Build} {ar : Arena b} {m m' : Heap} {l l₁ l₂ : List ℕ} {a c n p sz size : ℕ} {ok : Bool}

/-- No free block lies before `start`, if that names a block. -/
def Hinted (m : Heap) (l : List ℕ) : Prop := m.start ∈ l → ∀ f ∈ l, m.used f = false → m.start ≤ f

namespace Shape

theorem chain_eq (h : Shape b ar (l₁ ++ l₂) m) (hn : l₂.length < n) : m.chain n (l₂.headD 0) = l₂ := by
  induction l₂ generalizing l₁ n with
  | nil =>
    obtain ⟨k, rfl⟩ := Nat.exists_eq_add_of_lt hn
    rfl
  | cons a l ih =>
    obtain ⟨k, rfl⟩ : ∃ k, n = k + 1 := ⟨n - 1, by omega⟩
    have ha : a ∈ l₁ ++ a :: l := List.mem_append_right _ List.mem_cons_self
    have hl : l₁ ++ a :: l = (l₁ ++ [a]) ++ l := by simp
    have hrest := @ih (l₁ ++ [a]) k (hl ▸ h) (by rw [List.length_cons] at hn; omega)
    rw [chain, List.headD_cons, if_neg (h.ne_zero ha), h.next_eq.1, hrest]

/-- The list that goes with a heap. -/
theorem blocks_eq (h : Shape b ar l m) : m.blocks = l := by
  rw [blocks, h.head]
  exact @chain_eq b ar m [] l _ h h.length_lt

theorem lt_of_split (h : Shape b ar (l₁ ++ a :: l₂) m) : (∀ x ∈ l₁, x < a) ∧ ∀ x ∈ l₂, a < x := by
  have hpos := @hdrSize_pos b
  obtain ⟨h₁, h₂⟩ := h.sides
  exact ⟨fun x hx => by have := h₁ x hx; omega, fun x hx => by have := h₂ x hx; omega⟩

theorem ahead_eq (h : Shape b ar l m) :
    (∃ k r, l = k ++ m.start :: r ∧ m.ahead = m.start :: r) ∨ m.start ∉ l ∧ m.ahead = l := by
  rw [ahead, h.blocks_eq]
  by_cases hin : m.start ∈ l
  · left
    rw [if_pos hin]
    obtain ⟨k, r, rfl⟩ := List.append_of_mem hin
    have hnot : ∀ x ∈ k, x ≠ m.start := fun x hx => (h.lt_of_split.1 x hx).ne
    refine ⟨k, r, rfl, ?_⟩
    rw [List.dropWhile_append_of_pos (by simpa using hnot)]
    simp
  · exact .inr ⟨hin, if_neg hin⟩

/-- Where the search of `trunk_malloc` begins. -/
theorem entry_eq (h : Shape b ar l m) : ∃ k, l = k ++ m.ahead ∧ m.entry b = (k.getLastD 0, m.ahead.headD 0) := by
  rw [entry, h.find_eq]
  rcases h.ahead_eq with ⟨k, r, rfl, ha⟩ | ⟨hout, ha⟩
  · have hin : m.start ∈ k ++ m.start :: r := List.mem_append_right _ List.mem_cons_self
    rw [ha, if_pos hin, if_pos ⟨h.ne_zero hin, h.ne_zero hin⟩, h.next_eq.2]
    exact ⟨k, rfl, rfl⟩
  · rw [ha, if_neg hout, if_neg (by simp), ← h.head]
    exact ⟨[], rfl, rfl⟩

theorem search_ahead (h : Shape b ar l m) :
    m.search b sz (m.memTail + 1) (m.entry b).1 (m.entry b).2 = match m.ahead.find? (m.holds sz) with
      | some a => .block a
      | none => .nothing := by
  obtain ⟨k, hl, he⟩ := h.entry_eq
  have hlen := h.length_lt
  rw [hl, List.length_append] at hlen
  rw [he]
  exact (hl ▸ h).search_eq (by omega)

theorem mem_of_ahead (h : Shape b ar l m) (ha : a ∈ m.ahead) : a ∈ l := by
  obtain ⟨k, hl, -⟩ := h.entry_eq
  rw [hl]
  exact List.mem_append_right _ ha

/-- With the hint in front of every free block the search looks at all of them. -/
theorem mem_ahead (h : Shape b ar l m) (hh : Hinted m l) (ha : a ∈ l) (hf : m.used a = false) : a ∈ m.ahead := by
  rcases h.ahead_eq with ⟨k, r, rfl, hah⟩ | ⟨-, hah⟩
  · rw [hah]
    have hle := hh (List.mem_append_right _ List.mem_cons_self) a ha hf
    rcases List.mem_append.mp ha with hk | hr
    · have := h.lt_of_split.1 a hk
      omega
    · exact hr
  · rwa [hah]

/-! ### The pointer -/

/-- `try_break` leaves the payload where it is. -/
theorem tryBreak_mem (b : Build) (m : Heap) (a sz : ℕ) :
    (m.tryBreak b a sz).mem a = if (m.mem a + sz) % b.top = a ∧ ¬ m.size a / 2 < (hdrSize b + sz) % b.top
      then (a + hdrSize b) % b.top else m.mem a := by
  rw [Heap.tryBreak]
  by_cases hbr : m.size a / 2 < (hdrSize b + sz) % b.top
  · simp [hbr]
  · rw [if_neg hbr]
    by_cases hp : (m.mem a + sz) % b.top = a
    · simp only [hp, hbr, not_false_eq_true, and_self, if_true, Heap.mem, apply_ite Heap.hdr, ite_self, mod_self, genBlock]
    · simp only [hp, false_and, if_false, Heap.mem, apply_ite Heap.hdr, ite_self, mod_self, mod_ne _ (Ne.symm hp)]
      split_ifs with h0
      · simp only [mod_hdr]
        split_ifs with hx
        · rw [← hx]
        · rfl
      · rfl

theorem settle_taken (h : Shape b ar l m) (ha : a ∈ l) (hsz : sz ≤ m.size a) :
    ((m.take a size).settle b a sz).1 = a + hdrSize b := by
  have hmem : (m.take a size).mem a = a + hdrSize b := by
    simp only [Heap.take, Heap.mem, mod_self]
    exact h.mem a ha
  have hpos := @hdrSize_pos b
  have hfits := h.fits
  have hend := (h.inside ha).2
  have hp : (a + hdrSize b + sz) % b.top ≠ a := by
    rw [Nat.mod_eq_of_lt (by omega)]
    omega
  change ((m.take a size).tryBreak b a sz).mem a = _
  rw [tryBreak_mem, hmem, if_neg fun hc => hp hc.1]

theorem settle_grown (h : Shape b ar l m) {pages : ℕ} :
    ((m.grow b pages size).settle b m.memTail sz).1 ≠ 0 := by
  have hpos := @hdrSize_pos b
  have hlt : m.memTail + hdrSize b < b.top := by
    obtain ⟨i, hi⟩ := h.page
    obtain ⟨j, hj⟩ : b.page ∣ b.top := Build.page_dvd.trans Build.top_dvd
    have hfits := h.fits
    rw [hi, hj] at hfits
    have hle : b.page * (i + 1) ≤ b.page * j := Nat.mul_le_mul_left _ (Nat.lt_of_mul_lt_mul_left hfits)
    rw [Nat.mul_succ, ← hi, ← hj] at hle
    have := @hdrSize_lt_page b
    omega
  have hmem : (m.grow b pages size).mem m.memTail = (m.memTail + hdrSize b) % b.top := by
    simp only [Heap.mem, grow_hdr, if_true, genBlock]
  change ((m.grow b pages size).tryBreak b m.memTail sz).mem m.memTail ≠ 0
  rw [tryBreak_mem, hmem, Nat.mod_eq_of_lt hlt, ite_self]
  omega

/-- The free blocks are used first: the hint is in front of every free block. -/
theorem usesFree (h : Shape b ar l m) (hh : Hinted m l) : UsesFree b m size := by
  have hs := @search_ahead b ar m l (b.alignUp size 16) h
  have hmalloc : ∀ ok, m.trunkMalloc b size ok = match m.ahead.find? (m.holds (b.alignUp size 16)) with
      | some a => (m.take a size).settle b a (b.alignUp size 16)
      | none => if ok = false then (0, m)
        else (m.grow b (pagesFor b (b.alignUp size 16)) size).settle b m.memTail (b.alignUp size 16) := by
    intro ok
    rw [Heap.trunkMalloc]
    simp only [hs]
    cases m.ahead.find? (m.holds (b.alignUp size 16)) with
    | some a => rfl
    | none => rfl
  have hfree : ∀ {f}, m.holds (b.alignUp size 16) f = true → m.used f = false ∧ b.alignUp size 16 ≤ m.size f := by
    intro f hf
    simpa [holds] using hf
  have hgiven : ∀ {a}, m.ahead.find? (m.holds (b.alignUp size 16)) = some a →
      ((m.take a size).settle b a (b.alignUp size 16)).1 = a + hdrSize b := fun ha =>
    h.settle_taken (h.mem_of_ahead (List.mem_of_find?_eq_some ha)) (hfree (List.find?_some ha)).2
  refine ⟨?_, fun ok h0 => ?_⟩
  · rintro ⟨f, hfl, hf⟩
    rw [h.blocks_eq] at hfl ⊢
    have hin := h.mem_ahead hh hfl (hfree hf).1
    obtain ⟨a, ha⟩ := Option.isSome_iff_exists.mp (List.find?_isSome.mpr ⟨f, hin, hf⟩)
    refine ⟨a, h.mem_of_ahead (List.mem_of_find?_eq_some ha), List.find?_some ha, fun ok => ?_⟩
    rw [hmalloc, ha]
    exact ⟨rfl, hgiven ha⟩
  · rw [hmalloc] at h0
    cases ha : m.ahead.find? (m.holds (b.alignUp size 16)) with
    | some a =>
      simp only [ha] at h0
      rw [hgiven ha] at h0
      have := @hdrSize_pos b
      omega
    | none =>
      simp only [ha] at h0
      cases ok with
      | true => exact absurd h0 h.settle_grown
      | false =>
        refine ⟨rfl, fun f hfl => ?_⟩
        rw [h.blocks_eq] at hfl
        by_contra hf
        simp only [Bool.not_eq_false] at hf
        exact List.find?_eq_none.mp ha f (h.mem_ahead hh hfl (hfree hf).1) hf

/-! ### The hint -/

/-- The hint is moved behind the block that is given out. -/
theorem hinted_settle (h : Shape b ar (l₁ ++ a :: l₂) m) (hu : m.used a = true) (hsz : sz ≤ m.size a) (h16 : 16 ∣ sz)
    (hreq : ∀ x ∈ m.live, x.1 = a + hdrSize b → x.2 ≤ sz)
    (hc : (∀ f ∈ l₁, m.used f = true) ∨ (l₂ = [] ∧ Whole b (m.size a) sz)) :
    Hinted (m.settle b a sz).2 (m.settle b a sz).2.blocks := by
  obtain ⟨r, hs, -, -, hused⟩ := h.tryBreak hsz h16 hreq
  have hblocks : (m.settle b a sz).2.blocks = l₁ ++ a :: (r ++ l₂) :=
    (hs.restart ((m.tryBreak b a sz).next a)).blocks_eq
  have hstart : (m.settle b a sz).2.start = (r ++ l₂).headD 0 := hs.next_eq.1
  rw [Hinted, hblocks, hstart]
  intro hin f hf hfree
  change (m.tryBreak b a sz).used f = false at hfree
  rcases hc with hc | ⟨rfl, hw⟩
  · rcases List.mem_append.mp hf with hf | hf
    · rw [hused f (List.mem_append_left _ hf), hc f hf] at hfree
      cases hfree
    rcases List.mem_cons.mp hf with rfl | hf
    · rw [hused f (List.mem_append_right _ List.mem_cons_self), hu] at hfree
      cases hfree
    cases hrest : r ++ l₂ with
    | nil => simp [hrest] at hf
    | cons c t =>
      rw [hrest] at hf hs
      rcases List.mem_cons.mp hf with rfl | hf
      · exact le_refl _
      · have hcons : l₁ ++ a :: c :: t = (l₁ ++ [a]) ++ c :: t := by simp
        exact ((hcons ▸ hs).lt_of_split.2 f hf).le
  · -- the last block whole: nothing lies behind it
    have hsame : m.tryBreak b a sz = m := if_pos hw
    rw [hsame] at hs
    have hlist := hs.blocks_eq.symm.trans h.blocks_eq
    simp only [List.append_nil, List.append_cancel_left_eq, List.cons.injEq, true_and] at hlist
    rw [hlist] at hin
    exact absurd hin (by simpa [hlist] using hs.zero_notMem)

end Shape

namespace Inv

theorem hinted_malloc (h : Inv b ar l m) (hh : Hinted m l) (hsize : size < b.top) (hfit : Fits b ar m (.malloc size ok))
    (hc : Heedful b m (.malloc size ok)) : Hinted (m.trunkMalloc b size ok).2 (m.trunkMalloc b size ok).2.blocks := by
  rw [Fits, Nat.mod_eq_of_lt hsize] at hfit
  obtain ⟨hround, hgrow⟩ := hfit
  have hsz : b.alignUp size 16 = roundUp size 16 := Build.alignUp_eq hround
  have h16 : 16 ∣ roundUp size 16 := Nat.dvd_mul_left ..
  have hreq : size ≤ roundUp size 16 := le_roundUp (by decide)
  have hpos := @hdrSize_pos b
  have hs := @Shape.search_ahead b ar m l (roundUp size 16) h.toShape
  rw [Full, hsz] at hgrow
  simp only [Heedful, Nat.mod_eq_of_lt hsize, hsz] at hc
  simp only [Heap.trunkMalloc, hsz, hs]
  rw [hs] at hgrow
  cases hfind : m.ahead.find? (m.holds (roundUp size 16)) with
  | some a =>
    simp only [hfind] at hc ⊢
    have ha := h.mem_of_ahead (List.mem_of_find?_eq_some hfind)
    obtain ⟨hf, hle⟩ : m.used a = false ∧ roundUp size 16 ≤ m.size a := by simpa [holds] using List.find?_some hfind
    have hshape := h.toShape.take ha hf (hreq.trans hle)
    have hkept : ∀ x, x ≠ a → (m.take a size).used x = m.used x := fun x hx => by
      simp only [Heap.take, used, mod_ne _ hx]
    have hself : (m.take a size).used a = true := by simp only [Heap.take, used, mod_self]
    have hsame : (m.take a size).size a = m.size a := by simp only [Heap.take, Heap.size, mod_self]
    have hlive : (m.take a size).live = (a + hdrSize b, size) :: m.live := by
      simp only [Heap.take, h.mem a ha]
    obtain ⟨l₁, l₂, rfl⟩ := List.append_of_mem ha
    refine hshape.hinted_settle hself (hsame ▸ hle) h16 (hshape.asked_new hlive hreq) ?_
    rw [h.blocks_eq] at hc
    rcases hc with hc | ⟨hn, hw⟩
    · left
      intro f hfl
      have hlt := h.lt_of_split.1 f hfl
      rw [hkept f hlt.ne]
      by_contra hu
      have := hc f (List.mem_append_left _ hfl) (by simpa using hu)
      omega
    · right
      refine ⟨?_, hsame ▸ hw⟩
      rw [h.next_eq.1] at hn
      cases l₂ with
      | nil => rfl
      | cons c t => exact absurd hn (h.ne_zero (List.mem_append_right _ (List.mem_cons_of_mem a List.mem_cons_self)))
  | none =>
    simp only [hfind] at hc hgrow ⊢
    cases ok with
    | false =>
      rw [if_pos rfl, h.blocks_eq]
      exact hh
    | true =>
      rw [if_neg (by decide)]
      obtain ⟨hfit, hsmall, hpages⟩ := hgrow rfl trivial
      rw [need] at hfit hsmall hpages
      have hbase := h.tiled.le
      have hle : roundUp size 16 + hdrSize b ≤ roundUp (roundUp size 16 + hdrSize b) b.page :=
        le_roundUp Build.page_pos
      have hcount := @pagesFor_mul b (roundUp size 16) (by omega) (by omega)
      rw [← hcount] at hfit hsmall hpages hle
      obtain ⟨hshape, hsize', hu, hused⟩ := h.toShape.grow hfit hsmall hpages
        (show size + hdrSize b ≤ _ by omega)
      have hlive : (m.grow b (pagesFor b (roundUp size 16)) size).live = (m.memTail + hdrSize b, size) :: m.live := by
        rw [Shape.grow_fields.2.2.2.1, Nat.mod_eq_of_lt (by omega)]
      refine hshape.hinted_settle hu (by omega) h16 (hshape.asked_new hlive hreq) ?_
      rcases hc rfl with hc | hw
      · left
        intro f hfl
        rw [hused f hfl]
        exact hc f (h.blocks_eq.symm ▸ hfl)
      · right
        exact ⟨rfl, hsize' ▸ hw⟩

theorem tryMerge_start (b : Build) (m : Heap) (a : ℕ) : (m.tryMerge b a).2.start = m.start := by
  simp only [Heap.tryMerge]
  split_ifs
  · exact (Shape.join_fields ..).2.2.2.2.2.trans (Shape.join_fields ..).2.2.2.2.2
  · exact (Shape.join_fields ..).2.2.2.2.2
  · exact (Shape.join_fields ..).2.2.2.2.2
  · rfl

theorem tryShrink_start (b : Build) (m : Heap) : (m.tryShrink b).start = m.start := by
  simp only [Heap.tryShrink]
  split_ifs <;> rfl

/-- The hint once a block is merged: it is kept, or moved in front of the block. -/
theorem hinted_merged {k r : List ℕ} {M : Heap} (h : Inv b ar (l₁ ++ a :: l₂) m) (hh : Hinted m (l₁ ++ a :: l₂))
    (hi : Inv b ar (k ++ c :: r) M) (hr : r ⊆ l₂)
    (hwhich : l₁ = k ∧ c = a ∨ l₁ = k ++ [c] ∧ m.used c = false) (hused : ∀ x, M.used x = (m.used x && decide (x ≠ a)))
    (hc : m.start ∈ l₁ ++ a :: l₂ ∨ ∀ f ∈ l₁ ++ a :: l₂, m.used f = false → m.mergedInto a ≤ f) :
    Hinted { M with start := if m.start = 0 ∨ c ≤ m.start then M.prev c else m.start } (k ++ c :: r) := by
  obtain ⟨hbelow, habove⟩ := hi.lt_of_split
  have hk : ∀ x ∈ k, x ∈ l₁ := fun x hx => by
    rcases hwhich with ⟨rfl, -⟩ | ⟨rfl, -⟩
    · exact hx
    · exact List.mem_append_left _ hx
  have hfree : ∀ f ∈ k ++ c :: r, f ≠ c → M.used f = false → f ∈ l₁ ++ a :: l₂ ∧ m.used f = false := by
    intro f hf hne hu
    have hfa : f ≠ a := by
      rintro rfl
      rcases hwhich with ⟨-, rfl⟩ | ⟨rfl, -⟩
      · exact hne rfl
      · obtain ⟨h₁, h₂⟩ := h.lt_of_split
        rcases List.mem_append.mp hf with hf | hf
        · exact lt_irrefl _ (h₁ f (List.mem_append_left _ hf))
        · rcases List.mem_cons.mp hf with hf | hf
          · exact hne hf
          · exact lt_irrefl _ (h₂ f (hr hf))
    rw [hused, decide_eq_true hfa, Bool.and_true] at hu
    refine ⟨?_, hu⟩
    rcases List.mem_append.mp hf with hf | hf
    · exact List.mem_append_left _ (hk f hf)
    · rcases List.mem_cons.mp hf with hf | hf
      · exact absurd hf hne
      · exact List.mem_append_right _ (List.mem_cons_of_mem a (hr hf))
  intro hin f hf hu
  change M.used f = false at hu
  dsimp only at hin ⊢
  split at hin
  · rename_i hmove
    rw [if_pos hmove, hi.next_eq.2] at *
    -- in front of the block, and nothing free lies there
    have hnone : f ∉ k := by
      intro hfk
      obtain ⟨hfl, hfu⟩ := hfree f hf (hbelow f hfk).ne hu
      rcases hc with hs | hs
      · have hle := hh hs f hfl hfu
        have hne := h.ne_zero hs
        have := hbelow f hfk
        omega
      · have hle := hs f hfl hfu
        have hlt := hbelow f hfk
        have hprev := h.next_eq.2
        rw [mergedInto, hprev] at hle
        rcases hwhich with ⟨rfl, rfl⟩ | ⟨rfl, hcu⟩
        · split at hle
          · rename_i hp
            rcases List.eq_nil_or_concat l₁ with rfl | ⟨k', q, rfl⟩
            · exact absurd rfl hp.1
            · rw [List.concat_eq_append] at hp hi
              rw [getLastD_append_cons, List.getLastD_nil] at hp
              have hlist : k' ++ [q] ++ c :: r = k' ++ q :: c :: r := by simp
              have hsp := hi.sparse
              rw [hlist] at hsp
              have hqc := (List.isChain_cons_cons.mp (List.isChain_append.mp hsp).2.1).1
              refine hqc ⟨?_, ?_⟩
              · change M.used q = false
                rw [hused, hp.2, Bool.false_and]
              · change M.used c = false
                simp [hused]
          · omega
        · have hc0 : c ≠ 0 := h.ne_zero (List.mem_append_left _ (List.mem_append_right _ List.mem_cons_self))
          rw [getLastD_append_cons, List.getLastD_nil, if_pos ⟨hc0, hcu⟩] at hle
          omega
    rcases List.eq_nil_or_concat k with rfl | ⟨k', q, rfl⟩
    · exact absurd hin (fun h0 => hi.zero_notMem h0)
    · rw [List.concat_eq_append, getLastD_append_cons, List.getLastD_nil] at *
      have hqc := hbelow q (List.mem_append_right _ List.mem_cons_self)
      rcases List.mem_append.mp hf with hf | hf
      · exact absurd hf hnone
      · rcases List.mem_cons.mp hf with rfl | hf
        · exact hqc.le
        · exact (hqc.trans (habove f hf)).le
  · rename_i hstay
    rw [if_neg hstay]
    obtain ⟨-, hlt⟩ := not_or.mp hstay
    have hsk : m.start ∈ k := by
      rcases List.mem_append.mp hin with hin | hin
      · exact hin
      · rcases List.mem_cons.mp hin with hin | hin
        · omega
        · have := habove _ hin
          omega
    by_cases hfc : f = c
    · omega
    · obtain ⟨hfl, hfu⟩ := hfree f hf hfc hu
      exact hh (List.mem_append_left _ (hk _ hsk)) f hfl hfu

theorem hinted_shrink (h : Inv b ar l m) (hh : Hinted m l) : Hinted (m.tryShrink b) (m.tryShrink b).blocks := by
  obtain ⟨l', hi, hsub, hused⟩ := h.tryShrink
  rw [hi.blocks_eq, Hinted, tryShrink_start]
  intro hin f hf hu
  rw [hused] at hu
  exact hh (hsub hin) f (hsub hf) hu

theorem hinted_moved (h : Inv b ar l m)
    (hh : Hinted { m with start := if m.start = 0 ∨ c ≤ m.start then m.prev c else m.start } l) :
    Hinted ((if m.start = 0 ∨ c ≤ m.start then { m with start := m.prev c } else m).tryShrink b)
      ((if m.start = 0 ∨ c ≤ m.start then { m with start := m.prev c } else m).tryShrink b).blocks := by
  by_cases hmove : m.start = 0 ∨ c ≤ m.start
  · simp only [if_pos hmove] at hh ⊢
    exact hinted_shrink (h.restart _) hh
  · simp only [if_neg hmove] at hh ⊢
    exact hinted_shrink h hh

theorem hinted_free (h : Inv b ar l m) (hh : Hinted m l) (hlt : p < b.top) (hc : Heedful b m (.free p)) :
    Hinted (m.trunkFree b p) (m.trunkFree b p).blocks := by
  simp only [Heedful, Nat.mod_eq_of_lt hlt, h.blocks_eq] at hc
  obtain ⟨a, ha⟩ : ∃ a, a = m.trunkFindBlock b (getBlock b p) := ⟨_, rfl⟩
  rw [Heap.trunkFree]
  simp only [← ha]
  by_cases h0 : a = 0
  · rw [if_pos h0, h.blocks_eq]
    exact hh
  by_cases hu : m.used a = false
  · rw [if_neg h0, if_pos hu, h.blocks_eq]
    exact hh
  rw [if_neg h0, if_neg hu]
  obtain ⟨hin, hpa⟩ := h.find_getBlock (ha ▸ h0)
  rw [← ha] at hin hpa
  rw [hpa, getBlock_add] at hc
  obtain ⟨l₁, l₂, rfl⟩ := List.append_of_mem hin
  obtain ⟨k, r, hi, hsub, hwhich, -, hused⟩ := h.released hpa
  have hmerged := hinted_merged h hh hi hsub hwhich hused hc
  have hstart : ((unmark m a p).tryMerge b a).2.start = m.start := tryMerge_start ..
  have hmem : ((unmark m a p).tryMerge b a).1 ∈ k ++ ((unmark m a p).tryMerge b a).1 :: r :=
    List.mem_append_right _ List.mem_cons_self
  rw [← hstart] at hmerged
  have hfound : ¬(((unmark m a p).tryMerge b a).1 = 0 ∨
      ((unmark m a p).tryMerge b a).2.trunkFindBlock b ((unmark m a p).tryMerge b a).1 = 0) := by
    rw [hi.find_eq, if_pos hmem]
    exact not_or.mpr ⟨hi.ne_zero hmem, hi.ne_zero hmem⟩
  have hmoved := hinted_moved hi hmerged
  simp only [unmark] at hfound hmoved
  rwa [if_neg hfound]

end Inv

/-- In every run whose calls fit and keep the hint in front of the free blocks, whatever is asked for next. -/
theorem free_used_first {mem : ℕ → Header}
    (hr : Reach (Heap.step b) (fun m o => Fits b ar m o ∧ Heedful b m o) (ar.boot mem) m) (size : ℕ) : UsesFree b m size := by
  obtain ⟨l, h, hh⟩ : ∃ l, Inv b ar l m ∧ Hinted m l := by
    refine hr.inv (I := fun s => ∃ l, Inv b ar l s ∧ Hinted s l) ⟨[], Inv.boot mem, nofun⟩ ?_
    rintro s o t ⟨l, hi, hh⟩ ⟨hfit, hc⟩ hst
    obtain ⟨⟨l', hi'⟩, -⟩ := hi.step hfit hst
    refine ⟨l', hi', ?_⟩
    have hhint : Hinted t t.blocks := by
      cases o with
      | malloc size ok =>
        have hlt : size % b.top < b.top := Nat.mod_lt _ (Nat.two_pow_pos _)
        have hfit' : Fits b ar s (.malloc (size % b.top) ok) := by
          rw [Fits, Nat.mod_eq_of_lt hlt]
          exact hfit
        have hc' : Heedful b s (.malloc (size % b.top) ok) := by
          rw [Heedful, Nat.mod_eq_of_lt hlt]
          exact hc
        cases hst
        exact hi.hinted_malloc hh hlt hfit' hc'
      | free p =>
        have hlt : p % b.top < b.top := Nat.mod_lt _ (Nat.two_pow_pos _)
        have hc' : Heedful b s (.free (p % b.top)) := by
          rw [Heedful, Nat.mod_eq_of_lt hlt]
          exact hc
        cases hst
        exact hi.hinted_free hh hlt hc'
    rwa [hi'.blocks_eq] at hhint
  exact h.toShape.usesFree hh

end

instance (b : Build) (m : Heap) : DecidablePred (Heedful b m)
  | .malloc size ok => by
    unfold Heedful Whole
    dsimp only
    split <;> infer_instance
  | .free p => inferInstanceAs (Decidable (_ ∨ _))

/-- Three blocks of a page, and the one in the middle given back. -/
def middle : List Op := [.malloc 3000 true, .malloc 3000 true, .malloc 3000 true, .free 0x11020]

theorem free_used_first_middle : ∃ m, m.memTail = 0x13000 ∧ (m.trunkMalloc pages4k 3000 false).1 = 0x11020 ∧ UsesFree pages4k m 3000 := by
  have hrun : (runIf (Heap.step pages4k) (fun m o => decide (Fits pages4k arena m o ∧ Heedful pages4k m o)) blank middle).map
      (fun m => (m.memTail, (m.trunkMalloc pages4k 3000 false).1)) = some (0x13000, 0x11020) := by decide +kernel
  obtain ⟨m, hm, hfacts⟩ := Option.map_eq_some_iff.mp hrun
  simp only [Prod.mk.injEq] at hfacts
  exact ⟨m, hfacts.1, hfacts.2, free_used_first (reach_of_runIf hm fun _ _ => of_decide_eq_true) 3000⟩

/-- A large block is freed first, `start` is NULL then; a small one is freed next, and `start` is behind the large one. -/
def behind : List Op :=
  [.malloc 8000 true, .malloc 3000 true, .malloc 3000 true, .malloc 3000 true, .free 0x10020, .free 0x13020]

theorem free_block_missed : ∃ m, Reach (Heap.step pages4k) (Fits pages4k arena) blank m ∧
    m.holds 8000 0x10000 = true ∧ (m.trunkMalloc pages4k 8000 false).1 = 0 ∧ ¬ UsesFree pages4k m 8000 := by
  have hrun : (runIf (Heap.step pages4k) (fun m o => decide (Fits pages4k arena m o)) blank behind).map
      (fun m => (m.holds 8000 0x10000, decide (0x10000 ∈ m.blocks), (m.trunkMalloc pages4k 8000 false).1)) =
        some (true, true, 0) := by decide +kernel
  obtain ⟨m, hm, hfacts⟩ := Option.map_eq_some_iff.mp hrun
  simp only [Prod.mk.injEq, decide_eq_true_eq] at hfacts
  obtain ⟨hholds, hin, hnull⟩ := hfacts
  refine ⟨m, reach_of_runIf hm fun _ _ => of_decide_eq_true, hholds, hnull, fun hu => ?_⟩
  have := (hu.null false hnull).2 _ hin
  rw [show pages4k.alignUp 8000 16 = 8000 by decide +kernel] at this
  rw [hholds] at this
  cases this

end EwokOS.Memory.Heap
