import EwokOS.Memory.TrunkShape

/-! The kernel heap over whole runs: sound as long as no size wraps.

    `trunk_malloc` cuts a free block or appends one, `trunk_free` joins the block with its free
    neighbours and gives the last pages back; each keeps `Inv`. Sizes are where it breaks: a size that
    rounds up past the address width, a page count past 31 bits, or a heap that outgrows the size
    field (`wrapped_malloc`). -/

namespace EwokOS.Memory.Heap

open Schemes (Reach Free Linked Tiles Sparse Apart linked_append tiles_append tiles_dvd headD_append
  getLastD_append_cons runIf runOps reach_of_runIf reach_of_runOps)

section
variable {b : Build} {ar : Arena b} {m m' : Heap} {l l₁ l₂ : List ℕ} {a c n p t sz size : ℕ}

namespace Shape

/-- `start` is not part of it. -/
theorem restart (h : Shape b ar l m) (s : ℕ) : Shape b ar l { m with start := s } :=
  ⟨h.head, h.tail, h.linked, h.tiled, h.mem, h.even, h.page, h.fits, h.small, h.pages, h.live, h.asked,
    h.shrunk⟩

theorem live_nodup (h : Shape b ar l m) : (m.live.map Prod.fst).Nodup := by
  have hused : (l.filter fun x => m.used x).Nodup := h.nodup.filter _
  refine h.live.nodup_iff.mpr (List.Pairwise.map _ (fun x y hne he => hne ?_) hused)
  exact Nat.add_right_cancel he

/-! ### Freeing -/

/-- A used block is given up by its caller. -/
theorem release (h : Shape b ar l m) (hp : p = a + hdrSize b) :
    Shape b ar l { m.mod a fun h => { h with used := false } with
      live := m.live.filter fun x => x.1 ≠ p } := by
  obtain ⟨m', hm'⟩ : ∃ m' : Heap, m' = { m.mod a fun h => { h with used := false } with
    live := m.live.filter fun x => x.1 ≠ p } := ⟨_, rfl⟩
  have hother : ∀ x, m'.next x = m.next x ∧ m'.prev x = m.prev x ∧ m'.size x = m.size x ∧
      m'.mem x = m.mem x := by
    intro x
    simp only [hm', next, prev, Heap.size, Heap.mem, mod_hdr]
    split_ifs with hx
    · rw [hx]
      exact ⟨rfl, rfl, rfl, rfl⟩
    · exact ⟨rfl, rfl, rfl, rfl⟩
  have hused : ∀ x, m'.used x = (m.used x && decide (x ≠ a)) := by
    intro x
    simp only [hm', used, mod_hdr]
    split_ifs with hx
    · simp [hx]
    · simp [hx]
  have hlive : m'.live = m.live.filter fun x => x.1 ≠ p := by rw [hm']
  rw [← hm']
  refine ⟨?head, ?tail, ?linked, ?tiled, ?mem, ?even, ?page, ?fits, ?small, ?pages, ?live, ?asked, ?shrunk⟩
  case head =>
    rw [hm']; exact h.head
  case tail =>
    rw [hm']; exact h.tail
  case linked =>
    exact h.linked.congr (fun x _ => (hother x).1) fun x _ => (hother x).2.1
  case tiled =>
    rw [show m'.memTail = m.memTail by rw [hm']; rfl]
    exact h.tiled.congr (fun _ _ => rfl) fun x _ => by rw [(hother x).2.2.1]
  case mem =>
    exact fun x hx => (hother x).2.2.2.trans (h.mem x hx)
  case even =>
    exact fun x hx => by rw [(hother x).2.2.1]; exact h.even x hx
  case page =>
    rw [hm']; exact h.page
  case fits =>
    rw [hm']; exact h.fits
  case small =>
    rw [hm']; exact h.small
  case pages =>
    rw [hm']; exact h.pages
  case live =>
    -- the pointer leaves the one list and its block the other
    have hmap : m'.live.map Prod.fst = (m.live.map Prod.fst).filter fun q => q ≠ p := by
      rw [hlive, List.filter_map]
      rfl
    rw [hmap]
    refine (h.live.filter _).trans (List.Perm.of_eq ?_)
    rw [List.filter_map, List.filter_filter]
    congr 1
    refine List.filter_congr fun x _ => ?_
    rw [hused x, Bool.and_comm]
    congr 1
    simp only [Function.comp, hp, ne_eq, Nat.add_right_cancel_iff]
  case asked =>
    intro x hx
    rw [hlive] at hx
    rw [(hother _).2.2.1]
    exact h.asked x (List.mem_of_mem_filter hx)
  case shrunk =>
    rw [hm']; exact h.shrunk

/-- The free block takes in the one after it if that is free. -/
theorem mergeNext (h : Shape b ar (l₁ ++ a :: l₂) m) (ha : m.used a = false)
    (hs : Sparse (fun x => m.used x = false) l₂) :
    ∃ l, Shape b ar (l₁ ++ a :: l) (if m.next a ≠ 0 ∧ m.used (m.next a) = false then
        m.join b a (m.next a) else m) ∧
      Sparse (fun x => m.used x = false) (a :: l) ∧ l ⊆ l₂ := by
  have hnext := h.next_eq.1
  cases l₂ with
  | nil =>
    rw [List.headD_nil] at hnext
    rw [if_neg fun hc => hc.1 hnext]
    exact ⟨[], h, List.isChain_singleton a, List.Subset.refl _⟩
  | cons c l =>
    rw [List.headD_cons] at hnext
    rw [hnext]
    obtain ⟨hc, hl⟩ := List.isChain_cons.mp hs
    split_ifs with hfree
    · refine ⟨l, (h.join ha hfree.2).1, Sparse.cons hl fun d hd had => ?_, List.subset_cons_self c l⟩
      exact hc d hd ⟨hfree.2, had.2⟩
    · have hc0 : c ≠ 0 := h.ne_zero (List.mem_append_right _ (List.mem_cons_of_mem a
        List.mem_cons_self))
      refine ⟨c :: l, h, hs.cons fun d hd had => ?_, List.Subset.refl _⟩
      cases hd
      exact hfree ⟨hc0, had.2⟩

/-- The free block is taken in by the one before it if that is free. -/
theorem mergePrev (h : Shape b ar (l₁ ++ a :: l₂) m) (ha : m.used a = false)
    (hs₁ : Sparse (fun x => m.used x = false) l₁)
    (hs₂ : Sparse (fun x => m.used x = false) (a :: l₂)) :
    ∃ k c, (if m.prev a ≠ 0 ∧ m.used (m.prev a) = false then
        (m.prev a, m.join b (m.prev a) a) else (a, m)).1 = c ∧
      Shape b ar (k ++ c :: l₂) (if m.prev a ≠ 0 ∧ m.used (m.prev a) = false then
        (m.prev a, m.join b (m.prev a) a) else (a, m)).2 ∧
      Sparse (fun x => m.used x = false) (k ++ c :: l₂) ∧
      (l₁ = k ∧ c = a ∨ l₁ = k ++ [c] ∧ m.used c = false) := by
  have hprev := h.next_eq.2
  rcases List.eq_nil_or_concat l₁ with rfl | ⟨l, q, rfl⟩
  · rw [List.getLastD_nil] at hprev
    rw [if_neg fun hc => hc.1 hprev]
    exact ⟨[], a, rfl, h, hs₂, .inl ⟨rfl, rfl⟩⟩
  · rw [List.concat_eq_append] at h hs₁ hprev
    rw [getLastD_append_cons, List.getLastD_nil] at hprev
    rw [hprev]
    split_ifs with hfree
    · have hl : l ++ [q] ++ a :: l₂ = l ++ q :: a :: l₂ := by simp
      rw [hl] at h
      refine ⟨l, q, rfl, (h.join hfree.2 ha).1, ?_, .inr ⟨List.concat_eq_append .., hfree.2⟩⟩
      have hl' : l ++ q :: l₂ = (l ++ [q]) ++ l₂ := by simp
      rw [hl']
      obtain ⟨hhead, hs₂⟩ := List.isChain_cons.mp hs₂
      exact hs₁.append hs₂ fun _ _ d hd had => hhead d hd ⟨ha, had.2⟩
    · have hq0 : q ≠ 0 := h.ne_zero (List.mem_append_left _ (List.mem_append_right _
        List.mem_cons_self))
      refine ⟨l ++ [q], a, rfl, h, hs₁.append hs₂ fun d hd _ _ hdc => ?_, .inl ⟨List.concat_eq_append .., rfl⟩⟩
      rw [List.getLast?_append, List.getLast?_singleton, Option.some_or] at hd
      cases hd
      exact hfree ⟨hq0, hdc.1⟩

/-- A joined heap has the same flags and the same callers. -/
theorem join_keeps (b : Build) (m : Heap) (a c : ℕ) : (m.join b a c).live = m.live ∧
    ∀ x, (m.join b a c).used x = m.used x := by
  refine ⟨(join_fields b m a c).2.2.2.1, fun x => ?_⟩
  simp only [Heap.join, used, mod_hdr]
  split_ifs <;> simp_all [mod_hdr, apply_ite Header.used]

theorem tryMerge_live : (m.tryMerge b a).2.live = m.live := by
  simp only [Heap.tryMerge]
  split_ifs
  · exact (join_keeps ..).1.trans (join_keeps ..).1
  · exact (join_keeps ..).1
  · exact (join_keeps ..).1
  · rfl

theorem tryMerge_used (b : Build) (m : Heap) (a x : ℕ) : (m.tryMerge b a).2.used x = m.used x := by
  simp only [Heap.tryMerge]
  split_ifs
  · exact ((join_keeps ..).2 x).trans ((join_keeps ..).2 x)
  · exact (join_keeps ..).2 x
  · exact (join_keeps ..).2 x
  · rfl

/-- `try_merge` leaves no free neighbours; the block that is left is the one it came for or the one before. -/
theorem tryMerge (h : Shape b ar (l₁ ++ a :: l₂) m) (ha : m.used a = false)
    (hs₁ : Sparse (fun x => m.used x = false) l₁) (hs₂ : Sparse (fun x => m.used x = false) l₂) :
    ∃ k r, Inv b ar (k ++ (m.tryMerge b a).1 :: r) (m.tryMerge b a).2 ∧ r ⊆ l₂ ∧
      (l₁ = k ∧ (m.tryMerge b a).1 = a ∨ l₁ = k ++ [(m.tryMerge b a).1] ∧ m.used (m.tryMerge b a).1 = false) := by
  obtain ⟨l, hn, hs, hsub⟩ := h.mergeNext ha hs₂
  obtain ⟨m₁, hm₁⟩ : ∃ m₁, m₁ = if m.next a ≠ 0 ∧ m.used (m.next a) = false then
    m.join b a (m.next a) else m := ⟨_, rfl⟩
  have hu : ∀ x, m₁.used x = m.used x := by
    intro x
    rw [hm₁]
    split_ifs
    · exact (join_keeps b m a _).2 x
    · rfl
  rw [← hm₁] at hn
  obtain ⟨k, c, hc, hp, hs', hwhich⟩ := hn.mergePrev ((hu a).trans ha) (by simpa only [hu] using hs₁)
    (by simpa only [hu] using hs)
  have hused := tryMerge_used b m a
  rw [Heap.tryMerge] at hused ⊢
  simp only [← hm₁] at hused ⊢
  rw [hc]
  refine ⟨k, l, ⟨hp, hs'.mono fun x _ hx => ?_⟩, hsub, ?_⟩
  · rwa [hused, ← hu] at hx
  · rwa [hu] at hwhich

/-- The last block is taken off, with the pages under it. -/
theorem shrink (h : Shape b ar (l ++ [t]) m) (hu : m.used t = false) (hp : b.page ∣ t) :
    Shape b ar l (m.tryShrink b) ∧ ∀ x, (m.tryShrink b).used x = m.used x := by
  have htl : t ∈ l ++ [t] := List.mem_append_right _ List.mem_cons_self
  have htail : m.tail = t := by rw [h.tail, getLastD_append_cons, List.getLastD_nil]
  have hprev : m.prev t = l.getLastD 0 := h.next_eq.2
  have hpage := @Build.page_pos b
  have hpos := @hdrSize_pos b
  obtain ⟨e, h₁, he, h₂⟩ := tiles_append.mp h.tiled
  have het : t = e := he
  have hend : t + (m.size t + hdrSize b) = m.memTail := by rw [het]; rw [het] at h₂; exact h₂
  obtain ⟨hlo, -⟩ := h.inside htl
  have hfits := h.fits
  have hpages := h.pages
  obtain ⟨k, hk⟩ : b.page ∣ m.size t + hdrSize b := (Nat.dvd_add_right hp).mp (hend ▸ h.page)
  have hkb : k < 2 ^ 31 := by
    have hmul : b.page * k < b.page * 2 ^ 31 := by rw [← hk, Nat.mul_comm b.page]; omega
    exact Nat.lt_of_mul_lt_mul_left hmul
  have hcount : (m.size t + hdrSize b) % b.top / b.page % 2 ^ 32 = k := by
    rw [Nat.mod_eq_of_lt (show m.size t + hdrSize b < b.top by omega), hk,
      Nat.mul_div_cancel_left k hpage, Nat.mod_eq_of_lt (by omega)]
  have hmt : (m.memTail + b.top - k * b.page % b.top) % b.top = t := by
    rw [Nat.mul_comm, ← hk, Nat.mod_eq_of_lt (show m.size t + hdrSize b < b.top by omega),
      show m.memTail + b.top - (m.size t + hdrSize b) = t + b.top by omega, Nat.add_mod_right,
      Nat.mod_eq_of_lt (by omega)]
  have hguard : ¬(m.tail = 0 ∨ m.used m.tail = true ∨ m.tail % b.page ≠ 0) := by
    rw [htail, hu]
    rintro (h0 | h1 | h2)
    · exact h.ne_zero htl h0
    · cases h1
    · exact h2 (Nat.mod_eq_zero_of_dvd hp)
  rw [Heap.tryShrink, if_neg hguard]
  simp only [htail, hprev, hcount]
  have hnd := h.nodup
  have hlive : l.filter (fun x => m.used x) = (l ++ [t]).filter fun x => m.used x := by
    rw [List.filter_append, List.filter_cons, hu]
    exact (List.append_nil _).symm
  have hshrunk : ∀ x ∈ (k, m.size t + hdrSize b) :: m.shrunk, x.1 * b.page = x.2 := by
    intro x hx
    rcases List.mem_cons.mp hx with rfl | hx
    · rw [hk, Nat.mul_comm]
    · exact h.shrunk x hx
  rcases List.eq_nil_or_concat l with rfl | ⟨l', q, rfl⟩
  · simp only [List.getLastD_nil, ne_eq, not_true_eq_false, if_false, hmt]
    exact ⟨⟨rfl, rfl, trivial, h₁.trans het.symm, nofun, nofun, hp, by show t < _; omega,
      by show t ≤ _; have := h.small; omega, by show t < _; omega, hlive ▸ h.live, h.asked, hshrunk⟩,
      fun _ => trivial⟩
  · rw [List.concat_eq_append] at h hnd hlive h₁ ⊢
    have hql : q ∈ l' ++ [q] := List.mem_append_right _ List.mem_cons_self
    have hq0 : q ≠ 0 := h.ne_zero (List.mem_append_left _ hql)
    simp only [getLastD_append_cons, List.getLastD_nil, ne_eq, hq0, not_false_eq_true, if_true]
    obtain ⟨m', hm'⟩ : ∃ m' : Heap, m' = { ({ m with tail := q } : Heap).mod q fun h => { h with next := 0 } with
      memTail := t, shrunk := (k, m.size t + hdrSize b) :: m.shrunk } := ⟨_, rfl⟩
    have hkeep : ∀ x, m'.prev x = m.prev x ∧ m'.size x = m.size x ∧ m'.mem x = m.mem x ∧
        m'.used x = m.used x ∧ m'.next x = if x = q then 0 else m.next x := by
      intro x
      simp only [hm', Heap.next, prev, Heap.size, Heap.mem, used, mod_hdr]
      split_ifs with hx
      · rw [hx]
        exact ⟨rfl, rfl, rfl, rfl, rfl⟩
      · exact ⟨rfl, rfl, rfl, rfl, rfl⟩
    have hgoal : Shape b ar (l' ++ [q]) m' ∧ ∀ x, m'.used x = m.used x := by
      refine ⟨⟨?first, ?last, ?linked, ?tiled, ?mem, ?even, ?page, ?fits, ?small, ?pages, ?live, ?asked,
        ?shrunk⟩, fun x => (hkeep x).2.2.2.1⟩
      case first =>
        rw [hm', headD_append]
        have hhead := h.head
        rw [headD_append, headD_append] at hhead
        exact hhead
      case last =>
        rw [hm', getLastD_append_cons]
        rfl
      case linked =>
        have hl : l' ++ [q] ++ [t] = l' ++ q :: t :: [] := by simp
        rw [hl] at h hnd
        refine h.linked.remove hnd ?_ (fun x hx => ?_) nofun (fun x _ => (hkeep x).1) fun _ hin => ?_
        · rw [(hkeep q).2.2.2.2, if_pos rfl]
          rfl
        · rw [(hkeep x).2.2.2.2, if_neg hx]
        · refine h.zero_notMem ?_
          rw [← hl]
          exact List.mem_append_left _ hin
      case tiled =>
        rw [show m'.memTail = e by rw [hm']; exact het]
        exact h₁.congr (fun _ _ => rfl) fun x _ => by rw [(hkeep x).2.1]
      case mem =>
        exact fun x hx => (hkeep x).2.2.1.trans (h.mem x (List.mem_append_left _ hx))
      case even =>
        intro x hx
        rw [(hkeep x).2.1]
        exact h.even x (List.mem_append_left _ hx)
      case page =>
        rw [hm']; exact hp
      case fits =>
        rw [hm']; show t < _; omega
      case small =>
        rw [hm']; show t ≤ _; have := h.small; omega
      case pages =>
        rw [hm']; show t < _; omega
      case live =>
        rw [show m'.live = m.live by rw [hm']; rfl]
        have hfl : (l' ++ [q]).filter (fun x => m'.used x) = (l' ++ [q]).filter fun x => m.used x :=
          List.filter_congr fun x _ => (hkeep x).2.2.2.1
        rw [hfl, hlive]
        exact h.live
      case asked =>
        intro x hx
        rw [(hkeep _).2.1]
        rw [show m'.live = m.live by rw [hm']; rfl] at hx
        exact h.asked x hx
      case shrunk =>
        rw [hm']; exact hshrunk
    rw [hm'] at hgoal
    rw [show (({ m with tail := q } : Heap).mod q fun h => { h with next := 0 }).memTail = m.memTail
      from rfl, hmt]
    exact hgoal

theorem tryShrink_live : (m.tryShrink b).live = m.live := by
  simp only [Heap.tryShrink]
  split_ifs <;> rfl

/-! ### Allocating -/

theorem tryBreak_live : (m.tryBreak b a sz).live = m.live := by
  simp only [Heap.tryBreak]
  split_ifs <;> rfl

/-- Nobody else has a pointer just given out. -/
theorem asked_new {req : ℕ} {x : List (ℕ × ℕ)} (h : Shape b ar l m) (hlive : m.live = (p, req) :: x) (hreq : req ≤ sz) :
    ∀ y ∈ m.live, y.1 = p → y.2 ≤ sz := by
  have hnd := h.live_nodup
  rw [hlive, List.map_cons, List.nodup_cons] at hnd
  intro y hy hya
  rw [hlive] at hy
  rcases List.mem_cons.mp hy with rfl | hy
  · exact hreq
  · exact absurd (List.mem_map.mpr ⟨y, hy, hya⟩) hnd.1

/-- A block just taken is cut to size. -/
theorem settle {req : ℕ} {x : List (ℕ × ℕ)} (h : Shape b ar (l₁ ++ a :: l₂) m)
    (hu : m.used a = true) (hs₁ : Sparse (fun x => m.used x = false) l₁)
    (hs₂ : Sparse (fun x => m.used x = false) l₂) (hd : ∀ c ∈ l₂.head?, m.used c = true)
    (hsz : sz ≤ m.size a) (h16 : 16 ∣ sz) (hlive : m.live = (a + hdrSize b, req) :: x)
    (hreq : req ≤ sz) :
    ∃ l, Inv b ar l (m.settle b a sz).2 ∧ (m.settle b a sz).1 = a + hdrSize b ∧
      (m.settle b a sz).2.live = m.live := by
  obtain ⟨l, hs, hl, hmem, hused⟩ := h.tryBreak hsz h16 (h.asked_new hlive hreq)
  have hk₁ : Sparse (fun x => (m.tryBreak b a sz).used x = false) l₁ := hs₁.mono fun x hx hxu => by
    rwa [hused x (List.mem_append_left _ hx)] at hxu
  have hk₂ : Sparse (fun x => (m.tryBreak b a sz).used x = false) l₂ := hs₂.mono fun x hx hxu => by
    rwa [hused x (List.mem_append_right _ (List.mem_cons_of_mem a hx))] at hxu
  have ha : (m.tryBreak b a sz).used a = true :=
    (hused a (List.mem_append_right _ List.mem_cons_self)).trans hu
  refine ⟨_, ⟨hs.restart _, ?_⟩, ?_, tryBreak_live⟩
  · -- whatever is left over stands between two used blocks
    refine Sparse.append hk₁ (Sparse.cons ?_ fun _ _ hac => ?_) fun _ _ c hc hac => ?_
    · rcases hl with rfl | ⟨p, rfl, -⟩
      · exact hk₂
      · refine hk₂.cons fun c hc hpc => ?_
        have hcl := List.mem_of_mem_head? hc
        rw [hused c (List.mem_append_right _ (List.mem_cons_of_mem a hcl)), hd c hc] at hpc
        cases hpc.2
    · exact absurd (ha.symm.trans hac.1) (by decide)
    · cases hc
      exact absurd (ha.symm.trans hac.2) (by decide)
  · exact hmem.trans (h.mem a (List.mem_append_right _ List.mem_cons_self))

end Shape

/-- The bytes under a block for `size` bytes, when nothing wraps. -/
def need (b : Build) (size : ℕ) : ℕ := roundUp (roundUp size 16 + hdrSize b) b.page

/-- No free block holds `size` bytes. -/
def Full (b : Build) (m : Heap) (size : ℕ) : Prop :=
  m.search b (b.alignUp size 16) (m.memTail + 1) (m.entry b).1 (m.entry b).2 = .nothing

instance (b : Build) (m : Heap) (size : ℕ) : Decidable (Full b m size) :=
  inferInstanceAs (Decidable (_ = _))

/-- The size can be rounded up, and the heap can grow by what it needs if it has to: neither an
    address nor the size field of a block nor an `int32_t` of pages wraps. -/
def Fits (b : Build) (ar : Arena b) (m : Heap) : Op → Prop
  | .malloc size ok => size % b.top + 15 < b.top ∧ (ok = true → Full b m (size % b.top) →
      m.memTail + need b (size % b.top) < b.top ∧
      m.memTail + need b (size % b.top) ≤ ar.base + sizeTop b ∧
      m.memTail + need b (size % b.top) < ar.base + 2 ^ 31 * b.page)
  | .free _ => True

/-- Whole pages, counted as the code does. -/
theorem pagesFor_mul (hsz : sz + hdrSize b < b.top)
    (hp : roundUp (sz + hdrSize b) b.page < 2 ^ 32 * b.page) :
    pagesFor b sz * b.page = roundUp (sz + hdrSize b) b.page := by
  have hpage := @Build.page_pos b
  have hceil : (sz + hdrSize b) / b.page + (if 0 < (sz + hdrSize b) % b.page then 1 else 0) =
      (sz + hdrSize b + (b.page - 1)) / b.page := by
    obtain ⟨q, r, hr, hqr⟩ : ∃ q r, r < b.page ∧ sz + hdrSize b = b.page * q + r :=
      ⟨_, _, Nat.mod_lt _ hpage, (Nat.div_add_mod _ _).symm⟩
    rw [hqr, Nat.mul_add_div hpage, Nat.mul_add_mod, Nat.div_eq_of_lt hr, Nat.mod_eq_of_lt hr,
      Nat.add_assoc (b.page * q), Nat.mul_add_div hpage]
    split_ifs with h0
    · rw [show r + (b.page - 1) = b.page * 1 + (r - 1) by omega, Nat.mul_add_div hpage,
        Nat.div_eq_of_lt (show r - 1 < b.page by omega)]
    · rw [Nat.div_eq_of_lt (show r + (b.page - 1) < b.page by omega)]
  rw [roundUp] at hp ⊢
  rw [pagesFor, Nat.mod_eq_of_lt hsz, hceil, Nat.mod_eq_of_lt (Nat.lt_of_mul_lt_mul_right hp)]

namespace Inv

theorem restart (h : Inv b ar l m) (s : ℕ) : Inv b ar l { m with start := s } :=
  ⟨h.toShape.restart s, h.sparse⟩

theorem tryShrink (h : Inv b ar l m) : ∃ l', Inv b ar l' (m.tryShrink b) ∧ l' ⊆ l ∧
    ∀ x, (m.tryShrink b).used x = m.used x := by
  by_cases hguard : m.tail = 0 ∨ m.used m.tail = true ∨ m.tail % b.page ≠ 0
  · rw [Heap.tryShrink, if_pos hguard]
    exact ⟨l, h, List.Subset.refl _, fun _ => rfl⟩
  · rw [not_or, not_or, Bool.not_eq_true, not_not] at hguard
    obtain ⟨hne, hu, hp⟩ := hguard
    rcases List.eq_nil_or_concat l with rfl | ⟨l', t, rfl⟩
    · exact absurd h.tail hne
    · rw [List.concat_eq_append] at h ⊢
      have ht : m.tail = t := by rw [h.tail, getLastD_append_cons, List.getLastD_nil]
      rw [ht] at hu hp
      obtain ⟨hshape, hused⟩ := h.toShape.shrink hu (Nat.dvd_of_mod_eq_zero hp)
      refine ⟨l', ⟨hshape, ?_⟩, List.subset_append_left .., hused⟩
      simp only [hused]
      exact (List.isChain_append.mp h.sparse).1

theorem getBlock_add : getBlock b (a + hdrSize b) = a := by
  rw [getBlock, if_neg (by omega), Nat.add_sub_cancel]

/-- What `get_block` finds behind a pointer. -/
theorem find_getBlock (h : Inv b ar l m) (hp : m.trunkFindBlock b (getBlock b p) ≠ 0) :
    m.trunkFindBlock b (getBlock b p) ∈ l ∧
      p = m.trunkFindBlock b (getBlock b p) + hdrSize b := by
  rw [h.find_eq] at hp ⊢
  split_ifs at hp ⊢ with hin
  · refine ⟨hin, ?_⟩
    have hne := h.ne_zero hin
    rw [getBlock] at hne ⊢
    split_ifs at hne ⊢ with hlt
    · exact absurd rfl hne
    · omega
  · exact absurd rfl hp

/-- A used block is marked free, and its caller loses the pointer. -/
def unmark (m : Heap) (a p : ℕ) : Heap :=
  { m.mod a fun h => { h with used := false } with live := m.live.filter fun x => x.1 ≠ p }

/-- A block is given up and merged with its neighbours. -/
theorem released (h : Inv b ar (l₁ ++ a :: l₂) m) (hp : p = a + hdrSize b) :
    ∃ k r, Inv b ar (k ++ ((unmark m a p).tryMerge b a).1 :: r) ((unmark m a p).tryMerge b a).2 ∧ r ⊆ l₂ ∧
      (l₁ = k ∧ ((unmark m a p).tryMerge b a).1 = a ∨
        l₁ = k ++ [((unmark m a p).tryMerge b a).1] ∧ m.used ((unmark m a p).tryMerge b a).1 = false) ∧
      ((unmark m a p).tryMerge b a).2.live = m.live.filter (fun x => x.1 ≠ p) ∧
      (∀ x, ((unmark m a p).tryMerge b a).2.used x = (m.used x && decide (x ≠ a))) := by
  have hshape := h.toShape.release hp
  change Shape b ar (l₁ ++ a :: l₂) (unmark m a p) at hshape
  obtain ⟨m', hm'⟩ : ∃ m' : Heap, m' = unmark m a p := ⟨_, rfl⟩
  rw [← hm'] at hshape ⊢
  rw [unmark] at hm'
  have hself : m'.used a = false := by rw [hm']; simp only [used, mod_self]
  have hother : ∀ x, x ≠ a → m'.used x = m.used x := fun x hx => by
    rw [hm']
    simp only [used, mod_ne _ hx]
  obtain ⟨hs₁, hs₂, -⟩ := List.isChain_append.mp h.sparse
  obtain ⟨-, hs₂⟩ := List.isChain_cons.mp hs₂
  obtain ⟨-, hnd, hdis⟩ := List.nodup_append.mp h.nodup
  have hal := (List.nodup_cons.mp hnd).1
  have hk₁ : Sparse (fun x => m'.used x = false) l₁ := Sparse.mono hs₁ fun x hx hu => by
    rwa [hother x fun he => hdis x hx a List.mem_cons_self he] at hu
  have hk₂ : Sparse (fun x => m'.used x = false) l₂ := Sparse.mono hs₂ fun x hx hu => by
    rwa [hother x fun he => hal (he ▸ hx)] at hu
  obtain ⟨k, r, hi, hr, hwhich⟩ := hshape.tryMerge hself hk₁ hk₂
  refine ⟨k, r, hi, hr, hwhich.imp_right fun hc => ⟨hc.1, ?_⟩, ?_, fun x => ?_⟩
  · rw [← hother _ fun he => hdis _ (hc.1 ▸ List.mem_append_right _ List.mem_cons_self) a List.mem_cons_self he]
    exact hc.2
  · rw [Shape.tryMerge_live, hm']
  · rw [Shape.tryMerge_used]
    by_cases hx : x = a
    · rw [hx, hself]
      simp
    · rw [hother x hx]
      simp [hx]

/-- `trunk_free`: the callers lose the pointer, and a pointer nobody holds changes nothing. -/
theorem trunkFree (h : Inv b ar l m) : ∃ l', Inv b ar l' (m.trunkFree b p) ∧
    (m.trunkFree b p).live = m.live.filter (fun x => x.1 ≠ p) ∧
    (p ∉ m.live.map Prod.fst → m.trunkFree b p = m) := by
  obtain ⟨a, ha⟩ : ∃ a, a = m.trunkFindBlock b (getBlock b p) := ⟨_, rfl⟩
  have hheld : a ≠ 0 → (p ∈ m.live.map Prod.fst ↔ m.used a = true) := by
    intro hne
    rw [ha] at hne ⊢
    obtain ⟨hin, hpa⟩ := h.find_getBlock hne
    rw [h.live.mem_iff]
    simp only [List.mem_map, List.mem_filter]
    constructor
    · rintro ⟨x, ⟨-, hu⟩, hx⟩
      rwa [show x = m.trunkFindBlock b (getBlock b p) by omega] at hu
    · exact fun hu => ⟨_, ⟨hin, hu⟩, hpa.symm⟩
  have hlost : p ∉ m.live.map Prod.fst → m.live.filter (fun x => x.1 ≠ p) = m.live := by
    intro hp
    refine List.filter_eq_self.mpr fun x hx => decide_eq_true fun he => hp ?_
    exact List.mem_map.mpr ⟨x, hx, he⟩
  rw [Heap.trunkFree]
  simp only [← ha]
  split_ifs with h0 hu hr
  · have hp : p ∉ m.live.map Prod.fst := by
      intro hin
      rw [h.live.mem_iff] at hin
      obtain ⟨x, hx, rfl⟩ := List.mem_map.mp hin
      have hxl := (List.mem_filter.mp hx).1
      rw [h.find_eq, getBlock_add, if_pos hxl] at ha
      exact h.ne_zero hxl (ha ▸ h0)
    exact ⟨l, h, (hlost hp).symm, fun _ => rfl⟩
  · have hp : p ∉ m.live.map Prod.fst := fun hin => by
      rw [(hheld h0).mp hin] at hu
      cases hu
    exact ⟨l, h, (hlost hp).symm, fun _ => rfl⟩
  all_goals
    obtain ⟨hin, hpa⟩ := h.find_getBlock (ha ▸ h0)
    rw [← ha] at hin hpa
    have hp : p ∈ m.live.map Prod.fst := (hheld h0).mpr (by simpa using hu)
    obtain ⟨l₁, l₂, rfl⟩ := List.append_of_mem hin
    obtain ⟨k, r, hi, -, -, hlive, -⟩ := h.released hpa
    have hmem : ((unmark m a p).tryMerge b a).1 ∈ k ++ ((unmark m a p).tryMerge b a).1 :: r :=
      List.mem_append_right _ List.mem_cons_self
    simp only [unmark] at hi hmem hlive
  · -- the merged block is one of the list, so it is found
    rw [hi.find_eq, if_pos hmem] at hr
    exact absurd hr (not_or.mpr ⟨hi.ne_zero hmem, hi.ne_zero hmem⟩)
  · obtain ⟨l'', hi', -⟩ := (hi.restart _).tryShrink
    exact ⟨l'', hi', Shape.tryShrink_live.trans hlive, fun hn => absurd hp hn⟩
  · obtain ⟨l'', hi', -⟩ := hi.tryShrink
    exact ⟨l'', hi', Shape.tryShrink_live.trans hlive, fun hn => absurd hp hn⟩

/-- A free block is marked and cut. -/
theorem taken (h : Inv b ar l m) (ha : a ∈ l) (hf : m.used a = false) (hle : sz ≤ m.size a)
    (h16 : 16 ∣ sz) (hreq : size ≤ sz) : ∃ l', Inv b ar l' ((m.take a size).settle b a sz).2 ∧
      ((m.take a size).settle b a sz).1 = a + hdrSize b ∧
      ((m.take a size).settle b a sz).2.live = (a + hdrSize b, size) :: m.live := by
  have hkept : ∀ x, (m.take a size).used x = false → m.used x = false := by
    intro x hx
    rcases eq_or_ne x a with rfl | hne
    · exact hf
    · simpa only [Heap.take, used, mod_ne _ hne] using hx
  have hself : (m.take a size).used a = true := by simp only [Heap.take, used, mod_self]
  have hsize : (m.take a size).size a = m.size a := by simp only [Heap.take, Heap.size, mod_self]
  have hlive : (m.take a size).live = (a + hdrSize b, size) :: m.live := by
    simp only [Heap.take, h.mem a ha]
  have hshape := h.toShape.take ha hf (hreq.trans hle)
  obtain ⟨l₁, l₂, rfl⟩ := List.append_of_mem ha
  obtain ⟨hs₁, hs₂, -⟩ := List.isChain_append.mp h.sparse
  obtain ⟨hd, hs₂⟩ := List.isChain_cons.mp hs₂
  have hbusy : ∀ c ∈ l₂.head?, (m.take a size).used c = true := by
    intro c hc
    by_contra hu
    exact hd c hc ⟨hf, hkept c (by simpa using hu)⟩
  obtain ⟨l', hi, hres, hl⟩ := hshape.settle hself (Sparse.mono hs₁ fun x _ => hkept x)
    (Sparse.mono hs₂ fun x _ => hkept x) hbusy (hsize ▸ hle) h16 hlive hreq
  exact ⟨l', hi, hres, hl.trans hlive⟩

/-- A block over new pages is cut. -/
theorem grown {pages : ℕ} (h : Inv b ar l m) (hfit : m.memTail + pages * b.page < b.top)
    (hsmall : m.memTail + pages * b.page ≤ ar.base + sizeTop b)
    (hpages : m.memTail + pages * b.page < ar.base + 2 ^ 31 * b.page)
    (hle : sz + hdrSize b ≤ pages * b.page) (h16 : 16 ∣ sz) (hreq : size ≤ sz) :
    ∃ l', Inv b ar l' ((m.grow b pages size).settle b m.memTail sz).2 ∧
      ((m.grow b pages size).settle b m.memTail sz).1 = m.memTail + hdrSize b ∧
      ((m.grow b pages size).settle b m.memTail sz).2.live =
        (m.memTail + hdrSize b, size) :: m.live := by
  obtain ⟨hshape, hsize, hu, hused⟩ := h.toShape.grow hfit hsmall hpages
    (show size + hdrSize b ≤ pages * b.page by omega)
  have hlive : (m.grow b pages size).live = (m.memTail + hdrSize b, size) :: m.live := by
    rw [Shape.grow_fields.2.2.2.1, Nat.mod_eq_of_lt (by omega)]
  have hsparse : Sparse (fun x => (m.grow b pages size).used x = false) l :=
    h.sparse.mono fun x hx hxu => (hused x hx).symm.trans hxu
  obtain ⟨l', hi, hres, hl⟩ := hshape.settle hu hsparse List.isChain_nil nofun (by omega) h16 hlive
    hreq
  exact ⟨l', hi, hres, hl.trans hlive⟩

/-- `trunk_malloc`: a block for the caller, or nothing has changed. -/
theorem trunkMalloc {ok : Bool} (h : Inv b ar l m) (hsize : size < b.top)
    (hfit : Fits b ar m (.malloc size ok)) : ∃ l', Inv b ar l' (m.trunkMalloc b size ok).2 ∧
      ((m.trunkMalloc b size ok).1 = 0 → (m.trunkMalloc b size ok).2 = m) ∧
      ((m.trunkMalloc b size ok).1 ≠ 0 →
        (m.trunkMalloc b size ok).2.live = ((m.trunkMalloc b size ok).1, size) :: m.live) := by
  rw [Fits, Nat.mod_eq_of_lt hsize] at hfit
  obtain ⟨hround, hgrow⟩ := hfit
  have hsz : b.alignUp size 16 = roundUp size 16 := Build.alignUp_eq hround
  have h16 : 16 ∣ roundUp size 16 := Nat.dvd_mul_left ..
  have hreq : size ≤ roundUp size 16 := le_roundUp (by decide)
  have hpos := @hdrSize_pos b
  obtain ⟨l₁, l₂, rfl, hentry⟩ := h.entry_spec
  have hlen : l₂.length < m.memTail + 1 := by
    have := h.length_lt
    rw [List.length_append] at this
    omega
  rw [Full, hsz, hentry] at hgrow
  simp only [Heap.trunkMalloc, hsz, hentry]
  rcases @Shape.search_spec b ar m l₁ l₂ _ (roundUp size 16) h.toShape hlen with
    ⟨a, ha, hf, hle, hs⟩ | hs
  · rw [hs]
    obtain ⟨l', hi, hres, hlive⟩ := h.taken (List.mem_append_right _ ha) hf hle h16 hreq
    refine ⟨l', hi, fun h0 => ?_, fun _ => ?_⟩
    · rw [hres] at h0
      omega
    · rw [hlive, hres]
  · rw [hs]
    cases ok with
    | false => exact ⟨_, h, fun _ => rfl, fun hne => absurd rfl hne⟩
    | true =>
      obtain ⟨hfit, hsmall, hpages⟩ := hgrow rfl hs
      rw [need] at hfit hsmall hpages
      have hbase := h.tiled.le
      have hle : roundUp size 16 + hdrSize b ≤ roundUp (roundUp size 16 + hdrSize b) b.page :=
        le_roundUp Build.page_pos
      have hcount := @pagesFor_mul b (roundUp size 16) (by omega) (by omega)
      rw [← hcount] at hfit hsmall hpages hle
      obtain ⟨l', hi, hres, hlive⟩ := h.grown hfit hsmall hpages hle h16 hreq
      rw [if_neg (by decide)]
      refine ⟨l', hi, fun h0 => ?_, fun _ => ?_⟩
      · rw [hres] at h0
        omega
      · rw [hlive, hres]

theorem boot (mem : ℕ → Header) : Inv b ar [] (ar.boot mem) := by
  refine ⟨⟨rfl, rfl, trivial, rfl, nofun, nofun, ar.dvd, ar.lt, Nat.le_add_right .., ?_, .nil, nofun,
    nofun⟩, List.isChain_nil⟩
  have := Nat.mul_pos (Nat.two_pow_pos 31) (@Build.page_pos b)
  exact Nat.lt_add_of_pos_right this

end Inv

/-! ### Whole runs -/

/-- The blocks from head to tail. -/
structure Blocks (b : Build) (ar : Arena b) (m : Heap) (l : List ℕ) : Prop where
  head : m.head = l.headD 0
  tail : m.tail = l.getLastD 0
  linked : Linked m.next m.prev 0 l 0
  tiled : Tiles id (fun a => m.size a + hdrSize b) ar.base l m.memTail
  sparse : Sparse (fun a => m.used a = false) l
  aligned : ∀ a ∈ l, 16 ∣ a
  live : (m.live.map Prod.fst).Perm ((l.filter fun a => m.used a).map (· + hdrSize b))

/-- Where the bytes behind a pointer lie. -/
def payload (b : Build) (m : Heap) (p : ℕ) : ℕ × ℕ := (p, m.size (p - hdrSize b))

/-- What is promised of the heap. -/
structure Sound (b : Build) (ar : Arena b) (m : Heap) : Prop where
  blocks : ∃ l, Blocks b ar m l
  asked : ∀ x ∈ m.live, x.2 ≤ (payload b m x.1).2
  apart : m.live.Pairwise fun x y => Apart (payload b m x.1) (payload b m y.1)
  shrunk : ∀ x ∈ m.shrunk, x.1 * b.page = x.2

/-- What is promised of a call: a refused one changes nothing, and what callers hold stays where it
    is until they free it. -/
def Kept (b : Build) (m m' : Heap) : Op → Prop
  | .malloc size ok =>
    let r := (m.trunkMalloc b (size % b.top) ok).1
    (r = 0 → m' = m) ∧ (r ≠ 0 → m'.live = (r, size % b.top) :: m.live)
  | .free p => m'.live = m.live.filter (fun x => x.1 ≠ p % b.top) ∧
    (p % b.top ∉ m.live.map Prod.fst → m' = m)

theorem Inv.sound (h : Inv b ar l m) : Sound b ar m := by
  refine ⟨⟨l, h.head, h.tail, h.linked, h.tiled, h.sparse, fun a ha => h.dvd ha, h.live⟩, h.asked, ?_,
    h.shrunk⟩
  have hused : ((l.filter fun a => m.used a).map (· + hdrSize b)).Pairwise fun x y =>
      Apart (payload b m x) (payload b m y) := by
    refine List.pairwise_map.mpr ((h.rising.filter _).imp fun {x y} hxy => .inl ?_)
    simp only [payload, Nat.add_sub_cancel]
    omega
  have hlive := (h.live.pairwise_iff Apart.symm).mpr hused
  rwa [List.pairwise_map] at hlive

theorem Inv.step {o : Op} (h : Inv b ar l m) (hfit : Fits b ar m o) (hst : step b m o = some m') :
    (∃ l', Inv b ar l' m') ∧ Kept b m m' o := by
  cases o with
  | malloc size ok =>
    have hlt : size % b.top < b.top := Nat.mod_lt _ (Nat.two_pow_pos _)
    have hfit' : Fits b ar m (.malloc (size % b.top) ok) := by
      rw [Fits, Nat.mod_eq_of_lt hlt]
      exact hfit
    obtain ⟨l', hi, hfail, hok⟩ := h.trunkMalloc hlt hfit'
    cases hst
    exact ⟨⟨l', hi⟩, hfail, hok⟩
  | free p =>
    obtain ⟨l', hi, hlive, hkeep⟩ := @Inv.trunkFree b ar m l (p % b.top) h
    cases hst
    exact ⟨⟨l', hi⟩, hlive, hkeep⟩

/-- In every run whose calls all fit, over whatever was in memory, the heap is in order and every
    further call keeps what callers hold. -/
theorem trunk_sound {mem : ℕ → Header} (hr : Reach (Heap.step b) (Fits b ar) (ar.boot mem) m) :
    Sound b ar m ∧ ∀ o m', Fits b ar m o → Heap.step b m o = some m' → Kept b m m' o := by
  obtain ⟨l, h⟩ : ∃ l, Inv b ar l m := by
    refine hr.inv (I := fun s => ∃ l, Inv b ar l s) ⟨[], Inv.boot mem⟩ ?_
    rintro s o t ⟨l, hi⟩ hfit hst
    exact (hi.step hfit hst).1
  exact ⟨h.sound, fun o m' hfit hst => (h.step hfit hst).2⟩

end

instance (b : Build) (ar : Arena b) (m : Heap) : DecidablePred (Fits b ar m)
  | .malloc _ _ => inferInstanceAs (Decidable (_ ∧ (_ → _)))
  | .free _ => inferInstanceAs (Decidable True)

/-- 4K pages and 64 bits. -/
def pages4k : Build := ⟨12, 64, shift_4k, bits_64⟩

/-- A heap from 64K on. -/
def arena : Arena pages4k := ⟨0x10000, by decide, by decide, by decide⟩

def blank : Heap := arena.boot fun _ => ⟨0, 0, 0, false, 0⟩

/-- Two blocks are taken and given back; the heap ends where it began. -/
def session : List Op := [.malloc 100 true, .malloc 5000 true, .free 0x10020, .free 0x11020]

theorem trunk_sound_session : ∃ m, m.shrunk = [(3, 12288)] ∧ Sound pages4k arena m := by
  have hrun : (runIf (Heap.step pages4k) (fun m o => decide (Fits pages4k arena m o)) blank
      session).map (fun m => m.shrunk) = some [(3, 12288)] := by decide +kernel
  obtain ⟨m, hm, hshrunk⟩ := Option.map_eq_some_iff.mp hrun
  exact ⟨m, hshrunk, (trunk_sound (reach_of_runIf hm fun _ _ => of_decide_eq_true)).1⟩

/-- Rounding up `SIZE_MAX` wraps to 0, so the caller gets a block without a byte. -/
theorem wrapped_malloc : ∃ m, Reach (Heap.step pages4k) Free blank m ∧ ¬Sound pages4k arena m := by
  have hrun : (runOps (Heap.step pages4k) blank [.malloc (2 ^ 64 - 1) true]).map (fun m =>
      decide (∃ x ∈ m.live, (payload pages4k m x.1).2 < x.2)) = some true := by decide +kernel
  obtain ⟨m, hm, hbad⟩ := Option.map_eq_some_iff.mp hrun
  refine ⟨m, reach_of_runOps hm, fun hs => ?_⟩
  obtain ⟨x, hx, hlt⟩ := of_decide_eq_true hbad
  exact absurd (hs.asked x hx) (Nat.not_le.mpr hlt)

end EwokOS.Memory.Heap
