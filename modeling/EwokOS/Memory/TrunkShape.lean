import EwokOS.Memory.Trunk

/-! The blocks of the kernel heap as they lie in memory.

    `Shape` is the representation invariant: the headers from `head` to `tail` are doubly linked, and
    with their payloads they tile the memory up to its tail. It holds in the middle of a call too;
    between calls no two neighbours are free (`Inv`). The roving `start` is not part of it, since
    every use of it is checked by `trunk_find_block`. Here are the writes that keep it: a block is
    marked, cut, appended over new pages or joined with the next. -/

namespace EwokOS.Memory.Heap

open Schemes (Reach Free Linked Tiles Sparse Apart linked_append tiles_append tiles_dvd headD_append
  getLastD_append_cons)

section
variable {b : Build} {ar : Arena b} {m m' : Heap} {l l₁ l₂ : List ℕ} {a c n t sz : ℕ}

/-- A free block that holds `sz` bytes. -/
def holds (m : Heap) (sz a : ℕ) : Bool := !m.used a && decide (sz ≤ m.size a)

/-! ### Headers -/

theorem hdrSize_eq : hdrSize b = 16 ∨ hdrSize b = 32 := by
  rcases b.bits_mem with h | h
  · exact .inl (by rw [hdrSize, h])
  · exact .inr (by rw [hdrSize, h])

theorem hdrSize_pos : 0 < hdrSize b := by
  rcases @hdrSize_eq b with h | h <;> omega

theorem hdrSize_dvd : 16 ∣ hdrSize b := by
  rcases @hdrSize_eq b with h | h
  · exact ⟨1, h⟩
  · exact ⟨2, h⟩

theorem page_sixteen : 16 ∣ b.page := by
  refine Nat.pow_dvd_pow 2 (show 4 ≤ b.pageShift from ?_)
  have := b.shift_mem
  omega

theorem hdrSize_lt_page : hdrSize b < b.page := by
  have hpage : 2 ^ 12 ≤ b.page := Nat.pow_le_pow_right (by decide) (by have := b.shift_mem; omega)
  rcases @hdrSize_eq b with h | h <;> omega

theorem aligned_of_dvd (h : 16 ∣ a) : ptrAligned b a = true := by
  rw [ptrAligned, decide_eq_true_eq]
  rcases b.bits_mem with hb | hb <;> rw [hb] <;> omega

theorem mod_hdr (f : Header → Header) (x : ℕ) :
    (m.mod a f).hdr x = if x = a then f (m.hdr a) else m.hdr x := Function.update_apply ..

theorem mod_self (f : Header → Header) : (m.mod a f).hdr a = f (m.hdr a) := Function.update_self ..

theorem mod_ne (f : Header → Header) {x : ℕ} (h : x ≠ a) : (m.mod a f).hdr x = m.hdr x :=
  Function.update_of_ne h ..

/-! ### The representation -/

/-- The blocks `l` as they lie in memory. -/
structure Shape (b : Build) (ar : Arena b) (l : List ℕ) (m : Heap) : Prop where
  head : m.head = l.headD 0
  tail : m.tail = l.getLastD 0
  linked : Linked m.next m.prev 0 l 0
  tiled : Tiles id (fun a => m.size a + hdrSize b) ar.base l m.memTail
  mem : ∀ a ∈ l, m.mem a = a + hdrSize b
  even : ∀ a ∈ l, 16 ∣ m.size a
  page : b.page ∣ m.memTail
  fits : m.memTail < b.top
  small : m.memTail ≤ ar.base + sizeTop b
  pages : m.memTail < ar.base + 2 ^ 31 * b.page
  live : (m.live.map Prod.fst).Perm ((l.filter fun a => m.used a).map (· + hdrSize b))
  asked : ∀ x ∈ m.live, x.2 ≤ m.size (x.1 - hdrSize b)
  shrunk : ∀ x ∈ m.shrunk, x.1 * b.page = x.2

/-- What holds between calls. -/
structure Inv (b : Build) (ar : Arena b) (l : List ℕ) (m : Heap) : Prop extends Shape b ar l m where
  sparse : Sparse (fun a => m.used a = false) l

namespace Shape

theorem inside (h : Shape b ar l m) (ha : a ∈ l) :
    ar.base ≤ a ∧ a + (m.size a + hdrSize b) ≤ m.memTail := h.tiled.inside ha

theorem rising (h : Shape b ar l m) : l.Pairwise fun a c => a + (m.size a + hdrSize b) ≤ c :=
  h.tiled.apart

theorem nodup (h : Shape b ar l m) : l.Nodup :=
  h.rising.imp fun {a c} hac he => by have := @hdrSize_pos b; omega

theorem zero_notMem (h : Shape b ar l m) : 0 ∉ l := fun h0 => by
  have := (h.inside h0).1
  have := ar.pos
  omega

theorem dvd (h : Shape b ar l m) (ha : a ∈ l) : 16 ∣ a := by
  obtain ⟨l₁, l₂, rfl⟩ := List.append_of_mem ha
  obtain ⟨e, h₁, h₂, -⟩ := tiles_append.mp h.tiled
  have hbase : 16 ∣ ar.base := page_sixteen.trans ar.dvd
  have he := tiles_dvd h₁ hbase fun n hn =>
    Nat.dvd_add (h.even n (List.mem_append_left _ hn)) hdrSize_dvd
  have hae : a = e := h₂
  rwa [hae]

theorem ne_zero (h : Shape b ar l m) (ha : a ∈ l) : a ≠ 0 := fun he => h.zero_notMem (he ▸ ha)

/-- Where a block ends its successor begins. -/
theorem next_eq (h : Shape b ar (l₁ ++ a :: l₂) m) : m.next a = l₂.headD 0 ∧
    m.prev a = l₁.getLastD 0 := by
  obtain ⟨-, hprev, hnext, -⟩ := linked_append.mp h.linked
  exact ⟨hnext, hprev⟩

/-- The other blocks lie on either side. -/
theorem sides (h : Shape b ar (l₁ ++ a :: l₂) m) : (∀ x ∈ l₁, x + (m.size x + hdrSize b) ≤ a) ∧
    ∀ x ∈ l₂, a + (m.size a + hdrSize b) ≤ x := by
  obtain ⟨-, hr, hl⟩ := List.pairwise_append.mp h.rising
  exact ⟨fun x hx => hl x hx a List.mem_cons_self, (List.pairwise_cons.mp hr).1⟩

theorem inHeap (h : Shape b ar l m) (ha : a ∈ l) : ptrInHeap m.head m.memTail a = true := by
  have hne := h.ne_zero ha
  obtain ⟨hlo, hhi⟩ := h.inside ha
  have hpos := @hdrSize_pos b
  have hbase := ar.pos
  have hhead : m.head = ar.base := by
    rw [h.head]
    cases l with
    | nil => cases ha
    | cons x l => exact h.tiled.1
  rw [ptrInHeap, decide_eq_true_eq, hhead]
  omega

/-- `trunk_block_sane` holds of every block. -/
theorem sane (h : Shape b ar (l₁ ++ a :: l₂) m) :
    m.blockSane b m.head m.memTail (l₁.getLastD 0) a = true := by
  have ha : a ∈ l₁ ++ a :: l₂ := List.mem_append_right _ List.mem_cons_self
  obtain ⟨hnext, hprev⟩ := h.next_eq
  obtain ⟨hlo, hhi⟩ := h.inside ha
  have hfits := h.fits
  have hmem := h.mem a ha
  have hend : (m.mem a + m.size a) % b.top = a + (m.size a + hdrSize b) := by
    rw [hmem, Nat.mod_eq_of_lt (by omega)]
    omega
  have hm : (a + hdrSize b) % b.top = a + hdrSize b := Nat.mod_eq_of_lt (by omega)
  simp only [blockSane, decide_eq_true_eq, hend, hm, hprev]
  refine ⟨h.ne_zero ha, h.inHeap ha, aligned_of_dvd (h.dvd ha), hmem, by omega, by omega, hhi, trivial,
    ?_, ?_⟩
  · -- the block before points here
    intro hne
    rcases List.eq_nil_or_concat l₁ with rfl | ⟨l, p, rfl⟩
    · exact absurd rfl hne
    · rw [List.concat_eq_append, getLastD_append_cons, List.getLastD_nil] at hne ⊢
      have hl : l.concat p ++ a :: l₂ = l ++ p :: a :: l₂ := by simp
      rw [List.concat_eq_append, List.append_assoc] at h
      exact h.next_eq.1
  · intro hne
    rw [hnext] at hne ⊢
    cases l₂ with
    | nil => exact absurd rfl hne
    | cons c l₂ =>
      rw [List.headD_cons] at hne ⊢
      have hc : c ∈ l₁ ++ a :: c :: l₂ :=
        List.mem_append_right _ (List.mem_cons_of_mem a List.mem_cons_self)
      have hac := h.sides.2 c List.mem_cons_self
      have hpos := @hdrSize_pos b
      refine ⟨h.inHeap hc, aligned_of_dvd (h.dvd hc), by omega, hac, ?_⟩
      have hl : l₁ ++ a :: c :: l₂ = (l₁ ++ [a]) ++ c :: l₂ := by simp
      rw [hl] at h
      rw [h.next_eq.2, getLastD_append_cons]
      rfl

theorem length_lt (h : Shape b ar l m) : l.length < m.memTail + 1 := by
  have hlen := h.tiled.length_le fun a _ => Nat.add_pos_right (m.size a) hdrSize_pos
  omega

/-- The walk of `trunk_find_block` over the blocks that are left. -/
theorem findFrom_eq (h : Shape b ar (l₁ ++ l₂) m) (hn : l₂.length < n) :
    m.findFrom b t n (l₁.getLastD 0) (l₂.headD 0) = if t ∈ l₂ then t else 0 := by
  induction l₂ generalizing l₁ n with
  | nil =>
    obtain ⟨k, rfl⟩ := Nat.exists_eq_add_of_lt hn
    rfl
  | cons a l ih =>
    obtain ⟨k, rfl⟩ : ∃ k, n = k + 1 := ⟨n - 1, by omega⟩
    have ha : a ∈ l₁ ++ a :: l := List.mem_append_right _ List.mem_cons_self
    rw [findFrom, List.headD_cons, if_neg (h.ne_zero ha), if_neg (by rw [h.sane]; decide)]
    split_ifs with hat ht ht
    · rw [hat]
    · exact absurd (hat ▸ List.mem_cons_self) ht
    · have hl : l₁ ++ a :: l = (l₁ ++ [a]) ++ l := by simp
      have hrest := @ih (l₁ ++ [a]) k (hl ▸ h) (by rw [List.length_cons] at hn; omega)
      rw [getLastD_append_cons, List.getLastD_nil, ← h.next_eq.1] at hrest
      rw [hrest, if_pos ((List.mem_cons.mp ht).resolve_left fun he => hat he.symm)]
    · have hl : l₁ ++ a :: l = (l₁ ++ [a]) ++ l := by simp
      have hrest := @ih (l₁ ++ [a]) k (hl ▸ h) (by rw [List.length_cons] at hn; omega)
      rw [getLastD_append_cons, List.getLastD_nil, ← h.next_eq.1] at hrest
      rw [hrest, if_neg fun hin => ht (List.mem_cons_of_mem a hin)]

/-- `trunk_find_block` finds the blocks of the list and nothing else. -/
theorem find_eq (h : Shape b ar l m) : m.trunkFindBlock b t = if t ∈ l then t else 0 := by
  rw [trunkFindBlock]
  split_ifs with hz ht ht
  · rcases hz with rfl | hz | hz
    · rfl
    · rw [h.head] at hz
      cases l with
      | nil => cases ht
      | cons a l => exact absurd hz (h.ne_zero List.mem_cons_self)
    · have hin := h.inside ht
      have hpos := @hdrSize_pos b
      omega
  · rfl
  · have hfind := @findFrom_eq b ar m [] l (m.memTail + 1) t h h.length_lt
    rw [List.getLastD_nil, ← h.head, if_pos ht] at hfind
    exact hfind
  · have hfind := @findFrom_eq b ar m [] l (m.memTail + 1) t h h.length_lt
    rw [List.getLastD_nil, ← h.head, if_neg ht] at hfind
    exact hfind

/-- The search of `trunk_malloc` takes the first block that holds the request. -/
theorem search_eq (h : Shape b ar (l₁ ++ l₂) m) (hn : l₂.length < n) :
    m.search b sz n (l₁.getLastD 0) (l₂.headD 0) = match l₂.find? (m.holds sz) with
      | some a => .block a
      | none => .nothing := by
  induction l₂ generalizing l₁ n with
  | nil =>
    obtain ⟨k, rfl⟩ := Nat.exists_eq_add_of_lt hn
    rfl
  | cons a l ih =>
    obtain ⟨k, rfl⟩ : ∃ k, n = k + 1 := ⟨n - 1, by omega⟩
    have ha : a ∈ l₁ ++ a :: l := List.mem_append_right _ List.mem_cons_self
    have hl : l₁ ++ a :: l = (l₁ ++ [a]) ++ l := by simp
    have hrest := @ih (l₁ ++ [a]) k (hl ▸ h) (by rw [List.length_cons] at hn; omega)
    rw [getLastD_append_cons, List.getLastD_nil, ← h.next_eq.1] at hrest
    rw [search, List.headD_cons, if_neg (h.ne_zero ha), if_neg (by rw [h.sane]; simp), List.find?_cons]
    by_cases hskip : m.used a = true ∨ m.size a < sz
    · have hno : m.holds sz a = false := by
        rcases hskip with hu | hlt
        · simp [holds, hu]
        · simp [holds, hlt]
      rw [if_pos hskip, hrest, hno]
    · rw [not_or, Bool.not_eq_true, not_lt] at hskip
      have hyes : m.holds sz a = true := by simp [holds, hskip]
      rw [if_neg (by simp [hskip]), hyes]

theorem search_spec (h : Shape b ar (l₁ ++ l₂) m) (hn : l₂.length < n) :
    (∃ a ∈ l₂, m.used a = false ∧ sz ≤ m.size a ∧
      m.search b sz n (l₁.getLastD 0) (l₂.headD 0) = .block a) ∨
    m.search b sz n (l₁.getLastD 0) (l₂.headD 0) = .nothing := by
  rw [h.search_eq hn]
  cases hfind : l₂.find? (m.holds sz) with
  | none => exact .inr rfl
  | some a =>
    have hfit : m.used a = false ∧ sz ≤ m.size a := by simpa [holds] using List.find?_some hfind
    exact .inl ⟨a, List.mem_of_find?_eq_some hfind, hfit.1, hfit.2, rfl⟩

/-- Wherever `start` points, the search begins at a block of the list or at its head. -/
theorem entry_spec (h : Shape b ar l m) : ∃ l₁ l₂, l = l₁ ++ l₂ ∧
    m.entry b = (l₁.getLastD 0, l₂.headD 0) := by
  rw [entry]
  split_ifs with hs
  · rw [h.find_eq] at hs ⊢
    split_ifs at hs ⊢ with hin
    · obtain ⟨l₁, l₂, rfl⟩ := List.append_of_mem hin
      exact ⟨l₁, m.start :: l₂, rfl, by rw [h.next_eq.2]; rfl⟩
    · exact absurd rfl hs.2
  · exact ⟨[], l, rfl, by rw [h.head]; rfl⟩

/-! ### Marking a block -/

/-- What a caller holds is the payload of a used block. -/
theorem live_mem (h : Shape b ar l m) {x : ℕ × ℕ} (hx : x ∈ m.live) :
    x.1 - hdrSize b ∈ l ∧ m.used (x.1 - hdrSize b) = true ∧ x.1 - hdrSize b + hdrSize b = x.1 := by
  obtain ⟨y, hy, hyx⟩ := List.mem_map.mp (h.live.subset (List.mem_map_of_mem hx))
  obtain ⟨hyl, hyu⟩ := List.mem_filter.mp hy
  have hxy : x.1 - hdrSize b = y := by omega
  rw [hxy]
  exact ⟨hyl, hyu, hyx⟩

theorem filter_used {u u' : ℕ → Bool} (hnd : (l₁ ++ a :: l₂).Nodup) (hu : ∀ x, x ≠ a → u' x = u x) :
    (l₁ ++ a :: l₂).filter u' = l₁.filter u ++ ((if u' a then [a] else []) ++ l₂.filter u) := by
  obtain ⟨-, hnd₂, hdis⟩ := List.nodup_append.mp hnd
  obtain ⟨hal, -⟩ := List.nodup_cons.mp hnd₂
  rw [List.filter_append, List.filter_cons]
  have h₁ : l₁.filter u' = l₁.filter u :=
    List.filter_congr fun x hx => hu x fun he => hdis x hx a List.mem_cons_self he
  have h₂ : l₂.filter u' = l₂.filter u := List.filter_congr fun x hx => hu x fun he => hal (he ▸ hx)
  rw [h₁, h₂]
  split_ifs <;> rfl

/-- A free block is marked for its caller. -/
theorem take {req : ℕ} (h : Shape b ar l m) (ha : a ∈ l) (hf : m.used a = false)
    (hreq : req ≤ m.size a) : Shape b ar l (m.take a req) := by
  have hother : ∀ x, (m.take a req).next x = m.next x ∧ (m.take a req).prev x = m.prev x ∧
      (m.take a req).size x = m.size x ∧ (m.take a req).mem x = m.mem x := by
    intro x
    simp only [Heap.take, next, prev, size, Heap.mem, mod_hdr]
    split_ifs with hx
    · rw [hx]
      exact ⟨rfl, rfl, rfl, rfl⟩
    · exact ⟨rfl, rfl, rfl, rfl⟩
  have hused : ∀ x, x ≠ a → (m.take a req).used x = m.used x := fun x hx => by
    simp only [Heap.take, used, mod_ne _ hx]
  have hself : (m.take a req).used a = true := by simp only [Heap.take, used, mod_self]
  have hmem := h.mem a ha
  refine ⟨h.head, h.tail, ?_, ?_, ?_, ?_, h.page, h.fits, h.small, h.pages, ?_, ?_, h.shrunk⟩
  · exact h.linked.congr (fun x _ => (hother x).1) fun x _ => (hother x).2.1
  · exact h.tiled.congr (fun _ _ => rfl) fun x _ => by rw [(hother x).2.2.1]
  · exact fun x hx => (hother x).2.2.2.trans (h.mem x hx)
  · exact fun x hx => by rw [(hother x).2.2.1]; exact h.even x hx
  · obtain ⟨l₁, l₂, rfl⟩ := List.append_of_mem ha
    have hlive := h.live
    rw [filter_used h.nodup (fun x _ => rfl), hf] at hlive
    have hnew : (l₁ ++ a :: l₂).filter (fun a' => (m.take a req).used a') =
        l₁.filter (fun a' => m.used a') ++ a :: l₂.filter fun a' => m.used a' := by
      rw [filter_used h.nodup hused, hself]
      rfl
    rw [hnew, List.map_append, List.map_cons]
    refine (List.Perm.cons _ hlive).trans ?_
    rw [hmem, List.map_append]
    exact List.perm_middle.symm
  · intro x hx
    rw [(hother _).2.2.1]
    rcases List.mem_cons.mp hx with rfl | hx
    · rw [hmem, Nat.add_sub_cancel]
      exact hreq
    · exact h.asked x hx

/-! ### Cutting a block -/

/-- The headers after `try_break`. -/
theorem tryBreak_hdr {p : ℕ} (hbr : ¬m.size a / 2 < (hdrSize b + sz) % b.top)
    (hp : (m.mem a + sz) % b.top = p) (hpa : p ≠ a) (hpn : m.next a ≠ p) (hna : m.next a ≠ a) (x : ℕ) :
    (m.tryBreak b a sz).hdr x =
      if x = a then { m.hdr a with size := sz % sizeTop b, next := p }
      else if x = p then { genBlock b p (m.size a - sz) with next := m.next a, prev := a, used := false }
      else if x = m.next a ∧ m.next a ≠ 0 then { m.hdr x with prev := p } else m.hdr x := by
  rw [tryBreak, if_neg hbr]
  simp only [hp, apply_ite Heap.hdr, ite_self, mod_hdr]
  rcases eq_or_ne x a with rfl | hxa
  · simp only [if_true, hpa.symm, if_false, hna.symm]
    split_ifs <;> simp [mod_hdr, hna.symm]
  · simp only [hxa, if_false]
    rcases eq_or_ne x p with rfl | hxp
    · simp only [if_true]
    · simp only [hxp, if_false]
      rcases eq_or_ne (m.next a) 0 with h0 | h0
      · simp only [h0, ne_eq, not_true_eq_false, if_false, and_false]
      · simp only [h0, ne_eq, not_false_eq_true, if_true, and_true, mod_hdr]
        split_ifs with hx
        · rw [hx]
        · rfl

theorem tryBreak_fields (hbr : ¬m.size a / 2 < (hdrSize b + sz) % b.top) :
    (m.tryBreak b a sz).head = m.head ∧ (m.tryBreak b a sz).memTail = m.memTail ∧
      (m.tryBreak b a sz).live = m.live ∧ (m.tryBreak b a sz).shrunk = m.shrunk ∧
      (m.tryBreak b a sz).tail = if m.tail = a then (m.mem a + sz) % b.top else m.tail := by
  rw [tryBreak, if_neg hbr]
  rcases eq_or_ne (m.next a) 0 with h0 | h0
  · simp only [h0, ne_eq, not_true_eq_false, if_false]
    rcases eq_or_ne m.tail a with ht | ht
    · simp [mod, ht]
    · simp [mod, ht]
  · simp only [h0, ne_eq, not_false_eq_true, if_true]
    rcases eq_or_ne m.tail a with ht | ht
    · simp [mod, ht]
    · simp [mod, ht]

/-- `m'` is `m` with the block `a` cut to `sz` bytes and the rest made a free block at `p`. -/
structure Cut (b : Build) (m m' : Heap) (a p sz : ℕ) : Prop where
  head : m'.head = m.head
  tail : m'.tail = if m.tail = a then p else m.tail
  memTail : m'.memTail = m.memTail
  live : m'.live = m.live
  shrunk : m'.shrunk = m.shrunk
  self : m'.hdr a = { m.hdr a with size := sz, next := p }
  new : m'.hdr p = ⟨m.next a, a, m.size a - sz - hdrSize b, false, p + hdrSize b⟩
  next : m.next a ≠ 0 → m'.hdr (m.next a) = { m.hdr (m.next a) with prev := p }
  other : ∀ x, x ≠ a → x ≠ p → (x = m.next a → m.next a = 0) → m'.hdr x = m.hdr x

/-- Blocks that are not cut keep all but their `prev`. -/
theorem Cut.keeps {p : ℕ} (hc : Cut b m m' a p sz) {x : ℕ} (hxa : x ≠ a) (hxp : x ≠ p) :
    m'.next x = m.next x ∧ m'.size x = m.size x ∧ m'.mem x = m.mem x ∧ m'.used x = m.used x := by
  by_cases hx : x = m.next a → m.next a = 0
  · simp only [Heap.next, size, Heap.mem, used, hc.other x hxa hxp hx, and_self]
  · obtain ⟨rfl, hne⟩ := Classical.not_imp.mp hx
    simp only [Heap.next, size, Heap.mem, used, hc.next hne, and_self]

theorem cut {p : ℕ} (h : Shape b ar (l₁ ++ a :: l₂) m) (hc : Cut b m m' a p sz) (h16 : 16 ∣ sz)
    (hp : p = a + hdrSize b + sz) (hroom : hdrSize b + sz ≤ m.size a) (hout : p ∉ l₁ ++ a :: l₂)
    (hreq : ∀ x ∈ m.live, x.1 = a + hdrSize b → x.2 ≤ sz) :
    Shape b ar (l₁ ++ a :: p :: l₂) m' := by
  have ha : a ∈ l₁ ++ a :: l₂ := List.mem_append_right _ List.mem_cons_self
  have hnext := h.next_eq.1
  have hpos := @hdrSize_pos b
  have hpa : p ≠ a := by omega
  have hin₁ : ∀ x ∈ l₁, x ≠ a ∧ x ≠ p := fun x hx =>
    ⟨fun he => by have := h.sides.1 x hx; omega, fun he => hout (he ▸ List.mem_append_left _ hx)⟩
  have hin₂ : ∀ x ∈ l₂, x ≠ a ∧ x ≠ p := fun x hx =>
    ⟨fun he => by have := h.sides.2 x hx; omega,
      fun he => hout (he ▸ List.mem_append_right _ (List.mem_cons_of_mem a hx))⟩
  have hmem : ∀ x ∈ l₁ ++ a :: p :: l₂, x = a ∨ x = p ∨ (x ∈ l₁ ++ a :: l₂ ∧ m'.next x = m.next x ∧
      m'.size x = m.size x ∧ m'.mem x = m.mem x ∧ m'.used x = m.used x) := by
    intro x hx
    simp only [List.mem_append, List.mem_cons] at hx ⊢
    rcases hx with hx | rfl | rfl | hx
    · exact .inr (.inr ⟨.inl hx, hc.keeps (hin₁ x hx).1 (hin₁ x hx).2⟩)
    · exact .inl rfl
    · exact .inr (.inl rfl)
    · exact .inr (.inr ⟨.inr (.inr hx), hc.keeps (hin₂ x hx).1 (hin₂ x hx).2⟩)
  have hnd : (l₁ ++ a :: p :: l₂).Nodup := by
    have hperm : (l₁ ++ a :: p :: l₂).Perm (p :: (l₁ ++ a :: l₂)) := by
      simpa using @List.perm_middle _ p (l₁ ++ [a]) l₂
    exact hperm.nodup_iff.mpr (List.nodup_cons.mpr ⟨hout, h.nodup⟩)
  refine ⟨?head, ?tail, ?linked, ?tiled, ?mem, ?even, ?page, ?fits, ?small, ?pages, ?live, ?asked, ?shrunk⟩
  case head =>
    rw [hc.head, h.head, headD_append, headD_append]
    rfl
  case tail =>
    rw [hc.tail, h.tail, getLastD_append_cons, getLastD_append_cons, List.getLastD_cons]
    cases l₂ with
    | nil => rw [List.getLastD_nil, List.getLastD_nil, if_pos rfl]
    | cons c l =>
      rw [List.getLastD_cons, List.getLastD_cons, if_neg]
      intro he
      have hlast : l.getLastD c ∈ c :: l := by
        rw [List.getLastD_eq_getLast?]
        exact List.mem_of_getLast? (by rw [List.getLast?_cons])
      exact (hin₂ _ hlast).1 he
  case linked =>
    refine h.linked.insert hnd ?_ ?_ (fun x hxa hxp => (hc.keeps hxa hxp).1) ?_ ?_ ?_ ?_
    · simp only [Heap.next, hc.self]
    · simp only [Heap.next, hc.new]
      exact hnext
    · simp only [prev, hc.new]
    · intro x hx
      cases l₂ with
      | nil => cases hx
      | cons c l =>
        cases hx
        rw [List.headD_cons] at hnext
        have hc' := hc.next (hnext ▸ h.ne_zero (List.mem_append_right _
          (List.mem_cons_of_mem a List.mem_cons_self)))
        rw [hnext] at hc'
        simp only [prev, hc']
    · intro x hxp hxn
      rw [← hnext] at hxn
      rcases eq_or_ne x a with rfl | hxa
      · simp only [prev, hc.self]
      · simp only [prev, hc.other x hxa hxp fun he => absurd he hxn]
    · rintro rfl
      exact h.zero_notMem
  case tiled =>
    obtain ⟨e, h₁, hae, h₂⟩ := tiles_append.mp h.tiled
    have hae' : a = e := hae
    rw [hc.memTail]
    refine tiles_append.mpr ⟨e, ?_, hae, ?_, ?_⟩
    · exact h₁.congr (fun _ _ => rfl) fun x hx => by rw [(hc.keeps (hin₁ x hx).1 (hin₁ x hx).2).2.1]
    · simp only [size, hc.self, id_eq]
      omega
    · have hsum : e + (m'.size a + hdrSize b) + (m'.size p + hdrSize b) =
          e + (m.size a + hdrSize b) := by
        simp only [size, hc.self, hc.new]
        have : hdrSize b + sz ≤ (m.hdr a).size := hroom
        omega
      rw [hsum]
      exact h₂.congr (fun _ _ => rfl) fun x hx => by rw [(hc.keeps (hin₂ x hx).1 (hin₂ x hx).2).2.1]
  case mem =>
    intro x hx
    rcases hmem x hx with rfl | rfl | ⟨hx, -, -, hm, -⟩
    · simp only [Heap.mem, hc.self]
      exact h.mem x ha
    · simp only [Heap.mem, hc.new]
    · exact hm.trans (h.mem x hx)
  case even =>
    intro x hx
    have heven := h.even a ha
    rcases hmem x hx with rfl | rfl | ⟨hx, -, hs, -⟩
    · simpa only [size, hc.self] using h16
    · simp only [size, hc.new]
      exact Nat.dvd_sub (Nat.dvd_sub heven h16) hdrSize_dvd
    · rw [hs]
      exact h.even x hx
  case page =>
    rw [hc.memTail]; exact h.page
  case fits =>
    rw [hc.memTail]; exact h.fits
  case small =>
    rw [hc.memTail]; exact h.small
  case pages =>
    rw [hc.memTail]; exact h.pages
  case live =>
    rw [hc.live]
    refine h.live.trans (List.Perm.of_eq ?_)
    have hua : m'.used a = m.used a := by simp only [used, hc.self]
    have hup : m'.used p = false := by simp only [used, hc.new]
    have hu₁ : l₁.filter (fun x => m'.used x) = l₁.filter fun x => m.used x :=
      List.filter_congr fun x hx => (hc.keeps (hin₁ x hx).1 (hin₁ x hx).2).2.2.2
    have hu₂ : l₂.filter (fun x => m'.used x) = l₂.filter fun x => m.used x :=
      List.filter_congr fun x hx => (hc.keeps (hin₂ x hx).1 (hin₂ x hx).2).2.2.2
    rw [List.filter_append, List.filter_append, List.filter_cons, List.filter_cons, List.filter_cons,
      hu₁, hu₂, hua, hup]
    rfl
  case asked =>
    intro x hx
    rw [hc.live] at hx
    obtain ⟨hin, -, hxe⟩ := h.live_mem hx
    rcases eq_or_ne (x.1 - hdrSize b) a with hxa | hxa
    · rw [hxa]
      simp only [size, hc.self]
      exact hreq x hx (by omega)
    · rw [(hc.keeps hxa (fun he => hout (he ▸ hin))).2.1]
      exact h.asked x hx
  case shrunk =>
    rw [hc.shrunk]; exact h.shrunk

/-- `try_break` cuts the block, or leaves it when little would be left over. -/
theorem tryBreak (h : Shape b ar (l₁ ++ a :: l₂) m) (hsz : sz ≤ m.size a) (h16 : 16 ∣ sz)
    (hreq : ∀ x ∈ m.live, x.1 = a + hdrSize b → x.2 ≤ sz) :
    ∃ l, Shape b ar (l₁ ++ a :: (l ++ l₂)) (m.tryBreak b a sz) ∧
      (l = [] ∨ ∃ p, l = [p] ∧ (m.tryBreak b a sz).used p = false) ∧
      (m.tryBreak b a sz).mem a = m.mem a ∧
      ∀ x ∈ l₁ ++ a :: l₂, (m.tryBreak b a sz).used x = m.used x := by
  by_cases hbr : m.size a / 2 < (hdrSize b + sz) % b.top
  · rw [Heap.tryBreak, if_pos hbr]
    exact ⟨[], h, .inl rfl, rfl, fun _ _ => rfl⟩
  · have ha : a ∈ l₁ ++ a :: l₂ := List.mem_append_right _ List.mem_cons_self
    have hfits := h.fits
    have hsmall := h.small
    obtain ⟨hlo, hhi⟩ := h.inside ha
    have hnext := h.next_eq.1
    have hpos := @hdrSize_pos b
    have hroom : hdrSize b + sz ≤ m.size a / 2 := by
      rw [Nat.mod_eq_of_lt (by omega)] at hbr
      omega
    obtain ⟨p, hpd⟩ : ∃ p, p = a + hdrSize b + sz := ⟨_, rfl⟩
    have hp : (m.mem a + sz) % b.top = p := by
      rw [h.mem a ha, Nat.mod_eq_of_lt (by omega), hpd]
    -- the new header lies inside the old payload, so it is none of the blocks
    have hout : p ∉ l₁ ++ a :: l₂ := by
      intro hin
      rcases List.mem_append.mp hin with hin | hin
      · have := h.sides.1 p hin
        omega
      · rcases List.mem_cons.mp hin with he | hin
        · omega
        · have := h.sides.2 p hin
          omega
    have hnx : m.next a = 0 ∨ (m.next a ∈ l₁ ++ a :: l₂ ∧ m.next a ≠ a) := by
      rw [hnext]
      cases l₂ with
      | nil => exact .inl rfl
      | cons c l₂ =>
        have hac := h.sides.2 c List.mem_cons_self
        exact .inr ⟨List.mem_append_right _ (List.mem_cons_of_mem a List.mem_cons_self),
          fun he => by rw [List.headD_cons] at he; omega⟩
    have hna : m.next a ≠ a := by
      rcases hnx with h0 | hne
      · rw [h0]
        exact (h.ne_zero ha).symm
      · exact hne.2
    have hpn : m.next a ≠ p := by
      rcases hnx with h0 | hne
      · omega
      · exact fun he => hout (he ▸ hne.1)
    have hpa : p ≠ a := fun he => hout (he ▸ ha)
    have hh := tryBreak_hdr hbr hp hpa hpn hna
    obtain ⟨hhead, htail, hlive, hshrunk, htl⟩ := tryBreak_fields (m := m) hbr
    have hcut : Cut b m (m.tryBreak b a sz) a p sz := by
      refine ⟨hhead, by rw [htl, hp], htail, hlive, hshrunk, ?_, ?_, ?_, ?_⟩
      · rw [hh, if_pos rfl, Nat.mod_eq_of_lt (show sz < sizeTop b by omega)]
      · rw [hh, if_neg hpa, if_pos rfl, genBlock]
        have hnew : (m.size a - sz + b.top - hdrSize b) % b.top = m.size a - sz - hdrSize b := by
          rw [show m.size a - sz + b.top - hdrSize b = m.size a - sz - hdrSize b + b.top by omega,
            Nat.add_mod_right, Nat.mod_eq_of_lt (by omega)]
        rw [hnew, Nat.mod_eq_of_lt (show m.size a - sz - hdrSize b < sizeTop b by omega),
          Nat.mod_eq_of_lt (show p + hdrSize b < b.top by omega)]
      · intro h0
        rw [hh, if_neg hna, if_neg hpn, if_pos ⟨rfl, h0⟩]
      · intro x hxa hxp hx
        rw [hh, if_neg hxa, if_neg hxp, if_neg fun hc => hc.2 (hx hc.1)]
    refine ⟨[p], h.cut hcut h16 hpd (by omega) hout hreq, .inr ⟨p, rfl, ?_⟩, ?_, fun x hx => ?_⟩
    · simp only [used, hcut.new]
    · simp only [Heap.mem, hcut.self]
    · rcases eq_or_ne x a with rfl | hxa
      · simp only [used, hcut.self]
      · exact (hcut.keeps hxa fun he => hout (he ▸ hx)).2.2.2

/-! ### New pages -/

theorem grow_hdr (b : Build) (m : Heap) (pages req x : ℕ) :
    (m.grow b pages req).hdr x = if x = m.memTail then
        { genBlock b m.memTail (pages * b.page % b.top) with prev := m.tail, used := true }
      else if x = m.tail ∧ m.tail ≠ 0 then { m.hdr x with next := m.memTail } else m.hdr x := by
  simp only [Heap.grow, mod_hdr]
  rcases eq_or_ne x m.memTail with rfl | hx
  · simp only [if_true]
  · rcases eq_or_ne m.tail 0 with h0 | h0
    · simp only [hx, h0, ne_eq, not_true_eq_false, and_false, if_false]
    · simp only [hx, h0, ne_eq, not_false_eq_true, and_true, if_true, if_false, mod_hdr]
      split_ifs with hxt
      · rw [hxt]
      · rfl

/-- Only the new block and the link to it are written. -/
theorem grow_fields {pages req : ℕ} : (m.grow b pages req).head = (if m.head = 0 then m.memTail
    else m.head) ∧ (m.grow b pages req).tail = m.memTail ∧
    (m.grow b pages req).memTail = (m.memTail + pages * b.page) % b.top ∧
    (m.grow b pages req).live = ((m.memTail + hdrSize b) % b.top, req) :: m.live ∧
    (m.grow b pages req).shrunk = m.shrunk := by
  rw [Heap.grow]
  rcases eq_or_ne m.tail 0 with h0 | h0
  · rw [if_neg (not_not.mpr h0)]
    exact ⟨rfl, rfl, rfl, rfl, rfl⟩
  · rw [if_pos h0]
    exact ⟨rfl, rfl, rfl, rfl, rfl⟩

theorem mem_lt (h : Shape b ar l m) (ha : a ∈ l) : a < m.memTail := by
  have := (h.inside ha).2
  have := @hdrSize_pos b
  omega

/-- A used block over new pages is appended. -/
theorem grow {pages req : ℕ} (h : Shape b ar l m) (hfit : m.memTail + pages * b.page < b.top)
    (hsmall : m.memTail + pages * b.page ≤ ar.base + sizeTop b)
    (hpages : m.memTail + pages * b.page < ar.base + 2 ^ 31 * b.page)
    (hreq : req + hdrSize b ≤ pages * b.page) :
    Shape b ar (l ++ [m.memTail]) (m.grow b pages req) ∧
      (m.grow b pages req).size m.memTail = pages * b.page - hdrSize b ∧
      (m.grow b pages req).used m.memTail = true ∧
      ∀ x ∈ l, (m.grow b pages req).used x = m.used x := by
  have hbase := h.tiled.le
  have hpos := @hdrSize_pos b
  have hbpos := ar.pos
  have hout : m.memTail ∉ l := fun hin => lt_irrefl _ (h.mem_lt hin)
  obtain ⟨hhead, htail, hmt, hlive, hshrunk⟩ := @grow_fields b m pages req
  have hh := grow_hdr b m pages req
  rw [Nat.mod_eq_of_lt hfit] at hmt
  rw [Nat.mod_eq_of_lt (show m.memTail + hdrSize b < b.top by omega)] at hlive
  have hnew : (m.grow b pages req).hdr m.memTail =
      ⟨0, m.tail, pages * b.page - hdrSize b, true, m.memTail + hdrSize b⟩ := by
    rw [hh, if_pos rfl, genBlock, Nat.mod_eq_of_lt (show pages * b.page < b.top by omega)]
    have hsize : (pages * b.page + b.top - hdrSize b) % b.top = pages * b.page - hdrSize b := by
      rw [show pages * b.page + b.top - hdrSize b = pages * b.page - hdrSize b + b.top by omega,
        Nat.add_mod_right, Nat.mod_eq_of_lt (by omega)]
    rw [hsize, Nat.mod_eq_of_lt (show pages * b.page - hdrSize b < sizeTop b by omega),
      Nat.mod_eq_of_lt (show m.memTail + hdrSize b < b.top by omega)]
  have hkeep : ∀ x, x ≠ m.memTail → (m.grow b pages req).prev x = m.prev x ∧
      (m.grow b pages req).size x = m.size x ∧ (m.grow b pages req).mem x = m.mem x ∧
      (m.grow b pages req).used x = m.used x := by
    intro x hx
    simp only [prev, size, Heap.mem, used, hh, hx, if_false]
    split_ifs <;> exact ⟨rfl, rfl, rfl, rfl⟩
  have hne : ∀ x ∈ l, x ≠ m.memTail := fun x hx he => hout (he ▸ hx)
  refine ⟨⟨?head, ?tail, ?linked, ?tiled, ?mem, ?even, ?page, ?fits, ?small, ?pages, ?live, ?asked,
    ?shrunk⟩, ?new, ?used, fun x hx => (hkeep x (hne x hx)).2.2.2⟩
  case head =>
    rw [hhead, h.head, headD_append]
    cases l with
    | nil => rfl
    | cons x l => exact if_neg (h.ne_zero List.mem_cons_self)
  case tail =>
    rw [htail, getLastD_append_cons, List.getLastD_nil]
  case linked =>
    rcases List.eq_nil_or_concat l with rfl | ⟨l', t, rfl⟩
    · exact ⟨by simp only [prev, hnew]; exact h.tail, by simp only [Heap.next, hnew]; rfl, trivial⟩
    · rw [List.concat_eq_append] at h hout hne ⊢
      have ht : m.tail = t := by rw [h.tail, getLastD_append_cons, List.getLastD_nil]
      have htl : t ∈ l' ++ [t] := List.mem_append_right _ List.mem_cons_self
      have hl : l' ++ [t] ++ [m.memTail] = l' ++ t :: m.memTail :: [] := by simp
      rw [hl]
      refine h.linked.insert ?_ ?_ ?_ ?_ ?_ nofun (fun x hx _ => (hkeep x hx).1) fun _ => h.zero_notMem
      · rw [← hl]
        exact (List.perm_append_singleton m.memTail (l' ++ [t])).nodup_iff.mpr
          (List.nodup_cons.mpr ⟨hout, h.nodup⟩)
      · simp only [Heap.next, hh, if_neg (hne t htl), ht, ne_eq, h.ne_zero htl, not_false_eq_true,
          and_self, if_true]
      · simp only [Heap.next, hnew]
        rfl
      · intro x hxt hx
        simp only [Heap.next, hh, if_neg hx, ht, hxt, false_and, if_false]
      · simp only [prev, hnew, ht]
  case tiled =>
    rw [hmt]
    refine tiles_append.mpr ⟨m.memTail, ?_, rfl, ?_⟩
    · exact h.tiled.congr (fun _ _ => rfl) fun x hx => by rw [(hkeep x (hne x hx)).2.1]
    · simp only [size, hnew, Tiles]
      omega
  case mem =>
    intro x hx
    rcases List.mem_append.mp hx with hx | hx
    · exact (hkeep x (hne x hx)).2.2.1.trans (h.mem x hx)
    · rw [List.mem_singleton.mp hx]
      simp only [Heap.mem, hnew]
  case even =>
    intro x hx
    rcases List.mem_append.mp hx with hx | hx
    · rw [(hkeep x (hne x hx)).2.1]
      exact h.even x hx
    · rw [List.mem_singleton.mp hx]
      simp only [size, hnew]
      exact Nat.dvd_sub (Nat.dvd_mul_left_of_dvd page_sixteen pages) hdrSize_dvd
  case page =>
    rw [hmt]
    exact Nat.dvd_add h.page (Nat.dvd_mul_left ..)
  case fits =>
    rwa [hmt]
  case small =>
    rwa [hmt]
  case pages =>
    rwa [hmt]
  case live =>
    have hu : m.grow b pages req |>.used m.memTail := by simp only [used, hnew]
    have hfl : l.filter (fun x => (m.grow b pages req).used x) = l.filter fun x => m.used x :=
      List.filter_congr fun x hx => (hkeep x (hne x hx)).2.2.2
    rw [hlive, List.filter_append, hfl, List.map_append, List.filter_cons, if_pos hu]
    refine (List.Perm.cons _ h.live).trans ?_
    exact (List.perm_append_singleton _ _).symm
  case asked =>
    intro x hx
    rw [hlive] at hx
    rcases List.mem_cons.mp hx with rfl | hx
    · simp only [Nat.add_sub_cancel, size, hnew]
      omega
    · rw [(hkeep _ (hne _ (h.live_mem hx).1)).2.1]
      exact h.asked x hx
  case shrunk =>
    rw [hshrunk]
    exact h.shrunk
  case new =>
    simp only [size, hnew]
  case used =>
    simp only [used, hnew]

/-! ### Merging -/

theorem join_hdr (b : Build) (m : Heap) (a c x : ℕ) (hca : m.next c ≠ a) :
    (m.join b a c).hdr x = if x = a then
        { m.hdr a with size := (m.size a + (m.size c + hdrSize b)) % sizeTop b, next := m.next c }
      else if x = m.next c ∧ m.next c ≠ 0 then { m.hdr x with prev := a } else m.hdr x := by
  simp only [Heap.join, mod_hdr]
  rcases eq_or_ne (m.next c) 0 with h0 | h0
  · simp only [h0, ne_eq, not_true_eq_false, if_false, and_false]
  · simp only [h0, ne_eq, not_false_eq_true, if_true, and_true, mod_hdr, hca.symm, if_false]
    split_ifs with hxa hx
    · rfl
    · rw [hx]
    · rfl

theorem join_fields (b : Build) (m : Heap) (a c : ℕ) : (m.join b a c).head = m.head ∧
    (m.join b a c).tail = (if m.next c = 0 then a else m.tail) ∧
    (m.join b a c).memTail = m.memTail ∧ (m.join b a c).live = m.live ∧
    (m.join b a c).shrunk = m.shrunk ∧ (m.join b a c).start = m.start := by
  rw [Heap.join]
  rcases eq_or_ne (m.next c) 0 with h0 | h0
  · rw [if_neg (not_not.mpr h0), if_pos h0]
    exact ⟨rfl, rfl, rfl, rfl, rfl, rfl⟩
  · rw [if_pos h0, if_neg h0]
    exact ⟨rfl, rfl, rfl, rfl, rfl, rfl⟩

/-- Two free neighbours become one block. -/
theorem join (h : Shape b ar (l₁ ++ a :: c :: l₂) m) (ha : m.used a = false)
    (hc : m.used c = false) : Shape b ar (l₁ ++ a :: l₂) (m.join b a c) ∧
      ∀ x, (m.join b a c).used x = m.used x := by
  have hpos := @hdrSize_pos b
  have hal : a ∈ l₁ ++ a :: c :: l₂ := List.mem_append_right _ List.mem_cons_self
  have hcl : c ∈ l₁ ++ a :: c :: l₂ :=
    List.mem_append_right _ (List.mem_cons_of_mem a List.mem_cons_self)
  have hl : l₁ ++ a :: c :: l₂ = (l₁ ++ [a]) ++ c :: l₂ := by simp
  have hsplit : Shape b ar ((l₁ ++ [a]) ++ c :: l₂) m := hl ▸ h
  have hnext := hsplit.next_eq.1
  have hac := h.sides.2 c List.mem_cons_self
  have hin₁ : ∀ x ∈ l₁, x ≠ a := fun x hx he => by have := h.sides.1 x hx; omega
  have hin₂ : ∀ x ∈ l₂, x ≠ a := fun x hx he => by
    have := h.sides.2 x (List.mem_cons_of_mem c hx)
    omega
  have hca : m.next c ≠ a := by
    rw [hnext]
    cases l₂ with
    | nil => exact (h.ne_zero hal).symm
    | cons d l => exact hin₂ d List.mem_cons_self
  have hh := fun x => join_hdr b m a c x hca
  obtain ⟨hhead, htail, hmt, hlive, hshrunk, -⟩ := join_fields b m a c
  have hcin := (h.inside hcl).2
  have hain := (h.inside hal).1
  have hsmall := h.small
  have hself : (m.join b a c).hdr a =
      { m.hdr a with size := m.size a + (m.size c + hdrSize b), next := m.next c } := by
    rw [hh, if_pos rfl, Nat.mod_eq_of_lt (by omega)]
  have hkeep : ∀ x, x ≠ a → (m.join b a c).next x = m.next x ∧
      (m.join b a c).size x = m.size x ∧ (m.join b a c).mem x = m.mem x := by
    intro x hx
    simp only [Heap.next, size, Heap.mem, hh, hx, if_false]
    split_ifs <;> exact ⟨rfl, rfl, rfl⟩
  have hused : ∀ x, (m.join b a c).used x = m.used x := by
    intro x
    simp only [used, hh]
    split_ifs with hxa
    · rw [hxa]
    · rfl
    · rfl
  have hprev : ∀ x, x ≠ l₂.headD 0 → (m.join b a c).prev x = m.prev x := by
    intro x hx
    rw [← hnext] at hx
    simp only [prev, hh, hx, false_and, if_false]
    split_ifs with hxa
    · rw [hxa]
    · rfl
  refine ⟨⟨?head, ?tail, ?linked, ?tiled, ?mem, ?even, ?page, ?fits, ?small, ?pages, ?live, ?asked,
    ?shrunk⟩, hused⟩
  case head =>
    rw [hhead, h.head, headD_append, headD_append]
    rfl
  case tail =>
    rw [htail, h.tail, hnext, getLastD_append_cons, getLastD_append_cons, List.getLastD_cons]
    cases l₂ with
    | nil => rfl
    | cons d l =>
      rw [List.headD_cons, List.getLastD_cons, List.getLastD_cons, if_neg]
      exact h.ne_zero (List.mem_append_right _ (List.mem_cons_of_mem a (List.mem_cons_of_mem c
        List.mem_cons_self)))
  case linked =>
    refine h.linked.remove h.nodup ?_ (fun x hx => (hkeep x hx).1) ?_ hprev ?_
    · simp only [Heap.next, hself]
      exact hnext
    · intro x hx
      cases l₂ with
      | nil => cases hx
      | cons d l =>
        obtain rfl : d = x := Option.some.inj hx
        rw [List.headD_cons] at hnext
        have hd0 : d ≠ 0 := h.ne_zero (List.mem_append_right _ (List.mem_cons_of_mem a
          (List.mem_cons_of_mem c List.mem_cons_self)))
        simp only [prev, hh, hin₂ d List.mem_cons_self, hnext, if_false, ne_eq, hd0, not_false_eq_true,
          and_self, if_true]
    · rintro - hin
      refine h.zero_notMem ?_
      rcases List.mem_append.mp hin with hin | hin
      · exact List.mem_append_left _ hin
      · rw [List.mem_singleton.mp hin]
        exact hal
  case tiled =>
    obtain ⟨e, h₁, hae, hce, h₂⟩ := tiles_append.mp h.tiled
    rw [hmt]
    refine tiles_append.mpr ⟨e, ?_, hae, ?_⟩
    · exact h₁.congr (fun _ _ => rfl) fun x hx => by rw [(hkeep x (hin₁ x hx)).2.1]
    · have hsum : e + ((m.join b a c).size a + hdrSize b) =
          e + (m.size a + hdrSize b) + (m.size c + hdrSize b) := by
        simp only [size, hself]
        omega
      rw [hsum]
      exact h₂.congr (fun _ _ => rfl) fun x hx => by rw [(hkeep x (hin₂ x hx)).2.1]
  case mem =>
    intro x hx
    rcases eq_or_ne x a with rfl | hxa
    · simp only [Heap.mem, hself]
      exact h.mem x hal
    · rw [(hkeep x hxa).2.2]
      refine h.mem x ?_
      simp only [List.mem_append, List.mem_cons] at hx ⊢
      tauto
  case even =>
    intro x hx
    rcases eq_or_ne x a with rfl | hxa
    · simp only [size, hself]
      exact Nat.dvd_add (h.even x hal) (Nat.dvd_add (h.even c hcl) hdrSize_dvd)
    · rw [(hkeep x hxa).2.1]
      refine h.even x ?_
      simp only [List.mem_append, List.mem_cons] at hx ⊢
      tauto
  case page =>
    rw [hmt]; exact h.page
  case fits =>
    rw [hmt]; exact h.fits
  case small =>
    rw [hmt]; exact h.small
  case pages =>
    rw [hmt]; exact h.pages
  case live =>
    rw [hlive]
    refine h.live.trans (List.Perm.of_eq ?_)
    have hf : ∀ l : List ℕ, l.filter (fun x => (m.join b a c).used x) = l.filter fun x => m.used x :=
      fun l => List.filter_congr fun x _ => hused x
    rw [hf, List.filter_append, List.filter_append, List.filter_cons, List.filter_cons,
      List.filter_cons, ha, hc]
    rfl
  case asked =>
    intro x hx
    rw [hlive] at hx
    obtain ⟨-, hu, -⟩ := h.live_mem hx
    have hxa : x.1 - hdrSize b ≠ a := fun he => by rw [he, ha] at hu; cases hu
    rw [(hkeep _ hxa).2.1]
    exact h.asked x hx
  case shrunk =>
    rw [hshrunk]; exact h.shrunk

end Shape
end
end EwokOS.Memory.Heap
