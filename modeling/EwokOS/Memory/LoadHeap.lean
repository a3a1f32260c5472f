import EwokOS.Memory.Load

/-! The heap of a process that is being loaded.

    `Sane` says that the heap's pages have frames of their own. Growing the heap adds pages of zeroes
    (`Grows`), storing in it changes the bytes stored and no others (`byteAt_store`), and both keep it.
    A loop of `proc_load_segment` stores a chunk at a time, each in one page:

        vaddr + copied ▼      ▼ end of the page
                       [chunk |chunk   |chunk  ]
                                               ▲ vaddr + stop

    It is safe when each of its addresses can be stored to (`safe_fill`), and leaves its bytes at them
    (`byteAt_fill`). -/

namespace EwokOS.Memory

open Schemes (put ofLe)

variable {b : Build} {k : Machine} {img : Image} {s t : Load}

/-! ### Pages of addresses -/

theorem same_page {v j : ℕ} (h : v % b.page + j < b.page) :
    (v + j) / b.page = v / b.page ∧ (v + j) % b.page = v % b.page + j := by
  have hv : v + j = v % b.page + j + b.page * (v / b.page) := by
    have := Nat.div_add_mod v b.page
    omega
  rw [hv, Nat.add_mul_div_left _ _ Build.page_pos, Nat.add_mul_mod_self_left, Nat.div_eq_of_lt h,
    Nat.mod_eq_of_lt h, Nat.zero_add]
  exact ⟨rfl, rfl⟩

/-- A page that starts below a page boundary ends below it. -/
theorem page_end {v n : ℕ} (hn : b.page ∣ n) (hv : v < n) : v + (b.page - v % b.page) ≤ n := by
  obtain ⟨m, rfl⟩ := hn
  have hdiv : v / b.page < m := Nat.div_lt_of_lt_mul hv
  have hmod := Nat.div_add_mod v b.page
  have hlt := Nat.mod_lt v b.page_pos
  calc v + (b.page - v % b.page) = b.page * (v / b.page + 1) := by
        rw [Nat.mul_add, Nat.mul_one]
        omega
    _ ≤ b.page * m := Nat.mul_le_mul_left _ hdiv

namespace Load

/-- The frame of a page. -/
def frame (s : Load) (p : ℕ) : Option ℕ := (s.vm p).map Prod.fst

/-- The byte at an address, where one is mapped. -/
def byteAt (b : Build) (s : Load) (a : ℕ) : Option UInt8 :=
  (s.frame (a / b.page)).map fun f => s.mem f (a % b.page)

/-- The heap is `n` pages with frames of their own, and a page that is mapped has its table. -/
structure Sane (b : Build) (k : Machine) (s : Load) (n : ℕ) : Prop where
  heap : s.heap = b.page * n
  tables : ∀ p, (s.frame p).isSome → k.tables p = true
  nodup : s.free.Nodup
  fresh : ∀ p < n, ∀ f, s.frame p = some f → f ∉ s.free
  once : ∀ p < n, ∀ q < n, ∀ f, s.frame p = some f → s.frame q = some f → p = q

/-- Every page of the heap that can be mapped is. -/
def Filled (k : Machine) (s : Load) (n : ℕ) : Prop :=
  ∀ p < n, k.tables p = true → (s.frame p).isSome

/-- Nothing read or stored in between. -/
def Quiet (s t : Load) : Prop := t.reads = s.reads ∧ t.stores = s.stores

theorem Quiet.trans {u : Load} (h : Quiet s t) (h' : Quiet t u) : Quiet s u :=
  ⟨h'.1.trans h.1, h'.2.trans h.2⟩

/-! ### Giving the heap back -/

theorem quiet_unmap (p : ℕ) : Quiet s (s.unmapPageRef p) := by
  rw [unmapPageRef]
  split <;> exact ⟨rfl, rfl⟩

theorem quiet_shrink (n : ℕ) (s : Load) : Quiet s (s.shrinkMem b n) := by
  induction n generalizing s with
  | zero => exact ⟨rfl, rfl⟩
  | succ n ih =>
    have hone : Quiet s { s.unmapPageRef ((s.heap - b.page) / b.page) with heap := s.heap - b.page } :=
      quiet_unmap ((s.heap - b.page) / b.page)
    rw [shrinkMem]
    split_ifs
    · exact hone
    · exact hone.trans (ih _)

theorem frame_unmap (p q : ℕ) : (s.unmapPageRef p).frame q = if q = p then none else s.frame q := by
  rw [unmapPageRef]
  split
  · rename_i hp
    split_ifs with hq
    · rw [hq, frame, hp]
      rfl
    · rfl
  · by_cases hq : q = p <;> simp [frame, hq]

/-- The free pages after a page is unmapped: its frame may be among them. -/
theorem free_unmap (p : ℕ) : (s.unmapPageRef p).free = s.free ∨
    ∃ f, s.frame p = some f ∧ (s.unmapPageRef p).free = f :: s.free := by
  rw [unmapPageRef]
  split
  · exact .inl rfl
  · rename_i f ro hp
    dsimp only
    split_ifs
    · exact .inr ⟨f, by rw [frame, hp]; rfl, rfl⟩
    · exact .inl rfl

/-- The last page of the heap goes. -/
theorem Sane.drop {n : ℕ} (h : Sane b k s (n + 1)) :
    Sane b k { s.unmapPageRef ((s.heap - b.page) / b.page) with heap := s.heap - b.page } n := by
  have hheap : s.heap - b.page = b.page * n := by rw [h.heap, Nat.mul_add, Nat.mul_one, Nat.add_sub_cancel]
  rw [hheap, Nat.mul_div_cancel_left _ Build.page_pos]
  have hframe : ∀ q f, (s.unmapPageRef n).frame q = some f → q ≠ n ∧ s.frame q = some f := by
    intro q f hq
    rw [frame_unmap] at hq
    split_ifs at hq with hqn
    exact ⟨hqn, hq⟩
  refine ⟨rfl, fun p hp => ?_, ?_, fun p hp f hf => ?_, fun p hp q hq f hf hf' => ?_⟩
  · obtain ⟨f, hf⟩ := Option.isSome_iff_exists.mp hp
    exact h.tables p (Option.isSome_iff_exists.mpr ⟨f, (hframe p f hf).2⟩)
  · change (s.unmapPageRef n).free.Nodup
    rcases @free_unmap s n with hfree | ⟨f, hf, hfree⟩ <;> rw [hfree]
    · exact h.nodup
    · exact List.nodup_cons.mpr ⟨h.fresh n (Nat.lt_succ_self n) f hf, h.nodup⟩
  · change f ∉ (s.unmapPageRef n).free
    obtain ⟨hne, hf⟩ := hframe p f hf
    have hnot := h.fresh p (Nat.lt_succ_of_lt hp) f hf
    rcases @free_unmap s n with hfree | ⟨g, hg, hfree⟩ <;> rw [hfree]
    · exact hnot
    · rw [List.mem_cons, not_or]
      refine ⟨?_, hnot⟩
      rintro rfl
      exact hne (h.once p (Nat.lt_succ_of_lt hp) n (Nat.lt_succ_self n) f hf hg)
  · exact h.once p (Nat.lt_succ_of_lt hp) q (Nat.lt_succ_of_lt hq) f (hframe p f hf).2 (hframe q f hf').2

theorem Sane.shrink {n : ℕ} (h : Sane b k s n) : Sane b k (s.shrinkMem b n) 0 := by
  induction n generalizing s with
  | zero => exact h
  | succ n ih =>
    have hd := h.drop
    rw [shrinkMem]
    split_ifs with h0
    · have hn : n = 0 := by
        rw [hd.heap] at h0
        exact (Nat.mul_eq_zero.mp h0).resolve_left Build.page_pos.ne'
      rwa [hn] at hd
    · exact ih hd

theorem Sane.freeHeap {n : ℕ} (h : Sane b k s n) : Sane b k (s.freeHeap b) 0 := by
  rw [Load.freeHeap, h.heap, Nat.mul_div_cancel_left _ Build.page_pos]
  exact h.shrink

/-! ### Growing the heap -/

/-- What growing by `m` pages does: pages of zeroes behind the `n` there were, taken from the free ones. -/
structure Grows (b : Build) (k : Machine) (s : Load) (n m : ℕ) (t : Load) : Prop where
  sane : Sane b k t (n + m)
  quiet : Quiet s t
  free : t.free = s.free.drop m
  old : ∀ p < n, t.frame p = s.frame p
  new : ∀ p, n ≤ p → p < n + m → k.tables p = true → ∃ f, t.frame p = some f ∧ t.mem f = fun _ => 0
  mem : ∀ f, f ∉ s.free → t.mem f = s.mem f

theorem frame_map (p q f : ℕ) (ro : Bool) :
    (s.mapPage k p f ro).frame q = if q = p ∧ k.tables p = true then some f else s.frame q := by
  rw [mapPage]
  by_cases ht : k.tables p = true <;> by_cases hq : q = p <;> simp [frame, ht, hq]

theorem frame_mapRef (p q f : ℕ) :
    (s.mapPageRef k p f).frame q = if q = p ∧ k.tables p = true then some f else s.frame q := by
  rw [mapPageRef]
  split_ifs with ht h h
  · exact (frame_map p q f false).trans (if_pos h)
  · exact (frame_map p q f false).trans (if_neg h)
  · exact absurd h.2 ht
  · rfl

/-- One page: the frame is zeroed and mapped behind the heap. -/
theorem Sane.grow {n f : ℕ} {l : List ℕ} (h : Sane b k s n) (hf : s.free = f :: l) :
    Grows b k s n 1 { ({ s with free := l, mem := Function.update s.mem f fun _ => 0 }.mapPageRef k
      (s.heap / b.page) f) with heap := s.heap + b.page } := by
  have hnodup := h.nodup
  have hfresh := h.fresh
  rw [hf] at hnodup hfresh
  obtain ⟨hfl, hl⟩ := List.nodup_cons.mp hnodup
  have hn : s.heap / b.page = n := by rw [h.heap, Nat.mul_div_cancel_left _ Build.page_pos]
  rw [hn]
  set u : Load := { s with free := l, mem := Function.update s.mem f fun _ => 0 }
  have hframe : ∀ p, (u.mapPageRef k n f).frame p =
      if p = n ∧ k.tables n = true then some f else s.frame p := fun p => frame_mapRef n p f
  have hrest : (u.mapPageRef k n f).free = l ∧ (u.mapPageRef k n f).mem = u.mem ∧ Quiet s (u.mapPageRef k n f) := by
    rw [mapPageRef, mapPage]
    split_ifs <;> exact ⟨rfl, rfl, rfl, rfl⟩
  obtain ⟨hfree, hmem, hquiet⟩ := hrest
  -- a page of the new heap has the new frame, or one of the old heap
  have hcase : ∀ p < n + 1, ∀ g, (u.mapPageRef k n f).frame p = some g →
      p = n ∧ g = f ∨ p < n ∧ s.frame p = some g := by
    intro p hp g hg
    rw [hframe] at hg
    split_ifs at hg with hpn
    · exact .inl ⟨hpn.1, (Option.some.inj hg).symm⟩
    · refine .inr ⟨?_, hg⟩
      rcases Nat.lt_succ_iff_lt_or_eq.mp hp with hp | rfl
      · exact hp
      · exact absurd ⟨rfl, h.tables p (by rw [hg]; rfl)⟩ hpn
  refine ⟨⟨congrArg (· + b.page) h.heap, fun p hp => ?_, hfree.symm ▸ hl, fun p hp g hg => ?_, fun p hp q hq g hg hg' => ?_⟩,
    hquiet, ?_, fun p hp => ?_, fun p hnp hp ht => ⟨f, ?_, ?_⟩, fun g hg => ?_⟩
  · change ((u.mapPageRef k n f).frame p).isSome at hp
    rw [hframe] at hp
    split_ifs at hp with hpn
    · exact hpn.1 ▸ hpn.2
    · exact h.tables p hp
  · change g ∉ (u.mapPageRef k n f).free
    rw [hfree]
    rcases hcase p hp g hg with ⟨-, rfl⟩ | ⟨hp, hg⟩
    · exact hfl
    · exact fun hm => hfresh p hp g hg (List.mem_cons_of_mem f hm)
  · rcases hcase p hp g hg with ⟨hpn, he⟩ | ⟨hlt, hold⟩ <;>
      rcases hcase q hq g hg' with ⟨hqn, he'⟩ | ⟨hlt', hold'⟩
    · exact hpn.trans hqn.symm
    · exact absurd (he ▸ List.mem_cons_self) (hfresh q hlt' g hold')
    · exact absurd (he' ▸ List.mem_cons_self) (hfresh p hlt g hold)
    · exact h.once p hlt q hlt' g hold hold'
  · rw [hf]
    exact hfree
  · exact (hframe p).trans (if_neg fun hpn => by omega)
  · obtain rfl : p = n := by omega
    exact (hframe p).trans (if_pos ⟨rfl, ht⟩)
  · change (u.mapPageRef k n f).mem f = _
    rw [hmem]
    exact Function.update_self ..
  · change (u.mapPageRef k n f).mem g = _
    rw [hmem]
    rw [hf] at hg
    refine Function.update_of_ne ?_ _ _
    rintro rfl
    exact hg List.mem_cons_self

theorem Grows.refl {n : ℕ} (h : Sane b k s n) : Grows b k s n 0 s :=
  ⟨h, ⟨rfl, rfl⟩, rfl, fun _ _ => rfl, fun p hp hlt => absurd hp (by omega), fun _ _ => rfl⟩

theorem Grows.trans {n m m' : ℕ} {u : Load} (h : Grows b k s n m t) (h' : Grows b k t (n + m) m' u) :
    Grows b k s n (m + m') u := by
  have hsub : ∀ f, f ∉ s.free → f ∉ t.free := fun f hf hm =>
    hf (List.mem_of_mem_drop (h.free ▸ hm))
  refine ⟨Nat.add_assoc n m m' ▸ h'.sane, h.quiet.trans h'.quiet, ?_, fun p hp => ?_,
    fun p hnp hp ht => ?_, fun f hf => ?_⟩
  · rw [h'.free, h.free, List.drop_drop]
  · rw [h'.old p (by omega), h.old p hp]
  · rcases Nat.lt_or_ge p (n + m) with hlt | hge
    · obtain ⟨f, hf, hz⟩ := h.new p hnp hlt ht
      exact ⟨f, (h'.old p hlt).trans hf, (h'.mem f (h.sane.fresh p hlt f hf)).trans hz⟩
    · exact h'.new p hge (by omega) ht
  · rw [h'.mem f (hsub f hf), h.mem f hf]

/-- The loop takes the pages it asks for when they are there, and nothing else counts. -/
theorem Sane.expandFrom {n : ℕ} (h : Sane b k s n) (m i : ℕ) :
    if m ≤ s.free.length then (s.expandFrom b k m i).1 = true ∧ Grows b k s n m (s.expandFrom b k m i).2
    else (s.expandFrom b k m i).1 = false ∧ Quiet s (s.expandFrom b k m i).2 := by
  induction m generalizing s n i with
  | zero => exact ⟨rfl, .refl h⟩
  | succ m ih =>
    rw [Load.expandFrom]
    cases hf : s.free with
    | nil => exact ⟨rfl, quiet_shrink i s⟩
    | cons f l =>
      have hone := h.grow hf
      have hrec := ih hone.sane (i + 1)
      have hlen := congrArg List.length hone.free
      rw [hf, List.drop_one, List.tail_cons] at hlen
      rw [hlen] at hrec
      simp only [List.length_cons, Nat.add_le_add_iff_right]
      split_ifs at hrec ⊢
      · refine ⟨hrec.1, ?_⟩
        rw [Nat.add_comm m 1]
        exact hone.trans hrec.2
      · exact ⟨hrec.1, hone.quiet.trans hrec.2⟩

/-! ### Storing -/

/-- A store in the heap changes the bytes it stores and no others. -/
theorem byteAt_store {n v : ℕ} {l : List UInt8} (h : Sane b k s n) (hv : v < b.page * n)
    (hm : (s.frame (v / b.page)).isSome) (hl : v % b.page + l.length ≤ b.page) {a : ℕ}
    (ha : a < b.page * n) :
    (s.store b v l).byteAt b a = if v ≤ a ∧ a < v + l.length then l[a - v]? else s.byteAt b a := by
  obtain ⟨f, hf⟩ := Option.isSome_iff_exists.mp hm
  obtain ⟨⟨f', ro⟩, hvm, rfl⟩ := Option.map_eq_some_iff.mp hf
  have hr : s.resolveKernelAddress b v = (f', v % b.page) := by rw [resolveKernelAddress, hvm]
  change ((s.frame (a / b.page)).map fun g => Function.update s.mem _ _ g (a % b.page)) = _
  rw [hr]
  dsimp only at hf ⊢
  split_ifs with hin
  · obtain ⟨j, rfl⟩ := Nat.exists_eq_add_of_le hin.1
    obtain ⟨hdiv, hmod⟩ := @same_page b v j (by omega)
    have hj : j < l.length := by omega
    rw [hdiv, hmod, hf, Option.map_some, Function.update_self, put, if_pos (by omega), Nat.add_sub_cancel_left,
      Nat.add_sub_cancel_left, List.getD_eq_getElem?_getD, List.getElem?_eq_getElem hj, Option.getD_some]
  · rw [byteAt]
    cases hg : s.frame (a / b.page) with
    | none => rfl
    | some g =>
      rw [Option.map_some, Option.map_some]
      by_cases hfg : g = f'
      · -- the same frame is the same page, and beside what is stored there
        have hpage : a / b.page = v / b.page :=
          h.once _ (Nat.div_lt_of_lt_mul ha) _ (Nat.div_lt_of_lt_mul hv) _ hg (hfg ▸ hf)
        have hav := Nat.div_add_mod a b.page
        have hvv := Nat.div_add_mod v b.page
        rw [hpage] at hav
        rw [hfg, Function.update_self]
        rcases Nat.lt_or_ge (a % b.page) (v % b.page) with hlt | hge
        · rw [Schemes.put_of_lt hlt]
        · rw [Schemes.put_of_ge (by omega)]
      · rw [Function.update_of_ne hfg]

/-! ### What is safe -/

end Load

/-- Bytes of the image's own. -/
def Image.Inside (b : Build) (img : Image) (r : ℕ × ℕ) : Prop :=
  ∀ j < r.2, (r.1 + j) % b.top < img.size

namespace Load

/-- Only the image is read, and only mapped pages of the heap are stored to. -/
structure Safe (b : Build) (img : Image) (s : Load) : Prop where
  reads : ∀ r ∈ s.reads, img.Inside b r
  stores : ∀ st ∈ s.stores, st.vaddr + st.len ≤ st.heap ∧ st.mapped = true

theorem Safe.quiet (h : Quiet s t) : Safe b img t ↔ Safe b img s := by
  obtain ⟨hr, hs⟩ := h
  constructor
  · exact fun hsafe => ⟨hr ▸ hsafe.reads, hs ▸ hsafe.stores⟩
  · exact fun hsafe => ⟨hr ▸ hsafe.reads, hs ▸ hsafe.stores⟩

theorem safe_note {l : List (ℕ × ℕ)} :
    Safe b img (s.note l) ↔ Safe b img s ∧ ∀ r ∈ l, img.Inside b r := by
  constructor
  · exact fun h => ⟨⟨fun r hr => h.reads r (List.mem_append_right l hr), h.stores⟩,
      fun r hr => h.reads r (List.mem_append_left s.reads hr)⟩
  · rintro ⟨h, hl⟩
    refine ⟨fun r hr => ?_, h.stores⟩
    rcases List.mem_append.mp hr with hr | hr
    · exact hl r hr
    · exact h.reads r hr

theorem safe_store {v : ℕ} {l : List UInt8} : Safe b img (s.store b v l) ↔
    Safe b img s ∧ v + l.length ≤ s.heap ∧ (s.frame (v / b.page)).isSome = true := by
  rw [frame, Option.isSome_map]
  constructor
  · exact fun h => ⟨⟨h.reads, fun st hst => h.stores st (List.mem_cons_of_mem _ hst)⟩,
      h.stores _ List.mem_cons_self⟩
  · rintro ⟨h, hst⟩
    refine ⟨h.reads, fun st hmem => ?_⟩
    rcases List.mem_cons.mp hmem with rfl | hmem
    · exact hst
    · exact h.stores st hmem

/-- An address that can be stored to. -/
def Good (b : Build) (s : Load) (a : ℕ) : Prop := a < s.heap ∧ (s.frame (a / b.page)).isSome = true

/-- The bytes the loops of `proc_load_segment` store from. -/
def source (img : Image) (src : Option ℕ) (j : ℕ) : UInt8 :=
  match src with
  | some o => img.byte (o + j)
  | none => 0

/-- The heap, its frames and the free pages are the same. -/
structure Same (s t : Load) : Prop where
  heap : t.heap = s.heap
  frame : t.frame = s.frame
  free : t.free = s.free

theorem Same.trans {u : Load} (h : Same s t) (h' : Same t u) : Same s u :=
  ⟨h'.heap.trans h.heap, h'.frame.trans h.frame, h'.free.trans h.free⟩

theorem Same.good (h : Same s t) (a : ℕ) : Good b t a ↔ Good b s a := by
  rw [Good, Good, h.heap, h.frame]

theorem Sane.of_same {n : ℕ} (h : Sane b k s n) (hst : Same s t) : Sane b k t n := by
  obtain ⟨hh, hframe, hf⟩ := hst
  refine ⟨hh.trans h.heap, ?_, hf ▸ h.nodup, ?_, ?_⟩ <;> rw [hframe]
  · exact h.tables
  · rw [hf]
    exact h.fresh
  · exact h.once

theorem Same.byteAt (h : Same s t) (hm : t.mem = s.mem) (a : ℕ) : t.byteAt b a = s.byteAt b a := by
  rw [Load.byteAt, Load.byteAt, h.frame, hm]

variable {vaddr stop copied n : ℕ} {src : Option ℕ}

theorem same_chunk (v chunk : ℕ) : Same s (s.fillChunk b img src v copied chunk) := by
  cases src <;> exact ⟨rfl, rfl, rfl⟩

theorem same_fill (fuel copied : ℕ) (s : Load) : Same s (s.fillFrom b img vaddr src stop fuel copied) := by
  induction fuel generalizing copied s with
  | zero => exact ⟨rfl, rfl, rfl⟩
  | succ fuel ih =>
    rw [fillFrom]
    split_ifs
    · exact (same_chunk _ _).trans (ih _ _)
    · exact ⟨rfl, rfl, rfl⟩

/-- What a round of the loops stores: a chunk in one page, at the addresses the bytes belong to. -/
structure Chunk (b : Build) (vaddr copied stop v chunk : ℕ) : Prop where
  pos : 0 < chunk
  page : v % b.page + chunk ≤ b.page
  le : copied + chunk ≤ stop
  addr : ∀ j < chunk, (vaddr + (copied + j)) % 2 ^ 32 = v + j

variable {v chunk : ℕ}

theorem chunk_spec (vaddr : ℕ) (hlt : copied < stop) :
    Chunk b vaddr copied stop ((vaddr + copied) % 2 ^ 32)
      (chunkSize b ((vaddr + copied) % 2 ^ 32) copied stop) := by
  rw [chunkSize]
  have hlt32 := Nat.mod_lt (vaddr + copied) (Nat.two_pow_pos 32)
  set v := (vaddr + copied) % 2 ^ 32 with hv
  have hmod := Nat.mod_lt v b.page_pos
  have hend := @page_end b v _ Build.page_dvd hlt32
  refine ⟨by omega, by omega, by omega, fun j hj => ?_⟩
  rw [← Nat.add_assoc, Nat.add_mod, ← hv, Nat.mod_eq_of_lt (show j < 2 ^ 32 by omega), Nat.mod_eq_of_lt (by omega)]

/-- A chunk lies in the heap and its page is mapped just when each of its bytes can be stored to. -/
theorem Chunk.good (hc : Chunk b vaddr copied stop v chunk) (h : Sane b k s n) :
    (v + chunk ≤ s.heap ∧ (s.frame (v / b.page)).isSome = true) ↔
      ∀ j < chunk, Good b s ((vaddr + (copied + j)) % 2 ^ 32) := by
  have hdvd : b.page ∣ s.heap := h.heap ▸ Nat.dvd_mul_right ..
  have hpos := hc.pos
  have hpage := hc.page
  constructor
  · rintro ⟨hle, hm⟩ j hj
    rw [hc.addr j hj]
    refine ⟨by omega, ?_⟩
    rwa [(@same_page b v j (by omega)).1]
  · intro hall
    have hfirst := hall 0 hpos
    rw [hc.addr 0 hpos] at hfirst
    have hend := page_end hdvd hfirst.1
    exact ⟨by rw [Nat.add_zero] at hend; omega, hfirst.2⟩

theorem Chunk.safe (hc : Chunk b vaddr copied stop v chunk) (h : Sane b k s n)
    (hsrc : ∀ o, src = some o → o + stop ≤ img.size) :
    Safe b img (s.fillChunk b img src v copied chunk) ↔
      Safe b img s ∧ ∀ j < chunk, Good b s ((vaddr + (copied + j)) % 2 ^ 32) := by
  rw [← hc.good h]
  cases src with
  | none => rw [fillChunk, safe_store, List.length_replicate]
  | some o =>
    have ho := hsrc o rfl
    have hle := hc.le
    have hin : ∀ r ∈ [(o + copied, chunk)], img.Inside b r := by
      intro r hr j hj
      rw [List.mem_singleton.mp hr] at hj ⊢
      have htop := @Build.le_top b
      have hsize := img.lt
      dsimp only at hj ⊢
      rw [Nat.mod_eq_of_lt (by omega)]
      omega
    rw [fillChunk, safe_store, safe_note, List.length_map, List.length_range]
    exact and_congr_left fun _ => and_iff_left hin

/-- What a loop of `proc_load_segment` stores is safe when every address is one to store to. -/
theorem safe_fill (h : Sane b k s n) (hsrc : ∀ o, src = some o → o + stop ≤ img.size) {fuel : ℕ}
    (hfuel : stop ≤ copied + fuel) : Safe b img (s.fillFrom b img vaddr src stop fuel copied) ↔
      Safe b img s ∧ ∀ j, copied ≤ j → j < stop → Good b s ((vaddr + j) % 2 ^ 32) := by
  induction fuel generalizing copied s with
  | zero => exact ⟨fun hs => ⟨hs, fun j hj hlt => by omega⟩, And.left⟩
  | succ fuel ih =>
    rw [fillFrom]
    split_ifs with hlt
    · have hc := @chunk_spec b stop copied vaddr hlt
      dsimp only
      set v := (vaddr + copied) % 2 ^ 32
      set chunk := chunkSize b v copied stop
      have hsame : Same s (s.fillChunk b img src v copied chunk) := same_chunk v chunk
      have hpos := hc.pos
      have hle := hc.le
      rw [ih (h.of_same hsame) (by omega), hc.safe h hsrc, and_assoc]
      refine and_congr_right fun _ => ?_
      simp only [hsame.good]
      constructor
      · rintro ⟨hfirst, hrest⟩ j hj hstop
        rcases Nat.lt_or_ge j (copied + chunk) with hin | hge
        · obtain ⟨d, rfl⟩ := Nat.exists_eq_add_of_le hj
          exact hfirst d (by omega)
        · exact hrest j hge hstop
      · intro hall
        exact ⟨fun j hj => hall _ (by omega) (by omega), fun j hj => hall j (by omega)⟩
    · exact ⟨fun hs => ⟨hs, fun j hj hstop => by omega⟩, And.left⟩

/-- The bytes a chunk holds. -/
theorem chunk_bytes (src : Option ℕ) (s : Load) : ∃ t l, s.fillChunk b img src v copied chunk = t.store b v l ∧
    Same s t ∧ t.mem = s.mem ∧ l.length = chunk ∧
    ∀ j < chunk, l[j]? = some (source img src (copied + j)) := by
  cases src with
  | none =>
    exact ⟨s, _, rfl, ⟨rfl, rfl, rfl⟩, rfl, List.length_replicate, fun j hj => by
      simp [hj, source]⟩
  | some o =>
    exact ⟨s.note [(o + copied, chunk)], _, rfl, ⟨rfl, rfl, rfl⟩, rfl, by simp, fun j hj => by
      simp [hj, source, Nat.add_assoc]⟩

theorem Chunk.byteAt (hc : Chunk b vaddr copied stop v chunk) (h : Sane b k s n)
    (hgood : ∀ j < chunk, Good b s ((vaddr + (copied + j)) % 2 ^ 32)) {a : ℕ} (ha : a < s.heap) :
    (s.fillChunk b img src v copied chunk).byteAt b a =
      if v ≤ a ∧ a < v + chunk then some (source img src (copied + (a - v))) else s.byteAt b a := by
  obtain ⟨t, l, hfill, hsame, hmem, hlen, hl⟩ := @chunk_bytes b img copied v chunk src s
  obtain ⟨hle, hm⟩ := (hc.good h).mpr hgood
  have hpos := hc.pos
  have hpage := hc.page
  rw [h.heap] at ha hle
  rw [hfill, byteAt_store (h.of_same hsame) (by omega) (hsame.frame ▸ hm) (hlen ▸ hpage) ha, hlen]
  split_ifs with hin
  · exact hl _ (by omega)
  · exact hsame.byteAt hmem a

/-- What a loop of `proc_load_segment` leaves in the heap, when no address wraps. -/
theorem byteAt_fill (h : Sane b k s n) (hwrap : vaddr + stop ≤ 2 ^ 32)
    (hgood : ∀ j, copied ≤ j → j < stop → Good b s ((vaddr + j) % 2 ^ 32)) {fuel : ℕ}
    (hfuel : stop ≤ copied + fuel) {a : ℕ} (ha : a < s.heap) :
    (s.fillFrom b img vaddr src stop fuel copied).byteAt b a =
      if vaddr + copied ≤ a ∧ a < vaddr + stop then some (source img src (a - vaddr)) else s.byteAt b a := by
  induction fuel generalizing copied s with
  | zero => exact (if_neg fun hin => by omega).symm
  | succ fuel ih =>
    rw [fillFrom]
    by_cases hlt : copied < stop
    · have hc := @chunk_spec b stop copied vaddr hlt
      rw [if_pos hlt]
      dsimp only
      set v := (vaddr + copied) % 2 ^ 32 with hv
      set chunk := chunkSize b v copied stop
      have hveq : v = vaddr + copied := Nat.mod_eq_of_lt (by omega)
      have hsame : Same s (s.fillChunk b img src v copied chunk) := same_chunk v chunk
      have hle := hc.le
      have hpos := hc.pos
      rw [ih (h.of_same hsame) (fun j hj hstop => (hsame.good _).mpr (hgood j (by omega) hstop)) (by omega)
        (hsame.heap ▸ ha), hc.byteAt h (fun j hj => hgood _ (by omega) (by omega)) ha, hveq]
      -- behind the chunk, in it, or in neither
      split_ifs
      · rfl
      · omega
      · congr 2
        omega
      · omega
      · omega
      · rfl
    · rw [if_neg hlt, if_neg (by omega)]

end Load
end EwokOS.Memory
