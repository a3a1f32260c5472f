import EwokOS.Memory.Window

/-! Frames and pages of the anonymous mapping window.

    `Core` accounts for the frames, whatever the bitmaps say: it is the library's `Counted` over the
    entries of all spaces. Pages are filled (`Grows`), unmapped (`Drops`) and slots marked (`Marks`);
    each says what the loops of `mm/mmu.c` do to a list of pages at a time. -/

namespace EwokOS.Memory.Dl

open Schemes (Counted)

/-- The frames there are. -/
structure Frames {b : Build} (w : Window b) where
  list : List ℕ
  nodup : list.Nodup
  lt : ∀ f ∈ list, f < w.max

section
variable {b : Build} {w : Window b} {fr : Frames w} {s s' : Dl} {i j u v f n p slot : ℕ}

/-! ### Entries and marks -/

theorem pte_setPte (e : Option Pte) :
    (s.setPte i v e).pte j u = if j = i ∧ u = v then e else s.pte j u := by
  simp only [setPte, modSpace, pte]
  rcases eq_or_ne j i with rfl | hj
  · rw [Function.update_self]
    simp only [Function.update_apply, true_and]
  · rw [Function.update_of_ne hj, if_neg fun h => hj h.1]

theorem used_setPte (e : Option Pte) : ((s.setPte i v e).spaces j).used = (s.spaces j).used := by
  simp only [setPte, modSpace]
  rcases eq_or_ne j i with rfl | hj
  · rw [Function.update_self]
  · rw [Function.update_of_ne hj]

theorem pte_slotMark (x : Bool) : (s.slotMark i slot x).pte j u = s.pte j u := by
  simp only [slotMark, modSpace, pte]
  rcases eq_or_ne j i with rfl | hj
  · rw [Function.update_self]
  · rw [Function.update_of_ne hj]

theorem used_slotMark (x : Bool) : ((s.slotMark i slot x).spaces j).used n =
    if j = i ∧ n = slot then x else (s.spaces j).used n := by
  simp only [slotMark, modSpace]
  rcases eq_or_ne j i with rfl | hj
  · rw [Function.update_self]
    simp only [Function.update_apply, true_and]
  · rw [Function.update_of_ne hj, if_neg fun h => hj h.1]

/-- The frame behind a page of a space. -/
def look (s : Dl) (x : ℕ × ℕ) : Option ℕ := (s.pte x.1 x.2).map Pte.frame

theorem look_setPte (e : Option Pte) :
    look (s.setPte i v e) = Function.update (look s) (i, v) (e.map Pte.frame) := by
  funext x
  rw [look, pte_setPte, Function.update_apply, apply_ite (Option.map Pte.frame), look]
  simp only [Prod.ext_iff]

/-- The frames behind no page. -/
def rest (s : Dl) : List ℕ := s.free ++ (s.tables ++ s.outside)

/-- Frames are accounted for. -/
def Core (fr : Frames w) (s : Dl) : Prop := Counted fr.list (look s) s.refs (rest s)

theorem Core.lt (h : Core fr s) (hf : f ∈ rest s) : f < w.max := fr.lt f ((h.all f).mpr (.inl hf))

theorem Core.look_lt {x : ℕ × ℕ} (h : Core fr s) (hx : look s x = some f) : f < w.max :=
  fr.lt f ((h.all f).mpr (.inr ⟨x, hx⟩))

/-- What a call on the side leaves alone. -/
structure Keeps (s s' : Dl) : Prop where
  count : s'.count = s.count
  outside : s'.outside = s.outside
  used : ∀ j, (s'.spaces j).used = (s.spaces j).used

theorem Keeps.refl (s : Dl) : Keeps s s := ⟨rfl, rfl, fun _ => rfl⟩

theorem Keeps.trans {t : Dl} (h : Keeps s s') (h' : Keeps s' t) : Keeps s t :=
  ⟨h'.count.trans h.count, h'.outside.trans h.outside, fun j => (h'.used j).trans (h.used j)⟩

/-! ### Filling pages -/

/-- `s'` is `s` with the pages `vs` of a space mapped to frames that were free. -/
structure Grows (fr : Frames w) (i : ℕ) (vs : List ℕ) (s s' : Dl) : Prop extends Keeps s s' where
  core : Core fr s'
  mapped : ∀ v ∈ vs, (s'.pte i v).isSome
  other : ∀ j u, ¬(j = i ∧ u ∈ vs) → s'.pte j u = s.pte j u
  taken : ∀ f ∈ s'.free ++ s'.tables, f ∈ s.free ++ s.tables

namespace Grows
variable {vs vs' : List ℕ}

theorem refl (h : Core fr s) : Grows fr i [] s s :=
  ⟨Keeps.refl s, h, nofun, fun _ _ _ => rfl, fun _ hf => hf⟩

theorem trans {t : Dl} (h : Grows fr i vs s s') (h' : Grows fr i vs' s' t) :
    Grows fr i (vs ++ vs') s t := by
  refine ⟨h.toKeeps.trans h'.toKeeps, h'.core, fun v hv => ?_, fun j u hju => ?_,
    fun f hf => h.taken f (h'.taken f hf)⟩
  · by_cases hin : v ∈ vs'
    · exact h'.mapped v hin
    · rw [h'.other i v fun hc => hin hc.2]
      exact h.mapped v ((List.mem_append.mp hv).resolve_right hin)
  · rw [h'.other j u fun hc => hju ⟨hc.1, List.mem_append_right _ hc.2⟩]
    exact h.other j u fun hc => hju ⟨hc.1, List.mem_append_left _ hc.2⟩

/-- A new page loses its execute permission. -/
theorem markNoexec (h : Grows fr i vs s s') (hv : v ∈ vs) :
    Grows fr i vs s (s'.markNoexec w i v) ∧ (s'.markNoexec w i v).free = s'.free := by
  rw [Dl.markNoexec]
  split_ifs
  · refine ⟨⟨⟨h.count, h.outside, fun j => ?_⟩, ?_, fun u hu => ?_, fun j u hju => ?_, h.taken⟩, rfl⟩
    · rw [used_setPte, h.used]
    · have hlook : look (s'.setPte i v ((s'.pte i v).map fun e => { e with exec := false })) =
          look s' := by
        rw [look_setPte, Option.map_map]
        exact Function.update_eq_self (i, v) (look s')
      rw [Core, hlook]
      exact h.core
    · rw [pte_setPte]
      split_ifs with hc
      · rw [Option.isSome_map]
        exact h.mapped v hv
      · exact h.mapped u hu
    · have hne : ¬(j = i ∧ u = v) := fun hc => hju ⟨hc.1, hc.2 ▸ hv⟩
      rw [pte_setPte, if_neg hne]
      exact h.other j u hju
  · exact ⟨h, rfl⟩

end Grows

/-- A page that is not mapped gets the frame `f`, the first of the free ones. -/
theorem mapPageRef_grows {l : List ℕ} {need : ℕ} (ap : Ap) (h : Core fr s) (hfree : s.free = f :: l)
    (hv : s.pte i v = none) (hn : need ≤ l.length) :
    ∃ t, ({ s with free := l } : Dl).mapPageRef w i v f ap need = (true, t) ∧
      Grows fr i [v] s t ∧ t.free.length = l.length - need := by
  have hf : f < w.max := h.lt (by rw [rest, hfree]; exact List.mem_cons_self)
  refine ⟨({ s with
      free := l.drop need
      tables := l.take need ++ s.tables
      refs := Function.update s.refs f (s.refs f + 1) } : Dl).setPte i v (some ⟨f, ap, true⟩), ?_, ?_, ?_⟩
  · simp only [mapPageRef, mapPage, if_neg (Nat.not_lt.mpr hn), if_pos hf]
    rfl
  · refine ⟨⟨rfl, rfl, fun j => used_setPte _⟩, ?_, fun u hu => ?_, fun j u hju => ?_, fun g hg => ?_⟩
    · rw [Core, rest, hfree] at h
      have hmap := Counted.map (x := (i, v)) h (by rw [look, hv]; rfl)
      rw [Core, look_setPte]
      refine Counted.perm hmap ?_
      show (l.drop need ++ (l.take need ++ s.tables ++ s.outside)).Perm _
      rw [List.append_assoc, ← List.append_assoc (l.drop need)]
      refine List.Perm.append_right _ (List.perm_append_comm.trans ?_)
      rw [List.take_append_drop]
    · rw [List.mem_singleton.mp hu, pte_setPte, if_pos ⟨rfl, rfl⟩]
      rfl
    · have hne : ¬(j = i ∧ u = v) := fun hc => hju ⟨hc.1, List.mem_singleton.mpr hc.2⟩
      rw [pte_setPte, if_neg hne]
      rfl
    · have hg' : g ∈ l.drop need ++ (l.take need ++ s.tables) := hg
      rw [hfree, List.cons_append, List.mem_cons]
      simp only [List.mem_append] at hg' ⊢
      rcases hg' with hg' | hg' | hg'
      · exact .inr (.inl (List.mem_of_mem_drop hg'))
      · exact .inr (.inl (List.mem_of_mem_take hg'))
      · exact .inr (.inr hg')
  · exact List.length_drop

/-- When the page tables cannot be had, the frame goes back. -/
theorem mapPageRef_fails {l : List ℕ} {need : ℕ} (i v : ℕ) (ap : Ap) (h : Core fr s)
    (hfree : s.free = f :: l) (hn : l.length < need) : ∃ t, ({ s with free := l } : Dl).mapPageRef w i v f ap need = (false, t) ∧
      Grows fr i [] s (t.kfreePage f) := by
  refine ⟨{ s with free := [], tables := l ++ s.tables }, ?_, ⟨rfl, rfl, fun _ => rfl⟩, ?_, nofun,
    fun _ _ _ => rfl, fun g hg => ?_⟩
  · simp only [mapPageRef, mapPage, if_pos hn]
  · rw [Core, rest, hfree] at h
    refine Counted.perm h ?_
    simp only [rest, kfreePage, List.cons_append, List.nil_append, List.append_assoc]
    exact List.Perm.refl _
  · rw [hfree]
    exact hg

theorem mapOne_grows {l : List ℕ} {need : ℕ} (prot : ℕ) (h : Core fr s) (hfree : s.free = f :: l)
    (hv : s.pte i v = none) (hn : need ≤ l.length) :
    ∃ t, ({ s with free := l } : Dl).mapOne w i v f prot need = (true, t) ∧
      Grows fr i [v] s t ∧ t.free.length = l.length - need := by
  obtain ⟨t, ht, hg, hlen⟩ := mapPageRef_grows (protToAp prot) h hfree hv hn
  simp only [mapOne, ht]
  split_ifs
  · exact ⟨t, rfl, hg, hlen⟩
  · obtain ⟨hg', hfree'⟩ := hg.markNoexec List.mem_cons_self
    exact ⟨_, rfl, hg', hfree' ▸ hlen⟩

theorem clonePteProt_grows {l : List ℕ} {need : ℕ} (e : Pte) (h : Core fr s)
    (hfree : s.free = f :: l) (hv : s.pte i v = none) (hn : need ≤ l.length) :
    ∃ t, ({ s with free := l } : Dl).clonePteProt w i v f e need = (true, t) ∧
      Grows fr i [v] s t ∧ t.free.length = l.length - need := by
  obtain ⟨t, ht, hg, hlen⟩ := mapPageRef_grows e.ap h hfree hv hn
  simp only [clonePteProt, ht]
  split_ifs
  · exact ⟨t, rfl, hg, hlen⟩
  · obtain ⟨hg', hfree'⟩ := hg.markNoexec List.mem_cons_self
    exact ⟨_, rfl, hg', hfree' ▸ hlen⟩

/-- What it takes to fill pages: a frame each and the page tables. -/
def cost (need : ℕ → ℕ) (vs : List ℕ) : ℕ := (vs.map fun v => 1 + need v).sum

theorem cost_cons (need : ℕ → ℕ) (v : ℕ) (vs : List ℕ) :
    cost need (v :: vs) = 1 + need v + cost need vs := List.sum_cons

/-- The loop of `dl_window_alloc` fills pages in order until it is done or memory is exhausted. -/
theorem mapFrom_spec {vaddr prot : ℕ} {need : ℕ → ℕ} (h : Core fr s)
    (hv : ∀ k, p ≤ k → k < p + n → s.pte i (vaddr + k * b.page) = none) :
    ∃ ok q t, mapFrom w i vaddr prot need n p s = (ok, p + q, t) ∧ q ≤ n ∧
      Grows fr i ((List.range' p q).map fun k => vaddr + k * b.page) s t ∧ (ok = true → q = n) ∧
      (ok = false → s.free.length < cost need ((List.range' p n).map fun k => vaddr + k * b.page)) := by
  induction n generalizing p s with
  | zero => exact ⟨true, 0, s, rfl, le_rfl, .refl h, fun _ => rfl, nofun⟩
  | succ n ih =>
    rw [List.range'_succ, List.map_cons, cost_cons]
    obtain ⟨l, hl⟩ : ∃ l, s.free = l := ⟨_, rfl⟩
    cases l with
    | nil =>
      refine ⟨false, 0, s, ?_, Nat.zero_le _, .refl h, nofun, fun _ => ?_⟩
      · simp only [mapFrom, kallocPage, hl]
        rfl
      · rw [hl, List.length_nil]
        omega
    | cons f l =>
      have hp := hv p le_rfl (by omega)
      rcases Nat.lt_or_ge l.length (need (vaddr + p * b.page)) with hn | hn
      · obtain ⟨t, ht, hg⟩ := mapPageRef_fails i (vaddr + p * b.page) (protToAp prot) h hl hn
        refine ⟨false, 0, t.kfreePage f, ?_, Nat.zero_le _, hg, nofun, fun _ => ?_⟩
        · simp only [mapFrom, kallocPage, hl, mapOne, ht]
          rfl
        · rw [hl, List.length_cons]
          omega
      · obtain ⟨t, ht, hg, hlen⟩ := mapOne_grows prot h hl hp hn
        have hrest : ∀ k, p + 1 ≤ k → k < p + 1 + n → t.pte i (vaddr + k * b.page) = none := by
          intro k hk hkn
          rw [hg.other i _ fun hc => ?_]
          · exact hv k (by omega) (by omega)
          · have := Nat.eq_of_mul_eq_mul_right Build.page_pos
              (Nat.add_left_cancel (List.mem_singleton.mp hc.2))
            omega
        obtain ⟨ok, q, t', ht', hq, hg', hok, hfail⟩ := ih hg.core hrest
        refine ⟨ok, q + 1, t', ?_, by omega, ?_, fun ho => by rw [hok ho], fun ho => ?_⟩
        · simp only [mapFrom, kallocPage, hl, ht, ht']
          congr 2
          omega
        · rw [List.range'_succ, List.map_cons]
          exact hg.trans hg'
        · have := hfail ho
          rw [hl, List.length_cons]
          omega

/-! ### Unmapping pages -/

/-- `s'` is `s` with the pages `vs` of a space unmapped. -/
structure Drops (fr : Frames w) (i : ℕ) (vs : List ℕ) (s s' : Dl) : Prop extends Keeps s s' where
  core : Core fr s'
  pte : ∀ j u, s'.pte j u = if j = i ∧ u ∈ vs then none else s.pte j u
  tables : s'.tables = s.tables

theorem unmapPageRef_drops (h : Core fr s) (hv : (s.pte i v).isSome) :
    Drops fr i [v] s (s.unmapPageRef w i v) := by
  obtain ⟨e, he⟩ := Option.isSome_iff_exists.mp hv
  have hlook : look s (i, v) = some e.frame := by rw [look, he]; rfl
  have hone : s.refs e.frame = 1 := h.one (i, v) e.frame hlook
  have heq : s.unmapPageRef w i v = ({ s with
      free := e.frame :: s.free
      refs := Function.update s.refs e.frame (s.refs e.frame - 1) } : Dl).setPte i v none := by
    simp only [unmapPageRef, he, Option.map_some, Option.getD_some, if_pos (h.look_lt hlook),
      Function.update_self, hone, Nat.sub_self, if_true]
    rfl
  rw [heq]
  refine ⟨⟨rfl, rfl, fun j => used_setPte _⟩, ?_, fun j u => ?_, rfl⟩
  · rw [Core, look_setPte]
    exact Counted.unmap h hlook
  · simp only [pte_setPte, List.mem_singleton]
    rfl

theorem Drops.nil (h : Core fr s) : Drops fr i [] s s :=
  ⟨Keeps.refl s, h, fun j u => by rw [if_neg fun hc => List.not_mem_nil hc.2], rfl⟩

theorem Drops.trans {vs vs' : List ℕ} {t : Dl} (h : Drops fr i vs s s') (h' : Drops fr i vs' s' t) :
    Drops fr i (vs ++ vs') s t := by
  refine ⟨h.toKeeps.trans h'.toKeeps, h'.core, fun j u => ?_, h'.tables.trans h.tables⟩
  rw [h'.pte, h.pte]
  simp only [List.mem_append]
  split_ifs <;> first | rfl | tauto

theorem unmapRange_drops {vs : List ℕ} (h : Core fr s) : Drops fr i vs s (s.unmapRange w i vs) := by
  induction vs generalizing s with
  | nil => exact .nil h
  | cons v vs ih =>
    rw [unmapRange, List.foldl_cons]
    split_ifs with hv
    · have hd := unmapPageRef_drops h hv
      exact hd.trans (ih hd.core)
    · obtain ⟨hk, hc, hp, ht⟩ := ih h
      refine ⟨hk, hc, fun j u => (hp j u).trans ?_, ht⟩
      -- a hole stays a hole
      rcases eq_or_ne u v with rfl | hu
      · rcases eq_or_ne j i with rfl | hj
        · rw [Bool.not_eq_true, Option.isSome_eq_false_iff, Option.isNone_iff_eq_none] at hv
          simp [hv]
        · simp [hj]
      · simp [hu]

/-- The unwinding of `dl_window_alloc`, which meets no hole. -/
theorem foldl_unmap {vs : List ℕ} (h : Core fr s) (hnd : vs.Nodup)
    (hv : ∀ v ∈ vs, (s.pte i v).isSome) :
    Drops fr i vs s (vs.foldl (fun s v => s.unmapPageRef w i v) s) := by
  induction vs generalizing s with
  | nil => exact .nil h
  | cons v vs ih =>
    obtain ⟨hout, hnd⟩ := List.nodup_cons.mp hnd
    have hd := unmapPageRef_drops h (hv v List.mem_cons_self)
    refine hd.trans (ih hd.core hnd fun u hu => ?_)
    have hne : ¬(i = i ∧ u ∈ [v]) := fun hc => hout (List.mem_singleton.mp hc.2 ▸ hu)
    rw [hd.pte, if_neg hne]
    exact hv u (List.mem_cons_of_mem v hu)

/-! ### Slots -/

theorem page_mul : pagesPerSlot b * b.page = slotSize := by
  refine Nat.div_mul_cancel ?_
  exact Nat.pow_dvd_pow 2 (show b.pageShift ≤ 16 by have := b.shift_mem; omega)

theorem mem_pagesOf : v ∈ pagesOf w slot ↔
    ∃ k < pagesPerSlot b, v = w.base + slot * slotSize + k * b.page := by
  rw [pagesOf, List.mem_map]
  constructor
  · rintro ⟨k, hk, rfl⟩
    exact ⟨k, List.mem_range.mp hk, rfl⟩
  · rintro ⟨k, hk, rfl⟩
    exact ⟨k, List.mem_range.mpr hk, rfl⟩

/-- A page of a slot lies inside it. -/
theorem inside_slot (h : v ∈ pagesOf w slot) :
    w.base + slot * slotSize ≤ v ∧ v + b.page ≤ w.base + slot * slotSize + slotSize := by
  obtain ⟨k, hk, rfl⟩ := mem_pagesOf.mp h
  have hle : (k + 1) * b.page ≤ pagesPerSlot b * b.page := Nat.mul_le_mul_right _ hk
  rw [page_mul, Nat.add_mul] at hle
  omega

theorem slot_unique {slot' : ℕ} (h : v ∈ pagesOf w slot) (h' : v ∈ pagesOf w slot') :
    slot = slot' := by
  have hin := inside_slot h
  have hin' := inside_slot h'
  have hpage := @Build.page_pos b
  unfold slotSize at hin hin'
  omega

/-- The pages behind a slot border, counted on. -/
theorem mem_pagesOf_add (start k : ℕ) :
    w.base + start * slotSize + k * b.page ∈ pagesOf w (start + k / pagesPerSlot b) := by
  have hpos : 0 < pagesPerSlot b := Nat.pos_of_mul_pos_right (by rw [page_mul]; decide)
  refine mem_pagesOf.mpr ⟨k % pagesPerSlot b, Nat.mod_lt _ hpos, ?_⟩
  have hk : k / pagesPerSlot b * slotSize + k % pagesPerSlot b * b.page = k * b.page := by
    rw [← @page_mul b, ← Nat.mul_assoc, ← Nat.add_mul, Nat.div_add_mod']
  rw [Nat.add_mul]
  omega

theorem runLen_le (used : ℕ → Bool) : runLen used n i ≤ n := by
  induction n generalizing i with
  | zero => exact le_rfl
  | succ n ih =>
    rw [runLen]
    split_ifs
    · exact Nat.zero_le _
    · exact Nat.succ_le_succ ih

/-- The slots of a run are unused, and what broke it is not. -/
theorem runLen_spec (used : ℕ → Bool) : (∀ k < runLen used n i, used (i + k) = false) ∧
    (runLen used n i < n → used (i + runLen used n i) = true) := by
  induction n generalizing i with
  | zero => exact ⟨nofun, nofun⟩
  | succ n ih =>
    rw [runLen]
    split_ifs with hu
    · exact ⟨nofun, fun _ => hu⟩
    · obtain ⟨hrun, hbreak⟩ := @ih (i + 1)
      refine ⟨fun k hk => ?_, fun hlt => ?_⟩
      · cases k with
        | zero => simpa using hu
        | succ k =>
          rw [Nat.add_comm k, ← Nat.add_assoc]
          exact hrun k (by omega)
      · rw [Nat.add_comm (runLen used n (i + 1)), ← Nat.add_assoc]
        exact hbreak (by omega)

/-- First fit finds a run of unused slots if there is one. -/
theorem findFrom_spec (used : ℕ → Bool) {k start : ℕ} (hk : slots < i + k)
    (hpast : ∀ j < i, ∃ m < n, used (j + m) = true) (hn : 0 < n) :
    (findFrom used n k i = some start → start + n ≤ slots ∧ ∀ m < n, used (start + m) = false) ∧
    (findFrom used n k i = none → ∀ j, j + n ≤ slots → ∃ m < n, used (j + m) = true) := by
  induction k generalizing i with
  | zero => exact ⟨nofun, fun _ j hj => hpast j (by omega)⟩
  | succ k ih =>
    obtain ⟨hrun, hbreak⟩ := @runLen_spec i n used
    have hle := @runLen_le i n used
    rw [findFrom]
    split_ifs with hend hfit
    · exact ⟨nofun, fun _ j hj => hpast j (by omega)⟩
    · refine ⟨fun he => ?_, nofun⟩
      cases he
      exact ⟨by omega, hfit ▸ hrun⟩
    · -- the slot that broke the run lies in every later candidate up to it
      refine ih (by omega) fun j hj => ?_
      rcases Nat.lt_or_ge j i with hji | hji
      · exact hpast j hji
      · refine ⟨i + runLen used n i - j, by omega, ?_⟩
        rw [show j + (i + runLen used n i - j) = i + runLen used n i by omega]
        exact hbreak (by omega)

/-- `t` is `s` but for the bitmaps. -/
structure Marks (s t : Dl) : Prop where
  pte : ∀ j u, t.pte j u = s.pte j u
  free : t.free = s.free
  refs : t.refs = s.refs
  tables : t.tables = s.tables
  outside : t.outside = s.outside
  count : t.count = s.count

theorem Marks.look {t : Dl} (h : Marks s t) : look t = look s := by
  funext x
  rw [Dl.look, Dl.look, h.pte]

theorem Marks.core {t : Dl} (h : Marks s t) (hc : Core fr s) : Core fr t := by
  rw [Core, h.look, h.refs, rest, h.free, h.tables, h.outside]
  exact hc

/-- Slots are marked one after the other. -/
theorem markAll (c : ℕ → Bool) (g : ℕ → ℕ) (x : Bool) (l : List ℕ) :
    Marks s (l.foldl (fun s k => if c k then s.slotMark i (g k) x else s) s) ∧
      ∀ j slot, ((l.foldl (fun s k => if c k then s.slotMark i (g k) x else s) s).spaces j).used slot =
        if j = i ∧ ∃ k ∈ l, c k = true ∧ g k = slot then x else (s.spaces j).used slot := by
  induction l generalizing s with
  | nil =>
    refine ⟨⟨fun _ _ => rfl, rfl, rfl, rfl, rfl, rfl⟩, fun j slot => ?_⟩
    rw [if_neg (by simp)]
    rfl
  | cons k l ih =>
    rw [List.foldl_cons]
    split_ifs with hc
    · obtain ⟨hm, hu⟩ := @ih (s.slotMark i (g k) x)
      refine ⟨⟨fun j u => ?_, hm.free, hm.refs, hm.tables, hm.outside, hm.count⟩, fun j slot => ?_⟩
      · rw [hm.pte, pte_slotMark]
      · rw [hu, used_slotMark]
        simp only [List.mem_cons, exists_eq_or_imp, hc, true_and, @eq_comm _ slot (g k)]
        by_cases hin : ∃ k ∈ l, c k = true ∧ g k = slot
        · simp only [hin, or_true, and_true]
          rcases eq_or_ne j i with hj | hj
          · rw [if_pos hj, if_pos hj]
          · rw [if_neg hj, if_neg hj, if_neg fun hc => hj hc.1]
        · simp only [hin, or_false, and_false, if_false]
    · obtain ⟨hm, hu⟩ := @ih s
      refine ⟨hm, fun j slot => ?_⟩
      rw [hu]
      simp only [List.mem_cons, exists_eq_or_imp, hc, false_and, false_or, Bool.false_eq_true]

end
end EwokOS.Memory.Dl
