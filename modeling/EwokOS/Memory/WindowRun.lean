import EwokOS.Memory.WindowPages

/-! The anonymous mapping window conserves pages, as long as no clone runs dry in the middle of a slot.

    `Inv` adds to the account of frames that mapped pages lie in used slots, which is what
    `dl_window_release` goes by. A clone marks a slot only after its last page, so when memory runs out
    in between, the pages it has already mapped are out of reach for the release that should undo it.
    A slot is free again once one call covers it whole; unmapped in pieces it stays taken
    (`piecemeal_taken`). -/

namespace EwokOS.Memory.Dl

open Schemes (Reach Free Counted runIf runOps reach_of_runIf reach_of_runOps)

section
variable {b : Build} {w : Window b} {fr : Frames w} {s s' : Dl} {i j u v f n p slot : ℕ}

/-! ### The invariant -/

/-- Frames are accounted for, mapped pages lie in used slots of the window, and the spaces to come
    are empty. -/
structure Inv (fr : Frames w) (s : Dl) : Prop where
  core : Core fr s
  marked : ∀ i v, (s.pte i v).isSome → ∃ slot, v ∈ pagesOf w slot ∧ (s.spaces i).used slot = true
  small : ∀ i slot, (s.spaces i).used slot = true → slot < slots
  fresh : ∀ i, s.count ≤ i → (∀ v, s.pte i v = none) ∧ ∀ slot, (s.spaces i).used slot = false

/-- A frame that stands behind no page any more is free. -/
def Returns (s s' : Dl) : Prop :=
  ∀ f, (∃ x, look s x = some f) → (∀ x, look s' x ≠ some f) → f ∈ s'.free

/-- No page is mapped that was not, and none is gone but for page tables. -/
def Undone (s s' : Dl) : Prop :=
  s'.spaces = s.spaces ∧ ∀ f, f ∈ s'.free ++ s'.tables ↔ f ∈ s.free ++ s.tables

theorem Core.mem_rest (h : Core fr s) : f ∈ rest s ↔ f ∈ fr.list ∧ ∀ x, look s x ≠ some f := by
  rw [h.all]
  constructor
  · exact fun hf => ⟨.inl hf, fun x hx => h.apart x f hx hf⟩
  · rintro ⟨hf | ⟨x, hx⟩, hn⟩
    · exact hf
    · exact absurd hx (hn x)

theorem Core.mem_split (h : Core fr s) :
    f ∈ s.free ++ s.tables ↔ f ∈ rest s ∧ f ∉ s.outside := by
  have hnd := h.nodup
  rw [rest, ← List.append_assoc] at hnd ⊢
  have hdis := (List.nodup_append.mp hnd).2.2
  rw [@List.mem_append _ f _ s.outside]
  constructor
  · exact fun hf => ⟨.inl hf, fun ho => hdis f hf f ho rfl⟩
  · rintro ⟨hf | hf, ho⟩
    · exact hf
    · exact absurd hf ho

theorem returns (h : Core fr s) (h' : Core fr s')
    (hsub : ∀ f ∈ s'.tables ++ s'.outside, f ∈ rest s) : Returns s s' := by
  rintro f ⟨x, hx⟩ hn
  have hf := h'.mem_rest.mpr ⟨(h.all f).mpr (.inr ⟨x, hx⟩), hn⟩
  rcases List.mem_append.mp hf with hf | hf
  · exact hf
  · exact absurd (hsub f hf) (h.apart x f hx)

theorem undone (h : Core fr s) (h' : Core fr s') (hk : s'.outside = s.outside)
    (hu : ∀ j, (s'.spaces j).used = (s.spaces j).used) (hp : ∀ j u, s'.pte j u = s.pte j u) :
    Undone s s' := by
  refine ⟨funext fun j => Space.ext (funext fun u => hp j u) (hu j), fun f => ?_⟩
  have hlook : look s' = look s := funext fun x => by rw [look, look, hp]
  rw [h'.mem_split, h.mem_split, h'.mem_rest, h.mem_rest, hlook, hk]

namespace Inv

/-- A page of an unused slot is not mapped. -/
theorem hole (h : Inv fr s) (hv : v ∈ pagesOf w slot) (hu : (s.spaces i).used slot = false) :
    s.pte i v = none := by
  rw [← Option.isNone_iff_eq_none, ← Option.isSome_eq_false_iff, ← Bool.not_eq_true]
  intro hm
  obtain ⟨slot', hv', hu'⟩ := h.marked i v hm
  rw [slot_unique hv' hv, hu] at hu'
  cases hu'

/-- The pages of a run of slots. -/
def runPages (w : Window b) (start n : ℕ) : List ℕ :=
  (List.range (n * pagesPerSlot b)).map fun k => w.base + start * slotSize + k * b.page

theorem mem_runPages {start : ℕ} (hv : v ∈ runPages w start n) :
    ∃ k < n, v ∈ pagesOf w (start + k) := by
  obtain ⟨k, hk, rfl⟩ := List.mem_map.mp hv
  exact ⟨k / pagesPerSlot b, Nat.div_lt_of_lt_mul (Nat.mul_comm n _ ▸ List.mem_range.mp hk),
    mem_pagesOf_add start k⟩

theorem congr (h : Inv fr s) (hc : Core fr s') (hs : s'.spaces = s.spaces) (hn : s'.count = s.count) :
    Inv fr s' := by
  have hp : ∀ j u, s'.pte j u = s.pte j u := fun j u => by rw [pte, pte, hs]
  refine ⟨hc, fun j u => ?_, fun j slot => ?_, fun j hj => ?_⟩
  · rw [hp, hs]
    exact h.marked j u
  · rw [hs]
    exact h.small j slot
  · rw [hs]
    exact ⟨fun v => (hp j v).trans ((h.fresh j (hn ▸ hj)).1 v), (h.fresh j (hn ▸ hj)).2⟩

/-- All pages of the run are filled, and its slots are marked. -/
theorem filled {start : ℕ} {t : Dl} (h : Inv fr s) (hi : i < s.count) (hend : start + n ≤ slots)
    (hg : Grows fr i (runPages w start n) s t) :
    Inv fr ((List.range n).foldl (fun s k => s.slotMark i (start + k) true) t) ∧
      Returns s ((List.range n).foldl (fun s k => s.slotMark i (start + k) true) t) := by
  obtain ⟨hm, hu⟩ := @markAll t i (fun _ => true) (start + ·) true (List.range n)
  obtain ⟨t', ht'⟩ : ∃ t', t' = (List.range n).foldl (fun s k => s.slotMark i (start + k) true) t :=
    ⟨_, rfl⟩
  change Marks t ((List.range n).foldl (fun s k => s.slotMark i (start + k) true) t) at hm
  change ∀ j slot, (((List.range n).foldl (fun s k => s.slotMark i (start + k) true) t).spaces j).used
    slot = _ at hu
  rw [← ht'] at hm hu ⊢
  have hcore := hm.core hg.core
  refine ⟨⟨hcore, fun j u hju => ?_, fun j slot hused => ?_, fun j hj => ?_⟩, ?_⟩
  · rw [hm.pte] at hju
    by_cases hin : j = i ∧ u ∈ runPages w start n
    · obtain ⟨k, hk, hv⟩ := mem_runPages hin.2
      refine ⟨start + k, hv, ?_⟩
      rw [hu, if_pos ⟨hin.1, k, List.mem_range.mpr hk, rfl, rfl⟩]
    · rw [hg.other j u hin] at hju
      obtain ⟨slot, hv, hused⟩ := h.marked j u hju
      refine ⟨slot, hv, ?_⟩
      rw [hu, hg.used, hused, ite_self]
  · rw [hu, hg.used] at hused
    split_ifs at hused with hc
    · obtain ⟨-, k, hk, -, rfl⟩ := hc
      have := List.mem_range.mp hk
      omega
    · exact h.small j slot hused
  · rw [hm.count, hg.count] at hj
    have hne : j ≠ i := by omega
    refine ⟨fun u => ?_, fun slot => ?_⟩
    · rw [hm.pte, hg.other j u fun hc => hne hc.1]
      exact (h.fresh j hj).1 u
    · rw [hu, if_neg fun hc => hne hc.1, hg.used]
      exact (h.fresh j hj).2 slot
  · refine returns h.core hcore fun f hf => ?_
    rw [hm.tables, hm.outside, hg.outside] at hf
    rw [rest, ← List.append_assoc]
    rcases List.mem_append.mp hf with hf | hf
    · exact List.mem_append_left _ (hg.taken f (List.mem_append_right _ hf))
    · exact List.mem_append_right _ hf

/-- What was filled is unmapped again. -/
theorem unwound {vs : List ℕ} {t : Dl} (h : Inv fr s) (hg : Grows fr i vs s t) (hnd : vs.Nodup)
    (hv : ∀ v ∈ vs, s.pte i v = none) :
    Inv fr (vs.foldl (fun s v => s.unmapPageRef w i v) t) ∧
      Returns s (vs.foldl (fun s v => s.unmapPageRef w i v) t) ∧
      Undone s (vs.foldl (fun s v => s.unmapPageRef w i v) t) := by
  have hd := foldl_unmap hg.core hnd hg.mapped
  have hk := hg.toKeeps.trans hd.toKeeps
  have hp : ∀ j u, (vs.foldl (fun s v => s.unmapPageRef w i v) t).pte j u = s.pte j u := by
    intro j u
    rw [hd.pte]
    split_ifs with hc
    · rw [hc.1, hv u hc.2]
    · exact hg.other j u hc
  have hun := undone h.core hd.core hk.outside hk.used hp
  refine ⟨h.congr hd.core hun.1 hk.count, returns h.core hd.core fun f hf => ?_, hun⟩
  rw [hd.tables, hd.outside, hg.outside] at hf
  rw [rest, ← List.append_assoc]
  rcases List.mem_append.mp hf with hf | hf
  · exact List.mem_append_left _ (hg.taken f (List.mem_append_right _ hf))
  · exact List.mem_append_right _ hf

/-- Unused slots are filled, or nothing has changed because memory is exhausted. -/
theorem allocAt {start prot : ℕ} {need : ℕ → ℕ} (h : Inv fr s) (hi : i < s.count)
    (hend : start + n ≤ slots) (hunused : ∀ k < n, (s.spaces i).used (start + k) = false) :
    Inv fr (s.allocAt w i start n prot need).2 ∧ Returns s (s.allocAt w i start n prot need).2 ∧
      ((s.allocAt w i start n prot need).1 = 0 → Undone s (s.allocAt w i start n prot need).2 ∧
        s.free.length < cost need (runPages w start n)) := by
  have hhole : ∀ k < n * pagesPerSlot b,
      s.pte i (w.base + start * slotSize + k * b.page) = none := by
    intro k hk
    rw [Nat.mul_comm] at hk
    exact h.hole (mem_pagesOf_add start k) (hunused _ (Nat.div_lt_of_lt_mul hk))
  obtain ⟨ok, q, t, ht, hq, hg, hok, hfail⟩ := @mapFrom_spec b w fr s i (n * pagesPerSlot b) 0
    (w.base + start * slotSize) prot need h.core fun k _ hk => hhole k (by omega)
  rw [← List.range_eq_range'] at hg hfail
  rw [Dl.allocAt, ht]
  cases ok with
  | true =>
    cases hok rfl
    obtain ⟨hinv, hret⟩ := h.filled hi hend hg
    have hpos : 0 < w.base + start * slotSize := Nat.add_pos_left w.pos _
    exact ⟨hinv, hret, fun h0 => absurd h0 hpos.ne'⟩
  | false =>
    have hnd : ((List.range q).map fun k => w.base + start * slotSize + k * b.page).Nodup := by
      refine List.Pairwise.map _ (fun x y hne he => hne ?_) List.nodup_range
      exact Nat.eq_of_mul_eq_mul_right Build.page_pos (Nat.add_left_cancel he)
    obtain ⟨hinv, hret, hun⟩ := h.unwound hg hnd fun v hv => by
      obtain ⟨k, hk, rfl⟩ := List.mem_map.mp hv
      exact hhole k ((List.mem_range.mp hk).trans_le hq)
    rw [List.foldl_map] at hinv hret hun
    rw [Nat.zero_add]
    exact ⟨hinv, hret, fun _ => ⟨hun, hfail rfl⟩⟩

/-- `dl_window_alloc`. -/
theorem windowAlloc {size prot : ℕ} {need : ℕ → ℕ} (h : Inv fr s) (hi : i < s.count) :
    Inv fr (s.windowAlloc w i size prot need).2 ∧
      Returns s (s.windowAlloc w i size prot need).2 ∧
      ((s.windowAlloc w i size prot need).1 = 0 → Undone s (s.windowAlloc w i size prot need).2 ∧
        (protOk prot = true → 0 < size → size ≤ windowSize →
          (∀ start, start + slotsFor size ≤ slots →
            ∃ k < slotsFor size, (s.spaces i).used (start + k) = true) ∨
          ∃ start, s.free.length < cost need (runPages w start (slotsFor size)))) := by
  have hsame : Undone s s := ⟨rfl, fun _ => Iff.rfl⟩
  have hret : Returns s s := returns h.core h.core fun f hf => List.mem_append_right _ hf
  rw [Dl.windowAlloc]
  split_ifs with hbad
  · refine ⟨h, hret, fun _ => ⟨hsame, fun hp h0 hsz => ?_⟩⟩
    rw [hp] at hbad
    rcases hbad with hb | hb | hb
    · cases hb
    · omega
    · omega
  · have hpos : 0 < slotsFor size := by
      rw [not_or, not_or] at hbad
      exact Nat.div_pos (by omega) (by decide)
    cases hfind : findFrom (s.spaces i).used (slotsFor size) (slots + 1) 0 with
    | none =>
      have hnone := (@findFrom_spec 0 (slotsFor size) (s.spaces i).used (slots + 1) 0 (by omega)
        nofun hpos).2 hfind
      exact ⟨h, hret, fun _ => ⟨hsame, fun _ _ _ => .inl hnone⟩⟩
    | some start =>
      obtain ⟨hend, hunused⟩ := (@findFrom_spec 0 (slotsFor size) (s.spaces i).used (slots + 1) start
        (by omega) nofun hpos).1 hfind
      obtain ⟨hinv, hret', hfail⟩ := h.allocAt hi hend hunused
      exact ⟨hinv, hret', fun h0 => ⟨(hfail h0).1, fun _ _ _ => .inr ⟨start, (hfail h0).2⟩⟩⟩

end Inv

/-! ### Protecting and freeing -/

/-- `t` is `s` but for the permissions of pages. -/
structure Paints (s t : Dl) : Prop where
  look : look t = look s
  used : ∀ j, (t.spaces j).used = (s.spaces j).used
  free : t.free = s.free
  refs : t.refs = s.refs
  tables : t.tables = s.tables
  outside : t.outside = s.outside
  count : t.count = s.count

theorem Paints.refl (s : Dl) : Paints s s := ⟨rfl, fun _ => rfl, rfl, rfl, rfl, rfl, rfl⟩

theorem Paints.trans {t : Dl} (h : Paints s s') (h' : Paints s' t) : Paints s t :=
  ⟨h'.look.trans h.look, fun j => (h'.used j).trans (h.used j), h'.free.trans h.free,
    h'.refs.trans h.refs, h'.tables.trans h.tables, h'.outside.trans h.outside,
    h'.count.trans h.count⟩

/-- An entry is written again with the same frame. -/
theorem paints_setPte {e : Option Pte} (he : e.map Pte.frame = look s (i, v)) :
    Paints s (s.setPte i v e) := by
  refine ⟨?_, fun j => used_setPte e, rfl, rfl, rfl, rfl, rfl⟩
  rw [look_setPte, he]
  exact Function.update_eq_self (i, v) (look s)

theorem paints_remap (prot : ℕ) : Paints s (s.remap w i prot v) := by
  cases he : s.pte i v with
  | none =>
    simp only [remap, he]
    exact .refl s
  | some e =>
    have h₁ : Paints s (s.setPte i v (some ⟨e.frame, protToAp prot, true⟩)) :=
      paints_setPte (by rw [look, he]; rfl)
    simp only [remap, he]
    split_ifs
    · exact h₁
    · rw [markNoexec]
      split_ifs
      · exact h₁.trans (paints_setPte (by rw [Option.map_map]; rfl))
      · exact h₁

theorem Paints.isSome {t : Dl} (h : Paints s t) : (t.pte j u).isSome = (s.pte j u).isSome := by
  have hlook := congrFun h.look (j, u)
  rw [Dl.look, Dl.look] at hlook
  rw [← Option.isSome_map, hlook, Option.isSome_map]

theorem Inv.paints {t : Dl} (h : Inv fr s) (hp : Paints s t) : Inv fr t ∧ Returns s t := by
  have hcore : Core fr t := by
    rw [Core, hp.look, hp.refs, rest, hp.free, hp.tables, hp.outside]
    exact h.core
  refine ⟨⟨hcore, fun j u hju => ?_, fun j slot => ?_, fun j hj => ⟨fun u => ?_, fun slot => ?_⟩⟩, ?_⟩
  · rw [hp.isSome] at hju
    rw [hp.used]
    exact h.marked j u hju
  · rw [hp.used]
    exact h.small j slot
  · rw [← Option.isNone_iff_eq_none, ← Option.isSome_eq_false_iff, hp.isSome,
      (h.fresh j (hp.count ▸ hj)).1 u]
    rfl
  · rw [hp.used]
    exact (h.fresh j (hp.count ▸ hj)).2 slot
  · rintro f ⟨x, hx⟩ hn
    exact absurd (hp.look ▸ hx) (hn x)

/-- `dl_window_protect`. -/
theorem Inv.windowProtect {vaddr size prot : ℕ} (h : Inv fr s) :
    Inv fr (s.windowProtect w i vaddr size prot).2 ∧
      Returns s (s.windowProtect w i vaddr size prot).2 := by
  have hfold : ∀ (vs : List ℕ) (s : Dl), Paints s (vs.foldl (fun s v => s.remap w i prot v) s) := by
    intro vs
    induction vs with
    | nil => exact fun s => .refl s
    | cons v vs ih => exact fun s => (paints_remap prot).trans (ih _)
  rw [Dl.windowProtect]
  split_ifs
  · exact h.paints (.refl s)
  · exact h.paints (.refl s)
  · exact h.paints (hfold _ s)

theorem mem_pagesIn {vaddr size : ℕ} (hlo : vaddr ≤ v) (hhi : v < vaddr + size)
    (hdvd : b.page ∣ v - vaddr) : v ∈ pagesIn b vaddr size := by
  obtain ⟨k, hk⟩ := hdvd
  refine List.mem_map.mpr ⟨k, List.mem_range.mpr ?_, by rw [Nat.mul_comm, ← hk]; omega⟩
  have hpage := @Build.page_pos b
  refine (Nat.le_div_iff_mul_le hpage).mpr ?_
  rw [Nat.succ_mul, Nat.mul_comm k, ← hk]
  omega

theorem page_dvd_slot : b.page ∣ slotSize := ⟨pagesPerSlot b, by rw [Nat.mul_comm, page_mul]⟩

/-- A slot that a range covers whole has all its pages there. -/
theorem covered {vaddr size : ℕ} (hr : rangeOk w vaddr size = true)
    (hc : covers w vaddr (vaddr + size) slot = true) (hv : v ∈ pagesOf w slot) :
    v ∈ pagesIn b vaddr size := by
  obtain ⟨hlo, hhi⟩ := inside_slot hv
  have hpage := @Build.page_pos b
  rw [covers, decide_eq_true_eq] at hc
  rw [rangeOk, decide_eq_true_eq] at hr
  refine mem_pagesIn (by omega) (by omega) (Nat.dvd_sub ?_ (Nat.dvd_of_mod_eq_zero hr.2.1))
  obtain ⟨k, -, rfl⟩ := mem_pagesOf.mp hv
  have hbase : b.page ∣ w.base := page_dvd_slot.trans w.dvd
  exact Nat.dvd_add (Nat.dvd_add hbase (Nat.dvd_mul_left_of_dvd page_dvd_slot slot))
    (Nat.dvd_mul_left ..)

/-- `dl_window_free`. -/
theorem Inv.windowFree {vaddr size : ℕ} (h : Inv fr s) (hi : i < s.count) :
    Inv fr (s.windowFree w i vaddr size).2 ∧ Returns s (s.windowFree w i vaddr size).2 ∧
      (rangeOk w vaddr size = true → ∀ slot < slots, covers w vaddr (vaddr + size) slot = true →
        ((s.windowFree w i vaddr size).2.spaces i).used slot = false ∧
        ∀ v ∈ pagesOf w slot, (s.windowFree w i vaddr size).2.pte i v = none) := by
  rw [Dl.windowFree]
  split_ifs with hr
  · refine ⟨h, returns h.core h.core fun f hf => List.mem_append_right _ hf, fun hok => ?_⟩
    rw [hr] at hok
    cases hok
  · rw [Bool.not_eq_false] at hr
    have hd := @unmapRange_drops b w fr s i (pagesIn b vaddr size) h.core
    obtain ⟨l, hl⟩ : ∃ l, l = (List.range slots).filter fun slot =>
      (vaddr - w.base) / slotSize ≤ slot ∧ w.base + slot * slotSize < vaddr + size := ⟨_, rfl⟩
    obtain ⟨hm, hu⟩ := @markAll (s.unmapRange w i (pagesIn b vaddr size)) i
      (covers w vaddr (vaddr + size)) id false l
    simp only [← hl]
    obtain ⟨t, ht⟩ : ∃ t, t = l.foldl (fun s slot =>
      if covers w vaddr (vaddr + size) slot then s.slotMark i slot false else s)
      (s.unmapRange w i (pagesIn b vaddr size)) := ⟨_, rfl⟩
    simp only [id_eq] at hm hu
    rw [← ht] at hm hu ⊢
    have hcore := hm.core hd.core
    refine ⟨⟨hcore, fun j u hju => ?_, fun j slot hused => ?_, fun j hj => ?_⟩, ?_, ?_⟩
    · rw [hm.pte, hd.pte] at hju
      split_ifs at hju with hc
      · cases hju
      · obtain ⟨slot, hv, hused⟩ := h.marked j u hju
        refine ⟨slot, hv, ?_⟩
        rw [hu, if_neg, hd.used, hused]
        rintro ⟨hji, k, -, hcov, rfl⟩
        exact hc ⟨hji, covered hr hcov hv⟩
    · rw [hu, hd.used] at hused
      split_ifs at hused
      exact h.small j slot hused
    · rw [hm.count, hd.count] at hj
      have hne : j ≠ i := by omega
      refine ⟨fun u => ?_, fun slot => ?_⟩
      · rw [hm.pte, hd.pte, if_neg fun hc => hne hc.1]
        exact (h.fresh j hj).1 u
      · rw [hu, if_neg fun hc => hne hc.1, hd.used]
        exact (h.fresh j hj).2 slot
    · refine returns h.core hcore fun f hf => ?_
      rw [hm.tables, hm.outside, hd.tables, hd.outside] at hf
      exact List.mem_append_right _ hf
    · intro _ slot hslot hcov
      refine ⟨?_, fun v hv => ?_⟩
      · rw [hu, if_pos]
        refine ⟨rfl, slot, ?_, hcov, rfl⟩
        rw [covers, decide_eq_true_eq] at hcov
        rw [hl, List.mem_filter, decide_eq_true_eq]
        refine ⟨List.mem_range.mpr hslot, ?_, ?_⟩
        · exact Nat.div_le_of_le_mul (by rw [Nat.mul_comm]; omega)
        · have : 0 < slotSize := by decide
          omega
      · rw [hm.pte, hd.pte, if_pos ⟨rfl, covered hr hcov hv⟩]

/-! ### Releasing and cloning -/

/-- `t` is `s` with the used slots of `l` emptied. -/
structure Swept (fr : Frames w) (i : ℕ) (l : List ℕ) (s t : Dl) : Prop where
  core : Core fr t
  pte : ∀ j u, t.pte j u = s.pte j u ∨ (j = i ∧ t.pte j u = none)
  gone : ∀ slot ∈ l, (s.spaces i).used slot = true → ∀ v ∈ pagesOf w slot, t.pte i v = none
  used : ∀ j slot, (t.spaces j).used slot = if j = i ∧ slot ∈ l then false else (s.spaces j).used slot
  tables : t.tables = s.tables
  outside : t.outside = s.outside
  count : t.count = s.count

theorem swept (h : Core fr s) (l : List ℕ) : Swept fr i l s (l.foldl (fun s slot =>
    if (s.spaces i).used slot then (s.unmapRange w i (pagesOf w slot)).slotMark i slot false else s)
    s) := by
  induction l generalizing s with
  | nil =>
    exact ⟨h, fun _ _ => .inl rfl, nofun, fun j slot => by rw [if_neg (by simp)]; rfl, rfl, rfl, rfl⟩
  | cons a l ih =>
    rw [List.foldl_cons]
    split_ifs with ha
    · have hd := @unmapRange_drops b w fr s i (pagesOf w a) h
      obtain ⟨s₁, hs₁⟩ : ∃ s₁, s₁ = (s.unmapRange w i (pagesOf w a)).slotMark i a false := ⟨_, rfl⟩
      have hpte : ∀ j u, s₁.pte j u = if j = i ∧ u ∈ pagesOf w a then none else s.pte j u := by
        intro j u
        rw [hs₁, pte_slotMark, hd.pte]
      have hlook : look s₁ = look (s.unmapRange w i (pagesOf w a)) := by
        funext x
        rw [look, look, hs₁, pte_slotMark]
      have hcore : Core fr s₁ := by
        rw [Core, hlook, hs₁]
        exact hd.core
      have hused : ∀ j slot, (s₁.spaces j).used slot =
          if j = i ∧ slot = a then false else (s.spaces j).used slot := by
        intro j slot
        rw [hs₁, used_slotMark, hd.used]
      rw [← hs₁]
      obtain ⟨hc, hp, hg, hu, htab, hout, hcount⟩ := ih hcore
      refine ⟨hc, fun j u => ?_, fun slot hslot hus v hv => ?_, fun j slot => ?_, ?_, ?_, ?_⟩
      · rcases hp j u with he | he
        · rw [he, hpte]
          split_ifs with hcond
          · exact .inr ⟨hcond.1, rfl⟩
          · exact .inl rfl
        · exact .inr he
      · rcases eq_or_ne slot a with rfl | hne
        · rcases hp i v with he | he
          · rw [he, hpte, if_pos ⟨rfl, hv⟩]
          · exact he.2
        · refine hg slot ((List.mem_cons.mp hslot).resolve_left hne) ?_ v hv
          rw [hused, if_neg fun hcond => hne hcond.2, hus]
      · rw [hu, hused]
        simp only [List.mem_cons]
        split_ifs <;> first | rfl | tauto
      · rw [htab, hs₁]
        exact hd.tables
      · rw [hout, hs₁]
        exact hd.outside
      · rw [hcount, hs₁]
        exact hd.count
    · obtain ⟨hc, hp, hg, hu, htab, hout, hcount⟩ := ih h
      refine ⟨hc, hp, fun slot hslot hus => ?_, fun j slot => ?_, htab, hout, hcount⟩
      · rcases List.mem_cons.mp hslot with rfl | hslot
        · exact absurd hus ha
        · exact hg slot hslot hus
      · rw [hu]
        simp only [List.mem_cons]
        split_ifs with h₁ h₂ h₂
        · rfl
        · exact absurd ⟨h₁.1, .inr h₁.2⟩ h₂
        · obtain ⟨rfl, rfl | hin⟩ := h₂
          · rwa [Bool.not_eq_true] at ha
          · exact absurd ⟨rfl, hin⟩ h₁
        · rfl

/-- `dl_window_release`. -/
theorem Inv.windowRelease (h : Inv fr s) : Inv fr (s.windowRelease w i) ∧
    Returns s (s.windowRelease w i) ∧ Swept fr i (List.range slots) s (s.windowRelease w i) ∧
    (∀ v, (s.windowRelease w i).pte i v = none) ∧
    ∀ slot, ((s.windowRelease w i).spaces i).used slot = false := by
  have hs := @swept b w fr s i h.core (List.range slots)
  change Swept fr i (List.range slots) s (s.windowRelease w i) at hs
  obtain ⟨t, ht⟩ : ∃ t, t = s.windowRelease w i := ⟨_, rfl⟩
  rw [← ht] at hs ⊢
  have hnone : ∀ v, t.pte i v = none := by
    intro v
    cases hv : s.pte i v with
    | none =>
      rcases hs.pte i v with he | he
      · rw [he, hv]
      · exact he.2
    | some e =>
      obtain ⟨slot, hin, hus⟩ := h.marked i v (by rw [hv]; rfl)
      exact hs.gone slot (List.mem_range.mpr (h.small i slot hus)) hus v hin
  have hclear : ∀ slot, (t.spaces i).used slot = false := by
    intro slot
    rw [hs.used]
    split_ifs with hc
    · rfl
    · by_contra hus
      rw [Bool.not_eq_false] at hus
      exact hc ⟨rfl, List.mem_range.mpr (h.small i slot hus)⟩
  have hother : ∀ j, j ≠ i → (∀ u, t.pte j u = s.pte j u) ∧
      ∀ slot, (t.spaces j).used slot = (s.spaces j).used slot := by
    intro j hj
    refine ⟨fun u => ?_, fun slot => ?_⟩
    · rcases hs.pte j u with he | he
      · exact he
      · exact absurd he.1 hj
    · rw [hs.used, if_neg fun hc => hj hc.1]
  refine ⟨⟨hs.core, fun j u hju => ?_, fun j slot hus => ?_, fun j hj => ?_⟩, ?_, hs, hnone, hclear⟩
  · rcases eq_or_ne j i with rfl | hj
    · rw [hnone] at hju
      cases hju
    · rw [(hother j hj).1] at hju
      obtain ⟨slot, hin, hus⟩ := h.marked j u hju
      exact ⟨slot, hin, ((hother j hj).2 slot).trans hus⟩
  · rcases eq_or_ne j i with rfl | hj
    · rw [hclear] at hus
      cases hus
    · rw [(hother j hj).2] at hus
      exact h.small j slot hus
  · rcases eq_or_ne j i with rfl | hji
    · exact ⟨hnone, hclear⟩
    · rw [hs.count] at hj
      refine ⟨fun u => ?_, fun slot => ?_⟩
      · rw [(hother j hji).1]
        exact (h.fresh j hj).1 u
      · rw [(hother j hji).2]
        exact (h.fresh j hj).2 slot
  · refine returns h.core hs.core fun f hf => ?_
    rw [hs.tables, hs.outside] at hf
    exact List.mem_append_right _ hf

/-- Whether a page is mapped. -/
def mapped (s : Dl) (i v : ℕ) : Bool := (s.pte i v).isSome

/-- With `n` pages of memory a clone of the slots `l` runs dry, if at all, at the first page of a
    slot. -/
def clean (w : Window b) (need : ℕ → ℕ) (used mapped : ℕ → Bool) : ℕ → List ℕ → Bool
  | _, [] => true
  | n, slot :: l =>
    if used slot then
      let vs := (pagesOf w slot).filter mapped
      match vs with
      | [] => clean w need used mapped n l
      | v :: _ => n < 1 + need v || (cost need vs ≤ n && clean w need used mapped (n - cost need vs) l)
    else clean w need used mapped n l

variable {dst src : ℕ} {need : ℕ → ℕ}

/-- Memory suffices for the pages of a slot. -/
theorem clonePages_ok {vs : List ℕ} (h : Core fr s) (hne : dst ≠ src) (hnd : vs.Nodup)
    (hv : ∀ v ∈ vs, s.pte dst v = none) (hc : cost need (vs.filter (mapped s src)) ≤ s.free.length) :
    ∃ t, clonePages w dst src need vs s = (true, t) ∧
      Grows fr dst (vs.filter (mapped s src)) s t ∧
      t.free.length = s.free.length - cost need (vs.filter (mapped s src)) := by
  induction vs generalizing s with
  | nil => exact ⟨s, rfl, .refl h, rfl⟩
  | cons v vs ih =>
    obtain ⟨hout, hnd⟩ := List.nodup_cons.mp hnd
    cases he : s.pte src v with
    | none =>
      have hm : mapped s src v = false := by rw [mapped, he]; rfl
      rw [List.filter_cons, hm] at hc ⊢
      simp only [clonePages, he]
      exact ih h hnd (fun u hu => hv u (List.mem_cons_of_mem v hu)) hc
    | some e =>
      have hm : mapped s src v = true := by rw [mapped, he]; rfl
      rw [List.filter_cons, hm, if_pos rfl] at hc ⊢
      rw [cost_cons] at hc ⊢
      obtain ⟨l, hl⟩ : ∃ l, s.free = l := ⟨_, rfl⟩
      cases l with
      | nil =>
        rw [hl, List.length_nil] at hc
        omega
      | cons f l =>
        rw [hl, List.length_cons] at hc
        obtain ⟨t, ht, hg, hlen⟩ := clonePteProt_grows e h hl
          (hv v List.mem_cons_self) (show need v ≤ l.length by omega)
        have hother : ∀ u, t.pte src u = s.pte src u := fun u =>
          hg.other src u fun hc => hne hc.1.symm
        have hmap : mapped t src = mapped s src := funext fun u => by rw [mapped, mapped, hother]
        have hrest : ∀ u ∈ vs, t.pte dst u = none := by
          intro u hu
          rw [hg.other dst u fun hc => hout (List.mem_singleton.mp hc.2 ▸ hu)]
          exact hv u (List.mem_cons_of_mem v hu)
        obtain ⟨t', ht', hg', hlen'⟩ := ih hg.core hnd hrest (by rw [hmap]; omega)
        rw [hmap] at hg' hlen'
        refine ⟨t', ?_, hg.trans hg', ?_⟩
        · simp only [clonePages, he, kallocPage, hl, ht, ht']
        · rw [hl, List.length_cons]
          omega

/-- Memory does not suffice for the first page of a slot. -/
theorem clonePages_dry {vs vs' : List ℕ} (dst : ℕ) (h : Core fr s)
    (hf : vs.filter (mapped s src) = v :: vs') (hn : s.free.length < 1 + need v) :
    ∃ t, clonePages w dst src need vs s = (false, t) ∧ Grows fr dst [] s t := by
  induction vs with
  | nil => cases hf
  | cons u vs ih =>
    cases he : s.pte src u with
    | none =>
      have hm : mapped s src u = false := by rw [mapped, he]; rfl
      rw [List.filter_cons, hm] at hf
      simp only [clonePages, he]
      exact ih hf
    | some e =>
      have hm : mapped s src u = true := by rw [mapped, he]; rfl
      rw [List.filter_cons, hm, if_pos rfl] at hf
      cases hf
      obtain ⟨l, hl⟩ : ∃ l, s.free = l := ⟨_, rfl⟩
      cases l with
      | nil =>
        refine ⟨s, ?_, .refl h⟩
        simp only [clonePages, he, kallocPage, hl]
      | cons f l =>
        rw [hl, List.length_cons] at hn
        have hfail : l.length < need v := by omega
        obtain ⟨t, ht, hg⟩ := mapPageRef_fails dst v e.ap h hl hfail
        refine ⟨t.kfreePage f, ?_, hg⟩
        simp only [clonePages, he, kallocPage, hl, clonePteProt, ht]

/-- Only the space `dst` has changed, and only free pages went into it. -/
structure Copies (dst : ℕ) (s t : Dl) : Prop where
  pte : ∀ j u, j ≠ dst → t.pte j u = s.pte j u
  used : ∀ j, j ≠ dst → (t.spaces j).used = (s.spaces j).used
  taken : ∀ f ∈ t.free ++ t.tables, f ∈ s.free ++ s.tables
  outside : t.outside = s.outside
  count : t.count = s.count

theorem Copies.trans {t : Dl} (h : Copies dst s s') (h' : Copies dst s' t) : Copies dst s t :=
  ⟨fun j u hj => (h'.pte j u hj).trans (h.pte j u hj), fun j hj => (h'.used j hj).trans (h.used j hj),
    fun f hf => h.taken f (h'.taken f hf), h'.outside.trans h.outside, h'.count.trans h.count⟩

theorem Grows.copies {vs : List ℕ} {t : Dl} (h : Grows fr dst vs s t) : Copies dst s t :=
  ⟨fun j u hj => h.other j u fun hc => hj hc.1, fun j _ => h.used j, h.taken, h.outside, h.count⟩

/-- A slot is filled and then marked. -/
theorem Inv.copied {vs : List ℕ} {t : Dl} (h : Inv fr s) (hd : dst < s.count) (hslot : slot < slots)
    (hvs : ∀ v ∈ vs, v ∈ pagesOf w slot) (hg : Grows fr dst vs s t) :
    Inv fr (t.slotMark dst slot true) ∧ Copies dst s (t.slotMark dst slot true) := by
  have hlook : look (t.slotMark dst slot true) = look t := by
    funext x
    rw [look, look, pte_slotMark]
  have hcore : Core fr (t.slotMark dst slot true) := by
    rw [Core, hlook]
    exact hg.core
  refine ⟨⟨hcore, fun j u hju => ?_, fun j n hus => ?_, fun j hj => ?_⟩, fun j u hj => ?_,
    fun j hj => ?_, hg.taken, hg.outside, hg.count⟩
  · rw [pte_slotMark] at hju
    by_cases hc : j = dst ∧ u ∈ vs
    · refine ⟨slot, hvs u hc.2, ?_⟩
      rw [used_slotMark, if_pos ⟨hc.1, rfl⟩]
    · rw [hg.other j u hc] at hju
      obtain ⟨n, hin, hus⟩ := h.marked j u hju
      refine ⟨n, hin, ?_⟩
      rw [used_slotMark, hg.used, hus, ite_self]
  · rw [used_slotMark, hg.used] at hus
    split_ifs at hus with hc
    · exact hc.2 ▸ hslot
    · exact h.small j n hus
  · have hj' : s.count ≤ j := hg.count ▸ hj
    have hne : j ≠ dst := by omega
    refine ⟨fun u => ?_, fun n => ?_⟩
    · rw [pte_slotMark, hg.other j u fun hc => hne hc.1]
      exact (h.fresh j hj').1 u
    · rw [used_slotMark, if_neg fun hc => hne hc.1, hg.used]
      exact (h.fresh j hj').2 n
  · rw [pte_slotMark]
    exact hg.other j u fun hc => hj hc.1
  · funext n
    rw [used_slotMark, if_neg fun hc => hj hc.1, hg.used]

theorem Grows.spaces {t : Dl} (h : Grows fr i [] s t) : t.spaces = s.spaces :=
  funext fun j => Space.ext (funext fun u => h.other j u fun hc => List.not_mem_nil hc.2) (h.used j)

theorem nodup_pagesOf : (pagesOf w slot).Nodup := by
  refine List.Pairwise.map _ (fun x y hne he => hne ?_) List.nodup_range
  exact Nat.eq_of_mul_eq_mul_right Build.page_pos (Nat.add_left_cancel he)

/-- What `clean` asks of the first slot. -/
theorem clean_cons {l : List ℕ} {used mapped : ℕ → Bool} (hu : used slot = true)
    (hc : clean w need used mapped n (slot :: l) = true) :
    (cost need ((pagesOf w slot).filter mapped) ≤ n ∧
      clean w need used mapped (n - cost need ((pagesOf w slot).filter mapped)) l = true) ∨
    ∃ v vs, (pagesOf w slot).filter mapped = v :: vs ∧ n < 1 + need v := by
  rw [clean, if_pos hu] at hc
  cases hf : (pagesOf w slot).filter mapped with
  | nil =>
    simp only [hf] at hc
    exact .inl ⟨Nat.zero_le n, hc⟩
  | cons v vs =>
    simp only [hf, Bool.or_eq_true, Bool.and_eq_true, decide_eq_true_eq] at hc
    rcases hc with hc | hc
    · exact .inr ⟨v, vs, rfl, hc⟩
    · exact .inl hc

theorem cloneSlots_spec {l : List ℕ} (h : Inv fr s) (hd : dst < s.count) (hne : dst ≠ src)
    (hnd : l.Nodup) (hl : ∀ slot ∈ l, slot < slots ∧ (s.spaces dst).used slot = false)
    (hc : clean w need (s.spaces src).used (mapped s src) s.free.length l = true) :
    ∃ ok t, cloneSlots w dst src need l s = (ok, t) ∧ Inv fr t ∧ Copies dst s t := by
  induction l generalizing s with
  | nil => exact ⟨true, s, rfl, h, (Grows.refl h.core).copies⟩
  | cons slot l ih =>
    obtain ⟨hout, hnd⟩ := List.nodup_cons.mp hnd
    obtain ⟨hslot, hfree⟩ := hl slot List.mem_cons_self
    by_cases hu : (s.spaces src).used slot = true
    · rcases clean_cons hu hc with ⟨hcost, hrest⟩ | ⟨v, vs, hf, hdry⟩
      · obtain ⟨t, ht, hg, hlen⟩ := clonePages_ok h.core hne nodup_pagesOf
          (fun v hv => h.hole hv hfree) hcost
        obtain ⟨hi, hcp⟩ := h.copied hd hslot (fun v hv => (List.mem_filter.mp hv).1) hg
        have hmap : mapped (t.slotMark dst slot true) src = mapped s src :=
          funext fun u => by rw [mapped, mapped, hcp.pte src u hne.symm]
        have hleft : ∀ n ∈ l, n < slots ∧
            ((t.slotMark dst slot true).spaces dst).used n = false := by
          intro n hn
          obtain ⟨hlt, hus⟩ := hl n (List.mem_cons_of_mem slot hn)
          have hns : ¬(dst = dst ∧ n = slot) := fun hc => hout (hc.2 ▸ hn)
          refine ⟨hlt, ?_⟩
          rw [used_slotMark, if_neg hns, hg.used, hus]
        obtain ⟨ok, t', ht', hi', hcp'⟩ := ih hi (hcp.count ▸ hd) hnd hleft
          (by rw [hmap, hcp.used src hne.symm]; exact hlen ▸ hrest)
        refine ⟨ok, t', ?_, hi', hcp.trans hcp'⟩
        rw [cloneSlots, if_pos hu, ht]
        exact ht'
      · obtain ⟨t, ht, hg⟩ := clonePages_dry dst h.core hf hdry
        refine ⟨false, t, ?_, h.congr hg.core hg.spaces hg.count, hg.copies⟩
        rw [cloneSlots, if_pos hu, ht]
    · rw [clean, if_neg hu] at hc
      rw [cloneSlots, if_neg hu]
      exact ih h hd hnd (fun n hn => hl n (List.mem_cons_of_mem slot hn)) hc

/-- `dl_window_clone` into a new space: filled, or nothing has changed. -/
theorem Inv.windowClone (h : Inv fr s) (hsrc : src < s.count)
    (hc : clean w need (s.spaces src).used (mapped s src) s.free.length (List.range slots) = true) :
    Inv fr (({ s with count := s.count + 1 } : Dl).windowClone w s.count src need).2 ∧
      Returns s (({ s with count := s.count + 1 } : Dl).windowClone w s.count src need).2 ∧
      ((({ s with count := s.count + 1 } : Dl).windowClone w s.count src need).1 = false →
        Undone s (({ s with count := s.count + 1 } : Dl).windowClone w s.count src need).2) := by
  obtain ⟨s₁, hs₁⟩ : ∃ s₁ : Dl, s₁ = { s with count := s.count + 1 } := ⟨_, rfl⟩
  obtain ⟨hnone, hclear⟩ := h.fresh s.count le_rfl
  have hi : Inv fr s₁ := by
    rw [hs₁]
    exact ⟨h.core, h.marked, h.small, fun j hj => h.fresh j (by have : s.count + 1 ≤ j := hj; omega)⟩
  have hcount : s₁.count = s.count + 1 := by rw [hs₁]
  have hspaces : s₁.spaces = s.spaces := by rw [hs₁]
  have hfree : s₁.free = s.free := by rw [hs₁]
  have hmap : mapped s₁ src = mapped s src := funext fun u => by
    rw [mapped, mapped, pte, pte, hspaces]
  obtain ⟨ok, t, ht, hit, hcp⟩ := @cloneSlots_spec b w fr s₁ s.count src need (List.range slots) hi
    (by omega) (by omega) List.nodup_range
    (fun slot hslot => ⟨List.mem_range.mp hslot, by rw [hspaces]; exact hclear slot⟩)
    (by rw [hmap, hspaces, hfree]; exact hc)
  have hsub : ∀ f ∈ t.tables ++ t.outside, f ∈ rest s := by
    intro f hf
    rw [hcp.outside, hs₁] at hf
    rw [rest, ← List.append_assoc]
    rcases List.mem_append.mp hf with hf | hf
    · have hin := hcp.taken f (List.mem_append_right _ hf)
      rw [hs₁] at hin
      exact List.mem_append_left _ hin
    · exact List.mem_append_right _ hf
  rw [← hs₁, Dl.windowClone, cloneOver, ht]
  cases ok with
  | true => exact ⟨hit, returns h.core hit.core hsub, Bool.noConfusion⟩
  | false =>
    obtain ⟨hir, -, hsw, hnone', hclear'⟩ := @Inv.windowRelease b w fr t s.count hit
    dsimp only
    generalize t.windowRelease w s.count = r at *
    refine ⟨hir, returns h.core hir.core fun f hf => hsub f ?_, fun _ => ?_⟩
    · rwa [hsw.tables, hsw.outside] at hf
    · refine undone h.core hir.core ?_ (fun j => ?_) fun j u => ?_
      · rw [hsw.outside, hcp.outside, hs₁]
      · funext slot
        rcases eq_or_ne j s.count with rfl | hj
        · rw [hclear', hclear]
        · rw [hsw.used, if_neg fun hc => hj hc.1, hcp.used j hj, hs₁]
      · rcases eq_or_ne j s.count with rfl | hj
        · rw [hnone', hnone]
        · rcases hsw.pte j u with he | he
          · rw [he, hcp.pte j u hj, hs₁]
            rfl
          · exact absurd he.1 hj

/-! ### Whole runs -/

/-- No clone runs dry in the middle of a slot. -/
def Ample (w : Window b) (s : Dl) : Op → Prop
  | .clone src need =>
    clean w need (s.spaces src).used (mapped s src) s.free.length (List.range slots) = true
  | _ => True

/-- What is promised of the pages. -/
structure Sound (fr : Frames w) (s : Dl) : Prop where
  marked : ∀ i v, (s.pte i v).isSome →
    ∃ slot < slots, v ∈ pagesOf w slot ∧ (s.spaces i).used slot = true
  counted : ∀ f ∈ fr.list, s.refs f = Set.ncard {x | look s x = some f}
  nodup : (rest s).Nodup
  conserved : ∀ f, f ∈ fr.list ↔ (f ∈ rest s ∧ ∀ x, look s x ≠ some f) ∨
    (f ∉ rest s ∧ ∃ x, look s x = some f)

/-- What is promised of a call, whose result is looked at where it has one. -/
def Kept (w : Window b) (s s' : Dl) : Op → Prop
  | .alloc i size prot need =>
    let size := size % 2 ^ 32
    let prot := prot % 2 ^ 32
    (s.windowAlloc w i size prot need).1 = 0 → Undone s s' ∧
      (protOk prot = true → 0 < size → size ≤ windowSize →
        (∀ start, start + slotsFor size ≤ slots →
          ∃ k < slotsFor size, (s.spaces i).used (start + k) = true) ∨
        ∃ start, s.free.length < cost need (Inv.runPages w start (slotsFor size)))
  | .free i vaddr size =>
    let vaddr := vaddr % b.top
    let size := size % 2 ^ 32
    rangeOk w vaddr size = true → ∀ slot < slots, covers w vaddr (vaddr + size) slot = true →
      (s'.spaces i).used slot = false ∧ ∀ v ∈ pagesOf w slot, s'.pte i v = none
  | .clone src need =>
    (({ s with count := s.count + 1 } : Dl).windowClone w s.count src need).1 = false → Undone s s'
  | .release i => ∀ v, s'.pte i v = none
  | _ => True

theorem Inv.sound (h : Inv fr s) : Sound fr s := by
  refine ⟨fun i v hv => ?_, fun f hf => h.core.refs_eq hf, h.core.nodup, fun f => ?_⟩
  · obtain ⟨slot, hin, hus⟩ := h.marked i v hv
    exact ⟨slot, h.small i slot hus, hin, hus⟩
  · rw [h.core.all f]
    constructor
    · rintro (hf | ⟨x, hx⟩)
      · exact .inl ⟨hf, fun x hx => h.core.apart x f hx hf⟩
      · exact .inr ⟨h.core.apart x f hx, x, hx⟩
    · rintro (⟨hf, -⟩ | ⟨-, hx⟩)
      · exact .inl hf
      · exact .inr hx

/-- Pages change hands outside the window. -/
theorem Inv.rest_perm (h : Inv fr s) (hs : s'.spaces = s.spaces) (hr : s'.refs = s.refs)
    (hp : (rest s').Perm (rest s)) (hn : s.count ≤ s'.count) : Inv fr s' ∧ Returns s s' := by
  have hpte : ∀ j u, s'.pte j u = s.pte j u := fun j u => by rw [pte, pte, hs]
  have hlook : look s' = look s := funext fun x => by rw [look, look, hpte]
  refine ⟨⟨?_, fun j u => ?_, fun j slot => ?_, fun j hj => ?_⟩, ?_⟩
  · rw [Core, hlook, hr]
    exact Counted.perm h.core hp
  · rw [hpte, hs]
    exact h.marked j u
  · rw [hs]
    exact h.small j slot
  · rw [hs]
    exact ⟨fun u => (hpte j u).trans ((h.fresh j (hn.trans hj)).1 u), (h.fresh j (hn.trans hj)).2⟩
  · rintro f ⟨x, hx⟩ hgone
    exact absurd (hlook ▸ hx) (hgone x)

theorem Inv.step {o : Op} (h : Inv fr s) (hok : Ample w s o) (hst : step w s o = some s') :
    Inv fr s' ∧ Returns s s' ∧ Kept w s s' o := by
  cases o with
  | alloc i size prot need =>
    rw [Dl.step] at hst
    split_ifs at hst with hi
    cases hst
    exact h.windowAlloc hi
  | protect i vaddr size prot =>
    rw [Dl.step] at hst
    split_ifs at hst with hi
    cases hst
    exact ⟨h.windowProtect.1, h.windowProtect.2, trivial⟩
  | free i vaddr size =>
    rw [Dl.step] at hst
    split_ifs at hst with hi
    cases hst
    exact h.windowFree hi
  | clone src need =>
    rw [Dl.step] at hst
    split_ifs at hst with hi
    rw [Option.some.injEq] at hst
    subst hst
    exact h.windowClone hi hok
  | release i =>
    rw [Dl.step] at hst
    split_ifs at hst with hi
    rw [Option.some.injEq] at hst
    subst hst
    obtain ⟨hinv, hret, -, hnone, -⟩ := @Inv.windowRelease b w fr s i h
    exact ⟨hinv, hret, hnone⟩
  | spawn =>
    cases hst
    obtain ⟨hinv, hret⟩ := @Inv.rest_perm b w fr s { s with count := s.count + 1 } h rfl rfl
      (List.Perm.refl _) (Nat.le_succ _)
    exact ⟨hinv, hret, trivial⟩
  | take =>
    rw [Dl.step] at hst
    split at hst
    · cases hst
      obtain ⟨hinv, hret⟩ := h.rest_perm rfl rfl (List.Perm.refl _) le_rfl
      exact ⟨hinv, hret, trivial⟩
    · rename_i f l hfree
      cases hst
      have hperm : (l ++ (s.tables ++ f :: s.outside)).Perm (rest s) := by
        rw [rest, hfree, List.cons_append, ← List.append_assoc, ← List.append_assoc]
        exact List.perm_middle
      obtain ⟨hinv, hret⟩ := @Inv.rest_perm b w fr s
        { s with free := l, outside := f :: s.outside } h rfl rfl hperm le_rfl
      exact ⟨hinv, hret, trivial⟩
  | give f =>
    rw [Dl.step] at hst
    split_ifs at hst with hf
    cases hst
    have hperm : (f :: s.free ++ (s.tables ++ s.outside.erase f)).Perm (rest s) := by
      rw [rest, ← List.append_assoc, ← List.append_assoc, List.cons_append]
      refine List.perm_middle.symm.trans ?_
      exact List.Perm.append_left _ (List.perm_cons_erase hf).symm
    obtain ⟨hinv, hret⟩ := @Inv.rest_perm b w fr s
      { s with free := f :: s.free, outside := s.outside.erase f } h rfl rfl hperm le_rfl
    exact ⟨hinv, hret, trivial⟩

theorem Inv.boot : Inv fr (Dl.boot fr.list) := by
  refine ⟨⟨nofun, nofun, fun _ _ => rfl, ?_, nofun, fun f => ?_⟩, nofun, nofun,
    fun _ _ => ⟨fun _ => rfl, fun _ => rfl⟩⟩
  · rw [rest]
    simpa [Dl.boot] using fr.nodup
  · rw [rest]
    simp [Dl.boot, look, pte]

/-- In every run whose clones do not run dry in the middle of a slot the window conserves pages, and
    every further call keeps its promise. -/
theorem window_conserves (hr : Reach (Dl.step w) (Ample w) (Dl.boot fr.list) s) :
    Sound fr s ∧ ∀ o s', Ample w s o → Dl.step w s o = some s' → Returns s s' ∧ Kept w s s' o := by
  have h : Inv fr s := hr.inv Inv.boot fun _ _ _ hi hok hst => (hi.step hok hst).1
  exact ⟨h.sound, fun o s' hok hst => (h.step hok hst).2⟩

end

/-- 4K pages and 64 bits. -/
def small : Build := ⟨12, 64, shift_4k, bits_64⟩

/-- A window at 512M over 40 frames. -/
def pane : Window small := ⟨0x20000000, by decide, by decide, by decide, true, 40, 40⟩

def forty : Frames pane := ⟨List.range 40, List.nodup_range, fun _ => List.mem_range.mp⟩

/-- One slot is mapped and its space cloned; 24 frames are enough. -/
def session : List Op := [.spawn, .alloc 0 1000 3 fun _ => 0, .clone 0 fun _ => 0]

instance (s : Dl) : DecidablePred (Ample pane s)
  | .alloc .. | .protect .. | .free .. | .release _ | .spawn | .take | .give _ =>
    inferInstanceAs (Decidable True)
  | .clone .. => inferInstanceAs (Decidable (_ = true))

theorem window_conserves_session : ∃ s : Dl, s.free = (List.range 40).drop 32 ∧ Sound forty s := by
  have hrun : (runIf (Dl.step pane) (fun s o => decide (Ample pane s o)) (Dl.boot forty.list)
      session).map (fun s => s.free) = some ((List.range 40).drop 32) := by decide +kernel
  obtain ⟨s, hs, hfree⟩ := Option.map_eq_some_iff.mp hrun
  exact ⟨s, hfree, (window_conserves (reach_of_runIf hs fun _ _ => of_decide_eq_true)).1⟩

/-- A slot is mapped, its first page unmapped, then the others. -/
def piecemeal : List Op :=
  [.spawn, .alloc 0 0x10000 3 fun _ => 0, .free 0 0x20000000 0x1000, .free 0 0x20001000 0xf000]

/-- No page of the slot is left, all frames are free, and yet the slot is not handed out again. -/
theorem piecemeal_taken : ∃ s, Reach (Dl.step pane) Free (Dl.boot forty.list) s ∧
    (∀ v ∈ pagesOf pane 0, s.pte 0 v = none) ∧ s.free.length = 40 ∧
    (s.spaces 0).used 0 = true ∧ (s.windowAlloc pane 0 0x10000 3 fun _ => 0).1 = 0x20010000 := by
  have hrun : (runOps (Dl.step pane) (Dl.boot forty.list) piecemeal).map (fun s =>
      decide (∀ v ∈ pagesOf pane 0, s.pte 0 v = none) && decide (s.free.length = 40) &&
        (s.spaces 0).used 0 &&
        decide ((s.windowAlloc pane 0 0x10000 3 fun _ => 0).1 = 0x20010000)) = some true := by
    decide +kernel
  obtain ⟨s, hs, hbad⟩ := Option.map_eq_some_iff.mp hrun
  simp only [Bool.and_eq_true, decide_eq_true_eq] at hbad
  exact ⟨s, reach_of_runOps hs, hbad.1.1.1, hbad.1.1.2, hbad.1.2, hbad.2⟩

end EwokOS.Memory.Dl
