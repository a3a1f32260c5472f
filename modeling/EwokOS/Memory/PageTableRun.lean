import EwokOS.Memory.PageTable
import Mathlib.Data.List.Perm.Basic

/-! What the page tables keep, call by call.

    A page is at the end of a path of indices, and of all paths of all spaces in use no two find one table
    (`Sound.once`), though pages become tables with whatever was in them:

        r ─path─▶ table ─slot─▶ entry        look b s r v = some entry

    So what is written for one page is seen at that page only (`Sound.write`), and a space that goes gives back
    its own tables (`Sound.freePageTables`). -/

namespace EwokOS.Memory.Mmu

open Schemes Tables

section
variable (b : Build)

/-- The indices on the way to the entry of a page, by page number. -/
def pathOf (v : ℕ) : List ℕ :=
  if b.pageShift = 16 then [v / pageDirNum b % pageDirNum b]
  else [v / pageDirNum b / pageDirNum b % pageDirNum b, v / pageDirNum b % pageDirNum b]

def slotOf (v : ℕ) : ℕ := v % pageDirNum b

/-- The levels below the root. -/
def depth : ℕ := if b.pageShift = 16 then 1 else 2

/-- The pages of the lower half. -/
def userPages : ℕ := kernelBase / b.page

def kernelRoot : ℕ := pageRootIndex b kernelBase

end

variable {b : Build}

theorem pageDirNum_pos : 0 < pageDirNum b := Nat.two_pow_pos _

theorem pageL3Index_eq (va : ℕ) : pageL3Index b va = slotOf b (va / b.page) := rfl

theorem pageL2Index_eq (va : ℕ) : pageL2Index b va = va / b.page / pageDirNum b % pageDirNum b := by
  rw [pageL2Index, Nat.pow_add, ← Nat.div_div_eq_div_mul]
  rfl

theorem pageL1Index_eq (va : ℕ) : pageL1Index b va = va / b.page / pageDirNum b / pageDirNum b % pageDirNum b := by
  rw [pageL1Index, Nat.pow_add, Nat.pow_add, ← Nat.div_div_eq_div_mul, ← Nat.div_div_eq_div_mul]
  rfl

/-- The numbers of the three page sizes. -/
theorem sizes : (b.pageShift = 12 ∧ pageDirNum b = 512 ∧ userPages b = 2 ^ 26 ∧ kernelRoot b = 256) ∨
    (b.pageShift = 14 ∧ pageDirNum b = 2048 ∧ userPages b = 2 ^ 24 ∧ kernelRoot b = 4) ∨
    (b.pageShift = 16 ∧ pageDirNum b = 8192 ∧ userPages b = 2 ^ 22 ∧ kernelRoot b = 512) := by
  rcases b.shift_mem with h | h | h
  · refine .inl ⟨h, ?_, ?_, ?_⟩ <;>
      simp [pageDirNum, levelBits, userPages, kernelRoot, pageRootIndex, pageL1Index, kernelBase, Build.page, h]
  · refine .inr (.inl ⟨h, ?_, ?_, ?_⟩) <;>
      simp [pageDirNum, levelBits, userPages, kernelRoot, pageRootIndex, pageL1Index, kernelBase, Build.page, h]
  · refine .inr (.inr ⟨h, ?_, ?_, ?_⟩) <;>
      simp [pageDirNum, levelBits, userPages, kernelRoot, pageRootIndex, pageL2Index, kernelBase, Build.page, h]

theorem length_pathOf (v : ℕ) : (pathOf b v).length = depth b := by
  unfold pathOf depth
  split <;> rfl

/-- Path and slot tell the pages of the lower half apart. -/
theorem pathOf_inj {v v' : ℕ} (hv : v < userPages b) (hv' : v' < userPages b) (hp : pathOf b v = pathOf b v')
    (hs : slotOf b v = slotOf b v') : v = v' := by
  unfold pathOf at hp
  unfold slotOf at hs
  rcases sizes (b := b) with ⟨h, hn, hu, -⟩ | ⟨h, hn, hu, -⟩ | ⟨h, hn, hu, -⟩
  · rw [if_neg (by omega), if_neg (by omega), hn] at hp
    rw [hn] at hs
    obtain ⟨h1, h2⟩ := List.cons_eq_cons.mp hp
    have h2 := List.singleton_inj.mp h2
    omega
  · rw [if_neg (by omega), if_neg (by omega), hn] at hp
    rw [hn] at hs
    obtain ⟨h1, h2⟩ := List.cons_eq_cons.mp hp
    have h2 := List.singleton_inj.mp h2
    omega
  · rw [if_pos h, if_pos h, hn] at hp
    rw [hn] at hs
    have h2 := List.singleton_inj.mp hp
    omega

/-! ### The tables of the spaces in use -/

/-- Paths of the lower half, no longer than the levels there are. -/
def Low (b : Build) (p : List ℕ) : Prop :=
  p.length ≤ depth b ∧ (∀ i ∈ p, i < pageDirNum b) ∧ ∀ i ∈ p.head?, i < kernelRoot b

theorem Low.init {p : List ℕ} {i : ℕ} (h : Low b (p ++ [i])) : Low b p := by
  obtain ⟨hlen, hlt, hhead⟩ := h
  rw [List.length_append] at hlen
  refine ⟨by omega, fun j hj => hlt j (List.mem_append_left _ hj), fun j hj => hhead j ?_⟩
  cases p with
  | nil => cases hj
  | cons k p => exact hj

theorem Low.before {p p' : List ℕ} (h : Low b (p ++ p')) : Low b p := by
  induction p' using List.reverseRecOn with
  | nil =>
    rw [List.append_nil] at h
    exact h
  | append_singleton p' j ih =>
    rw [← List.append_assoc] at h
    exact ih h.init

theorem low_pathOf {v : ℕ} (hv : v < userPages b) : Low b (pathOf b v) := by
  have hn := pageDirNum_pos (b := b)
  refine ⟨(length_pathOf v).le, ?_, ?_⟩
  · unfold pathOf
    split
    · simp only [List.mem_singleton, forall_eq]
      exact Nat.mod_lt _ hn
    · simp only [List.mem_cons, List.not_mem_nil, or_false, forall_eq_or_imp, forall_eq]
      exact ⟨Nat.mod_lt _ hn, Nat.mod_lt _ hn⟩
  · unfold pathOf
    rcases sizes (b := b) with ⟨h, hn, hu, hk⟩ | ⟨h, hn, hu, hk⟩ | ⟨h, hn, hu, hk⟩
    · rw [if_neg (by omega), hn, hk, List.head?_cons]
      simp only [Option.mem_some_iff, forall_eq']
      omega
    · rw [if_neg (by omega), hn, hk, List.head?_cons]
      simp only [Option.mem_some_iff, forall_eq']
      omega
    · rw [if_pos h, hn, hk, List.head?_cons]
      simp only [Option.mem_some_iff, forall_eq']
      omega

def scope (b : Build) (live : List ℕ) : Scope ℕ ℕ := ⟨fun r => r ∈ live, Low b, fun _ _ h => h.init⟩

/-- An entry that is there. -/
def Entry.present (e : Entry) : Option Entry := if e.entryType = 0 then none else some e

/-- What the tables say about a page. -/
def look (b : Build) (s : Tables) (r v : ℕ) : Option Entry :=
  (walk Entry.link s.mem r (pathOf b v)).bind fun t => (s.mem t (slotOf b v)).present

theorem lastTable_eq (s : Tables) (vm va : ℕ) : s.lastTable b vm va = walk Entry.link s.mem vm (pathOf b (va / b.page)) := by
  unfold lastTable pathOf pageRootIndex
  split
  · rename_i h
    rw [pageL2Index_eq, walk]
    exact (Option.bind_fun_some _).symm
  · rw [pageL1Index_eq, pageL2Index_eq, walk]
    refine Option.bind_congr fun u _ => ?_
    rw [walk]
    exact (Option.bind_fun_some _).symm

/-! ### What holds of the tables -/

/-- Tables are found by one path from one space, pages of the pool are in the list, held, or tables, and no table
    is a page directory. -/
structure Sound (w : Board b) (s : Tables) (live taken : List ℕ) : Prop where
  once : Once (scope b live) Entry.link s.mem
  spare : (s.free ++ taken).Nodup
  idle : ∀ t ∈ s.free ++ taken, t ∈ w.pages ∧ ¬Found (scope b live) Entry.link s.mem t
  cover : ∀ t ∈ w.pages, t ∉ s.free ++ taken → Found (scope b live) Entry.link s.mem t
  inside : ∀ r p t, r ∈ live → Low b p → p ≠ [] → walk Entry.link s.mem r p = some t → t ∈ w.pages
  roots : ∀ r ∈ live, r ∉ w.pages
  nodup : live.Nodup

/-- The tables of `s'` say what those of `s` say. -/
def Same (b : Build) (live : List ℕ) (s s' : Tables) : Prop := ∀ r ∈ live, ∀ v < userPages b, look b s' r v = look b s r v

variable {w : Board b} {s s' : Tables} {live taken : List ℕ} {r t i : ℕ} {q : List ℕ}

theorem Same.refl (s : Tables) : Same b live s s := fun _ _ _ _ => rfl

theorem Same.trans {s'' : Tables} (h : Same b live s s') (h' : Same b live s' s'') : Same b live s s'' :=
  fun r hr v hv => (h' r hr v hv).trans (h r hr v hv)

theorem link_setTable {u : ℕ} (e : Entry) (hu : u < 2 ^ (48 - b.pageShift)) : (e.setTable b u).link = some u := by
  have hne : (e.setTable b u).entryType ≠ 0 := Nat.succ_ne_zero 2
  rw [Entry.link, if_neg hne]
  exact congrArg some (Nat.mod_eq_of_lt hu)

theorem link_eq_none {e : Entry} (h : e.entryType = 0) : e.link = none := if_pos h

theorem nextTable_present (h : (s.mem t i).entryType ≠ 0) : s.nextTable b t i = (some (s.mem t i).address, s) := if_neg h

theorem nextTable_out (h : (s.mem t i).entryType = 0) (hf : s.free = []) : s.nextTable b t i = (none, s) := by
  rw [nextTable, if_pos h, kallocPage, hf]

/-- A new table: cleared, and behind the entry. -/
def fresh (b : Build) (s : Tables) (t i u : ℕ) (l : List ℕ) : Tables :=
  (({ s with free := l }).clear u).write t i (((({ s with free := l }).clear u).mem t i).setTable b u)

theorem nextTable_new {u : ℕ} {l : List ℕ} (h : (s.mem t i).entryType = 0) (hf : s.free = u :: l) :
    s.nextTable b t i = (some u, fresh b s t i u l) := by
  rw [nextTable, if_pos h, kallocPage, hf]
  rfl

section
variable {u : ℕ} {l : List ℕ} (hut : u ≠ t)
include hut

theorem fresh_slot : (fresh b s t i u l).mem t i = (s.mem t i).setTable b u := by
  simp [fresh, write, clear, Function.update_of_ne hut.symm]

theorem fresh_new (j : ℕ) : (fresh b s t i u l).mem u j = Entry.zero := by
  simp [fresh, write, clear, Function.update_of_ne hut]

theorem fresh_other {x j : ℕ} (hx : x ≠ u) (hj : (x, j) ≠ (t, i)) : (fresh b s t i u l).mem x j = s.mem x j := by
  by_cases he : x = t
  · subst he
    have hji : j ≠ i := fun hc => hj (by rw [hc])
    simp [fresh, write, clear, Function.update_of_ne hji, Function.update_of_ne hx]
  · simp [fresh, write, clear, Function.update_of_ne he, Function.update_of_ne hx]

end

/-- A table that is one index short of a path is not at the end of a whole one. -/
theorem Sound.short (h : Sound w s live taken) (hr : r ∈ live) (hq : Low b (q ++ [i])) (ht : walk Entry.link s.mem r q = some t)
    {r' v : ℕ} (hr' : r' ∈ live) (hv : v < userPages b) : walk Entry.link s.mem r' (pathOf b v) ≠ some t := by
  intro ht'
  obtain ⟨-, rfl⟩ := h.once r q r' (pathOf b v) t hr hr' hq.init (low_pathOf hv) ht ht'
  have := hq.1
  rw [List.length_append, length_pathOf, List.length_singleton] at this
  omega

theorem Sound.fresh {u : ℕ} {l : List ℕ} (h : Sound w s live taken) (hr : r ∈ live) (hq : Low b (q ++ [i]))
    (ht : walk Entry.link s.mem r q = some t) (hempty : (s.mem t i).entryType = 0) (hf : s.free = u :: l) :
    Sound w (fresh b s t i u l) live taken ∧ Same b live s (fresh b s t i u l) ∧
      walk Entry.link (fresh b s t i u l).mem r (q ++ [i]) = some u := by
  have hmem : u ∈ s.free ++ taken := by simp [hf]
  obtain ⟨hpage, hout⟩ := h.idle u hmem
  have hut : u ≠ t := by
    rintro rfl
    exact hout ⟨r, q, hr, hq.init, ht⟩
  have hnone : walk Entry.link s.mem r (q ++ [i]) = none := by
    rw [walk_concat, ht, Option.bind_some, link_eq_none hempty]
  have hw : ∀ r' p, r' ∈ live → Low b p → walk Entry.link (Mmu.fresh b s t i u l).mem r' p =
      if r' = r ∧ p = q ++ [i] then some u else walk Entry.link s.mem r' p := by
    intro r' p hr' hp
    refine walk_link h.once hr hq ht (link_eq_none hempty) hout ?_ (fun j => ?_) (fun x j hx hj => ?_) hr' hp
    · rw [fresh_slot hut, link_setTable _ (w.small u hpage)]
    · rw [fresh_new hut]
      rfl
    · rw [fresh_other hut hx hj]
  have hfound : ∀ x, Found (scope b live) Entry.link (Mmu.fresh b s t i u l).mem x ↔
      x = u ∨ Found (scope b live) Entry.link s.mem x := fun x =>
    found_link (S := scope b live) hr hq hnone hw
  have hfree : (Mmu.fresh b s t i u l).free = l := rfl
  have hspare := h.spare
  rw [hf, List.cons_append, List.nodup_cons] at hspare
  have hsplit : ∀ x, x ∈ s.free ++ taken ↔ x = u ∨ x ∈ l ++ taken := by
    intro x
    rw [hf, List.cons_append, List.mem_cons]
  refine ⟨⟨once_link h.once hout hw, hspare.2, fun x hx => ?_, fun x hx hnot => ?_, fun r' p x hr' hp hne hx => ?_, h.roots,
    h.nodup⟩, fun r' hr' v hv => ?_, ?_⟩
  · obtain ⟨hp, hx'⟩ := h.idle x ((hsplit x).mpr (.inr hx))
    refine ⟨hp, fun hc => ?_⟩
    rcases (hfound x).mp hc with rfl | hc
    · exact hspare.1 hx
    · exact hx' hc
  · rw [hfound]
    by_cases hxu : x = u
    · exact .inl hxu
    · refine .inr (h.cover x hx fun hc => ?_)
      exact ((hsplit x).mp hc).elim hxu hnot
  · rw [hw r' p hr' hp] at hx
    split_ifs at hx with hc
    · cases hx
      exact hpage
    · exact h.inside r' p x hr' hp hne hx
  · -- a whole path ends at the new table, which is empty, or at an old one, which keeps its entries
    rw [look, look, hw r' (pathOf b v) hr' (low_pathOf hv)]
    by_cases hc : r' = r ∧ pathOf b v = q ++ [i]
    · rw [if_pos hc, hc.1, hc.2, hnone, Option.bind_some, fresh_new hut]
      rfl
    · rw [if_neg hc]
      refine Option.bind_congr fun x hx => ?_
      have hxu : x ≠ u := fun he => hout ⟨r', pathOf b v, hr', low_pathOf hv, he ▸ hx⟩
      have hxt : x ≠ t := fun he => h.short hr hq ht hr' hv (he ▸ hx)
      rw [fresh_other hut hxu fun he => hxt (congrArg Prod.fst he)]
  · rw [hw r (q ++ [i]) hr hq, if_pos ⟨rfl, rfl⟩]

/-- Going one table down adds an empty table at most. -/
theorem Sound.nextTable (h : Sound w s live taken) (hr : r ∈ live) (hq : Low b (q ++ [i]))
    (ht : walk Entry.link s.mem r q = some t) : Sound w (s.nextTable b t i).2 live taken ∧
      Same b live s (s.nextTable b t i).2 ∧ ((s.nextTable b t i).1 = none → (s.nextTable b t i).2.free = []) ∧
      ∀ u, (s.nextTable b t i).1 = some u → walk Entry.link (s.nextTable b t i).2.mem r (q ++ [i]) = some u := by
  by_cases hempty : (s.mem t i).entryType = 0
  · cases hf : s.free with
    | nil =>
      rw [nextTable_out hempty hf]
      exact ⟨h, .refl s, fun _ => hf, fun u hu => absurd hu (Option.some_ne_none u).symm⟩
    | cons u l =>
      rw [nextTable_new hempty hf]
      obtain ⟨hs, hsame, hwalk⟩ := h.fresh hr hq ht hempty hf
      refine ⟨hs, hsame, fun hu => absurd hu (Option.some_ne_none u), fun x hx => ?_⟩
      cases hx
      exact hwalk
  · rw [nextTable_present hempty]
    refine ⟨h, .refl s, fun hu => absurd hu (Option.some_ne_none _), fun u hu => ?_⟩
    rw [walk_concat, ht, Option.bind_some, Entry.link, if_neg hempty]
    exact hu

/-! ### Entries of pages -/

/-- The entry `map_page` leaves, whatever was there. -/
def pageEntry (b : Build) (va pa permissions attr : ℕ) : Entry :=
  { Entry.setFlags ⟨0, 0, permissions % 4, 0, 0, 0, pa / 2 ^ b.pageShift % 2 ^ (48 - b.pageShift), 0, 0, 0⟩ attr with
    ng := if va < kernelBase then 1 else 0 }

theorem setPage_eq (s : Tables) (t i va pa permissions attr : ℕ) :
    s.setPage b t i va pa permissions attr = s.write t i (pageEntry b va pa permissions attr) := by
  refine congrArg (s.write t i) ?_
  simp only [pageEntry, Entry.setFlags, Entry.setAddress]
  split_ifs <;> rfl

theorem write_self (s : Tables) (t i : ℕ) (e : Entry) : (s.write t i e).mem t i = e := by
  simp [write]

theorem write_other (s : Tables) {t i x j : ℕ} (e : Entry) (h : (x, j) ≠ (t, i)) : (s.write t i e).mem x j = s.mem x j := by
  by_cases hx : x = t
  · subst hx
    have hj : j ≠ i := fun hc => h (by rw [hc])
    simp [write, Function.update_of_ne hj]
  · simp [write, Function.update_of_ne hx]

/-- A change that leaves the tables where they are. -/
theorem Sound.off {taken' : List ℕ} (h : Sound w s live taken)
    (hw : ∀ r p, r ∈ live → Low b p → walk Entry.link s'.mem r p = walk Entry.link s.mem r p)
    (hf : (s'.free ++ taken').Perm (s.free ++ taken)) : Sound w s' live taken' := by
  have hfound : ∀ t, Found (scope b live) Entry.link s'.mem t ↔ Found (scope b live) Entry.link s.mem t := fun t =>
    found_off (S := scope b live) hw
  refine ⟨h.once.off hw, hf.nodup_iff.mpr h.spare, fun t ht => ?_, fun t ht hnot => ?_, fun r p t hr hp hne ht => ?_, h.roots,
    h.nodup⟩
  · rw [hfound]
    exact h.idle t (hf.mem_iff.mp ht)
  · exact (hfound t).mpr (h.cover t ht fun hc => hnot (hf.mem_iff.mpr hc))
  · rw [hw r p hr hp] at ht
    exact h.inside r p t hr hp hne ht

/-- Only the tables that are found count, and of a page directory its lower half. -/
theorem Sound.still (h : Sound w s live taken) (s' : Tables)
    (hm : ∀ x j, Found (scope b live) Entry.link s.mem x → (x ∈ live → j < kernelRoot b) → s'.mem x j = s.mem x j) :
    (∀ r p, r ∈ live → Low b p → walk Entry.link s'.mem r p = walk Entry.link s.mem r p) ∧ Same b live s s' := by
  have hw : ∀ r p, r ∈ live → Low b p → walk Entry.link s'.mem r p = walk Entry.link s.mem r p := by
    intro r p hr hp
    refine walk_off (S := scope b live) (fun r q i u hr hq hu => ?_) hr hp
    rw [hm u i ⟨r, q, hr, hq.init, hu⟩ fun hlive => ?_]
    obtain ⟨-, rfl⟩ := h.once r q u [] u hr hlive hq.init ⟨Nat.zero_le _, by simp, by simp⟩ hu rfl
    exact hq.2.2 i rfl
  refine ⟨hw, fun r hr v hv => ?_⟩
  rw [look, look, hw r _ hr (low_pathOf hv)]
  refine Option.bind_congr fun x hx => ?_
  rw [hm x _ ⟨r, _, hr, low_pathOf hv, hx⟩ fun hlive => ?_]
  obtain ⟨-, hp⟩ := h.once r (pathOf b v) x [] x hr hlive (low_pathOf hv) ⟨Nat.zero_le _, by simp, by simp⟩ hx rfl
  have hlen := length_pathOf (b := b) v
  rw [hp, List.length_nil, depth] at hlen
  split at hlen <;> cases hlen

/-- The entry of a page is on the way to no other. -/
theorem Sound.write_walk (h : Sound w s live taken) (hr : r ∈ live) {v : ℕ} (hv : v < userPages b)
    (ht : walk Entry.link s.mem r (pathOf b v) = some t) (e : Entry) (r' : ℕ) (p : List ℕ) (hr' : r' ∈ live) (hp : Low b p) :
    walk Entry.link (s.write t (slotOf b v) e).mem r' p = walk Entry.link s.mem r' p := by
  refine walk_off (S := scope b live) (fun r' q i u hr' hq hu => ?_) hr' hp
  rw [write_other]
  rintro he
  obtain ⟨rfl, -⟩ := Prod.mk.injEq .. ▸ he
  exact h.short hr' hq hu hr hv ht

/-- The entry of page `v` of space `r` is written, in the table `t` that has it. -/
theorem Sound.write (h : Sound w s live taken) (hr : r ∈ live) {v : ℕ} (hv : v < userPages b)
    (ht : walk Entry.link s.mem r (pathOf b v) = some t) (e : Entry) :
    Sound w (s.write t (slotOf b v) e) live taken ∧ ∀ r' ∈ live, ∀ v' < userPages b,
      look b (s.write t (slotOf b v) e) r' v' = if r' = r ∧ v' = v then e.present else look b s r' v' := by
  have hw := h.write_walk hr hv ht e
  refine ⟨h.off hw (.refl _), fun r' hr' v' hv' => ?_⟩
  rw [look, look, hw r' (pathOf b v') hr' (low_pathOf hv')]
  by_cases hc : r' = r ∧ v' = v
  · rw [if_pos hc, hc.1, hc.2, ht, Option.bind_some, write_self]
  · rw [if_neg hc]
    refine Option.bind_congr fun x hx => ?_
    rw [write_other]
    intro he
    obtain ⟨rfl, hs⟩ := Prod.mk.injEq .. ▸ he
    obtain ⟨rfl, hp⟩ := h.once r' (pathOf b v') r (pathOf b v) x hr' hr (low_pathOf hv') (low_pathOf hv) hx ht
    exact hc ⟨rfl, pathOf_inj hv' hv hp hs⟩

theorem pageEntry_present (va pa permissions attr : ℕ) :
    (pageEntry b va pa permissions attr).present = some (pageEntry b va pa permissions attr) := by
  refine if_neg ?_
  simp only [pageEntry, Entry.setFlags]
  split_ifs <;> exact Nat.succ_ne_zero 2

/-- `map_page` as tables are found: down the path, then the entry. -/
def mapDown (b : Build) (s : Tables) (vm va pa permissions attr : ℕ) : List ℕ → ℕ → Bool × Tables
  | [], t => (true, s.setPage b t (pageL3Index b va) va pa permissions attr)
  | i :: p, t =>
    match s.nextTable b t i with
    | (none, s) => (false, s)
    | (some u, s) => mapDown b s vm va pa permissions attr p u

theorem mapPage_eq (s : Tables) (vm va pa permissions attr : ℕ) :
    s.mapPage b vm va pa permissions attr = mapDown b s vm va pa permissions attr (pathOf b (va / b.page)) vm := by
  unfold mapPage pathOf pageRootIndex
  split
  · rw [pageL2Index_eq]
    rfl
  · rw [pageL1Index_eq, pageL2Index_eq]
    rfl

/-- What `map_page` did: nothing when it ran out of pages, or the one entry. -/
structure Mapped (w : Board b) (s s' : Tables) (live taken : List ℕ) (ok : Bool) (r v : ℕ) (e : Entry) : Prop where
  sound : Sound w s' live taken
  out : ok = false → Same b live s s' ∧ s'.free = []
  done : ok = true → ∀ r' ∈ live, ∀ v' < userPages b, look b s' r' v' = if r' = r ∧ v' = v then some e else look b s r' v'

theorem Sound.mapDown {va pa permissions attr : ℕ} (h : Sound w s live taken) (hr : r ∈ live) (hv : va / b.page < userPages b)
    {p : List ℕ} (hq : q ++ p = pathOf b (va / b.page)) (ht : walk Entry.link s.mem r q = some t) :
    Mapped w s (mapDown b s r va pa permissions attr p t).2 live taken (mapDown b s r va pa permissions attr p t).1 r
      (va / b.page) (pageEntry b va pa permissions attr) := by
  induction p generalizing s t q with
  | nil =>
    rw [List.append_nil] at hq
    subst hq
    obtain ⟨hs, hlook⟩ := h.write hr hv ht (pageEntry b va pa permissions attr)
    rw [Mmu.mapDown, setPage_eq]
    refine ⟨hs, fun hc => absurd hc.symm Bool.false_ne_true, fun _ r' hr' v' hv' => ?_⟩
    rw [pageEntry_present] at hlook
    exact hlook r' hr' v' hv'
  | cons i p ih =>
    have hq' : q ++ [i] ++ p = pathOf b (va / b.page) := by
      rw [List.append_assoc]
      exact hq
    have hlow : Low b (q ++ [i]) := Low.before (hq' ▸ low_pathOf hv)
    obtain ⟨hs, hsame, hout, hdone⟩ := h.nextTable hr hlow ht
    rw [Mmu.mapDown]
    generalize s.nextTable b t i = o at hs hsame hout hdone
    obtain ⟨u, s₁⟩ := o
    cases u with
    | none => exact ⟨hs, fun _ => ⟨hsame, hout rfl⟩, fun hc => absurd hc Bool.false_ne_true⟩
    | some u =>
      have hm := ih hs hq' (hdone u rfl)
      refine ⟨hm.sound, fun hc => ?_, fun hc r' hr' v' hv' => ?_⟩
      · obtain ⟨hsame', hfree⟩ := hm.out hc
        exact ⟨hsame.trans hsame', hfree⟩
      · rw [hm.done hc r' hr' v' hv', hsame r' hr' v' hv']

theorem Sound.mapPage {va : ℕ} (h : Sound w s live taken) (pa permissions attr : ℕ) (hr : r ∈ live)
    (hv : va / b.page < userPages b) :
    Mapped w s (s.mapPage b r va pa permissions attr).2 live taken (s.mapPage b r va pa permissions attr).1 r
      (va / b.page) (pageEntry b va pa permissions attr) := by
  rw [mapPage_eq]
  exact h.mapDown hr hv (List.nil_append _) rfl

/-! ### The tables as maps -/

/-- What process spaces have at their pages. -/
abbrev Maps := ℕ → ℕ → Option Entry

/-- The `n` pages of `r` from `v` on are what `f` says. -/
def Maps.set (m : Maps) (r v n : ℕ) (f : ℕ → Option Entry) : Maps := fun r' v' =>
  if r' = r ∧ v ≤ v' ∧ v' < v + n then f (v' - v) else m r' v'

/-- The tables say what `m` says. -/
def Says (b : Build) (live : List ℕ) (s : Tables) (m : Maps) : Prop := ∀ r ∈ live, ∀ v < userPages b, look b s r v = m r v

theorem Says.self (s : Tables) : Says b live s (look b s) := fun _ _ _ _ => rfl

variable {m : Maps} {v n : ℕ} {f : ℕ → Option Entry}

theorem set_zero : m.set r v 0 f = m := by
  funext r' v'
  exact if_neg fun hc => by omega

/-- One page, then those behind it. -/
theorem set_set : (m.set r v 1 fun _ => f 0).set r (v + 1) n (fun j => f (j + 1)) = m.set r v (n + 1) f := by
  funext r' v'
  unfold Maps.set
  by_cases hc : r' = r ∧ v + 1 ≤ v' ∧ v' < v + 1 + n
  · rw [if_pos hc, if_pos ⟨hc.1, by omega, by omega⟩]
    exact congrArg f (by omega)
  · rw [if_neg hc]
    by_cases hv : r' = r ∧ v ≤ v' ∧ v' < v + 1
    · rw [if_pos hv, if_pos ⟨hv.1, by omega, by omega⟩]
      exact congrArg f (by omega)
    · rw [if_neg hv, if_neg]
      rintro ⟨rfl, h1, h2⟩
      exact hc ⟨rfl, by by_contra hlt; exact hv ⟨rfl, h1, by omega⟩, by omega⟩

theorem Says.set_congr {m' : Maps} (hm : ∀ r ∈ live, ∀ v < userPages b, m r v = m' r v) (h : Says b live s (m.set r v n f)) :
    Says b live s (m'.set r v n f) := by
  intro r' hr' v' hv'
  rw [h r' hr' v' hv', Maps.set, Maps.set]
  split_ifs
  · rfl
  · exact hm r' hr' v' hv'

theorem set_one_iff {o : Option Entry} (hm : ∀ r' ∈ live, ∀ v' < userPages b,
    look b s' r' v' = if r' = r ∧ v' = v then o else look b s r' v') : Says b live s' (Maps.set (look b s) r v 1 fun _ => o) := by
  intro r' hr' v' hv'
  rw [hm r' hr' v' hv', Maps.set]
  exact if_congr (and_congr_right fun _ => by omega) rfl rfl

section
variable (hwide : b.addrBits = 64)
include hwide

/-- Addresses of the lower half do not wrap. -/
theorem low_lt (va : ℕ) {k : ℕ} (h : va / b.page + k < userPages b) : va + b.page * k < b.top := by
  have hpos := Build.page_pos (b := b)
  have hmul : (va / b.page + k + 1) * b.page ≤ userPages b * b.page := Nat.mul_le_mul_right _ h
  have hle : userPages b * b.page ≤ kernelBase := Nat.div_mul_le_self _ _
  have hva := Nat.lt_div_mul_add (a := va) hpos
  have htop : b.top = 2 ^ 64 := by rw [Build.top, hwide]
  have hbase : kernelBase < 2 ^ 64 := by decide
  rw [Nat.add_mul, Nat.add_mul, Nat.one_mul, Nat.mul_comm k] at hmul
  omega

end

theorem add_page_div (va : ℕ) : (va + b.page) / b.page = va / b.page + 1 := Nat.add_div_right va Build.page_pos

/-- The entries a run of pages gets. -/
def runEntry (b : Build) (va pa permissions attr j : ℕ) : Option Entry :=
  some (pageEntry b (va + b.page * j) (pa + b.page * j) permissions attr)

theorem runEntry_succ {va pa permissions attr j : ℕ} :
    runEntry b (va + b.page) (pa + b.page) permissions attr j = runEntry b va pa permissions attr (j + 1) := by
  rw [runEntry, runEntry, Nat.mul_succ, Nat.add_assoc, Nat.add_assoc, Nat.add_comm b.page]

/-- A loop maps a beginning of its pages, all of them unless pages ran out. -/
structure Filled (w : Board b) (s s' : Tables) (live taken : List ℕ) (ok : Bool) (r v n : ℕ) (f : ℕ → Option Entry) :
    Prop where
  sound : Sound w s' live taken
  done : ok = true → Says b live s' (Maps.set (look b s) r v n f)
  out : ok = false → s'.free = [] ∧ ∃ k < n, Says b live s' (Maps.set (look b s) r v k f)

theorem Sound.mapLoop {va : ℕ} (h : Sound w s live taken) (pa permissions attr : ℕ) (hr : r ∈ live)
    (hv : va / b.page + n ≤ userPages b) :
    Filled w s (mapLoop b r n va pa permissions attr s).2 live taken (mapLoop b r n va pa permissions attr s).1 r
      (va / b.page) n (runEntry b va pa permissions attr) := by
  induction n generalizing s va pa with
  | zero =>
    refine ⟨h, fun _ => ?_, fun hc => absurd hc.symm Bool.false_ne_true⟩
    rw [set_zero]
    exact .self s
  | succ n ih =>
    have hm := h.mapPage pa permissions attr hr (show va / b.page < userPages b by omega)
    rw [Tables.mapLoop]
    generalize s.mapPage b r va pa permissions attr = o at hm
    obtain ⟨ok, s₁⟩ := o
    cases ok with
    | false =>
      obtain ⟨hsame, hfree⟩ := hm.out rfl
      refine ⟨hm.sound, fun hc => absurd hc Bool.false_ne_true, fun _ => ⟨hfree, 0, Nat.succ_pos n, ?_⟩⟩
      rw [set_zero]
      exact hsame
    | true =>
      have hstep : ∀ k s', Says b live s' (Maps.set (look b s₁) r (va / b.page + 1) k (runEntry b (va + b.page) (pa + b.page) permissions attr)) →
          Says b live s' (Maps.set (look b s) r (va / b.page) (k + 1) (runEntry b va pa permissions attr)) := by
        intro k s' hs'
        rw [← set_set]
        have hf : runEntry b (va + b.page) (pa + b.page) permissions attr = fun j => runEntry b va pa permissions attr (j + 1) :=
          funext fun j => runEntry_succ
        rw [hf] at hs'
        exact hs'.set_congr (set_one_iff (hm.done rfl))
      -- the address of the page after the last one may wrap, it is not used
      have hgo : mapLoop b r n ((va + b.page) % b.top) (pa + b.page) permissions attr s₁ =
          mapLoop b r n (va + b.page) (pa + b.page) permissions attr s₁ := by
        cases n with
        | zero => rfl
        | succ n =>
          have hlt := low_lt (b := b) w.wide va (k := 1) (by omega)
          rw [Nat.mul_one] at hlt
          rw [Nat.mod_eq_of_lt hlt]
      dsimp only
      rw [hgo]
      have hi := ih hm.sound (pa + b.page) (show (va + b.page) / b.page + n ≤ userPages b by rw [add_page_div]; omega)
      rw [add_page_div] at hi
      refine ⟨hi.sound, fun hc => hstep n _ (hi.done hc), fun hc => ?_⟩
      obtain ⟨hfree, k, hk, htold⟩ := hi.out hc
      exact ⟨hfree, k + 1, Nat.succ_lt_succ hk, hstep k _ htold⟩

/-! ### Unmapping -/

/-- A page without a table is unmapped already. -/
theorem Sound.unmapPage {va : ℕ} (h : Sound w s live taken) (hr : r ∈ live) (hv : va / b.page < userPages b) :
    Sound w (s.unmapPage b r va) live taken ∧
      Says b live (s.unmapPage b r va) (Maps.set (look b s) r (va / b.page) 1 fun _ => none) := by
  rw [Tables.unmapPage, lastTable_eq, pageL3Index_eq]
  cases ht : walk Entry.link s.mem r (pathOf b (va / b.page)) with
  | none =>
    refine ⟨h, set_one_iff fun r' hr' v' hv' => ?_⟩
    split_ifs with hc
    · rw [hc.1, hc.2, look, ht]
      rfl
    · rfl
  | some t =>
    obtain ⟨hs, hlook⟩ := h.write hr hv ht { s.mem t (slotOf b (va / b.page)) with entryType := 0 }
    exact ⟨hs, set_one_iff hlook⟩

/-- One page more. -/
theorem set_last : (m.set r v n f).set r (v + n) 1 (fun _ => f n) = m.set r v (n + 1) f := by
  funext r' v'
  unfold Maps.set
  by_cases hc : r' = r ∧ v + n ≤ v' ∧ v' < v + n + 1
  · rw [if_pos hc, if_pos ⟨hc.1, by omega, by omega⟩]
    exact congrArg f (by omega)
  · rw [if_neg hc]
    refine if_congr ⟨fun hd => ⟨hd.1, by omega, by omega⟩, fun hd => ⟨hd.1, hd.2.1, ?_⟩⟩ rfl rfl
    by_contra hlt
    exact hc ⟨hd.1, by omega, by omega⟩

theorem page_of_low (va : ℕ) {k : ℕ} (h : va / b.page + k < userPages b) (hwide : b.addrBits = 64) :
    (va + b.page * k) % b.top / b.page = va / b.page + k := by
  rw [Nat.mod_eq_of_lt (low_lt hwide va h), Nat.add_mul_div_left _ _ Build.page_pos]

/-- A page once more. -/
theorem set_again {k : ℕ} {e : Option Entry} (hk : k < n) :
    (m.set r v n fun _ => e).set r (v + k) 1 (fun _ => e) = m.set r v n fun _ => e := by
  funext r' v'
  unfold Maps.set
  by_cases hc : r' = r ∧ v + k ≤ v' ∧ v' < v + k + 1
  · rw [if_pos hc, if_pos ⟨hc.1, by omega, by omega⟩]
  · rw [if_neg hc]

theorem Sound.unmapPages {va : ℕ} (h : Sound w s live taken) (hr : r ∈ live)
    (hv : va / b.page + Tables.unmapCount b n ≤ userPages b) :
    Sound w (s.unmapPages b r va n) live taken ∧
      Says b live (s.unmapPages b r va n) (Maps.set (look b s) r (va / b.page) (Tables.unmapCount b n) fun _ => none) := by
  induction n with
  | zero =>
    refine ⟨h, ?_⟩
    rw [Tables.unmapCount, Nat.zero_min, set_zero]
    exact .self s
  | succ n ih =>
    have hpos := Build.pages_pos (b := b)
    have hmod := Nat.mod_lt n hpos
    unfold Tables.unmapCount at hv ih ⊢
    obtain ⟨hs, htold⟩ := ih (by omega)
    have hle := Nat.mod_le n (2 ^ 32 / b.page)
    have hpage := page_of_low (b := b) va (k := n % (2 ^ 32 / b.page)) (by omega) w.wide
    have hu := hs.unmapPage hr
      (show (va + b.page * (n % (2 ^ 32 / b.page))) % b.top / b.page < userPages b by omega)
    rw [hpage] at hu
    have hgo : s.unmapPages b r va (n + 1) =
        (s.unmapPages b r va n).unmapPage b r ((va + b.page * (n % (2 ^ 32 / b.page))) % b.top) := by
      rw [Tables.unmapPages, List.range_succ, List.foldl_append, ← Build.page_mul_mod]
      rfl
    rw [hgo]
    refine ⟨hu.1, ?_⟩
    have htold := hu.2.set_congr htold
    by_cases hn : n < 2 ^ 32 / b.page
    · -- a page further
      rw [Nat.mod_eq_of_lt hn, Nat.min_eq_left hn.le, set_last] at htold
      rw [Nat.mod_eq_of_lt hn, Nat.min_eq_left hn]
      exact htold
    · -- the product has come round
      rw [Nat.min_eq_right (Nat.not_lt.mp hn), set_again hmod] at htold
      rwa [Nat.min_eq_right (by omega)]

/-! ### New permissions -/

theorem getPageTableEntry_eq (s : Tables) (vm va : ℕ) : s.getPageTableEntry b vm va =
    (walk Entry.link s.mem vm (pathOf b (va / b.page))).bind fun t =>
      if (s.mem t (slotOf b (va / b.page))).entryType = 0 then none else some (t, slotOf b (va / b.page)) := by
  rw [getPageTableEntry, lastTable_eq]
  rfl

/-- Only a mapped page is marked. -/
theorem Sound.archMarkPteNoexec {va : ℕ} (h : Sound w s live taken) (hr : r ∈ live) (hv : va / b.page < userPages b) :
    Sound w (s.archMarkPteNoexec b r va) live taken ∧ Says b live (s.archMarkPteNoexec b r va)
      (Maps.set (look b s) r (va / b.page) 1 fun _ => (look b s r (va / b.page)).map fun e => { e with uxn := 1 }) := by
  rw [Tables.archMarkPteNoexec, getPageTableEntry_eq]
  have hnone : look b s r (va / b.page) = none → Says b live s
      (Maps.set (look b s) r (va / b.page) 1 fun _ => (look b s r (va / b.page)).map fun e => { e with uxn := 1 }) := by
    intro hnone
    refine set_one_iff fun r' _ v' _ => ?_
    split_ifs with hc
    · rw [hc.1, hc.2, hnone]
      rfl
    · rfl
  cases ht : walk Entry.link s.mem r (pathOf b (va / b.page)) with
  | none => exact ⟨h, hnone (by rw [look, ht]; rfl)⟩
  | some t =>
    rw [Option.bind_some]
    by_cases hz : (s.mem t (slotOf b (va / b.page))).entryType = 0
    · rw [if_pos hz]
      exact ⟨h, hnone (by rw [look, ht, Option.bind_some, Entry.present, if_pos hz])⟩
    · rw [if_neg hz]
      obtain ⟨hs, hlook⟩ := h.write hr hv ht { s.mem t (slotOf b (va / b.page)) with uxn := 1 }
      refine ⟨hs, set_one_iff fun r' hr' v' hv' => ?_⟩
      rw [hlook r' hr' v' hv']
      have hold : look b s r (va / b.page) = some (s.mem t (slotOf b (va / b.page))) := by
        rw [look, ht, Option.bind_some, Entry.present, if_neg hz]
      rw [hold, Entry.present, if_neg hz]
      rfl

/-- Where the tables are there, `map_page` needs no page. -/
theorem mapDown_present {va pa permissions attr : ℕ} {p : List ℕ} {u : ℕ} (ht : walk Entry.link s.mem t p = some u) :
    (mapDown b s r va pa permissions attr p t).1 = true := by
  induction p generalizing t with
  | nil => rfl
  | cons i p ih =>
    rw [walk] at ht
    obtain ⟨x, hx, ht⟩ := Option.bind_eq_some_iff.mp ht
    have hne : (s.mem t i).entryType ≠ 0 := by
      intro hz
      rw [link_eq_none hz] at hx
      cases hx
    rw [Entry.link, if_neg hne] at hx
    rw [mapDown, nextTable_present hne]
    exact ih (Option.some.inj hx ▸ ht)

/-- The tables of a page are there. -/
def Tabled (b : Build) (s : Tables) (r v : ℕ) : Prop := (walk Entry.link s.mem r (pathOf b v)).isSome = true

theorem tabled_of_look {v : ℕ} {e : Entry} (h : look b s r v = some e) : Tabled b s r v := by
  obtain ⟨t, ht, -⟩ := Option.bind_eq_some_iff.mp h
  rw [Tabled, ht]
  rfl

theorem Tabled.mapPage {va : ℕ} (pa permissions attr : ℕ) (h : Tabled b s r (va / b.page)) :
    (s.mapPage b r va pa permissions attr).1 = true := by
  obtain ⟨t, ht⟩ := Option.isSome_iff_exists.mp h
  rw [mapPage_eq]
  exact mapDown_present ht

theorem mapPage_present {va pa permissions attr : ℕ} {e : Entry} (h : look b s r (va / b.page) = some e) :
    (s.mapPage b r va pa permissions attr).1 = true := (tabled_of_look h).mapPage pa permissions attr

theorem resolvePhyAddress_eq (s : Tables) (vm va : ℕ) : s.resolvePhyAddress b vm va =
    (look b s vm (va / b.page)).elim 0 fun e => e.address * 2 ^ b.pageShift ||| va % 2 ^ b.pageShift := by
  rw [resolvePhyAddress, lastTable_eq, look, pageL3Index_eq]
  cases walk Entry.link s.mem vm (pathOf b (va / b.page)) with
  | none => rfl
  | some t =>
    dsimp only
    rw [Option.bind_some, Entry.present]
    split_ifs <;> rfl

/-- A page of the window with new permissions keeps its frame. -/
def dlEntry (prot frame : ℕ) : Entry := ⟨3, 3, dlProtToAp prot, 3, 1, 1, frame, 0, if prot.testBit 2 then 0 else 1, 1⟩

/-- Frames fit their field. -/
def Fits (b : Build) (m : Maps) : Prop := ∀ r v e, m r v = some e → e.address < 2 ^ (48 - b.pageShift)

theorem dlProtToAp_lt (prot : ℕ) : dlProtToAp prot % 4 = dlProtToAp prot := by
  unfold dlProtToAp
  split_ifs <;> rfl

theorem pageEntry_dl {va prot frame : ℕ} (hva : va < kernelBase) (hf : frame < 2 ^ (48 - b.pageShift)) :
    pageEntry b va (frame * b.page) (dlProtToAp prot) 0 = ⟨3, 3, dlProtToAp prot, 3, 1, 1, frame, 0, 0, 1⟩ := by
  have hframe : frame * b.page / 2 ^ b.pageShift = frame := Nat.mul_div_cancel _ Build.page_pos
  rw [pageEntry, hframe, Nat.mod_eq_of_lt hf, dlProtToAp_lt, if_pos hva]
  rfl

theorem low_of_page {va : ℕ} (h : va / b.page < userPages b) : va < kernelBase := by
  have hmul : (va / b.page + 1) * b.page ≤ userPages b * b.page := Nat.mul_le_mul_right _ h
  have hle : userPages b * b.page ≤ kernelBase := Nat.div_mul_le_self _ _
  have hva := Nat.lt_div_mul_add (a := va) (Build.page_pos (b := b))
  rw [Nat.add_mul, Nat.one_mul] at hmul
  omega

theorem Sound.protectPage {va : ℕ} {e : Entry} (h : Sound w s live taken) (prot : ℕ) (hr : r ∈ live)
    (hv : va / b.page < userPages b) (hva : va % b.page = 0) (he : look b s r (va / b.page) = some e)
    (hfit : e.address < 2 ^ (48 - b.pageShift)) : Sound w (Tables.protectPage b r prot s va) live taken ∧
      Says b live (Tables.protectPage b r prot s va)
        (Maps.set (look b s) r (va / b.page) 1 fun _ => some (dlEntry prot e.address)) := by
  have hphy : s.resolvePhyAddress b r va = e.address * b.page := by
    rw [resolvePhyAddress_eq, he, Option.elim_some]
    change e.address * b.page ||| va % b.page = _
    rw [hva, Nat.or_zero]
  have hm := h.mapPage (e.address * b.page) (dlProtToAp prot) 0 hr hv
  have hdone := hm.done (mapPage_present he)
  rw [pageEntry_dl (low_of_page hv) hfit] at hdone
  rw [Tables.protectPage, hphy]
  split_ifs with hx
  · refine ⟨hm.sound, set_one_iff fun r' hr' v' hv' => ?_⟩
    rw [hdone r' hr' v' hv', dlEntry, if_pos hx]
  · obtain ⟨hs, htold⟩ := hm.sound.archMarkPteNoexec hr hv
    refine ⟨hs, fun r' hr' v' hv' => ?_⟩
    have hself := hdone r hr _ hv
    rw [if_pos ⟨rfl, rfl⟩] at hself
    rw [htold r' hr' v' hv', Maps.set, Maps.set, hself, dlEntry, if_neg hx]
    by_cases hc : r' = r ∧ va / b.page ≤ v' ∧ v' < va / b.page + 1
    · rw [if_pos hc, if_pos hc]
      rfl
    · rw [if_neg hc, if_neg hc, hdone r' hr' v' hv', if_neg]
      exact fun hd => hc ⟨hd.1, by omega, by omega⟩

/-- The loop of `dl_window_protect` over `n` mapped pages. -/
theorem Sound.protectLoop {va : ℕ} {g : ℕ → Entry} (h : Sound w s live taken) (prot : ℕ) (hr : r ∈ live)
    (hv : va / b.page + n ≤ userPages b) (hva : va % b.page = 0)
    (hg : ∀ k < n, look b s r (va / b.page + k) = some (g k) ∧ (g k).address < 2 ^ (48 - b.pageShift)) :
    let s' := ((List.range n).map fun k => va + b.page * k).foldl (fun s v => Tables.protectPage b r prot s v) s
    Sound w s' live taken ∧ Says b live s'
      (Maps.set (look b s) r (va / b.page) n fun k => some (dlEntry prot (g k).address)) := by
  induction n with
  | zero =>
    refine ⟨h, ?_⟩
    rw [set_zero]
    exact .self s
  | succ n ih =>
    obtain ⟨hs, htold⟩ := ih (by omega) fun k hk => hg k (by omega)
    dsimp only
    rw [List.range_succ, List.map_append, List.foldl_append]
    generalize ((List.range n).map fun k => va + b.page * k).foldl (fun s v => Tables.protectPage b r prot s v) s = s₁ at hs htold
    have hpage : (va + b.page * n) / b.page = va / b.page + n := Nat.add_mul_div_left _ _ Build.page_pos
    obtain ⟨hgn, hfit⟩ := hg n (by omega)
    have he : look b s₁ r ((va + b.page * n) / b.page) = some (g n) := by
      rw [hpage, htold r hr _ (by omega), Maps.set, if_neg fun hc => by omega, hgn]
    have hp := hs.protectPage prot hr (by omega) (by rw [Nat.add_mul_mod_self_left, hva]) he hfit
    rw [hpage] at hp
    refine ⟨hp.1, ?_⟩
    rw [← set_last]
    exact hp.2.set_congr htold

/-- How many pages a range of the window has. -/
def dlPages (b : Build) (va size : ℕ) : Option ℕ := (dlRangeOk b va size).map fun e => (e - va + (b.page - 1)) / b.page

theorem dlPages_low {va size : ℕ} (h : dlPages b va size = some n) :
    va % b.page = 0 ∧ va / b.page + n ≤ userPages b ∧ ∃ e, dlRangeOk b va size = some e ∧ n = (e - va + (b.page - 1)) / b.page := by
  obtain ⟨e, he, rfl⟩ := Option.map_eq_some_iff.mp h
  have hpos := Build.page_pos (b := b)
  have hr := he
  unfold dlRangeOk at hr
  split_ifs at hr with h1 h2
  dsimp only at hr
  split_ifs at hr with h3 h4
  cases hr
  have hva : va % b.page = 0 := not_not.mp h2
  rw [not_or, not_lt, not_lt] at h4
  have hend : dlWindowEnd b ≤ kernelBase - b.page := by
    unfold dlWindowEnd
    omega
  refine ⟨hva, ?_, _, he, rfl⟩
  generalize (va + size) % b.top = e at h3 h4
  rw [userPages, Nat.le_div_iff_mul_le hpos, Nat.add_mul]
  have hdiv := Nat.div_mul_le_self (e - va + (b.page - 1)) b.page
  have hva' := Nat.div_mul_le_self va b.page
  have hbase : b.page ≤ kernelBase := by
    rcases b.shift_mem with hs | hs | hs <;> simp [Build.page, hs, kernelBase]
  omega

/-- A page whose address is not taken for a hole. -/
def Framed (m : Maps) (r v : ℕ) : Prop := ∃ e, m r v = some e ∧ e.address ≠ 0

theorem framed_iff {va : ℕ} (hva : va % b.page = 0) : Framed (look b s) r (va / b.page) ↔ s.resolvePhyAddress b r va ≠ 0 := by
  rw [resolvePhyAddress_eq, show va % 2 ^ b.pageShift = 0 from hva, Framed]
  cases look b s r (va / b.page) with
  | none => simp
  | some e => simp [Nat.or_zero]

/-- When `dl_window_protect` is to go ahead. -/
def Allowed (b : Build) (m : Maps) (r va size prot n : ℕ) : Prop :=
  dlProtOk prot = true ∧ dlPages b va size = some n ∧ ∀ k < n, Framed m r (va / b.page + k)

theorem dlWindowProtect_eq (s : Tables) (r va size prot : ℕ) : (∃ n, Allowed b (look b s) r va size prot n ∧
      s.dlWindowProtect b r va size prot =
        (true, ((List.range n).map fun k => va + b.page * k).foldl (fun s v => Tables.protectPage b r prot s v) s)) ∨
    (∀ n, ¬Allowed b (look b s) r va size prot n) ∧ s.dlWindowProtect b r va size prot = (false, s) := by
  unfold Tables.dlWindowProtect
  split_ifs with hok
  · exact .inr ⟨fun n hn => Bool.false_ne_true (hok.symm.trans hn.1), rfl⟩
  cases hd : dlRangeOk b va size with
  | none =>
    refine .inr ⟨fun n hn => ?_, rfl⟩
    have := hn.2.1
    rw [dlPages, hd] at this
    cases this
  | some e =>
    have hpages : dlPages b va size = some ((e - va + (b.page - 1)) / b.page) := by rw [dlPages, hd]; rfl
    obtain ⟨hva, -, -⟩ := dlPages_low hpages
    have hframed : ∀ k, Framed (look b s) r (va / b.page + k) ↔ s.resolvePhyAddress b r (va + b.page * k) ≠ 0 := by
      intro k
      rw [← framed_iff (by rw [Nat.add_mul_mod_self_left, hva]), Nat.add_mul_div_left _ _ Build.page_pos]
    dsimp only
    split_ifs with hany
    · refine .inr ⟨fun n hn => ?_, rfl⟩
      obtain ⟨v, hv, hz⟩ := List.any_eq_true.mp hany
      obtain ⟨k, hk, rfl⟩ := List.mem_map.mp hv
      obtain rfl := Option.some.inj (hpages.symm.trans hn.2.1)
      exact (hframed k).mp (hn.2.2 k (List.mem_range.mp hk)) (of_decide_eq_true hz)
    · refine .inl ⟨_, ⟨Bool.eq_true_of_not_eq_false hok, hpages, fun k hk => (hframed k).mpr fun hz => hany ?_⟩, rfl⟩
      exact List.any_eq_true.mpr ⟨_, List.mem_map.mpr ⟨k, List.mem_range.mpr hk, rfl⟩, decide_eq_true hz⟩

/-! ### Page directories come and go -/

theorem Sound.found_mem (h : Sound w s live taken) (ht : Found (scope b live) Entry.link s.mem t) : t ∈ live ∨ t ∈ w.pages := by
  obtain ⟨r, p, hr, hp, ht⟩ := ht
  cases p with
  | nil =>
    rw [walk, Option.some.injEq] at ht
    exact .inl (ht ▸ hr)
  | cons i p => exact .inr (h.inside r (i :: p) t hr hp (List.cons_ne_nil i p) ht)

theorem low_nil : Low b [] := ⟨Nat.zero_le _, by simp, by simp⟩

/-- A new directory: nothing in its lower half. -/
theorem Sound.root {vm : ℕ} (h : Sound w s live taken) (s' : Tables) (hlive : vm ∉ live) (hpage : vm ∉ w.pages)
    (hzero : ∀ i < kernelRoot b, s'.mem vm i = Entry.zero) (hother : ∀ x, x ≠ vm → s'.mem x = s.mem x)
    (hfree : s'.free = s.free) : Sound w s' (vm :: live) taken ∧
      ∀ v < userPages b, look b s' vm v = none ∧ ∀ r ∈ live, look b s' r v = look b s r v := by
  have hout : ¬Found (scope b live) Entry.link s.mem vm := fun hc => (h.found_mem hc).elim hlive hpage
  obtain ⟨hw, hsame⟩ := h.still s' fun x j hx _ => by rw [hother x fun he => hout (he ▸ hx)]
  have hnew : ∀ p, Low b p → p ≠ [] → walk Entry.link s'.mem vm p = none := by
    intro p hp hne
    cases p with
    | nil => exact absurd rfl hne
    | cons i p =>
      rw [walk, hzero i (hp.2.2 i rfl)]
      rfl
  have hnil : ∀ p t, Low b p → walk Entry.link s'.mem vm p = some t → p = [] ∧ t = vm := by
    intro p t hp ht
    by_cases hne : p = []
    · rw [hne, walk, Option.some.injEq] at ht
      exact ⟨hne, ht.symm⟩
    · rw [hnew p hp hne] at ht
      cases ht
  have hfound : ∀ t, Found (scope b (vm :: live)) Entry.link s'.mem t ↔ t = vm ∨ Found (scope b live) Entry.link s.mem t := by
    intro t
    constructor
    · rintro ⟨r, p, hr, hp, ht⟩
      rcases List.mem_cons.mp hr with rfl | hr
      · exact .inl (hnil p t hp ht).2
      · exact .inr ⟨r, p, hr, hp, (hw r p hr hp).symm.trans ht⟩
    · rintro (ht | ⟨r, p, hr, hp, ht⟩)
      · exact ⟨vm, [], List.mem_cons_self, low_nil, congrArg some ht.symm⟩
      · exact ⟨r, p, List.mem_cons_of_mem _ hr, hp, (hw r p hr hp).trans ht⟩
  refine ⟨⟨?_, ?_, fun t ht => ?_, fun t ht hnot => ?_, fun r p t hr hp hne ht => ?_, fun r hr => ?_,
    List.nodup_cons.mpr ⟨hlive, h.nodup⟩⟩, fun v hv => ⟨?_, fun r hr => hsame r hr v hv⟩⟩
  · intro r p r' p' t hr hr' hp hp' ht ht'
    rcases List.mem_cons.mp hr with he | hr
    · rw [he] at ht
      obtain ⟨hpn, htn⟩ := hnil p t hp ht
      rcases List.mem_cons.mp hr' with he' | hr'
      · rw [he'] at ht'
        exact ⟨he.trans he'.symm, hpn.trans (hnil p' t hp' ht').1.symm⟩
      · rw [htn] at ht'
        exact absurd ⟨r', p', hr', hp', (hw r' p' hr' hp').symm.trans ht'⟩ hout
    · rcases List.mem_cons.mp hr' with he' | hr'
      · rw [he'] at ht'
        rw [(hnil p' t hp' ht').2] at ht
        exact absurd ⟨r, p, hr, hp, (hw r p hr hp).symm.trans ht⟩ hout
      · exact h.once r p r' p' t hr hr' hp hp' ((hw r p hr hp).symm.trans ht) ((hw r' p' hr' hp').symm.trans ht')
  · rw [hfree]
    exact h.spare
  · rw [hfree] at ht
    obtain ⟨hp, hx⟩ := h.idle t ht
    exact ⟨hp, fun hc => ((hfound t).mp hc).elim (fun he => hpage (he ▸ hp)) hx⟩
  · rw [hfree] at hnot
    exact (hfound t).mpr (.inr (h.cover t ht hnot))
  · rcases List.mem_cons.mp hr with rfl | hr
    · exact absurd (hnil p t hp ht).1 hne
    · exact h.inside r p t hr hp hne ((hw r p hr hp).symm.trans ht)
  · rcases List.mem_cons.mp hr with rfl | hr
    · exact hpage
    · exact h.roots r hr
  · rw [look, hnew _ (low_pathOf hv)]
    · rfl
    · intro hc
      have := length_pathOf (b := b) v
      rw [hc, List.length_nil, depth] at this
      split at this <;> cases this

/-- The tables of a space. -/
def tablesOf (b : Build) (s : Tables) (r : ℕ) : List ℕ :=
  under Entry.link s.mem (List.range (pageDirNum b)) (depth b - 1) r (List.range (kernelRoot b))

theorem kernelRoot_le : kernelRoot b ≤ pageDirNum b := by
  rcases sizes (b := b) with ⟨-, h1, -, h2⟩ | ⟨-, h1, -, h2⟩ | ⟨-, h1, -, h2⟩ <;> omega

theorem depth_pos : 0 < depth b := by
  unfold depth
  split <;> decide

theorem low_cons {p : List ℕ} : Low b (i :: p) ↔ i < kernelRoot b ∧ p.length ≤ depth b - 1 ∧ ∀ j ∈ p, j < pageDirNum b := by
  have hd := depth_pos (b := b)
  constructor
  · rintro ⟨hlen, hlt, hhead⟩
    rw [List.length_cons] at hlen
    exact ⟨hhead i rfl, by omega, fun j hj => hlt j (List.mem_cons_of_mem i hj)⟩
  · rintro ⟨hi, hlen, hlt⟩
    refine ⟨by rw [List.length_cons]; omega, List.forall_mem_cons.mpr ⟨hi.trans_le kernelRoot_le, hlt⟩, fun j hj => ?_⟩
    cases hj
    exact hi

theorem mem_tablesOf : t ∈ tablesOf b s r ↔ ∃ p, p ≠ [] ∧ Low b p ∧ walk Entry.link s.mem r p = some t := by
  rw [tablesOf, mem_under]
  constructor
  · rintro ⟨i, hi, x, hx, ht⟩
    obtain ⟨p, hlen, hp, hw⟩ := mem_below.mp ht
    refine ⟨i :: p, List.cons_ne_nil i p, low_cons.mpr ⟨List.mem_range.mp hi, hlen, fun j hj => List.mem_range.mp (hp j hj)⟩, ?_⟩
    rw [walk, hx, Option.bind_some, hw]
  · rintro ⟨p, hne, hp, hw⟩
    cases p with
    | nil => exact absurd rfl hne
    | cons i p =>
      obtain ⟨hi, hlen, hlt⟩ := low_cons.mp hp
      rw [walk] at hw
      obtain ⟨x, hx, hw⟩ := Option.bind_eq_some_iff.mp hw
      exact ⟨i, List.mem_range.mpr hi, x, hx, mem_below.mpr ⟨p, hlen, fun j hj => List.mem_range.mpr (hlt j hj), hw⟩⟩

theorem Sound.tablesOf_nodup (h : Sound w s live taken) (hr : r ∈ live) : (tablesOf b s r).Nodup := by
  have hpath : ∀ i ∈ List.range (kernelRoot b), ∀ (x u : ℕ) (p : List ℕ), (s.mem r i).link = some x → p.length ≤ depth b - 1 →
      (∀ j ∈ p, j ∈ List.range (pageDirNum b)) → walk Entry.link s.mem x p = some u →
      Low b (i :: p) ∧ walk Entry.link s.mem r (i :: p) = some u := by
    intro i hi x u p hx hlen hp hw
    refine ⟨low_cons.mpr ⟨List.mem_range.mp hi, hlen, fun j hj => List.mem_range.mp (hp j hj)⟩, ?_⟩
    rw [walk, hx, Option.bind_some, hw]
  refine nodup_under List.nodup_range (fun i hi x hx => Straight.nodup List.nodup_range ?_) ?_
  · intro p p' u hlen hlen' hp hp' hw hw'
    obtain ⟨hl, ht⟩ := hpath i hi x u p hx hlen hp hw
    obtain ⟨hl', ht'⟩ := hpath i hi x u p' hx hlen' hp' hw'
    exact (List.cons.inj (h.once r _ r _ u hr hr hl hl' ht ht').2).2
  · intro i hi j hj x y u hx hy hu hu'
    obtain ⟨p, hlen, hp, hw⟩ := mem_below.mp hu
    obtain ⟨p', hlen', hp', hw'⟩ := mem_below.mp hu'
    obtain ⟨hl, ht⟩ := hpath i hi x u p hx hlen hp hw
    obtain ⟨hl', ht'⟩ := hpath j hj y u p' hy hlen' hp' hw'
    exact (List.cons.inj (h.once r _ r _ u hr hr hl hl' ht ht').2).1

theorem freePageTables_eq (s : Tables) (scrap : Option ℕ → Entry) (vm : ℕ) : s.freePageTables b scrap vm =
    releaseUnder Entry.link Tables.mem (fun s t => s.kfreePage scrap t) (List.range (pageDirNum b)) (depth b - 1)
      (List.range (kernelRoot b)) s vm := by
  unfold freePageTables releaseUnder depth
  refine congrArg (fun f => List.foldl f s (List.range (kernelRoot b))) ?_
  funext s i
  by_cases h : (s.mem vm i).entryType = 0
  · rw [if_pos h, link_eq_none h]
    rfl
  · rw [if_neg h, Entry.link, if_neg h, Option.elim_some]
    split_ifs
    · rfl
    · rw [release]
      refine congrArg (fun s => kfreePage scrap s _) ?_
      refine congrArg (fun f => List.foldl f s (List.range (pageDirNum b))) ?_
      funext s j
      unfold Entry.link
      split_ifs <;> rfl

theorem kfreePage_stay (scrap : Option ℕ → Entry) (s : Tables) (t u : ℕ) (h : u ≠ t) : (s.kfreePage scrap t).mem u = s.mem u :=
  Function.update_of_ne h _ _

theorem Sound.gives {vm : ℕ} (h : Sound w s live taken) (hvm : vm ∈ live) :
    Gives Tables.mem Tables.free s (tablesOf b s vm) (s.freePageTables b w.scrap vm) := by
  rw [freePageTables_eq]
  refine releaseUnder_spec (m := s.mem) (fun s t hnd => release_spec (fun _ _ => rfl) (kfreePage_stay w.scrap) _ s t hnd)
    (fun _ _ => rfl) rfl (h.tablesOf_nodup hvm) fun hc => ?_
  obtain ⟨p, hne, hp, hw⟩ := mem_tablesOf.mp hc
  exact h.roots vm hvm (h.inside vm p vm hvm hp hne hw)

/-- A directory goes, and its tables are free. -/
theorem Sound.freePageTables {vm : ℕ} (h : Sound w s live taken) (hvm : vm ∈ live) :
    Sound w (s.freePageTables b w.scrap vm) (live.erase vm) taken ∧
      (s.freePageTables b w.scrap vm).free = (tablesOf b s vm).reverse ++ s.free ∧
      (∀ r ∈ live, r ≠ vm → tablesOf b (s.freePageTables b w.scrap vm) r = tablesOf b s r) ∧
      Same b (live.erase vm) s (s.freePageTables b w.scrap vm) := by
  obtain ⟨hfree, hstay⟩ := h.gives hvm
  generalize s.freePageTables b w.scrap vm = s' at hfree hstay
  have hmem : ∀ {r}, r ∈ live.erase vm ↔ r ≠ vm ∧ r ∈ live := h.nodup.mem_erase_iff
  -- what another space finds is no table of this one
  have hout : ∀ r p t, r ∈ live → r ≠ vm → Low b p → walk Entry.link s.mem r p = some t → t ∉ tablesOf b s vm := by
    intro r p t hr hne hp ht hc
    obtain ⟨p', -, hp', ht'⟩ := mem_tablesOf.mp hc
    exact hne (h.once r p vm p' t hr hvm hp hp' ht ht').1
  have hw : ∀ r p, r ∈ live.erase vm → Low b p → walk Entry.link s'.mem r p = walk Entry.link s.mem r p := by
    intro r p hr hp
    refine walk_off (S := scope b (live.erase vm)) (fun r q i u hr hq hu => ?_) hr hp
    obtain ⟨hne, hr⟩ := hmem.mp hr
    rw [hstay u (hout r q u hr hne hq.init hu)]
  have htab : ∀ t, t ∈ tablesOf b s vm → t ∈ w.pages ∧ Found (scope b live) Entry.link s.mem t := by
    intro t ht
    obtain ⟨p, hne, hp, ht⟩ := mem_tablesOf.mp ht
    exact ⟨h.inside vm p t hvm hp hne ht, vm, p, hvm, hp, ht⟩
  have hsplit : ∀ t, t ∈ s'.free ++ taken ↔ t ∈ tablesOf b s vm ∨ t ∈ s.free ++ taken := by
    intro t
    rw [hfree, List.append_assoc, List.mem_append, List.mem_reverse]
  refine ⟨⟨?_, ?_, fun t ht => ?_, fun t ht hnot => ?_, fun r p t hr hp hne ht => ?_, fun r hr => ?_, h.nodup.erase vm⟩, hfree,
    fun r hr hne => ?_, fun r hr v hv => ?_⟩
  · intro r p r' p' t hr hr' hp hp' ht ht'
    rw [hw r p hr hp] at ht
    rw [hw r' p' hr' hp'] at ht'
    exact h.once r p r' p' t (hmem.mp hr).2 (hmem.mp hr').2 hp hp' ht ht'
  · rw [hfree, List.append_assoc]
    refine List.nodup_append.mpr ⟨List.nodup_reverse.mpr (h.tablesOf_nodup hvm), h.spare, ?_⟩
    rintro t ht u hu rfl
    exact (h.idle t hu).2 (htab t (List.mem_reverse.mp ht)).2
  · rcases (hsplit t).mp ht with ht | ht
    · refine ⟨(htab t ht).1, ?_⟩
      rintro ⟨r, p, hr, hp, hx⟩
      rw [hw r p hr hp] at hx
      exact hout r p t (hmem.mp hr).2 (hmem.mp hr).1 hp hx ht
    · refine ⟨(h.idle t ht).1, ?_⟩
      rintro ⟨r, p, hr, hp, hx⟩
      rw [hw r p hr hp] at hx
      exact (h.idle t ht).2 ⟨r, p, (hmem.mp hr).2, hp, hx⟩
  · rw [hsplit, not_or] at hnot
    obtain ⟨r, p, hr, hp, hx⟩ := h.cover t ht hnot.2
    by_cases hrv : r = vm
    · rw [hrv] at hx
      cases p with
      | nil =>
        rw [walk, Option.some.injEq] at hx
        exact absurd (hx ▸ ht) (h.roots vm hvm)
      | cons i p => exact absurd (mem_tablesOf.mpr ⟨i :: p, List.cons_ne_nil i p, hp, hx⟩) hnot.1
    · have hr' : r ∈ live.erase vm := hmem.mpr ⟨hrv, hr⟩
      exact ⟨r, p, hr', hp, (hw r p hr' hp).trans hx⟩
  · rw [hw r p hr hp] at ht
    exact h.inside r p t (hmem.mp hr).2 hp hne ht
  · exact h.roots r (hmem.mp hr).2
  · -- the tables of another space are still those it finds, in the same order
    have hkeep : ∀ t, t ∈ tablesOf b s r → t ∉ tablesOf b s vm := by
      intro t ht
      obtain ⟨p, -, hp, hx⟩ := mem_tablesOf.mp ht
      exact hout r p t hr hne hp hx
    refine List.flatMap_congr fun i hi => ?_
    rw [hstay r (hout r [] r hr hne low_nil rfl)]
    cases hx : (s.mem r i).link with
    | none => rfl
    | some x => exact below_congr fun u hu => hstay u (hkeep u (mem_under.mpr ⟨i, hi, x, hx, hu⟩))
  · rw [look, look, hw r _ hr (low_pathOf hv)]
    refine Option.bind_congr fun x hx => ?_
    rw [hstay x (hout r _ x (hmem.mp hr).2 (hmem.mp hr).1 (low_pathOf hv) hx)]

end EwokOS.Memory.Mmu
