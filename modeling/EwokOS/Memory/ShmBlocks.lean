import EwokOS.Memory.Shm
import EwokOS.Memory.ShmPoolRun

/-! The blocks of the two windows, and the segments among them.

    `Window` says that the blocks of each kind tile their window, `Live` what holds of the used ones:
    they have pages, ids of their own, runs of the slab of their own, and as many references as there
    are spaces that list them. Cutting and joining free blocks changes the one and not the other. -/

namespace EwokOS.Memory.Shm

open Schemes (Tiles tiles_append Apart cutFirst cutFirst_some cutFirst_none)

variable {b : Build} {L : Layout b} {s : Shm} {segs pre post l l' : List Seg} {g h : Seg} {t : Bool → ℕ}
  {k : Bool} {n idc : ℕ} {pool pool' : List Run} {spaces : List (List ℕ)}

theorem cut_eq (p : Seg → Bool) (l : List Seg) : cut p l = cutFirst p l := by
  induction l with
  | nil => rfl
  | cons x l ih => rw [cut, cutFirst, ih]

theorem cut_some {p : Seg → Bool} (hc : cut p segs = some (pre, g, post)) :
    segs = pre ++ g :: post ∧ p g = true := cutFirst_some ((cut_eq p segs).symm.trans hc)

/-! ### Windows -/

def winBase (L : Layout b) (contig : Bool) : ℕ := if contig then L.contigBase else L.base

/-- The blocks of one kind. -/
def kind (k : Bool) (segs : List Seg) : List Seg := segs.filter fun g => g.contig == k

theorem kind_append : kind k (l ++ l') = kind k l ++ kind k l' := List.filter_append ..

theorem kind_cons : kind k (g :: l) = if g.contig = k then g :: kind k l else kind k l := by
  rw [kind, List.filter_cons, kind]
  simp only [beq_iff_eq]

theorem kind_same (hg : ∀ g ∈ l, g.contig = k) : kind k l = l :=
  List.filter_eq_self.mpr fun g hm => by rw [hg g hm, beq_self_eq_true]

theorem kind_other (hg : ∀ g ∈ l, g.contig ≠ k) : kind k l = [] :=
  List.filter_eq_nil_iff.mpr fun g hm => by simpa using hg g hm

/-- The bytes of a block. -/
def bytes (b : Build) (g : Seg) : ℕ := g.pages * b.page

/-- The blocks of each kind tile their window. -/
def Window (L : Layout b) (segs : List Seg) (t : Bool → ℕ) : Prop :=
  ∀ k, Tiles Seg.addr (bytes b) (winBase L k) (kind k segs) (t k)

/-- A block is replaced by blocks of its kind over the same bytes. -/
theorem Window.replace (hw : Window L (pre ++ g :: post) t) (hl : ∀ x ∈ l, x.contig = g.contig)
    (ht : Tiles Seg.addr (bytes b) g.addr l (g.addr + bytes b g)) :
    Window L (pre ++ (l ++ post)) t := by
  intro k
  have h := hw k
  rw [kind_append, kind_cons] at h
  rw [kind_append, kind_append]
  split_ifs at h with hk
  · rw [kind_same fun x hx => (hl x hx).trans hk]
    exact h.replace ht
  · rw [kind_other fun x hx he => hk ((hl x hx).symm.trans he), List.nil_append]
    exact h

/-- Two neighbours of one kind become one block. -/
theorem Window.merge {x : Seg} (hw : Window L (pre ++ g :: h :: post) t) (hk : h.contig = g.contig)
    (ha : x.addr = g.addr) (hc : x.contig = g.contig) (hp : x.pages = g.pages + h.pages) :
    Window L (pre ++ x :: post) t := by
  intro k
  have hkk := hw k
  rw [kind_append, kind_cons, kind_cons, hk] at hkk
  rw [kind_append, kind_cons, hc]
  split_ifs at hkk ⊢
  · obtain ⟨m, h₁, hgm, hhm, h₂⟩ := tiles_append.mp hkk
    refine tiles_append.mpr ⟨m, h₁, ha.trans hgm, ?_⟩
    rwa [bytes, hp, Nat.add_mul, ← Nat.add_assoc]
  · exact hkk

/-- A block is added behind the tail of its kind. -/
theorem Window.append (hw : Window L segs t) (ha : g.addr = t g.contig) :
    Window L (segs ++ [g]) (Function.update t g.contig (t g.contig + bytes b g)) := by
  intro k
  rw [kind_append, kind_cons]
  split_ifs with hk
  · rw [← hk, Function.update_self]
    exact tiles_append.mpr ⟨t g.contig, hw _, ha, rfl⟩
  · rw [Function.update_of_ne (Ne.symm hk)]
    exact (List.append_nil (kind k segs)).symm ▸ hw k

/-! ### Segments -/

/-- The used blocks. -/
def live (segs : List Seg) : List Seg := segs.filter Seg.used

theorem live_append : live (l ++ l') = live l ++ live l' := List.filter_append ..

theorem live_cons : live (g :: l) = if g.used then g :: live l else live l := List.filter_cons

theorem mem_live : g ∈ live segs ↔ g ∈ segs ∧ g.used = true := List.mem_filter

/-- A segment is backed by a run of the slab. -/
def Backed (pool : List Run) (g : Seg) : Prop :=
  ∃ r ∈ pool, r.paddr = g.phyBase ∧ r.paddr ≠ 0 ∧ r.used = true ∧ g.pages ≤ r.pages

/-- What holds of the segments. -/
structure Live (idc : ℕ) (pool : List Run) (spaces : List (List ℕ)) (l : List Seg) : Prop where
  pos : ∀ g ∈ l, 0 < g.pages
  ids : (l.map Seg.id).Nodup
  idLt : ∀ g ∈ l, 0 < g.id ∧ g.id < idc
  backed : ∀ g ∈ l, g.contig = true → Backed pool g
  phys : ((l.filter Seg.contig).map Seg.phyBase).Nodup
  refs : ∀ g ∈ l, g.refs = (spaces.countP fun x => decide (g.id ∈ x) : ℕ)

namespace Live

theorem perm (h : Live idc pool spaces l) (hp : l'.Perm l) : Live idc pool spaces l' :=
  ⟨fun g hg => h.pos g (hp.mem_iff.mp hg), (hp.map _).nodup_iff.mpr h.ids,
    fun g hg => h.idLt g (hp.mem_iff.mp hg), fun g hg => h.backed g (hp.mem_iff.mp hg),
    ((hp.filter _).map _).nodup_iff.mpr h.phys, fun g hg => h.refs g (hp.mem_iff.mp hg)⟩

/-- The slab changes, but not under the segments. -/
theorem repool (h : Live idc pool spaces l) (hp : ∀ g ∈ l, g.contig = true → Backed pool' g) :
    Live idc pool' spaces l := ⟨h.pos, h.ids, h.idLt, hp, h.phys, h.refs⟩

theorem tail (h : Live idc pool spaces (g :: l)) : Live idc pool spaces l := by
  refine ⟨fun x hx => h.pos x (List.mem_cons_of_mem g hx), (List.nodup_cons.mp h.ids).2,
    fun x hx => h.idLt x (List.mem_cons_of_mem g hx),
    fun x hx => h.backed x (List.mem_cons_of_mem g hx), ?_,
    fun x hx => h.refs x (List.mem_cons_of_mem g hx)⟩
  have hphys := h.phys
  rw [List.filter_cons] at hphys
  split_ifs at hphys
  · exact (List.nodup_cons.mp hphys).2
  · exact hphys

/-- A segment goes, and its run of the slab with it. -/
theorem freed {sl : Slab b} (h : Live idc pool spaces (g :: l)) (hp : ShmPool.Good b sl pool) :
    Live idc (poolAfter b g pool) spaces l ∧ ShmPool.Good b sl (poolAfter b g pool) := by
  rw [poolAfter]
  split_ifs with hc
  · obtain ⟨r, hr, hrp, hr0, hru, -⟩ := h.backed g List.mem_cons_self hc
    obtain ⟨hgood, hkept⟩ := ShmPool.free_spec hp hr hru hr0
    rw [hrp] at hgood hkept
    have hphys := h.phys
    rw [List.filter_cons, if_pos hc, List.map_cons, List.nodup_cons] at hphys
    refine ⟨h.tail.repool fun x hx hxc => ?_, hgood⟩
    obtain ⟨q, hq, hqp, hq0, hqu, hqn⟩ := h.tail.backed x hx hxc
    refine ⟨q, hkept q hq hq0 hqu fun he => hphys.1 ?_, hqp, hq0, hqu, hqn⟩
    rw [← he, hqp]
    exact List.mem_map_of_mem (List.mem_filter.mpr ⟨hx, hxc⟩)
  · exact ⟨h.tail, hp⟩

/-- A segment is created. -/
theorem cons (h : Live idc pool spaces l) (hid : g.id = idc) (h0 : 0 < idc) (hpos : 0 < g.pages)
    (hb : g.contig = true → Backed pool g)
    (hp : g.contig = true → ∀ x ∈ l, x.contig = true → x.phyBase ≠ g.phyBase)
    (hr : g.refs = 0) (hl : ∀ x ∈ spaces, ∀ id ∈ x, id < idc) :
    Live (idc + 1) pool spaces (g :: l) := by
  refine ⟨fun x hx => ?_, ?_, fun x hx => ?_, fun x hx hxc => ?_, ?_, fun x hx => ?_⟩
  · rcases List.mem_cons.mp hx with rfl | hx
    · exact hpos
    · exact h.pos x hx
  · refine List.nodup_cons.mpr ⟨fun hin => ?_, h.ids⟩
    obtain ⟨x, hx, hxg⟩ := List.mem_map.mp hin
    have := (h.idLt x hx).2
    omega
  · rcases List.mem_cons.mp hx with rfl | hx
    · omega
    · have := h.idLt x hx
      omega
  · rcases List.mem_cons.mp hx with rfl | hx
    · exact hb hxc
    · exact h.backed x hx hxc
  · rw [List.filter_cons]
    split_ifs with hc
    · refine List.nodup_cons.mpr ⟨fun hin => ?_, h.phys⟩
      obtain ⟨x, hx, hxg⟩ := List.mem_map.mp hin
      obtain ⟨hx, hxc⟩ := List.mem_filter.mp hx
      exact hp hc x hx hxc hxg
    · exact h.phys
  · rcases List.mem_cons.mp hx with rfl | hx
    · have hz : spaces.countP (fun y => decide (x.id ∈ y)) = 0 := by
        refine List.countP_eq_zero.mpr fun y hy hin => ?_
        have := hl y hy x.id (of_decide_eq_true hin)
        omega
      rw [hr, hz]
      rfl
    · exact h.refs x hx

end Live

/-! ### Freeing -/

/-- Free blocks have no references. -/
def Idle (segs : List Seg) : Prop := ∀ g ∈ segs, g.used = false → g.refs = 0

theorem mergeRight_spec (hw : Window L (pre ++ g :: post) t) (hu : g.used = false) :
    Window L (pre ++ (mergeRight g post).1 :: (mergeRight g post).2) t ∧
      live (mergeRight g post).2 = live post ∧ (mergeRight g post).1.used = false ∧
      (mergeRight g post).1.refs = g.refs ∧ ∀ x ∈ (mergeRight g post).2, x ∈ post := by
  cases post with
  | nil => exact ⟨hw, rfl, hu, rfl, nofun⟩
  | cons p l =>
    rw [mergeRight]
    split_ifs with hp
    · refine ⟨hw.merge hp.2 rfl rfl rfl, ?_, hu, rfl, fun x hx => List.mem_cons_of_mem p hx⟩
      rw [live_cons, hp.1]
      rfl
    · exact ⟨hw, rfl, hu, rfl, fun x hx => hx⟩

theorem mergeLeft_spec (hw : Window L (pre ++ g :: post) t) (hu : g.used = false)
    (hi : Idle pre) (hr : g.refs = 0) : Window L (mergeLeft pre g ++ post) t ∧
      live (mergeLeft pre g) = live pre ∧ Idle (mergeLeft pre g) := by
  have hlast : live (pre ++ [g]) = live pre := by
    rw [live_append, live_cons, hu]
    exact List.append_nil _
  have hidle : Idle (pre ++ [g]) := by
    intro x hx hxu
    rcases List.mem_append.mp hx with hx | hx
    · exact hi x hx hxu
    · rw [List.mem_singleton.mp hx]
      exact hr
  have hsame : Window L (pre ++ [g] ++ post) t := by
    rw [List.append_assoc]
    exact hw
  rcases List.eq_nil_or_concat pre with rfl | ⟨l, q, rfl⟩
  · exact ⟨hsame, hlast, hidle⟩
  · rw [List.concat_eq_append] at *
    rw [mergeLeft, List.getLast?_append, List.getLast?_singleton, Option.some_or]
    dsimp only
    split_ifs with hq
    · rw [List.dropLast_concat, List.append_assoc]
      have hl : l ++ [q] ++ g :: post = l ++ q :: g :: post := by simp
      refine ⟨Window.merge (hl ▸ hw) hq.2.symm rfl rfl rfl, ?_, fun x hx hxu => ?_⟩
      · rw [live_append, live_append, live_cons, live_cons, hq.1]
        rfl
      · rcases List.mem_append.mp hx with hx | hx
        · exact hi x (List.mem_append_left _ hx) hxu
        · rw [List.mem_singleton.mp hx]
          exact hi q (List.mem_append_right _ List.mem_cons_self) hq.1
    · exact ⟨hsame, hlast, hidle⟩

/-- `free_item` takes in the free neighbours of its kind, and no segment but the one that goes. -/
theorem mergeFree_spec (hw : Window L (pre ++ g :: post) t) (hi : Idle (pre ++ post))
    (hr : g.refs = 0) :
    Window L ((mergeFree pre g post).1 ++ (mergeFree pre g post).2) t ∧
      live ((mergeFree pre g post).1 ++ (mergeFree pre g post).2) = live pre ++ live post ∧
      Idle ((mergeFree pre g post).1 ++ (mergeFree pre g post).2) := by
  have hfree : Window L (pre ++ { g with used := false } :: post) t :=
    @Window.replace b L pre post [{ g with used := false }] g t hw (by simp) ⟨rfl, rfl⟩
  obtain ⟨hw₁, hlive, hu, hrefs, hsub⟩ := mergeRight_spec hfree rfl
  obtain ⟨hw₂, hlive', hidle⟩ := mergeLeft_spec hw₁ hu
    (fun x hx => hi x (List.mem_append_left _ hx)) (hrefs.trans hr)
  refine ⟨hw₂, ?_, fun x hx hxu => ?_⟩
  · rw [live_append, mergeFree, hlive', hlive]
  · rcases List.mem_append.mp hx with hx | hx
    · exact hidle x hx hxu
    · exact hi x (List.mem_append_right _ (hsub x hx)) hxu

end EwokOS.Memory.Shm
