import EwokOS.Schemes.Tally
import EwokOS.Ext3.Vol

/-! What taking and giving back a block does to a volume. -/

namespace EwokOS.Ext3.Vol

open Schemes Act

/-- No metadata write fails from now on. -/
def Quiet (v : Vol) : Prop := Fate.fails ∉ v.io

/-- `w` is `v` but for the bitmaps in the buffers, the writes to come, and what was committed since,
    which is what `v` holds. -/
structure Idle (v w : Vol) : Prop where
  eq : w = { v with
    bgroup := w.bgroup, bdirty := w.bdirty, io := w.io, seen := w.seen }
  quiet : v.Quiet → w.Quiet
  seen : ∀ x ∈ w.seen, x ∈ v.seen ∨ x = v.image

section
variable {v w u : Vol} {b c g : ℕ}

theorem Idle.refl (v : Vol) : Idle v v := ⟨rfl, id, fun _ h => .inl h⟩

theorem Idle.image (h : Idle v w) : w.image = v.image := by
  rw [h.eq]
  rfl

theorem Idle.trans (h : Idle v w) (h' : Idle w u) : Idle v u := by
  refine ⟨?_, fun hq => h'.quiet (h.quiet hq), fun x hx => ?_⟩
  · conv_lhs => rw [h'.eq, h.eq]
  · rcases h'.seen x hx with hx | rfl
    · exact h.seen x hx
    · exact .inr h.image

theorem writeMeta_spec (f : Vol → Vol) (v : Vol) :
    Sat (· = v) (writeMeta f) (fun _ w => ∃ u, Idle v u ∧ w = f u) (fun w => Idle v w ∧ ¬v.Quiet) := by
  rintro s rfl
  rw [writeMeta]
  split
  · next io hio =>
    refine ⟨fun a t ht => (by cases ht), fun t ht => ?_⟩
    cases ht
    have hfail : ¬s.Quiet := fun hq => hq (hio ▸ List.mem_cons_self)
    exact ⟨⟨rfl, fun hq => absurd hq hfail, fun _ h => .inl h⟩, hfail⟩
  · next io hio =>
    refine ⟨fun a t ht => ?_, fun t ht => (by cases ht)⟩
    cases ht
    refine ⟨_, ⟨rfl, fun hq hmem => hq (hio ▸ List.mem_cons_of_mem _ hmem), fun x hx => ?_⟩, rfl⟩
    rcases List.mem_cons.mp hx with rfl | hx
    · exact .inr rfl
    · exact .inl hx
  · refine ⟨fun a t ht => ?_, fun t ht => (by cases ht)⟩
    cases ht
    exact ⟨{ s with io := s.io.tail }, ⟨rfl, fun hq hmem => hq (List.mem_of_mem_tail hmem),
      fun _ h => .inl h⟩, rfl⟩

/-- A metadata write without effect on the volume. -/
theorem writeMeta_idle {f : Vol → Vol} (hf : ∀ u, Idle u (f u)) (v : Vol) :
    Sat (· = v) (writeMeta f) (fun _ w => Idle v w) (fun w => Idle v w ∧ ¬v.Quiet) := by
  refine (writeMeta_spec f v).mono (fun _ h => h) ?_ fun _ h => h
  rintro _ _ ⟨u, hu, rfl⟩
  exact hu.trans (hf u)

theorem getBlockBitmap_spec (g : ℕ) (v : Vol) :
    Sat (· = v) (getBlockBitmap g) (fun _ w => Idle v w) (fun w => Idle v w ∧ ¬v.Quiet) := by
  refine sat_read (sat_ite (fun _ => sat_pure_eq (.refl v)) fun _ => ?_)
  refine sat_then (Q := fun _ w => Idle v w) ?_ ?_
  · refine sat_when (fun _ => ?_) fun _ s hs => hs ▸ .refl _
    refine writeMeta_idle (fun u => ?_) v
    exact ⟨rfl, id, fun _ h => .inl h⟩
  · intro _ w hw
    exact sat_modify_eq (hw.trans ⟨rfl, id, fun _ h => .inl h⟩)

/-! ### Bits -/

theorem bitOf_eq (g : Geo) (b : ℕ) (hb : g.first ≤ b) : g.bitOf b = (b - g.first) % g.perGroup := by
  rw [Geo.bitOf, Geo.groupOf]
  have h := Nat.div_add_mod' (b - g.first) g.perGroup
  omega

/-- No two blocks share a bit. -/
theorem block_eq_of_bits {g : Geo} {a b : ℕ} (ha : g.first ≤ a) (hb : g.first ≤ b)
    (hg : g.groupOf a = g.groupOf b) (hi : g.bitOf a = g.bitOf b) : a = b := by
  rw [bitOf_eq g a ha, bitOf_eq g b hb] at hi
  rw [Geo.groupOf, Geo.groupOf] at hg
  have h₁ := Nat.div_add_mod' (a - g.first) g.perGroup
  have h₂ := Nat.div_add_mod' (b - g.first) g.perGroup
  rw [hg, hi] at h₁
  omega

theorem setBit_apply (m : ℕ → ℕ → Bool) (g i : ℕ) (x : Bool) (g' i' : ℕ) :
    setBit m g i x g' i' = if g' = g ∧ i' = i then x else m g' i' := by
  rw [setBit]
  by_cases hg : g' = g
  · subst hg
    rw [Function.update_self]
    by_cases hi : i' = i
    · subst hi
      rw [Function.update_self, if_pos ⟨rfl, rfl⟩]
    · rw [Function.update_of_ne hi, if_neg fun h => hi h.2]
  · rw [Function.update_of_ne hg, if_neg fun h => hg h.1]

theorem used_markBlock {x : Bool} (hb : v.geo.first ≤ b) (hc : v.geo.first ≤ c) :
    (markBlock b x v).used c = if c = b then x else v.used c := by
  show setBit v.bmap (v.geo.groupOf b) (v.geo.bitOf b) x (v.geo.groupOf c) (v.geo.bitOf c) = _
  rw [setBit_apply]
  by_cases hcb : c = b
  · rw [if_pos ⟨by rw [hcb], by rw [hcb]⟩, if_pos hcb]
  · rw [if_neg fun h => hcb (block_eq_of_bits hc hb h.1 h.2), if_neg hcb]
    rfl

/-- Whether block `b` of the volume is free. -/
def clear (v : Vol) (b : ℕ) : Bool := decide (v.geo.first ≤ b) && !v.used b

/-- The counters say how many blocks are free. -/
structure Books (v : Vol) : Prop where
  free : v.free = tally v.geo.count id v.clear
  group : ∀ g, v.groupFree g = tally v.geo.count id fun b => v.clear b && decide (v.geo.groupOf b = g)

theorem clear_markBlock {x : Bool} (hb : v.geo.first ≤ b) :
    (markBlock b x v).clear = Function.update v.clear b (!x) := by
  funext c
  show (decide (v.geo.first ≤ c) && !(markBlock b x v).used c) = _
  by_cases hc : v.geo.first ≤ c
  · rw [used_markBlock hb hc]
    by_cases hcb : c = b
    · subst hcb
      rw [Function.update_self, if_pos rfl, decide_eq_true hc, Bool.true_and]
    · rw [Function.update_of_ne hcb, if_neg hcb]
      rfl
  · have hcb : c ≠ b := by
      rintro rfl
      exact hc hb
    rw [Function.update_of_ne hcb, clear, decide_eq_false hc, Bool.false_and, Bool.false_and]

/-- Marking a block that was not marked so keeps the books. -/
theorem Books.marked (h : Books v) {x : Bool} (hb : v.geo.first ≤ b) (hc : b < v.geo.count)
    (hx : v.used b = !x) : Books (markBlock b x v) := by
  have hold : v.clear b = x := by
    rw [clear, decide_eq_true hb, hx, Bool.true_and, Bool.not_not]
  have hmark : ∀ y : Bool, mark id y = if y then 1 else 0 := fun y => rfl
  constructor
  · show (if x then v.free - 1 else v.free + 1) = tally v.geo.count id (markBlock b x v).clear
    rw [clear_markBlock hb, tally_update hc, hold, ← h.free, hmark, hmark]
    cases x <;> simp
  · intro g
    show Function.update v.groupFree (v.geo.groupOf b) _ g = tally v.geo.count id fun c =>
      (markBlock b x v).clear c && decide (v.geo.groupOf c = g)
    have hfun : (fun c => (markBlock b x v).clear c && decide (v.geo.groupOf c = g)) =
        Function.update (fun c => v.clear c && decide (v.geo.groupOf c = g)) b
          (!x && decide (v.geo.groupOf b = g)) := by
      funext c
      rw [clear_markBlock hb]
      by_cases hcb : c = b
      · subst hcb
        rw [Function.update_self, Function.update_self]
      · rw [Function.update_of_ne hcb, Function.update_of_ne hcb]
    rw [hfun, tally_update hc, hold, ← h.group g, hmark, hmark]
    by_cases hg : g = v.geo.groupOf b
    · subst hg
      rw [Function.update_self]
      cases x <;> simp
    · rw [Function.update_of_ne hg, decide_eq_false fun he => hg he.symm]
      simp

theorem Idle.books (h : Idle v w) (hb : Books v) : Books w := by
  rw [h.eq]
  exact ⟨hb.free, hb.group⟩

/-! ### Allocation -/

/-- `b` has been allocated. -/
def took (b : ℕ) (v : Vol) : Vol :=
  { markBlock b true v with next := if v.geo.count ≤ b + 1 then v.geo.first else b + 1 }

theorem Idle.used (h : Idle v w) (b : ℕ) : w.used b = v.used b := by
  rw [h.eq]
  rfl

theorem Idle.geo (h : Idle v w) : w.geo = v.geo := by
  rw [h.eq]

theorem ballocFrom_spec (l : List ℕ) (v : Vol) :
    Sat (· = v) (ballocFrom l) (fun b w => b ∈ l ∧ v.used b = false ∧ ∃ u, Idle v u ∧ w = took b u)
      (fun w => Idle v w ∧ (v.Quiet → ∀ b ∈ l, v.used b = true)) := by
  induction l generalizing v with
  | nil => exact sat_fail_eq ⟨.refl v, fun _ => nofun⟩
  | cons b l ih =>
    refine sat_read (sat_then (Q := fun _ w => Idle v w) ?_ fun _ w hw => sat_read (sat_ite ?_ ?_))
    · refine (getBlockBitmap_spec _ v).mono (fun _ h => h) (fun _ _ h => h) ?_
      exact fun w hw => ⟨hw.1, fun hq => absurd hq hw.2⟩
    · intro hu
      refine (ih w).mono (fun _ h => h) ?_ ?_
      · rintro a t ⟨ha, hfree, u, hu', rfl⟩
        exact ⟨List.mem_cons_of_mem b ha, hw.used a ▸ hfree, u, hw.trans hu', rfl⟩
      · rintro t ⟨ht, hall⟩
        refine ⟨hw.trans ht, fun hq a ha => ?_⟩
        rcases List.mem_cons.mp ha with rfl | ha
        · exact hw.used a ▸ hu
        · exact hw.used a ▸ hall (hw.quiet hq) a ha
    · intro hu
      refine sat_set (sat_pure_eq ⟨List.mem_cons_self, ?_, w, hw, rfl⟩)
      rw [← hw.used b]
      exact Bool.eq_false_iff.mpr hu

theorem allocStart_mem (v : Vol) (h : v.geo.first ≤ v.geo.count) :
    v.geo.first ≤ v.allocStart ∧ v.allocStart ≤ v.geo.count := by
  rw [allocStart]
  split_ifs with hc <;> omega

theorem mem_allocOrder (h : v.geo.first ≤ v.geo.count) :
    b ∈ v.allocOrder ↔ v.geo.first ≤ b ∧ b < v.geo.count := by
  obtain ⟨h₁, h₂⟩ := allocStart_mem v h
  rw [allocOrder, List.mem_append, List.mem_range'_1, List.mem_range'_1]
  omega

/-- A block that is given out was free and lies in the volume; it is refused only when there is none. -/
theorem balloc_spec (v : Vol) (h : v.geo.first ≤ v.geo.count) :
    Sat (· = v) balloc
      (fun b w => v.geo.first ≤ b ∧ b < v.geo.count ∧ v.used b = false ∧ ∃ u, Idle v u ∧ w = took b u)
      (fun w => Idle v w ∧ (v.Quiet → ∀ b, v.geo.first ≤ b → b < v.geo.count → v.used b = true)) := by
  refine sat_read ((ballocFrom_spec _ v).mono (fun _ h => h) ?_ ?_)
  · rintro b w ⟨hb, hw⟩
    obtain ⟨h₁, h₂⟩ := (mem_allocOrder h).mp hb
    exact ⟨h₁, h₂, hw⟩
  · rintro w ⟨hw, hall⟩
    exact ⟨hw, fun hq b h₁ h₂ => hall hq b ((mem_allocOrder h).mpr ⟨h₁, h₂⟩)⟩

/-- `b` has been given back. -/
theorem bdealloc_spec (b : ℕ) (hb : b ≠ 0) (v : Vol) :
    Sat (· = v) (bdealloc b) (fun _ w => ∃ u, Idle (forgetBlock b v) u ∧ w = markBlock b false u)
      (fun w => Idle (forgetBlock b v) w ∧ ¬v.Quiet) := by
  rw [bdealloc, if_neg hb]
  refine sat_set (sat_read (sat_then (Q := fun _ w => Idle (forgetBlock b v) w) ?_ fun _ w hw => ?_))
  · exact (getBlockBitmap_spec _ _).mono (fun _ h => h) (fun _ _ h => h) fun _ h => h
  · exact sat_modify_eq ⟨w, hw, rfl⟩

end

end EwokOS.Ext3.Vol
