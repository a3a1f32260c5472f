import EwokOS.Schemes.Descend
import EwokOS.Vfs.Prune

/-! When `vfsd_del_node` refuses, and what it has freed by then.

    The recursion tries all the kids of a node before it looks whether one of them has stayed, so a kid that
    nobody holds open goes even when its brother keeps the father:

              n                         n                    (* open)
            /   \      --delete-->        \
           a     b*                        b*                refused, and a has gone

    A node goes when nothing in its subtree is open and the subtree is not too deep. So the delete of `n`
    goes through as a whole, or it is refused; and then nothing at all has gone only if every way from `n`
    down to a node without kids is too long or meets an open node. -/

namespace EwokOS.Vfs

open Schemes Vfsd

/-- Nobody holds the node open. -/
def Unheld (s : Vfsd) (n : ℕ) : Prop := ∀ x, s.node n = some x → x.refs = 0

/-- The lists of the kids that are still there. -/
def thin (K : ℕ → List ℕ) (t : Vfsd) (n : ℕ) : List ℕ := (K n).filter fun c => (t.node c).isSome

section
variable {K : ℕ → List ℕ} {s t u : Vfsd} {n c m : ℕ} {x : Node}

theorem mem_thin : c ∈ thin K t n ↔ c ∈ K n ∧ ∃ y, t.node c = some y := by
  simp only [thin, List.mem_filter, Option.isSome_iff_exists]

/-- What is gone stays gone. -/
theorem thin_thin (h : ∀ m y, u.node m = some y → ∃ z, t.node m = some z) : thin (thin K t) u = thin K u := by
  funext n
  simp only [thin, List.filter_filter]
  refine List.filter_congr fun c _ => ?_
  cases hu : u.node c with
  | none => rfl
  | some y =>
    obtain ⟨z, hz⟩ := h c y hu
    rw [hz]
    rfl

theorem Trees.thin_self (h : Trees K s) : thin K s = K := by
  funext n
  refine List.filter_eq_self.mpr fun c hc => ?_
  obtain ⟨y, hy, -⟩ := h.kid n c hc
  rw [hy]
  rfl

/-! ### Where the nodes of a subtree stand -/

namespace Trees
variable (h : Trees K s)
include h

theorem kid_up (hc : c ∈ K n) : up s c = some n := by
  obtain ⟨y, hy, rfl⟩ := h.kid n c hc
  refine up_eq hy fun hf => ?_
  rw [hf, h.dead 0 h.null] at hc
  cases hc

theorem under (hb : Below K n m) : Under (up s) m n := by
  obtain ⟨d, hd⟩ := hb
  induction hd with
  | self => exact .self _
  | kid _ hc _ ih => exact ih.trans (.go (h.kid_up hc) (.self _))

theorem not_below_kid (hc : c ∈ K n) : ¬Below K c n :=
  fun hb => (h.ends c).not_under n (h.kid_up hc) (h.under hb)

/-- The subtrees of two brothers have nothing in common. -/
theorem disjoint {c' : ℕ} (hc : c ∈ K n) (hc' : c' ∈ K n) (hne : c ≠ c') (hb : Below K c m) : ¬Below K c' m := by
  have happart : ∀ {a b}, a ∈ K n → b ∈ K n → a ≠ b → ¬Under (up s) a b := by
    intro a b ha hb hab hu
    rcases hu.cases_up with rfl | ⟨f, hf, hu⟩
    · exact hab rfl
    · rw [h.kid_up ha] at hf
      cases hf
      exact (h.ends b).not_under n (h.kid_up hb) hu
  intro hb'
  rcases (h.under hb).total (h.under hb') with hu | hu
  · exact happart hc hc' hne hu
  · exact happart hc' hc (Ne.symm hne) hu

/-! ### One node goes -/

variable (hx : s.node n = some x)

omit h in
theorem free_self : (s.free n).node n = none := Function.update_self ..

include hx

omit h in
theorem free_other (hm : m ≠ n) : (s.free n).node m = (s.node m).map (unlinked n x m) := by
  refine (Function.update_of_ne hm _ _).trans ?_
  rw [unlink_node s hx]

omit h in
theorem free_back {y : Node} (hy : (s.free n).node m = some y) :
    m ≠ n ∧ ∃ z, s.node m = some z ∧ y = unlinked n x m z := by
  have hm : m ≠ n := by
    rintro rfl
    rw [free_self] at hy
    cases hy
  rw [free_other hx hm] at hy
  obtain ⟨z, hz, rfl⟩ := Option.map_eq_some_iff.mp hy
  exact ⟨hm, z, hz, rfl⟩

theorem thin_free : thin K (s.free n) = Function.update K x.father ((K x.father).erase n) := by
  have hthin : ∀ m, thin K (s.free n) m = (K m).filter (· ≠ n) := by
    intro m
    refine List.filter_congr fun c hc => ?_
    obtain ⟨y, hy, -⟩ := h.kid m c hc
    rcases eq_or_ne c n with rfl | hcn
    · simp [free_self]
    · simp [free_other hx hcn, hy, hcn]
  funext m
  rw [hthin]
  rcases eq_or_ne m x.father with rfl | hm
  · rw [Function.update_self, (h.nodup _).erase_eq_filter]
    exact List.filter_congr fun c _ => by simp [bne, beq_eq_decide]
  · rw [Function.update_of_ne hm]
    refine List.filter_eq_self.mpr fun c hc => ?_
    obtain ⟨y, hy, hf⟩ := h.kid m c hc
    have hcn : c ≠ n := by
      rintro rfl
      rw [hx] at hy
      cases hy
      exact hm hf.symm
    simpa using hcn

/-- What is not in the list of its father is not a neighbour of a node that is. -/
theorem not_beside {y : Node} (hy : s.node m = some y) (hm : m ∉ K y.father) : m ≠ x.next ∧ m ≠ x.prev := by
  have hm0 : m ≠ 0 := by
    rintro rfl
    rw [h.null] at hy
    cases hy
  by_cases hn : n ∈ K x.father
  · obtain ⟨l₁, l₂, hK, -, -, hprev, hnext⟩ := h.split_at hx hn
    have hout : m ∉ K x.father := by
      intro hin
      obtain ⟨z, hz, hf⟩ := h.kid _ m hin
      rw [hy] at hz
      cases hz
      exact hm (hf ▸ hin)
    rw [hK] at hout
    refine ⟨?_, ?_⟩
    · rw [hnext]
      cases l₂ with
      | nil => exact hm0
      | cons d l =>
        rintro rfl
        exact hout (by simp)
    · rw [hprev]
      rcases List.eq_nil_or_concat l₁ with rfl | ⟨l, d, rfl⟩
      · exact hm0
      · rw [List.concat_eq_append, getLastD_append_cons]
        rintro rfl
        exact hout (by simp)
  · obtain ⟨hnext, hprev⟩ := h.alone n x hx hn
    rw [hnext, hprev]
    exact ⟨hm0, hm0⟩

/-- A node without kids goes. -/
theorem free (hK : K n = []) : Trees (thin K (s.free n)) (s.free n) := by
  have hn0 : n ≠ 0 := by
    rintro rfl
    rw [h.null] at hx
    cases hx
  obtain ⟨hlink, hhead⟩ := h.unlink_any (t := s.free n) hx fun m hm => free_other hx hm
  rw [← h.thin_free hx] at hlink hhead
  refine ⟨?_, ?_, hlink, ?_, ?_, ?_, ?_, ?_, ?_⟩
  · rw [free_other hx hn0.symm, h.null]
    rfl
  · intro m hm
    have hKm : K m = [] := by
      rcases eq_or_ne m n with rfl | hmn
      · exact hK
      · rw [free_other hx hmn, Option.map_eq_none_iff] at hm
        exact h.dead m hm
    rw [thin, hKm, List.filter_nil]
  · exact fun m y hy => hhead m y (free_back hx hy).1 hy
  · exact fun m => (h.nodup m).filter _
  · intro m c hc
    obtain ⟨hc, y, hy⟩ := mem_thin.mp hc
    obtain ⟨z, hz, hf⟩ := h.kid m c hc
    obtain ⟨-, w, hw, rfl⟩ := free_back hx hy
    rw [hz] at hw
    cases hw
    exact ⟨_, hy, hf⟩
  · intro m y hy hm
    obtain ⟨-, z, hz, rfl⟩ := free_back hx hy
    have hm : m ∉ K z.father := fun hin => hm (mem_thin.mpr ⟨hin, _, hy⟩)
    obtain ⟨hnext, hprev⟩ := h.not_beside hx hz hm
    simp only [unlinked, hnext, hprev, if_false]
    exact h.alone m z hz hm
  · intro m
    refine (h.ends m).cut fun j => ?_
    rcases eq_or_ne j n with rfl | hj
    · exact .inl (by simp only [up, free_self])
    · right
      simp only [up, free_other hx hj]
      cases s.node j <;> rfl
  · obtain ⟨l, hnd, hl, hlen⟩ := h.count
    have hnl : n ∈ l := (hl n).mpr (by rw [hx]; rfl)
    refine ⟨l.erase n, hnd.erase n, fun m => ?_, ?_⟩
    · rw [hnd.mem_erase_iff, hl m]
      rcases eq_or_ne m n with rfl | hm
      · simp [free_self]
      · rw [free_other hx hm, Option.isSome_map]
        simp [hm]
    · rw [List.length_erase_of_mem hnl, hlen]
      simp only [Vfsd.free, unlink, hx, modify_count]

end Trees

/-! ### What may go -/

/-- From `s` to `t` some of the nodes `F` have gone, and who waited at them waits no more; the others are
    the same but for the links to kids and brothers. -/
structure Felled (F : ℕ → Prop) (K : ℕ → List ℕ) (s t : Vfsd) : Prop where
  trees : Trees (thin K t) t
  keep : ∀ m y, t.node m = some y → ∃ z, s.node m = some z ∧ bare y = bare z
  stay : ∀ m z, s.node m = some z → ¬F m → ∃ y, t.node m = some y
  wait : ∀ p w, t.wait p w =
    if (s.node (s.wait p w).node).isSome = true ∧ t.node (s.wait p w).node = none then
      { s.wait p w with node := 0 } else s.wait p w
  same : { t with node := s.node, count := s.count, wait := s.wait } = s

namespace Felled
variable {F F' : ℕ → Prop}

theorem refl (h : Trees K s) : Felled F K s s where
  trees := h.thin_self.symm ▸ h
  keep _ y hy := ⟨y, hy, rfl⟩
  stay _ z hz _ := ⟨z, hz⟩
  wait p w := by
    rw [if_neg]
    rintro ⟨hs, hn⟩
    rw [hn] at hs
    cases hs
  same := rfl

theorem trans (h : Felled F K s t) (h' : Felled F' (thin K t) t u) : Felled (fun m => F m ∨ F' m) K s u where
  trees := by
    have hthin := thin_thin (K := K) (t := t) (u := u) fun m y hy => by
      obtain ⟨z, hz, -⟩ := h'.keep m y hy
      exact ⟨z, hz⟩
    exact hthin ▸ h'.trees
  keep m y hy := by
    obtain ⟨z, hz, he⟩ := h'.keep m y hy
    obtain ⟨w, hw, he'⟩ := h.keep m z hz
    exact ⟨w, hw, he.trans he'⟩
  stay m z hz hm := by
    obtain ⟨y, hy⟩ := h.stay m z hz fun hF => hm (.inl hF)
    exact h'.stay m y hy fun hF => hm (.inr hF)
  wait p w := by
    have hnull : t.node 0 = none := h.trees.null
    rw [h'.wait p w, h.wait p w]
    generalize s.wait p w = e
    cases hs : s.node e.node with
    | none =>
      have ht : t.node e.node = none := by
        cases ht : t.node e.node with
        | none => rfl
        | some y =>
          obtain ⟨z, hz, -⟩ := h.keep _ y ht
          rw [hs] at hz
          cases hz
      simp [ht]
    | some z =>
      cases ht : t.node e.node with
      | none =>
        have hu : u.node e.node = none := by
          cases hu : u.node e.node with
          | none => rfl
          | some y =>
            obtain ⟨z, hz, -⟩ := h'.keep _ y hu
            rw [ht] at hz
            cases hz
        simp [hu, hnull]
      | some y => simp [ht]
  same := by
    have h₁ := h.same
    have h₂ := h'.same
    obtain ⟨⟩ := s
    obtain ⟨⟩ := t
    obtain ⟨⟩ := u
    simp only [Vfsd.mk.injEq] at h₁ h₂ ⊢
    simp_all

theorem widen (h : Felled F K s t) (hF : ∀ m, F m → F' m) : Felled F' K s t :=
  { h with stay := fun m z hz hm => h.stay m z hz fun hm' => hm (hF m hm') }

/-- Away from what may go, the lists and who is open stay. -/
theorem thin_eq (h : Felled F K s t) (hs : Trees K s) (hF : ∀ m, Below K c m → ¬F m) {a : ℕ} (ha : Below K c a) :
    thin K t a = K a := by
  refine List.filter_eq_self.mpr fun b hb => ?_
  obtain ⟨y, hy, -⟩ := hs.kid a b hb
  obtain ⟨z, hz⟩ := h.stay b y hy (hF b (ha.trans (Below.kid hb (.self b))))
  rw [hz]
  rfl

theorem unheld (h : Felled F K s t) (hF : ¬F m) : Unheld t m ↔ Unheld s m := by
  have hback : ∀ y, t.node m = some y → ∃ z, s.node m = some z ∧ y.refs = z.refs := by
    intro y hy
    obtain ⟨z, hz, he⟩ := h.keep m y hy
    exact ⟨z, hz, (congrArg Node.refs he :)⟩
  refine ⟨fun hc z hz => ?_, fun hc y hy => ?_⟩
  · obtain ⟨y, hy⟩ := h.stay m z hz hF
    obtain ⟨w, hw, he⟩ := hback y hy
    rw [hz] at hw
    cases hw
    exact he.symm.trans (hc y hy)
  · obtain ⟨z, hz, he⟩ := hback y hy
    exact he.trans (hc z hz)

theorem gone (h : Felled F K s t) (hm : s.node m = none) : t.node m = none := by
  cases ht : t.node m with
  | none => rfl
  | some y =>
    obtain ⟨z, hz, -⟩ := h.keep m y ht
    rw [hm] at hz
    cases hz

end Felled

theorem felled_free (h : Trees K s) (hx : s.node n = some x) (hK : K n = []) : Felled (· = n) K s (s.free n) where
  trees := h.free hx hK
  keep m y hy := by
    obtain ⟨-, z, hz, rfl⟩ := Trees.free_back hx hy
    exact ⟨z, hz, rfl⟩
  stay m z hz hm := ⟨_, by rw [Trees.free_other hx hm, hz]; rfl⟩
  wait p w := by
    have hwait : (s.free n).wait p w =
        if (s.wait p w).node = n then { s.wait p w with node := 0 } else s.wait p w := by
      simp only [Vfsd.free, unlink, hx]
      rfl
    rw [hwait]
    by_cases he : (s.wait p w).node = n
    · rw [if_pos he, if_pos]
      rw [he, hx]
      exact ⟨rfl, Trees.free_self⟩
    · rw [if_neg he, if_neg]
      rintro ⟨hs, hn⟩
      rw [Trees.free_other hx he, Option.map_eq_none_iff] at hn
      rw [hn] at hs
      cases hs
  same := by
    simp only [Vfsd.free, unlink, hx]
    rfl

/-! ### The recursion -/

/-- What deleting the node `n` comes to, with `k` levels left: `r` is the state after it and whether the
    node has gone. -/
structure Fell (K : ℕ → List ℕ) (s : Vfsd) (k n : ℕ) (r : Vfsd × Bool) : Prop where
  felled : Felled (Below K n) K s r.1
  gone : r.2 = true ↔ All K (Unheld s) k n
  whole : r.2 = true → ∀ m, Below K n m → r.1.node m = none
  shut : Shut K (Unheld s) k n → r = (s, false)
  frees : ¬Shut K (Unheld s) k n → ∃ m, Below K n m ∧ r.1.node m = none

/-- The same for some of the kids of one node. -/
structure FellKids (K : ℕ → List ℕ) (s : Vfsd) (k : ℕ) (l : List ℕ) (r : Vfsd × Bool) : Prop where
  felled : Felled (fun m => ∃ c ∈ l, Below K c m) K s r.1
  gone : r.2 = true ↔ ∀ c ∈ l, All K (Unheld s) k c
  whole : r.2 = true → ∀ c ∈ l, ∀ m, Below K c m → r.1.node m = none
  shut : (∀ c ∈ l, Shut K (Unheld s) k c) → r = (s, decide (l = []))
  frees : (∃ c ∈ l, ¬Shut K (Unheld s) k c) → ∃ c ∈ l, ∃ m, Below K c m ∧ r.1.node m = none

/-- `c` is dealt with, and then its brothers `l`. -/
theorem Fell.cons {k : ℕ} {l : List ℕ} {r v : Vfsd × Bool} (h : Trees K s) (hl : ∀ c' ∈ l, c' ∈ K n) (hc : c ∈ K n)
    (hcl : c ∉ l) (hr : Fell K s k c r) (hv : FellKids (thin K r.1) r.1 k l v) :
    FellKids K s k (c :: l) (v.1, r.2 && v.2) := by
  have hapart : ∀ c' ∈ l, ∀ m, Below K c' m → ¬Below K c m := by
    intro c' hc' m hm
    refine h.disjoint (hl c' hc') hc ?_ hm
    rintro rfl
    exact hcl hc'
  have hthin : ∀ c' ∈ l, ∀ a, Below K c' a → thin K r.1 a = K a :=
    fun c' hc' a ha => hr.felled.thin_eq h (hapart c' hc') ha
  have hclosed : ∀ c' ∈ l, ∀ a, Below K c' a → (Unheld r.1 a ↔ Unheld s a) :=
    fun c' hc' a ha => hr.felled.unheld (hapart c' hc' a ha)
  have hbelow : ∀ c' ∈ l, ∀ m, Below (thin K r.1) c' m ↔ Below K c' m :=
    fun c' hc' m => below_congr (hthin c' hc')
  have hall : ∀ c' ∈ l, (All (thin K r.1) (Unheld r.1) k c' ↔ All K (Unheld s) k c') :=
    fun c' hc' => all_congr (hthin c' hc') (hclosed c' hc')
  have hshut : ∀ c' ∈ l, (Shut (thin K r.1) (Unheld r.1) k c' ↔ Shut K (Unheld s) k c') :=
    fun c' hc' => shut_congr (hthin c' hc') (hclosed c' hc')
  refine ⟨?_, ?_, ?_, ?_, ?_⟩
  · refine (hr.felled.trans hv.felled).widen fun m hm => ?_
    rcases hm with hm | ⟨c', hc', hm⟩
    · exact ⟨c, List.mem_cons_self, hm⟩
    · exact ⟨c', List.mem_cons_of_mem c hc', (hbelow c' hc' m).mp hm⟩
  · rw [Bool.and_eq_true, hr.gone, hv.gone, List.forall_mem_cons]
    exact and_congr_right fun _ => forall₂_congr hall
  · intro hb
    obtain ⟨hb₁, hb₂⟩ := Bool.and_eq_true_iff.mp hb
    rw [List.forall_mem_cons]
    refine ⟨fun m hm => hv.felled.gone (hr.whole hb₁ m hm), fun c' hc' m hm => ?_⟩
    exact hv.whole hb₂ c' hc' m ((hbelow c' hc' m).mpr hm)
  · intro hs
    rw [List.forall_mem_cons] at hs
    obtain ⟨hs₁, hs₂⟩ := hs
    rw [hv.shut fun c' hc' => (hshut c' hc').mpr (hs₂ c' hc'), hr.shut hs₁]
    simp
  · rintro ⟨c', hc', hs⟩
    by_cases hs₁ : Shut K (Unheld s) k c
    · rcases List.mem_cons.mp hc' with rfl | hc'
      · exact absurd hs₁ hs
      · obtain ⟨d, hd, m, hm, hnone⟩ := hv.frees ⟨c', hc', fun h' => hs ((hshut c' hc').mp h')⟩
        exact ⟨d, List.mem_cons_of_mem c hd, m, (hbelow d hd m).mp hm, hnone⟩
    · obtain ⟨m, hm, hnone⟩ := hr.frees hs₁
      exact ⟨c, List.mem_cons_self, m, hm, hv.felled.gone hnone⟩

/-- The loop over the kids: those before `l` have been tried. -/
theorem fell_kids {k : ℕ} {del : Vfsd → ℕ → Vfsd × Bool}
    (hdel : ∀ (K : ℕ → List ℕ) (s : Vfsd) (c : ℕ) (y : Node), Trees K s → s.node c = some y → Fell K s k c (del s c))
    (l : List ℕ) {done : List ℕ} (h : Trees K s) (hK : K n = done ++ l) {f : ℕ} (hf : l.length < f) :
    FellKids K s k l (delKids del f s (l.headD 0)) := by
  induction l generalizing K s done f with
  | nil =>
    obtain ⟨f, rfl⟩ := Nat.exists_eq_succ_of_ne_zero (Nat.ne_of_gt hf)
    have he : delKids del (f + 1) s (([] : List ℕ).headD 0) = (s, true) := by
      simp only [delKids, List.headD_nil, h.null]
    rw [he]
    exact ⟨.refl h, by simp, by simp, by simp, by simp⟩
  | cons c l ih =>
    obtain ⟨f, rfl⟩ := Nat.exists_eq_succ_of_ne_zero (Nat.ne_of_gt (Nat.zero_lt_of_lt hf))
    have hin : ∀ c' ∈ c :: l, c' ∈ K n := fun c' hc' => hK ▸ List.mem_append_right _ hc'
    have hcl : c ∉ l := by
      have hnd := h.nodup n
      rw [hK] at hnd
      exact (List.nodup_cons.mp (List.nodup_append.mp hnd).2.1).1
    obtain ⟨y, hy, -⟩ := h.kid n c (hin c List.mem_cons_self)
    have hnext : y.next = l.headD 0 := by
      have hlk := h.linked n
      rw [hK] at hlk
      have := (linked_append.mp hlk).2.2.1
      simpa only [nextOf, hy, Option.elim] using this
    have hr := hdel K s c y h hy
    -- what was before has been thinned out, the brothers to come are all there
    have hK₁ : thin K (del s c).1 n = done.filter (fun a => ((del s c).1.node a).isSome) ++
        ([c].filter (fun a => ((del s c).1.node a).isSome)) ++ l := by
      have hkeep : l.filter (fun a => ((del s c).1.node a).isSome) = l := by
        refine List.filter_eq_self.mpr fun c' hc' => ?_
        have hc'K := hin c' (List.mem_cons_of_mem c hc')
        obtain ⟨z, hz, -⟩ := h.kid n c' hc'K
        obtain ⟨w, hw⟩ := hr.felled.stay c' z hz (h.disjoint hc'K (hin c List.mem_cons_self) (by
          rintro rfl
          exact hcl hc') (.self c'))
        rw [hw]
        rfl
      rw [thin, hK, List.filter_append, ← List.singleton_append, List.filter_append, hkeep, List.append_assoc]
    rw [List.length_cons] at hf
    have hv := ih (f := f) hr.felled.trees hK₁ (by omega)
    have he : delKids del (f + 1) s ((c :: l).headD 0) =
        ((delKids del f (del s c).1 (l.headD 0)).1, (del s c).2 && (delKids del f (del s c).1 (l.headD 0)).2) := by
      rw [List.headD_cons, delKids, hy]
      dsimp only
      rw [hnext]
    rw [he]
    exact hr.cons h (fun c' hc' => hin c' (List.mem_cons_of_mem c hc')) (hin c List.mem_cons_self) hcl hv

theorem fell_delDepth (k : ℕ) : ∀ (K : ℕ → List ℕ) (s : Vfsd) (n : ℕ) (x : Node), Trees K s → s.node n = some x →
    Fell K s k n (delDepth k s n) := by
  induction k with
  | zero =>
    intro K s n x h hx
    refine ⟨.refl h, ?_, ?_, fun _ => rfl, fun hs => absurd shut_zero hs⟩
    · exact ⟨fun hb => (by cases hb), fun ha => absurd ha not_all_zero⟩
    · exact fun hb => (by cases hb)
  | succ k ih =>
    intro K s n x h hx
    by_cases hr : 0 < x.refs
    · have he : delDepth (k + 1) s n = (s, false) := by
        rw [delDepth, hx]
        exact if_pos hr
      have hopen : ¬Unheld s n := fun hc => Nat.ne_of_gt hr (hc x hx)
      rw [he]
      refine ⟨.refl h, ?_, ?_, fun _ => rfl, fun hs => ?_⟩
      · exact ⟨fun hb => (by cases hb), fun ha => absurd (all_succ.mp ha).1 hopen⟩
      · exact fun hb => (by cases hb)
      · exact absurd (shut_succ.mpr fun hc => absurd hc hopen) hs
    · have hclosed : Unheld s n := by
        intro y hy
        rw [hx] at hy
        cases hy
        exact Nat.eq_zero_of_not_pos hr
      have hlen : (K n).length < s.count + 1 := by
        obtain ⟨l, -, hmem, hlen⟩ := h.count
        rw [← hlen]
        refine Nat.lt_succ_of_le (List.subperm_of_subset (h.nodup n) fun c hc => ?_).length_le
        obtain ⟨y, hy, -⟩ := h.kid n c hc
        exact (hmem c).mpr (by rw [hy]; rfl)
      have hv := fell_kids ih (K n) h (show K n = [] ++ K n from rfl) hlen
      have he : delDepth (k + 1) s n =
          if (delKids (delDepth k) (s.count + 1) s ((K n).headD 0)).2 then
            ((delKids (delDepth k) (s.count + 1) s ((K n).headD 0)).1.free n, true)
          else ((delKids (delDepth k) (s.count + 1) s ((K n).headD 0)).1, false) := by
        rw [delDepth, hx]
        dsimp only
        rw [if_neg hr, (h.head n x hx).1]
      rw [he]
      generalize delKids (delDepth k) (s.count + 1) s ((K n).headD 0) = v at hv
      have hwide : Felled (Below K n) K s v.1 := hv.felled.widen fun m hm => by
        obtain ⟨c, hc, hm⟩ := hm
        exact hm.kid hc
      by_cases hg : v.2 = true
      · -- the kids have gone, and the node goes too
        have hall : All K (Unheld s) (k + 1) n := all_succ.mpr ⟨hclosed, hv.gone.mp hg⟩
        have hout : ¬∃ c ∈ K n, Below K c n := by
          rintro ⟨c, hc, hm⟩
          exact h.not_below_kid hc hm
        obtain ⟨x₁, hx₁⟩ := hv.felled.stay n x hx hout
        have hnil : thin K v.1 n = [] := by
          refine List.eq_nil_iff_forall_not_mem.mpr fun c hc => ?_
          obtain ⟨hc, y, hy⟩ := mem_thin.mp hc
          rw [hv.whole hg c hc c (.self c)] at hy
          cases hy
        have hfree := felled_free hv.felled.trees hx₁ hnil
        rw [if_pos hg]
        refine ⟨?_, ⟨fun _ => hall, fun _ => rfl⟩, fun _ m hm => ?_, fun hs => absurd hs hall.not_shut, fun _ => ?_⟩
        · refine (hwide.trans hfree).widen fun m hm => ?_
          rcases hm with hm | rfl
          · exact hm
          · exact .self m
        · rcases below_iff.mp hm with rfl | ⟨c, hc, hm⟩
          · exact Trees.free_self
          · exact hfree.gone (hv.whole hg c hc m hm)
        · exact ⟨n, .self n, Trees.free_self⟩
      · rw [if_neg hg]
        refine ⟨hwide, ⟨fun hb => (by cases hb), fun ha => ?_⟩, fun hb => (by cases hb), fun hs => ?_, fun hs => ?_⟩
        · exact absurd (hv.gone.mpr (all_succ.mp ha).2) hg
        · obtain ⟨hne, hshut⟩ := shut_succ.mp hs hclosed
          rw [hv.shut hshut]
        · have hne : K n ≠ [] := by
            intro hnil
            refine hg (hv.gone.mpr fun c hc => ?_)
            rw [hnil] at hc
            cases hc
          have hex : ∃ c ∈ K n, ¬Shut K (Unheld s) k c := by
            by_contra hno
            refine hs (shut_succ.mpr fun _ => ⟨hne, fun c hc => ?_⟩)
            by_contra hc'
            exact hno ⟨c, hc, hc'⟩
          obtain ⟨c, hc, m, hm, hnone⟩ := hv.frees hex
          exact ⟨m, hm.kid hc, hnone⟩

/-! ### All or nothing -/

/-- The node `n` and its whole subtree have gone: who waited there waits no more, the list of its father is
    one shorter, and the rest is as it was. -/
structure Removed (K : ℕ → List ℕ) (s : Vfsd) (n : ℕ) (t : Vfsd) : Prop where
  gone : ∀ m, Below K n m → t.node m = none
  rest : ∀ m, ¬Below K n m → (t.node m).map bare = (s.node m).map bare
  trees : Trees (thin K t) t
  woken : ∀ p w, Below K n (s.wait p w).node → t.wait p w = { s.wait p w with node := 0 }
  waits : ∀ p w, ¬Below K n (s.wait p w).node → t.wait p w = s.wait p w
  same : { t with node := s.node, count := s.count, wait := s.wait } = s

/-- The delete of `n` removes all of it, or is refused and changes nothing. -/
def AllOrNothing (K : ℕ → List ℕ) (s : Vfsd) (n : ℕ) (r : Vfsd × Bool) : Prop :=
  (r.2 = true ∧ Removed K s n r.1) ∨ (r.2 = false ∧ r.1 = s)

/-- Every node below `n` is there. -/
theorem Trees.alive (h : Trees K s) (hx : s.node n = some x) (hm : Below K n m) : ∃ y, s.node m = some y := by
  obtain ⟨d, hd⟩ := hm
  induction hd generalizing x with
  | self => exact ⟨x, hx⟩
  | kid _ hc _ ih =>
    obtain ⟨y, hy, -⟩ := h.kid _ _ hc
    exact ih hy

theorem Fell.removed {k : ℕ} {r : Vfsd × Bool} (h : Trees K s) (hx : s.node n = some x) (hr : Fell K s k n r)
    (hg : r.2 = true) : Removed K s n r.1 where
  gone := hr.whole hg
  rest m hm := by
    cases hz : s.node m with
    | none => rw [hr.felled.gone hz]
    | some z =>
      obtain ⟨y, hy⟩ := hr.felled.stay m z hz hm
      obtain ⟨w, hw, he⟩ := hr.felled.keep m y hy
      rw [hz] at hw
      cases hw
      rw [hy, Option.map_some, Option.map_some, he]
  trees := hr.felled.trees
  woken p w hm := by
    obtain ⟨y, hy⟩ := h.alive hx hm
    rw [hr.felled.wait p w, if_pos]
    exact ⟨by rw [hy]; rfl, hr.whole hg _ hm⟩
  waits p w hm := by
    rw [hr.felled.wait p w, if_neg]
    rintro ⟨hs, hn⟩
    obtain ⟨z, hz⟩ := Option.isSome_iff_exists.mp hs
    obtain ⟨y, hy⟩ := hr.felled.stay _ z hz hm
    rw [hn] at hy
    cases hy
  same := hr.felled.same

/-- A delete goes through when nothing in the subtree is open and it has at most so many levels; that it is
    refused and nothing has gone takes that no way from the node through closed nodes leads to a node without
    kids above that level. -/
theorem delNode_all_or_nothing (h : Trees K s) (hx : s.node n = some x) :
    (AllOrNothing K s n (s.delNode n) ∧ ((s.delNode n).2 = true ↔ All K (Unheld s) delMaxDepth n)) ↔
      All K (Unheld s) delMaxDepth n ∨ Shut K (Unheld s) delMaxDepth n := by
  have hr : Fell K s delMaxDepth n (s.delNode n) := fell_delDepth delMaxDepth K s n x h hx
  constructor
  · rintro ⟨⟨hg, -⟩ | ⟨-, hsame⟩, -⟩
    · exact .inl (hr.gone.mp hg)
    · right
      by_contra hs
      obtain ⟨m, hm, hnone⟩ := hr.frees hs
      obtain ⟨y, hy⟩ := h.alive hx hm
      rw [hsame, hy] at hnone
      cases hnone
  · rintro (ha | hs)
    · have hg := hr.gone.mpr ha
      exact ⟨.inl ⟨hg, hr.removed h hx hg⟩, hr.gone⟩
    · have he := hr.shut hs
      exact ⟨.inr ⟨by rw [he], by rw [he]⟩, hr.gone⟩

end

/-! ### A directory with one open file -/

/-- The root 1, the directory 2 in it, and in this the files 3 and 4, of which 4 is open. -/
def busyDir : Vfsd where
  node
    | 1 => some { Node.fresh ⟨['/'], ⟨false, .dir⟩, 0, 0, 0o755, 0, 0, true⟩ with first := 2, last := 2, kids := 1 }
    | 2 => some { Node.fresh ⟨['d'], ⟨false, .dir⟩, 0, 0, 0o755, 0, 0, true⟩ with
        father := 1, first := 3, last := 4, kids := 2 }
    | 3 => some { Node.fresh ⟨['a'], ⟨false, .file⟩, 0, 0, 0o644, 0, 0, false⟩ with father := 2, next := 4 }
    | 4 => some { Node.fresh ⟨['b'], ⟨false, .file⟩, 0, 0, 0o644, 0, 0, false⟩ with father := 2, prev := 3, refs := 1 }
    | _ => none
  count := 4
  next := 5
  root := 1
  mnt _ := none
  slot _ := ⟨0, .unused⟩
  fd p k := if p = 7 ∧ k = 3 then some ⟨4, false, ⟨['b'], ⟨false, .file⟩, 0, 0, 0o644, 0, 0, false⟩⟩ else none
  wait _ _ := ⟨0, 0⟩
  task _ := ⟨0, false, 0, none⟩
  max := 8
  reap := []

/-- The kids of its nodes. -/
def busyKids : ℕ → List ℕ
  | 1 => [2]
  | 2 => [3, 4]
  | _ => []

theorem busyDir_trees : Trees busyKids busyDir := by
  have hlive : ∀ n x, busyDir.node n = some x → n = 1 ∨ n = 2 ∨ n = 3 ∨ n = 4 := by
    intro n x hx
    rcases n with _ | _ | _ | _ | _ | n
    case zero | succ.succ.succ.succ.succ => simp [busyDir] at hx
    all_goals simp
  have hroot : Ends (up busyDir) 1 := .top rfl
  have hdir : Ends (up busyDir) 2 := .go rfl hroot
  refine ⟨rfl, ?_, ?_, ?_, ?_, ?_, ?_, ?_, ⟨[1, 2, 3, 4], by decide, ?_, rfl⟩⟩
  · intro n hn
    rcases n with _ | _ | _ | n
    case succ.zero | succ.succ.zero => simp [busyDir] at hn
    all_goals rfl
  · intro n
    rcases n with _ | _ | _ | n
    case succ.zero | succ.succ.zero => simp [busyKids, Linked, nextOf, prevOf, busyDir, Node.fresh]
    all_goals trivial
  · intro n x hx
    rcases hlive n x hx with rfl | rfl | rfl | rfl
    all_goals
      cases hx
      exact ⟨rfl, rfl⟩
  · intro n
    rcases n with _ | _ | _ | n
    case succ.zero | succ.succ.zero => decide
    all_goals exact List.nodup_nil
  · intro n c hc
    rcases n with _ | _ | _ | n
    case succ.zero =>
      cases List.mem_singleton.mp hc
      exact ⟨_, rfl, rfl⟩
    case succ.succ.zero =>
      rcases List.mem_pair.mp hc with rfl | rfl
      · exact ⟨_, rfl, rfl⟩
      · exact ⟨_, rfl, rfl⟩
    all_goals cases hc
  · intro n x hx hn
    rcases hlive n x hx with rfl | rfl | rfl | rfl
    all_goals
      cases hx
      first
        | exact ⟨rfl, rfl⟩
        | exact absurd (by decide) hn
  · intro n
    rcases n with _ | _ | _ | _ | _ | n
    case succ.zero => exact hroot
    case succ.succ.zero => exact hdir
    case succ.succ.succ.zero | succ.succ.succ.succ.zero => exact .go rfl hdir
    all_goals exact .top rfl
  · intro n
    rcases n with _ | _ | _ | _ | _ | n
    all_goals simp [busyDir]

theorem delNode_all_or_nothing_busy :
    (AllOrNothing busyKids busyDir 2 (busyDir.delNode 2) ∧
      ((busyDir.delNode 2).2 = true ↔ All busyKids (Unheld busyDir) delMaxDepth 2)) ↔
      All busyKids (Unheld busyDir) delMaxDepth 2 ∨ Shut busyKids (Unheld busyDir) delMaxDepth 2 :=
  delNode_all_or_nothing busyDir_trees rfl

/-- The delete of the directory is refused, and the file nobody holds open has gone. -/
theorem refused_and_freed : ∃ (K : ℕ → List ℕ) (s : Vfsd) (n : ℕ) (x : Node), Trees K s ∧ s.node n = some x ∧
    ¬AllOrNothing K s n (s.delNode n) := by
  refine ⟨busyKids, busyDir, 2, _, busyDir_trees, rfl, ?_⟩
  have hrefused : (busyDir.delNode 2).2 = false := by decide +kernel
  have hfreed : (busyDir.delNode 2).1.node 3 = none := by decide +kernel
  rintro (⟨hg, -⟩ | ⟨-, hsame⟩)
  · rw [hrefused] at hg
    cases hg
  · rw [hsame] at hfreed
    cases hfreed

end EwokOS.Vfs
