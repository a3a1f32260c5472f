import EwokOS.Vfs.Forest
import Mathlib.Data.List.Nodup
import Mathlib.Data.List.Perm.Subperm

/-! Deleting a subtree of the forest (`vfsd_del_node`).

    The recursion goes down the lists of kids and frees a node when all its kids have gone; a node that is
    open stays, and with it everything above:

              n                         n                    n is kept, b has gone
            / | \                      / \
           a  b  c*     --delete-->   a   c*                 (* open, a has an open kid)

    What is at or below `n` may go, everything else stays where it is. That needs that the lists reach all
    that is below: nothing loose may hang there, because it would be left behind without a father. -/

namespace EwokOS.Vfs

open Schemes Vfsd

/-- A node without its links to kids and brothers. -/
def bare (x : Node) : Node := { x with first := 0, last := 0, next := 0, prev := 0, kids := 0 }

section
variable {y z : Node} (h : bare y = bare z)
include h

theorem bare_father : y.father = z.father := (congrArg Node.father h :)
theorem bare_loose : y.loose = z.loose := (congrArg Node.loose h :)
theorem bare_mountId : y.mountId = z.mountId := (congrArg Node.mountId h :)

end

/-- Nothing loose, and not the root, is at or below `n`. -/
def Clear (s : Vfsd) (n : ℕ) : Prop :=
  ∀ m y, s.node m = some y → y.loose = true ∨ m = s.root → ¬Under (up s) m n

/-- From `s` to `t` nodes at or below those of `l` have gone, and the others are the same but for the
    links to kids and brothers. -/
structure Pruned (l : List ℕ) (s t : Vfsd) : Prop where
  keep : ∀ m y, t.node m = some y → ∃ z, s.node m = some z ∧ bare y = bare z
  stay : ∀ m z, s.node m = some z → (∀ n ∈ l, ¬Under (up s) m n) → ∃ y, t.node m = some y
  root : t.root = s.root
  mnt : t.mnt = s.mnt
  next : t.next = s.next
  fd : t.fd = s.fd
  slot : t.slot = s.slot
  task : t.task = s.task
  max : t.max = s.max
  reap : t.reap = s.reap

namespace Pruned
variable {s t u : Vfsd} {l l' : List ℕ} {n : ℕ}

theorem refl (l : List ℕ) (s : Vfsd) : Pruned l s s :=
  ⟨fun _ y hy => ⟨y, hy, rfl⟩, fun _ z hz _ => ⟨z, hz⟩, rfl, rfl, rfl, rfl, rfl, rfl, rfl, rfl⟩

/-- No pointer to a father is new. -/
theorem up_sub (h : Pruned l s t) : ∀ m f, up t m = some f → up s m = some f := by
  intro m f hf
  unfold up at hf
  split at hf
  · cases hf
  · rename_i y hy
    obtain ⟨z, hz, he⟩ := h.keep m y hy
    rw [bare_father he] at hf
    simp only [up, hz, hf]

theorem under (h : Pruned l s t) {m : ℕ} (hu : Under (up t) m n) : Under (up s) m n := hu.mono h.up_sub

theorem trans (h : Pruned l s t) (h' : Pruned l' t u) : Pruned (l ++ l') s u where
  keep m y hy := by
    obtain ⟨z, hz, he⟩ := h'.keep m y hy
    obtain ⟨w, hw, he'⟩ := h.keep m z hz
    exact ⟨w, hw, he.trans he'⟩
  stay m z hz hm := by
    obtain ⟨y, hy⟩ := h.stay m z hz fun n hn => hm n (List.mem_append_left _ hn)
    exact h'.stay m y hy fun n hn hu => hm n (List.mem_append_right _ hn) (h.under hu)
  root := h'.root.trans h.root
  mnt := h'.mnt.trans h.mnt
  next := h'.next.trans h.next
  fd := h'.fd.trans h.fd
  slot := h'.slot.trans h.slot
  task := h'.task.trans h.task
  max := h'.max.trans h.max
  reap := h'.reap.trans h.reap

/-- More may go. -/
theorem widen (h : Pruned l s t) (hl : ∀ c ∈ l, ∃ n ∈ l', Under (up s) c n) : Pruned l' s t := by
  refine { h with stay := fun m z hz hm => h.stay m z hz fun c hc hu => ?_ }
  obtain ⟨n, hn, hcn⟩ := hl c hc
  exact hm n hn (hu.trans hcn)

theorem clear (h : Pruned l s t) (hc : Clear s n) : Clear t n := by
  intro m y hy hm hu
  obtain ⟨z, hz, he⟩ := h.keep m y hy
  rw [bare_loose he, h.root] at hm
  exact hc m z hz hm (h.under hu)

end Pruned

section
variable {K : ℕ → List ℕ} {s : Vfsd} {n : ℕ} {x : Node}

theorem pruned_free (hx : s.node n = some x) : Pruned [n] s (s.free n) := by
  have hother : ∀ m, m ≠ n → (s.free n).node m = (s.node m).map (unlinked n x m) := by
    intro m hm
    refine (Function.update_of_ne hm _ _).trans ?_
    rw [unlink_node s hx]
  have hself : (s.free n).node n = none := Function.update_self ..
  refine ⟨fun m y hy => ?_, fun m z hz hm => ?_, ?_, ?_, ?_, ?_, ?_, ?_, ?_, ?_⟩
  · have hmn : m ≠ n := by
      rintro rfl
      rw [hself] at hy
      cases hy
    rw [hother m hmn] at hy
    obtain ⟨z, hz, rfl⟩ := Option.map_eq_some_iff.mp hy
    exact ⟨z, hz, rfl⟩
  · have hmn : m ≠ n := fun he => hm n List.mem_cons_self (he ▸ .self m)
    exact ⟨_, by rw [hother m hmn, hz]; rfl⟩
  all_goals simp only [Vfsd.free, unlink, hx]; rfl

/-- What deleting a node does to the forest, and whether the node has gone. -/
def Deletes (del : Vfsd → ℕ → Vfsd × Bool) : Prop :=
  ∀ (K : ℕ → List ℕ) (s : Vfsd) (n : ℕ) (x : Node), Forest K s → s.node n = some x → Clear s n →
    ∃ K', Forest K' (del s n).1 ∧ Pruned [n] s (del s n).1 ∧
      ∀ m, ¬Under (up s) m n →
        K' m = if (del s n).2 then Function.update K x.father ((K x.father).erase n) m else K m

/-- The loop over the kids: `done` have stayed, `l` are to come. -/
theorem Forest.delKids {del : Vfsd → ℕ → Vfsd × Bool} (hdel : Deletes del) (l : List ℕ) {done : List ℕ}
    (h : Forest K s) (hx : s.node n = some x) (hK : K n = done ++ l) (hc : ∀ c ∈ l, Clear s c) {k : ℕ}
    (hk : l.length < k) :
    ∃ K', Forest K' (delKids del k s (l.headD 0)).1 ∧ Pruned l s (delKids del k s (l.headD 0)).1 ∧
      (∀ m, m ≠ n → (∀ c ∈ l, ¬Under (up s) m c) → K' m = K m) ∧
      ((delKids del k s (l.headD 0)).2 = true → K' n = done) := by
  induction l generalizing K s x done k with
  | nil =>
    obtain ⟨k, rfl⟩ := Nat.exists_eq_succ_of_ne_zero (Nat.ne_of_gt hk)
    have he : Vfsd.delKids del (k + 1) s (([] : List ℕ).headD 0) = (s, true) := by
      simp only [Vfsd.delKids, List.headD_nil, h.null]
    rw [he]
    exact ⟨K, h, .refl [] s, fun _ _ _ => rfl, fun _ => by rw [hK, List.append_nil]⟩
  | cons c l ih =>
    obtain ⟨k, rfl⟩ := Nat.exists_eq_succ_of_ne_zero (Nat.ne_of_gt (Nat.zero_lt_of_lt hk))
    have hcK : c ∈ K n := hK ▸ List.mem_append_right _ List.mem_cons_self
    obtain ⟨y, hy, hyf, -⟩ := h.kid n c hcK
    have hn0 : n ≠ 0 := by
      rintro rfl
      rw [h.null] at hx
      cases hx
    have hcup : up s c = some n := by
      rw [up_eq hy (by rw [hyf]; exact hn0), hyf]
    -- the father is not below its kid
    have hnc : ¬Under (up s) n c := (h.ends c).not_under n hcup
    have hnext : y.next = l.headD 0 := by
      have hlk := h.linked n
      rw [hK] at hlk
      have := (linked_append.mp hlk).2.2.1
      simpa only [nextOf, hy, Option.elim] using this
    obtain ⟨K₁, h₁, hp₁, hlists⟩ := hdel K s c y h hy (hc c List.mem_cons_self)
    have he : Vfsd.delKids del (k + 1) s ((c :: l).headD 0) =
        ((Vfsd.delKids del k (del s c).1 (l.headD 0)).1,
          (del s c).2 && (Vfsd.delKids del k (del s c).1 (l.headD 0)).2) := by
      rw [List.headD_cons, Vfsd.delKids, hy]
      dsimp only
      rw [hnext]
    obtain ⟨x₁, hx₁⟩ := hp₁.stay n x hx fun d hd => by
      rw [List.mem_singleton.mp hd]
      exact hnc
    have hK₁ : K₁ n = (if (del s c).2 then done else done ++ [c]) ++ l := by
      rw [hlists n hnc]
      split
      · have hcd : c ∉ done := by
          have hnd := h.nodup n
          rw [hK] at hnd
          exact fun hcd => (List.nodup_append.mp hnd).2.2 c hcd c List.mem_cons_self rfl
        rw [hyf, Function.update_self, hK, List.erase_append_right _ hcd, List.erase_cons_head]
      · rw [hK, List.append_assoc]
        rfl
    have hcl : ∀ c' ∈ l, Clear (del s c).1 c' := fun c' hc' => hp₁.clear (hc c' (List.mem_cons_of_mem c hc'))
    rw [List.length_cons] at hk
    obtain ⟨K₂, h₂, hp₂, hl₂, hdone⟩ := ih h₁ hx₁ hK₁ hcl (k := k) (by omega)
    rw [he]
    refine ⟨K₂, h₂, hp₁.trans hp₂, ?_, ?_⟩
    · intro m hm hmc
      rw [hl₂ m hm fun c' hc' hu => hmc c' (List.mem_cons_of_mem c hc') (hp₁.under hu)]
      rw [hlists m (hmc c List.mem_cons_self)]
      split
      · rw [hyf, Function.update_of_ne hm]
      · rfl
    · intro hb
      rw [Bool.and_eq_true] at hb
      rw [hdone hb.2, hb.1]
      rfl

/-- A list of kids is not longer than there are nodes. -/
theorem Forest.length_le (h : Forest K s) (n : ℕ) : (K n).length ≤ s.count := by
  obtain ⟨l, -, hmem, hlen⟩ := h.count
  rw [← hlen]
  refine (List.subperm_of_subset (h.nodup n) fun c hc => ?_).length_le
  obtain ⟨y, hy, -⟩ := h.kid n c hc
  exact (hmem c).mpr (by rw [hy]; rfl)

theorem deletes_delDepth (d : ℕ) : Deletes (delDepth d) := by
  induction d with
  | zero => exact fun K s n x h _ _ => ⟨K, h, .refl [n] s, fun m _ => rfl⟩
  | succ d ih =>
    intro K s n x h hx hc
    by_cases hr : 0 < x.refs
    · have he : delDepth (d + 1) s n = (s, false) := by
        rw [delDepth, hx]
        exact if_pos hr
      rw [he]
      exact ⟨K, h, .refl [n] s, fun m _ => rfl⟩
    · have hn0 : n ≠ 0 := by
        rintro rfl
        rw [h.null] at hx
        cases hx
      have hkid : ∀ c ∈ K n, Under (up s) c n := by
        intro c hcn
        obtain ⟨y, hy, hyf, -⟩ := h.kid n c hcn
        exact .go (hyf ▸ up_eq hy (by rw [hyf]; exact hn0)) (.self n)
      have hcl : ∀ c ∈ K n, Clear s c := fun c hcn m y hy hm hu => hc m y hy hm (hu.trans (hkid c hcn))
      obtain ⟨K₁, h₁, hp₁, hl₁, hdone⟩ := h.delKids ih (K n) hx (show K n = [] ++ K n from rfl) hcl (k := s.count + 1)
        (Nat.lt_succ_of_le (h.length_le n))
      have he : delDepth (d + 1) s n =
          if (Vfsd.delKids (delDepth d) (s.count + 1) s ((K n).headD 0)).2 then
            ((Vfsd.delKids (delDepth d) (s.count + 1) s ((K n).headD 0)).1.free n, true)
          else ((Vfsd.delKids (delDepth d) (s.count + 1) s ((K n).headD 0)).1, false) := by
        rw [delDepth, hx]
        dsimp only
        rw [if_neg hr, (h.head n x hx).1]
      generalize Vfsd.delKids (delDepth d) (s.count + 1) s ((K n).headD 0) = u at *
      have hout : ∀ m, ¬Under (up s) m n → m ≠ n ∧ ∀ c ∈ K n, ¬Under (up s) m c := by
        refine fun m hm => ⟨fun he => hm (he ▸ .self m), fun c hcn hu => hm (hu.trans (hkid c hcn))⟩
      have hwide : Pruned [n] s u.1 := hp₁.widen fun c hcn => ⟨n, List.mem_cons_self, hkid c hcn⟩
      rw [he]
      split
      · rename_i hg
        -- the node itself has not gone with its kids
        obtain ⟨x₁, hx₁⟩ := hp₁.stay n x hx fun c hcn hu => by
          obtain ⟨y, hy, hyf, -⟩ := h.kid n c hcn
          exact (h.ends c).not_under n (hyf ▸ up_eq hy (by rw [hyf]; exact hn0)) hu
        obtain ⟨z, hz, hbare⟩ := hp₁.keep n x₁ hx₁
        rw [hx] at hz
        cases hz
        have hfa : x₁.father = x.father := bare_father hbare
        have hlo : x₁.loose = false := by
          cases hl : x₁.loose with
          | false => rfl
          | true =>
            have hxl : x.loose = true := (bare_loose hbare).symm.trans hl
            exact absurd (.self n) (hc n x hx (.inl hxl))
        have hnr : n ≠ u.1.root := by
          rw [hp₁.root]
          exact fun he => hc n x hx (.inr he) (.self n)
        have hhang : ∀ m y, u.1.node m = some y → y.loose = true → y.father ≠ n := by
          intro m y hy hyl hyf
          refine hwide.clear hc m y hy (.inl hyl) (.go ?_ (.self n))
          rw [up_eq hy (by rw [hyf]; exact hn0), hyf]
        refine ⟨_, h₁.free hx₁ hlo (hdone hg) hnr hhang, ?_, ?_⟩
        · exact (hwide.trans (pruned_free hx₁)).widen fun c hc' => by
            refine ⟨n, List.mem_cons_self, ?_⟩
            have : c = n := by simpa using hc'
            exact this ▸ .self c
        · intro m hm
          obtain ⟨hmn, hmc⟩ := hout m hm
          rw [if_pos rfl, hfa]
          rcases eq_or_ne m x.father with rfl | hmf
          · rw [Function.update_self, Function.update_self, hl₁ _ hmn hmc]
          · rw [Function.update_of_ne hmf, Function.update_of_ne hmf, hl₁ m hmn hmc]
      · refine ⟨K₁, h₁, hwide, fun m hm => ?_⟩
        obtain ⟨hmn, hmc⟩ := hout m hm
        exact hl₁ m hmn hmc

end

end EwokOS.Vfs
