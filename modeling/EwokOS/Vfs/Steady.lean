import EwokOS.Vfs.Server
import EwokOS.Schemes.Tally

/-! What the tree operations of `vfsd` leave alone.

    Linking, unlinking, mounting, unmounting and deleting move nodes about, and deleting removes some.
    None of them touches a descriptor table or a count of references, and a node that is open is never
    removed: `Moves` says so once for all of them, and what a request does to the counts is then a matter
    of the few places that write them. -/

namespace EwokOS.Vfs

namespace Vfsd

section
variable (s : Vfsd) (n : ℕ) (f : Node → Node)

@[simp] theorem modify_fd : (s.modify n f).fd = s.fd := rfl
@[simp] theorem modify_slot : (s.modify n f).slot = s.slot := rfl
@[simp] theorem modify_task : (s.modify n f).task = s.task := rfl
@[simp] theorem modify_max : (s.modify n f).max = s.max := rfl
@[simp] theorem modify_reap : (s.modify n f).reap = s.reap := rfl
@[simp] theorem modify_mnt : (s.modify n f).mnt = s.mnt := rfl
@[simp] theorem modify_root : (s.modify n f).root = s.root := rfl
@[simp] theorem modify_count : (s.modify n f).count = s.count := rfl
@[simp] theorem modify_next : (s.modify n f).next = s.next := rfl
@[simp] theorem modify_wait : (s.modify n f).wait = s.wait := rfl

@[simp] theorem modify_self : (s.modify n f).node n = (s.node n).map f := Function.update_self ..

theorem modify_ne {m : ℕ} (h : m ≠ n) : (s.modify n f).node m = s.node m := Function.update_of_ne h _ _

theorem modify_cases {m : ℕ} {y : Node} (h : (s.modify n f).node m = some y) :
    (m ≠ n ∧ s.node m = some y) ∨ (m = n ∧ ∃ x, s.node n = some x ∧ y = f x) := by
  rcases eq_or_ne m n with rfl | hm
  · rw [modify_self] at h
    obtain ⟨x, hx, rfl⟩ := Option.map_eq_some_iff.mp h
    exact .inr ⟨rfl, x, hx, rfl⟩
  · exact .inl ⟨hm, (s.modify_ne n f hm).symm.trans h⟩

theorem modify_none {m : ℕ} : (s.modify n f).node m = none ↔ s.node m = none := by
  rcases eq_or_ne m n with rfl | hm
  · rw [modify_self, Option.map_eq_none_iff]
  · rw [modify_ne _ _ _ hm]

end

end Vfsd

open Vfsd

/-- What the counts and the life of a node depend on. -/
structure Alike (x y : Node) : Prop where
  refs : y.refs = x.refs
  refsW : y.refsW = x.refsW
  copy : y.copy = x.copy
  type : y.info.type = x.info.type

theorem Alike.refl (x : Node) : Alike x x := ⟨rfl, rfl, rfl, rfl⟩

theorem Alike.trans {x y z : Node} (h : Alike x y) (h' : Alike y z) : Alike x z :=
  ⟨h'.refs.trans h.refs, h'.refsW.trans h.refsW, h'.copy.trans h.copy, h'.type.trans h.type⟩

/-- Nothing hangs below an anonymous copy. -/
structure Tidy (s : Vfsd) : Prop where
  null : s.node 0 = none
  first : ∀ n x, s.node n = some x → x.copy = true → x.first = 0
  father : ∀ n x y, s.node n = some x → s.node x.father = some y → y.copy = false

/-- From `s` to `t` nodes have been moved, and some that are not open removed. -/
structure Moves (s t : Vfsd) : Prop where
  fd : t.fd = s.fd
  slot : t.slot = s.slot
  task : t.task = s.task
  max : t.max = s.max
  reap : t.reap = s.reap
  keep : ∀ n x, s.node n = some x → (x.refs = 0 ∧ t.node n = none) ∨ ∃ y, t.node n = some y ∧ Alike x y
  none : ∀ n, s.node n = none → t.node n = none
  tidy : Tidy t

namespace Moves
variable {s t u : Vfsd}

theorem refl (ht : Tidy s) : Moves s s :=
  ⟨rfl, rfl, rfl, rfl, rfl, fun _ x hx => .inr ⟨x, hx, .refl x⟩, fun _ h => h, ht⟩

theorem trans (h : Moves s t) (h' : Moves t u) : Moves s u where
  fd := h'.fd.trans h.fd
  slot := h'.slot.trans h.slot
  task := h'.task.trans h.task
  max := h'.max.trans h.max
  reap := h'.reap.trans h.reap
  keep n x hx := by
    rcases h.keep n x hx with ⟨hr, hn⟩ | ⟨y, hy, ha⟩
    · exact .inl ⟨hr, h'.none n hn⟩
    · rcases h'.keep n y hy with ⟨hr, hn⟩ | ⟨z, hz, hb⟩
      · exact .inl ⟨ha.refs ▸ hr, hn⟩
      · exact .inr ⟨z, hz, ha.trans hb⟩
  none n hn := h'.none n (h.none n hn)
  tidy := h'.tidy

/-- A node that is left was there. -/
theorem back (h : Moves s t) {n : ℕ} {y : Node} (hy : t.node n = some y) :
    ∃ x, s.node n = some x ∧ Alike x y := by
  cases hx : s.node n with
  | none =>
    rw [h.none n hx] at hy
    cases hy
  | some x =>
    rcases h.keep n x hx with ⟨-, hn⟩ | ⟨z, hz, ha⟩
    · rw [hn] at hy
      cases hy
    · rw [hz] at hy
      cases hy
      exact ⟨x, rfl, ha⟩

end Moves

section
variable {s : Vfsd} {n : ℕ} {f : Node → Node}

/-- A write to a node that keeps its counts; it may not give a copy kids, nor a kid to a copy. -/
theorem moves_modify (ht : Tidy s) (ha : ∀ x, Alike x (f x))
    (hf : ∀ x, s.node n = some x → (x.first = 0 → x.copy = true → (f x).first = 0) ∧
      ∀ y, s.node (f x).father = some y → y.copy = false) : Moves s (s.modify n f) where
  fd := rfl
  slot := rfl
  task := rfl
  max := rfl
  reap := rfl
  keep m x hx := by
    right
    rcases eq_or_ne m n with rfl | hm
    · exact ⟨f x, by rw [modify_self, hx, Option.map_some], ha x⟩
    · exact ⟨x, by rw [modify_ne _ _ _ hm, hx], .refl x⟩
  none m hm := (modify_none s n f).mpr hm
  tidy := by
    -- who is a copy does not change
    have hcopy : ∀ m y, (s.modify n f).node m = some y → ∃ x, s.node m = some x ∧ y.copy = x.copy := by
      intro m y hy
      rcases modify_cases s n f hy with ⟨-, hx⟩ | ⟨rfl, x, hx, rfl⟩
      · exact ⟨y, hx, rfl⟩
      · exact ⟨x, hx, (ha x).copy⟩
    refine ⟨(modify_none s n f).mpr ht.null, ?_, ?_⟩
    · intro m y hy hc
      rcases modify_cases s n f hy with ⟨-, hx⟩ | ⟨rfl, x, hx, rfl⟩
      · exact ht.first m y hx hc
      · rw [(ha x).copy] at hc
        exact (hf x hx).1 (ht.first m x hx hc) hc
    · intro m y z hy hz
      obtain ⟨z', hz', hzc⟩ := hcopy _ z hz
      rw [hzc]
      rcases modify_cases s n f hy with ⟨-, hx⟩ | ⟨rfl, x, hx, rfl⟩
      · exact ht.father m y z' hx hz'
      · exact (hf x hx).2 z' hz'

/-- A write that keeps the links to kids and father as well. -/
theorem Moves.edit {t : Vfsd} (h : Moves s t) (ha : ∀ x, Alike x (f x))
    (hf : ∀ x, (f x).first = x.first) (hp : ∀ x, (f x).father = x.father) : Moves s (t.modify n f) := by
  refine h.trans (moves_modify h.tidy ha fun x hx => ⟨fun h0 _ => (hf x).trans h0, fun y hy => ?_⟩)
  rw [hp x] at hy
  exact h.tidy.father n x y hx hy

theorem moves_unlink (ht : Tidy s) (n : ℕ) : Moves s (s.unlink n) := by
  unfold unlink
  split
  · exact .refl ht
  · rename_i x hx
    refine ((moves_modify ht ?_ ?_).edit ?_ ?_ ?_).edit ?_ ?_ ?_
    case refine_2 =>
      intro y hy
      refine ⟨fun h0 _ => ?_, fun z hz => ht.father _ y z hy hz⟩
      have hn : n ≠ 0 := by
        rintro rfl
        rw [ht.null] at hx
        cases hx
      show (if y.first = n then x.next else y.first) = 0
      rw [h0, if_neg hn.symm]
    all_goals exact fun _ => by first | rfl | exact ⟨rfl, rfl, rfl, rfl⟩

theorem moves_remove (ht : Tidy s) (n : ℕ) : Moves s (s.remove n) :=
  (moves_unlink ht n).edit (fun _ => ⟨rfl, rfl, rfl, rfl⟩) (fun _ => rfl) fun _ => rfl

/-- A node is put into the list of one that is no copy. -/
theorem moves_addNode {father : ℕ} (ht : Tidy s) (h : ∀ y, s.node father = some y → y.copy = false) :
    Moves s (s.addNode father n) := by
  have h₁ : Moves s (s.modify n fun x => { x with father := father, loose := false }) :=
    moves_modify ht (fun _ => ⟨rfl, rfl, rfl, rfl⟩) fun x hx => ⟨fun h0 _ => h0, h⟩
  unfold addNode
  dsimp only
  split
  · exact h₁
  · rename_i f hf
    have hplain : f.copy = false := by
      rcases modify_cases s n _ hf with ⟨-, hx⟩ | ⟨rfl, x, hx, rfl⟩
      · exact h f hx
      · exact h x hx
    refine Moves.edit (h₁.trans ?_) ?_ ?_ ?_
    · split
      · refine moves_modify h₁.tidy ?_ fun x hx => ⟨fun _ hc => ?_, fun y hy => h₁.tidy.father _ x y hx hy⟩
        · exact fun _ => ⟨rfl, rfl, rfl, rfl⟩
        · rw [hf] at hx
          cases hx
          rw [hplain] at hc
          cases hc
      · refine ((Moves.refl h₁.tidy).edit ?_ ?_ ?_).edit ?_ ?_ ?_
        all_goals exact fun _ => by first | rfl | exact ⟨rfl, rfl, rfl, rfl⟩
    all_goals exact fun _ => by first | rfl | exact ⟨rfl, rfl, rfl, rfl⟩

/-! ### Deleting -/

/-- A node that is not open is taken away. -/
theorem moves_free (ht : Tidy s) (hr : ∀ x, s.node n = some x → x.refs = 0) : Moves s (s.free n) := by
  have hu := moves_unlink ht n
  refine ⟨hu.fd, hu.slot, hu.task, hu.max, hu.reap, ?_, ?_, ?_⟩
  · intro m y hy
    rcases eq_or_ne m n with rfl | hm
    · exact .inl ⟨hr y hy, Function.update_self ..⟩
    · rcases hu.keep m y hy with h | h
      · exact .inl ⟨h.1, (Function.update_of_ne hm _ _).trans h.2⟩
      · obtain ⟨z, hz, ha⟩ := h
        exact .inr ⟨z, (Function.update_of_ne hm _ _).trans hz, ha⟩
  · intro m hm
    rcases eq_or_ne m n with rfl | hmn
    · exact Function.update_self ..
    · exact (Function.update_of_ne hmn _ _).trans (hu.none m hm)
  · have hsome : ∀ m y, (s.free n).node m = some y → (s.unlink n).node m = some y := by
      intro m y hy
      rcases eq_or_ne m n with rfl | hm
      · rw [show (s.free m).node m = none from Function.update_self ..] at hy
        cases hy
      · exact (Function.update_of_ne hm _ _).symm.trans hy
    refine ⟨?_, ?_, ?_⟩
    · rcases eq_or_ne 0 n with rfl | hn
      · show Function.update (s.unlink 0).node 0 none 0 = none
        exact Function.update_self ..
      · exact (Function.update_of_ne hn _ _).trans hu.tidy.null
    · exact fun m y hy hc => hu.tidy.first m y (hsome m y hy) hc
    · exact fun m y z hy hz => hu.tidy.father m y z (hsome m y hy) (hsome _ z hz)

theorem moves_delKids {del : Vfsd → ℕ → Vfsd × Bool} (hd : ∀ s c, Tidy s → Moves s (del s c).1) (k : ℕ)
    (ht : Tidy s) (c : ℕ) : Moves s (delKids del k s c).1 := by
  induction k generalizing s c with
  | zero => exact .refl ht
  | succ k ih =>
    unfold delKids
    split
    · exact .refl ht
    · exact (hd s c ht).trans (ih (hd s c ht).tidy _)

/-- What is deleted was not open. -/
theorem moves_delDepth (d : ℕ) (ht : Tidy s) (n : ℕ) : Moves s (delDepth d s n).1 := by
  induction d generalizing s n with
  | zero => exact .refl ht
  | succ d ih =>
    unfold delDepth
    split
    · exact .refl ht
    · rename_i x hx
      split
      · exact .refl ht
      · rename_i hr
        have hk := moves_delKids (fun s c h => ih h c) (s.count + 1) ht x.first
        dsimp only
        split
        · refine hk.trans (moves_free hk.tidy fun y hy => ?_)
          obtain ⟨x', hx', ha⟩ := hk.back hy
          rw [hx] at hx'
          cases hx'
          rw [ha.refs]
          omega
        · exact hk

theorem moves_delNode (ht : Tidy s) (n : ℕ) : Moves s (s.delNode n).1 := moves_delDepth delMaxDepth ht n

/-- A node without kids that is not open goes. -/
theorem delNode_leaf {x : Node} (ht : Tidy s) (hx : s.node n = some x) (hr : x.refs = 0)
    (hf : x.first = 0) : (s.delNode n).1 = s.free n := by
  have hk : delKids (delDepth 511) (s.count + 1) s x.first = (s, true) := by
    rw [hf, delKids, ht.null]
  show (delDepth (511 + 1) s n).1 = s.free n
  rw [delDepth, hx]
  dsimp only
  rw [if_neg (by omega), hk]
  rfl

/-! ### Mounting -/

theorem moves_uncover (ht : Tidy s) (n org : ℕ) : Moves s (s.uncover n org) := by
  unfold uncover
  split
  · rename_i x o hx ho
    split
    · exact ⟨rfl, rfl, rfl, rfl, rfl, (Moves.refl ht).keep, (Moves.refl ht).none, ⟨ht.null, ht.first, ht.father⟩⟩
    · have hm := moves_remove ht n
      dsimp only
      split
      · refine hm.trans (moves_addNode hm.tidy fun y hy => ?_)
        obtain ⟨y', hy', ha⟩ := hm.back hy
        rw [ha.copy]
        exact ht.father n x y' hx hy'
      · refine hm.trans ?_
        have he : Moves (s.remove n) ((s.remove n).modify org fun o => { o with father := 0, loose := false }) := by
          refine moves_modify hm.tidy (fun _ => ⟨rfl, rfl, rfl, rfl⟩) fun y _ => ⟨fun h0 _ => h0, fun z hz => ?_⟩
          rw [hm.tidy.null] at hz
          cases hz
        exact he.trans (moves_delNode he.tidy org)
  · exact .refl ht

theorem moves_release (ht : Tidy s) (i n : ℕ) : Moves s (s.release i n) := by
  refine Moves.edit (t := { s with mnt := Function.update s.mnt i none }) ?_ ?_ ?_ ?_
  · exact ⟨rfl, rfl, rfl, rfl, rfl, (Moves.refl ht).keep, fun _ h => h, ⟨ht.null, ht.first, ht.father⟩⟩
  all_goals exact fun _ => by first | rfl | exact ⟨rfl, rfl, rfl, rfl⟩

theorem moves_umountNow (ht : Tidy s) (n : ℕ) : Moves s (s.umountNow n) := by
  unfold umountNow
  split
  · exact .refl ht
  · split
    · exact .refl ht
    · dsimp only
      split
      · exact .refl ht
      · have hu := moves_uncover ht n
        exact (hu _).trans (moves_release (hu _).tidy _ n)

theorem moves_tryFinishUmount (ht : Tidy s) (n : ℕ) : Moves s (s.tryFinishUmount n) := by
  unfold tryFinishUmount
  split
  · exact .refl ht
  · split
    · exact moves_umountNow ht n
    · exact .refl ht

theorem moves_detach (ht : Tidy s) (n : ℕ) (x : Node) : Moves s (s.detach n x) := by
  unfold detach
  split
  · exact (Moves.refl ht).edit (fun _ => ⟨rfl, rfl, rfl, rfl⟩) (fun _ => rfl) fun _ => rfl
  · exact moves_umountNow ht n

theorem moves_umount (ht : Tidy s) (pid n : ℕ) : Moves s (s.umount pid n) := by
  unfold umount
  split
  · exact .refl ht
  · split
    · exact moves_detach ht n _
    · exact .refl ht

/-- The mount table is not looked at. -/
theorem moves_mnt (ht : Tidy s) (mnt : ℕ → Option Mnt) : Moves s { s with mnt := mnt } :=
  ⟨rfl, rfl, rfl, rfl, rfl, (Moves.refl ht).keep, fun _ h => h, ⟨ht.null, ht.first, ht.father⟩⟩

theorem moves_umountSlot (ht : Tidy s) (pid i : ℕ) : Moves s (umountSlot pid s i) := by
  unfold umountSlot
  split
  · exact .refl ht
  · rename_i m hm
    split
    · have h := moves_mnt ht (Function.update s.mnt i (some { m with left := true }))
      dsimp only
      split
      · exact moves_mnt ht _
      · split
        · exact h.trans (moves_detach h.tidy _ _)
        · exact moves_mnt ht _
    · exact .refl ht

theorem moves_foldl {α : Type} {g : Vfsd → α → Vfsd} (hg : ∀ s a, Tidy s → Moves s (g s a)) (l : List α)
    (ht : Tidy s) : Moves s (l.foldl g s) := by
  induction l generalizing s with
  | nil => exact .refl ht
  | cons a l ih => exact (hg s a ht).trans (ih (hg s a ht).tidy)

theorem moves_umountByPid (ht : Tidy s) (pid : ℕ) : Moves s (s.umountByPid pid) := by
  unfold umountByPid
  split
  · exact .refl ht
  · exact moves_foldl (fun s i h => moves_umountSlot h pid i) _ ht

theorem moves_mount (ht : Tidy s) (pid org n : ℕ) {t : Vfsd} (h : s.mount pid org n = some t) :
    Moves s t := by
  unfold mount at h
  split at h
  · rename_i o x ho hx
    split at h
    · cases h
    · split at h
      · cases h
      · rename_i i hi
        have h₁ := moves_mnt ht (Function.update s.mnt i (some ⟨pid, org, n, false⟩))
        have h₂ := h₁.edit (n := n) (f := .mounted o.info.name i) (fun _ => ⟨rfl, rfl, rfl, rfl⟩)
          (fun _ => rfl) fun _ => rfl
        dsimp only at h
        split at h
        · cases h
          exact ⟨h₂.fd, h₂.slot, h₂.task, h₂.max, h₂.reap, h₂.keep, h₂.none,
            ⟨h₂.tidy.null, h₂.tidy.first, h₂.tidy.father⟩⟩
        · cases h
          have h₃ := h₂.trans (moves_remove h₂.tidy org)
          refine h₃.trans (moves_addNode h₃.tidy fun y hy => ?_)
          obtain ⟨y', hy', ha⟩ := h₃.back hy
          rw [ha.copy]
          exact ht.father org o y' ho hy'
  · cases h

end
end EwokOS.Vfs
