import EwokOS.Vfs.Rules

/-! What a request of one process does to the others.

    A process reaches its own descriptors only, by the pid the message came with. Others notice it in
    two places: who waits for a node that is deleted is let go, and an umount that has been asked for is
    completed by whoever closes the mounted root last:

        P: del_node n    -->   Q waits for n     -->   Q waits for nothing
        P: close k       -->   slot of Q, due    -->   free

    `Sheds` is what the tree operations do, `Confined` what a whole request does. The requests of `core`,
    `VFS_PROC_CLONE` and `VFS_PROC_EXIT`, name the processes they are about, and nobody asks who sends them. -/

namespace EwokOS.Vfs

open Schemes Vfsd

/-- A mounted root of the slot `i` waits to be unmounted. -/
def Due (s : Vfsd) (i : ℕ) : Prop := ∃ n x, s.node n = some x ∧ x.mountId = some i ∧ x.pending = true

/-- `e` was waiting for a node that has gone from `s` to `t`. -/
def LetGo (s t : Vfsd) (e e' : Wait) : Prop :=
  e' = { e with node := 0 } ∧ (s.node e.node).isSome = true ∧ t.node e.node = none

/-- From `s` to `t` nodes have been linked, unlinked and taken away. -/
structure Sheds (s t : Vfsd) : Prop where
  fd : t.fd = s.fd
  task : t.task = s.task
  mnt : t.mnt = s.mnt
  back : ∀ m y, t.node m = some y → ∃ x, s.node m = some x ∧ hull y = hull x ∧ y.info = x.info
  wait : ∀ q w, t.wait q w = s.wait q w ∨ LetGo s t (s.wait q w) (t.wait q w)

section
variable {s t u : Vfsd} {n : ℕ}

theorem gone (hb : ∀ m y, t.node m = some y → ∃ x, s.node m = some x) {m : ℕ} (hm : s.node m = none) :
    t.node m = none := by
  cases hy : t.node m with
  | none => rfl
  | some y =>
    obtain ⟨x, hx⟩ := hb m y hy
    rw [hm] at hx
    cases hx

/-- Who was let go stays so. -/
theorem wait_trans {e e' e'' : Wait} (h : e' = e ∨ LetGo s t e e') (h' : e'' = e' ∨ LetGo t u e' e'')
    (hst : ∀ m, s.node m = none → t.node m = none) (htu : ∀ m, t.node m = none → u.node m = none) :
    e'' = e ∨ LetGo s u e e'' := by
  rcases h with rfl | ⟨he, hlive, hgone⟩
  · rcases h' with h' | ⟨he', hlive', hgone'⟩
    · exact .inl h'
    · refine .inr ⟨he', ?_, hgone'⟩
      cases hx : s.node e'.node with
      | none =>
        rw [hst _ hx] at hlive'
        cases hlive'
      | some x => rfl
  · refine .inr ⟨?_, hlive, htu _ hgone⟩
    rcases h' with h' | ⟨he', -, -⟩
    · rw [h', he]
    · rw [he', he]

namespace Sheds

theorem none (h : Sheds s t) (m : ℕ) (hm : s.node m = none) : t.node m = none :=
  gone (fun m y hy => (h.back m y hy).imp fun _ h => h.1) hm

theorem refl (s : Vfsd) : Sheds s s := ⟨rfl, rfl, rfl, fun _ y hy => ⟨y, hy, rfl, rfl⟩, fun _ _ => .inl rfl⟩

theorem trans (h : Sheds s t) (h' : Sheds t u) : Sheds s u where
  fd := h'.fd.trans h.fd
  task := h'.task.trans h.task
  mnt := h'.mnt.trans h.mnt
  back m z hz := by
    obtain ⟨y, hy, hh', hi'⟩ := h'.back m z hz
    obtain ⟨x, hx, hh, hi⟩ := h.back m y hy
    exact ⟨x, hx, hh'.trans hh, hi'.trans hi⟩
  wait q w := wait_trans (h.wait q w) (h'.wait q w) h.none h'.none

theorem modify {f : Node → Node} (h : Sheds s t) (hf : ∀ x, hull (f x) = hull x ∧ (f x).info = x.info) :
    Sheds s (t.modify n f) := by
  refine h.trans ⟨rfl, rfl, rfl, fun m y hy => ?_, fun _ _ => .inl rfl⟩
  rcases modify_cases t n f hy with ⟨-, hy⟩ | ⟨rfl, x, hx, rfl⟩
  · exact ⟨y, hy, rfl, rfl⟩
  · exact ⟨x, hx, hf x⟩

theorem unlink (s : Vfsd) (n : ℕ) : Sheds s (s.unlink n) := by
  unfold Vfsd.unlink
  split
  · exact .refl s
  · refine Sheds.modify (Sheds.modify (Sheds.modify (.refl s) ?_) ?_) ?_
    all_goals exact fun _ => ⟨rfl, rfl⟩

theorem remove (s : Vfsd) (n : ℕ) : Sheds s (s.remove n) := (unlink s n).modify fun _ => ⟨rfl, rfl⟩

theorem addNode (s : Vfsd) (f n : ℕ) : Sheds s (s.addNode f n) := by
  have h₁ : Sheds s (s.modify n fun x => { x with father := f, loose := false }) :=
    (refl s).modify fun _ => ⟨rfl, rfl⟩
  unfold Vfsd.addNode
  dsimp only
  split
  · exact h₁
  · refine Sheds.modify ?_ fun _ => ⟨rfl, rfl⟩
    split
    · exact h₁.modify fun _ => ⟨rfl, rfl⟩
    · refine Sheds.modify (Sheds.modify h₁ ?_) ?_
      all_goals exact fun _ => ⟨rfl, rfl⟩

/-- A node that was there is freed. -/
theorem free (h : Sheds s t) (hn : (s.node n).isSome = true) : Sheds s (t.free n) := by
  have hu := h.trans (unlink t n)
  have hfree : (t.free n).node n = Option.none := Function.update_self ..
  refine ⟨hu.fd, hu.task, hu.mnt, fun m y hy => ?_, fun q w => ?_⟩
  · rcases eq_or_ne m n with rfl | hm
    · rw [hfree] at hy
      cases hy
    · exact hu.back m y ((Function.update_of_ne hm _ _).symm.trans hy)
  have hwait : (t.free n).wait q w = if (t.wait q w).node = n then { t.wait q w with node := 0 } else t.wait q w := by
    have hsame : (t.unlink n).wait = t.wait := by
      unfold Vfsd.unlink
      split <;> rfl
    simp only [Vfsd.free, hsame]
  have hgone : ∀ m, t.node m = Option.none → (t.free n).node m = Option.none := by
    intro m hm
    rcases eq_or_ne m n with rfl | hmn
    · exact hfree
    · exact (Function.update_of_ne hmn _ _).trans ((unlink t n).none m hm)
  rw [hwait]
  rcases h.wait q w with he | ⟨he, hlive, hdead⟩
  · rw [he]
    split
    · rename_i hq
      exact .inr ⟨rfl, hq ▸ hn, hq ▸ hfree⟩
    · exact .inl rfl
  · refine .inr ⟨?_, hlive, hgone _ hdead⟩
    rw [he]
    split <;> rfl

theorem delKids {del : Vfsd → ℕ → Vfsd × Bool} (hd : ∀ s c, Sheds s (del s c).1) (k : ℕ) (s : Vfsd) (c : ℕ) :
    Sheds s (delKids del k s c).1 := by
  induction k generalizing s c with
  | zero => exact .refl s
  | succ k ih =>
    unfold Vfsd.delKids
    split
    · exact .refl s
    · exact (hd s c).trans (ih _ _)

theorem delDepth (d : ℕ) (s : Vfsd) (n : ℕ) : Sheds s (delDepth d s n).1 := by
  induction d generalizing s n with
  | zero => exact .refl s
  | succ d ih =>
    unfold Vfsd.delDepth
    split
    · exact .refl s
    rename_i x hx
    split
    · exact .refl s
    have hk := delKids ih (s.count + 1) s x.first
    dsimp only
    split
    · exact hk.free (by rw [hx]; rfl)
    · exact hk

theorem delNode (s : Vfsd) (n : ℕ) : Sheds s (s.delNode n).1 := delDepth delMaxDepth s n

/-- The root of all may be another one. -/
theorem uncover (s : Vfsd) (n org : ℕ) : Sheds s (s.uncover n org) := by
  unfold Vfsd.uncover
  split
  · rename_i x o hx ho
    split
    · exact ⟨rfl, rfl, rfl, fun _ y hy => ⟨y, hy, rfl, rfl⟩, fun _ _ => .inl rfl⟩
    dsimp only
    split
    · exact (remove s n).trans (addNode _ _ _)
    · refine Sheds.trans ?_ (delNode _ _)
      exact (remove s n).modify fun _ => ⟨rfl, rfl⟩
  · exact .refl s

end Sheds

/-! ### One request -/

/-- From `s` to `t` a process that may write to the tables of `own`, and mounts as `p`, has changed nothing
    of the others, but for umounts that were due and waits for nodes that have gone. -/
structure Confined (own : ℕ → Prop) (p : ℕ) (s t : Vfsd) : Prop where
  task : t.task = s.task
  fd : ∀ q k, ¬own q → t.fd q k = s.fd q k
  gain : ∀ q k f, t.fd q k = some f → ∃ j g, s.fd q j = some g ∧ g.node = f.node ∧ g.write = f.write
  mnt : ∀ i m, s.mnt i = some m → m.pid ≠ p → t.mnt i = some m ∨ Due s i
  new : ∀ i m, t.mnt i = some m → m.pid ≠ p → s.mnt i = some m
  due : ∀ i, Due t i → Due s i ∨ ∀ m, s.mnt i = some m → m.pid = p
  none : ∀ m, s.node m = none → t.node m = none
  wait : ∀ q w, q ≠ p → t.wait q w = s.wait q w ∨ LetGo s t (s.wait q w) (t.wait q w)

theorem Sheds.due (h : Sheds s t) {i : ℕ} (hd : Due t i) : Due s i := by
  obtain ⟨n, y, hy, hi, hp⟩ := hd
  obtain ⟨x, hx, hh, -⟩ := h.back n y hy
  simp only [hull, Prod.mk.injEq] at hh
  exact ⟨n, x, hx, hh.1 ▸ hi, hh.2.1 ▸ hp⟩

namespace Confined
variable {own : ℕ → Prop} {p : ℕ}

theorem sheds (h : Sheds s t) : Confined own p s t where
  task := h.task
  fd q k _ := by rw [h.fd]
  gain q k f hf := ⟨k, f, h.fd ▸ hf, rfl, rfl⟩
  mnt i m hm _ := .inl (h.mnt ▸ hm)
  new i m hm _ := h.mnt ▸ hm
  due i hd := .inl (h.due hd)
  none := h.none
  wait q w _ := h.wait q w

theorem refl (s : Vfsd) : Confined own p s s := sheds (.refl s)

theorem trans (h : Confined own p s t) (h' : Confined own p t u) : Confined own p s u where
  task := h'.task.trans h.task
  fd q k hq := (h'.fd q k hq).trans (h.fd q k hq)
  gain q k f hf := by
    obtain ⟨j, g, hg, hn, hw⟩ := h'.gain q k f hf
    obtain ⟨j', g', hg', hn', hw'⟩ := h.gain q j g hg
    exact ⟨j', g', hg', hn'.trans hn, hw'.trans hw⟩
  mnt i m hm hp := by
    rcases h.mnt i m hm hp with ht | hd
    · rcases h'.mnt i m ht hp with hu | hd
      · exact .inl hu
      · exact .inr ((h.due i hd).resolve_right fun hall => hp (hall m hm))
    · exact .inr hd
  new i m hm hp := h.new i m (h'.new i m hm hp) hp
  due i hd := by
    rcases h'.due i hd with hd | hall
    · exact h.due i hd
    · by_cases hdue : Due s i
      · exact .inl hdue
      · refine .inr fun m hm => ?_
        by_contra hp
        exact hp (hall m ((h.mnt i m hm hp).resolve_right hdue))
  none m hm := h'.none m (h.none m hm)
  wait q w hq := wait_trans (h.wait q w hq) (h'.wait q w hq) h.none h'.none

theorem foldl {α : Type} {g : Vfsd → α → Vfsd} (hg : ∀ s a, Confined own p s (g s a)) (l : List α) (s : Vfsd) :
    Confined own p s (l.foldl g s) := by
  induction l generalizing s with
  | nil => exact .refl s
  | cons a l ih => exact (hg s a).trans (ih _)

/-- An umount of one's own mount, or of one that is due. -/
theorem umountNow (h : ∀ x i, s.node n = some x → x.mountId = some i →
    (∀ m, s.mnt i = some m → m.pid = p) ∨ x.pending = true) : Confined own p s (s.umountNow n) := by
  unfold Vfsd.umountNow
  split
  · exact .refl s
  rename_i x hx
  split
  · exact .refl s
  rename_i i hi
  dsimp only
  split
  · exact .refl s
  have hu := Sheds.uncover s n ((s.mnt i).elim 0 Mnt.org)
  generalize s.uncover n ((s.mnt i).elim 0 Mnt.org) = t at hu ⊢
  have hback : ∀ m y, (t.release i n).node m = some y → ∃ z, t.node m = some z ∧
      (y.mountId = z.mountId ∧ y.pending = z.pending ∨ y.mountId = Option.none) := by
    intro m y hy
    rcases modify_cases _ _ _ hy with ⟨-, hy⟩ | ⟨rfl, z, hz, rfl⟩
    · exact ⟨y, hy, .inl ⟨rfl, rfl⟩⟩
    · exact ⟨z, hz, .inr rfl⟩
  have hgone : ∀ m, t.node m = Option.none → (t.release i n).node m = Option.none := by
    intro m hm
    exact gone (fun m y hy => (hback m y hy).imp fun _ h => h.1) hm
  have hmnt : (t.release i n).mnt = Function.update s.mnt i Option.none := by
    show Function.update t.mnt i Option.none = _
    rw [hu.mnt]
  refine ⟨hu.task, fun q k _ => by rw [← hu.fd]; rfl, fun q k f hf => ⟨k, f, hu.fd ▸ hf, rfl, rfl⟩, ?_, ?_, ?_,
    fun m hm => hgone m (hu.none m hm), fun q w _ => ?_⟩
  · intro j m hm hp
    rw [hmnt]
    rcases eq_or_ne j i with rfl | hj
    · refine .inr ?_
      rcases h x j hx hi with hall | hpend
      · exact absurd (hall m hm) hp
      · exact ⟨n, x, hx, hi, hpend⟩
    · exact .inl (by rw [Function.update_of_ne hj, hm])
  · intro j m hm _
    rw [hmnt] at hm
    rcases eq_or_ne j i with rfl | hj
    · rw [Function.update_self] at hm
      cases hm
    · rw [Function.update_of_ne hj] at hm
      exact hm
  · rintro j ⟨k, y, hy, hyj, hyp⟩
    obtain ⟨z, hz, ⟨hzi, hzp⟩ | hno⟩ := hback k y hy
    · exact .inl (hu.due ⟨k, z, hz, hzi ▸ hyj, hzp ▸ hyp⟩)
    · rw [hno] at hyj
      cases hyj
  · have hw : (t.release i n).wait = t.wait := rfl
    rw [hw]
    rcases hu.wait q w with he | ⟨he, hlive, hdead⟩
    · exact .inl he
    · exact .inr ⟨he, hlive, hgone _ hdead⟩

/-- A mounted root is marked, or unmounted. -/
theorem detach {x : Node} (hx : s.node n = some x) (h : ∀ i, x.mountId = some i → ∀ m, s.mnt i = some m → m.pid = p) :
    Confined own p s (s.detach n x) := by
  unfold Vfsd.detach
  split
  · refine ⟨rfl, fun _ _ _ => rfl, fun q k f hf => ⟨k, f, hf, rfl, rfl⟩, fun _ _ hm _ => .inl hm, fun _ _ hm _ => hm,
      ?_, fun m hm => (modify_none s n _).mpr hm, fun _ _ _ => .inl rfl⟩
    rintro i ⟨k, y, hy, hi, hp⟩
    rcases modify_cases s n _ hy with ⟨-, hy⟩ | ⟨rfl, z, hz, rfl⟩
    · exact .inl ⟨k, y, hy, hi, hp⟩
    · rw [hx] at hz
      cases hz
      exact .inr (h i hi)
  · refine umountNow fun y i hy hi => .inl ?_
    rw [hx] at hy
    cases hy
    exact h i hi

/-- A mount of the sender's own is marked, or goes. -/
theorem setMnt {i : ℕ} {m : Mnt} {o : Option Mnt} (hm : s.mnt i = some m) (hpid : m.pid = p)
    (ho : ∀ m', o = some m' → m'.pid = p := by rintro _ ⟨⟩ <;> assumption) :
    Confined own p s { s with mnt := Function.update s.mnt i o } := by
  refine ⟨rfl, fun _ _ _ => rfl, fun q k f hf => ⟨k, f, hf, rfl, rfl⟩, fun j m' hm' hp => ?_, fun j m' hm' hp => ?_,
    fun j hd => .inl hd, fun _ hm => hm, fun _ _ _ => .inl rfl⟩
  · rcases eq_or_ne j i with rfl | hj
    · rw [hm] at hm'
      cases hm'
      exact absurd hpid hp
    · exact .inl ((Function.update_of_ne hj _ _).trans hm')
  · change Function.update s.mnt i o j = some m' at hm'
    rcases eq_or_ne j i with rfl | hj
    · rw [Function.update_self] at hm'
      exact absurd (ho m' hm') hp
    · rw [Function.update_of_ne hj] at hm'
      exact hm'

theorem umountSlot (s : Vfsd) (i : ℕ) : Confined own p s (umountSlot p s i) := by
  rcases umountSlot_cases (s := s) p i with he | ⟨m, hm, hpid, ⟨x, hx, hi, he⟩ | ⟨hroot, he⟩⟩
  · rw [he]
    exact .refl s
  · rw [he]
    have hmark : Confined own p s (marked s i m) := setMnt hm hpid
    refine hmark.trans (detach hx fun j hj m' hm' => ?_)
    rw [hi] at hj
    cases hj
    rw [show (marked s i m).mnt i = some { m with left := true } from Function.update_self ..] at hm'
    cases hm'
    exact hpid
  · rw [he]
    exact setMnt hm hpid

theorem modify {f : Node → Node} (h : Confined own p s t)
    (hf : ∀ x, (f x).mountId = x.mountId ∧ (f x).pending = x.pending) : Confined own p s (t.modify n f) := by
  refine h.trans ⟨rfl, fun _ _ _ => rfl, fun q k f hf => ⟨k, f, hf, rfl, rfl⟩, fun _ _ hm _ => .inl hm,
    fun _ _ hm _ => hm, ?_, fun m hm => (modify_none t n f).mpr hm, fun _ _ _ => .inl rfl⟩
  rintro i ⟨k, y, hy, hi, hp⟩
  rcases modify_cases t n f hy with ⟨-, hy⟩ | ⟨rfl, z, hz, rfl⟩
  · exact .inl ⟨k, y, hy, hi, hp⟩
  · exact .inl ⟨k, z, hz, (hf z).1 ▸ hi, (hf z).2 ▸ hp⟩

/-- A descriptor of an own table is taken out, or comes from that table. -/
theorem setFd {q k : ℕ} {f : Option File} (h : Confined own p s t) (hq : own q)
    (hf : ∀ g, f = some g → ∃ j g', s.fd q j = some g' ∧ g'.node = g.node ∧ g'.write = g.write) :
    Confined own p s (t.setFd q k f) := by
  refine ⟨h.task, fun r j hr => ?_, fun r j g hg => ?_, h.mnt, h.new, h.due, h.none, h.wait⟩
  · have hne : ¬(r = q ∧ j = k) := fun h => hr (h.1 ▸ hq)
    rw [setFd_ne f hne]
    exact h.fd r j hr
  · rcases setFd_cases hg with ⟨rfl, -, he⟩ | hg
    · exact hf g he
    · exact h.gain r j g hg

/-- The tables alone have changed, and the waits of the process itself. -/
theorem frame (hn : t.node = s.node) (hm : t.mnt = s.mnt) (hf : t.fd = s.fd) (ht : t.task = s.task)
    (hw : ∀ q w, q ≠ p → t.wait q w = s.wait q w) : Confined own p s t := by
  refine ⟨ht, fun _ _ _ => by rw [hf], fun q k f h => ⟨k, f, hf ▸ h, rfl, rfl⟩, fun _ _ h _ => .inl (hm ▸ h),
    fun _ _ h _ => hm ▸ h, fun i hd => .inl ?_, fun _ h => hn ▸ h, fun q w hq => .inl (hw q w hq)⟩
  obtain ⟨n, x, hx, hi, hp⟩ := hd
  exact ⟨n, x, hn ▸ hx, hi, hp⟩

theorem closeFd {q : ℕ} (hq : own q) (s : Vfsd) (k : ℕ) : Confined own p s (closeFd q s k) := by
  rcases closeFd_cases (s := s) q k with he | ⟨f, hf, hcase⟩
  · rw [he]
    exact .refl s
  have hdrop : Confined own p s (dropped s q k f) := by
    have hset : Confined own p s (s.setFd q k Option.none) := (refl s).setFd hq fun g hg => by cases hg
    exact hset.modify fun _ => ⟨rfl, rfl⟩
  rcases hcase with ⟨-, he⟩ | ⟨x, y, hx, hy, hp, hmi, ⟨-, -, he⟩ | ⟨-, -, hxp, -, he⟩ | ⟨-, he⟩⟩
  · rw [he]
    exact hdrop
  · rw [he]
    exact hdrop.trans (sheds (.delNode _ _))
  · rw [he]
    refine hdrop.trans (umountNow fun z i hz _ => .inr ?_)
    rw [hy] at hz
    cases hz
    exact hp.trans hxp
  · rw [he]
    exact hdrop

theorem close {pid k : ℕ} (hq : own (s.ownerPid pid)) : Confined own p s (s.close pid k) := by
  unfold Vfsd.close
  split
  · exact .refl s
  · exact closeFd hq s k

/-- The process itself is cleared. -/
theorem clearZombie (hq : own p) (s : Vfsd) : Confined own p s (s.clearZombie p) := by
  have h₁ : Confined own p s (s.umountByPid p) := by
    unfold Vfsd.umountByPid
    split
    · exact .refl s
    · exact foldl (fun s i => umountSlot s i) _ s
  have h₂ : Confined own p s (Rules.unmounted s p) := by
    refine h₁.trans ?_
    unfold Rules.unmounted Vfsd.removeProcWaiters
    split
    · exact .refl _
    · exact frame rfl rfl rfl rfl fun q w hq => if_neg fun h => hq h.1
  have h₃ : Confined own p s ((List.range fdMax).foldl (Vfsd.closeFd p) (Rules.unmounted s p)) :=
    h₂.trans (foldl (fun s k => closeFd hq s k) _ _)
  show Confined own p s (((List.range fdMax).foldl (Vfsd.closeFd p) (Rules.unmounted s p)).setSlot p ⟨0, .unused⟩)
  generalize (List.range fdMax).foldl (Vfsd.closeFd p) (Rules.unmounted s p) = t at h₃ ⊢
  exact h₃.trans (frame rfl rfl rfl rfl fun _ _ _ => rfl)

theorem trackTaskSlot (hq : own p) (s : Vfsd) : Confined own p s (s.trackTaskSlot p) := by
  have hslot : ∀ (t : Vfsd) x, Confined own p s t → Confined own p s (t.setSlot p x) := fun t x ht =>
    ht.trans (frame rfl rfl rfl rfl fun _ _ _ => rfl)
  have hremove : ∀ uuid, Confined own p s (s.removeProcWaiters p uuid) := by
    intro uuid
    unfold Vfsd.removeProcWaiters
    split
    · exact .refl s
    · exact frame rfl rfl rfl rfl fun q w hq => if_neg fun h => hq h.1
  unfold Vfsd.trackTaskSlot
  dsimp only
  split
  · exact .refl s
  split
  · split
    · refine hslot _ _ ((hremove (s.slot p).uuid).trans ?_)
      exact frame rfl rfl rfl rfl fun q w hq => if_neg hq
    · exact hslot _ _ (clearZombie hq s)
  · exact hslot s _ (.refl s)

theorem mount {org : ℕ} (h : s.mount p org n = some t) : Confined own p s t := by
  obtain ⟨o, x, i, -, -, -, -, -, -, -, hi, rfl⟩ := mount_cases h
  have hfree := (getFreeMountId_spec hi).2
  have hu : Confined own p s ({ s with mnt := Function.update s.mnt i (some ⟨p, org, n, false⟩) }.modify n
      (.mounted o.info.name i)) := by
    refine ⟨rfl, fun _ _ _ => rfl, fun q k f hf => ⟨k, f, hf, rfl, rfl⟩, fun j m hm _ => .inl ?_, fun j m hm hp => ?_,
      ?_, fun m hm => (modify_none _ _ _).mpr hm, fun _ _ _ => .inl rfl⟩
    · have hj : j ≠ i := by
        rintro rfl
        rw [hfree] at hm
        cases hm
      exact (Function.update_of_ne hj _ _).trans hm
    · change Function.update s.mnt i _ j = some m at hm
      rcases eq_or_ne j i with rfl | hj
      · rw [Function.update_self] at hm
        cases hm
        exact absurd rfl hp
      · rw [Function.update_of_ne hj] at hm
        exact hm
    · rintro j ⟨k, y, hy, hj, hp⟩
      rcases modify_cases _ _ _ hy with ⟨-, hy⟩ | ⟨rfl, z, hz, rfl⟩
      · exact .inl ⟨k, y, hy, hj, hp⟩
      · cases hj
        refine .inr fun m hm => ?_
        rw [hfree] at hm
        cases hm
  dsimp only
  split
  · exact hu.trans (frame rfl rfl rfl rfl fun _ _ _ => rfl)
  · exact hu.trans (sheds ((Sheds.remove _ org).trans (.addNode _ _ _)))

/-- Who is not root unmounts what it has mounted. -/
theorem umount (hroot : ∀ c, (s.task p).cred = some c → 0 < c.uid) : Confined own p s (s.umount p n) := by
  unfold Vfsd.umount
  split
  · exact .refl s
  rename_i x hx
  split
  swap
  · exact .refl s
  rename_i hmay
  refine detach hx fun i hi m hm => ?_
  have hpid : s.getMountPid n = some p := by
    have hor := hmay.2
    simp only [checkMount, Bool.or_eq_true, decide_eq_true_eq] at hor
    rcases hor with hpid | hu
    · exact hpid
    · split at hu
      · cases hu
      · rename_i c hc
        have hpos := hroot c hc
        simp only [decide_eq_true_eq] at hu
        omega
  have hclimb : s.climb (s.count + 1) n = some i := by
    rw [climb, hx]
    dsimp only
    rw [hi]
  unfold getMountPid at hpid
  rw [hclimb] at hpid
  dsimp only at hpid
  split at hpid
  · rw [hm] at hpid
    exact Option.some.inj hpid
  · cases hpid

theorem doDelNode (s : Vfsd) (pid n : ℕ) : Confined own p s (s.doDelNode pid n) := by
  unfold Vfsd.doDelNode
  split
  · exact .refl s
  split
  · exact sheds (.delNode s n)
  · exact .refl s

theorem doMount (s : Vfsd) (org n : ℕ) : Confined own p s (s.doMount p org n) := by
  unfold Vfsd.doMount
  split
  · exact .refl s
  split
  swap
  · exact .refl s
  cases hm : s.mount p org n with
  | none => exact .refl s
  | some t => exact mount hm

theorem doSetByFd {pid k : ℕ} (i : Info) (hq : own (s.ownerPid pid)) : Confined own p s (s.doSetByFd pid k i) := by
  unfold Vfsd.doSetByFd
  split
  · exact .refl s
  rename_i f hf
  refine (refl s).setFd hq fun g hg => ?_
  cases hg
  exact ⟨k, f, (checkFd_spec hf).2.2, rfl, rfl⟩

theorem dup {pid k : ℕ} (hq : own (s.ownerPid pid)) : Confined own p s ((s.dup pid k).elim s Prod.fst) := by
  unfold Vfsd.dup
  dsimp only
  split
  · exact .refl s
  split
  swap
  · exact .refl s
  rename_i j f hj hf
  have hold : s.fd (s.ownerPid pid) k = some f := by
    have h := (checkFd_spec hf).2.2
    rw [ownerPid_idem] at h
    exact h
  have hset : Confined own p s (s.setFd (s.ownerPid pid) j (some f)) := (refl s).setFd hq fun g hg => by
    cases hg
    exact ⟨k, f, hold, rfl, rfl⟩
  exact hset.modify fun _ => ⟨rfl, rfl⟩

theorem dup2 {pid k j : ℕ} (hq : own (s.ownerPid pid)) : Confined own p s ((s.dup2 pid k j).getD s) := by
  unfold Vfsd.dup2
  dsimp only
  split
  · exact .refl s
  rename_i f hf
  split
  · exact .refl s
  split
  swap
  · exact .refl s
  have hold : s.fd (s.ownerPid pid) k = some f := by
    have h := (checkFd_spec hf).2.2
    rw [ownerPid_idem] at h
    exact h
  have hclose : Confined own p s (s.close (s.ownerPid pid) j) := close (by rw [ownerPid_idem]; exact hq)
  have hset : Confined own p s ((s.close (s.ownerPid pid) j).setFd (s.ownerPid pid) j (some f)) :=
    hclose.setFd hq fun g hg => by
      cases hg
      exact ⟨k, f, hold, rfl, rfl⟩
  exact hset.modify fun _ => ⟨rfl, rfl⟩

theorem block {rd wr : Bool} (hq : own p) : Confined own p s (s.block p n rd wr) := by
  unfold Vfsd.block
  split
  · exact .refl s
  have ht := trackTaskSlot hq s
  dsimp only
  generalize s.trackTaskSlot p = t at ht ⊢
  split
  · exact ht
  · exact ht.trans (frame rfl rfl rfl rfl fun q w hq => if_neg fun h => hq h.1)

theorem unblock (s : Vfsd) (n : ℕ) : Confined own p s (s.unblock p n) := by
  unfold Vfsd.unblock
  dsimp only
  split
  · exact .refl s
  · exact frame rfl rfl rfl rfl fun q w hq => if_neg fun h => hq h.1

end Confined

/-- Who sent a request. The rest happens by itself. -/
def Op.sender : Op → Option ℕ
  | .kernel .. => none
  | .applyKids .. => none
  | .setLoaded .. => none
  | .reap .. => none
  | .newNode pid .. => some pid
  | .newNodes pid .. => some pid
  | .delNode pid _ => some pid
  | .mount pid .. => some pid
  | .umount pid _ => some pid
  | .setFsinfo pid .. => some pid
  | .setByFd pid .. => some pid
  | .openNode pid .. => some pid
  | .close pid _ => some pid
  | .dup pid _ => some pid
  | .dup2 pid .. => some pid
  | .procClone pid .. => some pid
  | .procExit pid _ => some pid
  | .block pid .. => some pid
  | .unblock pid _ => some pid

/-- `VFS_PROC_CLONE` and `VFS_PROC_EXIT`, which `core` sends for the kernel. -/
def Op.lifecycle : Op → Bool
  | .procClone .. => true
  | .procExit .. => true
  | _ => false

/-- The process has had a descriptor of the node. -/
def Owned (s : Vfsd) (q : ℕ) (f : File) : Prop := ∃ j g, s.fd q j = some g ∧ g.node = f.node ∧ g.write = f.write

/-- It has opened the node, or an anonymous copy of it, and was granted to. -/
def Opened (s : Vfsd) (q : ℕ) (f : File) : Op → Prop
  | .openNode pid n fl => s.ownerPid pid = q ∧ f.write = fl.write ∧ ∃ x, s.node n = some x ∧
    s.granted pid x fl = true ∧ f.node = if x.info.type.anon then s.allocId else n
  | _ => False

/-- It has been forked from a process that had it. -/
def Inherited (s : Vfsd) (q : ℕ) (f : File) : Op → Prop
  | .procClone _ fpid cpid => cpid = q ∧ Owned s fpid f
  | _ => False

/-- What a request of `p` leaves to the others. -/
structure Private (p : ℕ) (s t : Vfsd) : Prop where
  fd : ∀ q k, q ≠ p → q ≠ s.ownerPid p → t.fd q k = s.fd q k
  mnt : ∀ i m, s.mnt i = some m → m.pid ≠ p → t.mnt i = some m ∨ Due s i
  new : ∀ i m, t.mnt i = some m → m.pid ≠ p → s.mnt i = some m
  wait : ∀ q w, q ≠ p → t.wait q w = s.wait q w ∨ LetGo s t (s.wait q w) (t.wait q w)

theorem Confined.toPrivate {p : ℕ} (h : Confined (fun q => q = p ∨ q = s.ownerPid p) p s t) : Private p s t where
  fd q k hp ho := h.fd q k fun hq => hq.elim hp ho
  mnt := h.mnt
  new := h.new
  wait := h.wait

/-- Nothing is written but nodes. -/
structure Makes (s t : Vfsd) : Prop where
  fd : t.fd = s.fd
  mnt : t.mnt = s.mnt
  wait : t.wait = s.wait
  task : t.task = s.task

namespace Makes

theorem refl (s : Vfsd) : Makes s s := ⟨rfl, rfl, rfl, rfl⟩

theorem trans (h : Makes s t) (h' : Makes t u) : Makes s u :=
  ⟨h'.fd.trans h.fd, h'.mnt.trans h.mnt, h'.wait.trans h.wait, h'.task.trans h.task⟩

theorem modify (s : Vfsd) (n : ℕ) (f : Node → Node) : Makes s (s.modify n f) := ⟨rfl, rfl, rfl, rfl⟩

theorem newNode {x : Node} {v : Vfsd × ℕ} (h : s.newNode x = some v) : Makes s v.1 := by
  unfold Vfsd.newNode at h
  split at h
  · cases h
  · cases h
    exact ⟨rfl, rfl, rfl, rfl⟩

theorem create (s : Vfsd) (dir : ℕ) (x : Node) : Makes s (s.create dir x) := by
  unfold Vfsd.create
  split
  · exact .refl s
  rename_i t n hu
  have ht : Makes s t := newNode hu
  split
  · exact ht
  · refine ht.trans ?_
    unfold Vfsd.addNode
    dsimp only
    split
    · exact ⟨rfl, rfl, rfl, rfl⟩
    · split <;> exact ⟨rfl, rfl, rfl, rfl⟩

theorem foldl {α : Type} {g : Vfsd → α → Vfsd} (hg : ∀ s a, Makes s (g s a)) (l : List α) (s : Vfsd) :
    Makes s (l.foldl g s) := by
  induction l generalizing s with
  | nil => exact .refl s
  | cons a l ih => exact (hg s a).trans (ih _)

theorem toPrivate {p : ℕ} (h : Makes s t) : Private p s t where
  fd q k _ _ := by rw [h.fd]
  mnt i m hm _ := .inl (h.mnt ▸ hm)
  new i m hm _ := h.mnt ▸ hm
  wait q w _ := .inl (by rw [h.wait])

end Makes

/-! ### Requests that make nodes -/

theorem makes_doNewNode (s : Vfsd) (pid : ℕ) (i : Info) (dir : ℕ) (nodeOnly writeOver createOpen : Bool) :
    Makes s (s.doNewNode pid i dir nodeOnly writeOver createOpen) := by
  unfold Vfsd.doNewNode
  dsimp only
  split
  · exact .refl s
  split
  · exact .create s 0 _
  split
  · exact .refl s
  split
  · exact .refl s
  split
  · exact .create s dir _
  · split
    · exact .refl s
    split
    · exact .modify s _ _
    · exact .refl s

theorem makes_doNewNodes (s : Vfsd) (pid dir : ℕ) (infos : List Info) : Makes s (s.doNewNodes pid dir infos) := by
  unfold Vfsd.doNewNodes
  split
  · exact .refl s
  split
  · exact .foldl (fun s i => .create s dir _) infos s
  · exact .refl s

theorem makes_applyKids (s : Vfsd) (father mountPid : ℕ) (infos : List Info) :
    Makes s (s.applyKids father mountPid infos) := by
  unfold Vfsd.applyKids
  split
  · exact .refl s
  split
  · refine Makes.trans (.foldl (fun s i => ?_) infos s) (.modify _ father _)
    unfold commitKid
    split
    · exact .refl s
    · exact .create s father _
  · exact .refl s

theorem makes_doSetFsinfo (s : Vfsd) (pid n : ℕ) (i : Info) (kind : Update) :
    Makes s (s.doSetFsinfo pid n i kind) := by
  unfold Vfsd.doSetFsinfo
  split
  · exact .refl s
  split
  · exact .refl s
  · split
    · exact .modify s n _
    · exact .refl s
  · split
    · exact (Makes.modify s n _).trans (.modify _ n _)
    · exact .refl s

/-! ### Opening -/

/-- An open writes one descriptor of the owner's table. -/
theorem vfsdOpen_fd {pid : ℕ} {fl : Flags} {v : Vfsd × ℕ} (h : s.vfsdOpen pid n fl = some v) :
    v.1.mnt = s.mnt ∧ v.1.wait = s.wait ∧ (∀ q k, q ≠ s.ownerPid pid → v.1.fd q k = s.fd q k) ∧
    ∀ k f, v.1.fd (s.ownerPid pid) k = some f → s.fd (s.ownerPid pid) k = some f ∨ (f.node = n ∧ f.write = fl.write) := by
  unfold Vfsd.vfsdOpen at h
  dsimp only at h
  split at h
  · cases h
  rename_i x hx
  split at h
  · cases h
  split at h
  · cases h
  rename_i j hj
  cases h
  have hfd : ∀ q k, q ≠ s.ownerPid pid → (s.setFd (s.ownerPid pid) j (some ⟨n, fl.write, x.info⟩)).fd q k = s.fd q k :=
    fun q k hq => setFd_ne _ fun h => hq h.1
  have hnew : ∀ k f, (s.setFd (s.ownerPid pid) j (some ⟨n, fl.write, x.info⟩)).fd (s.ownerPid pid) k = some f →
      s.fd (s.ownerPid pid) k = some f ∨ (f.node = n ∧ f.write = fl.write) := by
    intro k f hf
    rcases setFd_cases hf with ⟨-, -, he⟩ | hf
    · cases he
      exact .inr ⟨rfl, rfl⟩
    · exact .inl hf
  dsimp only
  split
  · exact ⟨rfl, rfl, hfd, hnew⟩
  · exact ⟨rfl, rfl, hfd, hnew⟩

theorem doOpen_fd (s : Vfsd) (pid n : ℕ) (fl : Flags) :
    (s.doOpen pid n fl).mnt = s.mnt ∧ (s.doOpen pid n fl).wait = s.wait ∧
    (∀ q k, q ≠ s.ownerPid pid → (s.doOpen pid n fl).fd q k = s.fd q k) ∧
    ∀ k f, (s.doOpen pid n fl).fd (s.ownerPid pid) k = some f → s.fd (s.ownerPid pid) k = some f ∨
      Opened s (s.ownerPid pid) f (.openNode pid n fl) := by
  have hsame : ∀ t : Vfsd, Makes s t → t.mnt = s.mnt ∧ t.wait = s.wait ∧
      (∀ q k, q ≠ s.ownerPid pid → t.fd q k = s.fd q k) ∧
      ∀ k f, t.fd (s.ownerPid pid) k = some f → s.fd (s.ownerPid pid) k = some f ∨
        Opened s (s.ownerPid pid) f (.openNode pid n fl) := fun t ht =>
    ⟨ht.mnt, ht.wait, fun _ _ _ => by rw [ht.fd], fun k f hf => .inl (ht.fd ▸ hf)⟩
  have hopen : ∀ (t : Vfsd) (m : ℕ) (v : Vfsd × ℕ) (x : Node), Makes s t → t.vfsdOpen pid m fl = some v →
      s.node n = some x → s.granted pid x fl = true → m = (if x.info.type.anon then s.allocId else n) →
      v.1.mnt = s.mnt ∧ v.1.wait = s.wait ∧ (∀ q k, q ≠ s.ownerPid pid → v.1.fd q k = s.fd q k) ∧
      ∀ k f, v.1.fd (s.ownerPid pid) k = some f → s.fd (s.ownerPid pid) k = some f ∨
        Opened s (s.ownerPid pid) f (.openNode pid n fl) := by
    intro t m v x ht hv hx hg hm
    obtain ⟨h₁, h₂, h₃, h₄⟩ := vfsdOpen_fd hv
    rw [ownerPid_congr ht.task] at h₃ h₄
    refine ⟨h₁.trans ht.mnt, h₂.trans ht.wait, fun q k hq => (h₃ q k hq).trans (by rw [ht.fd]), fun k f hf => ?_⟩
    rcases h₄ k f hf with hold | ⟨hnode, hwrite⟩
    · exact .inl (ht.fd ▸ hold)
    · exact .inr ⟨rfl, hwrite, x, hx, hg, hnode.trans hm⟩
  unfold Vfsd.doOpen
  split
  · exact hsame s (.refl s)
  rename_i x hx
  dsimp only
  have ht : ∃ t, (if s.createPending pid x then s.modify n fun x => { x with create := none } else s) = t ∧
      Makes s t ∧ t.allocId = s.allocId := by
    split
    · exact ⟨_, rfl, .modify s n _, rfl⟩
    · exact ⟨s, rfl, .refl s, rfl⟩
  obtain ⟨t, he, hmakes, hid⟩ := ht
  rw [he]
  split
  swap
  · exact hsame t hmakes
  rename_i hgr
  unfold Vfsd.grant
  split
  · rename_i ha
    split
    · exact hsame t hmakes
    rename_i v m hv
    obtain ⟨y, hy⟩ : ∃ y, t.newNode y = some (v, m) := by
      unfold openAnonymous at hv
      split at hv
      · exact ⟨_, hv⟩
      · cases hv
    have hmv : Makes s v := hmakes.trans (.newNode hy)
    split
    · exact hsame v hmv
    · rename_i z k hz
      refine hopen v m _ x hmv hz hx hgr ?_
      rw [if_pos ha, ← hid]
      exact (newNode_eq hy).1
  · rename_i ha
    split
    · exact hsame t hmakes
    · rename_i z k hz
      exact hopen t n _ x hmakes hz hx hgr (if_neg ha).symm

/-! ### Every request -/

theorem cloneAll_fd {fpid cpid : ℕ} (l : List ℕ) (t : Vfsd)
    (h : ∀ q k f, t.fd q k = some f → Owned s q f ∨ (cpid = q ∧ Owned s fpid f)) :
    ∀ q k f, (l.foldl (cloneFd fpid cpid) t).fd q k = some f → Owned s q f ∨ (cpid = q ∧ Owned s fpid f) := by
  induction l generalizing t with
  | nil => exact h
  | cons j l ih =>
    refine ih _ fun q k f hf => ?_
    unfold cloneFd at hf
    split at hf
    · exact h q k f hf
    rename_i g hg
    rcases setFd_cases (s := t) (p := cpid) (k := j) (f := some g) hf with ⟨rfl, -, he⟩ | hf
    · cases he
      rcases h fpid j f hg with hown | ⟨-, hown⟩
      · exact .inr ⟨rfl, hown⟩
      · exact .inr ⟨rfl, hown⟩
    · exact h q k f hf

/-- A descriptor was there, has been opened or has been inherited. -/
theorem gains {o : Op} (ht : s.step o = some t) {q k : ℕ} {f : File} (hf : t.fd q k = some f) :
    Owned s q f ∨ Opened s q f o ∨ Inherited s q f o := by
  have hsame : t.fd = s.fd → Owned s q f ∨ Opened s q f o ∨ Inherited s q f o := fun he =>
    .inl ⟨k, f, he ▸ hf, rfl, rfl⟩
  have hconf : ∀ {p}, Confined (fun _ => True) p s t → Owned s q f ∨ Opened s q f o ∨ Inherited s q f o := fun hc =>
    .inl (hc.gain q k f hf)
  have hall : ∀ c, ∃ u, u = s.clearZombie c ∧ Confined (fun _ => True) c s u := fun c =>
    ⟨_, rfl, .clearZombie trivial s⟩
  cases o with
  | kernel pid x =>
    cases ht
    exact hsame rfl
  | applyKids father mountPid infos =>
    cases ht
    exact hsame (makes_applyKids s father mountPid infos).fd
  | setLoaded father =>
    simp only [Vfsd.step, Option.ite_none_right_eq_some, Option.some.injEq] at ht
    obtain ⟨-, rfl⟩ := ht
    exact hsame rfl
  | reap cpid =>
    simp only [Vfsd.step, Option.ite_none_right_eq_some, Option.some.injEq] at ht
    obtain ⟨-, rfl⟩ := ht
    obtain ⟨u, hu, hc⟩ := hall cpid
    unfold Vfsd.reapChild at hf
    rw [← hu] at hf
    exact .inl (hc.gain q k f hf)
  | newNode pid i dir nodeOnly writeOver createOpen =>
    cases ht
    exact hsame (makes_doNewNode s pid i dir nodeOnly writeOver createOpen).fd
  | newNodes pid dir infos =>
    cases ht
    exact hsame (makes_doNewNodes s pid dir infos).fd
  | delNode pid n =>
    cases ht
    exact hconf (p := pid) (.doDelNode s pid n)
  | mount pid org n =>
    cases ht
    exact hconf (.doMount s org n)
  | umount pid n =>
    cases ht
    have hdetach : ∀ x, s.node n = some x → (s.detach n x).fd q k = some f → Owned s q f := by
      intro x hx hf
      -- as if who mounted it had asked for it
      have hc : Confined (fun _ => True) (((x.mountId.bind s.mnt).map Mnt.pid).getD 0) s (s.detach n x) := by
        refine .detach hx fun i hi m hm => ?_
        rw [hi, Option.bind_some, hm]
        rfl
      exact hc.gain q k f hf
    unfold Vfsd.umount at hf
    split at hf
    · exact .inl ⟨k, f, hf, rfl, rfl⟩
    rename_i x hx
    split at hf
    · exact .inl (hdetach x hx hf)
    · exact .inl ⟨k, f, hf, rfl, rfl⟩
  | setFsinfo pid n i kind =>
    cases ht
    exact hsame (makes_doSetFsinfo s pid n i kind).fd
  | setByFd pid j i =>
    cases ht
    exact hconf (p := pid) (.doSetByFd i trivial)
  | openNode pid n fl =>
    cases ht
    obtain ⟨-, -, hother, hown⟩ := doOpen_fd s pid n fl
    rcases eq_or_ne q (s.ownerPid pid) with rfl | hq
    · rcases hown k f hf with hold | hopen
      · exact .inl ⟨k, f, hold, rfl, rfl⟩
      · exact .inr (.inl hopen)
    · exact .inl ⟨k, f, (hother q k hq).symm.trans hf, rfl, rfl⟩
  | close pid j =>
    cases ht
    exact hconf (p := pid) (.close trivial)
  | dup pid j =>
    cases ht
    exact hconf (p := pid) (.dup trivial)
  | dup2 pid j j' =>
    cases ht
    exact hconf (p := pid) (.dup2 trivial)
  | procClone pid fpid cpid =>
    cases ht
    unfold Vfsd.procClone at hf
    split at hf
    · exact .inl ⟨k, f, hf, rfl, rfl⟩
    dsimp only at hf
    have hprep : ∃ u, (if (s.slot cpid).state = .unused then s else s.clearZombie cpid) = u ∧
        ∀ q k f, u.fd q k = some f → Owned s q f := by
      split
      · exact ⟨s, rfl, fun q k f hf => ⟨k, f, hf, rfl, rfl⟩⟩
      · obtain ⟨u, hu, hc⟩ := hall cpid
        exact ⟨u, hu.symm, hc.gain⟩
    obtain ⟨u, he, hu⟩ := hprep
    rw [he] at hf
    generalize List.range fdMax = l at hf
    refine Or.imp_right .inr (cloneAll_fd l _ (fun q k f hf => ?_) q k f hf)
    exact .inl (hu q k f hf)
  | procExit pid cpid =>
    cases ht
    unfold Vfsd.procExit at hf
    split at hf
    · exact .inl ⟨k, f, hf, rfl, rfl⟩
    split at hf
    · have hc : ∃ u, u = (s.resetTaskWaiters cpid).clearZombie cpid ∧
          Confined (fun _ => True) cpid (s.resetTaskWaiters cpid) u := ⟨_, rfl, .clearZombie trivial _⟩
      obtain ⟨u, hu, hc⟩ := hc
      rw [← hu] at hf
      exact .inl (hc.gain q k f hf)
    · split at hf
      · exact .inl ⟨k, f, hf, rfl, rfl⟩
      · obtain ⟨u, hu, hc⟩ := hall cpid
        rw [← hu] at hf
        exact .inl (hc.gain q k f hf)
  | block pid n rd wr =>
    cases ht
    exact hconf (.block trivial)
  | unblock pid n =>
    cases ht
    exact hconf (.unblock s n)

/-- What a process that is not root asks for does not reach the others. -/
theorem confines {o : Op} {p : ℕ} (ho : o.sender = some p) (hl : o.lifecycle = false)
    (hroot : ∀ c, (s.task p).cred = some c → 0 < c.uid) (ht : s.step o = some t) : Private p s t := by
  cases o with
  | kernel => cases ho
  | applyKids => cases ho
  | setLoaded => cases ho
  | reap => cases ho
  | newNode pid i dir nodeOnly writeOver createOpen =>
    cases ht
    exact (makes_doNewNode s pid i dir nodeOnly writeOver createOpen).toPrivate
  | newNodes pid dir infos =>
    cases ht
    exact (makes_doNewNodes s pid dir infos).toPrivate
  | delNode pid n =>
    cases ho
    cases ht
    exact (Confined.doDelNode s p n).toPrivate
  | mount pid org n =>
    cases ho
    cases ht
    exact (Confined.doMount s org n).toPrivate
  | umount pid n =>
    cases ho
    cases ht
    exact (Confined.umount hroot).toPrivate
  | setFsinfo pid n i kind =>
    cases ht
    exact (makes_doSetFsinfo s pid n i kind).toPrivate
  | setByFd pid k i =>
    cases ho
    cases ht
    exact (Confined.doSetByFd i (.inr rfl)).toPrivate
  | openNode pid n fl =>
    cases ho
    cases ht
    obtain ⟨hmnt, hwait, hother, -⟩ := doOpen_fd s p n fl
    refine ⟨fun q k _ hq => hother q k hq, fun i m hm _ => .inl (hmnt ▸ hm), fun i m hm _ => hmnt ▸ hm, fun q w _ => .inl ?_⟩
    rw [hwait]
  | close pid k =>
    cases ho
    cases ht
    exact (Confined.close (.inr rfl)).toPrivate
  | dup pid k =>
    cases ho
    cases ht
    exact (Confined.dup (.inr rfl)).toPrivate
  | dup2 pid k j =>
    cases ho
    cases ht
    exact (Confined.dup2 (.inr rfl)).toPrivate
  | procClone => cases hl
  | procExit => cases hl
  | block pid n rd wr =>
    cases ho
    cases ht
    exact (Confined.block (.inl rfl)).toPrivate
  | unblock pid n =>
    cases ho
    cases ht
    exact (Confined.unblock s n).toPrivate

/-! ### Nothing at all -/

/-- Closing the descriptor takes its node away, or unmounts it. -/
def Parts (s : Vfsd) (q k : ℕ) : Prop :=
  ∃ f x, s.fd q k = some f ∧ s.node f.node = some x ∧ x.refs ≤ 1 ∧
    (x.info.type.anon = true ∨ x.mountId.isSome = true ∧ x.pending = true)

/-- Requests that can take nodes away, or complete an umount. -/
def Tears (s : Vfsd) : Op → Prop
  | .delNode pid n => ∃ x, s.node n = some x ∧ s.mayDelete pid n x = true
  | .umount pid n => s.checkMount pid n = true
  | .close pid k => Parts s (s.ownerPid pid) k
  | .dup2 pid _ j => Parts s (s.ownerPid pid) j
  -- the slot is still that of an earlier process
  | .block pid _ _ _ => (s.slot pid).state ≠ .unused ∧ (s.slot pid).uuid ≠ 0 ∧ (s.slot pid).uuid ≠ s.getUuid pid
  | _ => False

/-- Nobody but `p` waits for a node, and no umount of another is pending. -/
structure Alone (p : ℕ) (s : Vfsd) : Prop where
  wait : ∀ q w, q ≠ p → s.node (s.wait q w).node = none
  due : ∀ i m, s.mnt i = some m → m.pid ≠ p → ¬Due s i

/-- A request of `p` has changed nothing of the others. -/
structure Untouched (p : ℕ) (s t : Vfsd) : Prop where
  fd : ∀ q k, q ≠ p → q ≠ s.ownerPid p → t.fd q k = s.fd q k
  mnt : ∀ i m, m.pid ≠ p → (t.mnt i = some m ↔ s.mnt i = some m)
  wait : ∀ q w, q ≠ p → t.wait q w = s.wait q w

theorem Private.untouched {p : ℕ} (h : Private p s t) (ha : Alone p s) : Untouched p s t where
  fd := h.fd
  mnt i m hp := ⟨fun hm => h.new i m hm hp, fun hm => (h.mnt i m hm hp).resolve_right (ha.due i m hm hp)⟩
  wait q w hq := (h.wait q w hq).resolve_right fun hl => by
    have hlive := hl.2.1
    rw [ha.wait q w hq] at hlive
    cases hlive

namespace Untouched
variable {p : ℕ}

theorem refl (p : ℕ) (s : Vfsd) : Untouched p s s := ⟨fun _ _ _ _ => rfl, fun _ _ _ => Iff.rfl, fun _ _ _ => rfl⟩

/-- The table of the owner has changed alone. -/
theorem table (hfd : ∀ q k, q ≠ s.ownerPid p → t.fd q k = s.fd q k) (hm : t.mnt = s.mnt) (hw : t.wait = s.wait) :
    Untouched p s t :=
  ⟨fun q k _ hq => hfd q k hq, fun _ _ _ => by rw [hm], fun _ _ _ => by rw [hw]⟩

theorem makes (h : Makes s t) : Untouched p s t := table (fun _ _ _ => by rw [h.fd]) h.mnt h.wait

theorem doMount (s : Vfsd) (org n : ℕ) : Untouched p s (s.doMount p org n) := by
  unfold Vfsd.doMount
  split
  · exact refl p s
  split
  swap
  · exact refl p s
  cases hm : s.mount p org n with
  | none => exact refl p s
  | some t =>
    have hc : Confined (fun _ => False) p s t := .mount hm
    obtain ⟨o, x, i, -, -, -, -, -, -, -, hi, rfl⟩ := mount_cases hm
    have hremove : ∀ u : Vfsd, (u.remove org).wait = u.wait := by
      intro u
      unfold Vfsd.remove Vfsd.unlink
      split <;> rfl
    have hadd : ∀ u : Vfsd, (u.addNode o.father n).wait = u.wait := by
      intro u
      unfold Vfsd.addNode
      dsimp only
      split
      · rfl
      · split <;> rfl
    have hfree := (getFreeMountId_spec hi).2
    refine ⟨fun q k _ _ => hc.fd q k id, fun j m hp => ⟨fun hj => hc.new j m hj hp, fun hj => ?_⟩, fun q w _ => ?_⟩
    · -- the slot that is taken was free
      have hji : j ≠ i := by
        rintro rfl
        rw [hfree] at hj
        cases hj
      have hset : ∀ m', Function.update s.mnt i m' j = some m := fun m' => (Function.update_of_ne hji _ _).trans hj
      dsimp only [Option.getD_some]
      split
      · exact hset _
      · rw [(addNode_frame _ _ _).1, (remove_frame _ _).1]
        exact hset _
    · dsimp only [Option.getD_some]
      split
      · rfl
      · rw [hadd, hremove]
        rfl

theorem closeFd {k : ℕ} (hp : ¬Parts s (s.ownerPid p) k) : Untouched p s (closeFd (s.ownerPid p) s k) := by
  rcases closeFd_cases (s := s) (s.ownerPid p) k with he | ⟨f, hf, hcase⟩
  · rw [he]
    exact refl p s
  have hdrop : Untouched p s (dropped s (s.ownerPid p) k f) :=
    table (fun q j hq => setFd_ne _ fun h => hq h.1) rfl rfl
  rcases hcase with ⟨-, he⟩ | ⟨x, y, hx, -, -, -, ⟨ha, hr, -⟩ | ⟨-, hi, hpend, hr, -⟩ | ⟨-, he⟩⟩
  · rw [he]
    exact hdrop
  · exact absurd ⟨f, x, hf, hx, hr, .inl ha⟩ hp
  · exact absurd ⟨f, x, hf, hx, hr, .inr ⟨hi, hpend⟩⟩ hp
  · rw [he]
    exact hdrop

theorem close {k : ℕ} (hp : ¬Parts s (s.ownerPid p) k) : Untouched p s (s.close p k) := by
  unfold Vfsd.close
  split
  · exact refl p s
  · exact closeFd hp

theorem setByFd (s : Vfsd) (k : ℕ) (i : Info) : Untouched p s (s.doSetByFd p k i) := by
  unfold Vfsd.doSetByFd
  split
  · exact refl p s
  · exact table (fun q j hq => setFd_ne _ fun h => hq h.1) rfl rfl

theorem dup (s : Vfsd) (k : ℕ) : Untouched p s ((s.dup p k).elim s Prod.fst) := by
  unfold Vfsd.dup
  dsimp only
  split
  · exact refl p s
  split
  · exact table (fun q j hq => setFd_ne _ fun h => hq h.1) rfl rfl
  · exact refl p s

theorem dup2 {k j : ℕ} (hp : ¬Parts s (s.ownerPid p) j) : Untouched p s ((s.dup2 p k j).getD s) := by
  unfold Vfsd.dup2
  dsimp only
  split
  · exact refl p s
  split
  · exact refl p s
  split
  swap
  · exact refl p s
  have hown : s.ownerPid (s.ownerPid p) = s.ownerPid p := ownerPid_idem s p
  have hclose : Untouched p s (s.close (s.ownerPid p) j) := by
    unfold Vfsd.close
    split
    · exact refl p s
    · rw [hown]
      exact closeFd hp
  exact ⟨fun q i h₁ h₂ => (setFd_ne _ fun h => h₂ h.1).trans (hclose.fd q i h₁ h₂), hclose.mnt, hclose.wait⟩

theorem block {n : ℕ} {rd wr : Bool} (hslot : ¬((s.slot p).state ≠ .unused ∧ (s.slot p).uuid ≠ 0 ∧
    (s.slot p).uuid ≠ s.getUuid p)) : Untouched p s (s.block p n rd wr) := by
  have htrack : (s.trackTaskSlot p).fd = s.fd ∧ (s.trackTaskSlot p).mnt = s.mnt ∧ (s.trackTaskSlot p).wait = s.wait := by
    unfold Vfsd.trackTaskSlot
    dsimp only
    split
    · exact ⟨rfl, rfl, rfl⟩
    · exact ⟨rfl, rfl, rfl⟩
  obtain ⟨hfd, hm, hw⟩ := htrack
  unfold Vfsd.block
  split
  · exact refl p s
  dsimp only
  generalize s.trackTaskSlot p = t at hfd hm hw
  split
  · exact table (fun _ _ _ => by rw [hfd]) hm hw
  · exact ⟨fun _ _ _ _ => by rw [hfd], fun _ _ _ => by rw [hm], fun q w hq => (if_neg fun h => hq h.1).trans (by rw [hw])⟩

theorem unblock (s : Vfsd) (n : ℕ) : Untouched p s (s.unblock p n) := by
  unfold Vfsd.unblock
  dsimp only
  split
  · exact refl p s
  · exact ⟨fun _ _ _ _ => rfl, fun _ _ _ => Iff.rfl, fun q w hq => if_neg fun h => hq h.1⟩

end Untouched

/-- A request that tears nothing, or finds nobody else at it, changes nothing of the others. -/
theorem untouched {o : Op} {p : ℕ} (ho : o.sender = some p) (hl : o.lifecycle = false)
    (hroot : ∀ c, (s.task p).cred = some c → 0 < c.uid) (htear : Tears s o → Alone p s) (ht : s.step o = some t) :
    Untouched p s t := by
  by_cases htears : Tears s o
  · exact (confines ho hl hroot ht).untouched (htear htears)
  cases o with
  | kernel => cases ho
  | applyKids => cases ho
  | setLoaded => cases ho
  | reap => cases ho
  | newNode pid i dir nodeOnly writeOver createOpen =>
    cases ht
    exact .makes (makes_doNewNode s pid i dir nodeOnly writeOver createOpen)
  | newNodes pid dir infos =>
    cases ht
    exact .makes (makes_doNewNodes s pid dir infos)
  | delNode pid n =>
    cases ht
    unfold Vfsd.doDelNode
    split
    · exact .refl p s
    · rename_i x hx
      rw [if_neg fun hmay => htears ⟨x, hx, hmay⟩]
      exact .refl p s
  | mount pid org n =>
    cases ho
    cases ht
    exact .doMount s org n
  | umount pid n =>
    cases ht
    unfold Vfsd.umount
    split
    · exact .refl p s
    · rw [if_neg fun hmay => htears hmay.2]
      exact .refl p s
  | setFsinfo pid n i kind =>
    cases ht
    exact .makes (makes_doSetFsinfo s pid n i kind)
  | setByFd pid k i =>
    cases ho
    cases ht
    exact .setByFd s k i
  | openNode pid n fl =>
    cases ho
    cases ht
    obtain ⟨hmnt, hwait, hother, -⟩ := doOpen_fd s p n fl
    exact .table hother hmnt hwait
  | close pid k =>
    cases ho
    cases ht
    exact .close htears
  | dup pid k =>
    cases ho
    cases ht
    exact .dup s k
  | dup2 pid k j =>
    cases ho
    cases ht
    exact .dup2 htears
  | procClone => cases hl
  | procExit => cases hl
  | block pid n rd wr =>
    cases ho
    cases ht
    exact .block htears
  | unblock pid n =>
    cases ho
    cases ht
    exact .unblock s n

/-! ### Runs -/

/-- A step that is not of `q`: a request of another process that is not root, or one that nobody has sent and that
    clears no table. -/
def Elsewhere (q : ℕ) (s : Vfsd) (o : Op) : Prop :=
  match o.sender with
  | some p => q ≠ p ∧ q ≠ s.ownerPid p ∧ o.lifecycle = false ∧ (∀ c, (s.task p).cred = some c → 0 < c.uid) ∧
      (Tears s o → Alone p s)
  | none => ∀ cpid, o ≠ .reap cpid

/-- What a process has is what it had. -/
structure Rests (q : ℕ) (s t : Vfsd) : Prop where
  fd : ∀ k, t.fd q k = s.fd q k
  mnt : ∀ i m, m.pid = q → (t.mnt i = some m ↔ s.mnt i = some m)
  wait : ∀ w, t.wait q w = s.wait q w

theorem rests_makes {q : ℕ} (h : Makes s t) : Rests q s t :=
  ⟨fun _ => by rw [h.fd], fun _ _ _ => by rw [h.mnt], fun _ => by rw [h.wait]⟩

theorem rests_step {q : ℕ} {o : Op} (he : Elsewhere q s o) (ht : s.step o = some t) : Rests q s t := by
  unfold Elsewhere at he
  split at he
  · rename_i p ho
    obtain ⟨hqp, hqo, hl, hroot, htear⟩ := he
    have hu := untouched ho hl hroot htear ht
    exact ⟨fun k => hu.fd q k hqp hqo, fun i m hm => hu.mnt i m (hm ▸ hqp), fun w => hu.wait q w hqp⟩
  · rename_i ho
    cases o with
    | kernel pid x =>
      cases ht
      exact ⟨fun _ => rfl, fun _ _ _ => Iff.rfl, fun _ => rfl⟩
    | applyKids father mountPid infos =>
      cases ht
      exact rests_makes (makes_applyKids s father mountPid infos)
    | setLoaded father =>
      simp only [Vfsd.step, Option.ite_none_right_eq_some, Option.some.injEq] at ht
      obtain ⟨-, rfl⟩ := ht
      exact ⟨fun _ => rfl, fun _ _ _ => Iff.rfl, fun _ => rfl⟩
    | reap cpid => exact absurd rfl (he cpid)
    | _ => cases ho

theorem rests {q : ℕ} {s₀ s : Vfsd} (h : Reach Vfsd.step (Elsewhere q) s₀ s) : Rests q s₀ s := by
  induction h with
  | start => exact ⟨fun _ => rfl, fun _ _ _ => Iff.rfl, fun _ => rfl⟩
  | next _ he ht ih =>
    have hs := rests_step he ht
    exact ⟨fun k => (hs.fd k).trans (ih.fd k), fun i m hm => (hs.mnt i m hm).trans (ih.mnt i m hm),
      fun w => (hs.wait w).trans (ih.wait w)⟩

end

/-- A process comes to a descriptor only by having one of the same node, by an open that is granted or by a fork. What a
    process that is not root asks for, but for `VFS_PROC_CLONE` and `VFS_PROC_EXIT`, does not reach the tables of the
    others, and of their mounts and waits only umounts that are pending and waits for nodes that go; it reaches nothing
    at all where there are none of these. So in a run of such requests of others a process keeps what it has. -/
theorem tables_private (s : Vfsd) (q : ℕ) :
    (∀ t o, s.step o = some t →
      (∀ k f, t.fd q k = some f → Owned s q f ∨ Opened s q f o ∨ Inherited s q f o) ∧
      ∀ p, o.sender = some p → o.lifecycle = false → (∀ c, (s.task p).cred = some c → 0 < c.uid) →
        Private p s t ∧ ((Tears s o → Alone p s) → Untouched p s t)) ∧
    ∀ t, Reach Vfsd.step (Elsewhere q) s t → Rests q s t :=
  ⟨fun _ _ ht => ⟨fun _ _ hf => gains ht hf, fun _ ho hl hroot =>
    ⟨confines ho hl hroot ht, fun htear => untouched ho hl hroot htear ht⟩⟩, fun _ => rests⟩

/-- A file of the user, the directory of the driver, and a file of root. -/
def someFile : Info := ⟨['f'], ⟨false, .file⟩, 1000, 1000, 0o644, 0, 0, false⟩
def openDir : Info := ⟨['d'], ⟨false, .dir⟩, 0, 0, 0o755, 0, 0, false⟩
def rootSecret : Info := ⟨['s'], ⟨false, .file⟩, 0, 0, 0o600, 0, 0, false⟩

/-- The user has its file open; the driver has mounted its directory, has it open and waits for the user's file. -/
def someBusy : List Op := [
  .newNode 5 someFile 0 true false false, .openNode 5 2 ⟨false, false, false, false⟩,
  .newNode 1 openDir 0 true false false, .mount 1 1 3, .openNode 1 3 ⟨false, false, false, false⟩, .block 1 2 true false]

/-- The user closes its file, and the driver keeps its descriptor, its mount and its wait. -/
theorem tables_private_close : ∃ s t, Reach Vfsd.step Free (init 8 someTasks) s ∧ s.step (.close 5 3) = some t ∧
    (s.fd 5 3).isSome = true ∧ (s.fd 1 3).isSome = true ∧ (s.mnt 0).map Mnt.pid = some 1 ∧ (s.wait 1 false).node = 2 ∧
    t.fd 5 3 = none ∧ Untouched 5 s t ∧ Rests 1 s t := by
  have hrun : ((runOps Vfsd.step (init 8 someTasks) someBusy).any fun s => decide
      ((s.fd 5 3).map File.node = some 2 ∧ (s.fd 1 3).isSome = true ∧ (s.mnt 0).map Mnt.pid = some 1 ∧
        (s.wait 1 false).node = 2 ∧ ((s.node 2).map fun x => (x.info.type.anon, x.mountId)) = some (false, none) ∧
        s.task 5 = someTasks 5 ∧ s.ownerPid 5 = 5 ∧ ((s.close 5 3).fd 5 3).isSome = false)) = true := by
    decide +kernel
  obtain ⟨s, hs, he⟩ := (Option.any_eq_true _ _).mp hrun
  obtain ⟨hfd, hfd', hmnt, hwait, hnode, htask, hown, hgone⟩ := of_decide_eq_true he
  have hroot : ∀ c, (s.task 5).cred = some c → 0 < c.uid := by
    intro c hc
    rw [htask] at hc
    cases hc
    decide
  have htear : ¬Tears s (.close 5 3) := by
    rintro ⟨f, x, hf, hx, -, hp⟩
    rw [hown] at hf
    rw [hf, Option.map_some, Option.some.injEq] at hfd
    rw [hfd] at hx
    rw [hx, Option.map_some, Option.some.injEq, Prod.mk.injEq] at hnode
    rcases hp with ha | ⟨hi, -⟩
    · rw [hnode.1] at ha
      cases ha
    · rw [hnode.2] at hi
      cases hi
  have hstep : s.step (.close 5 3) = some (s.close 5 3) := rfl
  have helse : Elsewhere 1 s (.close 5 3) := by
    change 1 ≠ 5 ∧ 1 ≠ s.ownerPid 5 ∧ _
    rw [hown]
    exact ⟨by decide, by decide, rfl, hroot, fun h => absurd h htear⟩
  obtain ⟨hone, hall⟩ := tables_private s 1
  refine ⟨s, s.close 5 3, reach_of_runOps hs, hstep, ?_, hfd', hmnt, hwait, ?_, ?_, ?_⟩
  · rw [← Option.isSome_map, hfd]
    rfl
  · rw [← Option.not_isSome_iff_eq_none, hgone]
    decide
  · exact ((hone _ _ hstep).2 5 rfl rfl hroot).2 fun h => absurd h htear
  · exact hall _ (.next .start helse hstep)

/-- The user has its table overwritten with that of a process of root, and then has the one of that process cleared: it
    has a descriptor of a file that it may not read, and the process of root has none. -/
theorem clone_takes : ∃ s, Reach Vfsd.step Free (init 8 someTasks) s ∧ (∀ c, (s.task 5).cred = some c → 0 < c.uid) ∧
    s.checkAccess 5 rootSecret .read = false ∧ (s.node 2).map Node.info = some rootSecret ∧
    (∃ t, s.step (.procClone 5 1 5) = some t ∧ s.fd 5 3 = none ∧ (t.fd 5 3).map File.node = some 2) ∧
    ∃ t, s.step (.procClone 5 5 1) = some t ∧ (s.fd 1 3).isSome = true ∧ t.fd 1 3 = none := by
  have hrun : ((runOps Vfsd.step (init 8 someTasks) [
      .newNode 1 rootSecret 0 true false false, .openNode 1 2 ⟨false, false, false, false⟩, .block 1 2 true false]).any
      fun s => decide (s.task 5 = someTasks 5 ∧ s.checkAccess 5 rootSecret .read = false ∧
        (s.node 2).map Node.info = some rootSecret ∧ (s.fd 5 3).isSome = false ∧
        ((s.procClone 1 5).fd 5 3).map File.node = some 2 ∧ (s.fd 1 3).isSome = true ∧
        ((s.procClone 5 1).fd 1 3).isSome = false)) = true := by
    decide +kernel
  obtain ⟨s, hs, he⟩ := (Option.any_eq_true _ _).mp hrun
  obtain ⟨htask, hacc, hnode, hfd, hgot, hhad, hlost⟩ := of_decide_eq_true he
  refine ⟨s, reach_of_runOps hs, fun c hc => ?_, hacc, hnode, ⟨_, rfl, ?_, hgot⟩, _, rfl, hhad, ?_⟩
  · rw [htask] at hc
    cases hc
    decide
  · rw [← Option.not_isSome_iff_eq_none, hfd]
    decide
  · rw [← Option.not_isSome_iff_eq_none, hlost]
    decide

/-- The user deletes a file of its own that the driver waits for: the driver is no longer waiting. -/
theorem waiter_let_go : ∃ s t, Reach Vfsd.step Free (init 8 someTasks) s ∧
    s.step (.delNode 5 2) = some t ∧ (∀ c, (s.task 5).cred = some c → 0 < c.uid) ∧
    s.getUuid 1 ≠ 0 ∧ t.wait 1 false ≠ s.wait 1 false := by
  have hrun : ((runOps Vfsd.step (init 8 someTasks) [
      .newNode 5 someFile 0 true false false,
      .block 1 2 true false]).map fun s => ((s.doDelNode 5 2).wait 1 false, s.wait 1 false, s.task 5, s.getUuid 1)) =
      some (⟨11, 0⟩, ⟨11, 2⟩, someTasks 5, 11) := by
    decide +kernel
  obtain ⟨s, hs, he⟩ := Option.map_eq_some_iff.mp hrun
  simp only [Prod.mk.injEq] at he
  obtain ⟨hdel, hwait, htask, huuid⟩ := he
  refine ⟨s, s.doDelNode 5 2, reach_of_runOps hs, rfl, fun c hc => ?_, ?_, ?_⟩
  · rw [htask] at hc
    cases hc
    decide
  · rw [huuid]
    decide
  · rw [hdel, hwait]
    decide

end EwokOS.Vfs
