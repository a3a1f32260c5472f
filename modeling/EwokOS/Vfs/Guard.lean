import EwokOS.Vfs.MountRun
import EwokOS.Vfs.Spare

/-! What a process without rights can do to a node.

    A user opens a file read-only and truncates it; nothing asks for the right to write. And some
    requests reach a node without asking for its owner: an overwrite brings its own owner and mode, a
    data update its own name and type, a mount renames what is mounted. What is left is that a process
    that does none of this to a node, and takes no root on its line out of the tree, leaves it as it is. -/

namespace EwokOS.Vfs

open Schemes Vfsd

section
variable {K : ℕ → List ℕ} {s t : Vfsd} {p n : ℕ} {c : Cred}

/-! ### Fuel -/

/-- A chain is not longer than there are nodes. -/
theorem Forest.within (h : Forest K s) {x : Node} (hx : s.node n = some x) : Within (up s) s.count n := by
  obtain ⟨l, hnd, hl, hw⟩ := (h.ends n).within
  obtain ⟨l', -, hmem, hlen⟩ := h.count
  refine hw.mono (hlen ▸ (List.subperm_of_subset hnd fun b hb => ?_).length_le)
  obtain ⟨y, hy⟩ := h.line hx (hl b hb)
  exact (hmem b).mpr (by rw [hy]; rfl)

theorem topFrom_eq {k a b : ℕ} (hw : Within (up s) k a) (hu : Under (up s) a b) (hb : up s b = none) :
    s.topFrom k a = b := by
  induction k generalizing a with
  | zero => exact hw.elim
  | succ k ih =>
    unfold topFrom
    split
    · rename_i hx
      rcases hu.cases_up with he | ⟨d, hd, -⟩
      · exact he
      · simp [up, hx] at hd
    rename_i x hx
    split
    · rename_i hf
      rcases hu.cases_up with he | ⟨d, hd, -⟩
      · exact he
      · simp [up, hx, hf] at hd
    · rename_i hf
      have hup := up_eq hx hf
      rcases hu.cases_up with rfl | ⟨d, hd, hdb⟩
      · rw [hup] at hb
        cases hb
      · rw [hup] at hd
        cases hd
        exact ih (hw _ hup) hdb

/-- Enough steps are enough. -/
theorem climb_enough (hnull : s.node 0 = none) {k k' : ℕ} (hw : Within (up s) k n) (hw' : Within (up s) k' n) :
    s.climb k n = s.climb k' n := by
  have hzero : ∀ k, s.climb k 0 = none := by
    intro k
    cases k with
    | zero => rfl
    | succ k => rw [climb, hnull]
  induction k generalizing n k' with
  | zero => exact hw.elim
  | succ k ih =>
    obtain ⟨k', rfl⟩ : ∃ j, k' = j + 1 := by
      cases k' with
      | zero => exact hw'.elim
      | succ j => exact ⟨j, rfl⟩
    unfold climb
    split
    · rfl
    rename_i x hx
    split
    · rfl
    rcases eq_or_ne x.father 0 with hf | hf
    · rw [hf, hzero, hzero]
    · have hup := up_eq hx hf
      exact ih (hw _ hup) (hw' _ hup)

/-- The walk up to the first mounted root is the same. -/
theorem Spares.climb (h : Spares n s t) (hK : Forest K s) (hnull : t.node 0 = none) {k a : ℕ} {x : Node}
    (hu : Under (Vfs.up s) n a) (hx : s.node a = some x) : t.climb k a = s.climb k a := by
  induction k generalizing a x with
  | zero => rfl
  | succ k ih =>
    obtain ⟨y, hy, hf, -, hm, -⟩ := h.node a x hu hx
    unfold Vfsd.climb
    rw [hx, hy]
    dsimp only
    rw [hm]
    split
    · rfl
    rw [hf]
    rcases eq_or_ne x.father 0 with hf0 | hf0
    · rw [hf0]
      cases k with
      | zero => rfl
      | succ k => rw [Vfsd.climb, Vfsd.climb, hK.null, hnull]
    · obtain ⟨z, hz⟩ := hK.father a x hx hf0
      exact ih (hu.trans (.go (up_eq hx hf0) (.self _))) hz

/-- Nobody comes to serve a node that is spared. -/
theorem Spares.served {K' : ℕ → List ℕ} (h : Spares n s t) (hK : Forest K s) (hK' : Forest K' t) {x : Node}
    (hx : s.node n = some x) (hp : p ≠ 0) (ht : t.getMountPid n = some p) : s.getMountPid n = some p := by
  obtain ⟨y, hy, -⟩ := h.node n x (.self n) hx
  have hwt : Within (Vfs.up s) (t.count + 1) n :=
    ((hK'.within hy).congr fun _ ha => h.up hK hx ha).mono (Nat.le_succ _)
  have hc : t.climb (t.count + 1) n = s.climb (s.count + 1) n :=
    (h.climb hK hK'.null (.self n) hx).trans (climb_enough hK.null hwt ((hK.within hx).mono (Nat.le_succ _)))
  unfold getMountPid at ht ⊢
  rw [hc] at ht
  split at ht
  · cases ht
  rename_i i hi
  obtain ⟨a, z, hu, hz, hzi⟩ := climb_under hK.null hi
  split at ht
  swap
  · cases ht
  rename_i hi'
  rw [if_pos hi', ← ht]
  rcases h.mnt a z i hu hz hzi with he | he
  · have hpid : ∀ o : Option Mnt, o.elim 0 Mnt.pid = (o.map Mnt.pid).getD 0 := by
      intro o
      cases o <;> rfl
    rw [hpid, hpid, he]
  · rw [he] at ht
    exact absurd (Option.some.inj ht).symm hp

/-! ### A node and a process without rights -/

/-- The process owns nothing on the line of `n`, may write to nothing there and does not serve `n`. -/
structure Shielded (s : Vfsd) (p n : ℕ) : Prop where
  live : ∃ x, s.node n = some x
  owner : ∀ a x, Under (up s) n a → s.node a = some x → s.checkOwner p x.info = false
  write : ∀ a x, Under (up s) n a → s.node a = some x → s.checkAccess p x.info .write = false
  served : s.getMountPid n ≠ some p

/-- From `s` to `t` the node `n` is there and told the same of, and what resolved to it still does. -/
structure Unharmed (n : ℕ) (s t : Vfsd) : Prop where
  info : ∃ x y, s.node n = some x ∧ t.node n = some y ∧ face y.info = face x.info
  path : ∀ name, Plain (name.splitOn '/') → s.resolvePath ('/' :: name) = some n →
    t.resolvePath ('/' :: name) = some n

/-- The name that `m` gets is not that of a brother on the line of `n`, or it is its own. -/
def Unlike (n : ℕ) (s : Vfsd) (m : ℕ) (i : Info) : Prop :=
  ∀ x, s.node m = some x → i.terminate.name = x.info.name ∨
    ∀ a w, Under (up s) n a → s.node a = some w → w.father = x.father → w.info.name ≠ i.terminate.name

/-- What `p` is asked for, besides what keeps the tree one. It does not delete above `n` as the server of a
    mount around that of `n`, does not close or unmount anything on the line, nor mount it somewhere else,
    takes no slot the line still names, and does not rename a node to the name of a brother on the line. It
    opens `n` to truncate it only as a writer, and not by the pass of its creator. -/
def shield (c : Cred) (p n : ℕ) : Rules where
  make := Fresh
  del s m := Clear s m ∧ (Under (up s) n m → m ≠ n → s.getMountPid m ≠ some p)
  shut s m := Clear s m ∧ ¬Under (up s) n m
  lift s r := UmountOk s r ∧ ¬Under (up s) n r ∧ ∀ x i m o, s.node r = some x → x.mountId = some i →
    s.mnt i = some m → s.node m.org = some o → x.father ≠ 0 → o.mountId = none → ¬Under (up s) n m.org
  cover s org r := treeRules.cover s org r ∧ ¬Under (up s) n r ∧
    ∀ a x i, Under (up s) n a → s.node a = some x → x.mountId = some i → (s.mnt i).isSome = true
  attrs := Unlike n
  data := Unlike n
  trunc s m fl := m = n → fl.write = true ∧ ∀ x, s.node n = some x → s.createPending p x = false
  sender q := q = p
  kernel q t := q = p → t.cred = some c

theorem checkOwner_congr (hc : (t.task p).cred = (s.task p).cred) {i j : Info} (hb : badge i = badge j) :
    t.checkOwner p i = s.checkOwner p j := by
  simp only [badge, Prod.mk.injEq] at hb
  simp only [checkOwner, hc, hb]

theorem checkAccess_congr (hc : (t.task p).cred = (s.task p).cred) {i j : Info} (hb : badge i = badge j)
    (a : Access) : t.checkAccess p i a = s.checkAccess p j a := by
  simp only [badge, Prod.mk.injEq] at hb
  simp only [checkAccess, hc, hb]

/-- A request that spares `n` leaves `p` without rights. -/
theorem Shielded.spares {K' : ℕ → List ℕ} (h : Shielded s p n) (hs : Spares n s t) (hK : Forest K s)
    (hK' : Forest K' t) (hc : (t.task p).cred = (s.task p).cred) (hp : p ≠ 0) : Shielded t p n := by
  obtain ⟨x, hx⟩ := h.live
  obtain ⟨y, hy, -⟩ := hs.node n x (.self n) hx
  have hline : ∀ a z, Under (up t) n a → t.node a = some z → ∃ w, Under (up s) n a ∧ s.node a = some w ∧
      badge z.info = badge w.info := by
    intro a z hu hz
    have hu := (hs.under hK hx).mp hu
    obtain ⟨w, hw⟩ := hK.line hx hu
    obtain ⟨z', hz', -, -, -, hb⟩ := hs.node a w hu hw
    rw [hz] at hz'
    cases hz'
    exact ⟨w, hu, hw, hb⟩
  refine ⟨⟨y, hy⟩, fun a z hu hz => ?_, fun a z hu hz => ?_, fun ht => h.served (hs.served hK hK' hx hp ht)⟩
  · obtain ⟨w, hu, hw, hb⟩ := hline a z hu hz
    rw [checkOwner_congr hc hb]
    exact h.owner a w hu hw
  · obtain ⟨w, hu, hw, hb⟩ := hline a z hu hz
    rw [checkAccess_congr hc hb]
    exact h.write a w hu hw

theorem Spares.unharmed {K' : ℕ → List ℕ} (h : Spares n s t) (hK : Forest K s) (hK' : Forest K' t) {x : Node}
    (hx : s.node n = some x) : Unharmed n s t := by
  obtain ⟨y, hy, -⟩ := h.node n x (.self n) hx
  refine ⟨⟨x, y, hx, hy, h.self x y hx hy⟩, fun name hplain hr => ?_⟩
  rw [resolvePath_root] at hr ⊢
  split at hr
  · cases hr
  rename_i hlen
  rw [if_neg hlen]
  -- the walk starts at the end of the chain of the root, which is on the line
  obtain ⟨w, hw⟩ := hK.root
  obtain ⟨w', hw'⟩ := hK'.root
  obtain ⟨a, hra, hnone⟩ := (hK.ends s.root).last
  have htop := topFrom_eq ((hK.within hw).mono (Nat.le_succ _)) hra hnone
  rw [htop] at hr
  have hna := hK.under_of_walk hplain hr
  have htop' := topFrom_eq ((hK'.within hw').mono (Nat.le_succ _)) (h.top a hna hra hnone)
    ((h.up hK hx hna).trans hnone)
  rw [htop']
  refine hK.walk_kept hplain (fun b z hb hz => ?_) h.find hr
  obtain ⟨y, hy, -⟩ := h.node b z hb hz
  exact ⟨y, hy⟩

theorem Unharmed.refl {x : Node} (hx : s.node n = some x) : Unharmed n s s :=
  ⟨⟨x, x, hx, hx, rfl⟩, fun _ _ h => h⟩

theorem Unharmed.trans {u : Vfsd} (h : Unharmed n s t) (h' : Unharmed n t u) : Unharmed n s u := by
  obtain ⟨⟨x, y, hx, hy, hf⟩, hpath⟩ := h
  obtain ⟨⟨y', z, hy', hz, hf'⟩, hpath'⟩ := h'
  rw [hy] at hy'
  cases hy'
  exact ⟨⟨x, z, hx, hz, hf'.trans hf⟩, fun name hp hr => hpath' name hp (hpath name hp hr)⟩

/-- What holds of `n` and `p` in every state reached from `s₀`. -/
structure Safe (c : Cred) (p n : ℕ) (s₀ s : Vfsd) : Prop where
  grown : Grown s
  cred : (s.task p).cred = some c
  shielded : Shielded s p n
  unharmed : Unharmed n s₀ s

theorem Safe.spares {s₀ : Vfsd} (h : Safe c p n s₀ s) (hp : p ≠ 0) (hg : Grown t)
    (hc : (t.task p).cred = (s.task p).cred) (hs : ∀ K, Forest K s → Docked s → Spares n s t) : Safe c p n s₀ t := by
  obtain ⟨⟨K, hK, hd⟩, hcred, hsh, hun⟩ := h
  obtain ⟨K', hK', hd'⟩ := hg
  obtain ⟨x, hx⟩ := hsh.live
  have hs := hs K hK hd
  exact ⟨⟨K', hK', hd'⟩, hc.trans hcred, hsh.spares hs hK hK' hc hp, hun.trans (hs.unharmed hK hK' hx)⟩

/-! ### What the checks refuse -/

section
variable {s₀ : Vfsd} {m : ℕ} {x : Node} (h : Safe c p n s₀ s) (huid : 1 < c.uid) (hx : s.node m = some x)
include h huid hx

theorem Safe.not_update {i : Info} (hmay : s.mayUpdate p x.info i = true) : ¬Under (up s) n m := by
  intro hu
  unfold mayUpdate at hmay
  split at hmay
  · simp only [isSys, h.cred, decide_eq_true_eq] at hmay
    omega
  · rw [h.shielded.owner m x hu hx] at hmay
    cases hmay

omit huid in
theorem Safe.not_write (hmay : (s.checkOwner p x.info || s.checkAccess p x.info .write) = true) :
    ¬Under (up s) n m := by
  intro hu
  rw [h.shielded.owner m x hu hx, h.shielded.write m x hu hx] at hmay
  cases hmay

omit huid in
theorem Safe.not_delete (hmay : s.mayDelete p m x = true)
    (hserve : Under (up s) n m → m ≠ n → s.getMountPid m ≠ some p) : ¬Under (up s) n m := by
  intro hu
  have hserves : s.getMountPid m ≠ some p := by
    rcases eq_or_ne m n with rfl | hmn
    · exact h.shielded.served
    · exact hserve hu hmn
  unfold mayDelete at hmay
  simp only [hserves, decide_false, h.shielded.owner m x hu hx, Bool.or_false, Bool.false_or, Bool.and_eq_true,
    Option.any_eq_true] at hmay
  obtain ⟨-, f, hf, hw⟩ := hmay
  obtain ⟨K, hK, -⟩ := h.grown
  have hf0 : x.father ≠ 0 := by
    intro hf0
    rw [hf0, hK.null] at hf
    cases hf
  rw [h.shielded.write x.father f (hu.trans (.go (up_eq hx hf0) (.self _))) hf] at hw
  cases hw

end

/-! ### Every request -/

/-- Shut, lifted and covered as the tree needs it. -/
theorem shield_slot {pid i : ℕ} (h : (shield c p n).SlotOk pid s i) : treeRules.SlotOk pid s i :=
  fun m x hm hpid hx hi hr hw => (h m x hm hpid hx hi hr hw).1

theorem shield_close {q k : ℕ} (h : (shield c p n).CloseOk q s k) : treeRules.CloseOk q s k := by
  intro f x hf hx hr
  obtain ⟨h₁, h₂⟩ := h f x hf hx hr
  exact ⟨fun ha => (h₁ ha).1, fun ha hm hp => (h₂ ha hm hp).1⟩

theorem umountNow_task (s : Vfsd) (r : ℕ) : (s.umountNow r).task = s.task := by
  unfold Vfsd.umountNow
  split
  · rfl
  split
  · rfl
  dsimp only
  split
  · rfl
  · exact (Sheds.uncover s r _).task

theorem mount_task {pid org r : ℕ} (h : s.mount pid org r = some t) : t.task = s.task := by
  obtain ⟨o, x, i, -, -, -, -, -, -, -, -, rfl⟩ := mount_cases h
  dsimp only
  split
  · rfl
  · exact (Sheds.addNode _ _ _).task.trans (Sheds.remove _ _).task

theorem detach_task (s : Vfsd) (r : ℕ) (x : Node) : (s.detach r x).task = s.task := by
  unfold Vfsd.detach
  split
  · rfl
  · exact umountNow_task s r

theorem umountSlot_task (s : Vfsd) (pid i : ℕ) : (umountSlot pid s i).task = s.task := by
  rcases umountSlot_cases (s := s) pid i with he | ⟨m, -, -, ⟨x, -, -, he⟩ | ⟨-, he⟩⟩
  · rw [he]
  · rw [he]
    exact detach_task (marked s i m) m.root x
  · rw [he]

theorem closeFd_task (s : Vfsd) (q k : ℕ) : (closeFd q s k).task = s.task := by
  rcases closeFd_cases (s := s) q k with he | ⟨f, -, hcase⟩
  · rw [he]
  rcases hcase with ⟨-, he⟩ | ⟨x, y, -, -, -, -, ⟨-, -, he⟩ | ⟨-, -, -, -, he⟩ | ⟨-, he⟩⟩
  · rw [he]
    rfl
  · rw [he]
    exact (Sheds.delNode (dropped s q k f) f.node).task
  · rw [he]
    exact umountNow_task (dropped s q k f) f.node
  · rw [he]
    rfl

/-- An umount of a root that is not on the line, now or later. -/
theorem Spares.detach {r : ℕ} {x : Node} (hK : Forest K s) (hd : Docked s)
    (hok : x.refs = 0 → x.refsW = 0 → (shield c p n).lift s r) : Spares n s (s.detach r x) := by
  unfold Vfsd.detach
  split
  · exact .retouch hK (fun _ => rfl) (fun _ => rfl) fun _ _ => rfl
  · obtain ⟨hu, hr, horg⟩ := hok (by omega) (by omega)
    exact .umountNow hK hd hu hr horg

theorem Spares.marked {i : ℕ} {m : Mnt} (hm : s.mnt i = some m) : Spares n s (marked s i m) := by
  refine .slots fun a x j _ _ _ => .inl ?_
  rcases eq_or_ne j i with rfl | hj
  · rw [Function.update_self, hm]
    rfl
  · rw [Function.update_of_ne hj]

theorem Spares.umountSlot {pid i : ℕ} {x : Node} (hK : Forest K s) (hd : Docked s) (hx : s.node n = some x)
    (hok : (shield c p n).SlotOk pid s i) : Spares n s (umountSlot pid s i) := by
  rcases umountSlot_cases (s := s) pid i with he | ⟨m, hm, hpid, ⟨y, hy, hi, he⟩ | ⟨-, he⟩⟩
  · rw [he]
    exact .of_calm hK (.refl s)
  · rw [he]
    obtain ⟨K', hK', hd'⟩ := Grown.marked ⟨K, hK, hd⟩ hm
    refine (Spares.marked hm).trans (.detach (c := c) (p := p) hK' hd' fun hr hw => ?_) hK hx
    obtain ⟨hu, hnr, horg⟩ := hok m y hm hpid hy hi hr hw
    refine ⟨hu.marked hm hy hi, hnr, fun z j m' o hz hj hm' ho hf hoi => ?_⟩
    change s.node m.root = some z at hz
    rw [hy] at hz
    cases hz
    rw [hi] at hj
    cases hj
    change Function.update s.mnt i _ i = some m' at hm'
    rw [Function.update_self] at hm'
    cases hm'
    exact horg y i m o hy hi hm ho hf hoi
  · rw [he]
    refine .slots fun a z j _ _ _ => ?_
    rcases eq_or_ne j i with rfl | hj
    · exact .inr (Function.update_self ..)
    · exact .inl (by rw [Function.update_of_ne hj])

theorem Spares.closeFd {q k : ℕ} {x : Node} (hK : Forest K s) (hd : Docked s) (hx : s.node n = some x)
    (hok : (shield c p n).CloseOk q s k) : Spares n s (closeFd q s k) := by
  rcases closeFd_cases (s := s) q k with he | ⟨f, hf, hcase⟩
  · rw [he]
    exact .of_calm hK (.refl s)
  have hsame := same_dropped (s := s) q k f
  have hdrop : Spares n s (dropped s q k f) := by
    refine .of_info hK hsame fun m y z hy hz => ?_
    rcases modify_cases _ _ _ hz with ⟨-, hz⟩ | ⟨rfl, w, hw, rfl⟩
    · exact congrArg Node.info (Option.some.inj (hz.symm.trans hy))
    · show w.info = y.info
      exact congrArg Node.info (Option.some.inj (hw.symm.trans hy))
  have hK' := hsame.forest hK
  rcases hcase with ⟨-, he⟩ | ⟨y, z, hy, hz, -, -, ⟨ha, hr, he⟩ | ⟨ha, hmi, hp, hr, he⟩ | ⟨-, he⟩⟩
  · rw [he]
    exact hdrop
  · rw [he]
    obtain ⟨hc, hnot⟩ := (hok f y hf hy hr).1 ha
    exact hdrop.trans (.delNode hK' hz (hsame.clear hc) (by rw [hsame.up]; exact hnot)) hK hx
  · rw [he]
    obtain ⟨hu, hnot, horg⟩ := (hok f y hf hy hr).2 ha hmi hp
    refine hdrop.trans (.umountNow hK' (hsame.docked hd) (hsame.umountOk hu) (by rw [hsame.up]; exact hnot) ?_) hK hx
    intro w i m o hw hi hm ho hf hoi
    obtain ⟨w', hw', hew⟩ := hsame.back hw
    obtain ⟨o', ho', heo⟩ := hsame.back ho
    obtain ⟨hwf, -, hwi⟩ := Same.key_eq hew
    rw [hsame.mnt] at hm
    rw [hsame.up]
    exact horg w' i m o' hw' (hwi.trans hi) hm ho' (hwf ▸ hf) ((Same.key_eq heo).2.2.trans hoi)
  · rw [he]
    exact hdrop

theorem keeps_safe {s₀ : Vfsd} (huid : 1 < c.uid) (hp : p ≠ 0) : Keeps (shield c p n) (Safe c p n s₀) where
  calm s t h hc := h.spares hp (keeps_grown.calm s t h.grown hc) (by rw [hc.task]) fun K hK _ => .of_calm hK hc
  again _ _ h hc := h.calm hc
  kernel s q x h hq := by
    have hcred : (Function.update s.task q x p).cred = (s.task p).cred := by
      rcases eq_or_ne p q with rfl | hpq
      · rw [Function.update_self, hq rfl, h.cred]
      · rw [Function.update_of_ne hpq]
    refine h.spares hp (keeps_grown.kernel s q x h.grown trivial) hcred fun K hK _ => ?_
    exact .of_info hK ⟨fun _ => rfl, rfl, rfl, rfl⟩ fun m y z hy hz =>
      congrArg Node.info (Option.some.inj (hz.symm.trans hy))
  loaded s m h := by
    refine h.spares hp (keeps_grown.loaded s m h.grown) rfl fun K hK _ => ?_
    refine .retouch hK (fun x => ?_) (fun x => ?_) fun _ x => ?_
    all_goals
      dsimp only
      split <;> rfl
  create s dir x h hf hx hdir := by
    obtain ⟨hg, hlive⟩ := keeps_grown.create s dir x h.grown hf hx hdir
    refine ⟨h.spares hp hg (by rw [(Makes.create s dir x).task]) fun K hK _ => ?_, hlive⟩
    exact .create hK hf (congrArg Prod.fst hx) hdir
  copy s m x c u h hf hx hu :=
    h.spares hp (keeps_grown.copy s m x c u h.grown hf hx hu) (by rw [(Makes.newNode hu).task]) fun K hK _ =>
      .newNode hK hf hu rfl
  data s pid m x i h hpid hx hmay hname := by
    cases hpid
    refine h.spares hp (h.grown.edit fun _ => rfl) rfl fun K hK _ => ?_
    exact .describe hK (fun _ => rfl) (h.not_write hx hmay) hname
  attrs s u pid m x i h hc hpid hx hmay hname := by
    cases hpid
    have hnot := h.not_update huid hx hmay
    refine h.spares hp ((hc.grown h.grown).edit fun _ => rfl) (by rw [← hc.task]; rfl) fun K hK _ => ?_
    obtain ⟨z, hz⟩ := h.shielded.live
    refine (Spares.of_calm hK hc).trans (.describe (hc.forest hK) (fun _ => rfl) (by rw [hc.up]; exact hnot) ?_) hK hz
    -- what is told has not changed in between
    intro y hy
    obtain ⟨y', hy', hey⟩ := hc.back hy
    rw [(hc.held m y' y hy' hy).1, ← (Same.key_eq hey).1]
    refine (hname y' hy').imp id fun hno a w ha hw hwf => ?_
    obtain ⟨w', hw', hew⟩ := hc.back hw
    rw [(hc.held a w' w hw' hw).1]
    rw [hc.up] at ha
    exact hno a w' ha hw' ((Same.key_eq hew).1.trans hwf)
  trunc s u pid m x fl h hc hpid hx hgr hrule := by
    cases hpid
    have hmn : m ≠ n := by
      rintro rfl
      obtain ⟨hw, hpass⟩ := hrule rfl
      have hpass := hpass x hx
      have hdeny := h.shielded.write m x (.self m) hx
      simp [granted, hpass, hw, hdeny] at hgr
    refine h.spares hp ((hc.grown h.grown).edit fun _ => rfl) (by rw [← hc.task]; rfl) fun K hK _ => ?_
    obtain ⟨z, hz⟩ := h.shielded.live
    exact (Spares.of_calm hK hc).trans (.retouch (hc.forest hK) (fun _ => rfl) (fun _ => rfl) fun he => absurd he hmn) hK hz
  delNode s pid m x h hpid hx hmay hdel := by
    cases hpid
    refine h.spares hp (h.grown.delNode hdel.1) (by rw [(Sheds.delNode s m).task]) fun K hK _ => ?_
    exact .delNode hK hx hdel.1 (h.not_delete hx hmay hdel.2)
  mount s t pid org r o h hpid ho hacc hcov hm := by
    cases hpid
    obtain ⟨htree, hr, hused⟩ := hcov
    obtain ⟨hl, hund⟩ := htree o ho
    refine h.spares hp (h.grown.mount ho hl hund hm) (by rw [mount_task hm]) fun K hK _ => ?_
    exact .mount hK ho hl hund hm (h.not_write ho hacc) hr hused
  umount s pid r x h hpid hx hmi hmay hok :=
    h.spares hp (h.grown.detach fun hr hw => (hok hr hw).1) (by rw [detach_task]) fun K hK hd =>
      .detach (c := c) (p := p) hK hd hok
  umountSlot s pid i h hok := by
    refine h.spares hp (h.grown.umountSlot (shield_slot hok)) (by rw [umountSlot_task]) fun K hK hd => ?_
    obtain ⟨x, hx⟩ := h.shielded.live
    exact .umountSlot hK hd hx hok
  closeFd s q k h hok := by
    refine h.spares hp (h.grown.closeFd (shield_close hok)) (by rw [closeFd_task]) fun K hK hd => ?_
    obtain ⟨x, hx⟩ := h.shielded.live
    exact .closeFd hK hd hx hok

/-! ### A node and a process that does not own it -/

/-- What only the owner of a node may change. -/
def title (i : Info) : List Char × FsType × ℕ × ℕ × ℕ := (i.name, i.type, i.uid, i.gid, i.mode)

/-- What `p` is asked for. Its data updates and overwrites give `n` no other title, it does not mount
    `n`, and no other node gets the number of `n`. -/
def heed (c : Cred) (p n : ℕ) : Rules where
  make s := s.allocId ≠ n
  del _ _ := True
  lift _ _ := True
  cover _ _ r := r ≠ n
  data s m i := m = n → ∀ x, s.node n = some x → title i.terminate = title x.info
  sender q := q = p
  kernel q t := q = p → t.cred = some c

/-- What holds of `n` and `p` while `n` is there. -/
structure Kept (c : Cred) (p n : ℕ) (i : Info) (s : Vfsd) : Prop where
  cred : (s.task p).cred = some c
  title : ∀ x, s.node n = some x → title x.info = title i

theorem Kept.back {i : Info} (h : Kept c p n i s) (hc : (t.task p).cred = (s.task p).cred)
    (hb : ∀ y, t.node n = some y → ∃ x, s.node n = some x ∧ Vfs.title y.info = Vfs.title x.info) : Kept c p n i t := by
  refine ⟨hc.trans h.cred, fun y hy => ?_⟩
  obtain ⟨x, hx, he⟩ := hb y hy
  exact he.trans (h.title x hx)

theorem Kept.calm {i : Info} (h : Kept c p n i s) (hc : Calm s t) : Kept c p n i t := by
  refine h.back (by rw [hc.task]) fun y hy => ?_
  obtain ⟨x, hx, -⟩ := hc.back hy
  exact ⟨x, hx, by rw [(hc.held n x y hx hy).1]⟩

theorem Kept.modify {i : Info} {m : ℕ} {f : Node → Node} (h : Kept c p n i s)
    (hf : ∀ x, s.node n = some x → m = n → Vfs.title (f x).info = Vfs.title x.info) : Kept c p n i (s.modify m f) := by
  refine h.back rfl fun y hy => ?_
  rcases modify_cases _ _ _ hy with ⟨-, hy⟩ | ⟨rfl, x, hx, rfl⟩
  · exact ⟨y, hy, rfl⟩
  · exact ⟨x, hx, hf x hx rfl⟩

theorem Kept.sheds {i : Info} (h : Kept c p n i s) (hs : Sheds s t) : Kept c p n i t := by
  refine h.back (by rw [hs.task]) fun y hy => ?_
  obtain ⟨x, hx, -, he⟩ := hs.back n y hy
  exact ⟨x, hx, by rw [he]⟩

theorem Kept.umountNow {i : Info} (h : Kept c p n i s) (r : ℕ) : Kept c p n i (s.umountNow r) := by
  refine h.back (by rw [umountNow_task]) fun y hy => ?_
  obtain ⟨x, hx, he⟩ := Spares.umountNow_info hy
  exact ⟨x, hx, by rw [he]⟩

theorem Kept.detach {i : Info} (h : Kept c p n i s) (r : ℕ) (x : Node) : Kept c p n i (s.detach r x) := by
  unfold Vfsd.detach
  split
  · exact h.modify fun _ _ _ => rfl
  · exact h.umountNow r

theorem keeps_kept {i : Info} (huid : 1 < c.uid) (hown : c.uid ≠ i.uid) : Keeps (heed c p n) (Kept c p n i) where
  calm _ _ h hc := h.calm hc
  again s t h hc := by
    have hid : t.allocId = s.allocId := by
      unfold allocId
      rw [hc.next]
    show t.allocId ≠ n
    rw [hid]
    exact h
  kernel s q x h hq := by
    refine h.back ?_ fun y hy => ⟨y, hy, rfl⟩
    rcases eq_or_ne p q with rfl | hpq
    · rw [h.cred, ← hq rfl]
      exact congrArg Task.cred (Function.update_self ..)
    · exact congrArg Task.cred (Function.update_of_ne hpq ..)
  loaded s m h := h.modify fun x _ _ => by
    dsimp only
    split <;> rfl
  create s dir x h hid _ hdir := by
    refine ⟨h.back (by rw [(Makes.create s dir x).task]) fun y hy => ?_, fun _ _ hj => create_live _ _ hj⟩
    rcases create_back hdir hy with ⟨he, -⟩ | ⟨z, hz, -, -, -, he⟩
    · exact absurd he.symm hid
    · exact ⟨z, hz, by rw [he]⟩
  copy s m x c u h hid _ hu := by
    refine h.back (by rw [(Makes.newNode hu).task]) fun y hy => ?_
    rcases newNode_cases hu hy with ⟨he, -⟩ | ⟨-, hy⟩
    · exact absurd he.symm hid
    · exact ⟨y, hy, rfl⟩
  data s pid m x j h _ _ _ hdata := h.modify fun x hx hm => hdata hm x hx
  attrs s u pid m x j h hc hpid hx hmay _ := by
    cases hpid
    refine (h.calm hc).modify fun y hy hm => ?_
    -- who does not own the node and is not privileged is refused
    subst hm
    have ht := h.title x hx
    simp only [Vfs.title, Prod.mk.injEq] at ht
    unfold mayUpdate at hmay
    split at hmay
    · simp only [isSys, h.cred, decide_eq_true_eq] at hmay
      omega
    · simp only [checkOwner, h.cred, Bool.or_eq_true, decide_eq_true_eq] at hmay
      rcases hmay with hmay | hmay
      · omega
      · exact absurd (hmay.trans (by rw [ht.2.2.1])) hown
  trunc s u pid m x fl h hc _ _ _ _ := (h.calm hc).modify fun _ _ _ => rfl
  delNode s _ m _ h _ _ _ _ := h.sheds (.delNode s m)
  mount s t pid org r o h _ ho _ hr hm := by
    refine h.back (by rw [mount_task hm]) fun y hy => ?_
    obtain ⟨x, hx, he⟩ := Spares.mount_info hm (Ne.symm hr) hy
    exact ⟨x, hx, by rw [he]⟩
  umount s _ r x h _ _ _ _ _ := h.detach r x
  umountSlot s pid j h _ := by
    rcases umountSlot_cases (s := s) pid j with he | ⟨m, -, -, ⟨x, -, -, he⟩ | ⟨-, he⟩⟩
    · rw [he]
      exact h
    · rw [he]
      have hm : Kept c p n i (marked s j m) := h.back rfl fun y hy => ⟨y, hy, rfl⟩
      exact hm.detach m.root x
    · rw [he]
      exact h.back rfl fun y hy => ⟨y, hy, rfl⟩
  closeFd s q k h _ := by
    rcases closeFd_cases (s := s) q k with he | ⟨f, -, hcase⟩
    · rw [he]
      exact h
    have hset : Kept c p n i (s.setFd q k none) := h.back rfl fun y hy => ⟨y, hy, rfl⟩
    have hdrop : Kept c p n i (dropped s q k f) := hset.modify fun _ _ _ => rfl
    rcases hcase with ⟨-, he⟩ | ⟨x, y, -, -, -, -, ⟨-, -, he⟩ | ⟨-, -, -, -, he⟩ | ⟨-, he⟩⟩
    · rw [he]
      exact hdrop
    · rw [he]
      exact hdrop.sheds (.delNode _ _)
    · rw [he]
      exact hdrop.umountNow _
    · rw [he]
      exact hdrop

end

/-- From any state of an orderly run: whatever a user `p` asks for under the rules, a node it has no rights
    to stays unharmed, and a node it does not own keeps its title. -/
theorem nodes_protected {max : ℕ} {task : ℕ → Task} {s₀ s : Vfsd} {p n : ℕ} {c : Cred}
    (h : Reach Vfsd.step Orderly (init max task) s₀) (hc : (s₀.task p).cred = some c) (huid : 1 < c.uid) :
    (p ≠ 0 → Shielded s₀ p n → Reach Vfsd.step (shield c p n).Follows s₀ s → Unharmed n s₀ s) ∧
    (∀ x y, s₀.node n = some x → s₀.checkOwner p x.info = false → Reach Vfsd.step (heed c p n).Follows s₀ s →
      s.node n = some y → title y.info = title x.info) := by
  refine ⟨fun hp hsh hrun => ?_, fun x y hx hown hrun hy => ?_⟩
  · have hg : Grown s₀ := h.inv (I := Grown) (grown_init max task) fun _ _ _ hs hok ht => keeps_grown.step hs hok ht
    obtain ⟨x, hx⟩ := hsh.live
    have hsafe : Safe c p n s₀ s₀ := ⟨hg, hc, hsh, .refl hx⟩
    exact (hrun.inv (I := Safe c p n s₀) hsafe fun _ _ _ hs hok ht => (keeps_safe huid hp).step hs hok ht).unharmed
  · have hno : c.uid ≠ x.info.uid := by
      simp only [checkOwner, hc, Bool.or_eq_false_iff, decide_eq_false_iff_not] at hown
      exact hown.2
    have hkept : Kept c p n x.info s₀ := by
      refine ⟨hc, fun z hz => ?_⟩
      rw [hx] at hz
      cases hz
      rfl
    have hinv := hrun.inv (I := Kept c p n x.info) hkept fun _ _ _ hs hok ht => (keeps_kept huid hno).step hs hok ht
    exact hinv.title y hy

/-- A file of root that others may read. -/
def rootFile : Info := ⟨['f'], ⟨false, .file⟩, 0, 0, 0o644, 7, 0, false⟩

/-- The driver has made it below the root. -/
def withRootFile : Vfsd := (init 8 someTasks).create 1 (.fresh rootFile)

theorem reach_withRootFile : Reach Vfsd.step Orderly (init 8 someTasks) withRootFile := by
  refine Reach.next (o := .newNode 1 rootFile 1 true false false) .start ?_ (by rfl)
  refine ⟨trivial, ⟨rfl, ?_⟩, fun m x _ _ hw => absurd hw (by decide)⟩
  rintro i m ⟨⟩

/-- The user may not write to it. -/
theorem shielded_rootFile : Shielded withRootFile 5 2 := by
  have hline : ∀ a x, Under (up withRootFile) 2 a → withRootFile.node a = some x → x.info.uid = 0 ∧ x.info.gid = 0 ∧
      (x.info.mode = 0o644 ∨ x.info.mode = 0) := by
    intro a x hu hx
    rcases hu.cases_up with rfl | ⟨b, hb, hu⟩
    · cases hx
      exact ⟨rfl, rfl, .inl rfl⟩
    · cases hb
      rcases hu.cases_up with rfl | ⟨b, hb, -⟩
      · cases hx
        exact ⟨rfl, rfl, .inr rfl⟩
      · cases hb
  have hcred : (withRootFile.task 5).cred = some ⟨1000, 1000, 15⟩ := rfl
  refine ⟨⟨_, rfl⟩, fun a x hu hx => ?_, fun a x hu hx => ?_, by decide +kernel⟩
  · obtain ⟨huid, -, -⟩ := hline a x hu hx
    simp [checkOwner, hcred, huid]
  · obtain ⟨huid, hgid, hmode | hmode⟩ := hline a x hu hx
    · simp [checkAccess, hcred, huid, hgid, hmode, Access.bits]
    · simp [checkAccess, hcred, huid, hgid, hmode, Access.bits]

/-- The user reads it. -/
theorem nodes_protected_read : (withRootFile.doOpen 5 2 ⟨false, false, false, false⟩).fd 5 3 ≠ none ∧
    Unharmed 2 withRootFile (withRootFile.doOpen 5 2 ⟨false, false, false, false⟩) := by
  refine ⟨by decide +kernel, (nodes_protected (c := ⟨1000, 1000, 15⟩) reach_withRootFile rfl (by decide)).1 (by decide)
    shielded_rootFile ?_⟩
  refine Reach.next (o := .openNode 5 2 ⟨false, false, false, false⟩) .start ⟨rfl, fun x hx _ => ?_⟩ rfl
  cases hx
  exact fun ht => absurd ht (by decide)

/-- The user opens it to read and to truncate: it is empty. -/
theorem read_truncates : ∃ s, Reach Vfsd.step Free (init 8 someTasks) withRootFile ∧ Shielded withRootFile 5 2 ∧
    withRootFile.step (.openNode 5 2 ⟨false, false, false, true⟩) = some s ∧ ¬Unharmed 2 withRootFile s := by
  have hsize : ((withRootFile.doOpen 5 2 ⟨false, false, false, true⟩).node 2).map (fun x => x.info.size) = some 0 := by
    decide +kernel
  refine ⟨_, reach_withRootFile.mono fun _ _ _ => trivial, shielded_rootFile, rfl, ?_⟩
  rintro ⟨⟨x, y, hx, hy, he⟩, -⟩
  cases hx
  rw [hy, Option.map_some] at hsize
  have hs : y.info.size = 7 := congrArg (fun k => k.2.2.2.2.2.1) he
  rw [hs] at hsize
  cases hsize

end EwokOS.Vfs
