import EwokOS.Vfs.Prune

/-! The tree of `vfsd` over whole runs.

    Mount, umount and delete each take nodes out of lists. What goes wrong needs two of them: a node that
    is loose, because a mount covers it or because it has been unmounted, still points to its father, and
    whatever takes it out of the list a second time counts the father down for a kid it does not have:

        mount n over o:     f: [.., o, ..]  kids = k      --->   f: [.., n]  kids = k     o loose
        delete o:           f: [.., n]      kids = k - 1

    `Docked` says what the mount table and the tree have to do with each other; with it an umount puts
    back what the mount has taken out. -/

namespace EwokOS.Vfs

open Schemes Vfsd

/-- A mounted root in a list is the one its slot names, and what it covers is loose and has the same
    father. No two of them cover the same node. -/
structure Docked (s : Vfsd) : Prop where
  slot : ∀ n x i, s.node n = some x → x.mountId = some i → x.father ≠ 0 → ∃ m, s.mnt i = some m ∧
    m.root = n ∧ ∀ o, s.node m.org = some o → o.loose = true ∧ o.father = x.father
  apart : ∀ i j m m' x x' o, s.mnt i = some m → s.mnt j = some m' → s.node m.root = some x →
    s.node m'.root = some x' → x.mountId = some i → x'.mountId = some j → x.father ≠ 0 → x'.father ≠ 0 →
    s.node m.org = some o → m.org = m'.org → i = j

/-- A root stays docked while slot, father and covered node do. Nodes may come that no slot names, and
    may go. -/
theorem Docked.carry {s t : Vfsd} (h : Docked s) (hmnt : t.mnt = s.mnt)
    (hback : ∀ j y, t.node j = some y →
      (∃ z, s.node j = some z ∧ y.mountId = z.mountId ∧ y.father = z.father ∧ y.loose = z.loose) ∨
      ((y.mountId = none ∨ y.father = 0) ∧ ∀ i m, s.mnt i = some m → m.org ≠ j)) : Docked t := by
  have hroot : ∀ j y i, t.node j = some y → y.mountId = some i → y.father ≠ 0 →
      ∃ z, s.node j = some z ∧ z.mountId = some i ∧ z.father = y.father := by
    intro j y i hy hi hf
    rcases hback j y hy with ⟨z, hz, hmi, hfa, -⟩ | ⟨hnew, -⟩
    · exact ⟨z, hz, hmi ▸ hi, hfa.symm⟩
    · rcases hnew with hnew | hnew
      · rw [hnew] at hi
        cases hi
      · exact absurd hnew hf
  have horg : ∀ i m o, s.mnt i = some m → t.node m.org = some o →
      ∃ z, s.node m.org = some z ∧ o.father = z.father ∧ o.loose = z.loose := by
    intro i m o hm ho
    rcases hback _ o ho with ⟨z, hz, -, hfa, hlo⟩ | ⟨-, hne⟩
    · exact ⟨z, hz, hfa, hlo⟩
    · exact absurd rfl (hne i m hm)
  refine ⟨?_, ?_⟩
  · intro n y i hy hi hf
    obtain ⟨x, hx, hxi, hxf⟩ := hroot n y i hy hi hf
    obtain ⟨m, hm, hr, hcov⟩ := h.slot n x i hx hxi (hxf ▸ hf)
    refine ⟨m, hmnt ▸ hm, hr, fun o ho => ?_⟩
    obtain ⟨z, hz, hfa, hlo⟩ := horg i m o hm ho
    rw [hfa, hlo, ← hxf]
    exact hcov z hz
  · intro i j m m' y y' o hm hm' hy hy' hi hj hf hf' ho heq
    rw [hmnt] at hm hm'
    obtain ⟨x, hx, hxi, hxf⟩ := hroot _ y i hy hi hf
    obtain ⟨x', hx', hxj, hxf'⟩ := hroot _ y' j hy' hj hf'
    obtain ⟨z, hz, -⟩ := horg i m o hm ho
    exact h.apart i j m m' x x' z hm hm' hx hx' hxi hxj (hxf ▸ hf) (hxf' ▸ hf') hz heq

def Grown (s : Vfsd) : Prop := ∃ K, Forest K s ∧ Docked s

/-- What the tree and the mount table see of a node. -/
def key (x : Node) : (ℕ × ℕ × ℕ × ℕ × ℕ × ℤ × Bool) × Option ℕ × Bool := (shape x, x.mountId, x.copy)

/-- What linking and unlinking leave alone. -/
def hull (x : Node) : Option ℕ × Bool × ℕ × ℕ × Bool := (x.mountId, x.pending, x.refs, x.refsW, x.copy)

theorem hull_mountId {x y : Node} (h : hull x = hull y) : x.mountId = y.mountId := congrArg Prod.fst h

/-- From `s` to `t` nothing has changed that the tree sees. -/
structure Same (s t : Vfsd) : Prop where
  node : ∀ m, (t.node m).map key = (s.node m).map key
  mnt : t.mnt = s.mnt
  root : t.root = s.root
  count : t.count = s.count

namespace Same
variable {s t u : Vfsd}

theorem refl (s : Vfsd) : Same s s := ⟨fun _ => rfl, rfl, rfl, rfl⟩

theorem trans (h : Same s t) (h' : Same t u) : Same s u :=
  ⟨fun m => (h'.node m).trans (h.node m), h'.mnt.trans h.mnt, h'.root.trans h.root, h'.count.trans h.count⟩

theorem modify {n : ℕ} {f : Node → Node} (h : Same s t) (hf : ∀ x, key (f x) = key x) :
    Same s (t.modify n f) := by
  refine ⟨fun m => ?_, h.mnt, h.root, h.count⟩
  rw [← h.node m, modify_node]
  cases t.node m with
  | none => rfl
  | some y =>
    simp only [Option.map_some, Option.some.injEq]
    split
    · exact hf y
    · rfl

theorem back (h : Same s t) {m : ℕ} {y : Node} (hy : t.node m = some y) :
    ∃ x, s.node m = some x ∧ key x = key y := by
  have hm := h.node m
  rw [hy] at hm
  obtain ⟨x, hx, he⟩ := Option.map_eq_some_iff.mp hm.symm
  exact ⟨x, hx, he⟩

theorem key_eq {x y : Node} (h : key x = key y) :
    x.father = y.father ∧ x.loose = y.loose ∧ x.mountId = y.mountId := by
  simp only [key, shape, Prod.mk.injEq] at h
  exact ⟨h.1.1, h.1.2.2.2.2.2.2, h.2.1⟩

theorem forest (h : Same s t) {K : ℕ → List ℕ} (hf : Forest K s) : Forest K t := by
  refine hf.congr (fun m => ?_) ?_ h.count
  · have hm := congrArg (Option.map Prod.fst) (h.node m)
    rw [Option.map_map, Option.map_map] at hm
    exact hm
  · obtain ⟨x, hx⟩ := hf.root
    have hm := h.node s.root
    rw [hx] at hm
    obtain ⟨y, hy, -⟩ := Option.map_eq_some_iff.mp hm
    exact ⟨y, by rw [h.root]; exact hy⟩

theorem up (h : Same s t) : Vfs.up t = Vfs.up s := by
  funext m
  have hm := h.node m
  cases hx : s.node m with
  | none =>
    rw [hx, Option.map_none, Option.map_eq_none_iff] at hm
    simp only [Vfs.up, hx, hm]
  | some x =>
    rw [hx] at hm
    obtain ⟨y, hy, he⟩ := Option.map_eq_some_iff.mp hm
    simp only [Vfs.up, hx, hy, (key_eq he).1]

theorem docked (h : Same s t) (hd : Docked s) : Docked t := by
  refine hd.carry h.mnt fun j y hy => .inl ?_
  obtain ⟨x, hx, he⟩ := h.back hy
  obtain ⟨hfa, hlo, hmi⟩ := key_eq he
  exact ⟨x, hx, hmi.symm, hfa.symm, hlo.symm⟩

theorem grown (h : Same s t) (hg : Grown s) : Grown t := by
  obtain ⟨K, hf, hd⟩ := hg
  exact ⟨K, h.forest hf, h.docked hd⟩

end Same

/-! ### Deleting -/

theorem Docked.pruned {s t : Vfsd} {l : List ℕ} (h : Docked s) (hp : Pruned l s t) : Docked t := by
  refine h.carry hp.mnt fun j y hy => .inl ?_
  obtain ⟨x, hx, he⟩ := hp.keep j y hy
  exact ⟨x, hx, bare_mountId he, bare_father he, bare_loose he⟩

/-- A node is deleted that nothing loose is below. -/
theorem Grown.delNode {s : Vfsd} {n : ℕ} (h : Grown s) (hc : Clear s n) : Grown (s.delNode n).1 := by
  obtain ⟨K, hf, hd⟩ := h
  cases hx : s.node n with
  | none =>
    have he : (s.delNode n).1 = s := by
      show (delDepth (511 + 1) s n).1 = s
      rw [delDepth, hx]
    rw [he]
    exact ⟨K, hf, hd⟩
  | some x =>
    obtain ⟨K', hf', hp, -⟩ := deletes_delDepth delMaxDepth K s n x hf hx hc
    exact ⟨K', hf', hd.pruned hp⟩

/-! ### Unmounting -/

section
variable {K : ℕ → List ℕ} {s t : Vfsd} {n : ℕ} {x : Node}

/-- What `vfs_remove` does to a node, as far as the mount table sees it. -/
theorem remove_back (hx : s.node n = some x) {m : ℕ} {y : Node} (hy : (s.remove n).node m = some y) :
    ∃ z, s.node m = some z ∧ y.father = z.father ∧ hull y = hull z ∧
      (m = n → y.loose = true) ∧ (m ≠ n → y.loose = z.loose) := by
  rw [Vfsd.remove, modify_node, unlink_node s hx, Option.map_map] at hy
  obtain ⟨z, hz, rfl⟩ := Option.map_eq_some_iff.mp hy
  refine ⟨z, hz, ?_⟩
  rcases eq_or_ne m n with rfl | hm
  · exact ⟨by simp [unlinked], by simp [hull, unlinked], by simp, fun h => absurd rfl h⟩
  · exact ⟨by simp [unlinked, hm], by simp [hull, unlinked, hm], fun h => absurd h hm,
      fun _ => by simp [unlinked, hm]⟩

theorem remove_forth (hx : s.node n = some x) {m : ℕ} {z : Node} (hz : s.node m = some z) :
    ∃ y, (s.remove n).node m = some y := by
  rw [Vfsd.remove, modify_node, unlink_node s hx, Option.map_map, hz]
  exact ⟨_, rfl⟩

theorem remove_frame (s : Vfsd) (n : ℕ) :
    (s.remove n).mnt = s.mnt ∧ (s.remove n).root = s.root ∧ (s.remove n).next = s.next := by
  unfold Vfsd.remove unlink
  split <;> exact ⟨rfl, rfl, rfl⟩

theorem up_remove (hx : s.node n = some x) : up (s.remove n) = up s := by
  funext m
  cases hz : s.node m with
  | none =>
    have : (s.remove n).node m = none := by
      rw [Vfsd.remove, modify_node, unlink_node s hx, hz]
      rfl
    simp only [up, hz, this]
  | some z =>
    obtain ⟨y, hy⟩ := remove_forth hx hz
    obtain ⟨z', hz', hf, -⟩ := remove_back hx hy
    rw [hz] at hz'
    cases hz'
    simp only [up, hz, hy, hf]

theorem addNode_back {f m : ℕ} {fx y : Node} (hf : s.node f = some fx) (hy : (s.addNode f n).node m = some y) :
    ∃ z, s.node m = some z ∧ hull y = hull z ∧ (m = n → y.father = f ∧ y.loose = false) ∧
      (m ≠ n → y.father = z.father ∧ y.loose = z.loose) := by
  rw [addNode_node s hf] at hy
  obtain ⟨z, hz, rfl⟩ := Option.map_eq_some_iff.mp hy
  exact ⟨z, hz, rfl, fun h => by simp [linkedTo, h], fun h => by simp [linkedTo, h]⟩

/-- A node that is in no list gets rid of its father. -/
theorem Forest.orphan (h : Forest K s) (hx : s.node n = some x) (hl : x.loose = true) :
    Forest K (s.modify n fun o => { o with father := 0, loose := false }) := by
  have hcases : ∀ m y, (s.modify n fun o => { o with father := 0, loose := false }).node m = some y →
      (m ≠ n ∧ s.node m = some y) ∨ (m = n ∧ y = { x with father := 0, loose := false }) := by
    intro m y hy
    rcases modify_cases s n _ hy with h | ⟨rfl, z, hz, rfl⟩
    · exact .inl h
    · rw [hx] at hz
      cases hz
      exact .inr ⟨rfl, rfl⟩
  have hnot : ∀ m, n ∉ K m := h.not_kid hx (.inr hl)
  have hlive : ∀ m z, s.node m = some z →
      ∃ y, (s.modify n fun o => { o with father := 0, loose := false }).node m = some y := by
    intro m z hz
    rw [modify_node, hz]
    exact ⟨_, rfl⟩
  have hother : ∀ m, m ≠ n → (s.modify n fun o => { o with father := 0, loose := false }).node m = s.node m :=
    fun m hm => modify_ne s n _ hm
  refine ⟨(modify_none s n _).mpr h.null, fun m hm => h.dead m ((modify_none s n _).mp hm), ?linked, ?head,
    h.nodup,
    ?kid, ?mem, ?alone, ?father, ?loose, ?ends, ?root, ?count⟩
  case linked =>
    intro m
    refine (h.linked m).congr (fun c hc => ?_) fun c hc => ?_
    · simp only [nextOf, hother c fun he => hnot m (he ▸ hc)]
    · simp only [prevOf, hother c fun he => hnot m (he ▸ hc)]
  case head =>
    intro m y hy
    rcases hcases m y hy with ⟨-, hy⟩ | ⟨rfl, rfl⟩
    · exact h.head m y hy
    · exact h.head m x hx
  case kid =>
    intro m c hc
    rw [hother c fun he => hnot m (he ▸ hc)]
    exact h.kid m c hc
  case mem =>
    intro m y hy hyf hyl
    rcases hcases m y hy with ⟨-, hy⟩ | ⟨rfl, rfl⟩
    · exact h.mem m y hy hyf hyl
    · exact absurd rfl hyf
  case alone =>
    intro m y hy ha
    rcases hcases m y hy with ⟨-, hy⟩ | ⟨rfl, rfl⟩
    · exact h.alone m y hy ha
    · exact h.alone m x hx (.inr hl)
  case father =>
    intro m y hy hyf
    rcases hcases m y hy with ⟨-, hy⟩ | ⟨rfl, rfl⟩
    · obtain ⟨z, hz⟩ := h.father m y hy hyf
      exact hlive _ z hz
    · exact absurd rfl hyf
  case loose =>
    intro m y hy hyl
    rcases hcases m y hy with ⟨-, hy⟩ | ⟨rfl, rfl⟩
    · exact h.loose m y hy hyl
    · cases hyl
  case ends =>
    intro m
    refine (h.ends m).cut fun j => ?_
    rcases eq_or_ne j n with rfl | hj
    · left
      simp [up, hx]
    · right
      simp only [up, hother j hj]
  case root =>
    obtain ⟨z, hz⟩ := h.root
    exact hlive _ z hz
  case count =>
    obtain ⟨l, hnd, hmem, hlen⟩ := h.count
    refine ⟨l, hnd, fun m => ?_, hlen⟩
    rw [hmem m, modify_node, Option.isSome_map]

/-- A mounted root leaves its slot, and what it covers is changed. -/
theorem Docked.undock {i : ℕ} {m : Mnt} {K : ℕ → List ℕ} (hK : Forest K s) (h : Docked s)
    (hx : s.node n = some x) (hi : x.mountId = some i) (hm : s.mnt i = some m) (hr : m.root = n)
    (hl : x.father ≠ 0 → x.loose = false) (hmnt : t.mnt = Function.update s.mnt i none)
    (hback : ∀ j y, t.node j = some y → ∃ z, s.node j = some z ∧ (j = n → y.mountId = none) ∧
      (j ≠ n → y.mountId = z.mountId) ∧ (y.father = z.father ∨ y.father = 0) ∧
      (j ≠ n → (j = m.org ∧ x.father ≠ 0) ∨ (y.father = z.father ∧ y.loose = z.loose))) : Docked t := by
  -- a root in another slot, before
  have hold : ∀ j y i', t.node j = some y → y.mountId = some i' → y.father ≠ 0 →
      ∃ z m', s.node j = some z ∧ z.mountId = some i' ∧ z.father = y.father ∧ s.mnt i' = some m' ∧ m'.root = j ∧
        i' ≠ i ∧ t.mnt i' = some m' := by
    intro j y i' hy hi' hf
    obtain ⟨z, hz, hself, hother, hfa, -⟩ := hback j y hy
    have hjn : j ≠ n := by
      intro he
      rw [hself he] at hi'
      cases hi'
    have hzf : z.father = y.father := (hfa.resolve_right hf).symm
    have hzi : z.mountId = some i' := (hother hjn).symm.trans hi'
    obtain ⟨m', hm', hr', -⟩ := h.slot j z i' hz hzi (hzf ▸ hf)
    have hne : i' ≠ i := by
      rintro rfl
      rw [hm] at hm'
      cases hm'
      exact hjn (hr'.symm.trans hr)
    refine ⟨z, m', hz, hzi, hzf, hm', hr', hne, ?_⟩
    rw [hmnt, Function.update_of_ne hne]
    exact hm'
  refine ⟨?_, ?_⟩
  · intro j y i' hy hi' hf
    obtain ⟨z, m', hz, hzi, hzf, hm', hr', hne, hmt⟩ := hold j y i' hy hi' hf
    refine ⟨m', hmt, hr', fun o' ho' => ?_⟩
    obtain ⟨w, hw, -, -, -, hsame⟩ := hback _ o' ho'
    obtain ⟨m'', hm'', -, horg⟩ := h.slot j z i' hz hzi (hzf ▸ hf)
    rw [hm'] at hm''
    cases hm''
    obtain ⟨hwl, hwf⟩ := horg w hw
    have hon : m'.org ≠ n := by
      intro he
      rw [he, hx] at hw
      cases hw
      have hf0 := hK.loose n x hx hwl
      rw [hl hf0] at hwl
      cases hwl
    rcases hsame hon with ⟨heq, hxf⟩ | ⟨hf', hl'⟩
    · -- two roots would cover one node
      exact absurd (h.apart i' i m' m z x w hm' hm (hr' ▸ hz) (hr ▸ hx) hzi hi (hzf ▸ hf) hxf hw heq) hne
    · rw [hf', hl', ← hzf]
      exact ⟨hwl, hwf⟩
  · intro i₁ i₂ m₁ m₂ y₁ y₂ o' hm₁ hm₂ hy₁ hy₂ hi₁ hi₂ hf₁ hf₂ ho' heq
    obtain ⟨z₁, m₁', hz₁, hzi₁, hzf₁, hs₁, -, -, ht₁⟩ := hold _ y₁ i₁ hy₁ hi₁ hf₁
    obtain ⟨z₂, m₂', hz₂, hzi₂, hzf₂, hs₂, -, -, ht₂⟩ := hold _ y₂ i₂ hy₂ hi₂ hf₂
    rw [ht₁] at hm₁
    rw [ht₂] at hm₂
    cases hm₁
    cases hm₂
    obtain ⟨w, hw, -⟩ := hback _ o' ho'
    exact h.apart i₁ i₂ m₁ m₂ z₁ z₂ w hs₁ hs₂ hz₁ hz₂ hzi₁ hzi₂ (hzf₁ ▸ hf₁) (hzf₂ ▸ hf₂) hw heq

/-- An umount of `n` that takes effect: `n` is the root its slot names and is not covered itself; and if
    what it covers is deleted, nothing loose is below that, nor the root. -/
def UmountOk (s : Vfsd) (n : ℕ) : Prop :=
  ∀ x i m o, s.node n = some x → x.mountId = some i → s.mnt i = some m → s.node m.org = some o →
    m.root = n ∧ (x.father ≠ 0 → x.loose = false ∧ (o.mountId = none →
      ∀ j y, s.node j = some y → (y.loose = true ∧ j ≠ m.org) ∨ j = s.root → ¬Under (up s) j m.org))

theorem release_back {i j : ℕ} {y : Node} (hy : (s.release i n).node j = some y) :
    ∃ z, s.node j = some z ∧ y.father = z.father ∧ y.loose = z.loose ∧ (j = n → y.mountId = none) ∧
      (j ≠ n → hull y = hull z) := by
  rw [Vfsd.release, modify_node] at hy
  obtain ⟨z, hz, rfl⟩ := Option.map_eq_some_iff.mp hy
  refine ⟨z, hz, ?_, ?_, fun h => ?_, fun h => ?_⟩
  · split <;> rfl
  · split <;> rfl
  · rw [if_pos h]
  · rw [if_neg h]

theorem Forest.release {i : ℕ} (h : Forest K s) : Forest K (s.release i n) := by
  have h' : Forest K { s with mnt := Function.update s.mnt i none } := h.congr (fun _ => rfl) h.root rfl
  exact h'.edit fun _ => rfl

theorem release_forth {i j : ℕ} {z : Node} (hz : s.node j = some z) : ∃ y, (s.release i n).node j = some y := by
  rw [Vfsd.release, modify_node]
  exact ⟨_, congrArg (Option.map _) hz⟩

/-- From `s` to `t` the mounted root `n`, which is `x`, has left the slot `i`, and `org`, which is `o`, is no
    longer covered. -/
structure Lifted (K : ℕ → List ℕ) (s t : Vfsd) (n : ℕ) (x : Node) (i org : ℕ) (o : Node) : Prop where
  forest : ∃ K', Forest K' t ∧ ∀ f, (x.father ≠ 0 → o.mountId = none → ¬Under (up s) f org) → Trim (K f) (K' f)
  mnt : t.mnt = Function.update s.mnt i none
  root : t.root = if x.father = 0 ∧ n = s.root then org else s.root
  back : ∀ j y, t.node j = some y → ∃ z, s.node j = some z ∧ (j = n → y.mountId = none) ∧
    (j ≠ n → hull y = hull z) ∧ (y.father = z.father ∨ (y.father = 0 ∧ z.mountId = none)) ∧
    (j ≠ n → (j = org ∧ x.father ≠ 0) ∨ (y.father = z.father ∧ y.loose = z.loose))
  stay : ∀ j z, s.node j = some z → (x.father ≠ 0 → o.mountId = none → ¬Under (up s) j org) →
    ∃ y, t.node j = some y

theorem erased (K : ℕ → List ℕ) (n a f : ℕ) : (Function.update K a ((K a).erase n) f).Sublist (K f) := by
  rcases eq_or_ne f a with rfl | hfa
  · rw [Function.update_self]
    exact List.erase_sublist
  · rw [Function.update_of_ne hfa]

section
variable {i org : ℕ} {o : Node} (hK : Forest K s) (hx : s.node n = some x) (hf : x.father ≠ 0) (hl : x.loose = false)
  (ho : s.node org = some o) (hol : o.loose = true) (hof : o.father = x.father)

include hx hl ho hol in
theorem covered_ne : org ≠ n := by
  rintro rfl
  rw [hx] at ho
  cases ho
  rw [hl] at hol
  cases hol

include hx hl ho hol in
/-- What was covered, with the mounted root taken out of its list. -/
theorem bared : ∃ o₁, (s.remove n).node org = some o₁ ∧ o₁.father = o.father ∧ hull o₁ = hull o ∧ o₁.loose = true := by
  obtain ⟨o₁, ho₁⟩ := remove_forth hx ho
  obtain ⟨o', ho', hof₁, hoi₁, -, hol₁⟩ := remove_back hx ho₁
  rw [ho] at ho'
  cases ho'
  exact ⟨o₁, ho₁, hof₁, hoi₁, (hol₁ (covered_ne hx hl ho hol)).trans hol⟩

include hK in
/-- Only the root of all changes. -/
theorem Forest.lifted_root (hf : x.father = 0) (ho : s.node org = some o) :
    Lifted K s (Vfsd.release { s with root := if n = s.root then org else s.root } i n) n x i org o := by
  have hK' : Forest K { s with root := if n = s.root then org else s.root } := by
    refine hK.congr (fun _ => rfl) ?_ rfl
    show ∃ y, s.node (if n = s.root then org else s.root) = some y
    split
    · exact ⟨o, ho⟩
    · exact hK.root
  refine ⟨⟨K, hK'.release, fun f _ => .refl (K f)⟩, rfl, ?_, fun j y hy => ?_, fun j z hz _ => release_forth hz⟩
  · simp only [hf, true_and]
    rfl
  · obtain ⟨z, hz, hfa, hlo, h₁, h₂⟩ := release_back hy
    exact ⟨z, hz, h₁, h₂, .inl hfa, fun _ => .inr ⟨hfa, hlo⟩⟩

include hK hx hf hl ho hol hof

/-- A mounted root comes back. -/
theorem Forest.lifted_back : Lifted K s (((s.remove n).addNode x.father org).release i n) n x i org o := by
  obtain ⟨hmnt₁, hroot₁, -⟩ := remove_frame s n
  obtain ⟨o₁, ho₁, hof₁, -, hol₁⟩ := bared hx hl ho hol
  have hroot : s.root = if x.father = 0 ∧ n = s.root then org else s.root := (if_neg fun h => hf h.1).symm
  obtain ⟨fz, hfz⟩ := hK.father n x hx hf
  obtain ⟨fx, hfx⟩ := remove_forth hx hfz
  have hK₂ := (hK.remove hx hf hl).addNode ho₁ hfx (.inr hol₁) (.inl (hof₁.trans hof))
  have hnot : ∀ f, org ∉ K f := hK.not_kid ho (.inr hol)
  refine ⟨⟨_, hK₂.release, fun f _ => ?forest⟩, ?mnt, ?root, fun j y hy => ?back, fun j z hz _ => ?stay⟩
  case forest =>
    rcases eq_or_ne f x.father with rfl | hfx
    · rw [Function.update_self]
      exact .snoc (erased ..) (hnot _)
    · rw [Function.update_of_ne hfx]
      exact .of_sublist (erased ..)
  case mnt =>
    show Function.update ((s.remove n).addNode x.father org).mnt i none = _
    rw [(addNode_frame _ _ _).1, hmnt₁]
  case root =>
    rw [← hroot, ← hroot₁]
    exact (addNode_frame _ _ _).2.1
  case back =>
    obtain ⟨z₂, hz₂, hfa₂, hlo₂, h₁, h₂⟩ := release_back hy
    obtain ⟨z₁, hz₁, hmi₁, hself, hother⟩ := addNode_back hfx hz₂
    obtain ⟨z, hz, hfa, hmi, -, hlo⟩ := remove_back hx hz₁
    refine ⟨z, hz, h₁, fun hj => ((h₂ hj).trans hmi₁).trans hmi, .inl ?_, fun hj => ?_⟩
    · rcases eq_or_ne j org with rfl | hjo
      · rw [ho] at hz
        cases hz
        rw [hfa₂, (hself rfl).1, hof]
      · rw [hfa₂, (hother hjo).1, hfa]
    · rcases eq_or_ne j org with hjo | hjo
      · exact .inl ⟨hjo, hf⟩
      · exact .inr ⟨by rw [hfa₂, (hother hjo).1, hfa], by rw [hlo₂, (hother hjo).2, hlo hj]⟩
  case stay =>
    obtain ⟨z₁, hz₁⟩ := remove_forth hx hz
    refine release_forth (z := linkedTo x.father fx org j z₁) ?_
    rw [addNode_node _ hfx, hz₁]
    rfl

/-- A plain mount point is deleted. -/
theorem Forest.lifted_away (hoi : o.mountId = none)
    (hclear : ∀ j y, s.node j = some y → (y.loose = true ∧ j ≠ org) ∨ j = s.root → ¬Under (up s) j org) :
    Lifted K s ((((s.remove n).modify org fun o => { o with father := 0, loose := false }).delNode org).1.release i n)
      n x i org o := by
  obtain ⟨hmnt₁, hroot₁, -⟩ := remove_frame s n
  obtain ⟨o₁, ho₁, hof₁, hoi₁, hol₁⟩ := bared hx hl ho hol
  have hroot : s.root = if x.father = 0 ∧ n = s.root then org else s.root := (if_neg fun h => hf h.1).symm
  have hon := covered_ne hx hl ho hol
  have hK₂ := (hK.remove hx hf hl).orphan ho₁ hol₁
  have hup₂ : ∀ j f, up ((s.remove n).modify org fun o => { o with father := 0, loose := false }) j = some f →
      up s j = some f := by
    intro j f hj
    rw [← up_remove hx]
    rcases eq_or_ne j org with rfl | hjo
    · simp [up, ho₁] at hj
    · simp only [up, modify_ne _ _ _ hjo] at hj ⊢
      exact hj
  have hclear₂ : Clear ((s.remove n).modify org fun o => { o with father := 0, loose := false }) org := by
    intro j y hy hj hu
    have hu' := hu.mono hup₂
    rcases modify_cases _ _ _ hy with ⟨hjo, hy⟩ | ⟨rfl, w, hw, rfl⟩
    · obtain ⟨z, hz, -, -, -, hlo⟩ := remove_back hx hy
      rcases eq_or_ne j n with rfl | hjn
      · -- `n` has the same father as what it covers, and is not below it
        rcases hu'.cases_up with he | ⟨f, hjf, hfo⟩
        · exact hon he.symm
        · rw [up_eq hx hf] at hjf
          cases hjf
          exact (hK.ends org).not_under _ (hof ▸ up_eq ho (by rw [hof]; exact hf)) hfo
      · refine hclear j z hz ?_ hu'
        rw [hlo hjn, modify_root, hroot₁] at hj
        exact hj.imp (fun h => ⟨h, hjo⟩) id
    · rw [modify_root, hroot₁] at hj
      have hroot : j = s.root := hj.resolve_left (by simp)
      exact hclear j o ho (.inr hroot) (.self _)
  have hx₂ : ((s.remove n).modify org fun o => { o with father := 0, loose := false }).node org =
      some { o₁ with father := 0, loose := false } := by
    rw [modify_self, ho₁]
    rfl
  obtain ⟨K₃, hK₃, hp, hlists⟩ := deletes_delDepth delMaxDepth _ _ _ _ hK₂ hx₂ hclear₂
  refine ⟨⟨K₃, hK₃.release, fun f hfo => .of_sublist ?forest⟩, ?mnt, ?root, fun j y hy => ?back,
    fun j z hz hnot => ?stay⟩
  case forest =>
    rw [hlists f fun hu => hfo hf hoi (hu.mono hup₂)]
    split
    · exact (erased ..).trans (erased K n x.father f)
    · exact erased ..
  case mnt =>
    show Function.update (delDepth delMaxDepth _ org).1.mnt i none = _
    rw [hp.mnt, modify_mnt, hmnt₁]
  case root =>
    rw [← hroot]
    show (delDepth delMaxDepth _ org).1.root = _
    rw [hp.root, modify_root, hroot₁]
  case back =>
    obtain ⟨z₃, hz₃, hfa₃, hlo₃, h₁, h₂⟩ := release_back hy
    obtain ⟨z₂, hz₂, hb⟩ := hp.keep j z₃ hz₃
    have hh : hull z₃ = hull z₂ := (congrArg hull hb :)
    rcases modify_cases _ _ _ hz₂ with ⟨hjo, hz₁⟩ | ⟨rfl, w, hw, rfl⟩
    · obtain ⟨z, hz, hfa, hmi, -, hlo⟩ := remove_back hx hz₁
      have hfj : y.father = z.father := hfa₃.trans ((bare_father hb).trans hfa)
      refine ⟨z, hz, h₁, fun hj => (h₂ hj).trans (hh.trans hmi), .inl hfj, fun hj => .inr ?_⟩
      exact ⟨hfj, hlo₃.trans ((bare_loose hb).trans (hlo hj))⟩
    · rw [ho₁] at hw
      cases hw
      refine ⟨o, ho, h₁, fun hj => (h₂ hj).trans (hh.trans hoi₁), .inr ⟨?_, hoi⟩, fun _ => .inl ⟨rfl, hf⟩⟩
      exact hfa₃.trans (bare_father hb)
  case stay =>
    obtain ⟨z₁, hz₁⟩ := remove_forth hx hz
    have hz₂ : ∃ z₂, ((s.remove n).modify org fun o => { o with father := 0, loose := false }).node j = some z₂ := by
      rw [modify_node, hz₁]
      exact ⟨_, rfl⟩
    obtain ⟨z₂, hz₂⟩ := hz₂
    obtain ⟨z₃, hz₃⟩ := hp.stay j z₂ hz₂ fun k hk hu => by
      rw [List.mem_singleton] at hk
      exact hnot hf hoi (hk ▸ hu.mono hup₂)
    exact release_forth hz₃

end

/-- An umount that takes effect. -/
theorem Forest.lifted {i : ℕ} {m : Mnt} {o : Node} (hK : Forest K s) (hd : Docked s) (hok : UmountOk s n)
    (hx : s.node n = some x) (hi : x.mountId = some i) (hm : s.mnt i = some m) (ho : s.node m.org = some o) :
    Lifted K s (s.umountNow n) n x i m.org o := by
  obtain ⟨-, hatt⟩ := hok x i m o hx hi hm ho
  unfold Vfsd.umountNow
  rw [hx]
  dsimp only
  rw [hi]
  dsimp only
  rw [hm, show (some m).elim 0 Mnt.org = m.org from rfl, ho]
  dsimp only
  unfold Vfsd.uncover
  rw [hx, ho]
  dsimp only
  by_cases hf : x.father = 0
  · rw [if_pos hf]
    exact hK.lifted_root hf ho
  · rw [if_neg hf]
    obtain ⟨hl, hclear⟩ := hatt hf
    obtain ⟨m', hm', -, horg⟩ := hd.slot n x i hx hi hf
    rw [hm] at hm'
    cases hm'
    obtain ⟨hol, hof⟩ := horg o ho
    cases hoi : o.mountId with
    | some j => exact hK.lifted_back hx hf hl ho hol hof
    | none => exact hK.lifted_away hx hf hl ho hol hof hoi (hclear hoi)

/-- An umount that does nothing, or takes effect. -/
theorem umountNow_cases (hnull : s.node 0 = none) (n : ℕ) : s.umountNow n = s ∨ ∃ x i m o, s.node n = some x ∧
    x.mountId = some i ∧ s.mnt i = some m ∧ s.node m.org = some o := by
  unfold Vfsd.umountNow
  split
  · exact .inl rfl
  rename_i x hx
  split
  · exact .inl rfl
  rename_i i hi
  dsimp only
  cases hm : s.mnt i with
  | none =>
    rw [show (none : Option Mnt).elim 0 Mnt.org = 0 from rfl, hnull]
    exact .inl rfl
  | some m =>
    rw [show (some m).elim 0 Mnt.org = m.org from rfl]
    split
    · exact .inl rfl
    · rename_i o ho
      exact .inr ⟨x, i, m, o, hx, hi, hm, ho⟩

theorem Grown.umountNow (h : Grown s) (hok : UmountOk s n) : Grown (s.umountNow n) := by
  obtain ⟨K, hK, hd⟩ := h
  rcases umountNow_cases hK.null n with he | ⟨x, i, m, o, hx, hi, hm, ho⟩
  · rw [he]
    exact ⟨K, hK, hd⟩
  · have hl := hK.lifted hd hok hx hi hm ho
    obtain ⟨hr, hatt⟩ := hok x i m o hx hi hm ho
    obtain ⟨K', hK', -⟩ := hl.forest
    refine ⟨K', hK', hd.undock hK hx hi hm hr (fun hf => (hatt hf).1) hl.mnt fun j y hy => ?_⟩
    obtain ⟨z, hz, h₁, h₂, hfa, hsame⟩ := hl.back j y hy
    exact ⟨z, hz, h₁, fun hj => hull_mountId (h₂ hj), hfa.imp id And.left, hsame⟩

/-! ### Mounting -/

theorem getFreeMountId_spec {i : ℕ} (h : s.getFreeMountId = some i) : i < mountMax ∧ s.mnt i = none := by
  have hm := List.mem_of_find?_eq_some h
  have hn := List.find?_some h
  exact ⟨List.mem_range.mp hm, by simpa using hn⟩

/-- What a mount that succeeds has checked. -/
theorem mount_cases {pid org : ℕ} (h : s.mount pid org n = some t) : ∃ o x i, s.node org = some o ∧
    s.node n = some x ∧ org ≠ n ∧ x.mountId = none ∧ x.father = 0 ∧ n ≠ s.root ∧ (o.father = 0 → org = s.root) ∧
    s.getFreeMountId = some i ∧
    t = (let u := { s with mnt := Function.update s.mnt i (some ⟨pid, org, n, false⟩) }.modify n
          (.mounted o.info.name i)
        if o.father = 0 then { u with root := n } else (u.remove org).addNode o.father n) := by
  unfold Vfsd.mount at h
  split at h
  · rename_i o x ho hx
    split at h
    · cases h
    · rename_i hg
      split at h
      · cases h
      · rename_i i hi
        refine ⟨o, x, i, ho, hx, by tauto, ?_, by tauto, by tauto, by tauto, hi, ?_⟩
        · cases hmi : x.mountId with
          | none => rfl
          | some j => exact absurd (.inr (.inl (by rw [hmi]; rfl))) hg
        · dsimp only at h ⊢
          split at h
          · rename_i hf
            rw [if_pos hf]
            exact (Option.some.inj h).symm
          · rename_i hf
            rw [if_neg hf]
            exact (Option.some.inj h).symm
  · cases h

/-- A root comes into a slot that was free, over a node that is not loose. -/
theorem Docked.dock {i pid org : ℕ} {o : Node} (h : Docked s) (hK : Forest K s) (hx : s.node n = some x)
    (hf : x.father = 0) (ho : s.node org = some o) (hol : o.loose = false) (hfree : s.mnt i = none) (hmnt : t.mnt = Function.update s.mnt i (some ⟨pid, org, n, false⟩))
    (hback : ∀ j y, t.node j = some y → ∃ z, s.node j = some z ∧ (j = n → y.mountId = some i) ∧
      (j ≠ n → y.mountId = z.mountId ∧ y.father = z.father) ∧ (j ≠ n → j ≠ org → y.loose = z.loose))
    (hself : ∀ y, t.node n = some y → y.father ≠ 0 → ∀ o', t.node org = some o' → o'.loose = true ∧ o'.father = y.father) :
    Docked t := by
  have hxl : x.loose = false := by
    cases hl : x.loose with
    | false => rfl
    | true => exact absurd hf (hK.loose n x hx hl)
  -- a root in another slot was there before, and covers neither `n` nor `org`
  have hold : ∀ j y i', t.node j = some y → y.mountId = some i' → y.father ≠ 0 → j ≠ n →
      ∃ z m', s.node j = some z ∧ z.mountId = some i' ∧ z.father = y.father ∧ s.mnt i' = some m' ∧ m'.root = j ∧
        i' ≠ i ∧ t.mnt i' = some m' ∧
        ∀ w, s.node m'.org = some w → m'.org ≠ n ∧ m'.org ≠ org ∧ w.loose = true ∧ w.father = z.father := by
    intro j y i' hy hi' hyf hjn
    obtain ⟨z, hz, -, hother, -⟩ := hback j y hy
    obtain ⟨hzi, hzf⟩ := hother hjn
    obtain ⟨m', hm', hr', horg⟩ := h.slot j z i' hz (hzi ▸ hi') (hzf ▸ hyf)
    have hne : i' ≠ i := by
      rintro rfl
      rw [hfree] at hm'
      cases hm'
    refine ⟨z, m', hz, hzi ▸ hi', hzf.symm, hm', hr', hne, ?_, fun w hw => ?_⟩
    · rw [hmnt, Function.update_of_ne hne]
      exact hm'
    · obtain ⟨hwl, hwf⟩ := horg w hw
      refine ⟨?_, ?_, hwl, hwf⟩
      · intro he
        rw [he, hx] at hw
        cases hw
        rw [hxl] at hwl
        cases hwl
      · intro he
        rw [he, ho] at hw
        cases hw
        rw [hol] at hwl
        cases hwl
  have hslot : ∀ y i', t.node n = some y → y.mountId = some i' → i' = i := by
    intro y i' hy hi'
    obtain ⟨-, -, hs, -⟩ := hback n y hy
    rw [hs rfl] at hi'
    exact (Option.some.inj hi').symm
  have hti : t.mnt i = some ⟨pid, org, n, false⟩ := by
    rw [hmnt, Function.update_self]
  refine ⟨?_, ?_⟩
  · intro j y i' hy hi' hyf
    rcases eq_or_ne j n with rfl | hjn
    · rw [hslot y i' hy hi']
      exact ⟨_, hti, rfl, hself y hy hyf⟩
    · obtain ⟨z, m', hz, -, hzf, -, hr', -, hmt, hout⟩ := hold j y i' hy hi' hyf hjn
      refine ⟨m', hmt, hr', fun o' ho' => ?_⟩
      obtain ⟨w, hw, -, hfa, hlo⟩ := hback _ o' ho'
      obtain ⟨hn, hno, hwl, hwf⟩ := hout w hw
      rw [(hfa hn).2, hlo hn hno, ← hzf]
      exact ⟨hwl, hwf⟩
  · intro i₁ i₂ m₁ m₂ y₁ y₂ o' hm₁ hm₂ hy₁ hy₂ hi₁ hi₂ hf₁ hf₂ ho' heq
    obtain ⟨w, hw, -⟩ := hback _ o' ho'
    by_cases h₁ : m₁.root = n <;> by_cases h₂ : m₂.root = n
    · rw [h₁] at hy₁
      rw [h₂] at hy₂
      rw [hslot y₁ i₁ hy₁ hi₁, hslot y₂ i₂ hy₂ hi₂]
    · obtain ⟨z₂, m₂', -, -, -, -, -, -, ht₂, hout⟩ := hold _ y₂ i₂ hy₂ hi₂ hf₂ h₂
      rw [ht₂] at hm₂
      cases hm₂
      rw [h₁] at hy₁
      rw [hslot y₁ i₁ hy₁ hi₁, hti] at hm₁
      cases hm₁
      exact absurd heq.symm (hout w (heq ▸ hw)).2.1
    · obtain ⟨z₁, m₁', -, -, -, -, -, -, ht₁, hout⟩ := hold _ y₁ i₁ hy₁ hi₁ hf₁ h₁
      rw [ht₁] at hm₁
      cases hm₁
      rw [h₂] at hy₂
      rw [hslot y₂ i₂ hy₂ hi₂, hti] at hm₂
      cases hm₂
      exact absurd heq (hout w hw).2.1
    · obtain ⟨z₁, m₁', hz₁, hzi₁, hzf₁, hs₁, -, -, ht₁, -⟩ := hold _ y₁ i₁ hy₁ hi₁ hf₁ h₁
      obtain ⟨z₂, m₂', hz₂, hzi₂, hzf₂, hs₂, -, -, ht₂, -⟩ := hold _ y₂ i₂ hy₂ hi₂ hf₂ h₂
      rw [ht₁] at hm₁
      rw [ht₂] at hm₂
      cases hm₁
      cases hm₂
      exact h.apart i₁ i₂ m₁ m₂ z₁ z₂ w hs₁ hs₂ hz₁ hz₂ hzi₁ hzi₂ (hzf₁ ▸ hf₁) (hzf₂ ▸ hf₂) hw heq

/-- From `s` to `t` the node `n` has been mounted in the slot `i` over `org`, which is `o`. -/
structure Raised (K : ℕ → List ℕ) (s t : Vfsd) (pid n i org : ℕ) (o : Node) : Prop where
  forest : ∃ K', Forest K' t ∧ ∀ f, Trim (K f) (K' f)
  mnt : t.mnt = Function.update s.mnt i (some ⟨pid, org, n, false⟩)
  root : t.root = if o.father = 0 then n else s.root
  back : ∀ j y, t.node j = some y → ∃ z, s.node j = some z ∧
    (j = n → y.mountId = some i ∧ y.father = o.father) ∧ (j ≠ n → hull y = hull z ∧ y.father = z.father) ∧
    (j ≠ n → j ≠ org → y.loose = z.loose)
  covered : o.father ≠ 0 → ∀ o', t.node org = some o' → o'.loose = true ∧ o'.father = o.father
  forth : ∀ j z, s.node j = some z → ∃ y, t.node j = some y

/-- From `s` to `u` the slot `i` has been given to `n`, which is in no list yet. -/
structure Slotted (K : ℕ → List ℕ) (s u : Vfsd) (pid n i org : ℕ) : Prop where
  forest : Forest K u
  mnt : u.mnt = Function.update s.mnt i (some ⟨pid, org, n, false⟩)
  root : u.root = s.root
  back : ∀ j y, u.node j = some y → ∃ z, s.node j = some z ∧ (j = n → y.mountId = some i) ∧
    (j ≠ n → hull y = hull z) ∧ y.father = z.father ∧ y.loose = z.loose
  forth : ∀ j z, s.node j = some z → ∃ y, u.node j = some y

theorem Forest.slotted (hK : Forest K s) (pid i org : ℕ) (o : Node) : Slotted K s
    ({ s with mnt := Function.update s.mnt i (some ⟨pid, org, n, false⟩) }.modify n (.mounted o.info.name i)) pid n i org where
  forest := by
    have h' : Forest K { s with mnt := Function.update s.mnt i (some ⟨pid, org, n, false⟩) } :=
      hK.congr (fun _ => rfl) hK.root rfl
    exact h'.edit fun _ => rfl
  mnt := rfl
  root := rfl
  back j y hy := by
    rcases modify_cases _ _ _ hy with ⟨hj, hy⟩ | ⟨rfl, z, hz, rfl⟩
    · exact ⟨y, hy, fun h => absurd h hj, fun _ => rfl, rfl, rfl⟩
    · exact ⟨z, hz, fun _ => rfl, fun h => absurd rfl h, rfl, rfl⟩
  forth j z hz := by
    rw [modify_node, hz]
    exact ⟨_, rfl⟩

namespace Slotted
variable {pid i org : ℕ} {o : Node} (h : Slotted K s u pid n i org)
include h

theorem kept {j : ℕ} {z : Node} (hz : s.node j = some z) :
    ∃ y, u.node j = some y ∧ y.father = z.father ∧ y.loose = z.loose := by
  obtain ⟨y, hy⟩ := h.forth j z hz
  obtain ⟨z', hz', -, -, hfa, hlo⟩ := h.back j y hy
  rw [hz] at hz'
  cases hz'
  exact ⟨y, hy, hfa, hlo⟩

theorem up_eq : up u = up s := by
  funext j
  cases hz : s.node j with
  | none =>
    cases hy : u.node j with
    | none => simp only [up, hz, hy]
    | some y =>
      obtain ⟨z, hz', -⟩ := h.back j y hy
      rw [hz] at hz'
      cases hz'
  | some z =>
    obtain ⟨y, hy, hfa, -⟩ := h.kept hz
    simp only [up, hz, hy, hfa]

variable (hx : s.node n = some x) (hf : x.father = 0)
include hx hf

/-- Over the root of all. -/
theorem over_root (hof : o.father = 0) : Raised K s { u with root := n } pid n i org o := by
  obtain ⟨xu, hxu, -⟩ := h.kept hx
  have hK' : Forest K { u with root := n } := h.forest.congr (fun _ => rfl) ⟨xu, hxu⟩ rfl
  refine ⟨⟨K, hK', fun f => .refl (K f)⟩, h.mnt, (if_pos hof).symm, fun j y hy => ?back, fun hne => absurd hof hne, h.forth⟩
  case back =>
    obtain ⟨z, hz, h₁, h₂, h₃, h₄⟩ := h.back j y hy
    refine ⟨z, hz, fun hj => ⟨h₁ hj, ?_⟩, fun hj => ⟨h₂ hj, h₃⟩, fun _ _ => h₄⟩
    rw [hj, hx] at hz
    cases hz
    rw [h₃, hf, hof]

/-- Over a node in its list, whose place it takes. -/
theorem over_kid (ho : s.node org = some o) (hol : o.loose = false) (hof : o.father ≠ 0) (hon : org ≠ n)
    (hund : ¬Under (up s) org n) : Raised K s ((u.remove org).addNode o.father n) pid n i org o := by
  obtain ⟨xu, hxu, hxf, -⟩ := h.kept hx
  obtain ⟨ou, hou, houf, houl⟩ := h.kept ho
  have hofu : ou.father ≠ 0 := houf ▸ hof
  have hK₁ := h.forest.remove hou hofu (houl.trans hol)
  obtain ⟨hmnt₁, hroot₁, -⟩ := remove_frame u org
  obtain ⟨fz, hfz⟩ := h.forest.father org ou hou hofu
  obtain ⟨fx, hfx⟩ := remove_forth hou hfz
  rw [houf] at hfx
  obtain ⟨x₁, hx₁⟩ := remove_forth hou hxu
  obtain ⟨x₁', hx₁', hx₁f, -, -, -⟩ := remove_back hou hx₁
  rw [hxu] at hx₁'
  cases hx₁'
  have hx₁0 : x₁.father = 0 := hx₁f.trans (hxf.trans hf)
  have hnot : ¬Under (up (u.remove org)) o.father n := by
    rw [up_remove hou, h.up_eq]
    exact fun hu => hund (.go (Vfs.up_eq ho hof) hu)
  have hK₂ := hK₁.addNode hx₁ hfx (.inl hx₁0) (.inr ⟨hx₁0, hnot⟩)
  have hfree : ∀ f, n ∉ K f := by
    intro f hmem
    obtain ⟨y, hy, hyf, -⟩ := h.forest.kid f n hmem
    rw [hxu] at hy
    cases hy
    have hlive := h.forest.dead f
    rw [← hyf, hxf, hf, h.forest.null] at hlive
    rw [← hyf, hxf, hf, hlive rfl] at hmem
    cases hmem
  refine ⟨⟨_, hK₂, fun f => ?forest⟩, ?mnt, ?root, fun j y hy => ?back, fun _ o' ho' => ?covered, fun j z hz => ?forth⟩
  case forest =>
    rcases eq_or_ne f o.father with rfl | hfo
    · rw [Function.update_self, houf, Function.update_self]
      exact .snoc List.erase_sublist (hfree _)
    · rw [Function.update_of_ne hfo, houf, Function.update_of_ne hfo]
      exact .refl (K f)
  case mnt =>
    rw [(addNode_frame _ _ _).1, hmnt₁, h.mnt]
  case root =>
    rw [(addNode_frame _ _ _).2.1, hroot₁, h.root, if_neg hof]
  case back =>
    obtain ⟨z₂, hz₂, hmi₂, hself, hother⟩ := addNode_back hfx hy
    obtain ⟨z₁, hz₁, hfa₁, hmi₁, -, hlo₁⟩ := remove_back hou hz₂
    obtain ⟨z, hz, h₁, h₂, h₃, h₄⟩ := h.back j z₁ hz₁
    refine ⟨z, hz, fun hj => ⟨?_, (hself hj).1⟩, fun hj => ⟨hmi₂.trans (hmi₁.trans (h₂ hj)), ?_⟩, fun hj hjo => ?_⟩
    · exact (hull_mountId hmi₂).trans ((hull_mountId hmi₁).trans (h₁ hj))
    · exact (hother hj).1.trans (hfa₁.trans h₃)
    · exact (hother hj).2.trans ((hlo₁ hjo).trans h₄)
  case covered =>
    obtain ⟨w₂, hw₂, -, -, hother⟩ := addNode_back hfx ho'
    obtain ⟨w₁, hw₁, hwf, -, hwl, -⟩ := remove_back hou hw₂
    rw [hou] at hw₁
    cases hw₁
    rw [(hother hon).1, (hother hon).2, hwl rfl, hwf, houf]
    exact ⟨rfl, rfl⟩
  case forth =>
    obtain ⟨z₁, hz₁⟩ := h.forth j z hz
    obtain ⟨z₂, hz₂⟩ := remove_forth hou hz₁
    rw [addNode_node _ hfx, hz₂]
    exact ⟨_, rfl⟩

end Slotted

/-- A mount over a node that is in its list, and not below what is mounted. -/
theorem Forest.raised {pid org : ℕ} {o : Node} (hK : Forest K s) (ho : s.node org = some o)
    (hol : o.loose = false) (hund : ¬Under (up s) org n) (hm : s.mount pid org n = some t) :
    ∃ x i, s.node n = some x ∧ x.mountId = none ∧ x.father = 0 ∧ s.mnt i = none ∧
      (o.father = 0 → org = s.root) ∧ Raised K s t pid n i org o := by
  obtain ⟨o', x, i, ho', hx, hon, hmi, hf, -, htop, hi, rfl⟩ := mount_cases hm
  rw [ho] at ho'
  cases ho'
  refine ⟨x, i, hx, hmi, hf, (getFreeMountId_spec hi).2, htop, ?_⟩
  dsimp only
  have hu := hK.slotted (n := n) pid i org o
  split
  · rename_i hof
    exact hu.over_root hx hf hof
  · rename_i hof
    exact hu.over_kid hx hf ho hol hof hon hund

theorem Grown.mount {pid org : ℕ} {o : Node} (h : Grown s) (ho : s.node org = some o) (hol : o.loose = false)
    (hund : ¬Under (up s) org n) (hm : s.mount pid org n = some t) : Grown t := by
  obtain ⟨K, hK, hd⟩ := h
  obtain ⟨x, i, hx, -, hf, hfree, -, hr⟩ := hK.raised ho hol hund hm
  obtain ⟨K', hK', -⟩ := hr.forest
  refine ⟨K', hK', hd.dock hK hx hf ho hol hfree hr.mnt (fun j y hy => ?_) fun y hy hyf => ?_⟩
  · obtain ⟨z, hz, hself, hother, hlo⟩ := hr.back j y hy
    exact ⟨z, hz, fun hj => (hself hj).1, fun hj => ⟨hull_mountId (hother hj).1, (hother hj).2⟩, hlo⟩
  · obtain ⟨z, hz, hself, -⟩ := hr.back n y hy
    obtain ⟨-, hyo⟩ := hself rfl
    rw [hyo]
    exact hr.covered (hyo ▸ hyf)

end

end EwokOS.Vfs
