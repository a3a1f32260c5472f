import EwokOS.Vfs.Rules

/-! What keeps the tree of `vfsd` a tree, request by request.

    A request is orderly when it does not take a loose node out of a list a second time: nothing loose is
    at or below a node that is deleted, a mount covers a node that is in its list and not below what is
    mounted, and a root that is unmounted is not covered itself. -/

namespace EwokOS.Vfs

open Schemes Vfsd

section
variable {K : ℕ → List ℕ} {s t : Vfsd} {n : ℕ}

/-! ### New nodes -/

/-- The id the next node gets is free, and nothing mounted covers a node of that id. -/
structure Fresh (s : Vfsd) : Prop where
  id : s.node s.allocId = none
  org : ∀ i m, s.mnt i = some m → m.org ≠ s.allocId

theorem newNode_frame {x : Node} {u : Vfsd × ℕ} (h : s.newNode x = some u) :
    u.1.mnt = s.mnt ∧ u.1.root = s.root := by
  unfold newNode at h
  split at h
  · cases h
  · cases h
    exact ⟨rfl, rfl⟩

theorem newNode_cases {x : Node} {u : Vfsd × ℕ} (h : s.newNode x = some u) {j : ℕ} {y : Node}
    (hy : u.1.node j = some y) : (j = s.allocId ∧ y = x) ∨ (j ≠ s.allocId ∧ s.node j = some y) := by
  rw [(newNode_eq h).2.1] at hy
  rcases eq_or_ne j s.allocId with rfl | hj
  · rw [Function.update_self] at hy
    exact .inl ⟨rfl, (Option.some.inj hy).symm⟩
  · rw [Function.update_of_ne hj] at hy
    exact .inr ⟨hj, hy⟩

/-- A node in no list. -/
theorem Grown.newNode {x : Node} {u : Vfsd × ℕ} (h : Grown s) (hf : Fresh s) (hu : s.newNode x = some u)
    (hx : shape x = (0, 0, 0, 0, 0, 0, false)) : Grown u.1 := by
  obtain ⟨K, hK, hd⟩ := h
  refine ⟨K, hK.newNode hf.id hu hx, hd.carry (newNode_frame hu).1 fun j y hy => ?_⟩
  rcases newNode_cases hu hy with ⟨rfl, rfl⟩ | ⟨-, hy⟩
  · exact .inr ⟨.inr (congrArg Prod.fst hx), hf.org⟩
  · exact .inl ⟨y, hy, rfl, rfl, rfl⟩

/-- A new node at the end of the list of `dir`. -/
theorem Forest.newKid {dir : ℕ} {x f : Node} {u : Vfsd × ℕ} (hK : Forest K s) (hf : Fresh s)
    (hx : shape x = (0, 0, 0, 0, 0, 0, false)) (hu : s.newNode x = some u) (hdir : s.node dir = some f) :
    Forest (Function.update K dir (K dir ++ [u.2])) (u.1.addNode dir u.2) ∧ ∀ f, u.2 ∉ K f := by
  have hK₁ := hK.newNode hf.id hu hx
  obtain ⟨hn, hnode, -⟩ := newNode_eq hu
  have hdn : dir ≠ s.allocId := by
    rintro rfl
    rw [hf.id] at hdir
    cases hdir
  have hnx : u.1.node u.2 = some x := by rw [hnode, hn, Function.update_self]
  have hdf : u.1.node dir = some f := by rw [hnode, Function.update_of_ne hdn, hdir]
  have hxf : x.father = 0 := congrArg Prod.fst hx
  -- nothing points to a node that has just been made
  have hleaf : ∀ j, up u.1 j ≠ some u.2 := by
    intro j hj
    cases hy : u.1.node j with
    | none => simp [up, hy] at hj
    | some y =>
      simp only [up, hy, Option.ite_none_left_eq_some, Option.some.injEq] at hj
      rcases newNode_cases hu hy with ⟨-, rfl⟩ | ⟨-, hy⟩
      · exact hj.1 hxf
      · obtain ⟨z, hz⟩ := hK.father j y hy hj.1
        rw [hj.2, hn, hf.id] at hz
        cases hz
  have hnot : ¬Under (up u.1) dir u.2 := fun hund => hdn ((hund.leaf hleaf).trans hn)
  refine ⟨hK₁.addNode hnx hdf (.inl hxf) (.inr ⟨hxf, hnot⟩), fun f hmem => ?_⟩
  obtain ⟨y, hy, -⟩ := hK.kid f u.2 hmem
  rw [hn, hf.id] at hy
  cases hy

/-- A node at the end of the list of `dir`, or in none. -/
theorem Forest.create {dir : ℕ} {x : Node} (hK : Forest K s) (hf : Fresh s)
    (hx : shape x = (0, 0, 0, 0, 0, 0, false)) (hdir : dir ≠ 0 → ∃ f, s.node dir = some f) :
    ∃ K', Forest K' (s.create dir x) ∧ ∀ f, Trim (K f) (K' f) := by
  unfold Vfsd.create
  split
  · exact ⟨K, hK, fun f => .refl (K f)⟩
  rename_i t n hu
  split
  · exact ⟨K, hK.newNode hf.id hu hx, fun f => .refl (K f)⟩
  rename_i hd0
  obtain ⟨f, hf'⟩ := hdir hd0
  obtain ⟨hnew, hnot⟩ := hK.newKid hf hx hu hf'
  refine ⟨_, hnew, fun f => ?_⟩
  rcases eq_or_ne f dir with rfl | hfd
  · rw [Function.update_self]
    exact .snoc (List.Sublist.refl _) (hnot f)
  · rw [Function.update_of_ne hfd]
    exact .refl (K f)

theorem newNode_live {x f : Node} {u : Vfsd × ℕ} {j : ℕ} (hu : s.newNode x = some u) (hj : s.node j = some f) :
    ∃ f', u.1.node j = some f' := by
  rw [(newNode_eq hu).2.1]
  rcases eq_or_ne j s.allocId with rfl | hne
  · exact ⟨x, Function.update_self ..⟩
  · exact ⟨f, by rw [Function.update_of_ne hne, hj]⟩

theorem create_live (dir : ℕ) (x : Node) {j : ℕ} {f : Node} (hj : s.node j = some f) :
    ∃ f', (s.create dir x).node j = some f' := by
  unfold Vfsd.create
  split
  · exact ⟨f, hj⟩
  rename_i t n hu
  obtain ⟨f₁, ht⟩ := newNode_live hu hj
  split
  · exact ⟨f₁, ht⟩
  · cases hd : t.node dir with
    | some fx =>
      rw [addNode_node t hd, ht]
      exact ⟨_, rfl⟩
    | none =>
      unfold Vfsd.addNode
      dsimp only
      rw [show (t.modify n _).node dir = none from (modify_none _ _ _).mpr hd, modify_node, ht]
      exact ⟨_, rfl⟩

/-- What a node was before another one was made. -/
theorem create_back {dir j : ℕ} {x y : Node} (hdir : dir ≠ 0 → ∃ f, s.node dir = some f)
    (hy : (s.create dir x).node j = some y) : (j = s.allocId ∧ hull y = hull x) ∨
    ∃ z, s.node j = some z ∧ y.father = z.father ∧ y.loose = z.loose ∧ hull y = hull z ∧ y.info = z.info := by
  unfold Vfsd.create at hy
  split at hy
  · exact .inr ⟨y, hy, rfl, rfl, rfl, rfl⟩
  rename_i t n hu
  split at hy
  · rcases newNode_cases hu hy with ⟨hj, rfl⟩ | ⟨-, hy⟩
    · exact .inl ⟨hj, rfl⟩
    · exact .inr ⟨y, hy, rfl, rfl, rfl, rfl⟩
  rename_i hd0
  obtain ⟨f, hf⟩ := hdir hd0
  obtain ⟨f₁, hdf⟩ := newNode_live hu hf
  have hn : n = s.allocId := (newNode_eq hu).1
  rw [addNode_node t hdf] at hy
  obtain ⟨z, hz, rfl⟩ := Option.map_eq_some_iff.mp hy
  rcases newNode_cases hu hz with ⟨hj, rfl⟩ | ⟨hj, hz⟩
  · exact .inl ⟨hj, rfl⟩
  · exact .inr ⟨z, hz, by simp [linkedTo, hn, hj], by simp [linkedTo, hn, hj], rfl, rfl⟩

theorem create_frame (s : Vfsd) (dir : ℕ) (x : Node) :
    (s.create dir x).mnt = s.mnt ∧ (s.create dir x).root = s.root := by
  unfold Vfsd.create
  split
  · exact ⟨rfl, rfl⟩
  rename_i t n hu
  have ht := newNode_frame hu
  split
  · exact ht
  · exact ⟨(addNode_frame _ _ _).1.trans ht.1, (addNode_frame _ _ _).2.1.trans ht.2⟩

theorem Grown.create {dir : ℕ} {x : Node} (h : Grown s) (hf : Fresh s)
    (hx : shape x = (0, 0, 0, 0, 0, 0, false)) (hmi : x.mountId = none)
    (hdir : dir ≠ 0 → ∃ f, s.node dir = some f) : Grown (s.create dir x) := by
  obtain ⟨K, hK, hd⟩ := h
  obtain ⟨K', hK', -⟩ := hK.create hf hx hdir
  refine ⟨K', hK', hd.carry (create_frame s dir x).1 fun j y hy => ?_⟩
  rcases create_back hdir hy with ⟨rfl, hh⟩ | ⟨z, hz, hfa, hlo, hh, -⟩
  · exact .inr ⟨.inl ((hull_mountId hh).trans hmi), hf.org⟩
  · exact .inl ⟨z, hz, hull_mountId hh, hfa, hlo⟩

/-- What an orderly request is asked for. -/
def treeRules : Rules where
  make := Fresh
  del := Clear
  lift := UmountOk
  cover s org n := ∀ o, s.node org = some o → o.loose = false ∧ ¬Under (up s) org n

def Orderly : Vfsd → Op → Prop := treeRules.Follows

/-! ### Slots of processes that have gone -/

/-- The slots may be marked, and those be cleared that no root belongs to. -/
theorem Docked.slots {g : ℕ → Option Mnt} (h : Docked s)
    (hg : ∀ i m, g i = some m → ∃ m₀, s.mnt i = some m₀ ∧ m.root = m₀.root ∧ m.org = m₀.org)
    (hkeep : ∀ i m₀ x, s.mnt i = some m₀ → s.node m₀.root = some x → x.mountId = some i → ∃ m, g i = some m) :
    Docked { s with mnt := g } := by
  refine ⟨?_, ?_⟩
  · intro n x i hx hi hf
    obtain ⟨m₀, hm₀, hr, horg⟩ := h.slot n x i hx hi hf
    obtain ⟨m, hm⟩ := hkeep i m₀ x hm₀ (hr ▸ hx) hi
    obtain ⟨m₁, hm₁, hr', ho'⟩ := hg i m hm
    rw [hm₀] at hm₁
    cases hm₁
    exact ⟨m, hm, hr'.trans hr, ho' ▸ horg⟩
  · intro i j m m' x x' o hm hm' hx hx' hi hj hf hf' ho heq
    obtain ⟨m₁, hm₁, hr₁, ho₁⟩ := hg i m hm
    obtain ⟨m₂, hm₂, hr₂, ho₂⟩ := hg j m' hm'
    exact h.apart i j m₁ m₂ x x' o hm₁ hm₂ (hr₁ ▸ hx) (hr₂ ▸ hx') hi hj hf hf' (ho₁ ▸ ho) (ho₁ ▸ ho₂ ▸ heq)

theorem Grown.slots {g : ℕ → Option Mnt} (h : Grown s)
    (hg : ∀ i m, g i = some m → ∃ m₀, s.mnt i = some m₀ ∧ m.root = m₀.root ∧ m.org = m₀.org)
    (hkeep : ∀ i m₀ x, s.mnt i = some m₀ → s.node m₀.root = some x → x.mountId = some i → ∃ m, g i = some m) :
    Grown { s with mnt := g } := by
  obtain ⟨K, hK, hd⟩ := h
  exact ⟨K, hK.congr (fun _ => rfl) hK.root rfl, hd.slots hg hkeep⟩

/-- An umount that is not put off. -/
theorem Grown.detach {x : Node} (h : Grown s) (hok : x.refs = 0 → x.refsW = 0 → UmountOk s n) :
    Grown (s.detach n x) := by
  unfold Vfsd.detach
  split
  · have hsame : Same s (s.modify n fun x => { x with pending := true }) := (Same.refl s).modify fun _ => rfl
    exact hsame.grown h
  · exact h.umountNow (hok (by omega) (by omega))

theorem Grown.marked {i : ℕ} {m : Mnt} (h : Grown s) (hm : s.mnt i = some m) : Grown (marked s i m) := by
  refine h.slots (fun j m' hm' => ?_) fun j m₀ x hm₀ _ _ => ?_
  · rcases eq_or_ne j i with rfl | hj
    · rw [Function.update_self] at hm'
      cases hm'
      exact ⟨m, hm, rfl, rfl⟩
    · rw [Function.update_of_ne hj] at hm'
      exact ⟨m', hm', rfl, rfl⟩
  · rcases eq_or_ne j i with rfl | hj
    · exact ⟨_, Function.update_self ..⟩
    · exact ⟨m₀, by rw [Function.update_of_ne hj, hm₀]⟩

theorem UmountOk.marked {i : ℕ} {m : Mnt} {x : Node} (h : UmountOk s m.root) (hm : s.mnt i = some m)
    (hx : s.node m.root = some x) (hi : x.mountId = some i) : UmountOk (marked s i m) m.root := by
  intro y j m' o hy hj hm' ho
  change s.node m.root = some y at hy
  rw [hx] at hy
  cases hy
  rw [hi] at hj
  cases hj
  change Function.update s.mnt i _ i = some m' at hm'
  rw [Function.update_self] at hm'
  cases hm'
  exact h x i m o hx hi hm ho

theorem Grown.umountSlot {pid i : ℕ} (h : Grown s) (hok : treeRules.SlotOk pid s i) : Grown (umountSlot pid s i) := by
  rcases umountSlot_cases (s := s) pid i with he | ⟨m, hm, hpid, ⟨x, hx, hi, he⟩ | ⟨hroot, he⟩⟩
  · rw [he]
    exact h
  · rw [he]
    refine (h.marked hm).detach fun hr hw => ?_
    exact (hok m x hm hpid hx hi hr hw).marked hm hx hi
  · -- a slot that no root belongs to is cleared
    rw [he]
    refine h.slots (fun j m' hm' => ?_) fun j m₀ x hm₀ hx hxi => ?_
    · rcases eq_or_ne j i with rfl | hj
      · rw [Function.update_self] at hm'
        cases hm'
      · rw [Function.update_of_ne hj] at hm'
        exact ⟨m', hm', rfl, rfl⟩
    · rcases eq_or_ne j i with rfl | hj
      · rw [hm] at hm₀
        cases hm₀
        exact absurd hxi (hroot x hx)
      · exact ⟨m₀, by rw [Function.update_of_ne hj, hm₀]⟩

/-! ### The last close -/

theorem Same.clear (h : Same s t) (hc : Clear s n) : Clear t n := by
  intro m y hy hm
  obtain ⟨x, hx, he⟩ := h.back hy
  rw [h.up]
  exact hc m x hx (by rw [(key_eq he).2.1, ← h.root]; exact hm)

theorem Same.umountOk (h : Same s t) (hok : UmountOk s n) : UmountOk t n := by
  intro x i m o hx hi hm ho
  obtain ⟨x', hx', hex⟩ := h.back hx
  obtain ⟨o', ho', heo⟩ := h.back ho
  obtain ⟨hfx, hlx, hix⟩ := key_eq hex
  rw [h.mnt] at hm
  obtain ⟨hr, hatt⟩ := hok x' i m o' hx' (hix.trans hi) hm ho'
  refine ⟨hr, fun hf => ?_⟩
  obtain ⟨hl, hclear⟩ := hatt (hfx ▸ hf)
  refine ⟨hlx ▸ hl, fun hoi j y hy hj => ?_⟩
  obtain ⟨z, hz, hez⟩ := h.back hy
  rw [h.up]
  refine hclear ((key_eq heo).2.2.trans hoi) j z hz ?_
  rw [(key_eq hez).2.1, ← h.root]
  exact hj

theorem Grown.closeFd {p k : ℕ} (h : Grown s) (hok : treeRules.CloseOk p s k) : Grown (closeFd p s k) := by
  rcases closeFd_cases (s := s) p k with he | ⟨f, hf, hcase⟩
  · rw [he]
    exact h
  have hsame := same_dropped (s := s) p k f
  have ht := hsame.grown h
  rcases hcase with ⟨-, he⟩ | ⟨x, y, hx, -, -, -, ⟨ha, hr, he⟩ | ⟨ha, hmi, hp, hr, he⟩ | ⟨-, he⟩⟩
  · rw [he]
    exact ht
  · rw [he]
    exact ht.delNode (hsame.clear ((hok f x hf hx hr).1 ha))
  · rw [he]
    exact ht.umountNow (hsame.umountOk ((hok f x hf hx hr).2 ha hmi hp))
  · rw [he]
    exact ht

/-! ### Runs -/

theorem Fresh.calm (h : Fresh s) (hc : Calm s t) : Fresh t := by
  have hid : t.allocId = s.allocId := by
    unfold allocId
    rw [hc.next]
  refine ⟨?_, ?_⟩
  · have hn := hc.node s.allocId
    rw [h.id] at hn
    rw [hid]
    exact Option.map_eq_none_iff.mp hn
  · rw [hc.mnt, hid]
    exact h.org

theorem Grown.edit {f : Node → Node} (h : Grown s) (hf : ∀ x, key (f x) = key x) : Grown (s.modify n f) :=
  ((Same.refl s).modify hf).grown h

theorem keeps_grown : Keeps treeRules Grown where
  calm _ _ h hc := hc.grown h
  again _ _ h hc := h.calm hc
  kernel s _ _ h _ := Same.grown (s := s) ⟨fun _ => rfl, rfl, rfl, rfl⟩ h
  loaded _ _ h := h.edit fun x => by
    dsimp only
    split <;> rfl
  create _ _ _ h hf hx hdir :=
    ⟨h.create hf (congrArg Prod.fst hx) (congrArg (fun k => k.2.1) hx) hdir, fun _ _ hj => create_live _ _ hj⟩
  copy _ _ _ _ _ h hf _ hu := h.newNode hf hu rfl
  data _ _ _ _ _ h _ _ _ _ := h.edit fun _ => rfl
  attrs _ _ _ _ _ _ h hc _ _ _ _ := (hc.grown h).edit fun _ => rfl
  trunc _ _ _ _ _ _ h hc _ _ _ _ := (hc.grown h).edit fun _ => rfl
  delNode _ _ _ _ h _ _ _ hc := h.delNode hc
  mount s t pid org n o h _ ho _ hc hm := by
    obtain ⟨hl, hund⟩ := hc o ho
    exact h.mount ho hl hund hm
  umount _ _ _ _ h _ _ _ _ hok := h.detach hok
  umountSlot _ _ _ h hok := h.umountSlot hok
  closeFd _ _ _ h hok := h.closeFd hok

theorem grown_init (max : ℕ) (task : ℕ → Task) : Grown (init max task) := by
  have hnode : ∀ n x, (init max task).node n = some x → n = 1 ∧ shape x = (0, 0, 0, 0, 0, 0, false) ∧
      x.mountId = none := by
    intro n x hx
    simp only [init, Function.update_apply] at hx
    split at hx
    · cases hx
      exact ⟨by assumption, rfl, rfl⟩
    · cases hx
  have hup : ∀ n, up (init max task) n = none := by
    intro n
    cases hx : (init max task).node n with
    | none => simp only [up, hx]
    | some x =>
      have hf : x.father = 0 := congrArg Prod.fst (hnode n x hx).2.1
      simp only [up, hx, hf, if_true]
  refine ⟨fun _ => [], ⟨rfl, fun _ _ => rfl, fun _ => trivial, ?_, fun _ => .nil, ?_, ?_, ?_, ?_, ?_, ?_, ?_, ?_⟩,
    ⟨?_, ?_⟩⟩
  · intro n x hx
    have hs := (hnode n x hx).2.1
    simp only [shape, Prod.mk.injEq] at hs
    exact ⟨hs.2.1, hs.2.2.1, hs.2.2.2.2.2.1⟩
  · rintro n c ⟨⟩
  · intro n x hx hf
    exact absurd (congrArg Prod.fst (hnode n x hx).2.1) hf
  · intro n x hx _
    have hs := (hnode n x hx).2.1
    simp only [shape, Prod.mk.injEq] at hs
    exact ⟨hs.2.2.2.1, hs.2.2.2.2.1⟩
  · intro n x hx hf
    exact absurd (congrArg Prod.fst (hnode n x hx).2.1) hf
  · intro n x hx hl
    have hs := (hnode n x hx).2.1
    simp only [shape, Prod.mk.injEq] at hs
    rw [hs.2.2.2.2.2.2] at hl
    cases hl
  · exact fun n => .top (hup n)
  · exact ⟨_, rfl⟩
  · refine ⟨[1], List.nodup_singleton 1, fun n => ?_, rfl⟩
    simp only [List.mem_singleton, init, Function.update_apply]
    split
    · simp [*]
    · simp [*]
  · intro n x i hx hi
    rw [(hnode n x hx).2.2] at hi
    cases hi
  · rintro i j m m' x x' o ⟨⟩

end

/-- In every state of every run whose requests are orderly the nodes form a tree: some lists of kids fit
    the links, the fathers and the counts. -/
theorem tree_stays {max : ℕ} {task : ℕ → Task} {s : Vfsd}
    (h : Reach Vfsd.step Orderly (init max task) s) : ∃ K, Forest K s := by
  obtain ⟨K, hK, -⟩ := h.inv (I := Grown) (grown_init max task) fun _ _ _ hs hok ht => keeps_grown.step hs hok ht
  exact ⟨K, hK⟩

def someDir : Info := ⟨['d'], ⟨false, .dir⟩, 0, 0, 0o755, 0, 0, false⟩

/-- The node 2 in the list of the root, and the node 3 in none. -/
def twoDirs : Vfsd := ((init 8 someTasks).create 1 (.fresh someDir)).create 0 (.fresh someDir)

/-- The driver has mounted 3 over 2. -/
def someMounted : Vfsd := twoDirs.doMount 1 2 3

theorem reach_someMounted {r : Rules} (hsend : r.sender 1) (hmake : r.make = Fresh)
    (hcover : r.cover = treeRules.cover) : Reach Vfsd.step r.Follows (init 8 someTasks) someMounted := by
  have hnone : ∀ i m, (init 8 someTasks).mnt i = some m → False := by rintro i m ⟨⟩
  have h₁ : Reach Vfsd.step r.Follows (init 8 someTasks) ((init 8 someTasks).create 1 (.fresh someDir)) := by
    refine Reach.next (o := .newNode 1 someDir 1 true false false) .start ?_ (by rfl)
    refine ⟨hsend, ?_, fun m x _ _ hw => absurd hw (by decide)⟩
    rw [hmake]
    exact ⟨rfl, fun i m hm => (hnone i m hm).elim⟩
  have h₂ : Reach Vfsd.step r.Follows (init 8 someTasks) twoDirs := by
    refine Reach.next (o := .newNode 1 someDir 0 true false false) h₁ ?_ (by rfl)
    refine ⟨hsend, ?_, fun m x _ _ hw => absurd hw (by decide)⟩
    rw [hmake]
    exact ⟨rfl, fun i m hm => (hnone i m hm).elim⟩
  have hund : ¬Under (up twoDirs) 2 3 := by
    intro hu
    rcases hu.cases_up with he | ⟨c, hc, hu⟩
    · cases he
    · cases hc
      rcases hu.cases_up with he | ⟨d, hd, -⟩
      · cases he
      · cases hd
  refine Reach.next (o := .mount 1 2 3) h₂ ⟨hsend, fun _ _ _ _ => ?_⟩ rfl
  rw [hcover]
  intro o ho
  cases ho
  exact ⟨rfl, hund⟩

/-- The mounted node has the place of the other one. -/
theorem tree_stays_mounted : (someMounted.node 1).map (fun x => (x.first, x.kids)) = some (3, 1) ∧
    ∃ K, Forest K someMounted :=
  ⟨by decide +kernel, tree_stays (reach_someMounted trivial rfl rfl)⟩

/-- The owner of 2 deletes it: the root counts no kid any more, and its list still has 3. -/
theorem covered_deleted : ∃ s, Reach Vfsd.step Free (init 8 someTasks) s ∧ ¬∃ K, Forest K s := by
  have hrun : ((runOps Vfsd.step (init 8 someTasks) [
      .newNode 1 someDir 1 true false false,
      .newNode 1 someDir 0 true false false,
      .mount 1 2 3,
      .delNode 1 2]).bind fun s => (s.node 1).map fun x => (x.first, x.kids)) = some (3, 0) := by
    decide +kernel
  obtain ⟨s, hs, hx⟩ := Option.bind_eq_some_iff.mp hrun
  obtain ⟨x, hx, he⟩ := Option.map_eq_some_iff.mp hx
  obtain ⟨hfirst, hkids⟩ := Prod.mk.inj he
  refine ⟨s, reach_of_runOps hs, ?_⟩
  rintro ⟨K, hK⟩
  obtain ⟨hhead, -, hlen⟩ := hK.head 1 x hx
  have hnil : K 1 = [] := List.length_eq_zero_iff.mp (by omega)
  rw [hnil, hfirst] at hhead
  cases hhead

end EwokOS.Vfs
