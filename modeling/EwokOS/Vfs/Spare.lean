import EwokOS.Vfs.Path
import EwokOS.Vfs.Private
import EwokOS.Vfs.TreeRun

/-! What a request leaves alone of a node: the node, the line of nodes above it, and the way down to it.

    Whether a process may touch a node is read off the node and the one above it, and whose mount it
    belongs to off the first mounted root on the line; a path to it is looked up in the lists of the line.
    So a request that spares the line cannot be followed by one that harms the node. -/

namespace EwokOS.Vfs

open Schemes Vfsd

/-- What decides who may do what with a node, and where it is found. -/
def badge (i : Info) : List Char × ℕ × ℕ × ℕ := (i.name, i.uid, i.gid, i.mode)

/-- What is told of a node, but for whether its kids are loaded. -/
def face (i : Info) : List Char × FsType × ℕ × ℕ × ℕ × ℕ × ℕ :=
  (i.name, i.type, i.uid, i.gid, i.mode, i.size, i.data)

theorem badge_name {i j : Info} (h : badge i = badge j) : i.name = j.name := congrArg Prod.fst h

/-- From `s` to `t` neither `n` nor its line has been touched. A slot of the line may have been given
    back. -/
structure Spares (n : ℕ) (s t : Vfsd) : Prop where
  node : ∀ a x, Under (up s) n a → s.node a = some x → ∃ y, t.node a = some y ∧ y.father = x.father ∧
    (x.loose = false → y.loose = false) ∧ y.mountId = x.mountId ∧ badge y.info = badge x.info
  mnt : ∀ a x i, Under (up s) n a → s.node a = some x → x.mountId = some i →
    (t.mnt i).map Mnt.pid = (s.mnt i).map Mnt.pid ∨ t.mnt i = none
  top : ∀ a, Under (up s) n a → Under (up s) s.root a → up s a = none → Under (up t) t.root a
  find : ∀ f c name, Under (up s) n c → s.findKidRaw f name = some c → t.findKidRaw f name = some c
  self : ∀ x y, s.node n = some x → t.node n = some y → face y.info = face x.info

section
variable {K K' : ℕ → List ℕ} {s t u : Vfsd} {n : ℕ}

/-- Everything above a node is there. -/
theorem Forest.line (h : Forest K s) {x : Node} (hx : s.node n = some x) {a : ℕ} (hu : Under (up s) n a) :
    ∃ y, s.node a = some y := by
  induction hu generalizing x with
  | self a => exact ⟨x, hx⟩
  | @go a b c hab _ ih =>
    simp only [up, hx, Option.ite_none_left_eq_some, Option.some.injEq] at hab
    obtain ⟨y, hy⟩ := h.father a x hx hab.1
    exact ih (hab.2 ▸ hy)

namespace Spares

/-- No pointer of the line has changed. -/
theorem up (h : Spares n s t) (hK : Forest K s) {x : Node} (hx : s.node n = some x) {a : ℕ}
    (hu : Under (Vfs.up s) n a) : Vfs.up t a = Vfs.up s a := by
  obtain ⟨y, hy⟩ := hK.line hx hu
  obtain ⟨z, hz, hf, -⟩ := h.node a y hu hy
  simp only [Vfs.up, hy, hz, hf]

theorem under (h : Spares n s t) (hK : Forest K s) {x : Node} (hx : s.node n = some x) {a : ℕ} :
    Under (Vfs.up t) n a ↔ Under (Vfs.up s) n a :=
  ⟨fun hu => hu.of_congr fun _ hb => h.up hK hx hb, fun hu => hu.congr fun _ hb _ => h.up hK hx hb⟩

theorem trans (h : Spares n s t) (h' : Spares n t u) (hK : Forest K s) {x : Node} (hx : s.node n = some x) :
    Spares n s u := by
  have hund : ∀ {a}, Under (Vfs.up s) n a → Under (Vfs.up t) n a := (h.under hK hx).mpr
  refine ⟨fun a x hu hx => ?_, fun a x i hu hx hi => ?_, fun a hu hr ha => ?_, fun f c name hc hf => ?_, fun x z hx hz => ?_⟩
  · obtain ⟨y, hy, hf, hl, hm, hb⟩ := h.node a x hu hx
    obtain ⟨z, hz, hf', hl', hm', hb'⟩ := h'.node a y (hund hu) hy
    exact ⟨z, hz, hf'.trans hf, fun hx => hl' (hl hx), hm'.trans hm, hb'.trans hb⟩
  · obtain ⟨y, hy, -, -, hm, -⟩ := h.node a x hu hx
    rcases h'.mnt a y i (hund hu) hy (hm.trans hi) with he | he
    · rcases h.mnt a x i hu hx hi with he' | he'
      · exact .inl (he.trans he')
      · rw [he', Option.map_none, Option.map_eq_none_iff] at he
        exact .inr he
    · exact .inr he
  · exact h'.top a (hund hu) (h.top a hu hr ha) ((h.up hK hx hu).trans ha)
  · exact h'.find f c name (hund hc) (h.find f c name hc hf)
  · obtain ⟨y, hy, -⟩ := h.node n x (.self n) hx
    exact (h'.self y z hy hz).trans (h.self x y hx hy)

/-- The lists of the line hold what they held, perhaps less, perhaps with more at the end. -/
theorem of_lists (hK : Forest K s) (hK' : Forest K' t)
    (hnode : ∀ a x, Under (Vfs.up s) n a → s.node a = some x → ∃ y, t.node a = some y ∧ y.father = x.father ∧
      (x.loose = false → y.loose = false) ∧ y.mountId = x.mountId ∧ badge y.info = badge x.info)
    (hmnt : ∀ a x i, Under (Vfs.up s) n a → s.node a = some x → x.mountId = some i →
      (t.mnt i).map Mnt.pid = (s.mnt i).map Mnt.pid ∨ t.mnt i = none)
    (htop : ∀ a, Under (Vfs.up s) n a → Under (Vfs.up s) s.root a → Vfs.up s a = none → Under (Vfs.up t) t.root a)
    (hself : ∀ x y, s.node n = some x → t.node n = some y → face y.info = face x.info)
    (htrim : ∀ f, Under (Vfs.up s) n f → Trim (K f) (K' f))
    (hname : ∀ d x z, s.node d = some x → x.father ≠ 0 → t.node d = some z → z.info.name = x.info.name ∨
      ∀ a w, Under (Vfs.up s) n a → s.node a = some w → w.father = x.father → w.info.name ≠ z.info.name) :
    Spares n s t := by
  refine ⟨hnode, hmnt, htop, fun f c name hc hf => ?_, hself⟩
  obtain ⟨x, hx, hn, hfa, hlo, hup⟩ := hK.found hf
  obtain ⟨y, hy, hfa', hlo', -, hb⟩ := hnode c x hc hx
  have hline : Under (Vfs.up s) n f := hc.trans (.go hup (.self f))
  refine hK.find_kept hK' hf (htrim f hline) hy ((badge_name hb).trans hn) (hfa'.trans hfa) (hlo' hlo) ?_
  intro d w z hd hw hz hzn
  obtain ⟨w', hw', hwf, -⟩ := hK.kid f d hd
  rw [hw] at hw'
  cases hw'
  have hf0 : f ≠ 0 := by
    rintro rfl
    rw [hK.dead 0 hK.null] at hd
    cases hd
  rcases hname d w z hw (by rw [hwf]; exact hf0) hz with he | he
  · exact he ▸ hzn
  · exact absurd (hn.trans hzn.symm) (he c x hc hx (hfa.trans hwf.symm))

/-- The way up from the root is the same while the pointers on it are. -/
theorem top_of (hK : Forest K s) (hr : t.root = s.root) {a : ℕ} (hu : Under (Vfs.up s) s.root a)
    (hup : ∀ b z, Under (Vfs.up s) s.root b → b ≠ a → s.node b = some z →
      ∃ y, t.node b = some y ∧ y.father = z.father) : Under (Vfs.up t) t.root a := by
  rw [hr]
  obtain ⟨x, hx⟩ := hK.root
  refine hu.congr fun b hb hba => ?_
  obtain ⟨z, hz⟩ := hK.line hx hb
  obtain ⟨y, hy, hf⟩ := hup b z hb hba hz
  simp only [Vfs.up, hz, hy, hf]

/-- Only what is told of nodes has changed. -/
theorem of_same (hK : Forest K s) (h : Same s t)
    (hline : ∀ a x y, Under (Vfs.up s) n a → s.node a = some x → t.node a = some y → badge y.info = badge x.info)
    (hself : ∀ x y, s.node n = some x → t.node n = some y → face y.info = face x.info)
    (hname : ∀ d x z, s.node d = some x → t.node d = some z → z.info.name = x.info.name ∨
      ∀ a w, Under (Vfs.up s) n a → s.node a = some w → w.father = x.father → w.info.name ≠ z.info.name) :
    Spares n s t := by
  refine of_lists hK (h.forest hK) (fun a x hu hx => ?_) (fun _ _ _ _ _ _ => .inl (by rw [h.mnt]))
    (fun a _ hr _ => by rw [h.up, h.root]; exact hr) hself (fun f _ => .refl (K f)) fun d x z hx _ hz => hname d x z hx hz
  have hm := h.node a
  rw [hx] at hm
  obtain ⟨y, hy, he⟩ := Option.map_eq_some_iff.mp hm
  obtain ⟨hf, hl, hi⟩ := Same.key_eq he
  exact ⟨y, hy, hf, fun hxl => hl.trans hxl, hi, hline a x y hu hx hy⟩

/-- Nothing that is told has changed either. -/
theorem of_info (hK : Forest K s) (h : Same s t)
    (hinfo : ∀ m x y, s.node m = some x → t.node m = some y → y.info = x.info) : Spares n s t :=
  of_same hK h (fun a x y _ hx hy => by rw [hinfo a x y hx hy]) (fun x y hx hy => by rw [hinfo n x y hx hy])
    fun d x z hx hz => .inl (by rw [hinfo d x z hx hz])

theorem of_calm (hK : Forest K s) (h : Calm s t) : Spares n s t :=
  of_info hK h.toSame fun m x y hx hy => (h.held m x y hx hy).1

/-- A node that is not on the line is described anew, and does not take the name of a brother on it. -/
theorem describe (hK : Forest K s) {m : ℕ} {f : Node → Node} (hf : ∀ x, key (f x) = key x)
    (hm : ¬Under (Vfs.up s) n m) (hname : ∀ x, s.node m = some x → (f x).info.name = x.info.name ∨
      ∀ a w, Under (Vfs.up s) n a → s.node a = some w → w.father = x.father → w.info.name ≠ (f x).info.name) :
    Spares n s (s.modify m f) := by
  have hother : ∀ a x y, Under (Vfs.up s) n a → s.node a = some x → (s.modify m f).node a = some y → y = x := by
    intro a x y ha hx hy
    have ham : a ≠ m := fun he => hm (he ▸ ha)
    rw [modify_ne _ _ _ ham, hx] at hy
    exact (Option.some.inj hy).symm
  refine of_same hK ((Same.refl s).modify hf) (fun a x y ha hx hy => by rw [hother a x y ha hx hy])
    (fun x y hx hy => by rw [hother n x y (.self n) hx hy]) fun d x z hx hz => ?_
  rcases modify_cases s m f hz with ⟨-, hz⟩ | ⟨rfl, w, hw, rfl⟩
  · rw [hx] at hz
    cases hz
    exact .inl rfl
  · rw [hx] at hw
    cases hw
    exact hname x hx

/-- Fields are written that no path and no check reads. -/
theorem retouch (hK : Forest K s) {m : ℕ} {f : Node → Node} (hf : ∀ x, key (f x) = key x)
    (hb : ∀ x, badge (f x).info = badge x.info) (hself : m = n → ∀ x, face (f x).info = face x.info) :
    Spares n s (s.modify m f) := by
  have hcases : ∀ a x y, s.node a = some x → (s.modify m f).node a = some y → y = x ∨ (a = m ∧ y = f x) := by
    intro a x y hx hy
    rcases modify_cases s m f hy with ⟨-, hy⟩ | ⟨rfl, w, hw, rfl⟩
    · rw [hx] at hy
      exact .inl (Option.some.inj hy).symm
    · rw [hx] at hw
      cases hw
      exact .inr ⟨rfl, rfl⟩
  refine of_same hK ((Same.refl s).modify hf) (fun a x y _ hx hy => ?_) (fun x y hx hy => ?_) fun d x z hx hz => .inl ?_
  · rcases hcases a x y hx hy with rfl | ⟨-, rfl⟩
    · rfl
    · exact hb x
  · rcases hcases n x y hx hy with rfl | ⟨he, rfl⟩
    · rfl
    · exact hself he.symm x
  · rcases hcases d x z hx hz with rfl | ⟨-, rfl⟩
    · rfl
    · exact badge_name (hb x)

/-! ### Making and deleting -/

theorem newNode {x : Node} {v : Vfsd × ℕ} (hK : Forest K s) (hf : Fresh s) (hv : s.newNode x = some v)
    (hx : shape x = (0, 0, 0, 0, 0, 0, false)) : Spares n s v.1 := by
  have hold : ∀ a z, s.node a = some z → v.1.node a = some z := by
    intro a z hz
    rw [(newNode_eq hv).2.1, Function.update_of_ne, hz]
    rintro rfl
    rw [hf.id] at hz
    cases hz
  refine of_lists hK (hK.newNode hf.id hv hx) (fun a z _ hz => ⟨z, hold a z hz, rfl, id, rfl, rfl⟩)
    (fun _ _ _ _ _ _ => .inl (by rw [(newNode_frame hv).1])) 
    (fun a _ hr _ => top_of hK (newNode_frame hv).2 hr fun b z _ _ hz => ⟨z, hold b z hz, rfl⟩) (fun z y hz hy => ?_)
    (fun f _ => .refl (K f)) fun d z y hz _ hy => .inl ?_
  · rw [hold n z hz] at hy
    cases hy
    rfl
  · rw [hold d z hz] at hy
    cases hy
    rfl

theorem create {dir : ℕ} {x : Node} (hK : Forest K s) (hf : Fresh s) (hx : shape x = (0, 0, 0, 0, 0, 0, false))
    (hdir : dir ≠ 0 → ∃ f, s.node dir = some f) : Spares n s (s.create dir x) := by
  have hold : ∀ a z y, s.node a = some z → (s.create dir x).node a = some y →
      y.father = z.father ∧ y.loose = z.loose ∧ hull y = hull z ∧ y.info = z.info := by
    intro a z y hz hy
    rcases create_back hdir hy with ⟨rfl, -⟩ | ⟨z', hz', h⟩
    · rw [hf.id] at hz
      cases hz
    · rw [hz] at hz'
      cases hz'
      exact h
  obtain ⟨K', hK', htrim⟩ := hK.create hf hx hdir
  refine of_lists hK hK' (fun a z _ hz => ?_) (fun _ _ _ _ _ _ => .inl (by rw [(create_frame s dir x).1]))
    (fun a _ hr _ => top_of hK (create_frame s dir x).2 hr fun b z _ _ hz => ?_) (fun z y hz hy => by rw [(hold n z y hz hy).2.2.2]) (fun f _ => htrim f)
    fun d z y hz _ hy => .inl (by rw [(hold d z y hz hy).2.2.2])
  · obtain ⟨y, hy⟩ := create_live dir x hz
    obtain ⟨hfa, hlo, hh, hi⟩ := hold a z y hz hy
    exact ⟨y, hy, hfa, fun hl => hlo.trans hl, hull_mountId hh, by rw [hi]⟩
  · obtain ⟨y, hy⟩ := create_live dir x hz
    exact ⟨y, hy, (hold b z y hz hy).1⟩

/-- A node is deleted that is not on the line. -/
theorem delNode (hK : Forest K s) {m : ℕ} {x : Node} (hx : s.node m = some x) (hc : Clear s m)
    (hm : ¬Under (Vfs.up s) n m) : Spares n s (s.delNode m).1 := by
  obtain ⟨K', hK', hp, hlists⟩ := deletes_delDepth delMaxDepth K s m x hK hx hc
  have hout : ∀ a, Under (Vfs.up s) n a → ¬Under (Vfs.up s) a m := fun a ha ham => hm (ha.trans ham)
  have hkeep : ∀ a z y, s.node a = some z → (s.delNode m).1.node a = some y → bare y = bare z := by
    intro a z y hz hy
    obtain ⟨z', hz', he⟩ := hp.keep a y hy
    rw [hz] at hz'
    cases hz'
    exact he
  have hinfo : ∀ a z y, s.node a = some z → (s.delNode m).1.node a = some y → y.info = z.info :=
    fun a z y hz hy => (congrArg Node.info (hkeep a z y hz hy) :)
  have hmnt : (s.delNode m).1.mnt = s.mnt := hp.mnt
  refine of_lists hK hK' (fun a z ha hz => ?_) (fun _ _ _ _ _ _ => .inl (by rw [hmnt]))
    (fun a _ hr _ => top_of hK hp.root hr fun b z hb _ hz => ?_)
    (fun z y hz hy => by rw [hinfo n z y hz hy]) (fun f hf => .of_sublist ?_)
    fun d z y hz _ hy => .inl (by rw [hinfo d z y hz hy])
  · obtain ⟨y, hy⟩ := hp.stay a z hz fun c hc' hac => hout a ha (List.mem_singleton.mp hc' ▸ hac)
    have he := hkeep a z y hz hy
    exact ⟨y, hy, bare_father he, fun hl => (bare_loose he).trans hl, bare_mountId he, by rw [hinfo a z y hz hy]⟩
  · -- the root is not below what is deleted, nor is what is above the root
    obtain ⟨w, hw⟩ := hK.root
    obtain ⟨y, hy⟩ := hp.stay b z hz fun d hd hbd =>
      hc s.root w hw (.inr rfl) (hb.trans (List.mem_singleton.mp hd ▸ hbd))
    exact ⟨y, hy, bare_father (hkeep b z y hz hy)⟩
  · rw [hlists f (hout f hf)]
    split
    · rcases eq_or_ne f x.father with rfl | hfx
      · rw [Function.update_self]
        exact List.erase_sublist
      · rw [Function.update_of_ne hfx]
    · exact List.Sublist.refl _

/-! ### Mounts -/

/-- Only slots have changed, and none that the line names, but for one that is given back. -/
theorem slots {g : ℕ → Option Mnt}
    (hg : ∀ a x i, Under (Vfs.up s) n a → s.node a = some x → x.mountId = some i →
      (g i).map Mnt.pid = (s.mnt i).map Mnt.pid ∨ g i = none) : Spares n s { s with mnt := g } :=
  ⟨fun _ x _ hx => ⟨x, hx, rfl, id, rfl, rfl⟩, hg, fun _ _ hr _ => hr,
    fun f c name _ hf => (findKidRaw_frame (s := s) (t := { s with mnt := g }) rfl rfl f name).trans hf,
    fun x y hx hy => by rw [Option.some.inj (hx.symm.trans hy)]⟩

/-- An umount tells nothing else of a node. -/
theorem umountNow_info {r j : ℕ} {y : Node} (hy : (s.umountNow r).node j = some y) :
    ∃ z, s.node j = some z ∧ y.info = z.info := by
  unfold Vfsd.umountNow at hy
  split at hy
  · exact ⟨y, hy, rfl⟩
  split at hy
  · exact ⟨y, hy, rfl⟩
  rename_i i _
  dsimp only at hy
  split at hy
  · exact ⟨y, hy, rfl⟩
  · rcases modify_cases _ _ _ hy with ⟨-, hy⟩ | ⟨rfl, w, hw, rfl⟩
    · obtain ⟨z, hz, -, hi⟩ := (Sheds.uncover s r _).back j y hy
      exact ⟨z, hz, hi⟩
    · obtain ⟨z, hz, -, hi⟩ := (Sheds.uncover s j _).back j w hw
      exact ⟨z, hz, hi⟩

/-- A mount tells nothing else of the nodes it does not mount. -/
theorem mount_info {pid org r j : ℕ} {y : Node} (hm : s.mount pid org r = some t) (hj : j ≠ r)
    (hy : t.node j = some y) : ∃ z, s.node j = some z ∧ y.info = z.info := by
  obtain ⟨o, x, i, ho, hx, -, -, -, -, -, -, rfl⟩ := mount_cases hm
  dsimp only at hy
  split at hy
  · exact ⟨y, (modify_ne _ _ _ hj).symm.trans hy, rfl⟩
  · obtain ⟨z₁, hz₁, -, hi₁⟩ := (Sheds.addNode _ o.father r).back j y hy
    obtain ⟨z, hz, -, hi⟩ := (Sheds.remove _ org).back j z₁ hz₁
    exact ⟨z, (modify_ne _ _ _ hj).symm.trans hz, hi₁.trans hi⟩

/-- A root that is not on the line is unmounted, and what it covers is not deleted above `n`. -/
theorem umountNow (hK : Forest K s) (hd : Docked s) {r : ℕ} (hok : UmountOk s r) (hr : ¬Under (Vfs.up s) n r)
    (horg : ∀ x i m o, s.node r = some x → x.mountId = some i → s.mnt i = some m → s.node m.org = some o →
      x.father ≠ 0 → o.mountId = none → ¬Under (Vfs.up s) n m.org) : Spares n s (s.umountNow r) := by
  rcases umountNow_cases hK.null r with he | ⟨x, i, m, o, hx, hi, hm, ho⟩
  · rw [he]
    exact of_calm hK (.refl s)
  have hl := hK.lifted hd hok hx hi hm ho
  obtain ⟨K', hK', htrim⟩ := hl.forest
  have hout : ∀ a, Under (Vfs.up s) n a → x.father ≠ 0 → o.mountId = none → ¬Under (Vfs.up s) a m.org :=
    fun a ha hf hoi hao => horg x i m o hx hi hm ho hf hoi (ha.trans hao)
  have hinfo : ∀ a z y, s.node a = some z → (s.umountNow r).node a = some y → y.info = z.info := by
    intro a z y hz hy
    obtain ⟨z', hz', he⟩ := umountNow_info hy
    rw [hz] at hz'
    cases hz'
    exact he
  refine of_lists hK hK' (fun a z ha hz => ?_) (fun a z j ha hz hj => ?_) (fun a ha hroot _ => ?_)
    (fun z y hz hy => by rw [hinfo n z y hz hy]) (fun f hf => htrim f (hout f hf))
    fun d z y hz _ hy => .inl (by rw [hinfo d z y hz hy])
  · obtain ⟨y, hy⟩ := hl.stay a z hz (hout a ha)
    obtain ⟨z', hz', -, hhull, hfa, hsame⟩ := hl.back a y hy
    rw [hz] at hz'
    cases hz'
    have har : a ≠ r := fun he => hr (he ▸ ha)
    have hfather : y.father = z.father ∧ (z.loose = false → y.loose = false) := by
      rcases hsame har with ⟨rfl, hf⟩ | ⟨hf, hlo⟩
      · -- what is no longer covered was loose
        rw [ho] at hz
        cases hz
        obtain ⟨m', hm', -, hcov⟩ := hd.slot r x i hx hi hf
        rw [hm] at hm'
        cases hm'
        refine ⟨hfa.resolve_right fun h => hout _ ha hf h.2 (.self _), fun hl => ?_⟩
        rw [(hcov o ho).1] at hl
        cases hl
      · exact ⟨hf, fun hzl => hlo.trans hzl⟩
    exact ⟨y, hy, hfather.1, hfather.2, hull_mountId (hhull har), by rw [hinfo a z y hz hy]⟩
  · rw [hl.mnt]
    rcases eq_or_ne j i with rfl | hji
    · exact .inr (Function.update_self ..)
    · exact .inl (by rw [Function.update_of_ne hji])
  · obtain ⟨w, hw⟩ := hK.root
    obtain ⟨hrn, hatt⟩ := hok x i m o hx hi hm ho
    have hout' : x.father ≠ 0 → o.mountId = none → ¬Under (Vfs.up s) s.root m.org :=
      fun hf hoi => (hatt hf).2 hoi s.root w hw (.inr rfl)
    by_cases hxr : x.father = 0 ∧ r = s.root
    · -- the root itself would be on the line
      refine absurd ?_ hr
      have hnone : Vfs.up s s.root = none := by
        rw [← hxr.2]
        simp only [Vfs.up, hx, hxr.1, if_true]
      rcases hroot.cases_up with he | ⟨b, hb, -⟩
      · rw [hxr.2, he]
        exact ha
      · rw [hnone] at hb
        cases hb
    · refine top_of hK (by rw [hl.root, if_neg hxr]) hroot fun b z hb _ hz => ?_
      obtain ⟨y, hy⟩ := hl.stay b z hz fun hf hoi hbo => hout' hf hoi (hb.trans hbo)
      obtain ⟨z', hz', -, -, hfa, hsame⟩ := hl.back b y hy
      rw [hz] at hz'
      cases hz'
      refine ⟨y, hy, ?_⟩
      rcases eq_or_ne b r with rfl | hbr
      · rw [hx] at hz
        cases hz
        refine hfa.resolve_right fun h => ?_
        rw [h.2] at hi
        cases hi
      · rcases hsame hbr with ⟨rfl, hf⟩ | ⟨hf, -⟩
        · rw [ho] at hz
          cases hz
          exact hfa.resolve_right fun h => hout' hf h.2 hb
        · exact hf

/-- A node that is not on the line is mounted over one that is not, in a slot that the line does not
    name. -/
theorem mount (hK : Forest K s) {pid org r : ℕ} {o : Node} (ho : s.node org = some o) (hol : o.loose = false)
    (hund : ¬Under (Vfs.up s) org r) (hm : s.mount pid org r = some t) (horg : ¬Under (Vfs.up s) n org)
    (hr : ¬Under (Vfs.up s) n r)
    (hused : ∀ a x i, Under (Vfs.up s) n a → s.node a = some x → x.mountId = some i → (s.mnt i).isSome = true) :
    Spares n s t := by
  obtain ⟨x, i, hx, -, hxf, hfree, htop, hra⟩ := hK.raised ho hol hund hm
  obtain ⟨K', hK', htrim⟩ := hra.forest
  have hinfo : ∀ a z y, a ≠ r → s.node a = some z → t.node a = some y → y.info = z.info := by
    intro a z y har hz hy
    obtain ⟨z', hz', he⟩ := mount_info hm har hy
    rw [hz] at hz'
    cases hz'
    exact he
  have hself : n ≠ r := fun he => hr (he ▸ .self n)
  refine of_lists hK hK' (fun a z ha hz => ?_) (fun a z j ha hz hj => .inl ?_) (fun a ha hroot hnone => ?_)
    (fun z y hz hy => by rw [hinfo n z y hself hz hy]) (fun f _ => htrim f) fun d z y hz hzf hy => ?_
  · obtain ⟨y, hy⟩ := hra.forth a z hz
    obtain ⟨z', hz', -, hother, hlo⟩ := hra.back a y hy
    rw [hz] at hz'
    cases hz'
    have har : a ≠ r := fun he => hr (he ▸ ha)
    have hao : a ≠ org := fun he => horg (he ▸ ha)
    obtain ⟨hh, hfa⟩ := hother har
    exact ⟨y, hy, hfa, fun hl => (hlo har hao).trans hl, hull_mountId hh, by rw [hinfo a z y har hz hy]⟩
  · have hji : j ≠ i := by
      rintro rfl
      have := hused a z j ha hz hj
      rw [hfree] at this
      cases this
    rw [hra.mnt, Function.update_of_ne hji]
  · have hof : o.father ≠ 0 := by
      intro hf
      have horg' : Vfs.up s org = none := by simp only [Vfs.up, ho, hf, if_true]
      rcases hroot.cases_up with he | ⟨b, hb, -⟩
      · exact horg (htop hf ▸ he ▸ ha)
      · rw [← htop hf, horg'] at hb
        cases hb
    refine top_of hK (by rw [hra.root, if_neg hof]) hroot fun b z hb hba hz => ?_
    obtain ⟨y, hy⟩ := hra.forth b z hz
    obtain ⟨z', hz', -, hother, -⟩ := hra.back b y hy
    rw [hz] at hz'
    cases hz'
    refine ⟨y, hy, (hother ?_).2⟩
    -- what is mounted had no father, and so was the end of the line
    rintro rfl
    exact hba (hb.end_unique hroot (by simp only [Vfs.up, hx, hxf, if_true]) hnone)
  · rcases eq_or_ne d r with rfl | hdr
    · rw [hx] at hz
      cases hz
      exact absurd hxf hzf
    · exact .inl (by rw [hinfo d z y hdr hz hy])

end Spares

end

end EwokOS.Vfs
