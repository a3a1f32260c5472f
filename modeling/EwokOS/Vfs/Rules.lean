import EwokOS.Vfs.Descriptors
import EwokOS.Vfs.Tree

/-! What has to be checked of a request of `vfsd`, whatever is to be kept.

    The tree, the mount table and what is told of a node are written in few places: a node is made,
    deleted, mounted, unmounted or described anew. Each of them is reached from several requests, a
    delete and an umount also from the last close, and both from the exit of a process:

        new_node, new_nodes, kids, open      -->  make
        del_node                             -->  del         last close  -->  shut
        umount, exit, clone                  -->  lift        last close  -->  finish
        mount                                -->  cover
        set_fsinfo                           -->  attrs       also new_node  -->  data
        open                                 -->  trunc

    `Rules` says what is asked for at these places, `Follows` asks for it wherever a request comes to
    one, and `Keeps.step` carries an invariant through every request from what each place does to it. -/

namespace EwokOS.Vfs

open Schemes Vfsd

/-- What is asked for before a node is made, deleted, unmounted, mounted and described anew; whose
    requests there are, and what the kernel may tell of a task. -/
structure Rules where
  make : Vfsd → Prop
  del : Vfsd → ℕ → Prop
  shut : Vfsd → ℕ → Prop := del
  lift : Vfsd → ℕ → Prop
  finish : Vfsd → ℕ → Prop := lift
  cover : Vfsd → ℕ → ℕ → Prop
  attrs : Vfsd → ℕ → Info → Prop := fun _ _ _ => True
  data : Vfsd → ℕ → Info → Prop := fun _ _ _ => True
  trunc : Vfsd → ℕ → Flags → Prop := fun _ _ _ => True
  sender : ℕ → Prop := fun _ => True
  kernel : ℕ → Task → Prop := fun _ _ => True

namespace Rules
variable (r : Rules)

/-- The round of `vfs_umount_by_pid` for the slot `i`. -/
def SlotOk (pid : ℕ) (s : Vfsd) (i : ℕ) : Prop :=
  ∀ m x, s.mnt i = some m → m.pid = pid → s.node m.root = some x → x.mountId = some i →
    x.refs = 0 → x.refsW = 0 → r.lift s m.root

/-- A close that is the last one of an anonymous node, or of a root that is to be unmounted. -/
def CloseOk (p : ℕ) (s : Vfsd) (k : ℕ) : Prop :=
  ∀ f x, s.fd p k = some f → s.node f.node = some x → x.refs ≤ 1 →
    (x.info.type.anon = true → r.shut s f.node) ∧
    (x.info.type.anon = false → x.mountId.isSome = true → x.pending = true → r.finish s f.node)

/-- What `clear_zombie` has unmounted when it comes to the descriptors. -/
def unmounted (s : Vfsd) (cpid : ℕ) : Vfsd :=
  (s.umountByPid cpid).removeProcWaiters cpid ((s.umountByPid cpid).slot cpid).uuid

/-- The umounts and the closes of `clear_zombie`, each when its turn comes. -/
structure ZombieOk (s : Vfsd) (cpid : ℕ) : Prop where
  mounts : cpid ≠ 0 → AllMeet (umountSlot cpid) (r.SlotOk cpid) s (List.range mountMax)
  files : AllMeet (closeFd cpid) (r.CloseOk cpid) (unmounted s cpid) (List.range fdMax)

/-- A slot whose task has another generation is cleared, unless the process has called `exec`. -/
def TrackOk (s : Vfsd) (pid : ℕ) : Prop :=
  pid < s.max → s.getUuid pid ≠ 0 → (s.slot pid).state ≠ .unused → (s.slot pid).uuid ≠ 0 →
    (s.slot pid).uuid ≠ s.getUuid pid → ¬((s.slot pid).state = .running ∧ s.ownerPid pid = pid) →
    r.ZombieOk s pid

/-- A request that meets the rules wherever it comes to one of the places. -/
def Follows (s : Vfsd) : Op → Prop
  | .kernel pid t => r.kernel pid t
  | .applyKids father _ infos => AllMeet (commitKid father) (fun s _ => r.make s) s infos
  | .setLoaded _ => True
  | .reap cpid => r.ZombieOk s cpid
  | .newNode pid i dir _ writeOver _ => r.sender pid ∧ r.make s ∧
    ∀ m x, s.findKidRaw dir i.terminate.name = some m → s.node m = some x → writeOver = true →
      s.checkAccess pid x.info .write = true → r.data s m i
  | .newNodes pid dir infos => r.sender pid ∧ AllMeet (addKid dir) (fun s _ => r.make s) s infos
  | .delNode pid n => r.sender pid ∧ ∀ x, s.node n = some x → s.mayDelete pid n x = true →
    x.refs = 0 → r.del s n
  | .mount pid org n => r.sender pid ∧ ∀ o, s.node org = some o → s.checkMountAccess pid o.info = true →
    (s.mount pid org n).isSome = true → r.cover s org n
  | .umount pid n => r.sender pid ∧ ∀ x, s.node n = some x → x.mountId.isSome = true →
    s.checkMount pid n = true → x.refs = 0 → x.refsW = 0 → r.lift s n
  | .setFsinfo pid n i kind => r.sender pid ∧ ∀ x, s.node n = some x →
    (kind = .metadata → s.mayUpdate pid x.info i = true → r.attrs s n i) ∧
    (kind = .data → (s.checkOwner pid x.info || s.checkAccess pid x.info .write) = true →
      r.data s n { i with uid := x.info.uid, gid := x.info.gid, mode := x.info.mode })
  | .setByFd pid .. => r.sender pid
  | .openNode pid n fl => r.sender pid ∧ ∀ x, s.node n = some x → s.granted pid x fl = true →
    if x.info.type.anon then r.make s else fl.trunc = true → r.trunc s n fl
  | .close pid k => r.sender pid ∧ r.CloseOk (s.ownerPid pid) s k
  | .dup pid _ => r.sender pid
  | .dup2 pid k j => r.sender pid ∧ (k ≠ j → r.CloseOk (s.ownerPid pid) s j)
  | .procClone pid _ cpid => r.sender pid ∧ ((s.slot cpid).state ≠ .unused → r.ZombieOk s cpid)
  | .procExit pid cpid => r.sender pid ∧ ((s.slot cpid).uuid = 0 → r.ZombieOk (s.resetTaskWaiters cpid) cpid) ∧
    ((s.slot cpid).uuid ≠ 0 → s.getUuid cpid ≠ (s.slot cpid).uuid → r.ZombieOk s cpid)
  | .block pid _ _ _ => r.sender pid ∧ r.TrackOk s pid
  | .unblock pid _ => r.sender pid

end Rules

/-- From `s` to `t` neither the tree nor the mount table nor what is told of a node has changed, and no
    count has gone down. -/
structure Calm (s t : Vfsd) : Prop extends Same s t where
  held : ∀ m x y, s.node m = some x → t.node m = some y → y.info = x.info ∧ y.pending = x.pending ∧
    x.refs ≤ y.refs ∧ x.refsW ≤ y.refsW ∧ (y.create = x.create ∨ y.create = none)
  next : t.next = s.next
  task : t.task = s.task

namespace Calm
variable {s t u : Vfsd}

/-- Nothing has changed of the nodes. -/
theorem frame (hn : t.node = s.node) (hm : t.mnt = s.mnt) (hr : t.root = s.root) (hc : t.count = s.count)
    (hx : t.next = s.next) (ht : t.task = s.task) : Calm s t := by
  refine ⟨⟨fun _ => by rw [hn], hm, hr, hc⟩, fun m x y hx hy => ?_, hx, ht⟩
  rw [hn, hx] at hy
  cases hy
  exact ⟨rfl, rfl, Nat.le_refl _, Nat.le_refl _, .inl rfl⟩

theorem refl (s : Vfsd) : Calm s s := .frame rfl rfl rfl rfl rfl rfl

theorem trans (h : Calm s t) (h' : Calm t u) : Calm s u := by
  refine ⟨h.toSame.trans h'.toSame, fun m x z hx hz => ?_, h'.next.trans h.next, h'.task.trans h.task⟩
  obtain ⟨y, hy, -⟩ := h'.back hz
  obtain ⟨hi, hp, hr, hw, hc⟩ := h.held m x y hx hy
  obtain ⟨hi', hp', hr', hw', hc'⟩ := h'.held m y z hy hz
  refine ⟨hi'.trans hi, hp'.trans hp, hr.trans hr', hw.trans hw', ?_⟩
  rcases hc' with hc' | hc'
  · exact hc.imp hc'.trans hc'.trans
  · exact .inr hc'

theorem modify {n : ℕ} {f : Node → Node} (h : Calm s t)
    (hf : ∀ x, t.node n = some x → key (f x) = key x ∧ (f x).info = x.info ∧ (f x).pending = x.pending ∧
      x.refs ≤ (f x).refs ∧ x.refsW ≤ (f x).refsW ∧ ((f x).create = x.create ∨ (f x).create = none)) :
    Calm s (t.modify n f) := by
  have hcases : ∀ m, t.node m = none ∧ (t.modify n f).node m = none ∨ ∃ x, t.node m = some x ∧
      ((t.modify n f).node m = some x ∨ (m = n ∧ (t.modify n f).node m = some (f x))) := by
    intro m
    cases hx : t.node m with
    | none => exact .inl ⟨rfl, (modify_none t n f).mpr hx⟩
    | some x =>
      refine .inr ⟨x, rfl, ?_⟩
      rcases eq_or_ne m n with rfl | hm
      · exact .inr ⟨rfl, by rw [modify_self, hx]; rfl⟩
      · exact .inl (by rw [modify_ne _ _ _ hm, hx])
  refine h.trans ⟨⟨fun m => ?_, rfl, rfl, rfl⟩, fun m x y hx hy => ?_, rfl, rfl⟩
  · rcases hcases m with ⟨h₁, h₂⟩ | ⟨x, h₁, h₂ | ⟨rfl, h₂⟩⟩
    · rw [h₁, h₂]
    · rw [h₁, h₂]
    · rw [h₁, h₂, Option.map_some, Option.map_some, (hf x h₁).1]
  · rcases hcases m with ⟨h₁, -⟩ | ⟨x', h₁, h₂ | ⟨rfl, h₂⟩⟩
    · rw [hx] at h₁
      cases h₁
    · rw [hx] at h₁
      cases h₁
      rw [hy] at h₂
      cases h₂
      exact ⟨rfl, rfl, Nat.le_refl _, Nat.le_refl _, .inl rfl⟩
    · rw [hx] at h₁
      cases h₁
      rw [hy] at h₂
      cases h₂
      exact (hf x hx).2

theorem hold (h : Calm s t) (n : ℕ) (w : Bool) : Calm s (t.hold n w) := by
  refine h.modify fun x _ => ⟨rfl, rfl, rfl, Nat.le_succ _, ?_, .inl rfl⟩
  dsimp only
  split
  · exact Nat.le_succ _
  · exact Nat.le_refl _

/-- The pass of the creator has been used. -/
theorem consume (h : Calm s t) (n : ℕ) : Calm s (t.modify n fun x => { x with create := none }) :=
  h.modify fun _ _ => ⟨rfl, rfl, rfl, Nat.le_refl _, Nat.le_refl _, .inr rfl⟩

theorem setFd (h : Calm s t) (p k : ℕ) (f : Option File) : Calm s (t.setFd p k f) :=
  h.trans (.frame rfl rfl rfl rfl rfl rfl)

theorem setSlot (h : Calm s t) (p : ℕ) (x : Slot) : Calm s (t.setSlot p x) :=
  h.trans (.frame rfl rfl rfl rfl rfl rfl)

theorem removeProcWaiters (s : Vfsd) (pid uuid : ℕ) : Calm s (s.removeProcWaiters pid uuid) := by
  unfold Vfsd.removeProcWaiters
  split
  · exact .refl s
  · exact .frame rfl rfl rfl rfl rfl rfl

end Calm

/-! ### Exits and closes, taken apart -/

section
variable (s : Vfsd)

/-- The process that mounted the slot has gone. -/
def marked (i : ℕ) (m : Mnt) : Vfsd := { s with mnt := Function.update s.mnt i (some { m with left := true }) }

/-- The descriptor is out of the table and no longer counted. -/
def dropped (p k : ℕ) (f : File) : Vfsd := (s.setFd p k none).drop f.node f.write

variable {s}

theorem umountSlot_cases (pid i : ℕ) : umountSlot pid s i = s ∨ ∃ m, s.mnt i = some m ∧ m.pid = pid ∧
    ((∃ x, s.node m.root = some x ∧ x.mountId = some i ∧ umountSlot pid s i = (marked s i m).detach m.root x) ∨
    ((∀ x, s.node m.root = some x → x.mountId ≠ some i) ∧
      umountSlot pid s i = { s with mnt := Function.update s.mnt i none })) := by
  have hidem : ∀ m, ({ marked s i m with mnt := Function.update (marked s i m).mnt i none } : Vfsd) =
      { s with mnt := Function.update s.mnt i none } := by
    intro m
    simp only [marked, Function.update_idem]
  unfold umountSlot
  split
  · exact .inl rfl
  rename_i m hm
  split
  swap
  · exact .inl rfl
  rename_i hpid
  refine .inr ⟨m, hm, hpid, ?_⟩
  dsimp only
  split
  · rename_i hx
    change s.node m.root = none at hx
    refine .inr ⟨fun x hx' => ?_, hidem m⟩
    rw [hx] at hx'
    cases hx'
  · rename_i x hx
    change s.node m.root = some x at hx
    split
    · rename_i hxi
      exact .inl ⟨x, hx, hxi, rfl⟩
    · rename_i hxi
      refine .inr ⟨fun x' hx' => ?_, hidem m⟩
      rw [hx] at hx'
      cases hx'
      exact hxi

/-- What a close does, by the node before its counts went down, `x`, and after, `y`. -/
theorem closeFd_cases (p k : ℕ) : closeFd p s k = s ∨ ∃ f, s.fd p k = some f ∧
    ((s.node f.node = none ∧ closeFd p s k = dropped s p k f) ∨
    ∃ x y, s.node f.node = some x ∧ (dropped s p k f).node f.node = some y ∧ y.pending = x.pending ∧
      y.mountId = x.mountId ∧
      ((x.info.type.anon = true ∧ x.refs ≤ 1 ∧ closeFd p s k = ((dropped s p k f).delNode f.node).1) ∨
      (x.info.type.anon = false ∧ x.mountId.isSome = true ∧ x.pending = true ∧ x.refs ≤ 1 ∧
        closeFd p s k = (dropped s p k f).umountNow f.node) ∨
      (¬(y.mountId.isSome = true ∧ y.pending = true ∧ y.refs = 0 ∧ y.refsW = 0) ∧
        closeFd p s k = dropped s p k f))) := by
  unfold closeFd
  split
  · exact .inl rfl
  rename_i f hf
  refine .inr ⟨f, hf, ?_⟩
  unfold fileClose settle
  rw [show (s.setFd p k none).drop f.node f.write = dropped s p k f from rfl]
  split
  · rename_i hy
    exact .inl ⟨(modify_none _ _ _).mp hy, rfl⟩
  rename_i y hy
  obtain ⟨x, hx, hanon, hmi, hp, hr⟩ : ∃ x, s.node f.node = some x ∧ y.info.type = x.info.type ∧
      y.mountId = x.mountId ∧ y.pending = x.pending ∧ y.refs = x.refs - 1 := by
    unfold dropped drop at hy
    rw [modify_self] at hy
    obtain ⟨x, hx, rfl⟩ := Option.map_eq_some_iff.mp hy
    exact ⟨x, hx, rfl, rfl, rfl, rfl⟩
  refine .inr ⟨x, y, hx, hy, hp, hmi, ?_⟩
  split
  · rename_i ha
    exact .inl ⟨hanon ▸ ha.1, by omega, rfl⟩
  · rename_i ha
    unfold tryFinishUmount
    rw [hy]
    dsimp only
    split
    · rename_i hpend
      refine .inr (.inl ⟨?_, hmi ▸ hpend.1, hp ▸ hpend.2.1, by omega, rfl⟩)
      rw [← hanon, ← Bool.not_eq_true]
      exact fun h => ha ⟨h, hpend.2.2.1⟩
    · rename_i hpend
      exact .inr (.inr ⟨hpend, rfl⟩)

theorem same_dropped (p k : ℕ) (f : File) : Same s (dropped s p k f) := by
  have h₀ : Same s (s.setFd p k none) := ⟨fun _ => rfl, rfl, rfl, rfl⟩
  exact h₀.modify fun _ => rfl

end

/-! ### The invariant -/

/-- What each of the places does to an invariant. -/
structure Keeps (r : Rules) (I : Vfsd → Prop) : Prop where
  calm : ∀ s t, I s → Calm s t → I t
  again : ∀ s t, r.make s → Calm s t → r.make t
  kernel : ∀ s pid x, I s → r.kernel pid x → I { s with task := Function.update s.task pid x }
  loaded : ∀ s n, I s → I (s.setKidsLoaded n)
  create : ∀ s dir x, I s → r.make s → key x = ((0, 0, 0, 0, 0, 0, false), none, false) →
    (dir ≠ 0 → ∃ f, s.node dir = some f) →
    I (s.create dir x) ∧ ∀ j f, s.node j = some f → ∃ f', (s.create dir x).node j = some f'
  copy : ∀ s n x c u, I s → r.make s → s.node n = some x → s.newNode (copyOf x c) = some u → I u.1
  data : ∀ s pid n x i, I s → r.sender pid → s.node n = some x →
    (s.checkOwner pid x.info || s.checkAccess pid x.info .write) = true → r.data s n i → I (s.setNodeInfo n i)
  attrs : ∀ s u pid n x i, I s → Calm s u → r.sender pid → s.node n = some x →
    s.mayUpdate pid x.info i = true → r.attrs s n i → I (u.setNodeInfo n i)
  trunc : ∀ s u pid n x fl, I s → Calm s u → r.sender pid → s.node n = some x → s.granted pid x fl = true →
    r.trunc s n fl → I (u.modify n fun x => { x with info := { x.info with size := 0 } })
  delNode : ∀ s pid n x, I s → r.sender pid → s.node n = some x → s.mayDelete pid n x = true → r.del s n →
    I (s.delNode n).1
  mount : ∀ s t pid org n o, I s → r.sender pid → s.node org = some o → s.checkMountAccess pid o.info = true →
    r.cover s org n → s.mount pid org n = some t → I t
  umount : ∀ s pid n x, I s → r.sender pid → s.node n = some x → x.mountId.isSome = true →
    s.checkMount pid n = true → (x.refs = 0 → x.refsW = 0 → r.lift s n) → I (s.detach n x)
  umountSlot : ∀ s pid i, I s → r.SlotOk pid s i → I (umountSlot pid s i)
  closeFd : ∀ s p k, I s → r.CloseOk p s k → I (closeFd p s k)

namespace Keeps
variable {r : Rules} {I : Vfsd → Prop} {s t : Vfsd} {n : ℕ} (hI : Keeps r I)
include hI

/-- A loop that makes a kid in every round, or none. -/
theorem makeKids {dir : ℕ} {g : Vfsd → Info → Vfsd}
    (hg : ∀ s i, g s i = s ∨ g s i = s.create dir (.fresh i.terminate)) {infos : List Info} (h : I s)
    (hf : ∃ f, s.node dir = some f) (hok : AllMeet g (fun s _ => r.make s) s infos) : I (infos.foldl g s) := by
  have hinv : I (infos.foldl g s) ∧ ∃ f, (infos.foldl g s).node dir = some f := by
    refine hok.inv (I := fun s => I s ∧ ∃ f, s.node dir = some f) ⟨h, hf⟩ ?_
    rintro s i ⟨hs, f, hf⟩ hmake
    rcases hg s i with he | he
    · rw [he]
      exact ⟨hs, f, hf⟩
    · rw [he]
      obtain ⟨hc, hlive⟩ := hI.create s dir (.fresh i.terminate) hs hmake rfl fun _ => ⟨f, hf⟩
      exact ⟨hc, hlive dir f hf⟩
  exact hinv.1

theorem umountByPid {pid : ℕ} (h : I s)
    (hok : pid ≠ 0 → AllMeet (Vfsd.umountSlot pid) (r.SlotOk pid) s (List.range mountMax)) :
    I (s.umountByPid pid) := by
  unfold Vfsd.umountByPid
  split
  · exact h
  · rename_i hp0
    exact (hok hp0).inv h fun s i hs hi => hI.umountSlot s pid i hs hi

theorem clearZombie {cpid : ℕ} (h : I s) (hok : r.ZombieOk s cpid) : I (s.clearZombie cpid) := by
  have hu : I (Rules.unmounted s cpid) := hI.calm _ _ (hI.umountByPid h hok.mounts) (.removeProcWaiters _ _ _)
  have hc : I ((List.range fdMax).foldl (Vfsd.closeFd cpid) (Rules.unmounted s cpid)) :=
    hok.files.inv hu fun s k hs hk => hI.closeFd s cpid k hs hk
  show I (((List.range fdMax).foldl (Vfsd.closeFd cpid) (Rules.unmounted s cpid)).setSlot cpid ⟨0, .unused⟩)
  generalize (List.range fdMax).foldl (Vfsd.closeFd cpid) (Rules.unmounted s cpid) = t at hc ⊢
  exact hI.calm _ _ hc ((Calm.refl t).setSlot cpid _)

theorem trackTaskSlot {pid : ℕ} (h : I s) (hok : r.TrackOk s pid) : I (s.trackTaskSlot pid) := by
  have hslot : ∀ t : Vfsd, ∀ x, I t → I (t.setSlot pid x) := fun t x ht => hI.calm _ _ ht ((Calm.refl t).setSlot pid x)
  unfold Vfsd.trackTaskSlot
  dsimp only
  split
  · exact h
  rename_i hmax
  split
  · rename_i hold
    split
    · refine hslot _ _ (hI.calm _ _ h ?_)
      exact (Calm.removeProcWaiters s pid _).trans (.frame rfl rfl rfl rfl rfl rfl)
    · rename_i hexec
      exact hslot _ _ (hI.clearZombie h (hok (by omega) (by omega) hold.1 hold.2.1 hold.2.2 hexec))
  · exact hslot _ _ h

theorem doNewNode {pid dir : ℕ} {i : Info} {nodeOnly writeOver createOpen : Bool} (h : I s)
    (hok : r.Follows s (.newNode pid i dir nodeOnly writeOver createOpen)) :
    I (s.doNewNode pid i dir nodeOnly writeOver createOpen) := by
  obtain ⟨hp, hf, hover⟩ := hok
  unfold Vfsd.doNewNode
  dsimp only
  split
  · exact h
  split
  · exact (hI.create s 0 _ h hf rfl fun h => absurd rfl h).1
  split
  · exact h
  rename_i f hdir
  split
  · exact h
  split
  · exact (hI.create s dir _ h hf rfl fun _ => ⟨f, hdir⟩).1
  rename_i m hm
  split
  · exact h
  rename_i x hx
  split
  · rename_i hw
    refine hI.data s pid m x i h hp hx ?_ (hover m x hm hx hw.1 hw.2)
    rw [hw.2, Bool.or_true]
  · exact h

/-- An open of a node that may be cut short. -/
theorem vfsdOpen {pid : ℕ} {fl : Flags} {u : Vfsd × ℕ} (h : I s) (hu : s.vfsdOpen pid n fl = some u)
    (htrunc : fl.trunc = true → ∀ t, Calm s t →
      I (t.modify n fun x => { x with info := { x.info with size := 0 } })) : I u.1 := by
  unfold Vfsd.vfsdOpen at hu
  dsimp only at hu
  split at hu
  · cases hu
  rename_i x hx
  split at hu
  · cases hu
  split at hu
  · cases hu
  rename_i k hk
  have hset := (Calm.refl s).setFd (s.ownerPid pid) k (some ⟨n, fl.write, x.info⟩)
  cases hu
  dsimp only
  split
  · rename_i hcut
    exact hI.calm _ _ (htrunc hcut _ hset) ((Calm.refl _).hold n _)
  · exact hI.calm s _ h (hset.hold n _)

theorem doOpen {pid : ℕ} {fl : Flags} (h : I s) (hok : r.Follows s (.openNode pid n fl)) :
    I (s.doOpen pid n fl) := by
  obtain ⟨hp, hok⟩ := hok
  unfold Vfsd.doOpen
  split
  · exact h
  rename_i x hx
  dsimp only
  have ht : ∃ t, (if s.createPending pid x then s.modify n fun x => { x with create := none } else s) = t ∧
      Calm s t := by
    split
    · exact ⟨_, rfl, (Calm.refl s).consume n⟩
    · exact ⟨s, rfl, .refl s⟩
  obtain ⟨t, he, hcalm⟩ := ht
  rw [he]
  have hg := hI.calm _ _ h hcalm
  split
  swap
  · exact hg
  rename_i hgr
  have hrule := hok x hx hgr
  unfold Vfsd.grant
  split
  · rename_i ha
    rw [if_pos ha] at hrule
    have hf := hI.again _ _ hrule hcalm
    split
    · exact hg
    rename_i u m hu
    obtain ⟨y, c, hy, hnew⟩ : ∃ y c, t.node n = some y ∧ t.newNode (copyOf y c) = some (u, m) := by
      unfold openAnonymous at hu
      split at hu
      · rename_i y c hy _
        exact ⟨y, c, hy, hu⟩
      · cases hu
    have hgu : I u := hI.copy t n y c _ hg hf hy hnew
    split
    · exact hgu
    · rename_i v k hv
      refine hI.vfsdOpen hgu hv fun _ w hw => hI.calm u _ hgu (hw.modify fun z hz => ?_)
      -- the copy is empty
      have hm : m = t.allocId := (newNode_eq hnew).1
      have hcopy : u.node m = some (copyOf y c) := by
        have hnode : u.node = _ := (newNode_eq hnew).2.1
        rw [hnode, hm, Function.update_self]
      have hinfo := (hw.held m _ z hcopy hz).1
      refine ⟨rfl, ?_, rfl, Nat.le_refl _, Nat.le_refl _, .inl rfl⟩
      rw [hinfo]
      rfl
  · rename_i ha
    rw [if_neg ha] at hrule
    split
    · exact hg
    · rename_i v k hv
      exact hI.vfsdOpen hg hv fun hcut w hw => hI.trunc s w pid n x fl h (hcalm.trans hw) hp hx hgr (hrule hcut)

theorem close {pid k : ℕ} (h : I s) (hok : r.CloseOk (s.ownerPid pid) s k) : I (s.close pid k) := by
  unfold Vfsd.close
  split
  · exact h
  · exact hI.closeFd _ _ _ h hok

theorem dup2 {pid k j : ℕ} (h : I s) (hok : r.Follows s (.dup2 pid k j)) : I ((s.dup2 pid k j).getD s) := by
  unfold Vfsd.dup2
  dsimp only
  split
  · exact h
  rename_i f hf
  split
  · exact h
  rename_i hkj
  split
  swap
  · exact h
  have hc : I (s.close (s.ownerPid pid) j) := hI.close h (by rw [ownerPid_idem]; exact hok.2 hkj)
  exact hI.calm (s.close (s.ownerPid pid) j) _ hc (((Calm.refl _).setFd (s.ownerPid pid) j (some f)).hold f.node f.write)

theorem procClone {pid fpid cpid : ℕ} (h : I s) (hok : r.Follows s (.procClone pid fpid cpid)) :
    I (s.procClone fpid cpid) := by
  obtain ⟨-, hok⟩ := hok
  unfold Vfsd.procClone
  split
  · exact h
  dsimp only
  have hprep : ∃ t, I t ∧ (if (s.slot cpid).state = .unused then s else s.clearZombie cpid) = t := by
    split
    · exact ⟨s, h, rfl⟩
    · rename_i hu
      exact ⟨_, hI.clearZombie h (hok hu), rfl⟩
  obtain ⟨t, ht, he⟩ := hprep
  rw [he]
  -- the loop only adds descriptors
  have hloop : ∀ (l : List ℕ) (u : Vfsd), Calm t u → Calm t (l.foldl (cloneFd fpid cpid) u) := by
    intro l
    induction l with
    | nil => exact fun u hu => hu
    | cons k l ih =>
      intro u hu
      refine ih _ ?_
      unfold cloneFd
      split
      · exact hu
      · rename_i f hf
        exact (hu.setFd cpid k (some f)).hold f.node f.write
  generalize List.range fdMax = l
  refine hI.calm t _ ht (hloop l _ ?_)
  exact .frame rfl rfl rfl rfl rfl rfl

theorem procExit {pid cpid : ℕ} (h : I s) (hok : r.Follows s (.procExit pid cpid)) : I (s.procExit cpid) := by
  obtain ⟨-, hok⟩ := hok
  unfold Vfsd.procExit
  split
  · exact h
  split
  · rename_i hu
    exact hI.clearZombie (hI.calm s _ h (.frame rfl rfl rfl rfl rfl rfl)) (hok.1 hu)
  · rename_i hu
    split
    · exact h
    · rename_i hg
      exact hI.clearZombie h (hok.2 hu hg)

theorem block {pid : ℕ} {rd wr : Bool} (h : I s) (hok : r.TrackOk s pid) :
    I (s.block pid n rd wr) := by
  unfold Vfsd.block
  split
  · exact h
  have ht := hI.trackTaskSlot h hok
  dsimp only
  generalize s.trackTaskSlot pid = t at ht ⊢
  split
  · exact ht
  · exact hI.calm t _ ht (.frame rfl rfl rfl rfl rfl rfl)

theorem doSetFsinfo {pid : ℕ} {i : Info} {kind : Update} (h : I s) (hok : r.Follows s (.setFsinfo pid n i kind)) :
    I (s.doSetFsinfo pid n i kind) := by
  obtain ⟨hp, hok⟩ := hok
  unfold Vfsd.doSetFsinfo
  split
  · exact h
  rename_i x hx
  obtain ⟨hattrs, hdata⟩ := hok x hx
  split
  · exact h
  · split
    · rename_i hmay
      exact hI.data s pid n x _ h hp hx hmay (hdata rfl hmay)
    · exact h
  · split
    · rename_i hmay
      exact hI.attrs s _ pid n x i h ((Calm.refl s).consume n) hp hx hmay (hattrs rfl hmay)
    · exact h

/-- A request that follows the rules keeps what each of the places keeps. -/
theorem step {o : Op} (h : I s) (hok : r.Follows s o) (ht : s.step o = some t) : I t := by
  cases o with
  | kernel pid x =>
    cases ht
    exact hI.kernel s pid x h hok
  | applyKids father mountPid infos =>
    cases ht
    unfold Vfsd.applyKids
    split
    · exact h
    rename_i f hf
    split
    · refine hI.loaded _ father (hI.makeKids (fun s i => ?_) h ⟨f, hf⟩ hok)
      unfold commitKid
      split
      · exact .inl rfl
      · exact .inr rfl
    · exact h
  | setLoaded father =>
    simp only [Vfsd.step, Option.ite_none_right_eq_some, Option.some.injEq] at ht
    obtain ⟨-, rfl⟩ := ht
    exact hI.loaded s father h
  | reap cpid =>
    simp only [Vfsd.step, Option.ite_none_right_eq_some, Option.some.injEq] at ht
    obtain ⟨-, rfl⟩ := ht
    have hc := hI.clearZombie h hok
    unfold Vfsd.reapChild
    generalize s.clearZombie cpid = t at hc ⊢
    exact hI.calm t _ hc (.frame rfl rfl rfl rfl rfl rfl)
  | newNode pid i dir nodeOnly writeOver createOpen =>
    cases ht
    exact hI.doNewNode h hok
  | newNodes pid dir infos =>
    cases ht
    unfold Vfsd.doNewNodes
    split
    · exact h
    rename_i f hf
    split
    · exact hI.makeKids (fun s i => .inr rfl) h ⟨f, hf⟩ hok.2
    · exact h
  | delNode pid n =>
    cases ht
    unfold Vfsd.doDelNode
    split
    · exact h
    rename_i x hx
    split
    · rename_i hmay
      rcases Nat.eq_zero_or_pos x.refs with hfree | hopen
      · exact hI.delNode s pid n x h hok.1 hx hmay (hok.2 x hx hmay hfree)
      · -- an open node is refused at once
        have hsame : (s.delNode n).1 = s := by
          change (delDepth (511 + 1) s n).1 = s
          rw [delDepth, hx]
          exact congrArg Prod.fst (if_pos hopen)
        rw [hsame]
        exact h
    · exact h
  | mount pid org n =>
    cases ht
    unfold Vfsd.doMount
    split
    · exact h
    rename_i o ho
    split
    swap
    · exact h
    rename_i hacc
    cases hm : s.mount pid org n with
    | none => exact h
    | some t => exact hI.mount s t pid org n o h hok.1 ho hacc (hok.2 o ho hacc (by rw [hm]; rfl)) hm
  | umount pid n =>
    cases ht
    unfold Vfsd.umount
    split
    · exact h
    rename_i x hx
    split
    · rename_i hmay
      exact hI.umount s pid n x h hok.1 hx hmay.1 hmay.2 (hok.2 x hx hmay.1 hmay.2)
    · exact h
  | setFsinfo pid n i kind =>
    cases ht
    exact hI.doSetFsinfo h hok
  | setByFd pid k i =>
    cases ht
    unfold Vfsd.doSetByFd
    split
    · exact h
    · exact hI.calm s _ h ((Calm.refl s).setFd _ _ _)
  | openNode pid n fl =>
    cases ht
    exact hI.doOpen h hok
  | close pid k =>
    cases ht
    exact hI.close h hok.2
  | dup pid k =>
    cases ht
    unfold Vfsd.dup
    dsimp only
    split
    · exact h
    split
    · rename_i j f hj hf
      exact hI.calm s _ h (((Calm.refl s).setFd (s.ownerPid pid) j (some f)).hold f.node f.write)
    · exact h
  | dup2 pid k j =>
    cases ht
    exact hI.dup2 h hok
  | procClone pid fpid cpid =>
    cases ht
    exact hI.procClone h hok
  | procExit pid cpid =>
    cases ht
    exact hI.procExit h hok
  | block pid n rd wr =>
    cases ht
    exact hI.block h hok.2
  | unblock pid n =>
    cases ht
    unfold Vfsd.unblock
    dsimp only
    split
    · exact h
    · exact hI.calm s _ h (.frame rfl rfl rfl rfl rfl rfl)

end Keeps

end EwokOS.Vfs
