import EwokOS.Kernel.Kinship

/-! Authority follows the address space, along every run that keeps the father links in order.

    A link goes wrong in three ways: a thread detaches itself from its process (`father_pid = 0`
    makes init its owner), a thread dies before the threads it created (the slot it leaves may be
    taken by anybody), or a process that still has threads is put to death by an END call without a
    handler in flight. `Orderly` excludes exactly these. `Succeeds` is what every other step does to
    the processes: those of the old spaces are the same as before. -/

namespace EwokOS.Kernel.Tasks

open Schemes (Leads Reach Free)
open Capability (Cnode Query answers)

/-- The family is in order after a step, and every process of an old space was there before, with
    the same cnode and uid. -/
structure Succeeds (cfg : Config) (k k' : Sys) : Prop where
  family : Family cfg k'
  grows : k.spaceNum ≤ k'.spaceNum
  old : ∀ p P', k'.table p = some P' → P'.type = .proc → P'.space < k.spaceNum →
    ∃ P, k.table p = some P ∧ P.type = .proc ∧ P.space = P'.space ∧ P.cnode = P'.cnode ∧
      P.uid = P'.uid

namespace Succeeds
open Sys
variable {cfg : Config} {k k' k'' : Sys} {D : Set ℤ}

theorem refl (hk : Family cfg k) : Succeeds cfg k k :=
  ⟨hk, le_rfl, fun _ P hP ht _ => ⟨P, hP, ht, rfl, rfl, rfl⟩⟩

theorem trans (h : Succeeds cfg k k') (h' : Succeeds cfg k' k'') : Succeeds cfg k k'' := by
  refine ⟨h'.family, h.grows.trans h'.grows, ?_⟩
  intro p P'' hP'' htype hlt
  obtain ⟨P', hP', ht', hs', hc', hu'⟩ := h'.old p P'' hP'' htype (hlt.trans_le h.grows)
  obtain ⟨P, hP, ht, hs, hc, hu⟩ := h.old p P' hP' ht' (hs' ▸ hlt)
  exact ⟨P, hP, ht, hs.trans hs', hc.trans hc', hu.trans hu'⟩

/-- Deaths that leave no thread behind. -/
theorem of_reaps (h : Reaps D k k') (hk : Family cfg k)
    (hD : ∀ pid t, k.table pid = some t → t.type = .thread → k.Live pid → k'.Live pid →
      t.fatherPid ∉ D) : Succeeds cfg k k' := by
  have hnum : k'.spaceNum = k.spaceNum := congrArg Book.spaceNum h.book
  refine ⟨h.family hk hD, hnum.ge, ?_⟩
  intro p P' hP' htype _
  have hlook := congrFun h.look p
  rw [Sys.look, Sys.look, kin_of_table hP', Option.map_some] at hlook
  obtain ⟨x, hx, he⟩ := Option.map_eq_some_iff.mp hlook.symm
  obtain ⟨P, hP, rfl⟩ := Option.map_eq_some_iff.mp hx
  simp only [Kin.mk.injEq] at he
  exact ⟨P, hP, he.1.trans htype, he.2.2.1, he.2.2.2.2.2.2.2.1, he.2.2.2.2.1⟩

theorem of_frame (h : Frame ∅ k k') (hk : Family cfg k) : Succeeds cfg k k' :=
  of_reaps (.of_frame h) hk fun _ _ _ _ _ _ => Set.notMem_empty _

theorem of_tame (h : Tame k k') (hk : Family cfg k) : Succeeds cfg k k' := of_frame h.toFrame hk

end Succeeds

namespace Sys
variable {cfg : Config} {k k' : Sys} {pid i : ℤ} {t u : Task} {D : Set ℤ}

/-! ### Writes that leave the links alone -/

theorem family_modTask {f : Task → Task} (hk : Family cfg k)
    (hf : ∀ t, (f t).type = t.type ∧ (f t).space = t.space ∧
      (f t).isCoreIdleProc = t.isCoreIdleProc ∧ (f t).fatherPid = t.fatherPid ∧
      (f t).state.live = t.state.live) : Family cfg (k.modTask pid f) := by
  have hlive : ∀ p, (k.modTask pid f).Live p ↔ k.Live p := by
    intro p
    constructor
    · rintro ⟨u, hu, hul⟩
      rcases modTask_cases hu with ⟨rfl, t, ht, rfl⟩ | ⟨-, hu⟩
      · exact ⟨t, ht, (hf t).2.2.2.2 ▸ hul⟩
      · exact ⟨u, hu, hul⟩
    · rintro ⟨u, hu, hul⟩
      rcases eq_or_ne p pid with rfl | hne
      · exact ⟨f u, by rw [modTask_self, hu]; rfl, (hf u).2.2.2.2.trans hul⟩
      · exact ⟨u, (modTask_ne hne).trans hu, hul⟩
  refine hk.mono ?_ rfl ?_
  · intro p x hx
    rcases eq_or_ne p pid with rfl | hne
    · obtain ⟨u, hu, rfl⟩ := Option.map_eq_some_iff.mp hx
      rcases modTask_cases hu with ⟨-, t, ht, rfl⟩ | ⟨hne, -⟩
      · rw [shape_of_table ht, (hf t).1, (hf t).2.1, (hf t).2.2.1]
      · exact absurd rfl hne
    · rwa [shape, modTask_ne hne] at hx
  · intro p t ht htype hl
    have hl := (hlive p).mp hl
    refine ⟨hl, ?_, (hlive _).mpr (hk.father_live ht ((live_of_table ht).mp hl) htype)⟩
    rcases eq_or_ne p pid with rfl | hne
    · rw [fatherOf, fatherOf, modTask_self, ht, Option.map_some, Option.map_some, Option.map_some,
        (hf t).2.2.2.1]
    · rw [fatherOf, fatherOf, modTask_ne hne]

/-- Only the table and the number of spaces matter. -/
theorem family_congr (hk : Family cfg k) (ht : k'.table = k.table) (hn : k'.spaceNum = k.spaceNum) :
    Family cfg k' := by
  have hlive : ∀ p, k'.Live p ↔ k.Live p := fun p => by rw [Live, Live, ht]
  refine hk.mono (fun p x hx => by rwa [shape, ht] at hx) hn ?_
  intro p t htab htype hl
  have hl := (hlive p).mp hl
  refine ⟨hl, by rw [fatherOf, fatherOf, ht], (hlive _).mpr ?_⟩
  exact hk.father_live htab ((live_of_table htab).mp hl) htype

/-! ### Births -/

/-- A task born into a free slot: a process in a space of its own, or a thread of a live task. -/
theorem family_born (hk : Family cfg k) (hn : k.table i = none)
    (hi : 0 ≤ i ∧ i < cfg.maxTaskNum) (ht : k'.table = Function.update k.table i (some u))
    (hnum : k.spaceNum ≤ k'.spaceNum) (hlt : u.space < k'.spaceNum)
    (hproc : u.type = .proc → u.space = k.spaceNum)
    (hthread : u.type = .thread → u.isCoreIdleProc = false ∧
      ∃ F, k.table u.fatherPid = some F ∧ F.state.live = true ∧ F.space = u.space) :
    Family cfg k' := by
  have hself : k'.table i = some u := by rw [ht, Function.update_self]
  have hother : ∀ p, p ≠ i → k'.table p = k.table p := fun p hp => by
    rw [ht, Function.update_of_ne hp]
  have hold : ∀ p t, k.table p = some t → k'.table p = some t := fun p t htab => by
    have hp : p ≠ i := fun h => by rw [h, hn] at htab; cases htab
    rw [hother p hp, htab]
  have hcases : ∀ p t, k'.table p = some t → p = i ∧ t = u ∨ k.table p = some t := by
    intro p t htab
    rcases eq_or_ne p i with rfl | hp
    · rw [hself, Option.some.injEq] at htab
      exact .inl ⟨rfl, htab.symm⟩
    · exact .inr (hother p hp ▸ htab)
  have hfresh : ∀ p t, k.table p = some t → u.type = .proc → t.space ≠ u.space := by
    intro p t htab htype hsame
    have := hk.spaces p t htab
    rw [hsame, hproc htype] at this
    exact lt_irrefl _ this
  -- old chains are still there
  have hlead : ∀ p n x, Leads k.hop p n x → Leads k'.hop p n x := by
    have hhop : ∀ x y, k.hop x = some y → k'.hop x = some y := by
      intro x y hx
      obtain ⟨t, htab, hl, ⟨htype, rfl⟩ | ⟨htype, rfl⟩⟩ := hop_cases hx
      · exact hop_proc (hold x t htab) hl htype
      · exact hop_thread (hold x t htab) hl htype
    intro p n x h
    exact h.mono (P := fun _ => True) trivial (fun x c _ hx => hhop x _ hx)
      fun x y _ hx => ⟨hhop x _ hx, trivial⟩
  refine ⟨?_, ?_, ?_, ?_, ?_, ?_⟩
  · intro p t htab
    rcases hcases p t htab with ⟨rfl, -⟩ | htab
    · exact hi
    · exact hk.range p t htab
  · intro p t htab
    rcases hcases p t htab with ⟨-, rfl⟩ | htab
    · exact hlt
    · exact (hk.spaces p t htab).trans_le hnum
  · intro p q P Q hP hQ hPt hQt hPQ
    rcases hcases p P hP with ⟨rfl, rfl⟩ | hP
    · rcases hcases q Q hQ with ⟨rfl, -⟩ | hQ
      · rfl
      · exact absurd hPQ.symm (hfresh q Q hQ hPt)
    · rcases hcases q Q hQ with ⟨rfl, rfl⟩ | hQ
      · exact absurd hPQ (hfresh p P hP hQt)
      · exact hk.solo p q P Q hP hQ hPt hQt hPQ
  · intro p t htab hflag
    rcases hcases p t htab with ⟨-, rfl⟩ | htab
    · cases htype : t.type with
      | proc => rfl
      | thread => rw [(hthread htype).1] at hflag; cases hflag
    · exact hk.idle p t htab hflag
  · intro p t htab hl htype
    rcases hcases p t htab with ⟨-, rfl⟩ | htab
    · obtain ⟨-, F, hF, -, hFs⟩ := hthread htype
      exact ⟨F, hold _ F hF, hFs⟩
    · obtain ⟨F, hF, hFs⟩ := hk.father p t htab hl htype
      exact ⟨F, hold _ F hF, hFs⟩
  · rintro p ⟨t, htab, hl⟩
    rcases hcases p t htab with ⟨rfl, rfl⟩ | htab
    · cases htype : t.type with
      | proc => exact ⟨p, 0, .stop (hop_proc hself hl htype)⟩
      | thread =>
        obtain ⟨-, F, hF, hFl, -⟩ := hthread htype
        obtain ⟨q, n, h⟩ := hk.led _ ⟨F, hF, hFl⟩
        exact ⟨q, n + 1, .go (hop_thread hself hl htype) (hlead q n _ h)⟩
    · obtain ⟨q, n, h⟩ := hk.led p ⟨t, htab, hl⟩
      exact ⟨q, n, hlead q n p h⟩

/-- Creation: what is born is new, and everybody else is as before. -/
theorem succeeds_born (hk : Family cfg k) (hn : k.table i = none)
    (hi : 0 ≤ i ∧ i < cfg.maxTaskNum) (ht : k'.table = Function.update k.table i (some u))
    (hnum : k.spaceNum ≤ k'.spaceNum) (hlt : u.space < k'.spaceNum)
    (hproc : u.type = .proc → u.space = k.spaceNum)
    (hthread : u.type = .thread → u.isCoreIdleProc = false ∧
      ∃ F, k.table u.fatherPid = some F ∧ F.state.live = true ∧ F.space = u.space) :
    Succeeds cfg k k' := by
  refine ⟨family_born hk hn hi ht hnum hlt hproc hthread, hnum, ?_⟩
  intro p P' hP' htype hold
  rcases eq_or_ne p i with rfl | hp
  · rw [ht, Function.update_self, Option.some.injEq] at hP'
    subst hP'
    rw [hproc htype] at hold
    exact absurd hold (lt_irrefl _)
  · rw [ht, Function.update_of_ne hp] at hP'
    exact ⟨P', hP', htype, rfl, rfl, rfl⟩

/-! ### Burials -/

/-- Who lives stays who it is. -/
def Stays (k k' : Sys) : Prop := ∀ p u, k.table p = some u → u.state.live = true →
  ∃ u', k'.table p = some u' ∧ u'.state.live = true ∧ u'.toKin = u.toKin

theorem Stays.trans {k'' : Sys} (h : k.Stays k') (h' : k'.Stays k'') : k.Stays k'' := by
  intro p u hu hl
  obtain ⟨u', hu', hl', hkin⟩ := h p u hu hl
  obtain ⟨u'', hu'', hl'', hkin'⟩ := h' p u' hu' hl'
  exact ⟨u'', hu'', hl'', hkin'.trans hkin⟩

theorem stays_of_frame (h : Frame ∅ k k') : k.Stays k' := by
  intro p u hu hl
  obtain ⟨u', hu', hl'⟩ := h.live p (Set.notMem_empty p) ⟨u, hu, hl⟩
  have hkin := congrFun h.kin p
  rw [kin_of_table hu', kin_of_table hu, Option.some.injEq] at hkin
  exact ⟨u', hu', hl', hkin⟩

/-- A dead task leaves its slot. -/
theorem succeeds_leave (hk : Family cfg k) (ht : k.table pid = some t)
    (hd : t.state.live = false) :
    Succeeds cfg k (k.setSlot pid none) ∧ k.Stays (k.setSlot pid none) := by
  have hgone : ∀ p u, (k.setSlot pid none).table p = some u → p ≠ pid ∧ k.table p = some u := by
    intro p u hu
    rcases eq_or_ne p pid with rfl | hne
    · rw [setSlot_self] at hu
      cases hu
    · exact ⟨hne, setSlot_ne hne ▸ hu⟩
  have hlive : ∀ p, k.Live p → (k.setSlot pid none).Live p := by
    rintro p ⟨u, hu, hul⟩
    have hne : p ≠ pid := by
      rintro rfl
      rw [ht, Option.some.injEq] at hu
      rw [← hu, hd] at hul
      cases hul
    exact ⟨u, (setSlot_ne hne).trans hu, hul⟩
  refine ⟨⟨hk.mono ?_ rfl ?_, le_rfl, ?_⟩, ?_⟩
  · intro p x hx
    obtain ⟨u, hu, rfl⟩ := Option.map_eq_some_iff.mp hx
    exact shape_of_table (hgone p u hu).2
  · rintro p u hu htype ⟨v, hv, hvl⟩
    obtain ⟨hne, hv⟩ := hgone p v hv
    refine ⟨⟨v, hv, hvl⟩, by rw [fatherOf, fatherOf, setSlot_ne hne], hlive _ ?_⟩
    rw [hu, Option.some.injEq] at hv
    exact hk.father_live hu (hv ▸ hvl) htype
  · intro p P hP htype _
    exact ⟨P, (hgone p P hP).2, htype, rfl, rfl, rfl⟩
  · intro p u hu hul
    obtain ⟨v, hv, hvl⟩ := hlive p ⟨u, hu, hul⟩
    have hv' := (hgone p v hv).2
    rw [hu, Option.some.injEq] at hv'
    exact ⟨v, hv, hvl, by rw [hv']⟩

theorem succeeds_procFuneral {waiters : List ℤ} (c : ℕ) (hk : Family cfg k) :
    Succeeds cfg k (k.procFuneral cfg c t waiters) ∧ k.Stays (k.procFuneral cfg c t waiters) := by
  have hstay : k.Stays k := fun p u hu hl => ⟨u, hu, hl, rfl⟩
  unfold procFuneral
  split
  · exact ⟨.refl hk, hstay⟩
  · exact ⟨.refl hk, hstay⟩
  · have hk₁ : Family cfg (k.modSpace t.space fun s => { s with refs := s.refs - 1 }) :=
      family_congr hk rfl rfl
    have hwake := @tame_wakeAll cfg (k.modSpace t.space fun s => { s with refs := s.refs - 1 }) waiters
    refine ⟨?_, fun p u hu hl => stays_of_frame hwake.toFrame p u hu hl⟩
    exact Succeeds.trans ⟨hk₁, le_rfl, fun p P hP ht _ => ⟨P, hP, ht, rfl, rfl, rfl⟩⟩
      (.of_tame hwake hk₁)

theorem canReap_zombie (h : k.canReap pid = true) (ht : k.table pid = some t) :
    t.state = .zombie := by
  rw [canReap, ht, Option.any_some, decide_eq_true_iff] at h
  exact h.1

theorem succeeds_bury {waiters : List ℤ} (c : ℕ) (hk : Family cfg k) :
    Succeeds cfg k (k.bury cfg c pid waiters) ∧ k.Stays (k.bury cfg c pid waiters) := by
  have hstay : k.Stays k := fun p u hu hl => ⟨u, hu, hl, rfl⟩
  unfold bury
  split
  case h_1 => exact ⟨.refl hk, hstay⟩
  case h_2 t ht =>
    split_ifs with hr
    · obtain ⟨hleave, hstay⟩ := succeeds_leave hk ht (by rw [canReap_zombie hr ht]; rfl)
      obtain ⟨hfuneral, hstay'⟩ := @succeeds_procFuneral cfg _ t waiters c hleave.family
      exact ⟨hleave.trans hfuneral, hstay.trans hstay'⟩
    · exact ⟨.refl hk, hstay⟩

theorem succeeds_zombieFuneral {graced : ℤ → Bool} {released : ℤ → List ℤ} (c n : ℕ)
    (hk : Family cfg k) :
    Succeeds cfg k (zombieFuneral cfg c graced released n k) ∧
      k.Stays (zombieFuneral cfg c graced released n k) := by
  induction n generalizing k with
  | zero => exact ⟨.refl hk, fun p u hu hl => ⟨u, hu, hl, rfl⟩⟩
  | succ n ih =>
    unfold zombieFuneral
    split
    · exact ⟨.refl hk, fun p u hu hl => ⟨u, hu, hl, rfl⟩⟩
    case h_2 p _ =>
      obtain ⟨hbury, hstay⟩ := @succeeds_bury cfg k p (released p) c hk
      obtain ⟨hrest, hstay'⟩ := ih hbury.family
      exact ⟨hbury.trans hrest, hstay.trans hstay'⟩

theorem succeeds_procWaitpid {p : ℤ} {waiters : List ℤ} (c : ℕ) (hp : k.Live pid)
    (hk : Family cfg k) : Succeeds cfg k (k.procWaitpid cfg c pid p waiters) := by
  unfold procWaitpid
  split
  · exact .refl hk
  · split_ifs
    · exact .refl hk
    · exact (succeeds_bury c hk).1
    · have hset : Tame k (k.modTask pid fun t => { t with waitFor := p }) :=
        tame_modTask (fun _ => rfl) (fun _ => rfl) fun _ => rfl
      obtain ⟨t, ht, hl⟩ := hp
      have hpark := (hset.trans (@tame_procUnready _ _ .wait (by decide) rfl
        ((wakeable_of_live ht hl).frame hset.toFrame))).trans (tame_schedule c)
      have hk₁ := Succeeds.of_tame hpark hk
      exact hk₁.trans (succeeds_bury c hk₁.family).1

/-! ### Forks -/

theorem succeeds_procCreate_none {type : TaskType} {parent : ℤ} {a : Alloc} (hk : Family cfg k)
    (hc : k.procCreate cfg type parent a = (k', none)) : Succeeds cfg k k' ∧ k.Stays k' := by
  rcases procCreate_none hc with rfl | ⟨n, rfl⟩
  · exact ⟨.refl hk, fun p u hu hl => ⟨u, hu, hl, rfl⟩⟩
  · exact ⟨⟨family_congr hk rfl rfl, le_rfl, fun p P hP ht _ => ⟨P, hP, ht, rfl, rfl, rfl⟩⟩,
      fun p u hu hl => ⟨u, hu, hl, rfl⟩⟩

/-- What a creation makes, whatever its caller writes into it next: a process in a new space, or a
    thread of a live parent. -/
theorem succeeds_procCreate_some {type : TaskType} {parent : ℤ} {a : Alloc} (hk : Family cfg k)
    (hp : type = .thread → k.Live parent)
    (hc : k.procCreate cfg type parent a = (k', some i)) :
    ∃ u, k'.table i = some u ∧ u.type = type ∧ u.state = .created ∧
      u.isCoreIdleProc = false ∧ u.cnode = k.bornCnode cfg parent ∧
      ∀ f : Task → Task, (f u).type = u.type → (f u).space = u.space →
        (f u).fatherPid = u.fatherPid → ((f u).isCoreIdleProc = true → type = .proc) →
        Succeeds cfg k (k'.modTask i f) ∧ k.Stays (k'.modTask i f) := by
  obtain ⟨t, ht, hi, rfl⟩ := procCreate_some hc
  have hn := freeSlot_none hi
  refine ⟨k.newTask cfg type parent t, setSlot_self, rfl, rfl, rfl, rfl, ?_⟩
  intro f htype hspace hfather hflag
  generalize hk' : ({ (k.newSpace type t).setSlot i (some (k.newTask cfg type parent t)) with
    lastCreatePid := i.toNat + 1, procUuid := k.nextUuid } : Sys).modTask i f = k'
  have htab : k'.table = Function.update k.table i (some (f (k.newTask cfg type parent t))) := by
    rw [← hk']
    simp only [modTask, setSlot, Function.update_self, Option.map_some, Function.update_idem,
      newSpace_table]
  have hnum : k'.spaceNum = (k.newSpace type t).spaceNum := by rw [← hk']; rfl
  refine ⟨succeeds_born hk hn (freeSlot_range hi) htab ?_ ?_ ?_ ?_, ?_⟩
  · rw [hnum]
    cases type with
    | proc => exact Nat.le_succ _
    | thread => exact le_rfl
  · rw [hspace, hnum]
    cases type with
    | proc => exact Nat.lt_succ_self _
    | thread => exact hk.spaces parent t ht
  · intro h
    rw [htype] at h
    rw [hspace]
    cases type with
    | proc => rfl
    | thread => cases h
  · intro h
    rw [htype] at h
    have hthread : type = .thread := h
    refine ⟨?_, t, ?_, ?_, ?_⟩
    · refine Bool.eq_false_of_not_eq_true fun hf => ?_
      rw [hflag hf] at hthread
      cases hthread
    · rw [hfather]
      exact ht
    · exact (live_of_table ht).mp (hp hthread)
    · rw [hspace, hthread]
      rfl
  · intro p v hv hvl
    have hne : p ≠ i := fun h => by rw [h, hn] at hv; cases hv
    exact ⟨v, by rw [htab, Function.update_of_ne hne, hv], hvl, rfl⟩

/-- The same for a fork, which may sweep the table first. -/
theorem succeeds_kforkRaw {type : TaskType} {b : Birth} (c : ℕ) (hk : Family cfg k)
    (hp : type = .thread → k.Live pid) {o : Option ℤ} (hr : k.kforkRaw cfg c type pid b = (k', o)) :
    (o = none → Succeeds cfg k k') ∧ ∀ i, o = some i →
      ∃ u k₁, k'.table i = some u ∧ u.type = type ∧ u.state = .created ∧
        u.isCoreIdleProc = false ∧ Succeeds cfg k k₁ ∧ k.Stays k₁ ∧ u.cnode = k₁.bornCnode cfg pid ∧
        ∀ f : Task → Task, (f u).type = u.type → (f u).space = u.space →
          (f u).fatherPid = u.fatherPid → ((f u).isCoreIdleProc = true → type = .proc) →
          Succeeds cfg k (k'.modTask i f) ∧ k.Stays (k'.modTask i f) := by
  unfold kforkRaw at hr
  split at hr
  case h_1 k'' j hc =>
    cases hr
    refine ⟨fun h => (by cases h), fun i hi => ?_⟩
    cases hi
    obtain ⟨u, hu, htype, hst, hflag, hcn, hf⟩ := succeeds_procCreate_some hk hp hc
    exact ⟨u, k, hu, htype, hst, hflag, .refl hk, fun p v hv hl => ⟨v, hv, hl, rfl⟩, hcn, hf⟩
  case h_2 k'' hc =>
    obtain ⟨hfirst, hstay₁⟩ := succeeds_procCreate_none hk hc
    obtain ⟨hsweep, hstay₂⟩ := @succeeds_zombieFuneral cfg k'' (fun _ => false) b.released c
      cfg.maxTaskNum hfirst.family
    have hs := hfirst.trans hsweep
    have hstay := hstay₁.trans hstay₂
    have hp' : type = .thread →
        (k''.procZombieFuneral cfg c (fun _ => false) b.released).Live pid := by
      intro h
      obtain ⟨v, hv, hvl⟩ := hp h
      obtain ⟨v', hv', hvl', -⟩ := hstay pid v hv hvl
      exact ⟨v', hv', hvl'⟩
    cases o with
    | none =>
      exact ⟨fun _ => hs.trans (succeeds_procCreate_none hs.family hr).1, fun i hi => by cases hi⟩
    | some j =>
      refine ⟨fun h => (by cases h), fun i hi => ?_⟩
      cases hi
      obtain ⟨u, hu, htype, hst, hflag, hcn, hf⟩ := succeeds_procCreate_some hs.family hp' hr
      refine ⟨u, _, hu, htype, hst, hflag, hs, hstay, hcn, fun f h₁ h₂ h₃ h₄ => ?_⟩
      obtain ⟨hsucc, hst'⟩ := hf f h₁ h₂ h₃ h₄
      exact ⟨hs.trans hsucc, hstay.trans hst'⟩

theorem succeeds_kfork {type : TaskType} {b : Birth} (c : ℕ) (hk : Family cfg k)
    (hp : type = .thread → k.Live pid) :
    Succeeds cfg k (k.kfork cfg c type pid b).1 ∧ ∀ i, (k.kfork cfg c type pid b).2 = some i →
      k.Stays (k.kfork cfg c type pid b).1 ∧ (k.kfork cfg c type pid b).1.Live i := by
  unfold kfork
  split
  case h_1 k' hr => exact ⟨(succeeds_kforkRaw c hk hp hr).1 rfl, fun i hi => by cases hi⟩
  case h_2 k' i hr =>
    obtain ⟨u, -, hu, htype, hst, hflag, -, -, -, hf⟩ := (succeeds_kforkRaw c hk hp hr).2 i rfl
    have hid : k'.modTask i id = k' := by
      rw [modTask, Option.map_id, id, Function.update_eq_self]
    split_ifs with hclone
    · have h := (hf id rfl rfl rfl fun _ => hclone.1).1
      rw [hid] at h
      exact ⟨h, fun j hj => by cases hj⟩
    · obtain ⟨hcore, hstay⟩ := hf (fun t => { t with core := b.core }) rfl rfl rfl
        fun h => absurd (hflag.symm.trans h) (by decide)
      have hlive : (k'.modTask i fun t => { t with core := b.core }).Live i :=
        ⟨{ u with core := b.core }, by rw [modTask_self, hu]; rfl, by dsimp only; rw [hst]; rfl⟩
      dsimp only
      split_ifs
      · exact ⟨hcore, fun j hj => by cases hj; exact ⟨hstay, hlive⟩⟩
      · obtain ⟨v, hv, hvl⟩ := hlive
        have hready := @tame_procReadyWithOrder cfg _ i false (wakeable_of_live hv hvl)
        refine ⟨hcore.trans (.of_tame hready hcore.family), fun j hj => ?_⟩
        cases hj
        exact ⟨hstay.trans (stays_of_frame hready.toFrame),
          hready.live i (Set.notMem_empty i) ⟨v, hv, hvl⟩⟩

theorem succeeds_sysFork {b : Birth} (c : ℕ) (hk : Family cfg k) (hp : k.Live pid) :
    Succeeds cfg k (k.sysFork cfg c pid b) := by
  obtain ⟨hfork, hborn⟩ := @succeeds_kfork cfg k pid .proc b c hk fun h => by cases h
  unfold sysFork
  split
  case h_1 k' hr => rw [hr] at hfork; exact hfork
  case h_2 k' i hr =>
    rw [hr] at hfork hborn
    obtain ⟨hstay, hi⟩ := hborn i rfl
    split_ifs
    · -- parent and child are parked, both alive
      have h₁ : Frame ∅ k' (k'.setState i .block) :=
        frame_setState_live rfl (wakeable_of_isLive hi)
      obtain ⟨t, ht, hl⟩ := hp
      obtain ⟨t', ht', hl', -⟩ := (hstay.trans (stays_of_frame h₁)) pid t ht hl
      have h₂ : Frame ∅ k' ((k'.setState i .block).setState pid .block) :=
        h₁.trans (frame_setState_live rfl (wakeable_of_live ht' hl'))
      have h₃ := (h₂.trans (@tame_wakeAll cfg _ b.event).toFrame).trans (tame_schedule c).toFrame
      exact hfork.trans (.of_frame h₃ hfork.family)
    · exact hfork

theorem succeeds_poolSpawn {b : Birth} (c : ℕ) (hk : Family cfg k) (hp : k.Live pid) :
    Succeeds cfg k (k.poolSpawn cfg c pid b) := by
  unfold poolSpawn
  split
  case h_1 k' hr => exact (succeeds_kforkRaw c hk (fun _ => hp) hr).1 rfl
  case h_2 k' i hr =>
    obtain ⟨u, -, -, -, -, hflag, -, -, -, hf⟩ := (succeeds_kforkRaw c hk (fun _ => hp) hr).2 i rfl
    exact (hf _ rfl rfl rfl fun h => absurd (hflag.symm.trans h) (by decide)).1

theorem succeeds_coreHalt {b : Birth} (core : ℕ) (hk : Family cfg k) :
    Succeeds cfg k (k.coreHalt cfg core b) := by
  unfold coreHalt
  split
  case h_1 k' hr => exact (succeeds_kforkRaw core hk (fun h => by cases h) hr).1 rfl
  case h_2 k' i hr =>
    obtain ⟨u, -, -, -, -, -, -, -, -, hf⟩ :=
      (succeeds_kforkRaw core hk (fun h => by cases h) hr).2 i rfl
    have h := (hf (fun t => { t with
      core := core, isCoreIdleProc := true, state := .running, waitFor := 0 }) rfl rfl rfl
        fun _ => rfl).1
    generalize (k'.modTask i fun t => { t with
      core := core, isCoreIdleProc := true, state := .running, waitFor := 0 }) = k₁ at h ⊢
    have h₁ : Succeeds cfg k { k₁ with idle := Function.update k'.idle core (some i) } :=
      ⟨family_congr h.family rfl rfl, h.grows, h.old⟩
    exact h₁.trans (.of_tame (tame_setCurrentProc core) h₁.family)

/-! ### Exits -/

/-- No live thread was created by `i`. -/
def Childless (k : Sys) (i : ℤ) : Prop :=
  ∀ j u, k.table j = some u → u.state.live = true → u.type = .thread → u.fatherPid ≠ i

/-- Who may end: a thread that leaves no thread behind, a process whose own threads leave none. -/
def MayEnd (k : Sys) (pid : ℤ) : Prop :=
  ∀ t, k.table pid = some t → match t.type with
    | .thread => k.Childless pid
    | .proc => ∀ i ∈ k.childThreads pid, k.Childless i

theorem succeeds_procTerminate {w : ℤ → List ℤ} {late : List ℤ} (c : ℕ) (hk : Family cfg k)
    (hend : k.MayEnd pid) : Succeeds cfg k (k.procTerminate cfg c pid w late) := by
  unfold procTerminate
  split
  case h_1 => exact .refl hk
  case h_2 t ht =>
    obtain ⟨ht, -⟩ := procGet_eq_some.mp ht
    have hend := hend t ht
    split_ifs with htype
    · rw [htype] at hend
      refine .of_reaps (reaps_terminateThread ht (hk.not_revivable ht htype)).1 hk ?_
      intro p u hu hut hl _ hmem
      exact hend p u hu ((live_of_table hu).mp hl) hut hmem
    · have hproc : t.type = .proc := by
        cases h : t.type with
        | proc => rfl
        | thread => exact absurd h htype
      rw [hproc] at hend
      obtain ⟨hreap, hdead⟩ := @reaps_terminateProc cfg k pid w late c t.space hk
      refine .of_reaps hreap hk ?_
      rintro p u hu hut hl hl' (hmem | hmem)
      · exact hdead p ⟨u, hu, hut, hmem⟩ hl'
      · exact hend _ hmem p u hu ((live_of_table hu).mp hl) hut rfl

theorem succeeds_procExit {w : ℤ → List ℤ} {late : List ℤ} (c : ℕ) (hk : Family cfg k)
    (hend : k.MayEnd pid) : Succeeds cfg k (k.procExit cfg c pid w late) := by
  have h := @succeeds_procTerminate cfg k pid w late c hk hend
  exact h.trans (.of_tame (tame_schedule c) h.family)

/-- Wakes make no thread, so whoever may end still may. -/
theorem MayEnd.tame (h : k.MayEnd pid) (hk : Family cfg k) (ht : Tame k k') : k'.MayEnd pid := by
  have hback : ∀ p u, k'.table p = some u → ∃ v, k.table p = some v ∧ v.toKin = u.toKin := by
    intro p u hu
    have hp := kin_of_table hu
    rw [ht.kin] at hp
    exact Option.map_eq_some_iff.mp hp
  have hless : ∀ i, k.Childless i → k'.Childless i := by
    intro i hi j u hu hl htype hf
    obtain ⟨v, hv, hkin⟩ := hback j u hu
    have hvt : v.type = .thread := by rw [hkin, htype]
    refine hi j v hv ?_ hvt (by rw [hkin, hf])
    rcases ht.dead j ⟨u, hu, hl⟩ with hl' | ⟨x, hx, hr⟩
    · exact (live_of_table hv).mp hl'
    · rw [kin_of_table hv, Option.some.injEq] at hx
      exact absurd (hx ▸ hr) (hk.not_revivable hv hvt)
  intro t htab
  obtain ⟨v, hv, hkin⟩ := hback pid t htab
  have hmay := h v hv
  rw [hkin] at hmay
  cases htype : t.type with
  | thread =>
    rw [htype] at hmay
    exact hless pid hmay
  | proc =>
    rw [htype] at hmay
    intro i hi
    rw [childThreads_of_kin ht.kin] at hi
    exact hless i (hmay i hi)

/-! ### Restored states and detached tasks -/

/-- An END path that puts `pid` to death leaves no thread behind. -/
def MayRestore (k : Sys) (pid : ℤ) (v : Saved) : Prop := v.state.live = false → k.Childless pid

theorem succeeds_ends {v : Saved} {ok : Prop} (h : Ends (deadIf pid v) ok k k')
    (hk : Family cfg k) (hv : k.MayRestore pid v) : Succeeds cfg k k' := by
  refine .of_reaps (.of_frame h.toFrame) hk ?_
  rintro p u hu htype hl - ⟨hf, hdead⟩
  exact hv hdead p u hu ((live_of_table hu).mp hl) htype hf

theorem sysDetach_self (ht : k.table pid = some t) :
    (k.sysDetach pid).table pid = some { t with fatherPid := 0 } := by
  rw [sysDetach, modTask_self, ht]
  rfl

/-- Detaching looks like nothing: only the link changes. -/
theorem shape_sysDetach : (k.sysDetach pid).shape = k.shape := by
  funext p
  rcases eq_or_ne p pid with rfl | hne
  · rw [shape, shape, sysDetach, modTask_self, Option.map_map]
    rfl
  · rw [shape, shape, sysDetach, modTask_ne hne]

theorem live_sysDetach {p : ℤ} : (k.sysDetach pid).Live p ↔ k.Live p := by
  constructor
  · rintro ⟨u, hu, hul⟩
    rcases modTask_cases hu with ⟨rfl, t, ht, rfl⟩ | ⟨-, hu⟩
    · exact ⟨t, ht, hul⟩
    · exact ⟨u, hu, hul⟩
  · rintro ⟨u, hu, hul⟩
    rcases eq_or_ne p pid with rfl | hne
    · exact ⟨_, sysDetach_self hu, hul⟩
    · exact ⟨u, (modTask_ne hne).trans hu, hul⟩

/-- A process may detach: nobody follows its link. -/
theorem family_detach_proc (hk : Family cfg k) (ht : k.table pid = some t) (hp : t.type = .proc) :
    Family cfg (k.sysDetach pid) := by
  refine hk.mono (fun p x hx => shape_sysDetach ▸ hx) rfl ?_
  intro p u hu htype hl
  have hl := live_sysDetach.mp hl
  have hne : p ≠ pid := by
    rintro rfl
    rw [ht, Option.some.injEq] at hu
    rw [← hu, hp] at htype
    cases htype
  refine ⟨hl, by rw [fatherOf, fatherOf, sysDetach, modTask_ne hne], live_sysDetach.mpr ?_⟩
  exact hk.father_live hu ((live_of_table hu).mp hl) htype

/-- A thread of init may detach too: the link it gets is the one its chain ends in. -/
theorem family_detach_init (hk : Family cfg k) (ht : k.table pid = some t)
    (hl : t.state.live = true) (hp : t.type = .thread) (ho : k.procGetProc cfg pid = some 0) :
    Family cfg (k.sysDetach pid) := by
  obtain ⟨p₀, I, hI, hItab, hIt, hIs, hIl⟩ := hk.owner ht hl
  rw [ho, Option.some.injEq] at hI
  subst hI
  have hne₀ : (0 : ℤ) ≠ pid := by
    rintro rfl
    rw [ht, Option.some.injEq] at hItab
    rw [← hItab, hp] at hIt
    cases hIt
  have hI' : (k.sysDetach pid).table 0 = some I := (modTask_ne hne₀).trans hItab
  refine hk.relink (fun p x hx => shape_sysDetach ▸ hx) rfl ?_ ?_
  · intro p u' hu' hul' htype'
    rcases modTask_cases hu' with ⟨rfl, u, hu, rfl⟩ | ⟨hne, hu⟩
    · rw [ht, Option.some.injEq] at hu
      exact ⟨I, hI', hIs.trans (by rw [← hu])⟩
    · obtain ⟨F, hF, hFs⟩ := hk.father p u' hu hul' htype'
      obtain ⟨F', hF', -, hs, -⟩ := @table_of_shape (k.sysDetach pid) k _ _
        shape_sysDetach.symm hF
      exact ⟨F', hF', hs.trans hFs⟩
  · intro p hp'
    obtain ⟨q, n, hlead⟩ := hk.led p (live_sysDetach.mp hp')
    clear hp'
    -- along the old chain, up to the detached thread, from where it is one hop to init
    induction hlead with
    | @stop a ha =>
      obtain ⟨u, hu, hul, ⟨htype, hx⟩ | ⟨-, hx⟩⟩ := hop_cases ha
      · have hne : a ≠ pid := by
          rintro rfl
          rw [ht, Option.some.injEq] at hu
          rw [← hu, hp] at htype
          cases htype
        exact ⟨a, 0, .stop (hop_proc ((modTask_ne hne).trans hu) hul htype)⟩
      · cases hx
    | @go a a' n ha _ ih =>
      obtain ⟨u, hu, hul, ⟨-, hx⟩ | ⟨htype, hx⟩⟩ := hop_cases ha
      · cases hx
      · cases hx
        rcases eq_or_ne a pid with rfl | hne
        · exact ⟨0, 1, .go (hop_thread (sysDetach_self hu) hul htype)
            (.stop (hop_proc hI' hIl hIt))⟩
        · obtain ⟨q', n', hlead'⟩ := ih
          exact ⟨q', n' + 1, .go (hop_thread ((modTask_ne hne).trans hu) hul htype) hlead'⟩

/-- Who may detach: a process, or a thread of init. -/
def MayDetach (cfg : Config) (k : Sys) (pid : ℤ) (t : Task) : Prop :=
  t.type = .proc ∨ k.procGetProc cfg pid = some 0

theorem succeeds_sysDetach (hk : Family cfg k) (ht : k.table pid = some t)
    (hl : t.state.live = true) (hd : k.MayDetach cfg pid t) :
    Succeeds cfg k (k.sysDetach pid) := by
  refine ⟨?_, le_rfl, ?_⟩
  · cases hp : t.type with
    | proc => exact family_detach_proc hk ht hp
    | thread => exact family_detach_init hk ht hl hp (hd.resolve_left (by rw [hp]; decide))
  · intro p P' hP' htype _
    rcases modTask_cases hP' with ⟨rfl, u, hu, rfl⟩ | ⟨-, hP⟩
    · exact ⟨u, hu, htype, rfl, rfl, rfl⟩
    · exact ⟨P', hP, htype, rfl, rfl, rfl⟩

end Sys
end EwokOS.Kernel.Tasks
