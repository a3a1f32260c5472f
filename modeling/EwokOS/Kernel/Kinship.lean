import Mathlib.Data.Int.Interval
import EwokOS.Kernel.System

/-! Whose authority a task has: the father links of the task table.

    `proc_get_proc` follows `father_pid` from a thread to the first process. `Family` says that
    this walk ends at the process of the task's own address space for every live task:

        thread --father--> thread --father--> process      all live, all in one space

    and `Family.mono` that it still does after anything that lets a living thread keep its father,
    alive. `Reaps D` is what the death of the tasks of `D` may do. -/

namespace EwokOS.Kernel.Tasks

open Schemes (Leads)

namespace Sys
variable (k : Sys)

/-- What kind of task a pid is, and in which address space. -/
def shape (pid : ℤ) : Option (TaskType × ℕ × Bool) :=
  (k.table pid).map fun t => (t.type, t.space, t.isCoreIdleProc)

def fatherOf (pid : ℤ) : Option ℤ := (k.table pid).map fun t => t.fatherPid

/-- Who a pid is, links and identity apart. -/
def look (pid : ℤ) : Option Kin := (k.kin pid).map fun x => { x with fatherPid := 0, uuid := 0 }

end Sys

/-- Every live task is led to the one process of its address space. -/
structure Family (cfg : Config) (k : Sys) : Prop where
  range : ∀ pid t, k.table pid = some t → 0 ≤ pid ∧ pid < cfg.maxTaskNum
  spaces : ∀ pid t, k.table pid = some t → t.space < k.spaceNum
  solo : ∀ p q P Q, k.table p = some P → k.table q = some Q → P.type = .proc → Q.type = .proc →
    P.space = Q.space → p = q
  idle : ∀ pid t, k.table pid = some t → t.isCoreIdleProc = true → t.type = .proc
  father : ∀ pid t, k.table pid = some t → t.state.live = true → t.type = .thread →
    ∃ F, k.table t.fatherPid = some F ∧ F.space = t.space
  led : ∀ pid, k.Live pid → ∃ p n, Leads k.hop p n pid

namespace Sys
variable {cfg : Config} {k k' : Sys} {pid p : ℤ} {t : Task} {n : ℕ} {D : Set ℤ}

/-! ### One hop -/

theorem hop_proc (ht : k.table pid = some t) (hl : t.state.live = true) (hp : t.type = .proc) :
    k.hop pid = some (.inl pid) := by
  rw [hop, procGet_eq_some.mpr ⟨ht, hl⟩, Option.map_some, if_pos hp]

theorem hop_thread (ht : k.table pid = some t) (hl : t.state.live = true) (hp : t.type = .thread) :
    k.hop pid = some (.inr t.fatherPid) := by
  rw [hop, procGet_eq_some.mpr ⟨ht, hl⟩, Option.map_some, if_neg (by rw [hp]; decide)]

/-- What a hop can be. -/
theorem hop_cases {x : ℤ ⊕ ℤ} (h : k.hop pid = some x) :
    ∃ t, k.table pid = some t ∧ t.state.live = true ∧
      (t.type = .proc ∧ x = .inl pid ∨ t.type = .thread ∧ x = .inr t.fatherPid) := by
  obtain ⟨t, ht, hx⟩ := Option.map_eq_some_iff.mp h
  obtain ⟨ht, hl⟩ := procGet_eq_some.mp ht
  refine ⟨t, ht, hl, ?_⟩
  cases htype : t.type with
  | proc => exact .inl ⟨rfl, by rw [← hx, if_pos htype]⟩
  | thread => exact .inr ⟨rfl, by rw [← hx, if_neg (by rw [htype]; decide)]⟩

theorem shape_of_table (ht : k.table pid = some t) :
    k.shape pid = some (t.type, t.space, t.isCoreIdleProc) := by rw [shape, ht]; rfl

/-- A shape read backwards. -/
theorem table_of_shape_imp {t' : Task} (hs : ∀ x, k'.shape pid = some x → k.shape pid = some x)
    (ht : k'.table pid = some t') :
    ∃ t, k.table pid = some t ∧ t.type = t'.type ∧ t.space = t'.space ∧
      t.isCoreIdleProc = t'.isCoreIdleProc := by
  obtain ⟨t, ht, he⟩ := Option.map_eq_some_iff.mp (hs _ (shape_of_table ht))
  simp only [Prod.mk.injEq] at he
  exact ⟨t, ht, he⟩

theorem table_of_shape {t' : Task} (hs : k'.shape = k.shape) (ht : k'.table pid = some t') :
    ∃ t, k.table pid = some t ∧ t.type = t'.type ∧ t.space = t'.space ∧
      t.isCoreIdleProc = t'.isCoreIdleProc :=
  table_of_shape_imp (fun _ h => hs ▸ h) ht

end Sys

namespace Family
open Sys
variable {cfg : Config} {k k' : Sys} {pid p : ℤ} {t : Task} {n : ℕ} {D : Set ℤ}

/-- A thread comes back from the dead for nobody. -/
theorem not_revivable (h : Family cfg k) (ht : k.table pid = some t) (hp : t.type = .thread) :
    ¬t.toKin.revivable := by
  rintro (hr | hr)
  · rw [hp] at hr
    cases hr
  · have := h.idle pid t ht hr
    rw [hp] at this
    cases this

/-- The father of a live thread lives. -/
theorem father_live (h : Family cfg k) (ht : k.table pid = some t) (hl : t.state.live = true)
    (hp : t.type = .thread) : k.Live t.fatherPid := by
  obtain ⟨p, n, hlead⟩ := h.led pid ⟨t, ht, hl⟩
  cases hlead with
  | stop ha => rw [hop_thread ht hl hp] at ha; cases ha
  | go ha hlead =>
    rw [hop_thread ht hl hp] at ha
    cases ha
    obtain ⟨x, hx⟩ := Option.isSome_iff_exists.mp hlead.isSome
    obtain ⟨F, hF, hFl, -⟩ := hop_cases hx
    exact ⟨F, hF, hFl⟩

/-- A chain stays in the address space it starts in, and ends at a process. -/
theorem lead_space (h : Family cfg k) (hlead : Leads k.hop p n pid) (ht : k.table pid = some t) :
    ∃ P, k.table p = some P ∧ P.type = .proc ∧ P.space = t.space ∧ P.state.live = true := by
  induction hlead generalizing t with
  | stop ha =>
    obtain ⟨u, hu, hul, ⟨htype, hx⟩ | ⟨-, hx⟩⟩ := hop_cases ha
    · cases hx
      rw [ht, Option.some.injEq] at hu
      subst hu
      exact ⟨t, ht, htype, rfl, hul⟩
    · cases hx
  | go ha _ ih =>
    obtain ⟨u, hu, hul, ⟨-, hx⟩ | ⟨htype, hx⟩⟩ := hop_cases ha
    · cases hx
    · cases hx
      rw [ht, Option.some.injEq] at hu
      subst hu
      obtain ⟨F, hF, hspace⟩ := h.father _ t ht hul htype
      obtain ⟨P, hP, hPt, hPs, hPl⟩ := ih hF
      exact ⟨P, hP, hPt, hPs.trans hspace, hPl⟩

/-- `proc_get_proc` of a live task is the process of its address space. -/
theorem owner (h : Family cfg k) (ht : k.table pid = some t) (hl : t.state.live = true) :
    ∃ p P, k.procGetProc cfg pid = some p ∧ k.table p = some P ∧ P.type = .proc ∧
      P.space = t.space ∧ P.state.live = true := by
  obtain ⟨p, n, hlead⟩ := h.led pid ⟨t, ht, hl⟩
  have hdepth := hlead.depth_lt (Finset.Ico (0 : ℤ) cfg.maxTaskNum) fun x hx => by
    obtain ⟨y, hy⟩ := Option.isSome_iff_exists.mp hx
    obtain ⟨u, hu, -⟩ := hop_cases hy
    exact Finset.mem_Ico.mpr (h.range x u hu)
  rw [Int.card_Ico, sub_zero, Int.toNat_natCast] at hdepth
  obtain ⟨P, hP, hrest⟩ := h.lead_space hlead ht
  exact ⟨p, P, hlead.chase_eq (Nat.lt_succ_of_lt hdepth), hP, hrest⟩

/-- Tasks that look the same form a family when their links do. -/
theorem relink (h : Family cfg k) (hs : ∀ p x, k'.shape p = some x → k.shape p = some x)
    (hn : k'.spaceNum = k.spaceNum)
    (hfather : ∀ pid t, k'.table pid = some t → t.state.live = true → t.type = .thread →
      ∃ F, k'.table t.fatherPid = some F ∧ F.space = t.space)
    (hled : ∀ pid, k'.Live pid → ∃ p n, Leads k'.hop p n pid) : Family cfg k' := by
  refine ⟨?_, ?_, ?_, ?_, hfather, hled⟩
  · intro pid t' ht'
    obtain ⟨t, ht, -⟩ := table_of_shape_imp (hs _) ht'
    exact h.range pid t ht
  · intro pid t' ht'
    obtain ⟨t, ht, -, hspace, -⟩ := table_of_shape_imp (hs _) ht'
    rw [hn, ← hspace]
    exact h.spaces pid t ht
  · intro p q P' Q' hP' hQ' hPt hQt hPQ
    obtain ⟨P, hP, hPt', hPs, -⟩ := table_of_shape_imp (hs _) hP'
    obtain ⟨Q, hQ, hQt', hQs, -⟩ := table_of_shape_imp (hs _) hQ'
    exact h.solo p q P Q hP hQ (hPt'.trans hPt) (hQt'.trans hQt) (by rw [hPs, hQs, hPQ])
  · intro pid t' ht' hi
    obtain ⟨t, ht, htype, -, hidle⟩ := table_of_shape_imp (hs _) ht'
    rw [← htype]
    exact h.idle pid t ht (hidle.trans hi)

/-- The family survives whatever lets a living thread keep its father, alive. -/
theorem mono (h : Family cfg k) (hs : ∀ p x, k'.shape p = some x → k.shape p = some x)
    (hn : k'.spaceNum = k.spaceNum)
    (hkept : ∀ pid t, k.table pid = some t → t.type = .thread → k'.Live pid →
      k.Live pid ∧ k'.fatherOf pid = k.fatherOf pid ∧ k'.Live t.fatherPid) : Family cfg k' := by
  refine h.relink hs hn ?_ ?_
  · intro pid t' ht' hl' htype'
    obtain ⟨t, ht, htype, hspace, -⟩ := table_of_shape_imp (hs _) ht'
    obtain ⟨hlive, hf, F', hF', -⟩ := hkept pid t ht (htype.trans htype') ⟨t', ht', hl'⟩
    rw [fatherOf, ht', fatherOf, ht, Option.map_some, Option.map_some, Option.some.injEq] at hf
    obtain ⟨F, hF, hFs⟩ := h.father pid t ht ((live_of_table ht).mp hlive) (htype.trans htype')
    obtain ⟨G, hG, -, hGs, -⟩ := table_of_shape_imp (hs _) hF'
    rw [hF, Option.some.injEq] at hG
    exact ⟨F', hf ▸ hF', by rw [← hGs, ← hG, hFs, hspace]⟩
  · rintro pid ⟨t', ht', hl'⟩
    obtain ⟨t, ht, htype, -⟩ := table_of_shape_imp (hs _) ht'
    cases htype' : t'.type with
    | proc => exact ⟨pid, 0, .stop (hop_proc ht' hl' htype')⟩
    | thread =>
      have hlive := (hkept pid t ht (htype.trans htype') ⟨t', ht', hl'⟩).1
      obtain ⟨p, n, hlead⟩ := h.led pid hlive
      refine ⟨p, n, hlead.mono (P := k'.Live) ⟨t', ht', hl'⟩ ?_ ?_⟩
      · rintro x c ⟨u', hu', hul'⟩ hx
        obtain ⟨u, hu, -, ⟨hut, hc⟩ | ⟨-, hc⟩⟩ := hop_cases hx
        · cases hc
          obtain ⟨v, hv, hvt, -⟩ := table_of_shape_imp (hs _) hu'
          rw [hu, Option.some.injEq] at hv
          exact hop_proc hu' hul' (by rw [← hvt, ← hv, hut])
        · cases hc
      · rintro x y ⟨u', hu', hul'⟩ hx
        obtain ⟨u, hu, -, ⟨-, hc⟩ | ⟨hut, hc⟩⟩ := hop_cases hx
        · cases hc
        · cases hc
          obtain ⟨v, hv, hvt, -⟩ := table_of_shape_imp (hs _) hu'
          rw [hu, Option.some.injEq] at hv
          subst hv
          obtain ⟨-, hf, hfl⟩ := hkept x u hu hut ⟨u', hu', hul'⟩
          rw [fatherOf, hu', fatherOf, hu, Option.map_some, Option.map_some, Option.some.injEq] at hf
          rw [hop_thread hu' hul' (hvt.symm.trans hut), hf]
          exact ⟨rfl, hfl⟩

end Family

/-! ### Deaths -/

/-- The tasks of `D` may die; a thread that lives afterwards lived before and has the same father,
    and nobody looks different. -/
structure Reaps (D : Set ℤ) (k k' : Sys) : Prop where
  look : k'.look = k.look
  book : k'.book = k.book
  live : ∀ pid, pid ∉ D → k.Live pid → k'.Live pid
  kept : ∀ pid t, k.table pid = some t → ¬t.toKin.revivable → k'.Live pid →
    k.Live pid ∧ k'.fatherOf pid = k.fatherOf pid

namespace Sys
variable {cfg : Config} {k k' k'' : Sys} {pid i : ℤ} {t : Task} {D D' : Set ℤ}

theorem look_of_kin (h : k'.kin = k.kin) : k'.look = k.look := by
  funext p
  rw [look, look, h]

theorem fatherOf_of_kin (h : k'.kin = k.kin) : k'.fatherOf = k.fatherOf := by
  funext p
  have hp : ∀ k : Sys, k.fatherOf p = (k.kin p).map Kin.fatherPid := fun k => by
    rw [fatherOf, kin, Option.map_map]
    rfl
  rw [hp, hp, h]

theorem shape_of_look (h : k'.look = k.look) : k'.shape = k.shape := by
  funext p
  have hp : ∀ k : Sys, k.shape p = (k.look p).map fun x => (x.type, x.space, x.isCoreIdleProc) :=
    fun k => by
      rw [shape, look, kin, Option.map_map, Option.map_map]
      rfl
  rw [hp, hp, h]

/-- A task that looks the same is as revivable as before. -/
theorem revivable_of_look {t' : Task} (h : k'.look = k.look) (ht : k.table pid = some t)
    (ht' : k'.table pid = some t') : t'.toKin.revivable ↔ t.toKin.revivable := by
  have hs := shape_of_table ht'
  rw [shape_of_look h, shape_of_table ht] at hs
  simp only [Option.some.injEq, Prod.mk.injEq] at hs
  rw [Kin.revivable, Kin.revivable, hs.1, hs.2.2]

theorem table_of_look (h : k'.look = k.look) (ht : k.table pid = some t) :
    ∃ t', k'.table pid = some t' := by
  have hs := shape_of_table ht
  rw [← shape_of_look h, shape, Option.map_eq_some_iff] at hs
  exact ⟨hs.choose, hs.choose_spec.1⟩

end Sys

namespace Reaps
open Sys
variable {cfg : Config} {k k' k'' : Sys} {pid i : ℤ} {t : Task} {D D' : Set ℤ}

theorem of_frame (h : Frame D k k') : Reaps D k k' := by
  refine ⟨look_of_kin h.kin, h.book, h.live, ?_⟩
  intro pid t ht hr hl
  refine ⟨?_, by rw [fatherOf_of_kin h.kin]⟩
  rcases h.dead pid hl with hl' | ⟨x, hx, hxr⟩
  · exact hl'
  · rw [kin_of_table ht, Option.some.injEq] at hx
    exact absurd (hx ▸ hxr) hr

theorem mono (h : Reaps D k k') (hd : D ⊆ D') : Reaps D' k k' :=
  ⟨h.look, h.book, fun p hp => h.live p fun hD => hp (hd hD), h.kept⟩

theorem trans (h : Reaps D k k') (h' : Reaps D k' k'') : Reaps D k k'' := by
  refine ⟨h'.look.trans h.look, h'.book.trans h.book,
    fun p hp hl => h'.live p hp (h.live p hp hl), ?_⟩
  intro p u hu hr hl
  obtain ⟨u', hu'⟩ := table_of_look h.look hu
  obtain ⟨hl', hf'⟩ := h'.kept p u' hu' (fun h'' => hr ((revivable_of_look h.look hu hu').mp h'')) hl
  obtain ⟨hl, hf⟩ := h.kept p u hu hr hl'
  exact ⟨hl, hf'.trans hf⟩

/-- Dead threads stay dead. -/
theorem stays_dead (h : Reaps D k k') (ht : k.table pid = some t) (hr : ¬t.toKin.revivable)
    (hd : ¬k.Live pid) : ¬k'.Live pid := fun hl => hd (h.kept pid t ht hr hl).1

/-- A write to a dead task that leaves its looks alone. -/
theorem of_dead {f : Task → Task}
    (hk : ∀ t, ({ (f t).toKin with fatherPid := 0, uuid := 0 } : Kin) =
      { t.toKin with fatherPid := 0, uuid := 0 })
    (hs : ∀ t, (f t).state = t.state)
    (hd : ¬k.Live pid ∨ ∀ t, (f t).fatherPid = t.fatherPid) : Reaps D k (k.modTask pid f) := by
  have hlive : ∀ p, (k.modTask pid f).Live p ↔ k.Live p := by
    intro p
    constructor
    · rintro ⟨u, hu, hul⟩
      rcases modTask_cases hu with ⟨rfl, t, ht, rfl⟩ | ⟨-, hu⟩
      · exact ⟨t, ht, by rw [← hs, hul]⟩
      · exact ⟨u, hu, hul⟩
    · rintro ⟨u, hu, hul⟩
      rcases eq_or_ne p pid with rfl | hne
      · exact ⟨f u, by rw [modTask_self, hu]; rfl, by rw [hs, hul]⟩
      · exact ⟨u, (modTask_ne hne).trans hu, hul⟩
  refine ⟨?_, rfl, fun p _ hl => (hlive p).mpr hl, ?_⟩
  · funext p
    rcases eq_or_ne p pid with rfl | hne
    · rw [Sys.look, Sys.look, kin, kin, modTask_self, Option.map_map, Option.map_map, Option.map_map]
      exact congrArg (fun g => (k.table p).map g) (funext hk)
    · rw [Sys.look, Sys.look, kin, kin, modTask_ne hne]
  · intro p u hu _ hl
    refine ⟨(hlive p).mp hl, ?_⟩
    rcases eq_or_ne p pid with rfl | hne
    · rcases hd with hd | hd
      · exact absurd ((hlive p).mp hl) hd
      · rw [fatherOf, fatherOf, modTask_self, hu, Option.map_some, Option.map_some, Option.map_some, hd]
    · rw [fatherOf, fatherOf, modTask_ne hne]

/-- The tasks of a family survive deaths that leave no thread behind. -/
theorem family (h : Reaps D k k') (hk : Family cfg k)
    (hD : ∀ pid t, k.table pid = some t → t.type = .thread → k.Live pid → k'.Live pid →
      t.fatherPid ∉ D) : Family cfg k' := by
  refine hk.mono (fun p x hx => shape_of_look h.look ▸ hx) (congrArg Book.spaceNum h.book) ?_
  intro pid t ht htype hl'
  obtain ⟨hl, hf⟩ := h.kept pid t ht (hk.not_revivable ht htype) hl'
  refine ⟨hl, hf, h.live _ (hD pid t ht htype hl hl') ?_⟩
  exact hk.father_live ht ((live_of_table ht).mp hl) htype

end Reaps

namespace Sys
variable {cfg : Config} {k k' k'' : Sys} {pid i : ℤ} {t : Task} {D D' : Set ℤ}

/-- `proc_unready(.., ZOMBIE)`. -/
theorem frame_zombie : Frame {pid} k (k.procUnready pid .zombie) := by
  refine ⟨?_, ?_, ?_, ?_⟩
  · have hset : (k.procUnready pid .zombie).kin = (k.procQueueRemoveAll pid).kin :=
      kin_modTask fun _ => rfl
    exact hset.trans frame_procQueueRemoveAll.kin
  · exact frame_procQueueRemoveAll.book
  · rintro p hp ⟨u, hu, hul⟩
    refine ⟨u, (modTask_ne hp).trans ?_, hul⟩
    rwa [procQueueRemoveAll_table]
  · rintro p ⟨u, hu, hul⟩
    rcases modTask_cases hu with ⟨rfl, t, ht, rfl⟩ | ⟨-, hu⟩
    · cases hul
    · exact .inl ⟨u, procQueueRemoveAll_table ▸ hu, hul⟩

theorem zombie_dead : ¬(k.procUnready pid .zombie).Live pid := by
  rintro ⟨u, hu, hul⟩
  rcases modTask_cases hu with ⟨-, t, ht, rfl⟩ | ⟨hne, -⟩
  · cases hul
  · exact hne rfl

/-- A thread that terminates takes nobody with it. -/
theorem reaps_terminateThread {w : ℤ → List ℤ} (ht : k.table i = some t)
    (hr : ¬t.toKin.revivable) :
    Reaps {i} k (k.terminateThread cfg i w) ∧ ¬(k.terminateThread cfg i w).Live i := by
  unfold terminateThread
  have h₁ : Reaps {i} k ((k.procUnready i .zombie).wakeAll cfg (w i)) :=
    (Reaps.of_frame frame_zombie).trans
      ((Reaps.of_frame (tame_wakeAll (w i)).toFrame).mono (Set.empty_subset _))
  have hd₁ : ¬((k.procUnready i .zombie).wakeAll cfg (w i)).Live i := by
    have hlook : (k.procUnready i .zombie).look = k.look := look_of_kin frame_zombie.kin
    obtain ⟨u, hu⟩ := table_of_look hlook ht
    refine (Reaps.of_frame (tame_wakeAll (w i)).toFrame).stays_dead hu ?_ zombie_dead
    rwa [revivable_of_look hlook ht hu]
  generalize (k.procUnready i .zombie).wakeAll cfg (w i) = k₁ at h₁ hd₁ ⊢
  -- from here on the thread is dead, and its link may be written
  have h₂ : Reaps {i} k₁ (((k₁.modTask i fun t => { t with fatherPid := 0 }).procWakeupWaiting cfg
      i).modTask i fun t => { t with uuid := 0 }) := by
    refine Reaps.trans ?_ (.of_dead (fun _ => rfl) (fun _ => rfl) (.inr fun _ => rfl))
    have hlink : Reaps {i} k₁ (k₁.modTask i fun t => { t with fatherPid := 0 }) :=
      .of_dead (fun _ => rfl) (fun _ => rfl) (.inl hd₁)
    exact hlink.trans ((Reaps.of_frame tame_procWakeupWaiting.toFrame).mono (Set.empty_subset _))
  obtain ⟨u, hu⟩ := table_of_look h₁.look ht
  have hru : ¬u.toKin.revivable := fun h => hr ((revivable_of_look h₁.look ht hu).mp h)
  exact ⟨h₁.trans h₂, h₂.stays_dead hu hru hd₁⟩

/-- The threads that a process takes with it. -/
def childThreads (k : Sys) (father : ℤ) : Set ℤ :=
  {i | ∃ t, k.table i = some t ∧ t.type = .thread ∧ t.fatherPid = father}

/-- One round of the loop over the children of a dying process, `k₀` being the state before it. -/
theorem reaps_terminateChild {k₀ : Sys} {father : ℤ} {w : ℤ → List ℤ} (c : ℕ)
    (hidle : ∀ pid t, k₀.table pid = some t → t.isCoreIdleProc = true → t.type = .proc)
    (h : Reaps (k₀.childThreads father) k₀ k) :
    Reaps (k₀.childThreads father) k (terminateChild cfg c father w k i) ∧
      (i ∈ k₀.childThreads father → ¬(terminateChild cfg c father w k i).Live i) := by
  -- a child that is still alive is a child of the state before the loop
  have hchild : ∀ p, k.table i = some p → p.type = .thread →
      ¬p.toKin.revivable ∧ (p.state.live = true → k.fatherOf i = k₀.fatherOf i) := by
    intro p hp htype
    obtain ⟨p₀, hp₀, htype₀, -, hidle₀⟩ := table_of_shape (shape_of_look h.look) hp
    have hr₀ : ¬p₀.toKin.revivable := by
      rintro (h' | h')
      · rw [htype₀, htype] at h'
        cases h'
      · rw [hidle i p₀ hp₀ h'] at htype₀
        rw [htype] at htype₀
        cases htype₀
    refine ⟨fun h' => hr₀ ((revivable_of_look h.look hp₀ hp).mp h'), fun hl => ?_⟩
    exact (h.kept i p₀ hp₀ hr₀ ⟨p, hp, hl⟩).2
  unfold terminateChild
  split
  case h_1 hn =>
    refine ⟨.of_frame (.refl k), fun _ hl => ?_⟩
    obtain ⟨u, hu, -⟩ := hl
    rw [hn] at hu
    cases hu
  case h_2 p hp =>
    split_ifs with hf htype hlive
    · refine ⟨(Reaps.of_frame (tame_procSignalSend c none fun u hu => .inr (.inl ?_)
        ).toFrame).mono (Set.empty_subset _), ?_⟩
      · rw [hp, Option.some.injEq] at hu
        rw [← hu, htype]
      · rintro ⟨t₀, ht₀, htype₀, -⟩
        obtain ⟨p₀, hp₀, hpt, -⟩ := table_of_shape (shape_of_look h.look) hp
        rw [ht₀, Option.some.injEq] at hp₀
        rw [← hp₀, htype₀, htype] at hpt
        cases hpt
    · have hthread : p.type = .thread := by
        cases hp' : p.type with
        | proc => exact absurd hp' htype
        | thread => rfl
      obtain ⟨hr, hfather⟩ := hchild p hp hthread
      obtain ⟨hreap, hdead⟩ := @reaps_terminateThread cfg _ _ _ w hp hr
      refine ⟨hreap.mono ?_, fun _ => hdead⟩
      intro j hj
      cases hj
      obtain ⟨p₀, hp₀, hpt, -⟩ := table_of_shape (shape_of_look h.look) hp
      have hf₀ := hfather hlive
      rw [fatherOf, fatherOf, hp, hp₀, Option.map_some, Option.map_some, Option.some.injEq] at hf₀
      exact ⟨p₀, hp₀, hpt.trans hthread, hf₀ ▸ hf⟩
    · refine ⟨.of_frame (.refl k), fun _ hl => hlive ?_⟩
      exact (live_of_table hp).mp hl
    · refine ⟨.of_frame (.refl k), ?_⟩
      rintro ⟨t₀, ht₀, htype₀, hf₀⟩ hl
      obtain ⟨p₀, hp₀, hpt, -⟩ := table_of_shape (shape_of_look h.look) hp
      rw [ht₀, Option.some.injEq] at hp₀
      subst hp₀
      have hfather := (hchild p hp (hpt.symm.trans htype₀)).2 ((live_of_table hp).mp hl)
      rw [fatherOf, fatherOf, hp, ht₀, Option.map_some, Option.map_some, Option.some.injEq] at hfather
      exact hf (hfather.trans hf₀)

/-- The whole loop: every child thread among the visited slots is dead afterwards. -/
theorem reaps_children {k₀ : Sys} {father : ℤ} {w : ℤ → List ℤ} (c : ℕ) (l : List ℤ)
    (hidle : ∀ pid t, k₀.table pid = some t → t.isCoreIdleProc = true → t.type = .proc)
    (h : Reaps (k₀.childThreads father) k₀ k) :
    Reaps (k₀.childThreads father) k₀ (l.foldl (terminateChild cfg c father w) k) ∧
      ∀ i ∈ k₀.childThreads father, i ∈ l ∨ ¬k.Live i →
        ¬(l.foldl (terminateChild cfg c father w) k).Live i := by
  induction l generalizing k with
  | nil => exact ⟨h, fun i _ hi => hi.resolve_left List.not_mem_nil⟩
  | cons j l ih =>
    obtain ⟨hj, hdead⟩ := @reaps_terminateChild cfg k j k₀ father w c hidle h
    obtain ⟨hall, hl⟩ := ih (h.trans hj)
    refine ⟨hall, fun i hi hor => hl i hi ?_⟩
    rcases hor with hmem | hnot
    · rcases List.mem_cons.mp hmem with rfl | hmem
      · exact .inr (hdead hi)
      · exact .inl hmem
    · obtain ⟨t₀, ht₀, htype, -⟩ := hi
      obtain ⟨t, ht⟩ := table_of_look h.look ht₀
      refine .inr (hj.stays_dead ht (fun hr => ?_) hnot)
      rcases (revivable_of_look h.look ht₀ ht).mp hr with hr | hr
      · rw [htype] at hr
        cases hr
      · rw [hidle i t₀ ht₀ hr] at htype
        cases htype

/-- The tasks that die with `pid`. -/
def dying (k : Sys) (pid : ℤ) : Set ℤ := {i | i = pid ∨ i ∈ k.childThreads pid}

theorem mem_slots {p : ℤ} (h : 0 ≤ p ∧ p < cfg.maxTaskNum) : p ∈ slots cfg := by
  rw [slots, List.mem_map]
  exact ⟨p.toNat, List.mem_range.mpr ((Int.toNat_lt h.1).mpr h.2), Int.toNat_of_nonneg h.1⟩

/-- The child threads are a matter of who the tasks are. -/
theorem childThreads_of_kin (h : k'.kin = k.kin) (father : ℤ) :
    k'.childThreads father = k.childThreads father := by
  have hsub : ∀ {a b : Sys}, a.kin = b.kin → a.childThreads father ⊆ b.childThreads father := by
    rintro a b hab i ⟨u, hu, htype, hf⟩
    have hi := kin_of_table hu
    rw [hab, kin, Option.map_eq_some_iff] at hi
    obtain ⟨v, hv, he⟩ := hi
    exact ⟨v, hv, by rw [he, htype], by rw [he, hf]⟩
  exact Set.Subset.antisymm (hsub h) (hsub h.symm)

/-- A process that terminates takes the threads it created itself with it. -/
theorem reaps_terminateProc {w : ℤ → List ℤ} {late : List ℤ} (c s : ℕ) (hk : Family cfg k) :
    Reaps (k.dying pid) k (k.terminateProc cfg c pid s w late) ∧
      ∀ i ∈ k.childThreads pid, ¬(k.terminateProc cfg c pid s w late).Live i := by
  have h₁ : Reaps (k.dying pid) k ((k.procUnready pid .zombie).wakeAll cfg (w pid)) :=
    ((Reaps.of_frame frame_zombie).trans
      ((Reaps.of_frame (tame_wakeAll (w pid)).toFrame).mono (Set.empty_subset _))).mono
        fun _ => Or.inl
  have hkin₁ : ((k.procUnready pid .zombie).wakeAll cfg (w pid)).kin = k.kin :=
    (tame_wakeAll (w pid)).kin.trans frame_zombie.kin
  unfold terminateProc
  dsimp only
  generalize (k.procUnready pid .zombie).wakeAll cfg (w pid) = k₁ at h₁ hkin₁ ⊢
  have hidle : ∀ p u, k₁.table p = some u → u.isCoreIdleProc = true → u.type = .proc := by
    intro p u hu hi
    obtain ⟨v, hv, htype, -, hflag⟩ := table_of_shape (shape_of_look h₁.look) hu
    rw [← htype]
    exact hk.idle p v hv (hflag.trans hi)
  obtain ⟨h₂, hdead⟩ := @reaps_children cfg k₁ k₁ pid w c (slots cfg) hidle (.of_frame (.refl k₁))
  rw [childThreads_of_kin hkin₁] at h₂ hdead
  generalize (slots cfg).foldl (terminateChild cfg c pid w) k₁ = k₂ at h₂ hdead ⊢
  have hgone : ∀ i ∈ k.childThreads pid, ¬k₂.Live i := by
    rintro i ⟨u, hu, hi⟩
    exact hdead i ⟨u, hu, hi⟩ (.inl (mem_slots (hk.range i u hu)))
  -- what is left only wakes others
  have h₃ : Reaps (k.dying pid) k₂
      (((((k₂.modSpace s fun s => { s with ipcSwitch := false }).wakeAll cfg late).modSpace s
        fun s => { s with intr := .idle }).procWakeupWaiting cfg pid).modTask pid
          fun t => { t with uuid := 0 }) := by
    have hoff : Tame k₂ (k₂.modSpace s fun s => { s with ipcSwitch := false }) :=
      tame_modSpace fun _ => rfl
    have hidle : ∀ k : Sys, Tame k (k.modSpace s fun s => { s with intr := .idle }) :=
      fun k => tame_modSpace fun _ => rfl
    have htame := ((hoff.trans (@tame_wakeAll cfg _ late)).trans (hidle _)).trans
      (@tame_procWakeupWaiting cfg _ pid)
    exact ((Reaps.of_frame htame.toFrame).mono (Set.empty_subset _)).trans
      (.of_dead (fun _ => rfl) (fun _ => rfl) (.inr fun _ => rfl))
  have h₁₂ := h₁.trans (h₂.mono fun _ => Or.inr)
  refine ⟨h₁₂.trans h₃, fun i hi => ?_⟩
  obtain ⟨u, hu, htype, hf⟩ := hi
  obtain ⟨v, hv⟩ := table_of_look h₁₂.look hu
  refine h₃.stays_dead hv (fun hr => ?_) (hgone i ⟨u, hu, htype, hf⟩)
  exact hk.not_revivable hu htype ((revivable_of_look h₁₂.look hu hv).mp hr)

end Sys
end EwokOS.Kernel.Tasks
