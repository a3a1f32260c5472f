import Mathlib.Data.List.Nodup
import EwokOS.Kernel.System

/-! No runnable task is lost by the scheduler.

    Along every run the ready queues and the states agree, on any number of cores and for both ways
    of queueing, as long as no END path restores a state the queues do not bear out. Three of them
    queue what they restore; `proc_signal_end` does so for two signal numbers only, so a task that
    was ready when another signal reached it ends that handler ready and in no queue until a timer
    tick queues it again (`signalEnd_loses`, `Sys.renewPriority`). An END call without a handler in flight restores `UNUSED` from an empty
    area, which is harmless only for a task that is not queued. -/

namespace EwokOS.Kernel.Tasks

open Schemes (Reach Free)

/-- Only the table and the queues matter. -/
theorem Queued.congr {S : Set ℤ} {k k' : Sys} (h : Queued S k) (ht : k'.table = k.table)
    (hr : k'.ready = k.ready) : Queued S k' :=
  ⟨by rw [ht, hr]; exact h.once, by rw [hr]; exact h.nodup, by rw [ht, hr]; exact h.home⟩

namespace Sys
variable {cfg : Config} {k : Sys} {pid : ℤ} {t : Task} {S : Set ℤ}

/-! ### The queues along creation and burial -/

/-- Changing who a task is does not concern the queues. -/
theorem queued_kin {f : Task → Task} (hc : ∀ t, (f t).core = t.core)
    (hs : ∀ t, (f t).state = t.state) (h : Queued S k) : Queued S (k.modTask pid f) :=
  queued_modTask hc (fun t _ hl _ => by rw [hs, hl]) (fun t _ hr => .inl (by rw [← hs, hr])) h

theorem queued_modSpace {s : ℕ} {f : Space → Space} (h : Queued S k) : Queued S (k.modSpace s f) :=
  h.congr rfl rfl

/-- A free slot is in no queue. -/
theorem notQueued_of_none (h : Queued S k) (hn : k.table pid = none) (c : ℕ) : pid ∉ k.ready c := by
  intro hm
  obtain ⟨t, ht, -⟩ := h.home c pid hm
  rw [hn] at ht
  cases ht

/-- Nor is a dead task. -/
theorem notQueued_of_dead (h : Queued S k) (ht : k.table pid = some t) (hd : t.state.live = false)
    (c : ℕ) : pid ∉ k.ready c := by
  intro hm
  obtain ⟨u, hu, -, hl⟩ := h.home c pid hm
  rw [ht, Option.some.injEq] at hu
  rw [← hu, hd] at hl
  cases hl

/-- A slot that is in no queue may get any task that is not ready, or none. -/
theorem queued_fill {u : Option Task} (hq : ∀ c, pid ∉ k.ready c)
    (hu : ∀ t, u = some t → t.state ≠ .ready) (h : Queued S k) :
    Queued S (k.setSlot pid u) := by
  refine ⟨?_, h.nodup, ?_⟩
  · intro p v hv hvr hS
    rcases eq_or_ne p pid with rfl | hne
    · exact absurd hvr (hu v (setSlot_self.symm.trans hv))
    · exact h.once p v ((setSlot_ne hne).symm.trans hv) hvr hS
  · intro c p hm
    have hne : p ≠ pid := fun h' => hq c (h' ▸ hm)
    obtain ⟨v, hv, hc, hl⟩ := h.home c p hm
    exact ⟨v, (setSlot_ne hne).trans hv, hc, hl⟩

theorem queued_procCreate_none {type : TaskType} {parent : ℤ} {a : Alloc} {k' : Sys}
    (hc : k.procCreate cfg type parent a = (k', none)) (h : Queued S k) : Queued S k' := by
  rcases procCreate_none hc with rfl | ⟨n, rfl⟩
  · exact h
  · exact h.congr rfl rfl

/-- A new task is in state created and in no queue. -/
theorem queued_procCreate_some {type : TaskType} {parent i : ℤ} {a : Alloc} {k' : Sys}
    (hc : k.procCreate cfg type parent a = (k', some i)) (h : Queued S k) :
    Queued S k' ∧ (∀ c, i ∉ k'.ready c) ∧ ∃ u, k'.table i = some u ∧ u.state = .created := by
  obtain ⟨t, ht, hi, rfl⟩ := procCreate_some hc
  have hn := notQueued_of_none h (freeSlot_none hi)
  have hs : Queued S (k.newSpace type t) := h.congr newSpace_table newSpace_ready
  have hn' : ∀ c, i ∉ (k.newSpace type t).ready c := by
    rw [newSpace_ready]
    exact hn
  refine ⟨?_, hn', k.newTask cfg type parent t, setSlot_self, rfl⟩
  refine (queued_fill hn' (fun u hu => ?_) hs).congr rfl rfl
  cases hu
  exact fun h' => by cases h'

theorem queued_procFuneral {waiters : List ℤ} (c : ℕ) (h : Queued S k) :
    Queued S (k.procFuneral cfg c t waiters) := by
  unfold procFuneral
  split
  · exact h
  · exact h
  · exact (tame_wakeAll waiters).queued S (queued_modSpace h)

theorem queued_bury {waiters : List ℤ} (c : ℕ) (h : Queued S k) :
    Queued S (k.bury cfg c pid waiters) := by
  unfold bury
  split
  case h_1 => exact h
  case h_2 t ht =>
    split_ifs with hr
    · have hz : t.state = .zombie := by
        rw [canReap, ht, Option.any_some, decide_eq_true_iff] at hr
        exact hr.1
      exact queued_procFuneral c (queued_fill
        (notQueued_of_dead h ht (by rw [hz]; rfl)) (fun _ h' => by cases h') h)
    · exact h

theorem queued_zombieFuneral {graced : ℤ → Bool} {released : ℤ → List ℤ} (c n : ℕ)
    (h : Queued S k) : Queued S (zombieFuneral cfg c graced released n k) := by
  induction n generalizing k with
  | zero => exact h
  | succ n ih =>
    unfold zombieFuneral
    split
    · exact h
    · exact ih (queued_bury c h)

theorem queued_procWaitpid {p : ℤ} {waiters : List ℤ} (c : ℕ) (h : Queued S k) :
    Queued S (k.procWaitpid cfg c pid p waiters) := by
  unfold procWaitpid
  split
  · exact h
  · split_ifs
    · exact h
    · exact queued_bury c h
    · exact queued_bury c ((tame_schedule c).queued S
        (queued_procUnready (by decide) (queued_kin (fun _ => rfl) (fun _ => rfl) h)))

/-! ### The queues along exits -/

theorem queued_terminateThread {w : ℤ → List ℤ} (h : Queued S k) :
    Queued S (k.terminateThread cfg pid w) := by
  unfold terminateThread
  refine queued_kin (fun _ => rfl) (fun _ => rfl) (tame_procWakeupWaiting.queued S ?_)
  exact queued_kin (fun _ => rfl) (fun _ => rfl)
    ((tame_wakeAll (w pid)).queued S (queued_procUnready (by decide) h))

theorem queued_terminateChild {father i : ℤ} {w : ℤ → List ℤ} (c : ℕ) (h : Queued S k) :
    Queued S (terminateChild cfg c father w k i) := by
  unfold terminateChild
  split
  case h_1 => exact h
  case h_2 p hp =>
    split_ifs with _ htype _
    · refine (tame_procSignalSend c none fun u hu => .inr (.inl ?_)).queued S h
      rw [hp, Option.some.injEq] at hu
      rw [← hu, htype]
    · exact queued_terminateThread h
    · exact h
    · exact h

theorem queued_children {father : ℤ} {w : ℤ → List ℤ} (c : ℕ) (l : List ℤ) (h : Queued S k) :
    Queued S (l.foldl (terminateChild cfg c father w) k) := by
  induction l generalizing k with
  | nil => exact h
  | cons i l ih => exact ih (queued_terminateChild c h)

theorem queued_procTerminate {w : ℤ → List ℤ} {late : List ℤ} (c : ℕ) (h : Queued S k) :
    Queued S (k.procTerminate cfg c pid w late) := by
  unfold procTerminate
  split
  case h_1 => exact h
  case h_2 t _ =>
    split_ifs
    · exact queued_terminateThread h
    · unfold terminateProc
      refine queued_kin (fun _ => rfl) (fun _ => rfl) (tame_procWakeupWaiting.queued S ?_)
      refine queued_modSpace ((tame_wakeAll late).queued S (queued_modSpace ?_))
      refine queued_children c _ ?_
      exact (tame_wakeAll (w pid)).queued S (queued_procUnready (by decide) h)

theorem queued_procExit {w : ℤ → List ℤ} {late : List ℤ} (c : ℕ) (h : Queued S k) :
    Queued S (k.procExit cfg c pid w late) :=
  (tame_schedule c).queued S (queued_procTerminate c h)

/-! ### The queues along fork -/

/-- A task that is in no queue may be placed on any core, in any state but ready. -/
theorem queued_place {f : Task → Task} (hq : ∀ c, pid ∉ k.ready c)
    (hf : ∀ t, k.table pid = some t → (f t).state ≠ .ready) (h : Queued S k) :
    Queued S (k.modTask pid f) := by
  refine queued_fill hq ?_ h
  intro u hu
  obtain ⟨t, ht, rfl⟩ := Option.map_eq_some_iff.mp hu
  exact hf t ht

theorem queued_kforkRaw {type : TaskType} {b : Birth} (c : ℕ) (h : Queued S k) {r : Sys × Option ℤ}
    (hr : k.kforkRaw cfg c type pid b = r) :
    Queued S r.1 ∧ ∀ i, r.2 = some i →
      (∀ c, i ∉ r.1.ready c) ∧ ∃ u, r.1.table i = some u ∧ u.state = .created := by
  unfold kforkRaw at hr
  split at hr
  case h_1 k' i hc =>
    subst hr
    obtain ⟨hq, hfresh⟩ := queued_procCreate_some hc h
    refine ⟨hq, fun j hj => ?_⟩
    cases hj
    exact hfresh
  case h_2 k' hc =>
    have hsweep : Queued S (k'.procZombieFuneral cfg c (fun _ => false) b.released) :=
      queued_zombieFuneral c _ (queued_procCreate_none hc h)
    obtain ⟨k'', o⟩ := r
    cases o with
    | none => exact ⟨queued_procCreate_none hr hsweep, fun _ hj => by cases hj⟩
    | some i =>
      obtain ⟨hq, hfresh⟩ := queued_procCreate_some hr hsweep
      refine ⟨hq, fun j hj => ?_⟩
      cases hj
      exact hfresh

theorem queued_kfork {type : TaskType} {b : Birth} (c : ℕ) (h : Queued S k) :
    Queued S (k.kfork cfg c type pid b).1 ∧ ∀ i, (k.kfork cfg c type pid b).2 = some i →
      ∃ u, (k.kfork cfg c type pid b).1.table i = some u ∧ u.state.live = true := by
  unfold kfork
  split
  case h_1 k' hr =>
    exact ⟨(queued_kforkRaw c h hr).1, fun _ h' => by cases h'⟩
  case h_2 k' i hr =>
    obtain ⟨hq, hi⟩ := queued_kforkRaw c h hr
    obtain ⟨hno, u, hu, hcreated⟩ := hi i rfl
    split_ifs with hclone
    · exact ⟨hq, fun _ h' => by cases h'⟩
    · have hplace : Queued S (k'.modTask i fun t => { t with core := b.core }) := by
        refine queued_place hno (fun t ht => ?_) hq
        rw [hu, Option.some.injEq] at ht
        subst ht
        rw [hcreated]
        decide
      have htable : (k'.modTask i fun t => { t with core := b.core }).table i =
          some { u with core := b.core } := by
        rw [modTask_self, hu]
        rfl
      have hlive : ({ u with core := b.core } : Task).state.live = true := by
        dsimp only
        rw [hcreated]
        rfl
      dsimp only
      split_ifs
      · refine ⟨hplace, fun j hj => ?_⟩
        cases hj
        exact ⟨_, htable, hlive⟩
      · refine ⟨(tame_procReadyWithOrder false (wakeable_of_live htable hlive)).queued S hplace,
          fun j hj => ?_⟩
        cases hj
        exact ⟨_, procReadyWithOrder_some htable, rfl⟩

theorem queued_sysFork {b : Birth} (c : ℕ) (h : Queued S k) :
    Queued S (k.sysFork cfg c pid b) := by
  have hk := @queued_kfork cfg k pid S .proc b c h
  unfold sysFork
  split
  case h_1 k' hr => rw [hr] at hk; exact hk.1
  case h_2 k' i hr =>
    rw [hr] at hk
    split_ifs
    · have hblock : ∀ p : ℤ, ∀ {k : Sys}, Queued S k → Queued S (k.setState p .block) := fun p k h =>
        queued_modTask (fun _ => rfl) (fun _ _ _ _ => rfl) (fun _ _ h' => by cases h') h
      exact (tame_schedule c).queued S ((tame_wakeAll b.event).queued S
        (hblock pid (hblock i hk.1)))
    · exact hk.1

theorem queued_poolSpawn {b : Birth} (c : ℕ) (h : Queued S k) :
    Queued S (k.poolSpawn cfg c pid b) := by
  unfold poolSpawn
  split
  case h_1 k' hr => exact (queued_kforkRaw c h hr).1
  case h_2 k' i hr =>
    obtain ⟨hq, hi⟩ := queued_kforkRaw c h hr
    exact queued_place (hi i rfl).1 (fun _ _ h' => by cases h') hq

theorem queued_coreHalt {b : Birth} (core : ℕ) (h : Queued S k) :
    Queued S (k.coreHalt cfg core b) := by
  unfold coreHalt
  split
  case h_1 k' hr => exact (queued_kforkRaw core h hr).1
  case h_2 k' i hr =>
    obtain ⟨hq, hi⟩ := queued_kforkRaw core h hr
    refine (tame_setCurrentProc core).queued S ?_
    refine Queued.congr (k := k'.modTask i fun t => { t with
      core := core, isCoreIdleProc := true, state := .running, waitFor := 0 }) ?_ rfl rfl
    exact queued_place (hi i rfl).1 (fun _ _ h' => by cases h') hq

/-! ### The other calls -/

theorem queued_sysLoadElf {cmd : List UInt8} {loads : Bool} (hp : k.Live pid) (h : Queued S k) :
    Queued S (k.sysLoadElf cfg pid cmd loads) := by
  have h₁ : Queued S (k.modTask pid fun t => { t with cmd := cmd, uuid := k.nextUuid }) :=
    queued_kin (fun _ => rfl) (fun _ => rfl) h
  unfold sysLoadElf
  split_ifs
  · exact h
  · have hl : (k.modTask pid fun t => { t with cmd := cmd, uuid := k.nextUuid }).Live pid :=
      live_modTask (fun _ => rfl) hp
    refine (tame_procReadyWithOrder false (wakeable_of_isLive ?_)).queued S ?_
    · exact live_modTask (fun _ => rfl) hl
    · exact queued_kin (fun _ => rfl) (fun _ => rfl) (h₁.congr rfl rfl)
  · exact h₁.congr rfl rfl

theorem queued_sysProcSetUid {uid : ℤ} (h : Queued S k) :
    Queued S (k.sysProcSetUid cfg pid uid) := by
  unfold sysProcSetUid
  split_ifs
  · split
    · exact h
    · exact queued_kin (fun _ => rfl) (fun _ => rfl) (queued_kin (fun _ => rfl) (fun _ => rfl) h)
  · exact h

theorem queued_procCapMint {type : ℕ} {rights : BitVec 32} {a b : BitVec 64} (h : Queued S k) :
    Queued S (k.procCapMint cfg pid type rights a b) := by
  unfold procCapMint
  split
  · exact h
  · refine queued_kin ?_ ?_ h <;>
    · intro t
      split_ifs
      · split <;> rfl
      · rfl

theorem queued_procCapGrant {target : ℤ} {src : ℕ} {mask : BitVec 32} (h : Queued S k) :
    Queued S (k.procCapGrant cfg pid target src mask) := by
  unfold procCapGrant
  split
  · split
    · exact h
    · exact queued_kin (fun _ => rfl) (fun _ => rfl) h
  · exact h

theorem queued_procCapRevoke {slot : ℕ} (h : Queued S k) :
    Queued S (k.procCapRevoke cfg pid slot) := by
  unfold procCapRevoke
  split
  · exact h
  · exact queued_kin (fun _ => rfl) (fun _ => rfl) h

theorem queued_procCapPolicyAdd {cmd : List UInt8} {type : ℕ} {rights : BitVec 32}
    {a b : BitVec 64} (h : Queued S k) :
    Queued S (k.procCapPolicyAdd cfg pid cmd type rights a b) := by
  unfold procCapPolicyAdd
  split
  · split_ifs
    · exact h
    · exact h.congr rfl rfl
  · exact h

theorem queued_sysSignal {target sig : ℤ} {w : ℤ → List ℤ} {late : List ℤ} (c : ℕ)
    (h : Queued S k) : Queued S (k.sysSignal cfg c pid target sig w late) := by
  unfold sysSignal
  split
  case h_1 me t _ ht =>
    obtain ⟨ht, hl⟩ := procGet_eq_some.mp ht
    split_ifs
    · exact h
    · exact queued_procExit c h
    · exact (tame_procSignalSend c _ (wakeable_of_live ht hl)).queued S h
  case h_2 => exact h

/-! ### The condition -/

/-- What an END call of the current task has to find in its save area: a state that its queue bears
    out. Only `proc_signal_end` leaves a ready task unqueued. -/
def CallSound (cfg : Config) (k : Sys) (cur : ℤ) (t : Task) : Call → Prop
  | .signalEnd => (k.space t.space).sigEntry = 0 ∨ k.Deadly t ∨
      k.Parkable cur (k.space t.space).sigSaved ∧ k.Enqueued cur (k.space t.space).sigSaved
  | .interruptEnd again _ => (again = true → (k.space t.space).intrSaved.state.live = true) ∧
      k.Parkable cur (k.space t.space).intrSaved
  | .ipcEnd _ => ∀ serv u, k.procGetProc cfg cur = some serv → k.table serv = some u →
      k.Parkable serv (k.space u.space).ipcSaved
  | _ => True

/-- The condition on a step: END calls and watchdogs restore a state that the queues bear out. -/
def Sound (cfg : Config) (k : Sys) : Op → Prop
  | .call c call => ∀ t, k.procGet (k.current c) = some t → k.CallSound cfg (k.current c) t call
  | .interruptTimeout pid _ => ∀ t, k.procGet pid = some t →
      k.Parkable pid (k.space t.space).intrSaved
  | .ipcTimeout serv _ _ _ => ∀ t, k.procGet serv = some t →
      k.Parkable serv (k.space t.space).ipcSaved
  | _ => True

theorem queued_svcHandler {call : Call} (c : ℕ) (ht : k.table pid = some t)
    (hl : t.state.live = true) (hok : k.CallSound cfg pid t call) (h : Queued S k) :
    Queued S (k.svcHandler cfg c pid t call) := by
  have hp : k.Wakeable pid := wakeable_of_live ht hl
  cases call with
  | exit w late => exact queued_procExit c h
  | fork b => exact queued_sysFork c h
  | thread b => exact (queued_kfork c h).1
  | detach => exact queued_kin (fun _ => rfl) (fun _ => rfl) h
  | loadElf cmd loads => exact queued_sysLoadElf ⟨t, ht, hl⟩ h
  | waitpid p waiters => exact queued_procWaitpid c h
  | setUid uid => exact queued_sysProcSetUid h
  | setGid gid =>
    simp only [svcHandler, sysProcSetGid]
    split_ifs
    · exact queued_kin (fun _ => rfl) (fun _ => rfl) h
    · exact h
  | capMint type rights a b => exact queued_procCapMint h
  | capGrant target src mask => exact queued_procCapGrant h
  | capRevoke slot => exact queued_procCapRevoke h
  | capPolicyAdd cmd type rights a b => exact queued_procCapPolicyAdd h
  | coreReady =>
    simp only [svcHandler]
    split_ifs
    · exact h.congr rfl rfl
    · exact h
  | usleep count => exact (tame_procUsleep c count hp).queued S h
  | yield => exact (tame_schedule c).queued S h
  | block token => exact (tame_blockWith c token hp).queued S h
  | blockTimeout token usec => exact (tame_blockWith c token hp).queued S h
  | wakeup target token => exact tame_sysProcWakeup.queued S h
  | signalSetup entry => exact tame_procSignalSetup.queued S h
  | signal target sig w late => exact queued_sysSignal c h
  | signalEnd => exact (ends_procSignalEnd c ht hl).queued hok S h
  | softInt target => exact (tame_interruptSend c t.core).queued S h
  | interruptEnd again waiters => exact (ends_interruptEnd c ht hl hok.1).queued hok.2 S h
  | ipcDispatch serv lazy =>
    simp only [svcHandler]
    split_ifs with hs
    · obtain ⟨u, hu⟩ := Option.isSome_iff_exists.mp hs
      obtain ⟨hu, hul⟩ := procGet_eq_some.mp hu
      exact (tame_procIpcDoTask c t.core (wakeable_of_live hu hul)).queued S h
    · exact h
  | ipcEnd r =>
    simp only [svcHandler]
    cases hs : k.procGetProc cfg pid with
    | none =>
      simp only [procIpcEnd, hs]
      exact h
    | some serv =>
      obtain ⟨u, hu, -⟩ := procGetProc_proc hs
      exact (ends_procIpcEnd c hs hu).queued (hok serv u hs hu) S h
  | poolSpawn serv b =>
    simp only [svcHandler]
    split_ifs
    · exact queued_poolSpawn c h
    · exact h
  | poolDispatch worker handoff => exact (tame_ipcPoolDispatch c t.core).queued S h
  | poolPark waiters client => exact (tame_procIpcPoolPark c hp).queued S h
  | poolEnd waiters w => exact queued_procExit c ((tame_wakeAll waiters).queued S h)

/-- One step keeps the queues in order. -/
theorem queued_step {o : Op} {k' : Sys} (h : Queued S k) (hok : k.Sound cfg o)
    (hst : k.step cfg o = some k') : Queued S k' := by
  cases o with
  | call c call =>
    cases hst
    unfold svc
    split
    case h_1 => exact (tame_schedule c).queued S h
    case h_2 t ht =>
      obtain ⟨htab, hl⟩ := procGet_eq_some.mp ht
      exact queued_svcHandler c htab hl (hok t ht) h
  | schedule c => cases hst; exact (tame_schedule c).queued S h
  | interrupt c target =>
    obtain ⟨t, -, rfl⟩ := Option.map_eq_some_iff.mp hst
    exact (tame_interruptSend c t.core).queued S h
  | fault c w late =>
    simp only [step] at hst
    split at hst
    · cases hst; exact (tame_schedule c).queued S h
    · cases hst; exact queued_procExit c h
  | sleepTick usec => cases hst; exact (tame_renewSleepCounter usec).queued S h
  | priorityTick pid => cases hst; exact tame_renewPriority.queued S h
  | interruptTimeout pid waiters =>
    cases hst
    cases ht : k.procGet pid with
    | none =>
      simp only [procInterruptTimeout, ht]
      exact h
    | some t => exact (ends_procInterruptTimeout (procGet_eq_some.mp ht).1).queued (hok t ht) S h
  | ipcTimeout serv client waiters next =>
    cases hst
    cases ht : k.procGet serv with
    | none =>
      simp only [procIpcTimeout, ht]
      exact h
    | some t => exact (ends_procIpcTimeout (procGet_eq_some.mp ht).1).queued (hok t ht) S h
  | poolShrink worker => cases hst; exact (tame_procWakeupBy 0).queued S h
  | zombieFuneral c graced released => cases hst; exact queued_zombieFuneral c _ h
  | coreHalt core b =>
    simp only [step, Option.ite_none_left_eq_some, Option.some.injEq] at hst
    rw [← hst.2]
    exact queued_coreHalt core h

theorem queued_boot : Queued S boot := by
  refine ⟨?_, ?_, ?_⟩
  · intro p t ht _ _
    obtain ⟨rfl, rfl⟩ := boot_table ht
    exact List.mem_singleton_self 0
  · intro c
    refine List.nodup_iff_count_le_one.mpr fun p => ?_
    rcases eq_or_ne c 0 with rfl | hc
    · exact List.count_le_length
    · have hn : boot.ready c = [] := by simp [boot, hc]
      rw [hn, List.count_nil]
      exact Nat.zero_le 1
  · intro c p hp
    obtain ⟨rfl, rfl⟩ := boot_ready hp
    exact ⟨initTask, rfl, rfl, rfl⟩

end Sys

/-! ### No ready task is lost -/

/-- Every ready task is exactly once in the ready queue of its core, no task is twice in a ready
    queue, and nothing dead or freed is in one. -/
structure NoneLost (k : Sys) : Prop where
  once : ∀ pid t, k.table pid = some t → t.state = .ready → (k.ready t.core).count pid = 1
  nodup : ∀ c pid, (k.ready c).count pid ≤ 1
  alive : ∀ c pid, pid ∈ k.ready c →
    ∃ t, k.table pid = some t ∧ t.state ≠ .zombie ∧ t.state ≠ .unused

theorem Queued.noneLost {k : Sys} (h : Queued ∅ k) : NoneLost k := by
  refine ⟨?_, ?_, ?_⟩
  · intro pid t ht hr
    exact List.count_eq_one_of_mem (h.nodup _) (h.once pid t ht hr (Set.notMem_empty _))
  · intro c pid
    exact List.nodup_iff_count_le_one.mp (h.nodup c) pid
  · intro c pid hm
    obtain ⟨t, ht, -, hl⟩ := h.home c pid hm
    refine ⟨t, ht, ?_, ?_⟩ <;>
    · intro hs
      rw [hs] at hl
      cases hl

/-- In every run whose END paths restore what the queues bear out, no runnable task is lost. -/
theorem none_lost {cfg : Config} {k : Sys} (h : Reach (Sys.step cfg) (Sys.Sound cfg) Sys.boot k) :
    NoneLost k :=
  (h.inv Sys.queued_boot fun _ _ _ hk hok hst => Sys.queued_step hk hok hst).noneLost

/-- Init has a signal handler and a child, the child runs, init is ready. -/
def toReady : List Op :=
  [.coreHalt 0 plainBirth, .schedule 0, .call 0 (.signalSetup 5), .call 0 (.fork plainBirth),
    .schedule 0]

/-- What to look at: the state of init and the queue of core 0. -/
def initView (k : Sys) : Option TaskState × List ℤ := ((k.table 0).map fun t => t.state, k.ready 0)

/-- Steps that restore nothing. -/
def plain : Op → Bool
  | .call _ .signalEnd => false
  | .call _ (.interruptEnd _ _) => false
  | .call _ (.ipcEnd _) => false
  | .interruptTimeout _ _ => false
  | .ipcTimeout _ _ _ _ => false
  | _ => true

theorem plain_sound {cfg : Config} {k : Sys} {o : Op} (h : plain o = true) : k.Sound cfg o := by
  cases o with
  | call c call =>
    intro t _
    cases call <;> trivial
  | interruptTimeout pid waiters => cases h
  | ipcTimeout serv client waiters next => cases h
  | _ => trivial

/-- A stop signal that reaches init while it is ready: its handler ends with init queued again, or
    running. -/
theorem none_lost_stopSignal : ∃ k k', Reach (Sys.step tiny) (Sys.Sound tiny) Sys.boot k ∧
    Sys.step tiny k (.call 0 .signalEnd) = some k' ∧ initView k' = (some .ready, [0]) ∧
    NoneLost k' := by
  have hrun : (Schemes.runIf (Sys.step tiny) (fun _ => plain) Sys.boot
      (toReady ++ [.call 0 (.signal 0 sigStop (fun _ => []) [])])).map (fun k =>
        ((k.procGet (k.current 0)).map fun t => (k.space t.space).sigNo,
          (Sys.step tiny k (.call 0 .signalEnd)).map initView)) =
        some (some sigStop, some (some .ready, [0])) := by decide +kernel
  obtain ⟨k, hk, hobs⟩ := Option.map_eq_some_iff.mp hrun
  simp only [Prod.mk.injEq] at hobs
  obtain ⟨hsig, hend⟩ := hobs
  obtain ⟨k', hk', hview⟩ := Option.map_eq_some_iff.mp hend
  have hr : Reach (Sys.step tiny) (Sys.Sound tiny) Sys.boot k :=
    Schemes.reach_of_runIf hk fun _ _ => plain_sound
  have hsound : k.Sound tiny (.call 0 .signalEnd) := by
    intro t ht
    rw [ht, Option.map_some, Option.some.injEq] at hsig
    exact .inr (.inl (.inl hsig))
  exact ⟨k, k', hr, hk', hview, none_lost (.next hr hsound hk')⟩

/-- Any other signal that reaches init while it is ready: at the end of the handler init is ready
    and in no queue, up to the next tick that renews its slice. -/
theorem signalEnd_loses : ∃ k, Reach (Sys.step tiny) Free Sys.boot k ∧ ¬NoneLost k := by
  have hrun : (Schemes.runOps (Sys.step tiny) Sys.boot (toReady ++
      [.call 0 (.signal 0 5 (fun _ => []) []), .call 0 .signalEnd])).map (fun k =>
        (k.table 0).map fun t => (t.state, t.core, k.ready 0)) = some (some (.ready, 0, [])) := by
    decide +kernel
  obtain ⟨k, hk, hobs⟩ := Option.map_eq_some_iff.mp hrun
  obtain ⟨t, ht, hst⟩ := Option.map_eq_some_iff.mp hobs
  simp only [Prod.mk.injEq] at hst
  obtain ⟨hready, hcore, hqueue⟩ := hst
  refine ⟨k, Schemes.reach_of_runOps hk, fun h => ?_⟩
  have hone := h.once 0 t ht hready
  rw [hcore, hqueue] at hone
  cases hone

end EwokOS.Kernel.Tasks
