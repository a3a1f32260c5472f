import EwokOS.Kernel.KinshipRun

/-! Capability authority follows the address space.

    Every check resolves the calling task through `proc_get_proc` again, so it is decided by the
    cnode of the task's own process exactly as long as the father links lead there. `authority_confined` says
    they do in every run that keeps them in order; `detached_borrows` is the run in which a thread
    of an unprivileged process calls `SYS_DETACH` and becomes root. -/

namespace EwokOS.Kernel.Tasks

open Schemes (Reach Free)
open Capability (Cnode Query answers capPolicyCmdMax)

/-- The calls that change a cnode or a uid. -/
def Call.regrants : Call → Bool
  | .loadElf _ _ => true
  | .setUid _ => true
  | .capMint _ _ _ _ => true
  | .capGrant _ _ _ => true
  | .capRevoke _ => true
  | _ => false

namespace Sys
variable {cfg : Config} {k k' : Sys} {pid : ℤ} {t : Task}

/-- The condition on a call: whoever ends leaves no thread behind, and no thread leaves its
    process. -/
def CallOrderly (cfg : Config) (k : Sys) (cur : ℤ) (t : Task) : Call → Prop
  | .exit _ _ => k.MayEnd cur
  | .poolEnd _ _ => k.MayEnd cur
  | .detach => k.MayDetach cfg cur t
  | .signal target sig _ _ => ∀ u, k.procGet target = some u →
      (sig = sigKill ∨ sig = sigStop) ∧ target ≠ cur ∧ u.state ≠ .running ∧ u.state ≠ .ready →
        k.MayEnd target
  | .signalEnd => (k.space t.space).sigEntry = 0 ∨ k.Deadly t ∨
      k.MayRestore cur (k.space t.space).sigSaved
  | .interruptEnd again _ => (again = true → (k.space t.space).intrSaved.state.live = true) ∧
      k.MayRestore cur (k.space t.space).intrSaved
  | .ipcEnd _ => ∀ serv u, k.procGetProc cfg cur = some serv → k.table serv = some u →
      k.MayRestore serv (k.space u.space).ipcSaved
  | _ => True

/-- The condition on a step. -/
def Orderly (cfg : Config) (k : Sys) : Op → Prop
  | .call c call => ∀ t, k.procGet (k.current c) = some t →
      k.CallOrderly cfg (k.current c) t call
  | .fault c _ _ => ∀ cur, k.getCurrentProc c = some cur →
      k.MayEnd ((k.procGetProc cfg cur).getD cur)
  | .interruptTimeout pid _ => ∀ t, k.procGet pid = some t →
      k.MayRestore pid (k.space t.space).intrSaved
  | .ipcTimeout serv _ _ _ => ∀ t, k.procGet serv = some t →
      k.MayRestore serv (k.space t.space).ipcSaved
  | _ => True

/-! ### The calls that leave cnodes alone -/

theorem tame_signalEnd_deadly (c : ℕ) (ht : k.table pid = some t) (hl : t.state.live = true)
    (h : (k.space t.space).sigEntry = 0 ∨ k.Deadly t) : Tame k (k.procSignalEnd cfg c pid) := by
  have hset : Tame k (k.modSpace t.space fun s => { s with sigSaved := .empty }) :=
    tame_modSpace fun _ => rfl
  have hp := (wakeable_of_live ht hl).frame hset.toFrame
  simp only [procSignalEnd, ht]
  split_ifs with he hd
  · exact tame_schedule c
  · exact (hset.trans (tame_restore_ready hp)).trans (tame_schedule c)
  · exact absurd (h.resolve_left he) hd

theorem succeeds_sysSignal {target sig : ℤ} {w : ℤ → List ℤ} {late : List ℤ} (c : ℕ)
    (hk : Family cfg k) (hok : ∀ u, k.procGet target = some u →
      (sig = sigKill ∨ sig = sigStop) ∧ target ≠ pid ∧ u.state ≠ .running ∧ u.state ≠ .ready →
        k.MayEnd target) :
    Succeeds cfg k (k.sysSignal cfg c pid target sig w late) := by
  unfold sysSignal
  split
  case h_1 me u _ hu =>
    split_ifs with _ hdeadly
    · exact .refl hk
    · exact succeeds_procExit c hk (hok u hu hdeadly)
    · obtain ⟨hu, hul⟩ := procGet_eq_some.mp hu
      exact .of_tame (tame_procSignalSend c _ (wakeable_of_live hu hul)) hk
  case h_2 => exact .refl hk

/-- Writes to the kernel's own records. -/
theorem succeeds_congr (hk : Family cfg k) (ht : k'.table = k.table)
    (hn : k'.spaceNum = k.spaceNum) : Succeeds cfg k k' :=
  ⟨family_congr hk ht hn, hn.ge, fun _ P hP htype _ => ⟨P, ht ▸ hP, htype, rfl, rfl, rfl⟩⟩

theorem succeeds_sysProcSetGid {gid : ℤ} (hk : Family cfg k) :
    Succeeds cfg k (k.sysProcSetGid cfg pid gid) := by
  unfold sysProcSetGid
  split_ifs
  · refine ⟨family_modTask hk fun _ => ⟨rfl, rfl, rfl, rfl, rfl⟩, le_rfl, ?_⟩
    intro p P' hP' htype _
    rcases modTask_cases hP' with ⟨rfl, u, hu, rfl⟩ | ⟨-, hP⟩
    · exact ⟨u, hu, htype, rfl, rfl, rfl⟩
    · exact ⟨P', hP, htype, rfl, rfl, rfl⟩
  · exact .refl hk

theorem succeeds_procCapPolicyAdd {cmd : List UInt8} {type : ℕ} {rights : BitVec 32}
    {a b : BitVec 64} (hk : Family cfg k) :
    Succeeds cfg k (k.procCapPolicyAdd cfg pid cmd type rights a b) := by
  unfold procCapPolicyAdd
  split
  · split_ifs
    · exact .refl hk
    · exact succeeds_congr hk rfl rfl
  · exact .refl hk

theorem succeeds_svcHandler {call : Call} (c : ℕ) (ht : k.table pid = some t)
    (hl : t.state.live = true) (hk : Family cfg k) (hok : k.CallOrderly cfg pid t call)
    (hr : call.regrants = false) : Succeeds cfg k (k.svcHandler cfg c pid t call) := by
  have hp : k.Wakeable pid := wakeable_of_live ht hl
  cases call with
  | exit w late => exact succeeds_procExit c hk hok
  | fork b => exact succeeds_sysFork c hk ⟨t, ht, hl⟩
  | thread b => exact (succeeds_kfork c hk fun _ => ⟨t, ht, hl⟩).1
  | detach => exact succeeds_sysDetach hk ht hl hok
  | loadElf cmd loads => cases hr
  | waitpid p waiters => exact succeeds_procWaitpid c ⟨t, ht, hl⟩ hk
  | setUid uid => cases hr
  | setGid gid => exact succeeds_sysProcSetGid hk
  | capMint type rights a b => cases hr
  | capGrant target src mask => cases hr
  | capRevoke slot => cases hr
  | capPolicyAdd cmd type rights a b => exact succeeds_procCapPolicyAdd hk
  | coreReady =>
    simp only [svcHandler]
    split_ifs
    · exact succeeds_congr hk rfl rfl
    · exact .refl hk
  | usleep count => exact .of_tame (tame_procUsleep c count hp) hk
  | yield => exact .of_tame (tame_schedule c) hk
  | block token => exact .of_tame (tame_blockWith c token hp) hk
  | blockTimeout token usec => exact .of_tame (tame_blockWith c token hp) hk
  | wakeup target token => exact .of_tame tame_sysProcWakeup hk
  | signalSetup entry => exact .of_tame tame_procSignalSetup hk
  | signal target sig w late => exact succeeds_sysSignal c hk hok
  | signalEnd =>
    rcases hok with h | h | h
    · exact .of_tame (tame_signalEnd_deadly c ht hl (.inl h)) hk
    · exact .of_tame (tame_signalEnd_deadly c ht hl (.inr h)) hk
    · exact succeeds_ends (ends_procSignalEnd c ht hl) hk h
  | softInt target => exact .of_tame (tame_interruptSend c t.core) hk
  | interruptEnd again waiters => exact succeeds_ends (ends_interruptEnd c ht hl hok.1) hk hok.2
  | ipcDispatch serv lazy =>
    simp only [svcHandler]
    split_ifs with hs
    · obtain ⟨u, hu⟩ := Option.isSome_iff_exists.mp hs
      obtain ⟨hu, hul⟩ := procGet_eq_some.mp hu
      exact .of_tame (tame_procIpcDoTask c t.core (wakeable_of_live hu hul)) hk
    · exact .refl hk
  | ipcEnd r =>
    simp only [svcHandler]
    cases hs : k.procGetProc cfg pid with
    | none =>
      simp only [procIpcEnd, hs]
      exact .refl hk
    | some serv =>
      obtain ⟨u, hu, -⟩ := procGetProc_proc hs
      exact succeeds_ends (ends_procIpcEnd c hs hu) hk (hok serv u hs hu)
  | poolSpawn serv b =>
    simp only [svcHandler]
    split_ifs with hs
    · obtain ⟨u, hu⟩ := Option.isSome_iff_exists.mp hs
      obtain ⟨hu, hul⟩ := procGet_eq_some.mp hu
      exact succeeds_poolSpawn c hk ⟨u, hu, hul⟩
    · exact .refl hk
  | poolDispatch worker handoff => exact .of_tame (tame_ipcPoolDispatch c t.core) hk
  | poolPark waiters client => exact .of_tame (tame_procIpcPoolPark c hp) hk
  | poolEnd waiters w =>
    have hwake := Succeeds.of_tame (@tame_wakeAll cfg k waiters) hk
    exact hwake.trans (succeeds_procExit c hwake.family (MayEnd.tame hok hk (tame_wakeAll waiters)))

/-! ### The calls that change them -/

/-- `sys_load_elf` refuses, renames the caller, or renames it and gives it the cnode of the image. -/
theorem sysLoadElf_cases (cmd : List UInt8) (loads : Bool) :
    k.sysLoadElf cfg pid cmd loads = k ∨ ∃ k₁ : Sys,
      k₁.table = (k.modTask pid fun t => { t with cmd := cmd, uuid := k.nextUuid }).table ∧
      k₁.spaceNum = k.spaceNum ∧ (k.sysLoadElf cfg pid cmd loads = k₁ ∨
        loads = true ∧ k.sysLoadElf cfg pid cmd loads = (k₁.modTask pid fun t => { t with
          cnode := Capability.procCapOnExec k₁.uuidOf k.rules t.uid cmd }).procReady cfg pid) := by
  let k₁ : Sys := { k.modTask pid fun t => { t with cmd := cmd, uuid := k.nextUuid } with
    procUuid := k.nextUuid }
  unfold sysLoadElf
  split_ifs with _ hloads
  · exact .inl rfl
  · exact .inr ⟨k₁, rfl, rfl, .inr ⟨hloads, rfl⟩⟩
  · exact .inr ⟨k₁, rfl, rfl, .inl rfl⟩

theorem family_sysLoadElf {cmd : List UInt8} {loads : Bool} (hk : Family cfg k)
    (hp : k.Live pid) : Family cfg (k.sysLoadElf cfg pid cmd loads) := by
  rcases @sysLoadElf_cases cfg k pid cmd loads with h | ⟨k₁, htab, hnum, hcases⟩
  · rw [h]
    exact hk
  have hset : Family cfg (k.modTask pid fun t => { t with cmd := cmd, uuid := k.nextUuid }) :=
    family_modTask hk fun _ => ⟨rfl, rfl, rfl, rfl, rfl⟩
  have h₁ : Family cfg k₁ := family_congr hset htab hnum
  rcases hcases with h | ⟨-, h⟩
  · rw [h]
    exact h₁
  · have hp₁ : k₁.Live pid := by
      obtain ⟨t, ht, hl⟩ := live_modTask (f := fun t : Task =>
        { t with cmd := cmd, uuid := k.nextUuid }) (fun _ => rfl) hp
      exact ⟨t, htab ▸ ht, hl⟩
    have hexec : Family cfg (k₁.modTask pid fun t => { t with
        cnode := Capability.procCapOnExec k₁.uuidOf k.rules t.uid cmd }) :=
      family_modTask h₁ fun _ => ⟨rfl, rfl, rfl, rfl, rfl⟩
    rw [h]
    refine (Succeeds.of_tame (tame_procReadyWithOrder false (wakeable_of_isLive ?_)) hexec).family
    exact live_modTask (fun _ => rfl) hp₁

/-- A task keeps its type, space, link and life through any change of its identity. -/
theorem family_regrants {call : Call} (c : ℕ) (ht : k.table pid = some t)
    (hl : t.state.live = true) (hk : Family cfg k) (hr : call.regrants = true) :
    Family cfg (k.svcHandler cfg c pid t call) := by
  have hmod : ∀ (k : Sys) (p : ℤ) (f : Task → Task), Family cfg k →
      (∀ t, (f t).type = t.type ∧ (f t).space = t.space ∧
        (f t).isCoreIdleProc = t.isCoreIdleProc ∧ (f t).fatherPid = t.fatherPid ∧
        (f t).state.live = t.state.live) → Family cfg (k.modTask p f) :=
    fun _ _ _ hk hf => family_modTask hk hf
  cases call with
  | loadElf cmd loads => exact family_sysLoadElf hk ⟨t, ht, hl⟩
  | setUid uid =>
    simp only [svcHandler, sysProcSetUid]
    split_ifs
    · split
      · exact hk
      · exact hmod _ _ _ (hmod _ _ _ hk fun _ => ⟨rfl, rfl, rfl, rfl, rfl⟩)
          fun _ => ⟨rfl, rfl, rfl, rfl, rfl⟩
    · exact hk
  | capMint type rights a b =>
    simp only [svcHandler, procCapMint]
    split
    · exact hk
    · refine hmod _ _ _ hk fun t => ?_
      split_ifs
      · split <;> exact ⟨rfl, rfl, rfl, rfl, rfl⟩
      · exact ⟨rfl, rfl, rfl, rfl, rfl⟩
  | capGrant target src mask =>
    simp only [svcHandler, procCapGrant]
    split
    · split
      · exact hk
      · exact hmod _ _ _ hk fun _ => ⟨rfl, rfl, rfl, rfl, rfl⟩
    · exact hk
  | capRevoke slot =>
    simp only [svcHandler, procCapRevoke]
    split
    · exact hk
    · exact hmod _ _ _ hk fun _ => ⟨rfl, rfl, rfl, rfl, rfl⟩
  | _ => cases hr

/-- A step other than a call that changes cnodes. -/
theorem succeeds_step {o : Op} (hk : Family cfg k) (hok : k.Orderly cfg o)
    (hr : ∀ c call, o = .call c call → call.regrants = false)
    (hst : k.step cfg o = some k') : Succeeds cfg k k' := by
  cases o with
  | call c call =>
    cases hst
    unfold svc
    split
    case h_1 => exact .of_tame (tame_schedule c) hk
    case h_2 t ht =>
      obtain ⟨htab, hl⟩ := procGet_eq_some.mp ht
      exact succeeds_svcHandler c htab hl hk (hok t ht) (hr c call rfl)
  | schedule c => cases hst; exact .of_tame (tame_schedule c) hk
  | interrupt c target =>
    obtain ⟨t, -, rfl⟩ := Option.map_eq_some_iff.mp hst
    exact .of_tame (tame_interruptSend c t.core) hk
  | fault c w late =>
    simp only [step] at hst
    split at hst
    case h_1 => cases hst; exact .of_tame (tame_schedule c) hk
    case h_2 cur hcur => cases hst; exact succeeds_procExit c hk (hok cur hcur)
  | sleepTick usec => cases hst; exact .of_tame (tame_renewSleepCounter usec) hk
  | priorityTick pid => cases hst; exact .of_tame tame_renewPriority hk
  | interruptTimeout pid waiters =>
    cases hst
    cases ht : k.procGet pid with
    | none =>
      simp only [procInterruptTimeout, ht]
      exact .refl hk
    | some t => exact succeeds_ends (ends_procInterruptTimeout (procGet_eq_some.mp ht).1) hk (hok t ht)
  | ipcTimeout serv client waiters next =>
    cases hst
    cases ht : k.procGet serv with
    | none =>
      simp only [procIpcTimeout, ht]
      exact .refl hk
    | some t => exact succeeds_ends (ends_procIpcTimeout (procGet_eq_some.mp ht).1) hk (hok t ht)
  | poolShrink worker => cases hst; exact .of_tame (tame_procWakeupBy 0) hk
  | zombieFuneral c graced released => cases hst; exact (succeeds_zombieFuneral c _ hk).1
  | coreHalt core b =>
    simp only [step, Option.ite_none_left_eq_some, Option.some.injEq] at hst
    rw [← hst.2]
    exact succeeds_coreHalt core hk

/-- One step keeps the family in order. -/
theorem family_step {o : Op} (hk : Family cfg k) (hok : k.Orderly cfg o)
    (hst : k.step cfg o = some k') : Family cfg k' := by
  rcases em (∀ c call, o = .call c call → call.regrants = false) with hr | hr
  · exact (succeeds_step hk hok hr hst).family
  · push Not at hr
    obtain ⟨c, call, rfl, hr⟩ := hr
    cases hst
    unfold svc
    split
    case h_1 => exact (Succeeds.of_tame (tame_schedule c) hk).family
    case h_2 t ht =>
      obtain ⟨htab, hl⟩ := procGet_eq_some.mp ht
      exact family_regrants c htab hl hk (by simpa using hr)

theorem family_boot : Family cfg boot := by
  refine ⟨?_, ?_, ?_, ?_, ?_, ?_⟩
  · intro p t ht
    obtain ⟨rfl, -⟩ := boot_table ht
    exact ⟨le_rfl, Int.natCast_pos.mpr cfg.maxTaskNum_pos⟩
  · intro p t ht
    obtain ⟨-, rfl⟩ := boot_table ht
    exact Nat.zero_lt_one
  · intro p q P Q hP hQ _ _ _
    rw [(boot_table hP).1, (boot_table hQ).1]
  · intro p t ht hi
    obtain ⟨-, rfl⟩ := boot_table ht
    cases hi
  · intro p t ht _ htype
    obtain ⟨-, rfl⟩ := boot_table ht
    cases htype
  · rintro p ⟨t, ht, hl⟩
    obtain ⟨rfl, rfl⟩ := boot_table ht
    exact ⟨0, 0, .stop (hop_proc ht hl rfl)⟩

end Sys
/-! ### Who decides a check -/

/-- The cnode of the process of a live task's own address space decides every check of the task and
    is what a process forked by it starts with. -/
structure Confined (cfg : Config) (k : Sys) : Prop where
  owned : ∀ pid t, k.table pid = some t → t.state.live = true →
    ∃ p P, k.table p = some P ∧ P.type = .proc ∧ P.space = t.space
  decided : ∀ pid t p P, k.table pid = some t → t.state.live = true → k.table p = some P →
    P.type = .proc → P.space = t.space → ∀ q, k.capCheck cfg pid q = answers k.uuidOf P.cnode q
  inherited : ∀ pid t p P, k.table pid = some t → t.state.live = true → k.table p = some P →
    P.type = .proc → P.space = t.space →
      ∀ c b k' i, k.kfork cfg c .proc pid b = (k', some i) → k'.cnodeOf i = some P.cnode

namespace Family
open Sys
variable {cfg : Config} {k k' : Sys} {pid p : ℤ} {t P : Task}

/-- The owner of a task is the process of its space, whichever way that is found. -/
theorem owner_eq (hk : Family cfg k) (ht : k.table pid = some t) (hl : t.state.live = true)
    (hP : k.table p = some P) (hPt : P.type = .proc) (hPs : P.space = t.space) :
    k.procGetProc cfg pid = some p := by
  obtain ⟨q, Q, hQ, hQtab, hQt, hQs, -⟩ := hk.owner ht hl
  rw [hQ, hk.solo q p Q P hQtab hP hQt hPt (hQs.trans hPs.symm)]

theorem capCheck_eq (hk : Family cfg k) (ht : k.table pid = some t) (hl : t.state.live = true)
    (hP : k.table p = some P) (hPt : P.type = .proc) (hPs : P.space = t.space) (q : Query) :
    k.capCheck cfg pid q = answers k.uuidOf P.cnode q := by
  rw [capCheck, hk.owner_eq ht hl hP hPt hPs, Option.bind_some, cnodeOf, hP]
  rfl

/-- What a child starts with, after a sweep of the table that left its parent in place. -/
theorem bornCnode_eq (hk : Family cfg k) (hs : Succeeds cfg k k') (hstay : k.Stays k')
    (ht : k.table pid = some t) (hl : t.state.live = true) (hP : k.table p = some P)
    (hPt : P.type = .proc) (hPs : P.space = t.space) : k'.bornCnode cfg pid = P.cnode := by
  obtain ⟨t', ht', hl', hkin⟩ := hstay pid t ht hl
  have hspace : t'.space = t.space := by rw [hkin]
  obtain ⟨q, Q', hQ, hQ', hQt, hQs, -⟩ := hs.family.owner ht' hl'
  have hlt : Q'.space < k.spaceNum := by
    rw [hQs, hspace]
    exact hk.spaces pid t ht
  obtain ⟨Q, hQtab, hQt', hQs', hQc, -⟩ := hs.old q Q' hQ' hQt hlt
  have hqp : q = p := hk.solo q p Q P hQtab hP hQt' hPt (by rw [hQs', hQs, hspace, hPs])
  subst hqp
  rw [hP, Option.some.injEq] at hQtab
  rw [bornCnode, hQ, Option.bind_some, cnodeOf, hQ', Option.map_some, Option.getD_some, ← hQc, hQtab]

theorem confines (hk : Family cfg k) : Confined cfg k := by
  refine ⟨?_, ?_, ?_⟩
  · intro pid t ht hl
    obtain ⟨p, P, -, hP, hPt, hPs, -⟩ := hk.owner ht hl
    exact ⟨p, P, hP, hPt, hPs⟩
  · intro pid t p P ht hl hP hPt hPs q
    exact hk.capCheck_eq ht hl hP hPt hPs q
  · intro pid t p P ht hl hP hPt hPs c b k' i hfork
    unfold kfork at hfork
    split at hfork
    case h_1 => cases hfork
    case h_2 k₂ j hr =>
      obtain ⟨u, k₁, hu, -, -, -, hs, hstay, hcn, -⟩ :=
        (succeeds_kforkRaw c hk (fun h => by cases h) hr).2 j rfl
      have hborn : u.cnode = P.cnode := hcn.trans (hk.bornCnode_eq hs hstay ht hl hP hPt hPs)
      have hplaced : (k₂.modTask j fun t => { t with core := b.core }).table j =
          some { u with core := b.core } := by
        rw [modTask_self, hu]
        rfl
      split_ifs at hfork
      · cases hfork
      · cases hfork
        rw [cnodeOf]
        split_ifs
        · rw [hplaced, Option.map_some, ← hborn]
        · rw [procReady, procReadyWithOrder_some hplaced, Option.map_some, ← hborn]

end Family

/-- In every run that keeps the father links in order, authority follows the address space. -/
theorem authority_confined {cfg : Config} {k : Sys} (h : Reach (Sys.step cfg) (Sys.Orderly cfg) Sys.boot k) :
    Confined cfg k :=
  (h.inv Sys.family_boot fun _ _ _ hk hok hst => Sys.family_step hk hok hst).confines

/-- A process with user id 1000 and a thread of it, the thread running. -/
def toThread : List Op :=
  [.coreHalt 0 plainBirth, .schedule 0, .call 0 (.fork plainBirth), .schedule 0,
    .call 0 (.setUid 1000), .call 0 (.thread plainBirth), .schedule 0, .schedule 0]

/-- Steps that end nobody and detach nobody. -/
def linking : Op → Bool
  | .coreHalt _ _ => true
  | .schedule _ => true
  | .call _ (.fork _) => true
  | .call _ (.setUid _) => true
  | .call _ (.thread _) => true
  | _ => false

theorem linking_orderly {cfg : Config} {k : Sys} {o : Op} (h : linking o = true) :
    k.Orderly cfg o := by
  cases o with
  | call c call =>
    intro t _
    cases call with
    | fork b => trivial
    | setUid uid => trivial
    | thread b => trivial
    | _ => cases h
  | coreHalt core b => trivial
  | schedule c => trivial
  | _ => cases h

/-- What to look at: the space and type of the thread and of its process, and the thread's answer to
    a check for the root cap. -/
def threadView (k : Sys) : Option (ℕ × TaskType) × Option (ℕ × TaskType) × Bool :=
  ((k.procGet 3).map fun t => (t.space, t.type), (k.procGet 2).map fun t => (t.space, t.type),
    k.capCheck tiny 3 (.has .root 0))

/-- The thread shares the space of the process and is as unprivileged. -/
theorem authority_confined_thread : ∃ k, Reach (Sys.step tiny) (Sys.Orderly tiny) Sys.boot k ∧
    threadView k = (some (2, .thread), some (2, .proc), false) ∧ Confined tiny k := by
  have hrun : (Schemes.runIf (Sys.step tiny) (fun _ => linking) Sys.boot toThread).map threadView =
      some (some (2, .thread), some (2, .proc), false) := by decide +kernel
  obtain ⟨k, hk, hview⟩ := Option.map_eq_some_iff.mp hrun
  have hr : Reach (Sys.step tiny) (Sys.Orderly tiny) Sys.boot k :=
    Schemes.reach_of_runIf hk fun _ _ => linking_orderly
  exact ⟨k, hr, hview, authority_confined hr⟩

/-- One `SYS_DETACH` later the thread passes every check, by the cnode of init. -/
theorem detached_borrows : ∃ k, Reach (Sys.step tiny) Free Sys.boot k ∧ ¬Confined tiny k := by
  have hrun : (Schemes.runOps (Sys.step tiny) Sys.boot (toThread ++ [.call 0 .detach])).map
      (fun k => ((k.procGet 3).map fun t => t.space, (k.table 2).map fun P =>
        (P.space, P.type, answers k.uuidOf P.cnode (.has .root 0)),
        k.capCheck tiny 3 (.has .root 0))) =
      some (some 2, some (2, .proc, false), true) := by decide +kernel
  obtain ⟨k, hk, hobs⟩ := Option.map_eq_some_iff.mp hrun
  simp only [Prod.mk.injEq] at hobs
  obtain ⟨hthread, hproc, hroot⟩ := hobs
  obtain ⟨t, ht, hspace⟩ := Option.map_eq_some_iff.mp hthread
  obtain ⟨htab, hl⟩ := Sys.procGet_eq_some.mp ht
  obtain ⟨P, hP, hview⟩ := Option.map_eq_some_iff.mp hproc
  simp only [Prod.mk.injEq] at hview
  obtain ⟨hPs, hPt, hno⟩ := hview
  refine ⟨k, Schemes.reach_of_runOps hk, fun h => ?_⟩
  have hsame := h.decided 3 t 2 P htab hl hP hPt (hPs.trans hspace.symm) (.has .root 0)
  rw [hroot, hno] at hsame
  cases hsame

end EwokOS.Kernel.Tasks
