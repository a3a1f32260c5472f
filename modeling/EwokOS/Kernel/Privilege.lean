import EwokOS.Kernel.Authority

/-! Dropping privilege.

    `SYS_PROC_SET_UID` with a user's uid empties the cnode of the caller's process but stores the uid
    in the calling task alone, and `exec` derives the new cnode from the uid of the task that calls
    it. So the drop is final exactly when the main task that execs later is the one that dropped, or
    has a user's uid by other means; `regained` is the run in which a thread drops and its main task
    execs itself back to root. -/

namespace EwokOS.Kernel.Tasks

open Schemes (Reach Free)
open Capability (Cnode Cap Query answers cnodeHasRoot anySlot_iff insertCap grantCap capCnodeInit
  capCnodeRevoke procCapOnExec procCapOnSetuid cnodeSlots)

/-! ### Who holds the root cap -/

section
variable {cn : Cnode} {c : Cap} {live : ℤ → Option ℕ} {r : BitVec 32}

/-- A check for the root cap looks for the root cap, whatever rights it names. -/
theorem answers_root : answers live cn (.has .root r) = cnodeHasRoot cn := by
  rw [answers, Capability.procCapHas]
  cases hroot : cnodeHasRoot cn with
  | true => rfl
  | false =>
    rw [Bool.false_or, ← Bool.not_eq_true, anySlot_iff]
    rintro ⟨i, hi, h⟩
    rw [Bool.and_eq_true] at h
    have hsome : cnodeHasRoot cn = true := anySlot_iff.mpr ⟨i, hi, h.1⟩
    rw [hroot] at hsome
    cases hsome

theorem hasRoot_insertCap (h : cnodeHasRoot (insertCap cn c) = true) :
    cnodeHasRoot cn = true ∨ c.type = .root := by
  have hq : answers (fun _ => none) (insertCap cn c) (.has .root 0) = true := by
    rw [answers_root, h]
  rcases Capability.answers_insertCap hq with h | h
  · exact .inl (by rwa [answers_root] at h)
  · simp only [Cap.solo, Cap.matches, Bool.or_eq_true, Bool.and_eq_true, beq_iff_eq] at h
    rcases h with h | ⟨-, h⟩
    · exact .inr h
    · exact .inr h

theorem hasRoot_revoke {slot : ℕ} (h : cnodeHasRoot (capCnodeRevoke cn slot) = true) :
    cnodeHasRoot cn = true := by
  have hq : answers (fun _ => none) (capCnodeRevoke cn slot) (.has .root 0) = true := by
    rw [answers_root, h]
  have := Capability.answers_revoke hq
  rwa [answers_root] at this

theorem hasRoot_init : cnodeHasRoot capCnodeInit = false := by
  have h : answers (fun _ => none) capCnodeInit (.has .root 0) = false := Capability.answers_init
  rwa [answers_root] at h

/-- A cnode without the root cap has none to forward. -/
theorem grantCap_type {src : ℕ} {mask : BitVec 32} (h : grantCap cn src mask = some c) :
    c.type = (cn src).type ∧ (cnodeHasRoot cn = false → (cn src).type ≠ .root) := by
  obtain ⟨-, rfl⟩ := Capability.grantCap_spec h
  refine ⟨rfl, fun hno htype => ?_⟩
  have hsrc : src < cnodeSlots := by
    by_contra hge
    simp [grantCap, Nat.not_lt.mp hge] at h
  have hsome : cnodeHasRoot cn = true := anySlot_iff.mpr ⟨src, hsrc, by rw [htype]; rfl⟩
  rw [hno] at hsome
  cases hsome

end

/-! ### The condition -/

namespace Sys
variable (cfg : Config) (k : Sys)

/-- The exceptions the drop itself has: another process forwards the root cap to the process of
    space `s`, or a policy rule names the image its main task execs. -/
def Unaided (s : ℕ) (k : Sys) : Op → Prop
  | .call c (.capGrant target src _) => ∀ t o O cn, k.procGet (k.current c) = some t →
      t.space ≠ s → k.procGetProc cfg target = some o → k.table o = some O → O.space = s →
        (k.procGetProc cfg (k.current c)).bind k.cnodeOf = some cn → (cn src).type ≠ .root
  | .call c (.loadElf cmd true) => ∀ t, k.procGet (k.current c) = some t → t.type = .proc →
      t.space = s → ¬∃ r ∈ k.rules, r.fits cmd = true
  | _ => True

/-- The main task of space `s` execs with a user's uid of its own. -/
def OwnUid (s : ℕ) (k : Sys) : Op → Prop
  | .call c (.loadElf _ true) => ∀ t, k.procGet (k.current c) = some t → t.type = .proc →
      t.space = s → 0 < t.uid
  | _ => True

/-- The condition on a step after a drop in space `s`; `main` says that its main task dropped. -/
def Lasting (main : Prop) (s : ℕ) (k : Sys) (o : Op) : Prop :=
  k.Orderly cfg o ∧ Unaided cfg s k o ∧ (main ∨ OwnUid s k o)

end Sys

/-- What lasts: the process of space `s` has no root cap, and a user's uid if it dropped itself. -/
structure Dropped (main : Prop) (s : ℕ) (k : Sys) : Prop where
  space : s < k.spaceNum
  rootless : ∀ p P, k.table p = some P → P.type = .proc → P.space = s →
    cnodeHasRoot P.cnode = false
  uid : main → ∀ p P, k.table p = some P → P.type = .proc → P.space = s → 0 < P.uid

namespace Dropped
open Sys
variable {cfg : Config} {main : Prop} {s : ℕ} {k k' : Sys} {p pid : ℤ} {t P : Task}

theorem succeeds (h : Dropped main s k) (hs : Succeeds cfg k k') : Dropped main s k' := by
  refine ⟨h.space.trans_le hs.grows, ?_, ?_⟩
  · intro p P' hP' htype hspace
    obtain ⟨P, hP, ht, hsp, hc, -⟩ := hs.old p P' hP' htype (hspace ▸ h.space)
    rw [← hc]
    exact h.rootless p P hP ht (hsp.trans hspace)
  · intro hmain p P' hP' htype hspace
    obtain ⟨P, hP, ht, hsp, -, hu⟩ := hs.old p P' hP' htype (hspace ▸ h.space)
    rw [← hu]
    exact h.uid hmain p P hP ht (hsp.trans hspace)

/-- A write to one task has to be checked there, and only for the process of the space. -/
theorem modTask {f : Task → Task} (h : Dropped main s k)
    (hf : ∀ t, (f t).type = t.type ∧ (f t).space = t.space)
    (hp : ∀ P, k.table p = some P → P.type = .proc → P.space = s →
      cnodeHasRoot (f P).cnode = false ∧ (main → 0 < (f P).uid)) : Dropped main s (k.modTask p f) := by
  refine ⟨h.space, ?_, ?_⟩
  · intro q P' hP' htype hspace
    rcases modTask_cases hP' with ⟨rfl, P, hP, rfl⟩ | ⟨-, hP⟩
    · exact (hp P hP ((hf P).1 ▸ htype) ((hf P).2 ▸ hspace)).1
    · exact h.rootless q P' hP htype hspace
  · intro hmain q P' hP' htype hspace
    rcases modTask_cases hP' with ⟨rfl, P, hP, rfl⟩ | ⟨-, hP⟩
    · exact (hp P hP ((hf P).1 ▸ htype) ((hf P).2 ▸ hspace)).2 hmain
    · exact h.uid hmain q P' hP htype hspace

/-- A write to a task of another space. -/
theorem elsewhere {f : Task → Task} (h : Dropped main s k)
    (hf : ∀ t, (f t).type = t.type ∧ (f t).space = t.space)
    (hp : ∀ P, k.table p = some P → P.space ≠ s) : Dropped main s (k.modTask p f) :=
  h.modTask hf fun P hP _ hspace => absurd hspace (hp P hP)

theorem congr (h : Dropped main s k) (ht : k'.table = k.table) (hn : k'.spaceNum = k.spaceNum) :
    Dropped main s k' :=
  ⟨hn ▸ h.space, by rw [ht]; exact h.rootless, by rw [ht]; exact h.uid⟩

/-- No live task of the space passes a check for the root cap. -/
theorem refused (h : Dropped main s k) (hk : Family cfg k) (ht : k.table pid = some t)
    (hl : t.state.live = true) (hs : t.space = s) (r : BitVec 32) :
    k.capCheck cfg pid (.has .root r) = false := by
  obtain ⟨p, P, -, hP, hPt, hPs, -⟩ := hk.owner ht hl
  rw [hk.capCheck_eq ht hl hP hPt hPs, answers_root]
  exact h.rootless p P hP hPt (hPs.trans hs)

/-! ### One step -/

theorem sysLoadElf {cmd : List UInt8} {loads : Bool} (h : Dropped main s k) (hk : Family cfg k)
    (ht : k.table pid = some t) (hl : t.state.live = true)
    (hrule : loads = true → t.type = .proc → t.space = s → ¬∃ r ∈ k.rules, r.fits cmd = true)
    (huid : loads = true → t.type = .proc → t.space = s → 0 < t.uid) :
    Dropped main s (k.sysLoadElf cfg pid cmd loads) := by
  rcases @sysLoadElf_cases cfg k pid cmd loads with hid | ⟨k₁, htab, hnum, hcases⟩
  · rw [hid]
    exact h
  have hset : Dropped main s (k.modTask pid fun t => { t with cmd := cmd, uuid := k.nextUuid }) :=
    h.modTask (fun _ => ⟨rfl, rfl⟩) fun P hP hPt hPs =>
      ⟨h.rootless pid P hP hPt hPs, fun hm => h.uid hm pid P hP hPt hPs⟩
  have h₁ : Dropped main s k₁ := hset.congr htab hnum
  rcases hcases with hres | ⟨hloads, hres⟩
  · rw [hres]
    exact h₁
  · rw [hres]
    have hself : ∀ P, k₁.table pid = some P →
        P.type = t.type ∧ P.space = t.space ∧ P.uid = t.uid ∧ P.state = t.state := by
      intro P hP
      rw [htab, modTask_self, ht, Option.map_some, Option.some.injEq] at hP
      rw [← hP]
      exact ⟨rfl, rfl, rfl, rfl⟩
    have hexec : Dropped main s (k₁.modTask pid fun t => { t with
        cnode := procCapOnExec k₁.uuidOf k.rules t.uid cmd }) := by
      refine h₁.modTask (fun _ => ⟨rfl, rfl⟩) fun P hP hPt hPs => ⟨?_, fun hm => ?_⟩
      · obtain ⟨htype, hspace, hu, -⟩ := hself P hP
        have hpos := huid hloads (htype ▸ hPt) (hspace ▸ hPs)
        have hno := hrule hloads (htype ▸ hPt) (hspace ▸ hPs)
        dsimp only
        rw [hu, Capability.onExec_empty (not_le.mpr hpos) hno]
        exact hasRoot_init
      · exact h₁.uid hm pid P hP hPt hPs
    have hname : Family cfg (k.modTask pid fun t => { t with cmd := cmd, uuid := k.nextUuid }) :=
      family_modTask hk fun _ => ⟨rfl, rfl, rfl, rfl, rfl⟩
    have hk₁ : Family cfg (k₁.modTask pid fun t => { t with
        cnode := procCapOnExec k₁.uuidOf k.rules t.uid cmd }) :=
      family_modTask (family_congr hname htab hnum) fun _ => ⟨rfl, rfl, rfl, rfl, rfl⟩
    refine hexec.succeeds (.of_tame (tame_procReadyWithOrder false fun P hP => .inl ?_) hk₁)
    rcases modTask_cases hP with ⟨-, Q, hQ, rfl⟩ | ⟨hne, -⟩
    · exact (hself Q hQ).2.2.2 ▸ hl
    · exact absurd rfl hne

theorem sysProcSetUid {uid : ℤ} (h : Dropped main s k) (hk : Family cfg k)
    (ht : k.table pid = some t) (hl : t.state.live = true) :
    Dropped main s (k.sysProcSetUid cfg pid uid) := by
  unfold Sys.sysProcSetUid
  split_ifs with hroot
  · -- only a task of another space gets this far
    have hs : t.space ≠ s := by
      intro hs
      rw [h.refused hk ht hl hs 0] at hroot
      cases hroot
    split
    case h_1 => exact h
    case h_2 o ho =>
      obtain ⟨q, P, hq, hP, -, hPs, -⟩ := hk.owner ht hl
      rw [ho, Option.some.injEq] at hq
      subst hq
      have hself : ∀ P, k.table pid = some P → P.space ≠ s := fun P hP => by
        rw [ht, Option.some.injEq] at hP
        exact hP ▸ hs
      have hset : Dropped main s (k.modTask pid fun t => { t with uid := uid }) :=
        h.elsewhere (fun _ => ⟨rfl, rfl⟩) hself
      refine hset.elsewhere (fun _ => ⟨rfl, rfl⟩) ?_
      intro Q hQ
      rcases modTask_cases hQ with ⟨rfl, R, hR, rfl⟩ | ⟨-, hQ⟩
      · exact hself R hR
      · rw [hP, Option.some.injEq] at hQ
        rw [← hQ, hPs]
        exact hs
  · exact h

theorem procCapMint {type : ℕ} {rights : BitVec 32} {a b : BitVec 64} (h : Dropped main s k) :
    Dropped main s (k.procCapMint cfg pid type rights a b) := by
  unfold Sys.procCapMint
  split
  case h_1 => exact h
  case h_2 o _ =>
    refine h.modTask (fun t => ?_) fun P hP hPt hPs => ?_
    · split_ifs
      · split <;> exact ⟨rfl, rfl⟩
      · exact ⟨rfl, rfl⟩
    · have hno := h.rootless o P hP hPt hPs
      rw [if_neg (by rw [hno]; decide)]
      exact ⟨hno, fun hm => h.uid hm o P hP hPt hPs⟩

theorem procCapGrant {target : ℤ} {src : ℕ} {mask : BitVec 32} (h : Dropped main s k)
    (hk : Family cfg k) (ht : k.table pid = some t) (hl : t.state.live = true)
    (hok : ∀ o O cn, t.space ≠ s → k.procGetProc cfg target = some o → k.table o = some O →
      O.space = s → (k.procGetProc cfg pid).bind k.cnodeOf = some cn → (cn src).type ≠ .root) :
    Dropped main s (k.procCapGrant cfg pid target src mask) := by
  unfold Sys.procCapGrant
  split
  case h_1 cn o hcn ho =>
    split
    case h_1 => exact h
    case h_2 cap hcap =>
      refine h.modTask (fun _ => ⟨rfl, rfl⟩) fun P hP hPt hPs => ⟨?_, fun hm => h.uid hm o P hP hPt hPs⟩
      obtain ⟨htype, hnone⟩ := grantCap_type hcap
      rw [← Bool.not_eq_true]
      intro hroot
      rcases hasRoot_insertCap hroot with hroot | hroot
      · rw [h.rootless o P hP hPt hPs] at hroot
        cases hroot
      rw [htype] at hroot
      rcases eq_or_ne t.space s with hs | hs
      · -- a task of the space forwards from a cnode without the root cap
        obtain ⟨q, Q, hq, hQ, hQt, hQs, -⟩ := hk.owner ht hl
        rw [hq, Option.bind_some, cnodeOf, hQ, Option.map_some, Option.some.injEq] at hcn
        subst hcn
        exact hnone (h.rootless q Q hQ hQt (hQs.trans hs)) hroot
      · exact hok o P cn hs ho hP hPs hcn hroot
  case h_2 => exact h

theorem procCapRevoke {slot : ℕ} (h : Dropped main s k) :
    Dropped main s (k.procCapRevoke cfg pid slot) := by
  unfold Sys.procCapRevoke
  split
  case h_1 => exact h
  case h_2 o _ =>
    refine h.modTask (fun _ => ⟨rfl, rfl⟩) fun P hP hPt hPs => ⟨?_, fun hm => h.uid hm o P hP hPt hPs⟩
    rw [← Bool.not_eq_true]
    intro hroot
    have := hasRoot_revoke hroot
    rw [h.rootless o P hP hPt hPs] at this
    cases this

/-- One step of a run after the drop. -/
theorem step {o : Op} (h : Dropped main s k) (hk : Family cfg k) (hok : Lasting cfg main s k o)
    (hst : k.step cfg o = some k') : Dropped main s k' := by
  obtain ⟨horder, haid, hown⟩ := hok
  rcases em (∀ c call, o = .call c call → call.regrants = false) with hr | hr
  · exact h.succeeds (succeeds_step hk horder hr hst)
  push Not at hr
  obtain ⟨c, call, rfl, hr⟩ := hr
  cases hst
  unfold svc
  split
  case h_1 => exact h.succeeds (.of_tame (tame_schedule c) hk)
  case h_2 t ht =>
    obtain ⟨htab, hl⟩ := procGet_eq_some.mp ht
    cases call with
    | loadElf cmd loads =>
      refine h.sysLoadElf hk htab hl ?_ ?_
      · rintro rfl htype hspace
        exact haid t ht htype hspace
      · rintro rfl htype hspace
        rcases hown with hm | hown
        · exact h.uid hm _ t htab htype hspace
        · exact hown t ht htype hspace
    | setUid uid => exact h.sysProcSetUid hk htab hl
    | capMint type rights a b => exact h.procCapMint
    | capGrant target src mask =>
      exact h.procCapGrant hk htab hl fun o O cn hs ho hO hOs hcn => haid t o O cn ht hs ho hO hOs hcn
    | capRevoke slot => exact h.procCapRevoke
    | _ => exact absurd rfl hr

end Dropped

/-! ### A drop is for good -/

namespace Sys
variable {cfg : Config} {k k' : Sys} {t : Task} {c : ℕ}

/-- The drop itself. -/
theorem dropped_setUid {uid : ℤ} (hk : Family cfg k) (ht : k.procGet (k.current c) = some t)
    (hroot : k.capCheck cfg (k.current c) (.has .root 0) = true) (hu : 0 < uid)
    (hst : k.step cfg (.call c (.setUid uid)) = some k') :
    Family cfg k' ∧ Dropped (t.type = .proc) t.space k' := by
  have horder : k.Orderly cfg (.call c (.setUid uid)) := fun _ _ => trivial
  refine ⟨family_step hk horder hst, ?_⟩
  obtain ⟨htab, hl⟩ := procGet_eq_some.mp ht
  obtain ⟨p, P, hp, hP, hPt, hPs, -⟩ := hk.owner htab hl
  have hk' : k' = (k.modTask (k.current c) fun t => { t with uid := uid }).modTask p fun t =>
      { t with cnode := procCapOnSetuid t.cnode uid } := by
    simp only [step, Option.some.injEq, svc, ht, svcHandler, sysProcSetUid, if_pos hroot, hp] at hst
    exact hst.symm
  -- the process of the space is the owner, and has the new uid if it is the caller
  have hcases : ∀ q Q, k'.table q = some Q → Q.type = .proc → Q.space = t.space →
      Q.cnode = capCnodeInit ∧ (t.type = .proc → Q.uid = uid) := by
    intro q Q hQ hQt hQs
    have hqp : q = p := by
      have hQ' : ∃ R, k.table q = some R ∧ R.type = Q.type ∧ R.space = Q.space := by
        rw [hk'] at hQ
        rcases modTask_cases hQ with ⟨rfl, R, hR, rfl⟩ | ⟨-, hR⟩
        · rcases modTask_cases hR with ⟨rfl, R', hR', rfl⟩ | ⟨-, hR'⟩
          · exact ⟨R', hR', rfl, rfl⟩
          · exact ⟨R, hR', rfl, rfl⟩
        · rcases modTask_cases hR with ⟨rfl, R', hR', rfl⟩ | ⟨-, hR'⟩
          · exact ⟨R', hR', rfl, rfl⟩
          · exact ⟨Q, hR', rfl, rfl⟩
      obtain ⟨R, hR, hRt, hRs⟩ := hQ'
      exact hk.solo q p R P hR hP (hRt.trans hQt) hPt (by rw [hRs, hQs, hPs])
    subst hqp
    rw [hk'] at hQ
    rcases modTask_cases hQ with ⟨-, R, hR, rfl⟩ | ⟨hne, -⟩
    · refine ⟨if_pos hu, fun htype => ?_⟩
      rw [hk.solo _ q t P htab hP htype hPt hPs.symm] at hR
      rcases modTask_cases hR with ⟨-, R', -, rfl⟩ | ⟨hne, -⟩
      · rfl
      · exact absurd rfl hne
    · exact absurd rfl hne
  refine ⟨?_, ?_, ?_⟩
  · rw [hk']
    exact hk.spaces _ t htab
  · intro q Q hQ hQt hQs
    rw [(hcases q Q hQ hQt hQs).1]
    exact hasRoot_init
  · intro htype q Q hQ hQt hQs
    rw [(hcases q Q hQ hQt hQs).2 htype]
    exact hu

end Sys

/-- After a successful drop to a user's uid, no task of the space passes a check for the root cap
    again. -/
theorem drop_irreversible {cfg : Config} {k k₁ k₂ : Sys} {c : ℕ} {t : Task} {uid : ℤ}
    (h : Reach (Sys.step cfg) (Sys.Orderly cfg) Sys.boot k)
    (ht : k.procGet (k.current c) = some t)
    (hroot : k.capCheck cfg (k.current c) (.has .root 0) = true) (hu : 0 < uid)
    (hst : k.step cfg (.call c (.setUid uid)) = some k₁)
    (hrun : Reach (Sys.step cfg) (Sys.Lasting cfg (t.type = .proc) t.space) k₁ k₂) :
    ∀ pid u r, k₂.table pid = some u → u.state.live = true → u.space = t.space →
      k₂.capCheck cfg pid (.has .root r) = false := by
  have hk : Family cfg k := h.inv Sys.family_boot fun _ _ _ hk hok hst => Sys.family_step hk hok hst
  obtain ⟨hk₂, hd⟩ := hrun.inv (I := fun k => Family cfg k ∧ Dropped (t.type = .proc) t.space k)
    (Sys.dropped_setUid hk ht hroot hu hst) fun _ _ _ hI hok hst =>
      ⟨Sys.family_step hI.1 hok.1 hst, hI.2.step hI.1 hok hst⟩
  exact fun pid u r hu hl hs => hd.refused hk₂ hu hl hs r

/-- A child of init, root like init, runs. -/
def toChild : List Op :=
  [.coreHalt 0 plainBirth, .schedule 0, .call 0 (.fork plainBirth), .schedule 0]

/-- Steps that end nobody, detach nobody and forward nothing; an exec only without any policy. -/
def unaided (k : Sys) : Op → Bool
  | .call _ (.loadElf _ _) => k.rules.isEmpty
  | o => linking o

theorem unaided_lasting {cfg : Config} {s : ℕ} {k : Sys} {o : Op} (h : unaided k o = true) :
    k.Orderly cfg o ∧ Sys.Unaided cfg s k o := by
  cases o with
  | call c call =>
    cases call with
    | loadElf cmd loads =>
      refine ⟨fun _ _ => trivial, ?_⟩
      cases loads with
      | false => trivial
      | true =>
        rintro t - - - ⟨r, hr, -⟩
        rw [List.isEmpty_iff.mp h] at hr
        cases hr
    | fork b => exact ⟨linking_orderly h, trivial⟩
    | thread b => exact ⟨linking_orderly h, trivial⟩
    | setUid uid => exact ⟨linking_orderly h, trivial⟩
    | _ => cases h
  | coreHalt core b => exact ⟨linking_orderly h, trivial⟩
  | schedule c => exact ⟨linking_orderly h, trivial⟩
  | _ => cases h

/-- The main task drops, then execs: still a user. -/
theorem drop_irreversible_exec : ∃ k k₁ k₂ t,
    Reach (Sys.step tiny) (Sys.Orderly tiny) Sys.boot k ∧ k.procGet (k.current 0) = some t ∧
    k.capCheck tiny (k.current 0) (.has .root 0) = true ∧
    k.step tiny (.call 0 (.setUid 1000)) = some k₁ ∧
    k₁.step tiny (.call 0 (.loadElf [0x78] true)) = some k₂ ∧
    ∀ pid u r, k₂.table pid = some u → u.state.live = true → u.space = t.space →
      k₂.capCheck tiny pid (.has .root r) = false := by
  have hrun : (Schemes.runIf (Sys.step tiny) unaided Sys.boot toChild).map (fun k =>
      ((k.procGet (k.current 0)).map fun t => t.type, k.capCheck tiny (k.current 0) (.has .root 0),
        (k.step tiny (.call 0 (.setUid 1000))).map fun k => k.rules)) =
      some (some .proc, true, some []) := by decide +kernel
  obtain ⟨k, hk, hobs⟩ := Option.map_eq_some_iff.mp hrun
  simp only [Prod.mk.injEq] at hobs
  obtain ⟨htask, hroot, hset⟩ := hobs
  obtain ⟨t, ht, htype⟩ := Option.map_eq_some_iff.mp htask
  obtain ⟨k₁, hk₁, hrules⟩ := Option.map_eq_some_iff.mp hset
  have hr : Reach (Sys.step tiny) (Sys.Orderly tiny) Sys.boot k :=
    Schemes.reach_of_runIf hk fun _ _ h => (unaided_lasting (s := 0) h).1
  have hok : unaided k₁ (.call 0 (.loadElf [0x78] true)) = true := List.isEmpty_iff.mpr hrules
  obtain ⟨horder, haid⟩ := @unaided_lasting tiny t.space _ _ hok
  exact ⟨k, k₁, _, t, hr, ht, hroot, hk₁, rfl, drop_irreversible hr ht hroot (by decide) hk₁
    (.next .start ⟨horder, haid, .inl htype⟩ rfl)⟩

/-- A thread drops, its main task, whose uid is still root's, execs: root again, with nobody's
    help. -/
theorem regained : ∃ k k₁ k₂ t,
    Reach (Sys.step tiny) (Sys.Orderly tiny) Sys.boot k ∧ k.procGet (k.current 0) = some t ∧
    k.capCheck tiny (k.current 0) (.has .root 0) = true ∧
    k.step tiny (.call 0 (.setUid 1000)) = some k₁ ∧
    Reach (Sys.step tiny) (fun k o => k.Orderly tiny o ∧ Sys.Unaided tiny t.space k o) k₁ k₂ ∧
    ∃ pid u, k₂.table pid = some u ∧ u.state.live = true ∧ u.space = t.space ∧
      k₂.capCheck tiny pid (.has .root 0) = true := by
  have hrun : (Schemes.runIf (Sys.step tiny) unaided Sys.boot
      (toChild ++ [.call 0 (.thread plainBirth), .schedule 0, .schedule 0])).map (fun k =>
        ((k.procGet (k.current 0)).map fun t => t.space,
          k.capCheck tiny (k.current 0) (.has .root 0),
          (k.step tiny (.call 0 (.setUid 1000))).map fun k₁ =>
            (Schemes.runIf (Sys.step tiny) unaided k₁
              [.schedule 0, .call 0 (.loadElf [0x78] true)]).map fun k₂ =>
                ((k₂.procGet 2).map fun u => u.space, k₂.capCheck tiny 2 (.has .root 0)))) =
      some (some 2, true, some (some (some 2, true))) := by decide +kernel
  obtain ⟨k, hk, hobs⟩ := Option.map_eq_some_iff.mp hrun
  simp only [Prod.mk.injEq] at hobs
  obtain ⟨htask, hroot, hset⟩ := hobs
  obtain ⟨t, ht, hspace⟩ := Option.map_eq_some_iff.mp htask
  obtain ⟨k₁, hk₁, hlater⟩ := Option.map_eq_some_iff.mp hset
  obtain ⟨k₂, hk₂, hview⟩ := Option.map_eq_some_iff.mp hlater
  simp only [Prod.mk.injEq] at hview
  obtain ⟨hmain, hagain⟩ := hview
  obtain ⟨u, hu, hus⟩ := Option.map_eq_some_iff.mp hmain
  obtain ⟨hu, hul⟩ := Sys.procGet_eq_some.mp hu
  refine ⟨k, k₁, k₂, t, ?_, ht, hroot, hk₁, ?_, 2, u, hu, hul, hus.trans hspace.symm, hagain⟩
  · exact Schemes.reach_of_runIf hk fun _ _ h => (unaided_lasting (s := 0) h).1
  · exact Schemes.reach_of_runIf hk₂ fun _ _ h => unaided_lasting h

end EwokOS.Kernel.Tasks
