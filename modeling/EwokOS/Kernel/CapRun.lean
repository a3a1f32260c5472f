import EwokOS.Kernel.Cap
import EwokOS.Schemes.Run

/-! Runs of the capability system calls: no capability amplification.

    The machine is a set of processes, each with its uid, its identity and its cnode, and the
    exec-time policy. A step is one of `proc_cap_mint`, `proc_cap_grant`, `proc_cap_revoke`,
    `proc_cap_policy_add`, setuid, fork, exec and exit.

    Attenuation is by rights, but `cnode_has_root` looks at the type of a slot and not at its
    rights, so a root cap forwarded with a smaller mask is still the root cap
    (`maskedRoot_amplifies`). Everything else attenuates (`no_amplification`). -/

namespace EwokOS.Kernel.Capability

open Schemes (Reach Free)

structure Proc where
  uid : ℤ
  uuid : ℕ
  cmd : List UInt8
  cnode : Cnode

structure Machine where
  proc : ℤ → Option Proc
  rules : List PolicyRule
  procUuid : ℕ

namespace Machine
variable (m : Machine)

def setProc (p : ℤ) (P : Proc) : Machine := { m with proc := Function.update m.proc p (some P) }

/-- The uuid of a live pid. -/
def live (pid : ℤ) : Option ℕ := (m.proc pid).map Proc.uuid

/-- `++_proc_uuid`. -/
def nextUuid : ℕ := (m.procUuid + 1) % 2 ^ 32

/-- `proc_cap_mint` by process `p`; a failed call changes nothing. -/
def procCapMint (p : ℤ) (P : Proc) (type : ℕ) (rights : BitVec 32) (a b : BitVec 64) : Machine :=
  if cnodeHasRoot P.cnode = false then m
  else match (CapType.ofCode type).bind fun t => mintCap m.live t rights a b with
    | none => m
    | some c => m.setProc p { P with cnode := insertCap P.cnode c }

/-- `proc_cap_grant` by process `P` to process `target`. -/
def procCapGrant (P : Proc) (target : ℤ) (src : ℕ) (mask : BitVec 32) : Machine :=
  match m.proc target, grantCap P.cnode src mask with
  | some T, some c => m.setProc target { T with cnode := insertCap T.cnode c }
  | _, _ => m

/-- `proc_cap_revoke`. -/
def procCapRevoke (p : ℤ) (P : Proc) (slot : ℕ) : Machine :=
  m.setProc p { P with cnode := capCnodeRevoke P.cnode slot }

/-- `proc_cap_policy_add` on the rule list: entries of one command share a rule. -/
def addRule (rules : List PolicyRule) (cmd : List UInt8) (e : PolicyEntry) : List PolicyRule :=
  match rules.findIdx? fun r => r.cmd == cmd with
  | some i => rules.modify i fun r =>
      if capPolicyEntryMax ≤ r.entries.length then r else { r with entries := r.entries ++ [e] }
  | none =>
    if capPolicyRuleMax ≤ rules.length then rules
    else rules ++ [⟨cmd.take (capPolicyCmdMax - 1), [e]⟩]

/-- `proc_cap_policy_add` by process `P`. -/
def procCapPolicyAdd (P : Proc) (cmd : List UInt8) (type : ℕ) (rights : BitVec 32)
    (a b : BitVec 64) : Machine :=
  if cnodeHasRoot P.cnode = false ∨ cmd = [] then m
  else match CapType.ofCode type with
    | none => m
    | some .invalid => m
    | some t => { m with rules := addRule m.rules cmd ⟨t, rights &&& capAll, a, b⟩ }

/-- `sys_proc_set_uid`, gated by the root authority. -/
def procSetUid (p : ℤ) (P : Proc) (uid : ℤ) : Machine :=
  if procCapHas P.cnode .root 0 = false then m
  else m.setProc p { P with uid := uid, cnode := procCapOnSetuid P.cnode uid }

/-- `proc_create` for a fork: the child has its own identity and a copy of the cnode. -/
def fork (P : Proc) (child : ℤ) : Machine :=
  { m.setProc child { P with uuid := m.nextUuid } with procUuid := m.nextUuid }

/-- `sys_load_elf`. The new image has a new uuid; the cnode is reset only if it loads. -/
def loadElf (p : ℤ) (P : Proc) (cmd : List UInt8) (loads : Bool) : Machine :=
  if capPolicyCmdMax ≤ cmd.length then m
  else
  let m' := { m.setProc p { P with uuid := m.nextUuid, cmd := cmd } with procUuid := m.nextUuid }
  if loads then
    m'.setProc p { P with
      uuid := m.nextUuid, cmd := cmd, cnode := procCapOnExec m'.live m.rules P.uid cmd }
  else m'

end Machine

inductive Op where
  | mint (pid : ℤ) (type : ℕ) (rights : BitVec 32) (a b : BitVec 64)
  | grant (pid target : ℤ) (src : ℕ) (mask : BitVec 32)
  | revoke (pid : ℤ) (slot : ℕ)
  | policyAdd (pid : ℤ) (cmd : List UInt8) (type : ℕ) (rights : BitVec 32) (a b : BitVec 64)
  | setUid (pid uid : ℤ)
  | fork (pid child : ℤ)
  | exec (pid : ℤ) (cmd : List UInt8) (loads : Bool)
  | exit (pid : ℤ)

/-- Only init exists, with the root capset. -/
def boot : Machine :=
  ⟨fun p => if p = 0 then some ⟨0, 1, [], procCapGrantRoot⟩ else none, [], 1⟩

/-- One step; `none` when the caller does not exist or the child's pid is taken. -/
def step (m : Machine) : Op → Option Machine
  | .mint pid type rights a b => (m.proc pid).map fun P => m.procCapMint pid P type rights a b
  | .grant pid target src mask => (m.proc pid).map fun P => m.procCapGrant P target src mask
  | .revoke pid slot => (m.proc pid).map fun P => m.procCapRevoke pid P slot
  | .policyAdd pid cmd type rights a b =>
    (m.proc pid).map fun P => m.procCapPolicyAdd P cmd type rights a b
  | .setUid pid uid => (m.proc pid).map fun P => m.procSetUid pid P uid
  | .fork pid child =>
    if (m.proc child).isSome then none else (m.proc pid).map fun P => m.fork P child
  | .exec pid cmd loads => (m.proc pid).map fun P => m.loadElf pid P cmd loads
  | .exit pid => (m.proc pid).map fun _ => { m with proc := Function.update m.proc pid none }

/-! ### What a step may add -/

/-- Process `p` passes the check `q`. -/
def auth (m : Machine) (p : ℤ) (q : Query) : Prop :=
  ∃ P, m.proc p = some P ∧ answers m.live P.cnode q = true

/-- What a step may add to the authority of process `p`. -/
def MayAdd (m : Machine) : Op → ℤ → Query → Prop
  | .grant g target src mask, p, q => p = target ∧ ∃ G, m.proc g = some G ∧
      (G.cnode src).solo m.live q = true ∧
      covers (if mask = 0 then (G.cnode src).rights else mask) q.rights = true
  | .mint g type rights a b, p, q => p = g ∧ ∃ t c, CapType.ofCode type = some t ∧
      mintCap m.live t rights a b = some c ∧ c.solo m.live q = true
  | .fork f child, p, q => p = child ∧ auth m f q
  | .exec e cmd _, p, _ => p = e ∧ ∃ E, m.proc e = some E ∧
      (E.uid ≤ 0 ∨ ∃ r ∈ m.rules, r.fits cmd = true)
  | _, _, _ => False

structure NoAmplify (m : Machine) (o : Op) (m' : Machine) : Prop where
  /-- No process passes a check it did not pass, beyond what the step may add. -/
  bounded : ∀ p q, covers capAll q.rights = true → auth m' p q → auth m p q ∨ MayAdd m o p q
  /-- A cap forwarded with strictly fewer rights answers strictly less than its source. -/
  strict : ∀ g target src mask G c, o = .grant g target src mask → m.proc g = some G →
    grantCap G.cnode src mask = some c → c.rights ≠ (G.cnode src).rights →
    (∀ q, c.solo m.live q = true → (G.cnode src).solo m.live q = true) ∧
      ∃ q, covers capAll q.rights = true ∧ (G.cnode src).solo m.live q = true ∧
        c.solo m.live q = false

/-- No cap anywhere pins this pid with this uuid. -/
def Unnamed (m : Machine) (pid : ℤ) (uuid : ℕ) : Prop :=
  ∀ p P, m.proc p = some P → ∀ i < cnodeSlots, ∀ t, (P.cnode i).names t pid uuid = false

/-- The condition on a step: a root cap is forwarded whole or not at all, and the identity of a new
    image is not one that some cap still names. -/
def Sane (m : Machine) : Op → Prop
  | .grant g _ src mask => ∀ G, m.proc g = some G → (G.cnode src).type = .root →
      covers (if mask = 0 then (G.cnode src).rights else mask) capAll = true
  | .fork _ child => Unnamed m child m.nextUuid
  | .exec e _ _ => Unnamed m e m.nextUuid
  | _ => True

/-! ### The rights invariant -/

/-- Rights stay inside the defined ones. -/
structure Inv (m : Machine) : Prop where
  rights : ∀ p P, m.proc p = some P → ∀ i, covers capAll (P.cnode i).rights = true
  rules : ∀ r ∈ m.rules, ∀ e ∈ r.entries, covers capAll e.rights = true

variable {m m' : Machine} {p : ℤ} {P : Proc} {cn : Cnode} {c : Cap} {q : Query}
  {live live' : ℤ → Option ℕ}

theorem answers_insertCap (h : answers live (insertCap cn c) q = true) :
    answers live cn q = true ∨ c.solo live q = true := by
  unfold insertCap at h
  cases hi : capCnodeInsert cn c with
  | none => exact .inl (by simpa [hi] using h)
  | some x => exact (answers_insert hi).mp (by simpa [hi] using h)

/-- An insertion leaves each slot as it was or writes the new cap there. -/
theorem insertCap_apply (cn : Cnode) (c : Cap) (i : ℕ) :
    insertCap cn c i = cn i ∨ insertCap cn c i = c := by
  unfold insertCap
  cases hi : capCnodeInsert cn c with
  | none => exact .inl rfl
  | some x =>
    simp only [capCnodeInsert, Option.ite_none_left_eq_some, Option.map_eq_some_iff] at hi
    obtain ⟨-, j, -, rfl⟩ := hi
    simp only [Option.map_some, Option.getD_some, Function.update_apply]
    split
    · exact .inr rfl
    · exact .inl rfl

theorem rights_insertCap (hcn : ∀ i, covers capAll (cn i).rights = true)
    (hc : covers capAll c.rights = true) (i : ℕ) :
    covers capAll (insertCap cn c i).rights = true := by
  rcases insertCap_apply cn c i with h | h <;> rw [h]
  · exact hcn i
  · exact hc

theorem covers_capAll_and (r : BitVec 32) : covers capAll (r &&& capAll) = true := by
  simp only [covers, beq_iff_eq]
  rw [BitVec.and_comm r, ← BitVec.and_assoc, BitVec.and_self]

theorem covers_masked (h : covers capAll c.rights = true) (mask : BitVec 32) :
    covers capAll (c.masked mask).rights = true := by
  simp only [covers, beq_iff_eq, Cap.masked] at h ⊢
  rw [← BitVec.and_assoc, h]

theorem rights_init (i : ℕ) : covers capAll (capCnodeInit i).rights = true := by
  show covers capAll 0 = true
  decide

theorem rights_grantRoot (i : ℕ) : covers capAll (procCapGrantRoot i).rights = true :=
  rights_insertCap rights_init (by decide) i

theorem rights_build {e : PolicyEntry} (he : covers capAll e.rights = true)
    (h : capPolicyBuildCap live e = some c) : covers capAll c.rights = true := by
  unfold capPolicyBuildCap at h
  split at h
  · cases h
    exact he
  · obtain ⟨o, -, rfl⟩ := Option.map_eq_some_iff.mp h
    exact he

theorem rights_foldl_insertCap (cs : List Cap) (hcs : ∀ c ∈ cs, covers capAll c.rights = true)
    (hcn : ∀ i, covers capAll (cn i).rights = true) :
    ∀ i, covers capAll (cs.foldl insertCap cn i).rights = true := by
  induction cs generalizing cn with
  | nil => exact hcn
  | cons c cs ih =>
    refine ih (fun d hd => hcs d (List.mem_cons_of_mem _ hd)) ?_
    exact rights_insertCap hcn (hcs c (List.mem_cons_self ..))

theorem rights_policy {rules : List PolicyRule} {cmd : List UInt8}
    (hr : ∀ r ∈ rules, ∀ e ∈ r.entries, covers capAll e.rights = true)
    (hcn : ∀ i, covers capAll (cn i).rights = true) :
    ∀ i, covers capAll (capPolicyOnExec live rules cmd cn i).rights = true := by
  unfold capPolicyOnExec
  split
  · exact hcn
  · have hfs : ∀ r ∈ rules.filter (fun r => r.fits cmd), ∀ e ∈ r.entries,
        covers capAll e.rights = true := fun r hm => hr r (List.mem_of_mem_filter hm)
    generalize rules.filter (fun r => r.fits cmd) = fs at hfs
    induction fs generalizing cn with
    | nil => exact hcn
    | cons r fs ih =>
      refine ih ?_ (fun r' hm => hfs r' (List.mem_cons_of_mem _ hm))
      refine rights_foldl_insertCap _ ?_ hcn
      intro c hc
      obtain ⟨e, he, hb⟩ := List.mem_filterMap.mp hc
      exact rights_build (hfs r (List.mem_cons_self ..) e he) hb

theorem inv_setProc (h : Inv m) (hP : ∀ i, covers capAll (P.cnode i).rights = true) :
    Inv (m.setProc p P) := by
  refine ⟨?_, h.rules⟩
  intro q Q hQ
  rcases eq_or_ne q p with rfl | hne
  · simp only [Machine.setProc, Function.update_self, Option.some.injEq] at hQ
    exact hQ ▸ hP
  · exact h.rights q Q (by simpa [Machine.setProc, hne] using hQ)

theorem rules_addRule {rules : List PolicyRule} {cmd : List UInt8} {e : PolicyEntry}
    (hr : ∀ r ∈ rules, ∀ e ∈ r.entries, covers capAll e.rights = true)
    (he : covers capAll e.rights = true) :
    ∀ r ∈ Machine.addRule rules cmd e, ∀ e ∈ r.entries, covers capAll e.rights = true := by
  unfold Machine.addRule
  split
  · intro r hrm
    obtain ⟨j, hj, hget⟩ := List.mem_iff_getElem.mp hrm
    rw [List.getElem_modify] at hget
    have hj' : j < rules.length := by simpa using hj
    have hold : ∀ e ∈ rules[j].entries, covers capAll e.rights = true :=
      hr _ (List.getElem_mem hj')
    split at hget
    · subst hget
      split
      · exact hold
      · intro e' he'
        rcases List.mem_append.mp he' with h | h
        · exact hold e' h
        · rw [List.mem_singleton.mp h]
          exact he
    · subst hget
      exact hold
  · split
    · exact hr
    · intro r hrm
      rcases List.mem_append.mp hrm with h | h
      · exact hr r h
      · rw [List.mem_singleton.mp h]
        intro e' he'
        rw [List.mem_singleton.mp he']
        exact he

theorem inv_boot : Inv boot := by
  refine ⟨?_, fun r hr => by cases hr⟩
  intro p P hP
  simp only [boot, Option.ite_none_right_eq_some, Option.some.injEq] at hP
  exact hP.2 ▸ rights_grantRoot

theorem inv_step {o : Op} (h : Inv m) (hst : step m o = some m') : Inv m' := by
  cases o with
  | mint pid type rights a b =>
    obtain ⟨P, hP, rfl⟩ := Option.map_eq_some_iff.mp hst
    unfold Machine.procCapMint
    split
    · exact h
    split
    · exact h
    · rename_i c hc
      refine inv_setProc h (rights_insertCap (h.rights pid P hP) ?_)
      obtain ⟨t, -, hmint⟩ := Option.bind_eq_some_iff.mp hc
      obtain ⟨o, -, rfl⟩ := Option.map_eq_some_iff.mp hmint
      exact covers_capAll_and rights
  | grant pid target src mask =>
    obtain ⟨P, hP, rfl⟩ := Option.map_eq_some_iff.mp hst
    unfold Machine.procCapGrant
    split
    · rename_i T c hT hc
      refine inv_setProc h (rights_insertCap (h.rights target T hT) ?_)
      have hsrc := covers_masked (h.rights pid P hP src) mask
      simp only [grantCap] at hc
      split_ifs at hc
      exact Option.some.inj hc ▸ hsrc
    · exact h
  | revoke pid slot =>
    obtain ⟨P, hP, rfl⟩ := Option.map_eq_some_iff.mp hst
    refine inv_setProc h fun i => ?_
    unfold capCnodeRevoke
    split
    · exact h.rights pid P hP i
    · simp only [Function.update_apply]
      split
      · exact rights_init i
      · exact h.rights pid P hP i
  | policyAdd pid cmd type rights a b =>
    obtain ⟨P, hP, rfl⟩ := Option.map_eq_some_iff.mp hst
    unfold Machine.procCapPolicyAdd
    split
    · exact h
    split
    · exact h
    · exact h
    · exact ⟨h.rights, rules_addRule h.rules (covers_capAll_and rights)⟩
  | setUid pid uid =>
    obtain ⟨P, hP, rfl⟩ := Option.map_eq_some_iff.mp hst
    unfold Machine.procSetUid
    split
    · exact h
    · refine inv_setProc h fun i => ?_
      unfold procCapOnSetuid
      split
      · exact rights_init i
      · exact h.rights pid P hP i
  | fork pid child =>
    simp only [step, Option.ite_none_left_eq_some] at hst
    obtain ⟨P, hP, rfl⟩ := Option.map_eq_some_iff.mp hst.2
    have hc := inv_setProc (p := child) (P := { P with uuid := m.nextUuid }) h (h.rights pid P hP)
    exact ⟨hc.rights, hc.rules⟩
  | exec pid cmd loads =>
    obtain ⟨P, hP, rfl⟩ := Option.map_eq_some_iff.mp hst
    unfold Machine.loadElf
    split
    · exact h
    have hid := inv_setProc (p := pid) (P := { P with uuid := m.nextUuid, cmd := cmd }) h
      (h.rights pid P hP)
    have hid : Inv { m.setProc pid { P with uuid := m.nextUuid, cmd := cmd } with
        procUuid := m.nextUuid } := ⟨hid.rights, hid.rules⟩
    simp only
    split
    · refine inv_setProc hid (rights_policy h.rules ?_)
      split
      · exact rights_grantRoot
      · exact rights_init
    · exact hid
  | exit pid =>
    obtain ⟨P, hP, rfl⟩ := Option.map_eq_some_iff.mp hst
    refine ⟨?_, h.rules⟩
    intro q Q hQ
    rcases eq_or_ne q pid with rfl | hne
    · simp at hQ
    · exact h.rights q Q (by simpa [hne] using hQ)

/-! ### One step -/

/-- Replacing one process, with the tasks and identities as they were: only its own authority can
    grow. -/
theorem auth_setProc {P' : Proc} (hP : m.proc p = some P) (hu : P'.uuid = P.uuid)
    {r : ℤ} (h : auth (m.setProc p P') r q) :
    auth m r q ∨ r = p ∧ answers m.live P'.cnode q = true := by
  have hlive : (m.setProc p P').live = m.live := by
    funext x
    rcases eq_or_ne x p with rfl | hne
    · simp [Machine.live, Machine.setProc, hP, hu]
    · simp [Machine.live, Machine.setProc, hne]
  obtain ⟨R, hR, ha⟩ := h
  rw [hlive] at ha
  rcases eq_or_ne r p with rfl | hne
  · simp only [Machine.setProc, Function.update_self, Option.some.injEq] at hR
    exact .inr ⟨rfl, hR ▸ ha⟩
  · exact .inl ⟨R, by simpa [Machine.setProc, hne] using hR, ha⟩

/-- A new identity that no cap names adds nothing to what a cnode answers. -/
theorem answers_newIdentity {uuid : ℕ} (hlive : m'.live = Function.update m.live p (some uuid))
    (hun : ∀ i < cnodeSlots, ∀ t, (cn i).names t p uuid = false)
    (h : answers m'.live cn q = true) : answers m.live cn q = true := by
  refine answers_live (fun pid u hu => ?_) h
  rw [hlive] at hu
  rcases eq_or_ne pid p with rfl | hne
  · rw [Function.update_self, Option.some.injEq] at hu
    exact .inr (hu ▸ hun)
  · exact .inl (by rwa [Function.update_of_ne hne] at hu)

theorem live_of_proc (h : m'.proc = Function.update m.proc p (some P)) :
    m'.live = Function.update m.live p (some P.uuid) := by
  funext x
  rcases eq_or_ne x p with rfl | hne
  · simp [Machine.live, h]
  · simp [Machine.live, h, hne]

/-- An exec without privilege and without a rule leaves the cnode empty. -/
theorem onExec_empty {rules : List PolicyRule} {cmd : List UInt8} {uid : ℤ} (hu : ¬uid ≤ 0)
    (hr : ¬∃ r ∈ rules, r.fits cmd = true) : procCapOnExec live rules uid cmd = capCnodeInit := by
  have hnil : rules.filter (fun r => r.fits cmd) = [] := by
    rw [List.filter_eq_nil_iff]
    intro r hm hf
    exact hr ⟨r, hm, hf⟩
  simp [procCapOnExec, capPolicyOnExec, hu, hnil]

/-- What an exec does to the process table. Without privilege and without a rule the process keeps
    its cnode (the image did not load) or loses it. -/
theorem loadElf_proc {cmd : List UInt8} (loads : Bool) (hlen : ¬capPolicyCmdMax ≤ cmd.length) :
    ∃ cn', (m.loadElf p P cmd loads).proc = Function.update m.proc p
        (some { P with uuid := m.nextUuid, cmd := cmd, cnode := cn' }) ∧
      (¬(P.uid ≤ 0 ∨ ∃ r ∈ m.rules, r.fits cmd = true) → cn' = P.cnode ∨ cn' = capCnodeInit) := by
  unfold Machine.loadElf
  rw [if_neg hlen]
  cases loads with
  | false => exact ⟨P.cnode, rfl, fun _ => .inl rfl⟩
  | true =>
    refine ⟨procCapOnExec (Machine.live
      { m.setProc p { P with uuid := m.nextUuid, cmd := cmd } with procUuid := m.nextUuid })
      m.rules P.uid cmd, ?_, fun hpriv => .inr ?_⟩
    · simp only [if_true, Machine.setProc, Function.update_idem]
    · obtain ⟨hu, hr⟩ := not_or.mp hpriv
      exact onExec_empty hu hr

theorem grantCap_spec {src : ℕ} {mask : BitVec 32} (h : grantCap cn src mask = some c) :
    (cn src).type ≠ .invalid ∧ c = (cn src).masked mask := by
  simp only [grantCap] at h
  split_ifs at h with h1
  exact ⟨fun hi => h1 (.inr hi), (Option.some.inj h).symm⟩

/-- A whole root cap loses no right by being forwarded. -/
theorem masked_rights_of_covers {mask : BitVec 32} (hc : covers capAll c.rights = true)
    (hk : covers (if mask = 0 then c.rights else mask) capAll = true) :
    (c.masked mask).rights = c.rights := by
  unfold Cap.masked
  simp only
  split at hk
  · rename_i h0
    rw [if_pos h0, BitVec.and_allOnes]
  · rename_i h0
    rw [if_neg h0]
    simp only [covers, beq_iff_eq] at hc hk
    calc c.rights &&& mask = (capAll &&& c.rights) &&& mask := by rw [hc]
      _ = c.rights &&& (mask &&& capAll) := by
        rw [BitVec.and_comm capAll, BitVec.and_assoc, BitVec.and_comm capAll mask]
      _ = c.rights := by rw [hk, BitVec.and_comm, hc]

theorem covers_trans {a b r : BitVec 32} (hab : covers a b = true) (hbr : covers b r = true) :
    covers a r = true := by
  simp only [covers, beq_iff_eq] at *
  calc a &&& r = a &&& (b &&& r) := by rw [hbr]
    _ = r := by rw [← BitVec.and_assoc, hab, hbr]

/-- What a forwarded cap adds is inside the source slot and the mask. -/
theorem grant_bounded {src : ℕ} {mask : BitVec 32} (hq : covers capAll q.rights = true)
    (hsane : (cn src).type = .root →
      covers (if mask = 0 then (cn src).rights else mask) capAll = true)
    (h : ((cn src).masked mask).solo live q = true) : (cn src).solo live q = true ∧
      covers (if mask = 0 then (cn src).rights else mask) q.rights = true := by
  by_cases hr : (cn src).type = .root
  · exact ⟨by simp [Cap.solo, hr], covers_trans (hsane hr) hq⟩
  · obtain ⟨hs, hc, hk⟩ := solo_masked hr h
    refine ⟨hs, ?_⟩
    split
    · exact hc
    · rename_i h0
      rwa [if_neg h0] at hk

theorem grant_strict (h : Inv m) {g target : ℤ} {src : ℕ} {mask : BitVec 32} {G : Proc}
    (hok : Sane m (.grant g target src mask)) (hG : m.proc g = some G)
    (hc : grantCap G.cnode src mask = some c) (hlt : c.rights ≠ (G.cnode src).rights) :
    (∀ q, c.solo m.live q = true → (G.cnode src).solo m.live q = true) ∧
      ∃ q, covers capAll q.rights = true ∧ (G.cnode src).solo m.live q = true ∧
        c.solo m.live q = false := by
  obtain ⟨hinv, rfl⟩ := grantCap_spec hc
  have hrights := h.rights g G hG src
  have hr : (G.cnode src).type ≠ .root := fun hr =>
    hlt (masked_rights_of_covers hrights (hok G hG hr))
  obtain ⟨h1, h2⟩ := @solo_masked_strict m.live _ _ hr hinv hlt
  exact ⟨fun q hq => (solo_masked hr hq).1, .has (G.cnode src).type (G.cnode src).rights, hrights,
    h1, h2⟩

theorem bounded_step {o : Op} (hok : Sane m o) (hst : step m o = some m')
    (hq : covers capAll q.rights = true) (ha : auth m' p q) : auth m p q ∨ MayAdd m o p q := by
  cases o with
  | mint pid type rights a b =>
    obtain ⟨P, hP, rfl⟩ := Option.map_eq_some_iff.mp hst
    unfold Machine.procCapMint at ha
    split at ha
    · exact .inl ha
    split at ha
    · exact .inl ha
    rename_i c hc
    rcases auth_setProc hP (by rfl) ha with h | ⟨rfl, h⟩
    · exact .inl h
    · rcases answers_insertCap h with h | h
      · exact .inl ⟨P, hP, h⟩
      · obtain ⟨t, ht, hmint⟩ := Option.bind_eq_some_iff.mp hc
        exact .inr ⟨rfl, t, c, ht, hmint, h⟩
  | grant pid target src mask =>
    obtain ⟨G, hG, rfl⟩ := Option.map_eq_some_iff.mp hst
    unfold Machine.procCapGrant at ha
    split at ha
    · rename_i T c hT hc
      rcases auth_setProc hT (by rfl) ha with h | ⟨rfl, h⟩
      · exact .inl h
      · rcases answers_insertCap h with h | h
        · exact .inl ⟨T, hT, h⟩
        · obtain ⟨-, rfl⟩ := grantCap_spec hc
          exact .inr ⟨rfl, G, hG, grant_bounded hq (hok G hG) h⟩
    · exact .inl ha
  | revoke pid slot =>
    obtain ⟨P, hP, rfl⟩ := Option.map_eq_some_iff.mp hst
    rcases auth_setProc hP (by rfl) ha with h | ⟨rfl, h⟩
    · exact .inl h
    · exact .inl ⟨P, hP, answers_revoke h⟩
  | policyAdd pid cmd type rights a b =>
    obtain ⟨P, hP, rfl⟩ := Option.map_eq_some_iff.mp hst
    unfold Machine.procCapPolicyAdd at ha
    split at ha
    · exact .inl ha
    split at ha <;> exact .inl ha
  | setUid pid uid =>
    obtain ⟨P, hP, rfl⟩ := Option.map_eq_some_iff.mp hst
    unfold Machine.procSetUid at ha
    split at ha
    · exact .inl ha
    rcases auth_setProc hP (by rfl) ha with h | ⟨rfl, h⟩
    · exact .inl h
    · simp only [procCapOnSetuid] at h
      split at h
      · rw [answers_init] at h
        cases h
      · exact .inl ⟨P, hP, h⟩
  | fork pid child =>
    simp only [step, Option.ite_none_left_eq_some] at hst
    obtain ⟨P, hP, rfl⟩ := Option.map_eq_some_iff.mp hst.2
    obtain ⟨R, hR, ha⟩ := ha
    have hlive : (m.fork P child).live = Function.update m.live child (some m.nextUuid) :=
      live_of_proc (P := { P with uuid := m.nextUuid }) rfl
    rcases eq_or_ne p child with rfl | hne
    · simp only [Machine.fork, Machine.setProc, Function.update_self, Option.some.injEq] at hR
      subst hR
      exact .inr ⟨rfl, P, hP, answers_newIdentity hlive (hok pid P hP) ha⟩
    · have hR : m.proc p = some R := by simpa [Machine.fork, Machine.setProc, hne] using hR
      exact .inl ⟨R, hR, answers_newIdentity hlive (hok p R hR) ha⟩
  | exec pid cmd loads =>
    obtain ⟨P, hP, rfl⟩ := Option.map_eq_some_iff.mp hst
    by_cases hlen : capPolicyCmdMax ≤ cmd.length
    · rw [Machine.loadElf, if_pos hlen] at ha
      exact .inl ha
    obtain ⟨R, hR, ha⟩ := ha
    obtain ⟨cn', hproc, hcn⟩ := loadElf_proc (m := m) (p := pid) (P := P) loads hlen
    have hlive := live_of_proc hproc
    rw [hproc] at hR
    rcases eq_or_ne p pid with rfl | hne
    · by_cases hpriv : P.uid ≤ 0 ∨ ∃ r ∈ m.rules, r.fits cmd = true
      · exact .inr ⟨rfl, P, hP, hpriv⟩
      · rw [Function.update_self, Option.some.injEq] at hR
        subst hR
        rcases hcn hpriv with rfl | rfl
        · exact .inl ⟨P, hP, answers_newIdentity hlive (hok p P hP) ha⟩
        · rw [answers_init] at ha
          cases ha
    · rw [Function.update_of_ne hne] at hR
      exact .inl ⟨R, hR, answers_newIdentity hlive (hok p R hR) ha⟩
  | exit pid =>
    obtain ⟨P, hP, rfl⟩ := Option.map_eq_some_iff.mp hst
    obtain ⟨R, hR, ha⟩ := ha
    have hne : p ≠ pid := by
      rintro rfl
      simp at hR
    refine .inl ⟨R, by simpa [hne] using hR, answers_live (fun x u hx => .inl ?_) ha⟩
    rcases eq_or_ne x pid with rfl | hxp
    · simp [Machine.live] at hx
    · simpa [Machine.live, hxp] using hx

/-- In every run whose steps are sane, no step amplifies authority. -/
theorem no_amplification {o : Op} (h : Reach step Sane boot m) (hok : Sane m o)
    (hst : step m o = some m') : NoAmplify m o m' := by
  have hi : Inv m := h.inv inv_boot fun _ _ _ hi _ hst => inv_step hi hst
  refine ⟨fun p q hq ha => bounded_step hok hst hq ha, ?_⟩
  rintro g target src mask G c rfl hG hc hlt
  exact grant_strict hi hok hG hc hlt

/-! ### Init forwards a cap to a user process -/

/-- Init has forked process 1. -/
def forkedOne : Machine := boot.fork ⟨0, 1, [], procCapGrantRoot⟩ 1

theorem sane_firstFork : Sane boot (.fork 0 1) := by
  intro p P hP i _ t
  simp only [boot, Option.ite_none_right_eq_some, Option.some.injEq] at hP
  rw [← hP.2]
  rcases insertCap_apply capCnodeInit .rootCap i with h | h <;>
  · simp only [procCapGrantRoot, h]
    rfl

/-- Forwarding an irq cap for reading only: a run in which the theorem applies. -/
theorem no_amplification_irqCap : ∃ m m', Reach step Sane boot m ∧
    step m (.grant 0 1 1 capR) = some m' ∧ auth m' 1 (.irq 5 capR) ∧
    NoAmplify m (.grant 0 1 1 capR) m' := by
  have hfirst : Reach step Sane boot forkedOne := .next .start sane_firstFork rfl
  let tame : Machine → Op → Bool := fun _ o => match o with
    | .setUid .. => true
    | .mint .. => true
    | _ => false
  have htame : ∀ m o, tame m o = true → Sane m o := by
    rintro m (_ | _) <;> simp [tame, Sane]
  have hrun : (Schemes.runIf step tame forkedOne [.setUid 1 1000, .mint 0 6 (capR ||| capW) 5 0]).map
      (fun m => ((m.proc 0).map (fun P => (P.cnode 1).type),
        (step m (.grant 0 1 1 capR)).map fun m' =>
          (m'.proc 1).map fun P => answers m'.live P.cnode (.irq 5 capR))) =
        some (some .irq, some (some true)) := by decide +kernel
  obtain ⟨m, hm, hobs⟩ := Option.map_eq_some_iff.mp hrun
  simp only [Prod.mk.injEq] at hobs
  obtain ⟨htype, hgrant⟩ := hobs
  obtain ⟨m', hst, hans⟩ := Option.map_eq_some_iff.mp hgrant
  obtain ⟨P, hP, ha⟩ := Option.map_eq_some_iff.mp hans
  have hr := hfirst.trans (Schemes.reach_of_runIf hm htame)
  have hsane : Sane m (.grant 0 1 1 capR) := by
    intro G hG hroot
    rw [hG, Option.map_some, hroot] at htype
    cases htype
  exact ⟨m, m', hr, hst, ⟨P, hP, ha⟩, no_amplification hr hsane hst⟩

/-- Forwarding the root cap for reading only: the user process passes every check. -/
theorem maskedRoot_amplifies : ∃ m m', Reach step Free boot m ∧
    step m (.grant 0 1 0 capR) = some m' ∧ ¬NoAmplify m (.grant 0 1 0 capR) m' := by
  have hrun : (Schemes.runOps step boot [.fork 0 1, .setUid 1 1000]).map
      (fun m => ((m.proc 1).map (fun P => answers m.live P.cnode (.irq 5 capW)),
        (step m (.grant 0 1 0 capR)).map fun m' =>
          (m'.proc 1).map fun P => answers m'.live P.cnode (.irq 5 capW))) =
        some (some false, some (some true)) := by decide +kernel
  obtain ⟨m, hm, hobs⟩ := Option.map_eq_some_iff.mp hrun
  simp only [Prod.mk.injEq] at hobs
  obtain ⟨hbefore, hgrant⟩ := hobs
  obtain ⟨m', hst, hans⟩ := Option.map_eq_some_iff.mp hgrant
  obtain ⟨P', hP', ha'⟩ := Option.map_eq_some_iff.mp hans
  refine ⟨m, m', Schemes.reach_of_runOps hm, hst, fun hno => ?_⟩
  rcases hno.bounded 1 (.irq 5 capW) (by decide) ⟨P', hP', ha'⟩ with ⟨P, hP, ha⟩ | ⟨-, G, -, -, hcov⟩
  · rw [hP, Option.map_some, ha] at hbefore
    cases hbefore
  · rw [if_neg (by decide)] at hcov
    exact absurd hcov (by decide)

end EwokOS.Kernel.Capability
