import EwokOS.Kernel.Basic
import Mathlib.Algebra.Ring.Int.Defs
import Mathlib.Algebra.Ring.Nat
import Mathlib.Data.List.Basic

/-! Capabilities (`kernel/src/cap.c`, `cap.h`).

    A process holds up to `cnodeSlots` caps in its cnode. Every privileged operation asks the cnode
    of the calling task's owner process one of five kinds of questions, and any one slot may answer
    it. The functions here are those on one cnode; `live` is what they ask the task table, the
    current uuid of a live pid. The authority of a cnode is the set of queries it answers, and is
    made of what its slots answer one by one (`answers_iff`). -/

namespace EwokOS.Kernel.Capability

@[irreducible] def cnodeSlots : ℕ := 64

def capR : BitVec 32 := 1
def capW : BitVec 32 := 2
def capX : BitVec 32 := 4
def capGrant : BitVec 32 := 8

/-- The defined rights. -/
def capAll : BitVec 32 := capR ||| capW ||| capX ||| capGrant

inductive CapType where | invalid | as | frame | ep | process | root | irq | dma
  deriving DecidableEq, Repr

/-- The `uint32_t` a system call passes for a type. -/
def CapType.ofCode : ℕ → Option CapType
  | 0 => some .invalid
  | 1 => some .as
  | 2 => some .frame
  | 3 => some .ep
  | 4 => some .process
  | 5 => some .root
  | 6 => some .irq
  | 7 => some .dma
  | _ => none

/-- The object of a cap, tagged by its type. -/
inductive CapObj where
  | invalid
  | as (pid : ℤ) (uuid : ℕ)
  | frame (paddr size : BitVec 64)
  | ep (pid : ℤ) (uuid : ℕ)
  | process (pid : ℤ) (uuid : ℕ)
  | root
  | irq (irq : BitVec 32)
  | dma (block : BitVec 32)
  deriving DecidableEq, Repr

def CapObj.type : CapObj → CapType
  | .invalid => .invalid
  | .as .. => .as
  | .frame .. => .frame
  | .ep .. => .ep
  | .process .. => .process
  | .root => .root
  | .irq .. => .irq
  | .dma .. => .dma

/-- `cap_t`. -/
structure Cap where
  rights : BitVec 32
  obj : CapObj
  deriving DecidableEq, Repr

def Cap.type (c : Cap) : CapType := c.obj.type

/-- A zeroed slot. -/
def Cap.none : Cap := ⟨0, .invalid⟩

/-- The kernel-issued root cap. -/
def Cap.rootCap : Cap := ⟨capAll, .root⟩

/-- The mask `a` contains every right of `r`. -/
def covers (a r : BitVec 32) : Bool := a &&& r == r

def capRightsOk (c : Cap) (rights : BitVec 32) : Bool := c.type != .invalid && covers c.rights rights

/-- A process-flavoured cap of type `t` that names (pid, uuid). -/
def Cap.names (c : Cap) (t : CapType) (pid : ℤ) (uuid : ℕ) : Bool :=
  match c.obj with
  | .as p u => t == .as && p == pid && uuid == u
  | .ep p u => t == .ep && p == pid && uuid == u
  | .process p u => t == .process && p == pid && uuid == u
  | _ => false

/-- Containment of [paddr, paddr + size) in a frame cap, in 64-bit arithmetic: a wrapped request
    never matches, a wrapped cap extends to the top. -/
def frameContains (cb csize paddr size : BitVec 64) : Bool :=
  let ce := if cb + csize < cb then BitVec.allOnes 64 else cb + csize
  !decide (paddr + size < paddr) && decide (cb ≤ paddr) && decide (paddr + size ≤ ce)

/-- `cnode_t`, of which the first `cnodeSlots` slots count. -/
abbrev Cnode := ℕ → Cap

def capCnodeInit : Cnode := fun _ => .none

section
variable (cn : Cnode) (live : ℤ → Option ℕ)

/-- `cap_cnode_insert`: the slot taken, or `none` for -1. -/
def capCnodeInsert (c : Cap) : Option (ℕ × Cnode) :=
  if c.type = .invalid then none
  else ((List.range cnodeSlots).find? fun i => (cn i).type == .invalid).map fun i =>
    (i, Function.update cn i c)

def capCnodeRevoke (slot : ℕ) : Cnode :=
  if cnodeSlots ≤ slot then cn else Function.update cn slot .none

def anySlot (f : Cap → Bool) : Bool := (List.range cnodeSlots).any fun i => f (cn i)

def cnodeHasRoot : Bool := anySlot cn fun c => c.type == .root

/-- `proc_cap_has`, on the owner's cnode. -/
def procCapHas (type : CapType) (rights : BitVec 32) : Bool :=
  cnodeHasRoot cn || anySlot cn fun c => c.type == type && capRightsOk c rights

/-- `proc_cap_check_frame`. -/
def procCapCheckFrame (paddr size : BitVec 64) (rights : BitVec 32) : Bool :=
  cnodeHasRoot cn || anySlot cn fun c => match c.obj with
    | .frame cb csize => capRightsOk c rights && frameContains cb csize paddr size
    | _ => false

/-- `proc_cap_check_irq`. -/
def procCapCheckIrq (irq : BitVec 32) (rights : BitVec 32) : Bool :=
  cnodeHasRoot cn || anySlot cn fun c => match c.obj with
    | .irq n => n == irq && capRightsOk c rights
    | _ => false

/-- `cnode_check_pid`: the cap must name the uuid the target has now. -/
def cnodeCheckPid (type : CapType) (pid : ℤ) (rights : BitVec 32) : Bool :=
  match live pid with
  | none => false
  | some uuid => anySlot cn fun c => c.type == type && capRightsOk c rights && c.names type pid uuid

/-- `proc_cap_check_proc`. -/
def procCapCheckProc (pid : ℤ) (rights : BitVec 32) : Bool :=
  cnodeHasRoot cn || cnodeCheckPid cn live .process pid rights

/-- `proc_cap_check_ep`. -/
def procCapCheckEp (pid : ℤ) (rights : BitVec 32) : Bool :=
  cnodeHasRoot cn || cnodeCheckPid cn live .ep pid rights

end

/-! ### Making caps -/

/-- The object of a new cap, from the two words a mint or a policy entry gives. A process-flavoured
    cap pins the uuid its target has now, and is refused for a dead target. -/
def newObj (live : ℤ → Option ℕ) (type : CapType) (a b : BitVec 64) : Option CapObj :=
  let pid := (a.truncate 32).toInt
  match type with
  | .frame => some (.frame a b)
  | .irq => some (.irq (a.truncate 32))
  | .dma => some (.dma (a.truncate 32))
  | .as => (live pid).map (.as pid)
  | .ep => (live pid).map (.ep pid)
  | .process => (live pid).map (.process pid)
  | .root => none
  | .invalid => none

/-- The cap `proc_cap_mint` builds; `root` and `invalid` are not mintable. -/
def mintCap (live : ℤ → Option ℕ) (type : CapType) (rights : BitVec 32) (a b : BitVec 64) :
    Option Cap :=
  (newObj live type a b).map fun o => ⟨rights &&& capAll, o⟩

/-- `cap_policy_entry_t`. -/
structure PolicyEntry where
  type : CapType
  rights : BitVec 32
  a : BitVec 64
  b : BitVec 64
  deriving DecidableEq, Repr

/-- `cap_policy_rule_t`. -/
structure PolicyRule where
  cmd : List UInt8
  entries : List PolicyEntry
  deriving DecidableEq, Repr

def capPolicyRuleMax : ℕ := 32
def capPolicyEntryMax : ℕ := 16
def capPolicyCmdMax : ℕ := 256

/-- `cap_policy_build_cap`. -/
def capPolicyBuildCap (live : ℤ → Option ℕ) (e : PolicyEntry) : Option Cap :=
  match e.type with
  | .root => some ⟨e.rights, .root⟩
  | t => (newObj live t e.a e.b).map fun o => ⟨e.rights, o⟩

/-- The rule's command is the first word of `cmd`. -/
def PolicyRule.fits (r : PolicyRule) (cmd : List UInt8) : Bool :=
  let next := (cmd.drop r.cmd.length).head?
  r.cmd != [] && cmd.take r.cmd.length == r.cmd && (next == none || next == some 0x20)

/-- Inserting where a failure is ignored. -/
def insertCap (cn : Cnode) (c : Cap) : Cnode := ((capCnodeInsert cn c).map Prod.snd).getD cn

/-- `cap_policy_on_exec`. -/
def capPolicyOnExec (live : ℤ → Option ℕ) (rules : List PolicyRule) (cmd : List UInt8)
    (cn : Cnode) : Cnode :=
  if cmd = [] then cn
  else (rules.filter fun r => r.fits cmd).foldl (fun cn r =>
    (r.entries.filterMap (capPolicyBuildCap live)).foldl insertCap cn) cn

/-- `proc_cap_grant_root`. -/
def procCapGrantRoot : Cnode := insertCap capCnodeInit .rootCap

/-- `proc_cap_on_exec`. -/
def procCapOnExec (live : ℤ → Option ℕ) (rules : List PolicyRule) (uid : ℤ) (cmd : List UInt8) :
    Cnode :=
  capPolicyOnExec live rules cmd (if uid ≤ 0 then procCapGrantRoot else capCnodeInit)

/-- `proc_cap_on_setuid`. -/
def procCapOnSetuid (cn : Cnode) (uid : ℤ) : Cnode := if 0 < uid then capCnodeInit else cn

/-- The cap `proc_cap_grant` forwards: mask 0 stands for all rights. -/
def Cap.masked (c : Cap) (mask : BitVec 32) : Cap :=
  { c with rights := c.rights &&& (if mask = 0 then BitVec.allOnes 32 else mask) }

/-- `proc_cap_grant` of slot `src` of a cnode, up to the insertion at the target. -/
def grantCap (cn : Cnode) (src : ℕ) (mask : BitVec 32) : Option Cap :=
  let s := cn src
  if cnodeSlots ≤ src ∨ s.type = .invalid then none
  else if cnodeHasRoot cn = false ∧ s.rights &&& capGrant = 0 then none
  else if (s.masked mask).rights = 0 then none
  else some (s.masked mask)

/-- A question the kernel asks about a cnode. -/
inductive Query where
  | has (type : CapType) (rights : BitVec 32)
  | frame (paddr size : BitVec 64) (rights : BitVec 32)
  | irq (irq : BitVec 32) (rights : BitVec 32)
  | proc (pid : ℤ) (rights : BitVec 32)
  | ep (pid : ℤ) (rights : BitVec 32)
  deriving DecidableEq, Repr

def Query.rights : Query → BitVec 32
  | .has _ r => r
  | .frame _ _ r => r
  | .irq _ r => r
  | .proc _ r => r
  | .ep _ r => r

def answers (live : ℤ → Option ℕ) (cn : Cnode) : Query → Bool
  | .has t r => procCapHas cn t r
  | .frame p s r => procCapCheckFrame cn p s r
  | .irq n r => procCapCheckIrq cn n r
  | .proc p r => procCapCheckProc cn live p r
  | .ep p r => procCapCheckEp cn live p r

/-- What a single cap that is not the root cap answers. -/
def Cap.matches (live : ℤ → Option ℕ) (c : Cap) (q : Query) : Bool :=
  capRightsOk c q.rights && match q, c.obj with
    | .has t _, _ => c.type == t
    | .frame p s _, .frame cb csize => frameContains cb csize p s
    | .irq n _, .irq m => m == n
    | .proc p _, .process pid uuid => pid == p && live p == some uuid
    | .ep p _, .ep pid uuid => pid == p && live p == some uuid
    | _, _ => false

/-- What a slot answers on its own. -/
def Cap.solo (live : ℤ → Option ℕ) (c : Cap) (q : Query) : Bool :=
  c.type == .root || c.matches live q

/-! ### Authority, slot by slot -/

section
variable {live live' : ℤ → Option ℕ} {cn : Cnode} {c : Cap} {q : Query} {slot : ℕ}

theorem matches_has {t : CapType} {r : BitVec 32} :
    c.matches live (.has t r) = (capRightsOk c r && c.type == t) := rfl

theorem matches_frame {p s : BitVec 64} {r : BitVec 32} : c.matches live (.frame p s r) =
    (capRightsOk c r && match c.obj with
      | .frame cb csize => frameContains cb csize p s
      | _ => false) := by
  rcases c with ⟨_, o⟩
  cases o <;> rfl

theorem matches_irq {n r : BitVec 32} : c.matches live (.irq n r) =
    (capRightsOk c r && match c.obj with
      | .irq m => m == n
      | _ => false) := by
  rcases c with ⟨_, o⟩
  cases o <;> rfl

theorem matches_proc {p : ℤ} {r : BitVec 32} : c.matches live (.proc p r) =
    (capRightsOk c r && match c.obj with
      | .process pid uuid => pid == p && live p == some uuid
      | _ => false) := by
  rcases c with ⟨_, o⟩
  cases o <;> rfl

theorem matches_ep {p : ℤ} {r : BitVec 32} : c.matches live (.ep p r) =
    (capRightsOk c r && match c.obj with
      | .ep pid uuid => pid == p && live p == some uuid
      | _ => false) := by
  rcases c with ⟨_, o⟩
  cases o <;> rfl

theorem matches_of_rights (h : capRightsOk c q.rights = false) : c.matches live q = false := by
  simp only [Cap.matches, h, Bool.false_and]

theorem anySlot_iff {f : Cap → Bool} : anySlot cn f = true ↔ ∃ i < cnodeSlots, f (cn i) = true := by
  simp [anySlot]

/-- A cnode answers what one of its slots answers. -/
theorem answers_iff : answers live cn q = true ↔ ∃ i < cnodeSlots, (cn i).solo live q = true := by
  have hsplit : ∀ f : Cap → Bool, (∀ i, f (cn i) = (cn i).matches live q) →
      ((cnodeHasRoot cn || anySlot cn f) = true ↔
        ∃ i < cnodeSlots, (cn i).solo live q = true) := by
    intro f hf
    simp only [cnodeHasRoot, Bool.or_eq_true, anySlot_iff, Cap.solo, hf]
    constructor
    · rintro (⟨i, hi, h⟩ | ⟨i, hi, h⟩)
      · exact ⟨i, hi, .inl h⟩
      · exact ⟨i, hi, .inr h⟩
    · rintro ⟨i, hi, h | h⟩
      · exact .inl ⟨i, hi, h⟩
      · exact .inr ⟨i, hi, h⟩
  have hpid : ∀ (t : CapType) (p : ℤ) (r : BitVec 32) (q : Query),
      (∀ u, live p = some u → ∀ i, ((cn i).type == t && capRightsOk (cn i) r && (cn i).names t p u)
        = (cn i).matches live q) →
      (live p = none → ∀ i, (cn i).matches live q = false) →
      ((cnodeHasRoot cn || cnodeCheckPid cn live t p r) = true ↔
        ∃ i < cnodeSlots, (cn i).solo live q = true) := by
    intro t p r q hsome hnone
    cases hl : live p with
    | none =>
      simp [cnodeCheckPid, hl, cnodeHasRoot, anySlot_iff, Cap.solo, hnone hl]
    | some u =>
      simp only [cnodeCheckPid, hl, cnodeHasRoot, Bool.or_eq_true, anySlot_iff, Cap.solo, hsome u hl]
      constructor
      · rintro (⟨i, hi, h⟩ | ⟨i, hi, h⟩)
        · exact ⟨i, hi, .inl h⟩
        · exact ⟨i, hi, .inr h⟩
      · rintro ⟨i, hi, h | h⟩
        · exact .inl ⟨i, hi, h⟩
        · exact .inr ⟨i, hi, h⟩
  cases q with
  | has t r =>
    refine hsplit _ fun i => ?_
    simp [matches_has, Bool.and_comm]
  | frame p s r =>
    refine hsplit _ fun i => ?_
    rw [matches_frame]
    cases (cn i).obj <;> simp
  | irq n r =>
    refine hsplit _ fun i => ?_
    rw [matches_irq]
    cases (cn i).obj <;> simp [Bool.and_comm]
  | proc p r =>
    refine hpid _ _ _ _ ?_ ?_
    · intro u hu i
      simp only [matches_proc, Cap.names, Cap.type, CapObj.type]
      cases (cn i).obj <;> simp [hu]
    · intro hl i
      simp only [matches_proc]
      cases (cn i).obj <;> simp [hl]
  | ep p r =>
    refine hpid _ _ _ _ ?_ ?_
    · intro u hu i
      simp only [matches_ep, Cap.names, Cap.type, CapObj.type]
      cases (cn i).obj <;> simp [hu]
    · intro hl i
      simp only [matches_ep]
      cases (cn i).obj <;> simp [hl]

theorem solo_of_invalid (h : c.type = .invalid) : c.solo live q = false := by
  simp [Cap.solo, h, matches_of_rights, capRightsOk]

theorem solo_none : Cap.none.solo live q = false := solo_of_invalid rfl

theorem answers_init : answers live capCnodeInit q = false := by
  rw [← Bool.not_eq_true, answers_iff]
  rintro ⟨i, -, h⟩
  rw [show capCnodeInit i = Cap.none from rfl, solo_none] at h
  cases h

/-- An insertion adds exactly what the new cap answers. -/
theorem answers_insert {cn' : Cnode} (h : capCnodeInsert cn c = some (slot, cn')) :
    answers live cn' q = true ↔ answers live cn q = true ∨ c.solo live q = true := by
  simp only [capCnodeInsert, Option.ite_none_left_eq_some, Option.map_eq_some_iff,
    Prod.mk.injEq] at h
  obtain ⟨-, i, hfind, rfl, rfl⟩ := h
  have hi : i < cnodeSlots := List.mem_range.mp (List.mem_of_find?_eq_some hfind)
  have hinv : (cn i).type = .invalid := by simpa using List.find?_some hfind
  rw [answers_iff, answers_iff]
  constructor
  · rintro ⟨j, hj, h⟩
    rcases eq_or_ne j i with rfl | hne
    · exact .inr (by simpa using h)
    · exact .inl ⟨j, hj, by simpa [hne] using h⟩
  · rintro (⟨j, hj, h⟩ | h)
    · have hne : j ≠ i := by
        rintro rfl
        rw [solo_of_invalid hinv] at h
        cases h
      exact ⟨j, hj, by simpa [hne] using h⟩
    · exact ⟨i, hi, by simpa using h⟩

theorem answers_revoke (h : answers live (capCnodeRevoke cn slot) q = true) :
    answers live cn q = true := by
  rw [answers_iff] at h ⊢
  obtain ⟨i, hi, h⟩ := h
  unfold capCnodeRevoke at h
  split at h
  · exact ⟨i, hi, h⟩
  · rcases eq_or_ne i slot with rfl | hne
    · rw [Function.update_self, solo_none] at h
      cases h
    · exact ⟨i, hi, by rwa [Function.update_of_ne hne] at h⟩

/-- A cap answers no more when the tasks it names are the same or gone. -/
theorem solo_live (hl : ∀ pid u, live' pid = some u → live pid = some u ∨
    ∀ t, c.names t pid u = false) (h : c.solo live' q = true) : c.solo live q = true := by
  simp only [Cap.solo, Bool.or_eq_true] at h ⊢
  rcases h with h | h
  · exact .inl h
  refine .inr ?_
  cases q with
  | has t r => exact h
  | frame p s r => rwa [matches_frame] at h ⊢
  | irq n r => rwa [matches_irq] at h ⊢
  | proc p r =>
    rw [matches_proc, Bool.and_eq_true] at h ⊢
    refine ⟨h.1, ?_⟩
    have hm := h.2
    cases hobj : c.obj <;> simp only [hobj, Bool.and_eq_true, beq_iff_eq] at hm <;> try cases hm
    rename_i pid uuid hp hu
    subst hp
    rcases hl pid uuid hu with h' | h'
    · simp [h']
    · have := h' .process
      simp [Cap.names, hobj] at this
  | ep p r =>
    rw [matches_ep, Bool.and_eq_true] at h ⊢
    refine ⟨h.1, ?_⟩
    have hm := h.2
    cases hobj : c.obj <;> simp only [hobj, Bool.and_eq_true, beq_iff_eq] at hm <;> try cases hm
    rename_i pid uuid hp hu
    subst hp
    rcases hl pid uuid hu with h' | h'
    · simp [h']
    · have := h' .ep
      simp [Cap.names, hobj] at this

theorem answers_live (hl : ∀ pid u, live' pid = some u → live pid = some u ∨
    ∀ i < cnodeSlots, ∀ t, (cn i).names t pid u = false) (h : answers live' cn q = true) :
    answers live cn q = true := by
  rw [answers_iff] at h ⊢
  obtain ⟨i, hi, h⟩ := h
  exact ⟨i, hi, solo_live (fun pid u hu => (hl pid u hu).imp_right fun h => h i hi) h⟩

/-! ### Attenuation -/

theorem covers_and {a b r : BitVec 32} : covers (a &&& b) r = true ↔
    covers a r = true ∧ covers b r = true := by
  simp only [covers, beq_iff_eq]
  constructor
  · intro h
    constructor
    · calc a &&& r = a &&& (a &&& b &&& r) := by rw [h]
        _ = a &&& b &&& r := by rw [← BitVec.and_assoc, ← BitVec.and_assoc, BitVec.and_self]
        _ = r := h
    · calc b &&& r = b &&& (a &&& b &&& r) := by rw [h]
        _ = a &&& b &&& r := by
          rw [BitVec.and_comm a b, ← BitVec.and_assoc, ← BitVec.and_assoc, BitVec.and_self]
        _ = r := h
  · rintro ⟨ha, hb⟩
    rw [BitVec.and_assoc, hb, ha]

theorem masked_type (mask : BitVec 32) : (c.masked mask).type = c.type := rfl

/-- A forwarded cap that is not the root cap answers only what the source answers, and only for
    rights inside the mask. -/
theorem solo_masked {mask : BitVec 32} (hr : c.type ≠ .root)
    (h : (c.masked mask).solo live q = true) : c.solo live q = true ∧
      covers c.rights q.rights = true ∧
      covers (if mask = 0 then BitVec.allOnes 32 else mask) q.rights = true := by
  have hr' : (c.type == CapType.root) = false := by simpa using hr
  simp only [Cap.solo, masked_type, hr', Bool.false_or] at h ⊢
  simp only [Cap.matches, Bool.and_eq_true, capRightsOk, masked_type] at h ⊢
  obtain ⟨⟨hinv, hcov⟩, hm⟩ := h
  obtain ⟨hc, hk⟩ := covers_and.mp hcov
  exact ⟨⟨⟨hinv, hc⟩, hm⟩, hc, hk⟩

/-- A smaller mask leaves out the query for the source's own rights. -/
theorem solo_masked_strict {mask : BitVec 32} (hr : c.type ≠ .root) (hi : c.type ≠ .invalid)
    (hlt : (c.masked mask).rights ≠ c.rights) :
    c.solo live (.has c.type c.rights) = true ∧
      (c.masked mask).solo live (.has c.type c.rights) = false := by
  have hr' : (c.type == CapType.root) = false := by simpa using hr
  refine ⟨by simp [Cap.solo, Cap.matches, Query.rights, capRightsOk, covers, hi], ?_⟩
  have hno : covers (c.masked mask).rights c.rights = false := by
    rw [← Bool.not_eq_true]
    intro hcov
    refine hlt ?_
    have h2 := (covers_and.mp hcov).2
    rw [covers, beq_iff_eq, BitVec.and_comm] at h2
    exact h2
  simp [Cap.solo, Cap.matches, Query.rights, capRightsOk, masked_type, hr', hno]

end

end EwokOS.Kernel.Capability
