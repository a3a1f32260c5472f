import EwokOS.Kernel.Basic
import EwokOS.Schemes.Tally

/-! The task slots of an IPC server (`kernel/src/ipc.c`, `ipc_server_t`).

    Every address space carries a server record with `ipcCtxMax` task slots. A single-task server
    uses them as a ring, served strictly from the head; a pool server (`multiTask`) uses them as a
    plain pool, freed in any order by the worker threads. The functions below are the critical
    sections under the server lock, on one record; what they do to the rest of the kernel is in the
    machine that uses them.

        single-task   head ▸ ■ ■ ■ ◂ tail     pool   ■ □ ■ ■ □ ■ -/

namespace EwokOS.Kernel.Ipc

open Schemes (tally)

def ipcCtxMax : ℕ := 16

/-- Modulus of the `uint32_t` request counter `_ipc_uid`. -/
def uidMod : ℕ := 2 ^ 32

def ipcMultiTask : BitVec 32 := 0x02
def ipcMultiCore : BitVec 32 := 0x04
def ipcCapCheck : BitVec 32 := 0x08
def ipcNonReturn : BitVec 32 := 0x80000000

inductive IpcState where | idle | busy | ret
  deriving DecidableEq, Repr

/-- `ipc_res_t`, the reply slot of a client. -/
structure IpcRes where
  uid : ℕ
  state : IpcState
  data : List UInt8
  deriving DecidableEq, Repr

def IpcRes.clear : IpcRes := ⟨0, .idle, []⟩

/-- `ipc_task_t`. -/
structure IpcTask where
  uid : ℕ
  counter : ℕ
  state : IpcState
  argRet : List UInt8
  clientPid : ℤ
  clientUuid : ℕ
  clientIntr : Bool
  callId : BitVec 32
  handlerPid : ℤ
  handlerUuid : ℕ
  deriving DecidableEq, Repr

/-- What `ipc_task_reset` leaves in a slot. -/
def ipcTaskReset : IpcTask := ⟨0, 0, .idle, [], 0, 0, false, 0, 0, 0⟩

/-- A slot is occupied from `proc_ipc_req` until it is reset. -/
def IpcTask.occupied (t : IpcTask) : Bool := t.state != .idle

/-- `ipc_server_t`, less the save area of the main context and the wait queue. -/
structure IpcServer where
  disabled : Bool
  multiTask : Bool
  entry : ℕ
  flags : BitVec 32
  extraData : ℕ
  tasks : ℕ → IpcTask
  taskHead : ℕ
  taskTail : ℕ
  taskNum : ℕ

/-- The record of a new address space (`memset` to zero). -/
def IpcServer.zero : IpcServer := ⟨false, false, 0, 0, 0, fun _ => ipcTaskReset, 0, 0, 0⟩

namespace IpcServer
variable (sv : IpcServer)

def setTask (i : ℕ) (t : IpcTask) : IpcServer := { sv with tasks := Function.update sv.tasks i t }

def ipcTaskqIsEmpty : Bool := sv.taskNum == 0

def ipcTaskqIsFull : Bool := decide (ipcCtxMax ≤ sv.taskNum)

def ipcTaskqHead : Option ℕ := if sv.ipcTaskqIsEmpty then none else some sv.taskHead

def ipcTaskqTailSlot : Option ℕ := if sv.ipcTaskqIsFull then none else some sv.taskTail

def ipcTaskqPushTail : IpcServer :=
  if sv.ipcTaskqIsFull then sv
  else { sv with taskTail := (sv.taskTail + 1) % ipcCtxMax, taskNum := sv.taskNum + 1 }

/-- The last pop also rewinds both ends of the ring. -/
def ipcTaskqPopHead : IpcServer :=
  if sv.ipcTaskqIsEmpty then sv
  else if sv.taskNum - 1 = 0 then { sv with taskHead := 0, taskTail := 0, taskNum := 0 }
  else { sv with taskHead := (sv.taskHead + 1) % ipcCtxMax, taskNum := sv.taskNum - 1 }

def ipcTaskqIsHeadSlot (slot : ℕ) : Bool := !sv.ipcTaskqIsEmpty && sv.taskHead == slot

/-- `ipc_free` of a slot and the guarded `task_num--` that goes with it in pool mode. -/
def freeSlot (slot : ℕ) : IpcServer :=
  { sv.setTask slot ipcTaskReset with taskNum := if 0 < sv.taskNum then sv.taskNum - 1 else sv.taskNum }

/-- `proc_ipc_setup`. -/
def procIpcSetup (entry extraData : ℕ) (flags : BitVec 32) : IpcServer :=
  { sv with entry := entry, extraData := extraData, flags := flags,
            multiTask := flags &&& (ipcMultiTask ||| ipcMultiCore) != 0 }

/-- Slot that `proc_ipc_req` takes: any free one for a pool, the ring tail otherwise. -/
def reqSlot : Option ℕ :=
  if sv.multiTask then (List.range ipcCtxMax).find? fun i => (sv.tasks i).uid == 0
  else sv.ipcTaskqTailSlot

/-- The slot as `proc_ipc_req` fills it in. -/
def request (uid : ℕ) (clientPid : ℤ) (clientUuid : ℕ) (clientIntr : Bool) (callId : BitVec 32)
    (arg : Option (List UInt8)) : IpcTask :=
  { ipcTaskReset with uid := uid, state := .busy, clientPid := clientPid, clientUuid := clientUuid,
                      clientIntr := clientIntr, callId := callId, argRet := arg.getD [] }

/-- `proc_ipc_req`, for a request filled in as `t`: the slot taken. The uid of `t` is the advanced
    `_ipc_uid`; the caller stores the counter back when a slot is returned. -/
def procIpcReq (t : IpcTask) : Option (ℕ × IpcServer) :=
  if sv.ipcTaskqIsFull then none
  else match sv.reqSlot with
    | none => none
    | some slot =>
      let sv' := sv.setTask slot t
      some (slot, if sv.multiTask then { sv' with taskNum := sv.taskNum + 1 }
                  else sv'.ipcTaskqPushTail)

/-- `proc_ipc_close`. -/
def procIpcClose (slot : ℕ) : IpcServer :=
  if sv.multiTask then
    if (sv.tasks slot).uid ≠ 0 then sv.freeSlot slot else sv
  else if sv.ipcTaskqIsHeadSlot slot then (sv.setTask slot ipcTaskReset).ipcTaskqPopHead
  else sv

/-- `proc_ipc_finish_task`: only the recorded handler may complete the request. -/
def procIpcFinishTask (workerPid : ℤ) (workerUuid : ℕ) (slot : ℕ) : IpcServer :=
  let t := sv.tasks slot
  if sv.multiTask ∧ t.uid ≠ 0 ∧ t.state ≠ .idle ∧ t.handlerPid = workerPid ∧
      t.handlerUuid = workerUuid then sv.freeSlot slot
  else sv

/-- The guard of `proc_ipc_task_abort`. -/
def abortable (slot : ℕ) : Bool :=
  sv.multiTask && (sv.tasks slot).uid != 0 && (sv.tasks slot).state != .idle

/-- `proc_ipc_task_abort`, its effect on the server. -/
def procIpcTaskAbort (slot : ℕ) : IpcServer :=
  if sv.abortable slot then sv.freeSlot slot else sv

/-- `proc_ipc_clear`: slots that hold a request are reset, the ring is rewound. -/
def procIpcClear : IpcServer :=
  { sv with tasks := fun i =>
              if i < ipcCtxMax ∧ (sv.tasks i).uid ≠ 0 ∧ (sv.tasks i).state ≠ .idle then ipcTaskReset
              else sv.tasks i
            taskHead := 0, taskTail := 0, taskNum := 0 }

/-- `ipc_server_client_busy_locked`. -/
def ipcServerClientBusyLocked (clientPid : ℤ) (clientUuid : ℕ) (skip : Option ℕ) : Bool :=
  (List.range ipcCtxMax).any fun i =>
    let t := sv.tasks i
    some i != skip && t.uid != 0 && t.state != .idle && t.clientPid == clientPid &&
      t.clientUuid == clientUuid

/-- The record half of `ipc_pool_bind_locked`. -/
def bind (slot : ℕ) (workerPid : ℤ) (workerUuid : ℕ) : IpcServer :=
  sv.setTask slot { sv.tasks slot with handlerPid := workerPid, handlerUuid := workerUuid }

/-- `proc_ipc_find_task`. -/
def procIpcFindTask (uid : ℕ) : Option ℕ :=
  if uid = 0 then none
  else (List.range ipcCtxMax).find? fun i =>
    (sv.tasks i).uid == uid && (sv.tasks i).state != .idle

/-! ### What the slots add up to -/

/-- The ring of a single-task server: position `k` from the head. -/
def ringSlot (k : ℕ) : ℕ := (sv.taskHead + k) % ipcCtxMax

/-- The occupied slots are the `taskNum` ring positions from the head on. -/
structure Ring : Prop where
  head : sv.taskHead < ipcCtxMax
  tail : sv.taskTail = sv.ringSlot sv.taskNum
  slots : ∀ i < ipcCtxMax, (sv.tasks i).occupied = true ↔ ∃ k < sv.taskNum, i = sv.ringSlot k

structure Sound : Prop where
  num : (sv.taskNum : ℤ) = tally ipcCtxMax IpcTask.occupied sv.tasks
  uid : ∀ i < ipcCtxMax, (sv.tasks i).occupied = true ↔ (sv.tasks i).uid ≠ 0
  ring : sv.multiTask = false → sv.Ring

/-- `sv'` has the same slots taken by the same requests. -/
structure Same (sv' : IpcServer) : Prop where
  mode : sv'.multiTask = sv.multiTask
  head : sv'.taskHead = sv.taskHead
  tail : sv'.taskTail = sv.taskTail
  num : sv'.taskNum = sv.taskNum
  uid : ∀ i, (sv'.tasks i).uid = (sv.tasks i).uid
  state : ∀ i, (sv'.tasks i).state = (sv.tasks i).state

/-- `sv'` is `sv` after slot `slot` was taken by `t`. -/
structure Taken (slot : ℕ) (t : IpcTask) (sv' : IpcServer) : Prop where
  lt : slot < ipcCtxMax
  empty : (sv.tasks slot).occupied = false
  tasks : sv'.tasks = Function.update sv.tasks slot t
  num : sv'.taskNum = sv.taskNum + 1
  room : sv.taskNum < ipcCtxMax
  mode : sv'.multiTask = sv.multiTask
  ring : sv.multiTask = false → slot = sv.ringSlot sv.taskNum ∧ sv'.taskHead = sv.taskHead ∧
    sv'.taskTail = (sv.taskTail + 1) % ipcCtxMax

/-- `sv'` is `sv` after slot `slot` was given up. -/
structure Freed (slot : ℕ) (sv' : IpcServer) : Prop where
  lt : slot < ipcCtxMax
  occ : (sv.tasks slot).occupied = true
  tasks : sv'.tasks = Function.update sv.tasks slot ipcTaskReset
  num : sv.taskNum = sv'.taskNum + 1
  mode : sv'.multiTask = sv.multiTask
  ring : sv.multiTask = false → slot = sv.taskHead ∧
    (sv'.taskNum = 0 ∧ sv'.taskHead = 0 ∧ sv'.taskTail = 0 ∨
      sv'.taskHead = (sv.taskHead + 1) % ipcCtxMax ∧ sv'.taskTail = sv.taskTail)

theorem ringSlot_lt (k : ℕ) : sv.ringSlot k < ipcCtxMax := Nat.mod_lt _ (by decide)

/-- Positions less than a full turn apart are different slots. -/
theorem ringSlot_inj {k l : ℕ} (hk : k < ipcCtxMax) (hl : l < ipcCtxMax)
    (h : sv.ringSlot k = sv.ringSlot l) : k = l := by
  simp only [ringSlot, ipcCtxMax] at *
  omega

variable {sv} {sv' : IpcServer} {slot : ℕ} {t : IpcTask}

theorem ringSlot_congr (h : sv'.taskHead = sv.taskHead) (k : ℕ) :
    sv'.ringSlot k = sv.ringSlot k := by
  simp only [ringSlot, h]

/-- Advancing the head by one renumbers the positions. -/
theorem ringSlot_advance (h : sv'.taskHead = (sv.taskHead + 1) % ipcCtxMax) (k : ℕ) :
    sv'.ringSlot k = sv.ringSlot (k + 1) := by
  simp only [ringSlot, h, ipcCtxMax]
  omega

theorem ringSlot_zero (hr : sv.Ring) : sv.ringSlot 0 = sv.taskHead := by
  simpa [ringSlot] using Nat.mod_eq_of_lt hr.head

@[simp] theorem reset_occupied : ipcTaskReset.occupied = false := rfl

theorem Sound.num_le (hs : sv.Sound) : sv.taskNum ≤ ipcCtxMax := by
  have h₁ := hs.num
  have h₂ := Schemes.tally_le ipcCtxMax IpcTask.occupied sv.tasks
  omega

/-- A server that counts no task has none. -/
theorem Sound.empty (hs : sv.Sound) (h0 : sv.taskNum = 0) {i : ℕ} (hi : i < ipcCtxMax) :
    (sv.tasks i).occupied = false :=
  Schemes.eq_false_of_tally_eq_zero (by rw [← hs.num, h0]; rfl) hi

theorem Sound.uid_ne (hs : sv.Sound) {i : ℕ} (hi : i < ipcCtxMax)
    (ho : (sv.tasks i).occupied = true) : (sv.tasks i).uid ≠ 0 := (hs.uid i hi).mp ho

theorem sound_zero : IpcServer.zero.Sound := by
  refine ⟨?_, ?_, ?_⟩
  · exact (Schemes.tally_eq_zero fun _ _ => rfl).symm
  · intro i _
    simp [zero, ipcTaskReset, IpcTask.occupied]
  · intro _
    refine ⟨by decide, rfl, ?_⟩
    intro i _
    simp [zero]

/-- Nothing is running and the ring is rewound: every mode is fine. -/
theorem sound_of_empty (h : ∀ i < ipcCtxMax, (sv.tasks i).occupied = false ∧ (sv.tasks i).uid = 0)
    (hn : sv.taskNum = 0) (hh : sv.taskHead = 0) (ht : sv.taskTail = 0) : sv.Sound := by
  refine ⟨?_, ?_, ?_⟩
  · rw [Schemes.tally_eq_zero fun i hi => (h i hi).1, hn]
    rfl
  · intro i hi
    simp [h i hi]
  · intro _
    refine ⟨by rw [hh]; decide, by rw [ringSlot, hh, hn, ht]; rfl, ?_⟩
    intro i hi
    simp [h i hi, hn]

theorem sound_same (hs : sv.Sound) (h : sv.Same sv') : sv'.Sound := by
  have hocc : ∀ i, (sv'.tasks i).occupied = (sv.tasks i).occupied := by
    intro i
    simp only [IpcTask.occupied, h.state i]
  refine ⟨?_, ?_, ?_⟩
  · rw [h.num, hs.num]
    exact Schemes.tally_congr fun j _ => (hocc j).symm
  · intro i hi
    rw [hocc, h.uid]
    exact hs.uid i hi
  · intro hm
    have hr := hs.ring (h.mode ▸ hm)
    refine ⟨h.head ▸ hr.head, ?_, ?_⟩
    · rw [h.tail, h.num, ringSlot_congr h.head, hr.tail]
    · intro i hi
      simp only [hocc, h.num, ringSlot_congr h.head]
      exact hr.slots i hi

theorem ring_taken (hr : sv.Ring) (h : sv.Taken slot t sv') (ho : t.occupied = true)
    (hm : sv.multiTask = false) : sv'.Ring := by
  obtain ⟨hslot, hhead, htail⟩ := h.ring hm
  refine ⟨hhead ▸ hr.head, ?_, ?_⟩
  · rw [htail, hr.tail, h.num, ringSlot_congr hhead]
    simp only [ringSlot, ipcCtxMax]
    omega
  · intro i hi
    rw [h.tasks, h.num]
    simp only [ringSlot_congr hhead]
    -- the new slot is the position after the last one
    rcases eq_or_ne i slot with rfl | hne
    · simp only [Function.update_self, ho, true_iff]
      exact ⟨sv.taskNum, Nat.lt_succ_self _, hslot⟩
    · rw [Function.update_of_ne hne, hr.slots i hi]
      constructor
      · rintro ⟨k, hk, rfl⟩
        exact ⟨k, Nat.lt_succ_of_lt hk, rfl⟩
      · rintro ⟨k, hk, rfl⟩
        rcases Nat.lt_succ_iff_lt_or_eq.mp hk with hk | rfl
        · exact ⟨k, hk, rfl⟩
        · exact absurd hslot.symm hne

theorem sound_taken (hs : sv.Sound) (h : sv.Taken slot t sv') (ho : t.occupied = true)
    (hu : t.uid ≠ 0) : sv'.Sound := by
  refine ⟨?_, ?_, ?_⟩
  · rw [h.tasks, Schemes.tally_update h.lt, ← hs.num, Schemes.mark_false h.empty,
      Schemes.mark_true ho, h.num]
    push_cast
    omega
  · intro i hi
    rw [h.tasks]
    rcases eq_or_ne i slot with rfl | hne
    · simp [ho, hu]
    · rw [Function.update_of_ne hne]
      exact hs.uid i hi
  · intro hm
    rw [h.mode] at hm
    exact ring_taken (hs.ring hm) h ho hm

theorem ring_freed (hr : sv.Ring) (hle : sv.taskNum ≤ ipcCtxMax) (h : sv.Freed slot sv')
    (hm : sv.multiTask = false) : sv'.Ring := by
  obtain ⟨hslot, ⟨hn, hh, ht⟩ | ⟨hh, ht⟩⟩ := h.ring hm
  · -- the ring held one request, in its head slot
    refine ⟨by rw [hh]; decide, by rw [ringSlot, hh, hn, ht]; rfl, ?_⟩
    intro i hi
    rw [h.tasks]
    rcases eq_or_ne i slot with rfl | hne
    · simp [hn]
    · rw [Function.update_of_ne hne, hr.slots i hi]
      have h1 := h.num
      simp only [hn, Nat.zero_add] at h1
      simp only [h1, Nat.lt_one_iff, hn, Nat.not_lt_zero, false_and, exists_const, iff_false]
      rintro ⟨k, rfl, rfl⟩
      exact hne (by rw [hslot, ringSlot_zero hr])
  · refine ⟨by rw [hh]; exact Nat.mod_lt _ (by decide), ?_, ?_⟩
    · rw [ht, hr.tail, ringSlot_advance hh, h.num]
    · intro i hi
      rw [h.tasks]
      simp only [ringSlot_advance hh]
      have h1 := h.num
      rcases eq_or_ne i slot with rfl | hne
      · -- the slot given up is position 0, and no later position comes back to it
        simp only [Function.update_self, reset_occupied, Bool.false_eq_true, false_iff]
        rintro ⟨k, hk, hik⟩
        rw [hslot, ← ringSlot_zero hr] at hik
        have := sv.ringSlot_inj (by decide) (by omega) hik
        omega
      · rw [Function.update_of_ne hne, hr.slots i hi]
        constructor
        · rintro ⟨k, hk, rfl⟩
          rcases k with _ | k
          · exact absurd (by rw [hslot, ringSlot_zero hr]) hne
          · exact ⟨k, by omega, rfl⟩
        · rintro ⟨k, hk, rfl⟩
          exact ⟨k + 1, by omega, rfl⟩

theorem sound_freed (hs : sv.Sound) (h : sv.Freed slot sv') : sv'.Sound := by
  refine ⟨?_, ?_, ?_⟩
  · rw [h.tasks, Schemes.tally_update h.lt, ← hs.num, Schemes.mark_true h.occ,
      Schemes.mark_false reset_occupied, h.num]
    push_cast
    omega
  · intro i hi
    rw [h.tasks]
    rcases eq_or_ne i slot with rfl | hne
    · simp [ipcTaskReset, IpcTask.occupied]
    · rw [Function.update_of_ne hne]
      exact hs.uid i hi
  · intro hm
    rw [h.mode] at hm
    exact ring_freed (hs.ring hm) hs.num_le h hm

/-! ### What the operations do -/

theorem same_refl : sv.Same sv := ⟨rfl, rfl, rfl, rfl, fun _ => rfl, fun _ => rfl⟩

/-- A slot handed out by `reqSlot` is in range and free. -/
theorem reqSlot_spec (hs : sv.Sound) (hf : sv.ipcTaskqIsFull = false) (h : sv.reqSlot = some slot) :
    slot < ipcCtxMax ∧ (sv.tasks slot).occupied = false ∧
      (sv.multiTask = false → slot = sv.ringSlot sv.taskNum) := by
  have hroom : sv.taskNum < ipcCtxMax := by simpa [ipcTaskqIsFull] using hf
  cases hm : sv.multiTask with
  | true =>
    rw [reqSlot, hm, if_pos rfl] at h
    have hmem := List.mem_range.mp (List.mem_of_find?_eq_some h)
    have huid : (sv.tasks slot).uid = 0 := by simpa using List.find?_some h
    have hocc := (hs.uid slot hmem).not.mpr (by simpa using huid)
    exact ⟨hmem, by simpa using hocc, by simp⟩
  | false =>
    have hr := hs.ring hm
    simp only [reqSlot, hm, ipcTaskqTailSlot, hf, Bool.false_eq_true, if_false,
      Option.some.injEq] at h
    have hslot : slot = sv.ringSlot sv.taskNum := by rw [← h, hr.tail]
    have hlt : slot < ipcCtxMax := hslot ▸ sv.ringSlot_lt _
    refine ⟨hlt, ?_, fun _ => hslot⟩
    -- a full turn would be needed to come back to an occupied position
    have hno : ¬(sv.tasks slot).occupied = true := by
      rw [hr.slots slot hlt]
      rintro ⟨k, hk, hkk⟩
      have := sv.ringSlot_inj (by omega) hroom (hkk.symm.trans hslot)
      omega
    simpa using hno

theorem taken_of_req (hs : sv.Sound) (h : sv.procIpcReq t = some (slot, sv')) :
    sv.Taken slot t sv' := by
  unfold procIpcReq at h
  split at h
  · cases h
  · rename_i hf
    have hf : sv.ipcTaskqIsFull = false := by simpa using hf
    split at h
    · cases h
    · rename_i slot' hslot
      simp only [Option.some.injEq, Prod.mk.injEq] at h
      obtain ⟨rfl, rfl⟩ := h
      obtain ⟨hlt, hocc, hring⟩ := reqSlot_spec hs hf hslot
      have hroom : sv.taskNum < ipcCtxMax := by simpa [ipcTaskqIsFull] using hf
      have hf' : (sv.setTask slot' t).ipcTaskqIsFull = false := hf
      cases hm : sv.multiTask with
      | true =>
        rw [if_pos rfl]
        exact ⟨hlt, hocc, rfl, rfl, hroom, rfl, by simp [hm]⟩
      | false =>
        simp only [Bool.false_eq_true, if_false, ipcTaskqPushTail, hf']
        exact ⟨hlt, hocc, rfl, rfl, hroom, rfl, fun _ => ⟨hring hm, rfl, rfl⟩⟩

/-- The pool frees an occupied slot and counts it. -/
theorem freed_freeSlot (hs : sv.Sound) (hm : sv.multiTask = true) (hlt : slot < ipcCtxMax)
    (hu : (sv.tasks slot).uid ≠ 0) : sv.Freed slot (sv.freeSlot slot) := by
  have hocc := (hs.uid slot hlt).mpr hu
  have hpos := Schemes.tally_pos hlt hocc
  rw [← hs.num] at hpos
  have hpos : 0 < sv.taskNum := by omega
  refine ⟨hlt, hocc, rfl, ?_, rfl, by simp [hm]⟩
  simp only [freeSlot, if_pos hpos]
  omega

/-- `proc_ipc_close` gives up the slot it is called on, or does nothing. -/
theorem close_cases (hs : sv.Sound) (hlt : slot < ipcCtxMax) :
    sv.Same (sv.procIpcClose slot) ∨ sv.Freed slot (sv.procIpcClose slot) := by
  unfold procIpcClose
  cases hm : sv.multiTask with
  | true =>
    rw [if_pos rfl]
    split
    · rename_i hu
      exact .inr (freed_freeSlot hs hm hlt hu)
    · exact .inl same_refl
  | false =>
    rw [if_neg Bool.false_ne_true]
    split
    · rename_i hh
      simp only [ipcTaskqIsHeadSlot, ipcTaskqIsEmpty, Bool.and_eq_true, Bool.not_eq_true',
        beq_eq_false_iff_ne, ne_eq, beq_iff_eq] at hh
      obtain ⟨hn, rfl⟩ := hh
      have hr := hs.ring hm
      have hocc : (sv.tasks sv.taskHead).occupied = true :=
        (hr.slots _ hr.head).mpr ⟨0, by omega, (ringSlot_zero hr).symm⟩
      refine .inr ?_
      have hne : (sv.setTask sv.taskHead ipcTaskReset).ipcTaskqIsEmpty = false := by
        simpa [ipcTaskqIsEmpty, setTask] using hn
      simp only [ipcTaskqPopHead, hne, Bool.false_eq_true, if_false]
      split
      · rename_i h1
        have h1 : sv.taskNum - 1 = 0 := h1
        exact ⟨hr.head, hocc, rfl, by simp only; omega, rfl, fun _ => ⟨rfl, .inl ⟨rfl, rfl, rfl⟩⟩⟩
      · have h2 : (sv.setTask sv.taskHead ipcTaskReset).taskNum = sv.taskNum := rfl
        exact ⟨hr.head, hocc, rfl, by simp only [h2]; omega, rfl, fun _ => ⟨rfl, .inr ⟨rfl, rfl⟩⟩⟩
    · exact .inl same_refl

theorem finish_cases (hs : sv.Sound) (hlt : slot < ipcCtxMax) (w : ℤ) (u : ℕ) :
    sv.Same (sv.procIpcFinishTask w u slot) ∨ sv.Freed slot (sv.procIpcFinishTask w u slot) := by
  unfold procIpcFinishTask
  simp only
  split
  · rename_i h
    exact .inr (freed_freeSlot hs h.1 hlt h.2.1)
  · exact .inl same_refl

theorem abort_cases (hs : sv.Sound) (hlt : slot < ipcCtxMax) :
    sv.Same (sv.procIpcTaskAbort slot) ∨ sv.Freed slot (sv.procIpcTaskAbort slot) := by
  unfold procIpcTaskAbort
  split
  · rename_i h
    simp only [abortable, Bool.and_eq_true, bne_iff_ne] at h
    exact .inr (freed_freeSlot hs h.1.1 hlt h.1.2)
  · exact .inl same_refl

/-- `proc_ipc_clear` leaves no request behind. -/
theorem clear_empty (hs : sv.Sound) {i : ℕ} (hi : i < ipcCtxMax) :
    (sv.procIpcClear.tasks i).occupied = false ∧ (sv.procIpcClear.tasks i).uid = 0 := by
  simp only [procIpcClear]
  split
  · exact ⟨rfl, rfl⟩
  · rename_i h
    have hu := hs.uid i hi
    simp only [IpcTask.occupied, bne_iff_ne] at hu
    by_cases huid : (sv.tasks i).uid = 0
    · exact ⟨by simpa [IpcTask.occupied] using hu.not.mpr (not_not.mpr huid), huid⟩
    · exact absurd ⟨hi, huid, hu.mpr huid⟩ h

theorem sound_clear (hs : sv.Sound) : sv.procIpcClear.Sound :=
  sound_of_empty (fun _ hi => clear_empty hs hi) rfl rfl rfl

end IpcServer

end EwokOS.Kernel.Ipc
