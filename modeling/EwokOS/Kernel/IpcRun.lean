import EwokOS.Kernel.IpcMachine
import EwokOS.Schemes.Run

/-! Runs of the IPC machine: task slots are conserved and identified.

    Requests get their number from `_ipc_uid`, a 32-bit counter that is never reset, and number 0 is
    also how a slot says that it is empty. As long as each call that is given a slot finds a number
    that is neither 0 nor in use (`CallsFresh`), every server's count, ring and numbers agree and
    every accepted request leaves its slot in exactly one way (`slots_conserved`). After 2^32 - 1
    calls the counter does come back to 0 (`wrapped_uid_not_conserved`). -/

namespace EwokOS.Kernel.Ipc

open Schemes (Ledger Reach Free tally)

/-- The slots add up, are in order, and name their requests. -/
structure SlotsConserved (m : Machine) : Prop where
  /-- `task_num` is the number of occupied slots. -/
  num : ∀ p, ((m.server p).taskNum : ℤ) = tally ipcCtxMax IpcTask.occupied (m.server p).tasks
  /-- In single-task mode they are the `task_num` ring positions from the head. -/
  ring : ∀ p, (m.server p).multiTask = false → ∀ i < ipcCtxMax,
    ((m.server p).tasks i).occupied = true ↔
      ∃ k < (m.server p).taskNum, i = ((m.server p).taskHead + k) % ipcCtxMax
  /-- An accepted request holds a slot exactly while the slot is occupied. -/
  held : ∀ p i, (m.led.held (p, i)).isSome = true ↔
    i < ipcCtxMax ∧ ((m.server p).tasks i).occupied = true
  /-- The ring is in the order in which the requests were accepted. -/
  order : ∀ p, (m.server p).multiTask = false → ∀ k l, k < l → l < (m.server p).taskNum →
    ∀ a b, m.led.held (p, ((m.server p).taskHead + k) % ipcCtxMax) = some a →
      m.led.held (p, ((m.server p).taskHead + l) % ipcCtxMax) = some b → a < b
  uid_ne : ∀ p, ∀ i < ipcCtxMax, ((m.server p).tasks i).occupied = true →
    ((m.server p).tasks i).uid ≠ 0
  /-- No two requests in flight, on any servers, have the same uid. -/
  uid_inj : ∀ p q, ∀ i < ipcCtxMax, ∀ j < ipcCtxMax, ((m.server p).tasks i).occupied = true →
    ((m.server q).tasks j).occupied = true →
    ((m.server p).tasks i).uid = ((m.server q).tasks j).uid → p = q ∧ i = j
  /-- Every accepted request is still in its one slot, or left it in exactly one way. -/
  settled : ∀ r < m.led.accepted,
    ((∃! place, m.led.held place = some r) ∧ m.led.fates r = []) ∨
      (∀ place, m.led.held place ≠ some r) ∧ ∃ f, m.led.fates r = [f]

/-- The next request number is not the empty marker and no request in flight has it. -/
def FreshUid (m : Machine) : Prop :=
  m.nextUid ≠ 0 ∧ ∀ p, ∀ i < ipcCtxMax, ((m.server p).tasks i).occupied = true →
    ((m.server p).tasks i).uid ≠ m.nextUid

/-- The condition on a step: a call that will be given a slot finds a fresh number. -/
def CallsFresh (m : Machine) : Op → Prop
  | .call pid servPid _ arg cap _ => ∀ p, m.callTarget pid servPid arg cap = .ok p →
      (m.server p).ipcTaskqIsFull = false → FreshUid m
  | _ => True

/-! ### The invariant -/

/-- `sv'` keeps some of the requests of `sv`, in the same slots and the same order. -/
structure IpcServer.Shrunk (sv sv' : IpcServer) : Prop where
  sound : sv'.Sound
  mode : sv'.multiTask = sv.multiTask
  entry : sv'.entry = sv.entry
  sub : ∀ i < ipcCtxMax, (sv'.tasks i).occupied = true →
    (sv.tasks i).occupied = true ∧ (sv'.tasks i).uid = (sv.tasks i).uid
  order : sv.multiTask = false → ∀ k l, k < l → l < sv'.taskNum →
    ∃ k' l', k' < l' ∧ l' < sv.taskNum ∧ sv'.ringSlot k = sv.ringSlot k' ∧
      sv'.ringSlot l = sv.ringSlot l'
  blank : sv.taskNum = 0 → sv.taskHead = 0 → sv.taskTail = 0 →
    sv'.taskNum = 0 ∧ sv'.taskHead = 0 ∧ sv'.taskTail = 0

section
open IpcServer
variable {sv sv' : IpcServer} {slot : ℕ}

theorem IpcServer.shrunk_same (hs : sv.Sound) (h : sv.Same sv') (he : sv'.entry = sv.entry) :
    sv.Shrunk sv' := by
  refine ⟨sound_same hs h, h.mode, he, ?_, ?_, ?_⟩
  · intro i _ ho
    exact ⟨by simpa only [IpcTask.occupied, h.state i] using ho, h.uid i⟩
  · intro _ k l hkl hl
    exact ⟨k, l, hkl, h.num ▸ hl, ringSlot_congr h.head k, ringSlot_congr h.head l⟩
  · intro hn hh ht
    exact ⟨h.num ▸ hn, h.head ▸ hh, h.tail ▸ ht⟩

theorem IpcServer.shrunk_freed (hs : sv.Sound) (h : sv.Freed slot sv') (he : sv'.entry = sv.entry) :
    sv.Shrunk sv' := by
  refine ⟨sound_freed hs h, h.mode, he, ?_, ?_, ?_⟩
  · intro i _ ho
    rw [h.tasks] at ho ⊢
    rcases eq_or_ne i slot with rfl | hne
    · simp at ho
    · rw [Function.update_of_ne hne] at ho ⊢
      exact ⟨ho, rfl⟩
  · intro hm k l hkl hl
    have hn := h.num
    obtain ⟨-, ⟨h0, -, -⟩ | ⟨hh, -⟩⟩ := h.ring hm
    · omega
    · exact ⟨k + 1, l + 1, by omega, by omega, ringSlot_advance hh k, ringSlot_advance hh l⟩
  · intro hn
    have := h.num
    omega

theorem IpcServer.shrunk_clear (hs : sv.Sound) : sv.Shrunk sv.procIpcClear := by
  refine ⟨sound_clear hs, rfl, rfl, ?_, ?_, fun _ _ _ => ⟨rfl, rfl, rfl⟩⟩
  · intro i hi ho
    rw [(clear_empty hs hi).1] at ho
    cases ho
  · intro _ k l _ hl
    exact absurd hl (Nat.not_lt_zero l)

end

structure Inv (m : Machine) : Prop where
  sound : ∀ p, (m.server p).Sound
  /-- A server that was never set up has taken no request. -/
  blank : ∀ p, m.configured p = false → (m.server p).taskNum = 0 ∧ (m.server p).taskHead = 0 ∧
    (m.server p).taskTail = 0 ∧ (m.server p).entry = 0
  /-- Requests are in flight at live processes only. -/
  live : ∀ p, ∀ i < ipcCtxMax, ((m.server p).tasks i).occupied = true →
    (m.task p).alive = true ∧ (m.task p).type = .proc
  slot : ∀ p s, (m.task p).ipcTask = some s → s < ipcCtxMax
  uniq : ∀ p q, ∀ i < ipcCtxMax, ∀ j < ipcCtxMax, ((m.server p).tasks i).occupied = true →
    ((m.server q).tasks j).occupied = true →
    ((m.server p).tasks i).uid = ((m.server q).tasks j).uid → p = q ∧ i = j
  led : m.led.Valid
  held : ∀ p i, (m.led.held (p, i)).isSome = true ↔
    i < ipcCtxMax ∧ ((m.server p).tasks i).occupied = true
  order : ∀ p, (m.server p).multiTask = false → ∀ k l, k < l → l < (m.server p).taskNum →
    ∀ a b, m.led.held (p, (m.server p).ringSlot k) = some a →
      m.led.held (p, (m.server p).ringSlot l) = some b → a < b

theorem Inv.conserved {m : Machine} (h : Inv m) : SlotsConserved m where
  num p := (h.sound p).num
  ring p hm := ((h.sound p).ring hm).slots
  held := h.held
  order := h.order
  uid_ne p _ hi ho := (h.sound p).uid_ne hi ho
  uid_inj := h.uniq
  settled _ hr := h.led.open_or_met hr

theorem inv_boot : Inv boot := by
  refine ⟨fun _ => IpcServer.sound_zero, fun _ _ => ⟨rfl, rfl, rfl, rfl⟩, ?_, ?_, ?_,
    Ledger.valid_fresh, ?_, ?_⟩
  · intro _ _ _ ho
    cases ho
  · intro _ _ hs
    cases hs
  · intro _ _ _ _ _ _ ho
    cases ho
  · intro p i
    simp [boot, Ledger.fresh, IpcServer.zero]
  · intro _ _ _ _ _ hl
    exact absurd hl (Nat.not_lt_zero _)

variable {m m' : Machine} {p : ℤ} {sv : IpcServer}

/-- A change of tasks that kills no serving process and points no worker out of range. -/
theorem inv_task (h : Inv m) (hs : m'.server = m.server) (hc : m'.configured = m.configured)
    (hl : m'.led = m.led)
    (hlive : ∀ q, (∃ i < ipcCtxMax, ((m.server q).tasks i).occupied = true) →
      (m.task q).alive = true → (m.task q).type = .proc →
      (m'.task q).alive = true ∧ (m'.task q).type = .proc)
    (hslot : ∀ q s, (m'.task q).ipcTask = some s → s < ipcCtxMax) : Inv m' := by
  refine ⟨hs ▸ h.sound, ?_, ?_, hslot, hs ▸ h.uniq, hl ▸ h.led, ?_, ?_⟩
  · rw [hs, hc]
    exact h.blank
  · intro q i hi ho
    rw [hs] at ho
    obtain ⟨ha, ht⟩ := h.live q i hi ho
    exact hlive q ⟨i, hi, ho⟩ ha ht
  · rw [hs, hl]
    exact h.held
  · rw [hs, hl]
    exact h.order

theorem inv_setTask (h : Inv m) {q : ℤ} {t : Task} (ha : t.alive = (m.task q).alive)
    (ht : t.type = (m.task q).type) (hslot : ∀ s, t.ipcTask = some s → s < ipcCtxMax) :
    Inv (m.setTask q t) := by
  refine inv_task h rfl rfl rfl ?_ ?_
  · intro r _ hra hrt
    rcases eq_or_ne r q with rfl | hne
    · simp [Machine.setTask, ha, ht, hra, hrt]
    · simp [Machine.setTask, hne, hra, hrt]
  · intro r s hr
    rcases eq_or_ne r q with rfl | hne
    · exact hslot s (by simpa [Machine.setTask] using hr)
    · exact h.slot r s (by simpa [Machine.setTask, hne] using hr)

theorem mem_freedSlots {sv sv' : IpcServer} {i : ℕ} : i ∈ Machine.freedSlots sv sv' ↔
    i < ipcCtxMax ∧ (sv.tasks i).occupied = true ∧ (sv'.tasks i).occupied = false := by
  simp [Machine.freedSlots]

/-- The ledger after a release: exactly the slots given up lose their request. -/
theorem release_held (f : Fate) (q : ℤ) (i : ℕ) : (m.release f p sv).led.held (q, i) =
    if q = p ∧ i ∈ Machine.freedSlots (m.server p) sv then none else m.led.held (q, i) := by
  simp only [Machine.release, Ledger.foldl_settle_held]
  congr 1
  simp only [List.mem_map, Prod.mk.injEq, eq_iff_iff]
  constructor
  · rintro ⟨j, hj, rfl, rfl⟩
    exact ⟨rfl, hj⟩
  · rintro ⟨rfl, hi⟩
    exact ⟨i, hi, rfl, rfl⟩

theorem release_server (f : Fate) (q : ℤ) :
    (m.release f p sv).server q = if q = p then sv else m.server q := by
  simp [Machine.release, Machine.setServer, Function.update_apply]

/-- Removing requests from one server, with their fates noted, keeps the invariant. -/
theorem inv_release (h : Inv m) (f : Fate) (hsv : (m.server p).Shrunk sv) :
    Inv (m.release f p sv) := by
  -- an occupied slot after the release was occupied by the same request before
  have hocc : ∀ q, ∀ i < ipcCtxMax, (((m.release f p sv).server q).tasks i).occupied = true →
      ((m.server q).tasks i).occupied = true ∧
      (((m.release f p sv).server q).tasks i).uid = ((m.server q).tasks i).uid := by
    intro q i hi ho
    rw [release_server] at ho ⊢
    split at ho
    · rename_i hq
      subst hq
      simpa using hsv.sub i hi ho
    · rename_i hq
      simpa [hq] using ho
  refine ⟨?_, ?_, ?_, h.slot, ?_, Ledger.valid_foldl_settle _ h.led, ?_, ?_⟩
  · intro q
    rw [release_server]
    split
    · exact hsv.sound
    · exact h.sound q
  · intro q hq
    obtain ⟨h1, h2, h3, h4⟩ := h.blank q hq
    rw [release_server]
    split
    · rename_i hqp
      subst hqp
      obtain ⟨h1, h2, h3⟩ := hsv.blank h1 h2 h3
      exact ⟨h1, h2, h3, hsv.entry.trans h4⟩
    · exact ⟨h1, h2, h3, h4⟩
  · intro q i hi ho
    exact h.live q i hi (hocc q i hi ho).1
  · intro q r i hi j hj ho ho' hu
    obtain ⟨h1, h2⟩ := hocc q i hi ho
    obtain ⟨h3, h4⟩ := hocc r j hj ho'
    exact h.uniq q r i hi j hj h1 h3 (by rw [← h2, ← h4, hu])
  · intro q i
    rw [release_held, release_server]
    rcases eq_or_ne q p with rfl | hq
    · have hheld := h.held q i
      by_cases hi : i < ipcCtxMax
      · have hsub := hsv.sub i hi
        simp only [mem_freedSlots, hi, true_and, if_true]
        cases ho' : (sv.tasks i).occupied with
        | true => simp [hheld, hi, (hsub ho').1]
        | false =>
          cases ho : ((m.server q).tasks i).occupied with
          | true => simp
          | false => simpa [ho] using hheld
      · simpa [mem_freedSlots, hi] using hheld
    · simpa [hq] using h.held q i
  · intro q hm k l hkl hl a b ha hb
    rw [release_server] at hm hl ha hb
    rcases eq_or_ne q p with rfl | hq
    · simp only [if_true] at hm hl ha hb
      obtain ⟨k', l', hkl', hl', hk, hl⟩ := hsv.order (hsv.mode ▸ hm) k l hkl hl
      rw [release_held, hk] at ha
      rw [release_held, hl] at hb
      split at ha
      · cases ha
      split at hb
      · cases hb
      exact h.order q (hsv.mode ▸ hm) k' l' hkl' hl' a b ha hb
    · simp only [hq, if_false] at hm hl ha hb
      rw [release_held, if_neg (by simp [hq])] at ha hb
      exact h.order q hm k l hkl hl a b ha hb

/-- Rewriting a record without touching its requests. -/
theorem inv_setServer (h : Inv m) (hs : (m.server p).Same sv) (he : sv.entry = (m.server p).entry) :
    Inv (m.setServer p sv) := by
  have hno : Machine.freedSlots (m.server p) sv = [] := by
    rw [List.eq_nil_iff_forall_not_mem]
    intro i hi
    obtain ⟨-, ho, ho'⟩ := mem_freedSlots.mp hi
    rw [IpcTask.occupied, hs.state i] at ho'
    exact Bool.false_ne_true (ho'.symm.trans ho)
  have hrel : m.release .cleared p sv = m.setServer p sv := by
    simp [Machine.release, hno]
    rfl
  rw [← hrel]
  exact inv_release h _ (IpcServer.shrunk_same (h.sound p) hs he)

/-- Accepting a request in a free slot, under a fresh number. -/
theorem inv_enroll (h : Inv m) {slot : ℕ} {t : IpcTask} (hp : (m.task p).alive = true)
    (hpt : (m.task p).type = .proc) (hcfg : m.configured p = true)
    (hsv : (m.server p).Taken slot t sv) (ht : t.occupied = true) (hu : t.uid = m.nextUid)
    (hf : FreshUid m)
    (hsrv : m'.server = Function.update m.server p sv) (htask : m'.task = m.task)
    (hconf : m'.configured = m.configured) (hled : m'.led = m.led.enroll (p, slot)) : Inv m' := by
  have hsound := IpcServer.sound_taken (h.sound p) hsv ht (hu ▸ hf.1)
  have hempty : m.led.held (p, slot) = none := by
    have := (h.held p slot).not.mpr (by simp [hsv.empty])
    simpa using this
  -- what sits in a slot is the new request, or what sat there before
  have hocc : ∀ q i, ((m'.server q).tasks i) =
      if q = p ∧ i = slot then t else (m.server q).tasks i := by
    intro q i
    rw [hsrv]
    rcases eq_or_ne q p with rfl | hq
    · rw [Function.update_self, hsv.tasks]
      simp [Function.update_apply]
    · simp [hq]
  refine ⟨?_, ?_, ?_, htask ▸ h.slot, ?_, hled ▸ Ledger.valid_enroll h.led hempty, ?_, ?_⟩
  · intro q
    rw [hsrv, Function.update_apply]
    split
    · exact hsound
    · exact h.sound q
  · intro q hq
    rw [hconf] at hq
    have hqp : q ≠ p := by
      rintro rfl
      rw [hcfg] at hq
      cases hq
    rw [hsrv, Function.update_of_ne hqp]
    exact h.blank q hq
  · intro q i hi ho
    rw [hocc] at ho
    rw [htask]
    split at ho
    · rename_i hq
      exact hq.1 ▸ ⟨hp, hpt⟩
    · exact h.live q i hi ho
  · intro q r i hi j hj ho ho' huu
    rw [hocc] at ho ho' huu
    rw [hocc] at huu
    split at ho <;> split at ho'
    · rename_i h1 h2
      exact ⟨h1.1.trans h2.1.symm, h1.2.trans h2.2.symm⟩
    · rename_i h1 h2
      rw [if_pos h1, if_neg h2, hu] at huu
      exact absurd huu.symm (hf.2 r j hj ho')
    · rename_i h1 h2
      rw [if_neg h1, if_pos h2, hu] at huu
      exact absurd huu (hf.2 q i hi ho)
    · rename_i h1 h2
      rw [if_neg h1, if_neg h2] at huu
      exact h.uniq q r i hi j hj ho ho' huu
  · intro q i
    rw [hled, hocc, Ledger.enroll_held, Function.update_apply]
    simp only [Prod.mk.injEq]
    split
    · rename_i hq
      simp [ht, hq.2, hsv.lt]
    · exact h.held q i
  · intro q hm k l hkl hl a b ha hb
    rw [hsrv] at hm hl ha hb
    rw [hled, Ledger.enroll_held] at ha hb
    rcases eq_or_ne q p with rfl | hq
    · rw [Function.update_self] at hm hl ha hb
      have hm' := hsv.mode ▸ hm
      obtain ⟨hslot, hhead, -⟩ := hsv.ring hm'
      have hroom := hsv.room
      have hn := hsv.num
      rw [IpcServer.ringSlot_congr hhead] at ha hb
      -- position `k` is not the one just taken, so its request is an old one
      have hk : (m.server q).ringSlot k ≠ slot := by
        rw [hslot]
        intro hk
        have := (m.server q).ringSlot_inj (by omega) hroom hk
        omega
      rw [Function.update_of_ne (by simpa using hk)] at ha
      rcases Nat.lt_succ_iff_lt_or_eq.mp (hn ▸ hl) with hl | rfl
      · have hl' : (m.server q).ringSlot l ≠ slot := by
          rw [hslot]
          intro hl'
          have := (m.server q).ringSlot_inj (by omega) hroom hl'
          omega
        rw [Function.update_of_ne (by simpa using hl')] at hb
        exact h.order q hm' k l hkl hl a b ha hb
      · rw [← hslot, Function.update_self, Option.some.injEq] at hb
        exact hb ▸ h.led.below _ _ ha
    · rw [Function.update_of_ne hq] at hm hl ha hb
      rw [Function.update_of_ne (by simp [hq])] at ha hb
      exact h.order q hm k l hkl hl a b ha hb

/-! ### One step -/

theorem setClientRes_frame (t : Task) (b : Bool) (r : IpcRes) :
    (t.setClientRes b r).alive = t.alive ∧ (t.setClientRes b r).type = t.type ∧
      (t.setClientRes b r).ipcTask = t.ipcTask := by
  cases b <;> exact ⟨rfl, rfl, rfl⟩

theorem inv_setRes (h : Inv m) (q : ℤ) (b : Bool) (r : IpcRes) :
    Inv (m.setTask q ((m.task q).setClientRes b r)) := by
  obtain ⟨h1, h2, h3⟩ := setClientRes_frame (m.task q) b r
  exact inv_setTask h h1 h2 fun s hs => h.slot q s (h3 ▸ hs)

/-- `dropReply` and `detach` touch tasks only. -/
theorem dropReply_frame (t : IpcTask) (d : IpcRes → Bool) :
    (m.dropReply t d).server = m.server := by
  unfold Machine.dropReply
  split
  · rfl
  · simp only
    split <;> rfl

theorem inv_dropReply (h : Inv m) (t : IpcTask) (d : IpcRes → Bool) : Inv (m.dropReply t d) := by
  unfold Machine.dropReply
  split
  · exact h
  · simp only
    split
    · exact inv_setRes h _ _ _
    · exact h

theorem detach_frame (slot : ℕ) (t : IpcTask) : (m.detach p slot t).server = m.server := by
  unfold Machine.detach
  simp only
  split <;> rfl

theorem inv_detach (h : Inv m) (slot : ℕ) (t : IpcTask) : Inv (m.detach p slot t) := by
  unfold Machine.detach
  simp only
  split
  · exact inv_setTask h rfl rfl fun _ hs => by cases hs
  · exact h

theorem shrunk_of_cases {slot : ℕ} {sv sv' : IpcServer} (hs : sv.Sound)
    (he : sv'.entry = sv.entry) (h : sv.Same sv' ∨ sv.Freed slot sv') : sv.Shrunk sv' := by
  rcases h with h | h
  · exact IpcServer.shrunk_same hs h he
  · exact IpcServer.shrunk_freed hs h he

theorem popHead_entry (sv : IpcServer) : sv.ipcTaskqPopHead.entry = sv.entry := by
  unfold IpcServer.ipcTaskqPopHead
  split_ifs <;> rfl

theorem close_entry (sv : IpcServer) (slot : ℕ) : (sv.procIpcClose slot).entry = sv.entry := by
  unfold IpcServer.procIpcClose
  split_ifs
  · rfl
  · rfl
  · exact popHead_entry _
  · rfl

theorem shrunk_close {slot : ℕ} (hs : sv.Sound) (hlt : slot < ipcCtxMax) :
    sv.Shrunk (sv.procIpcClose slot) :=
  shrunk_of_cases hs (close_entry sv slot) (IpcServer.close_cases hs hlt)

theorem inv_abort (h : Inv m) {slot : ℕ} (hlt : slot < ipcCtxMax) :
    Inv (m.procIpcTaskAbort p slot) := by
  unfold Machine.procIpcTaskAbort
  simp only
  split
  · refine inv_release (inv_dropReply (inv_detach h _ _) _ _) _ ?_
    rw [dropReply_frame, detach_frame]
    refine shrunk_of_cases (h.sound p) ?_ (IpcServer.abort_cases (h.sound p) hlt)
    simp only [IpcServer.procIpcTaskAbort, IpcServer.freeSlot, IpcServer.setTask]
    split <;> rfl
  · exact h

theorem head_lt (hs : sv.Sound) (hm : sv.multiTask = false) {slot : ℕ}
    (h : sv.ipcTaskqHead = some slot) : slot < ipcCtxMax := by
  simp only [IpcServer.ipcTaskqHead, Option.ite_none_left_eq_some, Option.some.injEq] at h
  exact h.2 ▸ (hs.ring hm).head

theorem inv_timeout (h : Inv m) (hm : (m.server p).multiTask = false) :
    Inv (m.procIpcTimeout p) := by
  unfold Machine.procIpcTimeout
  simp only
  split
  · exact h
  · rename_i slot hslot
    split
    · exact h
    · have hlt := head_lt (h.sound p) hm hslot
      split
      · refine inv_release (inv_dropReply h _ _) _ ?_
        rw [dropReply_frame]
        exact shrunk_close (h.sound p) hlt
      · exact inv_release h _ (shrunk_close (h.sound p) hlt)

theorem inv_clearStep (h : Inv m) (i : ℕ) :
    Inv (Machine.clearStep p m i) ∧ (Machine.clearStep p m i).server = m.server := by
  unfold Machine.clearStep
  simp only
  split
  · exact ⟨h, rfl⟩
  · split
    · exact ⟨inv_dropReply (inv_detach h _ _) _ _, by rw [dropReply_frame, detach_frame]⟩
    · exact ⟨inv_detach h _ _, detach_frame _ _⟩

theorem inv_clear (h : Inv m) : Inv (m.procIpcClear p) := by
  have hloop : ∀ is : List ℕ, ∀ m : Machine, Inv m → Inv (is.foldl (Machine.clearStep p) m) ∧
      (is.foldl (Machine.clearStep p) m).server = m.server := by
    intro is
    induction is with
    | nil => exact fun m h => ⟨h, rfl⟩
    | cons i is ih =>
      intro m h
      obtain ⟨h1, h2⟩ := inv_clearStep (p := p) h i
      obtain ⟨h3, h4⟩ := ih _ h1
      exact ⟨h3, h4.trans h2⟩
  obtain ⟨h1, h2⟩ := hloop (List.range ipcCtxMax) m h
  refine inv_release h1 _ ?_
  rw [h2]
  exact IpcServer.shrunk_clear (h.sound p)

theorem inv_end (h : Inv m) (pid : ℤ) : Inv (m.procIpcEnd pid) := by
  unfold Machine.procIpcEnd
  split
  · exact h
  · rename_i p hp
    simp only
    split
    · exact h
    split
    · split
      · exact h
      · rename_i slot hslot
        have hset : Inv (m.setTask pid { m.task pid with ipcTask := none }) :=
          inv_setTask h rfl rfl fun _ hs => by cases hs
        refine inv_release hset _ ?_
        refine shrunk_of_cases (h.sound p) ?_
          (IpcServer.finish_cases (h.sound p) (h.slot pid slot hslot) pid (m.task pid).uuid)
        unfold IpcServer.procIpcFinishTask
        simp only
        split <;> rfl
    · rename_i hm
      split
      · exact h
      · rename_i slot hslot
        have hlt := head_lt (h.sound p) (by simpa using hm) hslot
        exact inv_release h _ (shrunk_close (h.sound p) hlt)

/-- A slot taken and given back at once leaves the server as it was. -/
theorem same_taken_close {slot : ℕ} {t : IpcTask} {sv' : IpcServer} (hs : sv.Sound)
    (h : sv.Taken slot t sv') (hm : sv'.multiTask = true) (hu : t.uid ≠ 0)
    (hhead : sv'.taskHead = sv.taskHead) (htail : sv'.taskTail = sv.taskTail) :
    sv.Same (sv'.procIpcClose slot) := by
  have huid : (sv'.tasks slot).uid ≠ 0 := by
    rw [h.tasks, Function.update_self]
    exact hu
  have hempty : (sv.tasks slot).uid = 0 := by
    have := (hs.uid slot h.lt).not.mp (by simp [h.empty])
    simpa using this
  have hidle : (sv.tasks slot).state = .idle := by simpa [IpcTask.occupied] using h.empty
  simp only [IpcServer.procIpcClose, hm, if_true, if_pos huid]
  refine ⟨h.mode, hhead, htail, ?_, ?_, ?_⟩
  · have hn := h.num
    simp only [IpcServer.freeSlot]
    split <;> omega
  · intro i
    simp only [IpcServer.freeSlot, IpcServer.setTask, h.tasks, Function.update_apply]
    split
    · rename_i hi
      rw [hi, hempty]
      rfl
    · rfl
  · intro i
    simp only [IpcServer.freeSlot, IpcServer.setTask, h.tasks, Function.update_apply]
    split
    · rename_i hi
      rw [hi, hidle]
      rfl
    · rfl

/-- What else `proc_ipc_req` leaves alone. -/
theorem req_frame {slot : ℕ} {t : IpcTask} {sv' : IpcServer}
    (h : sv.procIpcReq t = some (slot, sv')) : sv.ipcTaskqIsFull = false ∧ sv'.entry = sv.entry ∧
      (sv.multiTask = true → sv'.taskHead = sv.taskHead ∧ sv'.taskTail = sv.taskTail) := by
  unfold IpcServer.procIpcReq at h
  split at h
  · cases h
  · rename_i hf
    split at h
    · cases h
    · simp only [Option.some.injEq, Prod.mk.injEq] at h
      obtain ⟨rfl, rfl⟩ := h
      refine ⟨by simpa using hf, ?_, ?_⟩
      · unfold IpcServer.ipcTaskqPushTail
        split_ifs <;> rfl
      · intro hm
        rw [if_pos hm]
        exact ⟨rfl, rfl⟩

theorem callTarget_ok {client servPid : ℤ} {arg : UserProto} {cap : Bool}
    (h : m.callTarget client servPid arg cap = .ok p) :
    m.procGetProc servPid = some p ∧ (m.server p).entry ≠ 0 := by
  unfold Machine.callTarget at h
  split at h
  · cases h
  split at h
  · cases h
  rename_i q hq
  simp only at h
  split_ifs at h with h1 h2
  cases h
  exact ⟨hq, h2⟩

theorem procGetProc_spec {q : ℤ} (h : m.procGetProc q = some p) :
    (m.task p).alive = true ∧ (m.task p).type = .proc := by
  unfold Machine.procGetProc at h
  simp only at h
  split at h
  · cases h
  rename_i ha
  split at h
  · rename_i ht
    cases h
    exact ⟨by simpa using ha, ht⟩
  · split at h
    · rename_i hb
      cases h
      simpa using hb
    · cases h

theorem Inv.configured_of_entry (h : Inv m) (he : (m.server p).entry ≠ 0) :
    m.configured p = true := by
  cases hc : m.configured p with
  | true => rfl
  | false => exact absurd (h.blank p hc).2.2.2 he

theorem inv_call (h : Inv m) {client servPid : ℤ} {callId : BitVec 32} {arg : UserProto}
    {cap : Bool} {pick : Option ℤ}
    (hok : CallsFresh m (.call client servPid callId arg cap pick)) :
    Inv (m.procIpcCall client servPid callId arg cap pick).2 := by
  unfold Machine.procIpcCall
  split
  · exact h
  rename_i p htgt
  obtain ⟨hget, hentry⟩ := callTarget_ok htgt
  obtain ⟨hpa, hpt⟩ := procGetProc_spec hget
  have hcfg := h.configured_of_entry hentry
  split
  · exact h
  rename_i slot sv hreq
  obtain ⟨hfull, hsve, hends⟩ := req_frame hreq
  have hfresh := hok p htgt hfull
  have htaken := IpcServer.taken_of_req (h.sound p) hreq
  have hs' : (m.grabbed client p sv).server p = sv := by simp [Machine.grabbed, Machine.setServer,
    Machine.setTask]
  simp only
  split
  · rename_i hm
    obtain ⟨hhead, htail⟩ := hends (htaken.mode ▸ hm)
    split
    · -- a worker is bound: the request sits in its slot with the handler filled in
      rename_i w hw
      have hbound : (m.server p).Taken slot
          { m.requestOf client callId arg with
            handlerPid := w, handlerUuid := ((m.grabbed client p sv).task w).uuid }
          (sv.bind slot w ((m.grabbed client p sv).task w).uuid) := by
        refine ⟨htaken.lt, htaken.empty, ?_, htaken.num, htaken.room, htaken.mode, htaken.ring⟩
        simp only [IpcServer.bind, IpcServer.setTask, htaken.tasks, Function.update_self,
          Function.update_idem]
      have hadm : Inv { m with
          server := Function.update m.server p
            (sv.bind slot w ((m.grabbed client p sv).task w).uuid),
          led := m.led.enroll (p, slot), ipcUid := m.nextUid } :=
        inv_enroll h hpa hpt hcfg hbound rfl rfl hfresh rfl rfl rfl rfl
      have hres := inv_setRes hadm client (m.task client).inHandler
        { (m.task client).clientRes (m.task client).inHandler with state := .busy }
      have hset := inv_setTask hres (q := w) (t := { (m.grabbed client p sv).task w with
        ipcTask := some slot }) rfl rfl (fun s hs => by cases hs; exact htaken.lt)
      simpa [Machine.bind, hs', Machine.grabbed, Machine.setServer, Machine.setTask] using hset
    · -- no worker: the slot is given back
      have hsame := same_taken_close (h.sound p) htaken hm hfresh.1 hhead htail
      have hback := inv_setServer h hsame ((close_entry sv slot).trans hsve)
      have hres := inv_setRes hback client (m.task client).inHandler
        { (m.task client).clientRes (m.task client).inHandler with state := .busy }
      refine inv_task hres ?_ rfl rfl (fun _ _ ha ht => ⟨ha, ht⟩) hres.slot
      simp [Machine.grabbed, Machine.setServer, Machine.setTask]
  · rename_i hm
    have hadm : Inv { m with
        server := Function.update m.server p sv, led := m.led.enroll (p, slot),
        ipcUid := m.nextUid } :=
      inv_enroll h hpa hpt hcfg htaken rfl rfl hfresh rfl rfl rfl rfl
    exact inv_setRes hadm client (m.task client).inHandler
      { (m.task client).clientRes (m.task client).inHandler with state := .busy }

theorem inv_killThreads (h : Inv m) : Inv (m.killThreads p) := by
  refine inv_task h rfl rfl rfl ?_ ?_
  · intro q _ ha ht
    simp [Machine.killThreads, ht, ha]
  · intro q s hs
    simp only [Machine.killThreads] at hs
    split at hs
    · cases hs
    · exact h.slot q s hs

/-- After `proc_ipc_clear` the server has no request, so the process may go. -/
theorem clear_vacant (h : Inv m) {i : ℕ} (hi : i < ipcCtxMax) :
    (((m.procIpcClear p).server p).tasks i).occupied = false := by
  simp only [Machine.procIpcClear, release_server, if_true]
  exact (IpcServer.clear_empty (h.sound p) hi).1

/-- A task with no request at its own server dies. -/
theorem inv_die (h : Inv m) {q : ℤ} (hno : ∀ i < ipcCtxMax, ((m.server q).tasks i).occupied = false) :
    Inv (m.setTask q { m.task q with alive := false, uuid := 0, ipcTask := none }) := by
  refine inv_task h rfl rfl rfl ?_ ?_
  · rintro r ⟨i, hi, ho⟩ ha ht
    have hrq : r ≠ q := by
      rintro rfl
      rw [hno i hi] at ho
      cases ho
    simp [Machine.setTask, hrq, ha, ht]
  · intro r s hs
    rcases eq_or_ne r q with rfl | hne
    · simp [Machine.setTask] at hs
    · exact h.slot r s (by simpa [Machine.setTask, hne] using hs)

theorem vacant_of_not_proc (h : Inv m) {q : ℤ}
    (hq : ¬((m.task q).alive = true ∧ (m.task q).type = .proc)) :
    ∀ i < ipcCtxMax, ((m.server q).tasks i).occupied = false := by
  intro i hi
  by_contra ho
  exact hq (h.live q i hi (by simpa using ho))

theorem setTask_type_eq {q r : ℤ} {t : Task} (h : t.type = (m.task q).type) :
    ((m.setTask q t).task r).type = (m.task r).type := by
  rcases eq_or_ne r q with rfl | hne <;> simp [Machine.setTask, *]

/-- No task changes its type while a request is aborted. -/
theorem abort_type (slot : ℕ) (q : ℤ) :
    ((m.procIpcTaskAbort p slot).task q).type = (m.task q).type := by
  have hdrop : ∀ (m : Machine) t d, ((m.dropReply t d).task q).type = (m.task q).type := by
    intro m t d
    unfold Machine.dropReply
    split
    · rfl
    · simp only
      split
      · exact setTask_type_eq (setClientRes_frame _ _ _).2.1
      · rfl
  have hdet : ∀ t, ((m.detach p slot t).task q).type = (m.task q).type := by
    intro t
    unfold Machine.detach
    simp only
    split
    · exact setTask_type_eq rfl
    · rfl
  unfold Machine.procIpcTaskAbort
  simp only
  split
  · simp only [Machine.release, Machine.setServer, hdrop, hdet]
  · rfl

theorem inv_terminate (h : Inv m) (pid : ℤ) : Inv (m.procTerminate pid) := by
  unfold Machine.procTerminate
  cases ht : (m.task pid).type with
  | proc =>
    have hk := inv_killThreads (p := pid) h
    exact inv_die (inv_clear hk) fun i hi => clear_vacant hk hi
  | thread =>
    simp only
    split
    · rename_i slot q hslot hq
      have ha := inv_abort (p := q) h (h.slot pid slot hslot)
      refine inv_die ha (vacant_of_not_proc ha ?_)
      rw [abort_type, ht]
      simp
    · exact inv_die h (vacant_of_not_proc h (by simp [ht]))

theorem inv_create (h : Inv m) {pid owner : ℤ} (type : TaskType) (uuid : ℕ)
    (hdead : (m.task pid).alive = false) : Inv (m.create pid type owner uuid) := by
  have hno := vacant_of_not_proc h (q := pid) (by simp [hdead])
  have hslot : ∀ t : Task, t.ipcTask = none → ∀ q s, (Function.update m.task pid t q).ipcTask = some s →
      s < ipcCtxMax := by
    intro t ht q s hs
    rcases eq_or_ne q pid with rfl | hne
    · simp [ht] at hs
    · exact h.slot q s (by simpa [hne] using hs)
  have hlive : ∀ t : Task, ∀ q, (∃ i < ipcCtxMax, ((m.server q).tasks i).occupied = true) →
      (Function.update m.task pid t q) = m.task q := by
    rintro t q ⟨i, hi, ho⟩
    have hne : q ≠ pid := by
      rintro rfl
      rw [hno i hi] at ho
      cases ho
    simp [hne]
  cases type with
  | thread =>
    refine inv_task h rfl rfl rfl ?_ (hslot _ rfl)
    intro q hq ha ht
    simp only [Machine.create, Machine.setTask, hlive _ q hq]
    exact ⟨ha, ht⟩
  | proc =>
    have hheld : ∀ i, m.led.held (pid, i) = none := by
      intro i
      have := (h.held pid i).not.mpr fun ⟨hi, ho⟩ => by
        rw [hno i hi] at ho
        cases ho
      simpa using this
    have hsrv : ∀ q, ((m.create pid .proc owner uuid).server q) =
        if q = pid then .zero else m.server q := by
      intro q
      simp [Machine.create, Machine.setServer, Machine.setTask, Function.update_apply]
    have hzero : ∀ i, (IpcServer.zero.tasks i).occupied = false := fun _ => rfl
    have hocc : ∀ q i, (((m.create pid .proc owner uuid).server q).tasks i).occupied = true →
        q ≠ pid ∧ (m.create pid .proc owner uuid).server q = m.server q := by
      intro q i ho
      rw [hsrv] at ho ⊢
      split at ho
      · rw [hzero] at ho
        cases ho
      · rename_i hq
        exact ⟨hq, by simp [hq]⟩
    refine ⟨?_, ?_, ?_, hslot _ rfl, ?_, h.led, ?_, ?_⟩
    · intro q
      rw [hsrv]
      split
      · exact IpcServer.sound_zero
      · exact h.sound q
    · intro q hq
      rw [hsrv]
      split
      · exact ⟨rfl, rfl, rfl, rfl⟩
      · rename_i hne
        exact h.blank q (by simpa [Machine.create, hne] using hq)
    · intro q i hi ho
      obtain ⟨hne, hq⟩ := hocc q i ho
      rw [hq] at ho
      simpa [Machine.create, Machine.setServer, Machine.setTask, hne] using h.live q i hi ho
    · intro q r i hi j hj ho ho' hu
      obtain ⟨-, hq⟩ := hocc q i ho
      obtain ⟨-, hr⟩ := hocc r j ho'
      rw [hq] at ho hu
      rw [hr] at ho' hu
      exact h.uniq q r i hi j hj ho ho' hu
    · intro q i
      show (m.led.held (q, i)).isSome = true ↔ _
      rw [hsrv]
      rcases eq_or_ne q pid with rfl | hne
      · simpa [hzero] using hheld i
      · simpa [hne] using h.held q i
    · intro q hm k l hkl hl
      rw [hsrv] at hm hl ⊢
      rcases eq_or_ne q pid with rfl | hne
      · simp [IpcServer.zero] at hl
      · simp only [hne, if_false] at hm hl ⊢
        exact h.order q hm k l hkl hl

theorem inv_setup (h : Inv m) (hc : m.configured p = false) (entry extraData : ℕ)
    (flags : BitVec 32) :
    Inv { m.setServer p ((m.server p).procIpcSetup entry extraData flags) with
          configured := Function.update m.configured p true } := by
  obtain ⟨hn, hh, ht, -⟩ := h.blank p hc
  have hvac : ∀ i < ipcCtxMax, ((m.server p).tasks i).occupied = false := fun i hi =>
    (h.sound p).empty hn hi
  have hsound : ((m.server p).procIpcSetup entry extraData flags).Sound := by
    refine IpcServer.sound_of_empty (fun i hi => ⟨hvac i hi, ?_⟩) hn hh ht
    have hu := ((h.sound p).uid i hi).not.mp (by simp [hvac i hi])
    exact not_not.mp hu
  have hsrv : ∀ q i, (Function.update m.server p ((m.server p).procIpcSetup entry extraData flags) q).tasks i
      = (m.server q).tasks i := by
    intro q i
    rcases eq_or_ne q p with rfl | hne <;> simp [IpcServer.procIpcSetup, *]
  refine ⟨?_, ?_, ?_, h.slot, ?_, h.led, ?_, ?_⟩
  · intro q
    simp only [Machine.setServer, Function.update_apply]
    split
    · exact hsound
    · exact h.sound q
  · intro q hq
    have hne : q ≠ p := by
      rintro rfl
      simp at hq
    simp only [Machine.setServer, Function.update_of_ne hne] at hq ⊢
    exact h.blank q hq
  · intro q i hi ho
    exact h.live q i hi (by simpa only [Machine.setServer, hsrv] using ho)
  · intro q r i hi j hj ho ho' hu
    simp only [Machine.setServer, hsrv] at ho ho' hu
    exact h.uniq q r i hi j hj ho ho' hu
  · intro q i
    simp only [Machine.setServer, hsrv]
    exact h.held q i
  · intro q hm k l hkl hl
    simp only [Machine.setServer, Function.update_apply] at hm hl ⊢
    rcases eq_or_ne q p with rfl | hne
    · simp [IpcServer.procIpcSetup, hn] at hl
    · simp only [hne, if_false] at hm hl ⊢
      exact h.order q hm k l hkl hl

theorem inv_setReturn (h : Inv m) (pid : ℤ) (uid : ℕ) (data : UserProto) :
    Inv (m.procIpcSetReturn pid uid data) := by
  unfold Machine.procIpcSetReturn
  split
  · exact h
  split
  · exact h
  · simp only
    split
    · exact h
    split
    · exact h
    · exact inv_setRes h _ _ _

theorem inv_getReturn (h : Inv m) (pid servPid : ℤ) (uid : ℕ) (ok : Bool) (room : Option ℕ) :
    Inv (m.procIpcGetReturn pid servPid uid ok room).2.2 := by
  unfold Machine.procIpcGetReturn
  simp only
  split
  · exact h
  split
  · split
    · exact h
    · split_ifs <;> exact h
  split
  · exact h
  split
  · exact h
  · exact inv_setRes h _ _ _

theorem getArg_machine (pid : ℤ) (uid : ℕ) (ok : Bool) (room : Option ℕ) :
    (m.procIpcGetArg pid uid ok room).2.2.2 = m := by
  unfold Machine.procIpcGetArg
  split
  · rfl
  split
  · rfl
  · simp only
    split
    · rfl
    · split <;> rfl

/-- Every step that meets the condition keeps the invariant. -/
theorem inv_step {o : Op} (h : Inv m) (hok : CallsFresh m o) (hst : step m o = some m') : Inv m' := by
  cases o with
  | create pid type owner uuid =>
    simp only [step, Option.ite_none_right_eq_some, Option.some.injEq] at hst
    obtain ⟨⟨hdead, -⟩, rfl⟩ := hst
    exact inv_create h type uuid hdead
  | terminate pid =>
    simp only [step, Option.ite_none_right_eq_some, Option.some.injEq] at hst
    exact hst.2 ▸ inv_terminate h pid
  | interrupt pid state =>
    simp only [step, Option.ite_none_right_eq_some, Option.some.injEq] at hst
    exact hst.2 ▸ inv_setTask h rfl rfl fun s hs => h.slot pid s hs
  | setup pid entry extraData flags =>
    obtain ⟨p, -, hst⟩ := Option.bind_eq_some_iff.mp hst
    simp only [Option.ite_none_left_eq_some, Option.some.injEq] at hst
    exact hst.2 ▸ inv_setup h (by simpa using hst.1) entry extraData flags
  | call pid servPid callId arg cap pick =>
    simp only [step, Option.ite_none_right_eq_some, Option.some.injEq] at hst
    exact hst.2 ▸ inv_call h hok
  | getArg pid uid ok room =>
    simp only [step, getArg_machine, Option.ite_none_right_eq_some, Option.some.injEq] at hst
    exact hst.2 ▸ h
  | setReturn pid uid data =>
    simp only [step, Option.ite_none_right_eq_some, Option.some.injEq] at hst
    exact hst.2 ▸ inv_setReturn h pid uid data
  | getReturn pid servPid uid ok room =>
    simp only [step, Option.ite_none_right_eq_some, Option.some.injEq] at hst
    exact hst.2 ▸ inv_getReturn h pid servPid uid ok room
  | finish pid =>
    simp only [step, Option.ite_none_right_eq_some, Option.some.injEq] at hst
    exact hst.2 ▸ inv_end h pid
  | disable pid =>
    obtain ⟨p, -, rfl⟩ := Option.map_eq_some_iff.mp hst
    split
    · exact h
    · exact inv_setServer h ⟨rfl, rfl, rfl, rfl, fun _ => rfl, fun _ => rfl⟩ rfl
  | enable pid =>
    obtain ⟨p, -, rfl⟩ := Option.map_eq_some_iff.mp hst
    exact inv_setServer h ⟨rfl, rfl, rfl, rfl, fun _ => rfl, fun _ => rfl⟩ rfl
  | abort servPid slot =>
    simp only [step, Option.ite_none_right_eq_some, Option.some.injEq] at hst
    exact hst.2 ▸ inv_abort h hst.1.2
  | timeout servPid =>
    simp only [step, Option.ite_none_right_eq_some, Option.some.injEq] at hst
    exact hst.2 ▸ inv_timeout h hst.1.2

/-- In every run in which each accepted call finds a fresh number, the slots of every server are
    conserved and identified. -/
theorem slots_conserved (h : Reach step CallsFresh boot m) : SlotsConserved m :=
  (h.inv inv_boot fun _ _ _ hi hok hst => inv_step hi hok hst).conserved

/-! ### A server and a client

    Process 2 is a single-task server, process 1 calls it and is answered, over and over. Each round
    leaves the server as it was and the request counter one further. -/

def serviceRecord : IpcServer := IpcServer.zero.procIpcSetup 1 0 0

/-- The state between two rounds, with the counter at `n`. -/
structure Between (n : ℕ) (m : Machine) : Prop where
  uid : m.ipcUid = n
  server : m.server 2 = serviceRecord
  client : (m.task 1).alive = true ∧ (m.task 1).owner = 1
  serving : (m.task 2).alive = true ∧ (m.task 2).type = .proc ∧ (m.task 2).intr = .idle

def askOp : Op := .call 1 2 0 ⟨true, none⟩ true none

/-- The record while the one request, with number `u`, is being served. -/
def asked (t : IpcTask) : IpcServer :=
  { serviceRecord with tasks := Function.update serviceRecord.tasks 0 t, taskTail := 1, taskNum := 1 }

theorem callTarget_between {n : ℕ} (h : Between n m) :
    m.callTarget 1 2 ⟨true, none⟩ true = .ok 2 := by
  have hget : m.procGetProc 2 = some 2 := by
    simp [Machine.procGetProc, h.serving.1, h.serving.2.1]
  have hentry : serviceRecord.entry ≠ 0 := by decide
  simp only [Machine.callTarget, Bool.not_true, Bool.false_eq_true, if_false, hget, h.server]
  rw [if_neg (by decide), if_neg hentry, if_neg (by rw [h.client.2]; decide), if_neg (by decide),
    if_neg (by decide), if_neg]
  simp [h.serving.2.2]

theorem req_serviceRecord (t : IpcTask) : serviceRecord.procIpcReq t = some (0, asked t) := rfl

/-- The state the call of a round ends in. -/
def askedState (m : Machine) : Machine :=
  let m' := m.grabbed 1 2 (asked (m.requestOf 1 0 ⟨true, none⟩))
  { m' with led := m'.led.enroll (2, 0) }

theorem step_ask {n : ℕ} (h : Between n m) : step m askOp = some (askedState m) := by
  simp only [step, askOp, h.client.1, if_true, Machine.procIpcCall, callTarget_between h, h.server,
    req_serviceRecord]
  rfl

theorem close_asked (t : IpcTask) : (asked t).procIpcClose 0 = serviceRecord := by
  have htasks : Function.update (Function.update serviceRecord.tasks 0 t) 0 ipcTaskReset
      = serviceRecord.tasks := by
    rw [Function.update_idem]
    exact Function.update_eq_self 0 serviceRecord.tasks
  simp [IpcServer.procIpcClose, asked, serviceRecord, IpcServer.procIpcSetup, IpcServer.zero,
    IpcServer.ipcTaskqIsHeadSlot, IpcServer.ipcTaskqIsEmpty, IpcServer.ipcTaskqPopHead,
    IpcServer.setTask, ipcMultiTask, ipcMultiCore] at htasks ⊢

theorem askedState_server : (askedState m).server 2 = asked (m.requestOf 1 0 ⟨true, none⟩) := by
  simp [askedState, Machine.grabbed, Machine.setServer, Machine.setTask]

theorem askedState_task (q : ℤ) : ((askedState m).task q).alive = (m.task q).alive ∧
    ((askedState m).task q).type = (m.task q).type ∧
    ((askedState m).task q).intr = (m.task q).intr ∧
    ((askedState m).task q).owner = (m.task q).owner := by
  rcases eq_or_ne q 1 with rfl | hne
  · simp only [askedState, Machine.grabbed, Machine.setServer, Machine.setTask,
      Function.update_self]
    cases (m.task 1).inHandler <;> exact ⟨rfl, rfl, rfl, rfl⟩
  · simp [askedState, Machine.grabbed, Machine.setServer, Machine.setTask, hne]

/-- One round: ask, be answered. -/
theorem between_round {n : ℕ} (h : Between n m) :
    ∃ m', Reach step Free m m' ∧ Between ((n + 1) % uidMod) m' := by
  have hget : (askedState m).procGetProc 2 = some 2 := by
    simp [Machine.procGetProc, askedState_task, h.serving]
  have hfin : step (askedState m) (.finish 2) =
      some ((askedState m).release .ended 2 serviceRecord) := by
    have hal : ((askedState m).task 2).alive = true := by rw [(askedState_task 2).1, h.serving.1]
    simp only [step, hal, if_true, Machine.procIpcEnd, hget, askedState_server]
    rw [if_neg (by simp [asked, serviceRecord, IpcServer.procIpcSetup]),
      if_neg (by simp [asked, serviceRecord, IpcServer.procIpcSetup, ipcMultiTask, ipcMultiCore])]
    have hhead : (asked (m.requestOf 1 0 ⟨true, none⟩)).ipcTaskqHead = some 0 := rfl
    simp only [hhead, close_asked]
  refine ⟨_, .next (.next .start trivial (step_ask h)) trivial hfin, ?_⟩
  refine ⟨?_, ?_, ?_, ?_⟩
  · show m.nextUid = _
    rw [Machine.nextUid, h.uid]
  · simp [release_server]
  · exact ⟨(askedState_task 1).1.trans h.client.1, (askedState_task 1).2.2.2.trans h.client.2⟩
  · obtain ⟨h1, h2, h3, -⟩ := askedState_task (m := m) 2
    exact ⟨h1.trans h.serving.1, h2.trans h.serving.2.1, h3.trans h.serving.2.2⟩

def serviceUp : List Op := [.create 1 .proc 1 1, .create 2 .proc 2 2, .setup 2 1 0 0]

/-- The service comes up without a call, and without a request in flight. -/
theorem service_up : ∃ m, Reach step CallsFresh boot m ∧ Between 0 m ∧
    ∀ p i, ((m.server p).tasks i).occupied = false := by
  let quiet : Machine → Op → Bool := fun _ o => match o with
    | .call .. => false
    | _ => true
  have hquiet : ∀ m o, quiet m o = true → CallsFresh m o := by
    rintro m (_ | _) <;> simp [quiet, CallsFresh]
  have hrun : (Schemes.runIf step quiet boot serviceUp).isSome = true := by decide +kernel
  obtain ⟨m, hm⟩ := Option.isSome_iff_exists.mp hrun
  refine ⟨m, Schemes.reach_of_runIf hm hquiet, ?_⟩
  simp only [serviceUp, Schemes.runIf, step, boot, Machine.create, Task.dead, Machine.setTask,
    Machine.setServer, Machine.procGetProc, quiet] at hm
  simp at hm
  subst hm
  refine ⟨⟨rfl, by simp [serviceRecord], by simp, by simp⟩, ?_⟩
  intro p i
  rcases eq_or_ne p 2 with rfl | hne
  · rfl
  · rcases eq_or_ne p 1 with rfl | hne'
    · rfl
    · simp only [Function.update_of_ne hne]
      rfl

theorem between_rounds (n : ℕ) (hn : n < uidMod) : ∃ m, Reach step Free boot m ∧ Between n m := by
  induction n with
  | zero =>
    obtain ⟨m, hm, hb, -⟩ := service_up
    exact ⟨m, hm.mono fun _ _ _ => trivial, hb⟩
  | succ n ih =>
    obtain ⟨m, hm, hb⟩ := ih (by omega)
    obtain ⟨m', hm', hb'⟩ := between_round hb
    exact ⟨m', hm.trans hm', by rwa [Nat.mod_eq_of_lt hn] at hb'⟩

/-- The first call of the service is such a run. -/
theorem slots_conserved_firstCall : ∃ m, Reach step CallsFresh boot m ∧
    (m.server 2).taskNum = 1 ∧ SlotsConserved m := by
  obtain ⟨m, hm, hb, hno⟩ := service_up
  have hfresh : CallsFresh m askOp := by
    rintro p - -
    refine ⟨by rw [Machine.nextUid, hb.uid]; decide, ?_⟩
    intro q i _ ho
    rw [hno] at ho
    cases ho
  have hr := Reach.next hm hfresh (step_ask hb)
  exact ⟨askedState m, hr, by rw [askedState_server]; rfl, slots_conserved hr⟩

/-- After 2^32 - 1 answered calls the counter wraps: the next request is accepted as number 0, the
    marker of an empty slot. -/
theorem wrapped_uid_not_conserved : ∃ m, Reach step Free boot m ∧ ¬SlotsConserved m := by
  obtain ⟨m, hm, hb⟩ := between_rounds (uidMod - 1) (by decide)
  refine ⟨askedState m, .next hm trivial (step_ask hb), fun hc => ?_⟩
  refine hc.uid_ne 2 0 (by decide) ?_ ?_
  · rw [askedState_server]
    rfl
  · rw [askedState_server]
    simp only [asked, Function.update_self, Machine.requestOf, IpcServer.request, Machine.nextUid,
      hb.uid]
    decide

end EwokOS.Kernel.Ipc
