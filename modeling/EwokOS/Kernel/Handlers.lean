import EwokOS.Kernel.Tame

/-! The three handlers that borrow a main context (`signal.c`, `interrupt.c`, `ipc.c`, and the
    watchdogs of `proc.c`), as the scheduler sees them.

        send:  save state -> arm the handler -> switch to it or queue it
        end:   restore state (queue untouched!) -> queue it again? -> schedule

    Every END path and both watchdogs restore the saved value of `info.state` without looking at
    the queue, and differ in when they queue the task afterwards. Which request is at the head of
    a server's ring, whom it answers and who waits in which queue is the matter of `Ipc` and
    `Interrupt`; here these answers are arguments, so every one of them is covered. -/

namespace EwokOS.Kernel.Tasks

def sigStop : ℤ := 0
def sigKill : ℤ := 1

/-- `READY` or `RUNNING`: what the END paths queue again. -/
def Saved.runs (sv : Saved) : Bool := sv.state = .ready ∨ sv.state = .running

/-- `proc_save_state`. -/
def Task.saved (t : Task) : Saved := ⟨t.state, t.sleepCounter⟩

namespace Sys
variable (cfg : Config) (k : Sys)

/-- `proc_restore_state`: the state comes back as it was saved, the queue does not change. -/
def restoreState (pid : ℤ) (sv : Saved) : Sys :=
  k.modTask pid fun t => { t with state := sv.state, sleepCounter := sv.sleepCounter }

/-! ### Signals -/

/-- `proc_signal_setup`. -/
def procSignalSetup (pid : ℤ) (entry : ℕ) : Sys :=
  match k.table pid with
  | none => k
  | some t => k.modSpace t.space fun s => { s with sigEntry := entry }

/-- `proc_signal_send`; a quick send switches over on core `core`, the other one only queues. -/
def procSignalSend (c : ℕ) (pid : ℤ) (sig : ℤ) (quick : Option ℕ) : Sys :=
  match k.table pid with
  | none => k
  | some t =>
    if (k.space t.space).sigEntry = 0 then k
    else
      let k' := k.modSpace t.space fun s =>
        { s with sigSaved := t.saved, sigNo := sig, sigSwitch := true }
      match quick with
      | some core => k'.procSwitchMultiCore cfg c pid core
      | none => k'.procReady cfg pid

/-- `proc_signal_end` by the current task: only the two deadly signals queue it again. -/
def procSignalEnd (c : ℕ) (pid : ℤ) : Sys :=
  match k.table pid with
  | none => k
  | some t =>
    let s := k.space t.space
    if s.sigEntry = 0 then k.schedule c
    else
      let k' := (k.modSpace t.space fun s => { s with sigSaved := .empty }).restoreState pid s.sigSaved
      if s.sigNo = sigStop ∨ s.sigNo = sigKill then (k'.procReady cfg pid).schedule c
      else k'.schedule c

/-! ### Interrupts -/

/-- `interrupt_send_raw` to the task its handler names, the sender running on core `core`. A busy
    handler takes nothing more. -/
def interruptSend (c : ℕ) (pid : ℤ) (core : ℕ) : Sys :=
  match k.procGet pid with
  | none => k
  | some t =>
    if (k.space t.space).intr = .idle then
      (k.modSpace t.space fun s => { s with intrSaved := t.saved, intr := .start }
        ).procSwitchMultiCore cfg c pid core
    else k

/-- The interrupted state comes back and the area is empty again. -/
def restoreIntr (pid : ℤ) (t : Task) : Sys :=
  (k.modSpace t.space fun s => { s with intr := .idle, intrSaved := .empty }).restoreState pid
    (k.space t.space).intrSaved

/-- `interrupt_end` by the current task: a pending interrupt starts the handler `again`. -/
def interruptEnd (c : ℕ) (pid : ℤ) (again : Bool) (waiters : List ℤ) : Sys :=
  match k.table pid with
  | none => k
  | some t =>
    let sv := (k.space t.space).intrSaved
    let k' := if sv.runs then (k.restoreIntr pid t).procReady cfg pid else k.restoreIntr pid t
    if again then
      (k'.modSpace t.space fun s =>
          { s with intrSaved := if sv.runs then { sv with state := .ready } else sv, intr := .start }
        ).procSwitchMultiCore cfg c pid t.core
    else (k'.wakeAll cfg waiters).schedule c

/-- `proc_resume_after_timeout`: an aborted service is never put back into a parked state. -/
def procResumeAfterTimeout (pid : ℤ) : Sys :=
  match k.table pid with
  | none => k
  | some t =>
    if t.state = .ready ∨ t.state = .running then k.procReady cfg pid
    else if t.state.parked then k.procWakeup cfg pid
    else k

/-- `proc_interrupt_timeout`, for a task the watchdog of `renew_interrupt_counter` aborts: a live
    one, not parked, whose handler is not idle. -/
def procInterruptTimeout (pid : ℤ) (waiters : List ℤ) : Sys :=
  match k.procGet pid with
  | none => k
  | some t =>
    if (k.space t.space).intr = .idle ∨ t.state.parked then k
    else ((k.restoreIntr pid t).procResumeAfterTimeout cfg pid).wakeAll cfg waiters

/-! ### IPC -/

/-- `proc_ipc_do_task`: a lazy request arms the dispatch without switching. -/
def procIpcDoTask (c : ℕ) (serv : ℤ) (lazy : Bool) (core : ℕ) : Sys :=
  match k.table serv with
  | none => k
  | some t =>
    let k' := k.modSpace t.space fun s => { s with ipcSaved := t.saved, ipcSwitch := true }
    if lazy then k' else k'.procSwitchMultiCore cfg c serv core

/-- The interrupted state of a server comes back and the area is empty again. -/
def restoreIpc (pid : ℤ) (t : Task) : Sys :=
  (k.modSpace t.space fun s => { s with ipcSaved := .empty }).restoreState pid
    (k.space t.space).ipcSaved

/-- What the ring of a server answers at the end of a request: the client to wake, the clients
    waiting for a slot, whether a next request follows (and whether that one is lazy), and whether
    the server favours throughput over a direct return. -/
structure Reply where
  client : Option ℤ
  waiters : List ℤ
  next : Option Bool
  throughput : Bool

/-- `proc_ipc_end` of a single-task server after its state is restored. -/
def ipcReturn (c : ℕ) (serv : ℤ) (core : ℕ) (r : Reply) : Sys :=
  let k₁ := k.wakeAll cfg r.waiters
  let k₂ := match r.client with
    | none => k₁
    | some client => k₁.procWakeup cfg client
  match r.client.bind k₂.procGet, r.next with
  | some t, none =>
    if r.throughput = false ∧ t.core = core then
      k₂.procSwitchMultiCore cfg c (r.client.getD 0) core
    else k₂.schedule c
  | _, some lazy => k₂.procIpcDoTask cfg c serv lazy core
  | none, none => k₂.schedule c

/-- `proc_ipc_end` for the server of the current task, a request being served: a blocked server is
    queued again, a sleeping or waiting one keeps its state. -/
def procIpcEnd (c : ℕ) (pid : ℤ) (r : Reply) : Sys :=
  match k.procGetProc cfg pid with
  | none => k
  | some serv =>
    match k.table serv with
    | none => k
    | some t =>
      let sv := (k.space t.space).ipcSaved
      let k' := if sv.runs ∨ sv.state = .block then (k.restoreIpc serv t).procReady cfg serv
        else k.restoreIpc serv t
      k'.ipcReturn cfg c serv t.core r

/-- The first half of `proc_ipc_timeout`: the service is dropped and the server resumes. -/
def ipcAbort (serv : ℤ) (t : Task) : Sys :=
  ((k.modSpace t.space fun s => { s with ipcSwitch := false }).restoreIpc serv t
    ).procResumeAfterTimeout cfg serv

/-- Its second half, when a next request is queued: the dispatch is armed again. -/
def ipcServeNext (serv : ℤ) : Sys :=
  match k.table serv with
  | none => k
  | some t =>
    (k.modSpace t.space fun s => { s with ipcSaved := t.saved, ipcSwitch := true }
      ).procResumeAfterTimeout cfg serv

/-- `proc_ipc_timeout`, for a server the watchdog of `renew_ipc_counter` aborts: a live one, not
    parked, not in an interrupt handler. -/
def procIpcTimeout (serv : ℤ) (client : List ℤ) (waiters : List ℤ) (next : Bool) : Sys :=
  match k.procGet serv with
  | none => k
  | some t =>
    if (k.space t.space).intr = .working ∨ t.state.parked then k
    else
      let k' := ((k.ipcAbort cfg serv t).wakeAll cfg client).wakeAll cfg waiters
      if next then k'.ipcServeNext cfg serv else k'

/-- A request of a client on core `core` bound to a pool worker: `ipc_pool_assign` wakes it and
    `proc_ipc_call` hands the core over when the client is going to wait. -/
def ipcPoolDispatch (c : ℕ) (worker : ℤ) (core : ℕ) (handoff : Bool) : Sys :=
  match k.procGet worker with
  | none => k
  | some t =>
    let k' := k.procWakeup cfg worker
    if handoff ∧ t.core = core then k'.procSwitchMultiCore cfg c worker core else k'

/-- `proc_ipc_pool_park` up to the switch: straight back to the client when it can run here. -/
def procIpcPoolPark (c : ℕ) (worker : ℤ) (waiters : List ℤ) (client : Option ℤ) : Sys :=
  let k₁ := (k.modTask worker fun t =>
    { t with blockBy := 0, wakeBy := 0, wakePending := false }).procUnready worker .block
  let k₂ := k₁.wakeAll cfg waiters
  match client with
  | none => k₂.schedule c
  | some p =>
    let k₃ := k₂.procWakeup cfg p
    match k₃.table p with
    | none => k₃.schedule c
    | some t => if t.core = c ∧ t.state = .ready then k₃.procSwitch c p true else k₃.schedule c

end Sys

/-! ### What an END path may do

    A restored task may be dead (`UNUSED`, from an empty area) or ready without being queued. The
    first concerns who lives, the second only the queues. -/

/-- The tasks of `D` may have died, and the queues stay in order when `ok` holds. -/
structure Ends (D : Set ℤ) (ok : Prop) (k k' : Sys) : Prop extends Frame D k k' where
  queued : ok → ∀ S, Queued S k → Queued S k'

/-- The task that dies when `v` is restored to it, if any. -/
def deadIf (pid : ℤ) (v : Saved) : Set ℤ := {p | p = pid ∧ v.state.live = false}

namespace Ends
variable {D : Set ℤ} {ok ok' : Prop} {k k' k'' : Sys}

theorem of_tame (h : Tame k k') : Ends D ok k k' :=
  ⟨h.toFrame.mono (Set.empty_subset D), fun _ => h.queued⟩

theorem trans (h : Ends D ok k k') (h' : Tame k' k'') : Ends D ok k k'' :=
  ⟨h.toFrame.trans (h'.toFrame.mono (Set.empty_subset D)), fun hok S hS =>
    h'.queued S (h.queued hok S hS)⟩

/-- A tame start, then an END. -/
theorem after (h : Tame k k') (h' : Ends D ok' k' k'') (hok : ok → ok') : Ends D ok k k'' :=
  ⟨(h.toFrame.mono (Set.empty_subset D)).trans h'.toFrame, fun ho S hS =>
    h'.queued (hok ho) S (h.queued S hS)⟩

theorem weaken (h : Ends D ok k k') (hok : ok' → ok) : Ends D ok' k k' :=
  ⟨h.toFrame, fun h' => h.queued (hok h')⟩

end Ends

namespace Sys
variable {cfg : Config} {k : Sys} {pid : ℤ} {t : Task} {S : Set ℤ} {v : Saved}

/-- A task that dies by being restored is not queued. -/
def Parkable (k : Sys) (pid : ℤ) (v : Saved) : Prop :=
  v.state.live = false → ∀ t, k.table pid = some t → pid ∉ k.ready t.core

/-- A task that becomes ready by being restored is queued already. -/
def Enqueued (k : Sys) (pid : ℤ) (v : Saved) : Prop :=
  v.state = .ready → ∀ t, k.table pid = some t → pid ∈ k.ready t.core

theorem ends_restoreState (hp : k.Wakeable pid) :
    Ends (deadIf pid v) (k.Parkable pid v ∧ k.Enqueued pid v) k (k.restoreState pid v) := by
  refine ⟨⟨kin_modTask fun _ => rfl, rfl, ?_, ?_⟩, fun hok S => queued_modTask (fun _ => rfl) ?_ ?_⟩
  · rintro p hD ⟨u, hu, hul⟩
    rcases eq_or_ne p pid with rfl | hne
    · refine ⟨{ u with state := v.state, sleepCounter := v.sleepCounter }, ?_, ?_⟩
      · rw [restoreState, modTask_self, hu]
        rfl
      · by_contra hsv
        exact hD ⟨rfl, Bool.eq_false_of_not_eq_true hsv⟩
    · exact ⟨u, (modTask_ne hne).trans hu, hul⟩
  · rintro p ⟨u, hu, hul⟩
    rcases modTask_cases hu with ⟨rfl, t, ht, rfl⟩ | ⟨-, hu⟩
    · rcases hp t ht with hl | hr
      · exact .inl ⟨t, ht, hl⟩
      · exact .inr ⟨t.toKin, kin_of_table ht, hr⟩
    · exact .inl ⟨u, hu, hul⟩
  · intro t ht _ hm
    by_contra hsv
    exact hok.1 (Bool.eq_false_of_not_eq_true hsv) t ht hm
  · intro t ht hr
    exact .inr (.inr (hok.2 hr t ht))

/-- Restoring a task and then queueing it is queueing it with the restored sleep. -/
theorem procReadyWithOrder_restoreState {head : Bool} :
    (k.restoreState pid v).procReadyWithOrder cfg pid head =
      (k.modTask pid fun t => { t with sleepCounter := v.sleepCounter }).procReadyWithOrder
        cfg pid head := by
  cases ht : k.table pid with
  | none => simp [procReadyWithOrder, restoreState, ht, modTask]
  | some t => simp [procReadyWithOrder, restoreState, setState, setQueue, modTask, ht]

theorem tame_restore_ready {head : Bool} (hp : k.Wakeable pid) :
    Tame k ((k.restoreState pid v).procReadyWithOrder cfg pid head) := by
  have hset : Tame k (k.modTask pid fun t => { t with sleepCounter := v.sleepCounter }) :=
    tame_modTask (fun _ => rfl) (fun _ => rfl) fun _ => rfl
  rw [procReadyWithOrder_restoreState]
  exact hset.trans (tame_procReadyWithOrder head (hp.frame hset.toFrame))

theorem tame_procResumeAfterTimeout : Tame k (k.procResumeAfterTimeout cfg pid) := by
  unfold procResumeAfterTimeout
  split
  case h_1 => exact .refl k
  case h_2 t ht =>
    split_ifs with hr _
    · refine tame_procReadyWithOrder false (wakeable_of_live ht ?_)
      rcases hr with hr | hr <;>
      · rw [hr]
        rfl
    · exact tame_procWakeupBy 0
    · exact .refl k

/-- A watchdog restores a state and then makes the task runnable: only a dead one stays dead. -/
theorem ends_restore_resume (hp : k.Wakeable pid) :
    Ends (deadIf pid v) (k.Parkable pid v) k
      ((k.restoreState pid v).procResumeAfterTimeout cfg pid) := by
  cases ht : k.table pid with
  | none =>
    have hn : (k.restoreState pid v).table pid = none := by
      rw [restoreState, modTask_self, ht]
      rfl
    have hid : (k.restoreState pid v).procResumeAfterTimeout cfg pid = k.restoreState pid v := by
      simp only [procResumeAfterTimeout, hn]
    rw [hid]
    exact (ends_restoreState hp).weaken fun h => ⟨h, fun _ t h' => by rw [ht] at h'; cases h'⟩
  | some t =>
    have hres : (k.restoreState pid v).table pid =
        some { t with state := v.state, sleepCounter := v.sleepCounter } := by
      rw [restoreState, modTask_self, ht]
      rfl
    by_cases hruns : v.state = .ready ∨ v.state = .running
    · have hid : (k.restoreState pid v).procResumeAfterTimeout cfg pid =
          (k.restoreState pid v).procReady cfg pid := by
        simp only [procResumeAfterTimeout, hres, if_pos hruns]
      rw [hid]
      exact .of_tame (tame_restore_ready hp)
    · refine ((ends_restoreState hp).weaken fun h => ⟨h, fun h' => ?_⟩).trans
        tame_procResumeAfterTimeout
      exact absurd (.inl h') hruns

/-! ### Signals and interrupts -/

theorem tame_procSignalSetup {entry : ℕ} : Tame k (k.procSignalSetup pid entry) := by
  unfold procSignalSetup
  split
  · exact .refl k
  · exact tame_modSpace fun _ => rfl

theorem tame_procSignalSend {sig : ℤ} (c : ℕ) (quick : Option ℕ) (hp : k.Wakeable pid) :
    Tame k (k.procSignalSend cfg c pid sig quick) := by
  unfold procSignalSend
  split
  case h_1 => exact .refl k
  case h_2 t ht =>
    split_ifs
    · exact .refl k
    · have hset : Tame k (k.modSpace t.space fun s =>
          { s with sigSaved := t.saved, sigNo := sig, sigSwitch := true }) := tame_modSpace fun _ => rfl
      cases quick with
      | some core => exact hset.trans (tame_procSwitchMultiCore c core (hp.frame hset.toFrame))
      | none => exact hset.trans (tame_procReadyWithOrder false (hp.frame hset.toFrame))

/-- The signal that ends is one of the two that queue the task again. -/
def Deadly (k : Sys) (t : Task) : Prop :=
  (k.space t.space).sigNo = sigStop ∨ (k.space t.space).sigNo = sigKill

theorem ends_procSignalEnd (c : ℕ) (ht : k.table pid = some t) (hl : t.state.live = true) :
    Ends (deadIf pid (k.space t.space).sigSaved)
      ((k.space t.space).sigEntry = 0 ∨ k.Deadly t ∨
        k.Parkable pid (k.space t.space).sigSaved ∧ k.Enqueued pid (k.space t.space).sigSaved)
      k (k.procSignalEnd cfg c pid) := by
  have hset : Tame k (k.modSpace t.space fun s => { s with sigSaved := .empty }) :=
    tame_modSpace fun _ => rfl
  have hp := (wakeable_of_live ht hl).frame hset.toFrame
  simp only [procSignalEnd, ht]
  split_ifs with he hd
  · exact .of_tame (tame_schedule c)
  · exact .of_tame ((hset.trans (tame_restore_ready hp)).trans (tame_schedule c))
  · exact (Ends.after hset (ends_restoreState hp) fun hok =>
      (hok.resolve_left he).resolve_left hd).trans (tame_schedule c)

theorem tame_interruptSend (c core : ℕ) : Tame k (k.interruptSend cfg c pid core) := by
  unfold interruptSend
  split
  case h_1 => exact .refl k
  case h_2 t ht =>
    obtain ⟨ht, hl⟩ := procGet_eq_some.mp ht
    split_ifs
    · have hset : Tame k (k.modSpace t.space fun s =>
          { s with intrSaved := t.saved, intr := .start }) := tame_modSpace fun _ => rfl
      exact hset.trans (tame_procSwitchMultiCore c core ((wakeable_of_live ht hl).frame hset.toFrame))
    · exact .refl k

theorem ends_interruptEnd (c : ℕ) {again : Bool} {waiters : List ℤ} (ht : k.table pid = some t)
    (hl : t.state.live = true)
    (hagain : again = true → (k.space t.space).intrSaved.state.live = true) :
    Ends (deadIf pid (k.space t.space).intrSaved) (k.Parkable pid (k.space t.space).intrSaved) k
      (k.interruptEnd cfg c pid again waiters) := by
  have hset : Tame k (k.modSpace t.space fun s => { s with intr := .idle, intrSaved := .empty }) :=
    tame_modSpace fun _ => rfl
  have hp := (wakeable_of_live ht hl).frame hset.toFrame
  simp only [interruptEnd, ht]
  generalize hsv : (k.space t.space).intrSaved = v at hagain ⊢
  generalize hk' : (if v.runs then (k.restoreIntr pid t).procReady cfg pid
    else k.restoreIntr pid t) = k'
  have hk : Ends (deadIf pid v) (k.Parkable pid v) k k' := by
    rw [← hk', restoreIntr, hsv]
    split_ifs with hruns
    · exact .of_tame (hset.trans (tame_restore_ready hp))
    · refine .after hset (ends_restoreState hp) fun hok => ⟨hok, fun hr => ?_⟩
      simp [Saved.runs, hr] at hruns
  cases again with
  | false => exact (hk.trans (tame_wakeAll waiters)).trans (tame_schedule c)
  | true =>
    -- a handler that starts again runs in a live task
    have hnot : pid ∉ deadIf pid v := fun h => by
      rw [deadIf, Set.mem_ofPred_eq, hagain rfl] at h
      cases h.2
    obtain ⟨u, hu, hul⟩ := hk.live pid hnot ⟨t, ht, hl⟩
    have hstart : ∀ f : Space → Space, (∀ s, (f s).refs = s.refs) →
        Tame k' ((k'.modSpace t.space f).procSwitchMultiCore cfg c pid t.core) := fun f hf =>
      (tame_modSpace hf).trans (tame_procSwitchMultiCore c t.core
        ((wakeable_of_live hu hul).frame (tame_modSpace hf).toFrame))
    exact hk.trans (hstart _ fun _ => rfl)

theorem ends_procInterruptTimeout {waiters : List ℤ} (ht : k.table pid = some t) :
    Ends (deadIf pid (k.space t.space).intrSaved) (k.Parkable pid (k.space t.space).intrSaved) k
      (k.procInterruptTimeout cfg pid waiters) := by
  unfold procInterruptTimeout
  split
  case h_1 => exact .of_tame (.refl k)
  case h_2 u hu =>
    obtain ⟨hu, hl⟩ := procGet_eq_some.mp hu
    rw [ht, Option.some.injEq] at hu
    subst hu
    split_ifs
    · exact .of_tame (.refl k)
    · have hset : Tame k (k.modSpace t.space fun s => { s with intr := .idle, intrSaved := .empty }) :=
        tame_modSpace fun _ => rfl
      exact (Ends.after hset (ends_restore_resume ((wakeable_of_live ht hl).frame hset.toFrame))
        id).trans (tame_wakeAll waiters)

/-! ### IPC -/

theorem tame_procIpcDoTask {lazy : Bool} (c core : ℕ) (hp : k.Wakeable pid) :
    Tame k (k.procIpcDoTask cfg c pid lazy core) := by
  unfold procIpcDoTask
  split
  case h_1 => exact .refl k
  case h_2 t ht =>
    have hset : Tame k (k.modSpace t.space fun s =>
        { s with ipcSaved := t.saved, ipcSwitch := true }) := tame_modSpace fun _ => rfl
    split_ifs
    · exact hset
    · exact hset.trans (tame_procSwitchMultiCore c core (hp.frame hset.toFrame))

theorem tame_ipcReturn (c core : ℕ) (r : Reply) (hp : k.Wakeable pid) :
    Tame k (k.ipcReturn cfg c pid core r) := by
  unfold ipcReturn
  dsimp only
  generalize hk₂ : (match r.client with
    | none => k.wakeAll cfg r.waiters
    | some client => (k.wakeAll cfg r.waiters).procWakeup cfg client) = k₂
  have h : Tame k k₂ := by
    rw [← hk₂]
    cases r.client with
    | none => exact tame_wakeAll _
    | some client => exact (tame_wakeAll _).trans (tame_procWakeupBy 0)
  refine h.trans ?_
  split
  case h_1 t hcl _ =>
    obtain ⟨client, hclient, hget⟩ := Option.bind_eq_some_iff.mp hcl
    obtain ⟨ht, hl⟩ := procGet_eq_some.mp hget
    rw [hclient, Option.getD_some]
    split_ifs
    · exact tame_procSwitchMultiCore c core (wakeable_of_live ht hl)
    · exact tame_schedule c
  case h_2 => exact tame_procIpcDoTask c core (hp.frame h.toFrame)
  case h_3 => exact tame_schedule c

/-- An owner is a live process. -/
theorem procGetProc_proc {p : ℤ} (h : k.procGetProc cfg pid = some p) :
    ∃ t, k.table p = some t ∧ t.state.live = true ∧ t.type = .proc := by
  obtain ⟨a, ha⟩ := Schemes.chase_answer h
  obtain ⟨t, ht, htype⟩ := Option.map_eq_some_iff.mp ha
  obtain ⟨ht, hl⟩ := procGet_eq_some.mp ht
  split_ifs at htype with hp
  cases htype
  exact ⟨t, ht, hl, hp⟩

/-- `proc_ipc_end` for the process `serv` that owns the caller. -/
theorem ends_procIpcEnd (c : ℕ) {serv : ℤ} {r : Reply} (hs : k.procGetProc cfg pid = some serv)
    (ht : k.table serv = some t) :
    Ends (deadIf serv (k.space t.space).ipcSaved) (k.Parkable serv (k.space t.space).ipcSaved) k
      (k.procIpcEnd cfg c pid r) := by
  obtain ⟨u, hu, hl, htype⟩ := procGetProc_proc hs
  rw [ht, Option.some.injEq] at hu
  subst hu
  have hset : Tame k (k.modSpace t.space fun s => { s with ipcSaved := .empty }) :=
    tame_modSpace fun _ => rfl
  have hp := (wakeable_of_live ht hl).frame hset.toFrame
  simp only [procIpcEnd, hs, ht]
  generalize hsv : (k.space t.space).ipcSaved = v
  generalize hk' : (if v.runs = true ∨ v.state = .block then (k.restoreIpc serv t).procReady cfg serv
    else k.restoreIpc serv t) = k'
  have hk : Ends (deadIf serv v) (k.Parkable serv v) k k' := by
    rw [← hk', restoreIpc, hsv]
    split_ifs with hruns
    · exact .of_tame (hset.trans (tame_restore_ready hp))
    · refine .after hset (ends_restoreState hp) fun hok => ⟨hok, fun hr => absurd (.inl ?_) hruns⟩
      simp [Saved.runs, hr]
  -- a server is a process, which may be woken even when its area was empty
  refine hk.trans (tame_ipcReturn c t.core r fun u hu => .inr (.inl ?_))
  have hkin := kin_of_table hu
  rw [hk.kin, kin_of_table ht, Option.some.injEq] at hkin
  rw [← hkin, htype]

theorem ends_ipcAbort (ht : k.table pid = some t) (hl : t.state.live = true) :
    Ends (deadIf pid (k.space t.space).ipcSaved) (k.Parkable pid (k.space t.space).ipcSaved) k
      (k.ipcAbort cfg pid t) := by
  have hoff : Tame k (k.modSpace t.space fun s => { s with ipcSwitch := false }) :=
    tame_modSpace fun _ => rfl
  have hclear : Tame k ((k.modSpace t.space fun s => { s with ipcSwitch := false }).modSpace t.space
      fun s => { s with ipcSaved := .empty }) := hoff.trans (tame_modSpace fun _ => rfl)
  simp only [ipcAbort, restoreIpc, modSpace_self]
  exact .after hclear (ends_restore_resume ((wakeable_of_live ht hl).frame hclear.toFrame)) id

theorem tame_ipcServeNext : Tame k (k.ipcServeNext cfg pid) := by
  unfold ipcServeNext
  split
  case h_1 => exact .refl k
  case h_2 t _ =>
    have hset : Tame k (k.modSpace t.space fun s =>
        { s with ipcSaved := t.saved, ipcSwitch := true }) := tame_modSpace fun _ => rfl
    exact hset.trans tame_procResumeAfterTimeout

theorem ends_procIpcTimeout {client waiters : List ℤ} {next : Bool} (ht : k.table pid = some t) :
    Ends (deadIf pid (k.space t.space).ipcSaved) (k.Parkable pid (k.space t.space).ipcSaved) k
      (k.procIpcTimeout cfg pid client waiters next) := by
  unfold procIpcTimeout
  split
  case h_1 => exact .of_tame (.refl k)
  case h_2 u hu =>
    obtain ⟨hu, hl⟩ := procGet_eq_some.mp hu
    rw [ht, Option.some.injEq] at hu
    subst hu
    have habort := ((@ends_ipcAbort cfg _ _ _ ht hl).trans (@tame_wakeAll cfg _ client)).trans
      (@tame_wakeAll cfg _ waiters)
    dsimp only
    split_ifs
    · exact .of_tame (.refl k)
    · exact habort.trans tame_ipcServeNext
    · exact habort

/-! ### Pool workers -/

theorem tame_ipcPoolDispatch {handoff : Bool} (c core : ℕ) :
    Tame k (k.ipcPoolDispatch cfg c pid core handoff) := by
  unfold ipcPoolDispatch
  split
  case h_1 => exact .refl k
  case h_2 t ht =>
    obtain ⟨ht, hl⟩ := procGet_eq_some.mp ht
    have hwake : Tame k (k.procWakeup cfg pid) := tame_procWakeupBy 0
    dsimp only
    split_ifs
    · exact hwake.trans (tame_procSwitchMultiCore c core ((wakeable_of_live ht hl).frame hwake.toFrame))
    · exact hwake

theorem tame_procIpcPoolPark {waiters : List ℤ} {client : Option ℤ} (c : ℕ) (hp : k.Wakeable pid) :
    Tame k (k.procIpcPoolPark cfg c pid waiters client) := by
  have hset : Tame k (k.modTask pid fun t =>
      { t with blockBy := 0, wakeBy := 0, wakePending := false }) :=
    tame_modTask (fun _ => rfl) (fun _ => rfl) fun _ => rfl
  have hpark := (hset.trans (@tame_procUnready _ _ .block (by decide) rfl
    (hp.frame hset.toFrame))).trans (@tame_wakeAll cfg _ waiters)
  unfold procIpcPoolPark
  dsimp only
  split
  case h_1 => exact hpark.trans (tame_schedule c)
  case h_2 p =>
    have hwake := hpark.trans (@tame_procWakeupBy cfg _ p 0)
    split
    · exact hwake.trans (tame_schedule c)
    case h_2 t ht =>
      split_ifs with hrun
      · refine hwake.trans (tame_procSwitch c true (wakeable_of_live ht ?_))
        rw [hrun.2]
        rfl
      · exact hwake.trans (tame_schedule c)

end Sys
end EwokOS.Kernel.Tasks
