import Mathlib.Data.Set.Insert
import EwokOS.Kernel.Sched

/-! What scheduling can do to the task table.

    `Queued S` is the bookkeeping of the ready queues: every ready task is queued on its own core,
    nothing is queued twice, and only live tasks are queued; the tasks of `S` may be ready without
    being queued, which is how a task looks in the middle of a switch. `Frame` is what scheduling
    leaves alone: who the tasks are, and which of them live. `Tame` has both, and every function
    of `Sched` is tame. -/

namespace EwokOS.Kernel.Tasks

/-- The ready queues and the states agree, tasks of `S` excepted. -/
structure Queued (S : Set ℤ) (k : Sys) : Prop where
  once : ∀ pid t, k.table pid = some t → t.state = .ready → pid ∉ S → pid ∈ k.ready t.core
  nodup : ∀ c, (k.ready c).Nodup
  home : ∀ c pid, pid ∈ k.ready c → ∃ t, k.table pid = some t ∧ t.core = c ∧ t.state.live = true

/-- A task that may come back from the dead: a process, or an idle task. -/
def Kin.revivable (x : Kin) : Prop := x.type = .proc ∨ x.isCoreIdleProc = true

/-- The parts of the kernel that scheduling neither reads nor writes. -/
structure Book where
  idle : ℕ → Option ℤ
  spaceNum : ℕ
  procUuid : ℕ
  lastCreatePid : ℕ
  coreProcReady : Bool
  rules : List Capability.PolicyRule
  refs : ℕ → ℕ

def Sys.book (k : Sys) : Book :=
  ⟨k.idle, k.spaceNum, k.procUuid, k.lastCreatePid, k.coreProcReady, k.rules,
    fun s => (k.space s).refs⟩

/-- Nobody changes who it is, nobody outside `D` dies, and only processes are revived. -/
structure Frame (D : Set ℤ) (k k' : Sys) : Prop where
  kin : k'.kin = k.kin
  book : k'.book = k.book
  live : ∀ pid, pid ∉ D → k.Live pid → k'.Live pid
  dead : ∀ pid, k'.Live pid → k.Live pid ∨ ∃ x, k.kin pid = some x ∧ x.revivable

/-- A frame that also keeps the ready queues in order. -/
structure Tame (k k' : Sys) : Prop extends Frame ∅ k k' where
  queued : ∀ S, Queued S k → Queued S k'

namespace Frame
variable {D D' : Set ℤ} {k k' k'' : Sys}

theorem refl (k : Sys) : Frame D k k := ⟨rfl, rfl, fun _ _ => id, fun _ => Or.inl⟩

theorem mono (h : Frame D k k') (hd : D ⊆ D') : Frame D' k k' :=
  ⟨h.kin, h.book, fun p hp => h.live p fun hD => hp (hd hD), h.dead⟩

theorem trans (h : Frame D k k') (h' : Frame D k' k'') : Frame D k k'' := by
  refine ⟨h'.kin.trans h.kin, h'.book.trans h.book, fun p hD hp => h'.live p hD (h.live p hD hp), ?_⟩
  intro p hp
  rcases h'.dead p hp with hl | ⟨x, hx, hr⟩
  · exact h.dead p hl
  · exact .inr ⟨x, h.kin ▸ hx, hr⟩

end Frame

namespace Tame

theorem refl (k : Sys) : Tame k k := ⟨.refl k, fun _ => id⟩

theorem trans {k k' k'' : Sys} (h : Tame k k') (h' : Tame k' k'') : Tame k k'' :=
  ⟨h.toFrame.trans h'.toFrame, fun S hS => h'.queued S (h.queued S hS)⟩

/-- A loop of tame rounds is tame. -/
theorem foldl {α : Type} {f : Sys → α → Sys} (hf : ∀ k a, Tame k (f k a)) (l : List α) (k : Sys) :
    Tame k (l.foldl f k) := by
  induction l generalizing k with
  | nil => exact .refl k
  | cons a l ih => exact (hf k a).trans (ih (f k a))

end Tame

namespace Sys
variable {cfg : Config} {k : Sys} {pid : ℤ} {t : Task} {S : Set ℤ}

/-! ### Reading the elementary writes -/

@[simp] theorem modTask_self {f : Task → Task} :
    (k.modTask pid f).table pid = (k.table pid).map f := Function.update_self ..

theorem modTask_ne {f : Task → Task} {p : ℤ} (h : p ≠ pid) :
    (k.modTask pid f).table p = k.table p := Function.update_of_ne h ..

@[simp] theorem setSlot_self {u : Option Task} : (k.setSlot pid u).table pid = u :=
  Function.update_self ..

theorem setSlot_ne {u : Option Task} {p : ℤ} (h : p ≠ pid) : (k.setSlot pid u).table p = k.table p :=
  Function.update_of_ne h ..

@[simp] theorem modSpace_self {s : ℕ} {f : Space → Space} : (k.modSpace s f).space s = f (k.space s) :=
  Function.update_self ..

@[simp] theorem setQueue_table {c : ℕ} {q : List ℤ} : (k.setQueue c q).table = k.table := rfl
@[simp] theorem setQueue_self {c : ℕ} {q : List ℤ} : (k.setQueue c q).ready c = q :=
  Function.update_self ..

theorem setQueue_ne {c d : ℕ} {q : List ℤ} (h : d ≠ c) : (k.setQueue c q).ready d = k.ready d :=
  Function.update_of_ne h ..

theorem setState_some {st : TaskState} (h : k.table pid = some t) :
    (k.setState pid st).table pid = some { t with state := st } := by
  rw [setState, modTask_self, h]
  rfl

/-- A write to `pid` is seen at `pid` only. -/
theorem modTask_cases {f : Task → Task} {p : ℤ} {u : Task} (h : (k.modTask pid f).table p = some u) :
    (p = pid ∧ ∃ t, k.table pid = some t ∧ u = f t) ∨ (p ≠ pid ∧ k.table p = some u) := by
  rcases eq_or_ne p pid with rfl | hp
  · rw [modTask_self, Option.map_eq_some_iff] at h
    obtain ⟨t, ht, rfl⟩ := h
    exact .inl ⟨rfl, t, ht, rfl⟩
  · exact .inr ⟨hp, modTask_ne hp ▸ h⟩

/-- The task of `pid`, if any, lives or may be revived. -/
def Wakeable (k : Sys) (pid : ℤ) : Prop :=
  ∀ t, k.table pid = some t → t.state.live = true ∨ t.toKin.revivable

theorem wakeable_of_live (h : k.table pid = some t) (hl : t.state.live = true) : k.Wakeable pid :=
  fun u hu => .inl (by rw [h] at hu; cases hu; exact hl)

theorem wakeable_of_isLive (h : k.Live pid) : k.Wakeable pid := by
  obtain ⟨t, ht, hl⟩ := h
  exact wakeable_of_live ht hl

theorem live_modTask {f : Task → Task} (hs : ∀ t, (f t).state = t.state) (h : k.Live pid) :
    (k.modTask pid f).Live pid := by
  obtain ⟨t, ht, hl⟩ := h
  refine ⟨f t, ?_, by rw [hs, hl]⟩
  rw [modTask_self, ht]
  rfl

theorem kin_of_table (h : k.table pid = some t) : k.kin pid = some t.toKin := by rw [kin, h]; rfl

theorem live_of_table (h : k.table pid = some t) : k.Live pid ↔ t.state.live = true :=
  ⟨fun ⟨u, hu, hl⟩ => by rw [h] at hu; cases hu; exact hl, fun hl => ⟨t, h, hl⟩⟩

theorem procGet_eq_some : k.procGet pid = some t ↔ k.table pid = some t ∧ t.state.live = true := by
  rw [procGet, Option.filter_eq_some_iff]

/-! ### Frames of the elementary writes -/

/-- The tasks keep who they are when a write does. -/
theorem kin_modTask {f : Task → Task} (hf : ∀ t, (f t).toKin = t.toKin) :
    (k.modTask pid f).kin = k.kin := by
  funext p
  rcases eq_or_ne p pid with rfl | hp
  · rw [kin, kin, modTask_self, Option.map_map]
    exact congrArg (fun g => (k.table p).map g) (funext hf)
  · rw [kin, kin, modTask_ne hp]

theorem frame_modTask {f : Task → Task} (hf : ∀ t, (f t).toKin = t.toKin)
    (hl : ∀ t, k.table pid = some t →
      (f t).state.live = t.state.live ∨ (f t).state.live = true ∧ t.toKin.revivable) :
    Frame ∅ k (k.modTask pid f) := by
  refine ⟨kin_modTask hf, rfl, ?_, ?_⟩
  · rintro p - ⟨u, hu, hul⟩
    rcases eq_or_ne p pid with rfl | hp
    · refine ⟨f u, by rw [modTask_self, hu]; rfl, ?_⟩
      rcases hl u hu with h | h
      · rw [h, hul]
      · exact h.1
    · exact ⟨u, (modTask_ne hp).trans hu, hul⟩
  · rintro p ⟨u, hu, hul⟩
    rcases modTask_cases hu with ⟨rfl, t, ht, rfl⟩ | ⟨hp, hu⟩
    · rcases hl t ht with h | h
      · exact .inl ⟨t, ht, h ▸ hul⟩
      · exact .inr ⟨t.toKin, kin_of_table ht, h.2⟩
    · exact .inl ⟨u, hu, hul⟩

theorem frame_setQueue (c : ℕ) (q : List ℤ) : Frame ∅ k (k.setQueue c q) :=
  ⟨rfl, rfl, fun _ _ => id, fun _ => Or.inl⟩

theorem book_modSpace {s : ℕ} {f : Space → Space} (hf : ∀ s, (f s).refs = s.refs) :
    (k.modSpace s f).book = k.book := by
  simp only [book, modSpace, Book.mk.injEq, true_and]
  funext s'
  rcases eq_or_ne s' s with rfl | hs
  · rw [Function.update_self, hf]
  · rw [Function.update_of_ne hs]

/-- A write to a space that keeps its reference count is tame. -/
theorem tame_modSpace {s : ℕ} {f : Space → Space} (hf : ∀ s, (f s).refs = s.refs) :
    Tame k (k.modSpace s f) :=
  ⟨⟨rfl, book_modSpace hf, fun _ _ => id, fun _ => Or.inl⟩, fun _ h => ⟨h.once, h.nodup, h.home⟩⟩

/-! ### The queues under the elementary writes -/

theorem queued_mono {S' : Set ℤ} (h : Queued S k) (hs : S ⊆ S') : Queued S' k :=
  ⟨fun p u hu hr hp => h.once p u hu hr fun hS => hp (hs hS), h.nodup, h.home⟩

/-- A write that keeps a task on its core and alive, and does not make it ready behind the back of
    its queue. -/
theorem queued_modTask {f : Task → Task} (hc : ∀ t, (f t).core = t.core)
    (hl : ∀ t, k.table pid = some t → t.state.live = true → pid ∈ k.ready t.core →
      (f t).state.live = true)
    (hr : ∀ t, k.table pid = some t → (f t).state = .ready →
      t.state = .ready ∨ pid ∈ S ∨ pid ∈ k.ready t.core)
    (h : Queued S k) : Queued S (k.modTask pid f) := by
  refine ⟨?_, h.nodup, ?_⟩
  · intro p u hu hur hp
    rcases modTask_cases hu with ⟨rfl, t, ht, rfl⟩ | ⟨-, hu⟩
    · rw [hc]
      rcases hr t ht hur with h' | h' | h'
      · exact h.once p t ht h' hp
      · exact absurd h' hp
      · exact h'
    · exact h.once p u hu hur hp
  · intro c p hp
    obtain ⟨t, ht, hcore, hlive⟩ := h.home c p hp
    rcases eq_or_ne p pid with rfl | hne
    · subst hcore
      exact ⟨f t, by rw [modTask_self, ht]; rfl, hc t, hl t ht hlive hp⟩
    · exact ⟨t, by rw [modTask_ne hne, ht], hcore, hlive⟩

/-- A write that leaves who a task is, its core and its state alone is tame. -/
theorem tame_modTask {f : Task → Task} (hk : ∀ t, (f t).toKin = t.toKin)
    (hc : ∀ t, (f t).core = t.core) (hs : ∀ t, (f t).state = t.state) : Tame k (k.modTask pid f) :=
  ⟨frame_modTask hk fun t _ => .inl (by rw [hs]), fun _ => queued_modTask hc
    (fun t _ hl _ => by rw [hs, hl]) fun t _ hr => .inl (by rw [← hs, hr])⟩

/-- A write that leaves a live task in some state that is not ready. -/
theorem tame_modTask_live {f : Task → Task} (hk : ∀ t, (f t).toKin = t.toKin)
    (hc : ∀ t, (f t).core = t.core) (hs : ∀ t, (f t).state.live = true)
    (hn : ∀ t, (f t).state = .ready → t.state = .ready)
    (hp : k.Wakeable pid) :
    Tame k (k.modTask pid f) :=
  ⟨frame_modTask hk fun t ht => (hp t ht).imp (fun h => by rw [hs, h]) fun h => ⟨hs t, h⟩,
    fun _ => queued_modTask hc (fun t _ _ _ => hs t) fun t _ hr => .inl (hn t hr)⟩

/-- Replacing the queue of the core `pid` sits on by one that holds `pid` once, drops only tasks
    that are not ready, and takes nobody in. -/
theorem queued_setQueue {q : List ℤ} (hn : q.Nodup) (hq : ∀ p ∈ q, p ∈ k.ready t.core ∨ p = pid)
    (hk : ∀ p ∈ k.ready t.core, p ∉ S → p ∈ q ∨ ∀ u, k.table p = some u → u.state ≠ .ready)
    (hp : k.table pid = some t) (hl : t.state.live = true) (h : Queued S k) :
    Queued S (k.setQueue t.core q) := by
  refine ⟨?_, ?_, ?_⟩
  · intro p u hu hur hS
    have hm := h.once p u hu hur hS
    rcases eq_or_ne u.core t.core with hc | hc
    · rw [hc, setQueue_self]
      rw [hc] at hm
      rcases hk p hm hS with h' | h'
      · exact h'
      · exact absurd hur (h' u hu)
    · rwa [setQueue_ne hc]
  · intro c
    rcases eq_or_ne c t.core with rfl | hc
    · rwa [setQueue_self]
    · rw [setQueue_ne hc]
      exact h.nodup c
  · intro c p hm
    rcases eq_or_ne c t.core with rfl | hc
    · rw [setQueue_self] at hm
      rcases hq p hm with h' | rfl
      · exact h.home _ p h'
      · exact ⟨t, hp, rfl, hl⟩
    · rw [setQueue_ne hc] at hm
      exact h.home c p hm

/-! ### Ready and unready -/

theorem mem_queuePush {head : Bool} {p : ℤ} {q : List ℤ} :
    p ∈ queuePush head pid q ↔ p = pid ∨ p ∈ q := by
  cases head <;> simp [queuePush, or_comm]

theorem nodup_queuePush {head : Bool} {q : List ℤ} (hq : q.Nodup) (hp : pid ∉ q) :
    (queuePush head pid q).Nodup := by
  cases head
  · simpa [queuePush, List.nodup_append, hq] using fun a ha (h' : a = pid) => hp (h' ▸ ha)
  · simpa [queuePush, hq] using hp

theorem mem_enqueue {head : Bool} {p : ℤ} {q : List ℤ} (hq : q.Nodup) :
    p ∈ enqueue cfg q pid head ↔ p = pid ∨ p ∈ q := by
  unfold enqueue
  split_ifs with _ hm _
  · rw [mem_queuePush, List.mem_filter, decide_eq_true_iff]
    tauto
  · rw [mem_queuePush, hq.mem_erase_iff]
    tauto
  · constructor
    · exact Or.inr
    · rintro (rfl | h)
      · exact hm
      · exact h
  · exact mem_queuePush

theorem nodup_enqueue {head : Bool} {q : List ℤ} (hq : q.Nodup) :
    (enqueue cfg q pid head).Nodup := by
  unfold enqueue
  split_ifs with _ hm _
  · exact nodup_queuePush (hq.filter _) fun h => by simp at h
  · exact nodup_queuePush (hq.erase pid) hq.not_mem_erase
  · exact hq
  · exact nodup_queuePush hq hm

/-- Putting a task back in the queue of its core, in state ready. -/
theorem queued_ready {q : List ℤ} (hp : k.table pid = some t) (h : Queued S k)
    (hn : q.Nodup) (hq : ∀ p, p ∈ q ↔ p = pid ∨ p ∈ k.ready t.core) :
    Queued S ((k.setState pid .ready).setQueue t.core q) := by
  -- the queue is written first here: the two writes touch different fields
  have h₁ : Queued (insert pid S) (k.setState pid .ready) :=
    queued_modTask (fun _ => rfl) (fun _ _ _ _ => rfl)
      (fun _ _ _ => .inr (.inl (Set.mem_insert ..))) (queued_mono h (Set.subset_insert ..))
  have hp' : (k.setState pid .ready).table pid = some { t with state := .ready } := setState_some hp
  have h₂ := queued_setQueue (k := k.setState pid .ready) (t := { t with state := .ready }) hn
    (fun p hm => ((hq p).mp hm).symm) (fun p hm _ => .inl ((hq p).mpr (.inr hm))) hp' rfl h₁
  refine ⟨?_, h₂.nodup, h₂.home⟩
  intro p u hu hur hS
  rcases eq_or_ne p pid with rfl | hne
  · rw [setQueue_table, hp', Option.some.injEq] at hu
    subst hu
    rw [setQueue_self]
    exact (hq p).mpr (.inl rfl)
  · exact h₂.once p u hu hur fun hm => hm.elim hne hS

theorem frame_setState_live {st : TaskState} (hst : st.live = true)
    (hp : k.Wakeable pid) :
    Frame ∅ k (k.setState pid st) :=
  frame_modTask (fun _ => rfl) fun t ht => (hp t ht).imp (fun h => hst.trans h.symm) fun h => ⟨hst, h⟩

theorem tame_procReadyWithOrder (head : Bool)
    (hp : k.Wakeable pid) :
    Tame k (k.procReadyWithOrder cfg pid head) := by
  unfold procReadyWithOrder
  split
  case h_1 => exact .refl k
  case h_2 t ht =>
    exact ⟨(frame_setState_live rfl hp).trans (frame_setQueue ..), fun S h =>
      queued_ready ht h (nodup_enqueue (h.nodup _)) fun p => mem_enqueue (h.nodup _)⟩

theorem procReadyWithOrder_some {head : Bool} (h : k.table pid = some t) :
    (k.procReadyWithOrder cfg pid head).table pid = some { t with state := .ready } := by
  simp only [procReadyWithOrder, h, setQueue_table]
  exact setState_some h

/-- Taking a task out of its queue leaves the others in order. -/
theorem queued_procQueueRemoveAll (h : Queued S k) :
    Queued (insert pid S) (k.procQueueRemoveAll pid) ∧
      ∀ c, pid ∉ (k.procQueueRemoveAll pid).ready c := by
  unfold procQueueRemoveAll
  split
  case h_1 hn =>
    refine ⟨queued_mono h (Set.subset_insert ..), fun c hc => ?_⟩
    obtain ⟨t, ht, -⟩ := h.home c pid hc
    rw [hn] at ht
    cases ht
  case h_2 t ht =>
    refine ⟨⟨?_, ?_, ?_⟩, ?_⟩
    · intro p u hu hur hS
      have hm := h.once p u hu hur fun hS' => hS (Set.mem_insert_of_mem _ hS')
      rcases eq_or_ne u.core t.core with hc | hc
      · rw [hc, setQueue_self, List.mem_filter, decide_eq_true_iff]
        exact ⟨hc ▸ hm, fun h' => hS (h' ▸ Set.mem_insert ..)⟩
      · rwa [setQueue_ne hc]
    · intro c
      rcases eq_or_ne c t.core with rfl | hc
      · rw [setQueue_self]
        exact (h.nodup _).filter _
      · rw [setQueue_ne hc]
        exact h.nodup c
    · intro c p hm
      rcases eq_or_ne c t.core with rfl | hc
      · rw [setQueue_self] at hm
        exact h.home _ p (List.mem_of_mem_filter hm)
      · rw [setQueue_ne hc] at hm
        exact h.home c p hm
    · intro c hm
      rcases eq_or_ne c t.core with rfl | hc
      · rw [setQueue_self, List.mem_filter] at hm
        simp at hm
      · rw [setQueue_ne hc] at hm
        obtain ⟨u, hu, hcore, -⟩ := h.home c pid hm
        rw [ht, Option.some.injEq] at hu
        exact hc (hu ▸ hcore).symm

theorem procQueueRemoveAll_table : (k.procQueueRemoveAll pid).table = k.table := by
  unfold procQueueRemoveAll
  split <;> rfl

theorem frame_procQueueRemoveAll : Frame ∅ k (k.procQueueRemoveAll pid) := by
  unfold procQueueRemoveAll
  split
  · exact .refl k
  · exact frame_setQueue ..

/-- A task that is in no queue may be given any state but ready. -/
theorem queued_close {st : TaskState} (h : Queued (insert pid S) k) (hq : ∀ c, pid ∉ k.ready c)
    (hst : st ≠ .ready) : Queued S (k.setState pid st) := by
  refine ⟨?_, h.nodup, ?_⟩
  · intro p u hu hur hS
    rcases modTask_cases hu with ⟨rfl, t, ht, rfl⟩ | ⟨hne, hu⟩
    · exact absurd hur hst
    · exact h.once p u hu hur fun hm => hm.elim hne hS
  · intro c p hm
    obtain ⟨t, ht, hcore, hlive⟩ := h.home c p hm
    have hne : p ≠ pid := fun h' => hq c (h' ▸ hm)
    exact ⟨t, (modTask_ne hne).trans ht, hcore, hlive⟩

/-- `proc_unready_locked` keeps the queues in order whatever state it parks the task in. -/
theorem queued_procUnready {st : TaskState} (hst : st ≠ .ready) (h : Queued S k) :
    Queued S (k.procUnready pid st) :=
  queued_close (queued_procQueueRemoveAll h).1 (queued_procQueueRemoveAll h).2 hst

theorem tame_procUnready {st : TaskState} (hst : st ≠ .ready) (hl : st.live = true)
    (hp : k.Wakeable pid) :
    Tame k (k.procUnready pid st) :=
  ⟨frame_procQueueRemoveAll.trans (frame_setState_live hl fun t ht =>
    hp t (procQueueRemoveAll_table (k := k) ▸ ht)), fun _ => queued_procUnready hst⟩

/-- A live task that is not ready needs no queue. -/
theorem queued_setState_live {st : TaskState} (h : Queued (insert pid S) k) (hst : st ≠ .ready)
    (hl : st.live = true) : Queued S (k.setState pid st) := by
  have h' : Queued (insert pid S) (k.setState pid st) :=
    queued_modTask (fun _ => rfl) (fun _ _ _ _ => hl) (fun _ _ hr => absurd hr hst) h
  refine ⟨?_, h'.nodup, h'.home⟩
  intro p u hu hur hS
  rcases modTask_cases hu with ⟨rfl, t, ht, rfl⟩ | ⟨hne, hu'⟩
  · exact absurd hur hst
  · exact h'.once p u hu hur fun hm => hm.elim hne hS

/-! ### Waking -/

theorem Wakeable.frame {k' : Sys} (h : k.Wakeable pid) (hf : Frame ∅ k k') : k'.Wakeable pid := by
  intro u hu
  have hkin := kin_of_table hu
  rw [hf.kin, kin, Option.map_eq_some_iff] at hkin
  obtain ⟨t, ht, hk⟩ := hkin
  rcases h t ht with hl | hr
  · exact .inl ((live_of_table hu).mp (hf.live pid (Set.notMem_empty _) ⟨t, ht, hl⟩))
  · exact .inr (hk ▸ hr)

theorem tame_wakeWaiter (i : ℤ) : Tame k (wakeWaiter cfg pid k i) := by
  unfold wakeWaiter
  split
  case h_1 => exact .refl k
  case h_2 t ht =>
    split
    case isTrue hw =>
      have hlive : t.state.live = true := by rw [hw.1]; rfl
      have hset : Tame k (k.modTask i fun t => { t with waitFor := -1 }) :=
        tame_modTask (fun _ => rfl) (fun _ => rfl) fun _ => rfl
      exact hset.trans (tame_procReadyWithOrder _ ((wakeable_of_live ht hlive).frame hset.toFrame))
    case isFalse => exact .refl k

theorem tame_procWakeupWaiting : Tame k (k.procWakeupWaiting cfg pid) :=
  .foldl (fun _ _ => tame_wakeWaiter _) _ k

theorem tame_procWakeupAllState (hp : k.Wakeable pid) : Tame k (k.procWakeupAllState cfg pid) := by
  unfold procWakeupAllState
  split
  · exact .refl k
  · exact (tame_procReadyWithOrder _ hp).trans (tame_modSpace fun _ => rfl)

theorem latch_toKin (token : ℕ) (t : Task) : (t.latch token).toKin = t.toKin := by
  unfold Task.latch
  split_ifs <;> rfl

theorem latch_core (token : ℕ) (t : Task) : (t.latch token).core = t.core := by
  unfold Task.latch
  split_ifs <;> rfl

theorem latch_state (token : ℕ) (t : Task) : (t.latch token).state = t.state := by
  unfold Task.latch
  split_ifs <;> rfl

/-- Waking is tame for any pid: dead tasks are left alone. -/
theorem tame_procWakeupBy (token : ℕ) : Tame k (k.procWakeupBy cfg pid token) := by
  unfold procWakeupBy
  split
  case h_1 => exact .refl k
  case h_2 t ht =>
    obtain ⟨ht, hl⟩ := procGet_eq_some.mp ht
    split_ifs
    · exact .refl k
    · have hset : Tame k (k.modTask pid fun t =>
          { t with blockBy := 0, sleepCounter := 0, wakeBy := 0, wakePending := false }) :=
        tame_modTask (fun _ => rfl) (fun _ => rfl) fun _ => rfl
      exact hset.trans (tame_procWakeupAllState ((wakeable_of_live ht hl).frame hset.toFrame))
    · exact (tame_procWakeupAllState (wakeable_of_live ht hl)).trans
        (tame_modTask (latch_toKin token) (latch_core token) (latch_state token))

theorem tame_wakeAll (pids : List ℤ) : Tame k (k.wakeAll cfg pids) :=
  .foldl (fun _ _ => tame_procWakeupBy 0) pids k

/-! ### Switching -/

theorem tame_injectHandler : Tame k (k.injectHandler t) := by
  unfold injectHandler
  split_ifs
  · exact .refl k
  · refine tame_modSpace fun s => ?_
    split_ifs <;> rfl

theorem tame_requeueCurrent (quick : Bool) : Tame k (k.requeueCurrent pid quick) := by
  unfold requeueCurrent
  split
  case h_1 => exact .refl k
  case h_2 t ht =>
    split
    case isFalse => exact .refl k
    case isTrue hr =>
      have hlive : t.state.live = true := by rw [hr.1]; rfl
      refine ⟨(frame_setState_live rfl (wakeable_of_live ht hlive)).trans (frame_setQueue ..),
        fun S h => queued_ready ht h ?_ fun p => ?_⟩
      · exact nodup_queuePush ((h.nodup _).filter _) fun hm => by simp at hm
      · rw [mem_queuePush, List.mem_filter, decide_eq_true_iff]
        tauto

theorem tame_setCurrentProc (c : ℕ) : Tame k (k.setCurrentProc c pid) := by
  unfold setCurrentProc
  split
  · exact .refl k
  · split_ifs
    · exact ⟨⟨rfl, rfl, fun _ _ => id, fun _ => Or.inl⟩, fun _ h => ⟨h.once, h.nodup, h.home⟩⟩
    · exact .refl k

/-- The middle of a switch: the target is out of the queues until it runs. -/
theorem tame_run {k' : Sys} (hp : k.Wakeable pid) (hf : Frame ∅ k k')
    (hq : ∀ S, Queued S k → Queued (insert pid S) k') : Tame k (k'.setState pid .running) :=
  ⟨hf.trans (frame_setState_live rfl (hp.frame hf)), fun S h =>
    queued_setState_live (hq S h) (by decide) rfl⟩

theorem tame_procSwitch (c : ℕ) (quick : Bool) (hp : k.Wakeable pid) :
    Tame k (k.procSwitch c pid quick) := by
  unfold procSwitch
  split
  case h_1 => exact .refl k
  case h_2 t ht =>
    have hf : Frame ∅ k ((k.procQueueRemoveAll pid).injectHandler t) :=
      frame_procQueueRemoveAll.trans tame_injectHandler.toFrame
    have hq : ∀ S, Queued S k →
        Queued (insert pid S) ((k.procQueueRemoveAll pid).injectHandler t) := fun S h =>
      tame_injectHandler.queued _ (queued_procQueueRemoveAll h).1
    dsimp only
    split
    case h_1 => exact (tame_run hp hf hq).trans (tame_setCurrentProc c)
    case h_2 cproc _ =>
      split_ifs
      · exact tame_run hp hf hq
      · refine (tame_run hp (hf.trans (tame_requeueCurrent quick).toFrame) fun S h => ?_).trans
          (tame_setCurrentProc c)
        exact (tame_requeueCurrent quick).queued _ (hq S h)

theorem tame_procSwitchMultiCore (c core : ℕ) (hp : k.Wakeable pid) :
    Tame k (k.procSwitchMultiCore cfg c pid core) := by
  unfold procSwitchMultiCore
  split
  · exact .refl k
  · split_ifs
    · exact tame_procSwitch c true hp
    · have hw : Tame k (k.procWakeupAllState cfg pid) := tame_procWakeupAllState hp
      exact hw.trans (tame_procSwitch c true (hp.frame hw.toFrame))
    · exact tame_procWakeupBy 0
    · exact .refl k

/-! ### Scheduling -/

theorem idleProc_flagged {c : ℕ} {i : ℤ} (h : k.idleProc c = some i) (ht : k.table i = some t) :
    t.isCoreIdleProc = true := by
  rw [idleProc, Option.filter_eq_some_iff] at h
  simpa [ht] using h.2

theorem tame_parkIdle (c : ℕ) : Tame k (k.parkIdle c) := by
  unfold parkIdle
  split
  case h_1 => exact .refl k
  case h_2 i hi =>
    exact tame_modTask_live (fun _ => rfl) (fun _ => rfl) (fun _ => rfl) (fun _ h => by cases h)
      fun t ht => .inr (.inr (idleProc_flagged hi ht))

theorem popReady_spec (q : List ℤ) :
    (∀ n, (k.popReady q).1 = some n → k.runnable n = true) ∧ (k.popReady q).2.Sublist q ∧
      ∀ p ∈ q, p ∈ (k.popReady q).2 ∨ (k.popReady q).1 = some p ∨ k.runnable p = false := by
  induction q with
  | nil => exact ⟨fun n h => by simp [popReady] at h, .refl _, fun p h => by cases h⟩
  | cons a q ih =>
    unfold popReady
    split_ifs with ha
    · refine ⟨?_, List.sublist_cons_self .., ?_⟩
      · rintro n ⟨⟩
        exact ha
      · intro p hp
        rcases List.mem_cons.mp hp with rfl | hp
        · exact .inr (.inl rfl)
        · exact .inl hp
    · refine ⟨ih.1, ih.2.1.cons _, ?_⟩
      intro p hp
      rcases List.mem_cons.mp hp with rfl | hp
      · exact .inr (.inr (by simpa using ha))
      · exact ih.2.2 p hp

theorem runnable_of_ready (h : k.table pid = some t) (hr : t.state = .ready) :
    k.runnable pid = true := by
  rw [runnable, h, Option.any_some, hr]
  rfl

theorem wakeable_of_runnable (h : k.runnable pid = true) : k.Wakeable pid := by
  intro t ht
  rw [runnable, ht, Option.any_some, decide_eq_true_iff] at h
  rcases h with h | h
  · exact .inl (by rw [h]; rfl)
  · exact .inl (by rw [h]; rfl)

/-- Popping takes nothing out of order but the popped task. -/
theorem queued_pop (c : ℕ) (h : Queued S k) :
    Queued ({p | (k.popReady (k.ready c)).1 = some p} ∪ S)
      (k.setQueue c (k.popReady (k.ready c)).2) := by
  obtain ⟨-, hsub, hmem⟩ := popReady_spec (k := k) (k.ready c)
  refine ⟨?_, ?_, ?_⟩
  · intro p u hu hur hS
    have hm := h.once p u hu hur fun h' => hS (.inr h')
    rcases eq_or_ne u.core c with hc | hc
    · rw [hc, setQueue_self]
      rw [hc] at hm
      rcases hmem p hm with h' | h' | h'
      · exact h'
      · exact absurd (.inl h') hS
      · rw [runnable_of_ready (setQueue_table ▸ hu) hur] at h'
        cases h'
    · rwa [setQueue_ne hc]
  · intro d
    rcases eq_or_ne d c with rfl | hd
    · rw [setQueue_self]
      exact hsub.nodup (h.nodup d)
    · rw [setQueue_ne hd]
      exact h.nodup d
  · intro d p hm
    rcases eq_or_ne d c with rfl | hd
    · rw [setQueue_self] at hm
      exact h.home d p (hsub.subset hm)
    · rw [setQueue_ne hd] at hm
      exact h.home d p hm

/-- Whoever `schedule` picks may run. -/
theorem wakeable_next {c : ℕ} {next : ℤ} {r : Option ℤ} (hr : ∀ n, r = some n → k.runnable n = true)
    (h : (r.or (k.keepCurrent c)).or (k.idleProc c) = some next) : k.Wakeable next := by
  rcases Option.or_eq_some_iff.mp h with h | ⟨-, h⟩
  · rcases Option.or_eq_some_iff.mp h with h | ⟨-, h⟩
    · exact wakeable_of_runnable (hr next h)
    · rw [keepCurrent, Option.filter_eq_some_iff] at h
      intro t ht
      have hrun := h.2
      rw [ht, Option.any_some, decide_eq_true_iff] at hrun
      exact .inl (by rw [hrun.1]; rfl)
  · exact fun t ht => .inr (.inr (idleProc_flagged h ht))

theorem tame_schedule (c : ℕ) : Tame k (k.schedule c) := by
  unfold schedule
  refine (tame_parkIdle c).trans ?_
  generalize k.parkIdle c = k₁
  dsimp only
  have hq : ∀ S, Queued S k₁ → _ := fun S h => queued_pop (S := S) c h
  have hrun := (popReady_spec (k := k₁) (k₁.ready c)).1
  split
  case h_1 hn =>
    refine ⟨frame_setQueue .., fun S h => queued_mono (hq S h) ?_⟩
    simp only [Option.or_eq_none_iff] at hn
    rintro p (hp | hp)
    · rw [Set.mem_ofPred_eq, hn.1.1] at hp
      cases hp
    · exact hp
  case h_2 next hn =>
    have hw : (k₁.setQueue c (k₁.popReady (k₁.ready c)).2).Wakeable next := wakeable_next hrun hn
    have hstart : Tame k₁ ((k₁.setQueue c (k₁.popReady (k₁.ready c)).2).setState next .running) := by
      refine tame_run (fun t ht => hw t ht) (frame_setQueue ..) fun S h => queued_mono (hq S h) ?_
      rintro p (hp | hp)
      · rw [Set.mem_ofPred_eq] at hp
        rw [hp] at hn
        cases hn
        exact .inl rfl
      · exact .inr hp
    exact hstart.trans (tame_procSwitch c false ((hw.frame (frame_setState_live rfl hw))))

/-! ### Blocking -/

theorem tame_blockWith {compatible : Task → Bool} {sleep : ℤ} (c : ℕ) (token : ℕ)
    (hp : k.Wakeable pid) : Tame k (k.blockWith compatible sleep c pid token) := by
  unfold blockWith
  split
  case h_1 => exact .refl k
  case h_2 t ht =>
    dsimp only
    generalize hk' : (k.modTask pid fun t =>
      if t.wakePending then { t with wakePending := false, wakeBy := 0 } else t) = k'
    have hclear : Tame k k' := by
      rw [← hk']
      refine tame_modTask ?_ ?_ ?_ <;>
      · intro t
        split_ifs <;> rfl
    have hp' : k'.Wakeable pid := hp.frame hclear.toFrame
    generalize (if t.wakePending then compatible t || t.wakeBy ≠ 0 else t.state = .ready) = runNow
    split_ifs
    · refine hclear.trans ⟨frame_modTask (fun _ => rfl) ?_, fun _ => queued_modTask (fun _ => rfl) ?_ ?_⟩
      · intro t _
        dsimp only
        split_ifs with h
        · exact .inl (by rw [h]; rfl)
        · exact .inl rfl
      · intro t _ hl _
        dsimp only
        split_ifs
        · rfl
        · exact hl
      · intro t _ hr
        dsimp only at hr
        split_ifs at hr with h
        exact .inl hr
    · have hset : Tame k' (k'.modTask pid fun t => { t with blockBy := token, sleepCounter := sleep }) :=
        tame_modTask (fun _ => rfl) (fun _ => rfl) fun _ => rfl
      exact ((hclear.trans hset).trans (tame_procUnready (by decide) rfl
        (hp'.frame hset.toFrame))).trans (tame_schedule c)

theorem tame_procUsleep (c count : ℕ) (hp : k.Wakeable pid) :
    Tame k (k.procUsleep c pid count) := by
  have hset : Tame k (k.modTask pid fun t => { t with sleepCounter := count }) :=
    tame_modTask (fun _ => rfl) (fun _ => rfl) fun _ => rfl
  exact (hset.trans (tame_procUnready (by decide) rfl (hp.frame hset.toFrame))).trans
    (tame_schedule c)

theorem tame_tickSleeper (usec : ℕ) (i : ℤ) : Tame k (tickSleeper cfg usec k i) := by
  unfold tickSleeper
  split
  case h_1 => exact .refl k
  case h_2 t ht =>
    split_ifs with hs _
    · have hlive : t.state.live = true := by
        rcases hs with hs | hs
        · rw [hs]; rfl
        · rw [hs.1]; rfl
      have hset : Tame k (k.modTask i fun t => { t with
          sleepCounter := 0, blockBy := if t.state = .block then 0 else t.blockBy }) :=
        tame_modTask (fun _ => rfl) (fun _ => rfl) fun _ => rfl
      exact hset.trans (tame_procReadyWithOrder _ ((wakeable_of_live ht hlive).frame hset.toFrame))
    · exact tame_modTask (fun _ => rfl) (fun _ => rfl) fun _ => rfl
    · exact .refl k

theorem tame_renewSleepCounter (usec : ℕ) : Tame k (k.renewSleepCounter cfg usec) :=
  .foldl (fun _ _ => tame_tickSleeper usec _) _ k

theorem tame_renewPriority : Tame k (k.renewPriority cfg pid) := by
  unfold renewPriority
  split
  case h_1 => exact .refl k
  case h_2 t ht =>
    split_ifs with hr
    · exact tame_procReadyWithOrder _ (wakeable_of_live ht (by rw [hr]; rfl))
    · exact .refl k

end Sys
end EwokOS.Kernel.Tasks
