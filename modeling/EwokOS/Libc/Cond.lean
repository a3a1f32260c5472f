import EwokOS.Schemes.Crowd
import EwokOS.Schemes.Handoff
import EwokOS.Schemes.Run

/-! Condition variables (`libewoksys/src/pthread/pthread_cond.c`).

    A thread registers in `waiters` under the state lock, gives the user's mutex up, and only then enters
    the semaphore; a signal takes one off `waiters` and posts one permit, a broadcast takes all. In
    between a permit lies free in the semaphore, and belongs to nobody.

        out ─▶ arrive ─register─▶ unlock ─▶ check ─▶ enter ⇄ parked ──got──▶ relock ─▶ out
                                               │       └─▶ settle ─▶ giveUp ──┘
                                               └──────────────────────▲

    The sections under the state lock that nobody else can look into are one step each; the posts of a
    broadcast are not. A ghost clock stamps registrations and posts, and `used` collects, for each permit
    taken, who took it, when that thread registered and when the permit was posted. -/

namespace EwokOS.Libc.Condvar

open Schemes (Handoff Reach Free update_cases)

variable {τ : Type} [DecidableEq τ]

def semaphoreCountMax : ℕ := 0x7fffffff

inductive Op where | wait | timedwait | signal | broadcast
  deriving DecidableEq, Repr

inductive Res where | zero | etimedout | einval
  deriving DecidableEq, Repr

/-- Where a thread is. -/
inductive Pc where
  | out (res : Res)
  /-- In a wait, before it is registered. -/
  | arrive (timed : Bool)
  /-- Registered, with the user's mutex. -/
  | unlock (timed : Bool)
  /-- The user's mutex could not be given up. -/
  | undo
  /-- Before the look at the clock. -/
  | check
  /-- In `semaphore_enter` or `semaphore_enter_timeout`: about to call, parked, and the last try. -/
  | enter (timed : Bool)
  | parked (timed : Bool)
  | settle
  /-- Out of time, before the state lock. -/
  | giveUp
  | relock (res : Res)
  /-- In a signal or a broadcast: before the state lock, and with `left` permits to post. -/
  | call (bc : Bool)
  | posting (bc : Bool) (left : ℕ)
  deriving DecidableEq, Repr

/-- A thread counts as waiting from here to here. -/
def Pc.waits : Pc → Bool
  | .unlock _ | .undo | .check | .enter _ | .parked _ | .settle | .giveUp => true
  | _ => false

/-- Where a thread can be in the line of the semaphore, or have a permit there. -/
def Pc.queued : Pc → Bool
  | .enter _ | .parked _ | .settle => true
  | _ => false

/-- A permit that was taken. -/
structure Taken (τ : Type) where
  thread : τ
  registered : ℕ
  posted : ℕ
  deriving DecidableEq

/-- `pthread_cond_t`, less `signaled`, which nothing uses; `sem` is `sem_wait` and `owner` has `state_lock`.
    The rest is ghost: the clock, the threads that wait and when they registered, when the free permits
    were posted, the permits taken, and when the last broadcast ended. -/
structure Cond (τ : Type) where
  waiters : ℕ
  sem : Handoff τ
  owner : Option τ
  pc : τ → Pc
  now : ℕ
  waiting : Finset τ
  reg : τ → ℕ
  free : List ℕ
  used : List (Taken τ)
  lastBc : ℕ

/-- `pthread_cond_init`. -/
def Cond.start : Cond τ := ⟨0, .fresh 0, none, fun _ => .out .zero, 0, ∅, fun _ => 0, [], [], 0⟩

/-- What a step finds: whether its lock or unlock call works, whether the time is over, whether the kernel
    cannot queue the thread, and whom a post hands its permit to. -/
structure Finds (τ : Type) where
  ok : Bool
  late : Bool
  full : Bool
  pick : Option τ

inductive Event (τ : Type) where
  | start (t : τ) (op : Op)
  | run (t : τ) (f : Finds τ)
  | wake (t : τ)

namespace Cond
variable (s : Cond τ) (t : τ)

def goto (pc : Pc) : Cond τ := { s with pc := Function.update s.pc t pc }

/-- The stamp of the free permit that `t` takes: the first one posted since it registered. -/
def permitFor : ℕ := (s.free.find? (s.reg t < ·)).getD (s.free.headD 0)

/-- `t` gets a permit, and waits no longer. -/
def got : Cond τ :=
  let s := if t ∈ s.sem.given then s else
    { s with free := s.free.erase (s.permitFor t), used := ⟨t, s.reg t, s.permitFor t⟩ :: s.used }
  { s with sem := s.sem.take t, waiting := s.waiting.erase t }.goto t (.relock .zero)

/-- `t` registers. -/
def register (timed : Bool) : Cond τ :=
  { s with waiters := s.waiters + 1, now := s.now + 1, waiting := insert t s.waiting,
           reg := Function.update s.reg t (s.now + 1) }.goto t (.unlock timed)

/-- `t` takes its registration back. -/
def forget (res : Res) : Cond τ :=
  { s with waiters := s.waiters - 1, waiting := s.waiting.erase t }.goto t (.relock res)

/-- One `semaphore_quit`. -/
def post (bc : Bool) (left : ℕ) (pick : Option τ) : Option (Cond τ) :=
  (s.sem.post semaphoreCountMax pick).map fun h =>
    match pick with
    | some w => { s with sem := h, now := s.now + 1, used := ⟨w, s.reg w, s.now + 1⟩ :: s.used }.goto t (.posting bc left)
    | none =>
      if s.sem.count < h.count then
        { s with sem := h, now := s.now + 1, free := s.free ++ [s.now + 1] }.goto t (.posting bc left)
      else s.goto t (.posting bc left)

/-- A section under the state lock, or what happens when the lock call fails. -/
def locked (f : Finds τ) (section' failed : Cond τ) : Option (Cond τ) :=
  if f.ok then if s.owner = none then some section' else none else some failed

/-- The next step of a thread. -/
def run (f : Finds τ) : Option (Cond τ) :=
  match s.pc t with
  | .out _ | .parked _ => none
  | .arrive timed => s.locked f (s.register t timed) (s.goto t (.out .einval))
  | .unlock timed =>
    some (if f.ok then s.goto t (if timed then .check else .enter false) else s.goto t .undo)
  | .undo => s.locked f (s.forget t .einval) { s.forget t .einval with owner := none }
  | .check => some (if f.late then s.goto t .giveUp else s.goto t (.enter true))
  | .enter timed =>
    some (if timed ∧ f.late then s.goto t .settle
      else if s.sem.gets t then s.got t
      else if f.full then { s with sem := s.sem.leave t }
      else { s with sem := s.sem.park t }.goto t (.parked timed))
  | .settle =>
    some (if s.sem.gets t then s.got t else { s with sem := s.sem.leave t }.goto t .giveUp)
  | .giveUp =>
    s.locked f (if s.sem.gets t then s.got t else s.forget t .etimedout)
      ({ s with waiting := s.waiting.erase t }.goto t (.relock .etimedout))
  | .relock res => some (s.goto t (.out res))
  | .call bc =>
    let posted := if bc then s.waiters else min 1 s.waiters
    s.locked f ({ s with waiters := s.waiters - posted, owner := some t }.goto t (.posting bc posted))
      ({ s with waiters := s.waiters - posted }.goto t (.posting bc posted))
  | .posting bc 0 =>
    some ({ s with owner := none, lastBc := if bc then s.now else s.lastBc }.goto t (.out .zero))
  | .posting bc (left + 1) => s.post t bc left f.pick

def step : Event τ → Option (Cond τ)
  | .start t op =>
    match s.pc t with
    | .out _ => some (s.goto t (match op with
      | .wait => .arrive false
      | .timedwait => .arrive true
      | .signal => .call false
      | .broadcast => .call true))
    | _ => none
  | .run t f => s.run t f
  | .wake t =>
    match s.pc t with
    | .parked timed => some (s.goto t (.enter timed))
    | _ => none

/-- Whether the next step of `t` asks for a permit. -/
def tries (f : Finds τ) : Bool :=
  match s.pc t with
  | .enter timed => !(timed && f.late)
  | .settle | .giveUp => true
  | _ => false

/-- The calls of the state lock and of the user's mutex work, and no more threads wait than a semaphore has
    permits. -/
def works (f : Finds τ) : Bool :=
  match s.pc t with
  | .arrive _ => f.ok && decide (s.waiting.card < semaphoreCountMax)
  | .unlock _ | .giveUp | .call _ => f.ok
  | _ => true

/-- A thread that takes a free permit registered before one of the free ones was posted. -/
def Careful : Event τ → Prop
  | .run t f =>
    s.works t f = true ∧ (s.tries t f = true → t ∉ s.sem.given → s.sem.count ≠ 0 → ∃ p ∈ s.free, s.reg t < p)
  | _ => True

/-- What the owner of the state lock has still to post. -/
def toPost : ℕ :=
  match s.owner with
  | some t => (match s.pc t with | .posting _ left => left | _ => 0)
  | none => 0

/-- The waiting threads that nobody gave a permit to, of those registered up to `b`. -/
def unserved (b : ℕ) : Finset τ := {t ∈ s.waiting | t ∉ s.sem.given ∧ s.reg t ≤ b}

end Cond

/-! ### The invariant -/

def Pc.posts : Pc → Bool
  | .posting _ _ => true
  | _ => false

structure Inv (s : Cond τ) : Prop where
  waits : ∀ t, t ∈ s.waiting ↔ (s.pc t).waits = true
  undone : ∀ t, s.pc t ≠ .undo
  locked : ∀ t, (s.pc t).posts = true ↔ s.owner = some t
  counted : s.waiting.card = s.waiters + s.toPost + s.sem.permits
  few : s.waiting.card ≤ semaphoreCountMax
  settled : s.sem.Settled
  queue : ∀ t, t ∈ s.sem.line ∨ t ∈ s.sem.given → (s.pc t).queued = true
  free : s.free.length = s.sem.count
  stamped : ∀ p ∈ s.free, p ≤ s.now
  known : ∀ t, s.reg t ≤ s.now
  past : s.lastBc ≤ s.now
  all : ∀ t left, s.pc t = .posting true left → s.waiters = 0
  enough : (s.unserved s.lastBc).card ≤ s.free.countP (· ≤ s.lastBc)
  earned : ∀ e ∈ s.used, e.registered < e.posted
  usedReg : ∀ e ∈ s.used, e.registered ≤ s.reg e.thread
  unused : ∀ e ∈ s.used, e.registered = s.reg e.thread →
    (e.thread ∈ s.waiting → e.thread ∈ s.sem.given) ∧ s.pc e.thread ≠ .relock .etimedout ∧ s.pc e.thread ≠ .out .etimedout

theorem inv_start : Inv (Cond.start : Cond τ) where
  waits := by simp [Cond.start, Pc.waits]
  undone := by simp [Cond.start]
  locked := by simp [Cond.start, Pc.posts]
  counted := rfl
  few := Nat.zero_le _
  settled := Handoff.settled_fresh 0
  queue := by simp [Cond.start, Handoff.fresh]
  free := rfl
  stamped := by simp [Cond.start]
  known := by simp [Cond.start]
  past := Nat.le_refl _
  all := by simp [Cond.start]
  enough := by simp [Cond.start, Cond.unserved]
  earned := by simp [Cond.start]
  usedReg := by simp [Cond.start]
  unused := by simp [Cond.start]

/-! ### What a step keeps -/

namespace Inv
variable {s u : Cond τ} {t : τ} {b : Pc} {h' : Handoff τ} {pick : Option τ} {bc : Bool} {left : ℕ}

theorem not_owner (h : Inv s) (hp : (s.pc t).posts = false) : s.owner ≠ some t := by
  intro ho
  have := (h.locked t).mpr ho
  simp [hp] at this

/-- What is left to post is told by the owner of the lock alone. -/
theorem toPost_goto (ho : s.owner ≠ some t) : (s.goto t b).toPost = s.toPost := by
  unfold Cond.toPost Cond.goto
  cases hown : s.owner with
  | none => rfl
  | some v =>
    have hv : v ≠ t := by
      rintro rfl
      exact ho hown
    simp [hv]

/-- A thread goes on inside a wait, or outside of all calls. -/
theorem move (h : Inv s) (hw : b.waits = (s.pc t).waits) (hs : (s.pc t).posts = false) (hb : b.posts = false)
    (hu : b ≠ .undo) (hq : (s.pc t).queued = true → b.queued = true ∨ (t ∉ s.sem.line ∧ t ∉ s.sem.given))
    (hr : b = .relock .etimedout ∨ b = .out .etimedout → s.pc t = .relock .etimedout) : Inv (s.goto t b) where
  waits := fun v => by
    rw [show (s.goto t b).waiting = s.waiting from rfl, h.waits v]
    exact update_cases (P := fun p : Pc => (s.pc v).waits = true ↔ p.waits = true) v (fun hv => by rw [hw, hv]) (fun _ => Iff.rfl)
  undone := fun v => update_cases (P := fun p : Pc => p ≠ .undo) v (fun _ => hu) (fun _ => h.undone v)
  locked := fun v => by
    refine update_cases (P := fun p : Pc => p.posts = true ↔ s.owner = some v) v (fun hv => ?_) (fun _ => h.locked v)
    have := h.not_owner hs
    simp [hb, hv, this]
  counted := by
    rw [toPost_goto (h.not_owner hs)]
    exact h.counted
  few := h.few
  settled := h.settled
  queue := fun v hv => by
    refine update_cases (P := fun p : Pc => p.queued = true) v (fun hvt => ?_) (fun _ => h.queue v hv)
    subst hvt
    rcases hq (h.queue v hv) with hb' | ⟨hl, hg⟩
    · exact hb'
    · exact absurd hv (not_or.mpr ⟨hl, hg⟩)
  free := h.free
  stamped := h.stamped
  known := h.known
  past := h.past
  all := fun v left hv => by
    refine h.all v left ?_
    by_cases hvt : v = t
    · subst hvt
      have : b = .posting true left := by simpa [Cond.goto] using hv
      simp [this, Pc.posts] at hb
    · simpa [Cond.goto, hvt] using hv
  enough := h.enough
  earned := h.earned
  usedReg := h.usedReg
  unused := fun e he hreg => by
    obtain ⟨hgiven, h1, h2⟩ := h.unused e he hreg
    refine ⟨hgiven, ?_, ?_⟩
    · exact update_cases (P := fun p : Pc => p ≠ .relock .etimedout) e.thread
        (fun hv hb' => h1 (hv ▸ hr (Or.inl hb'))) (fun _ => h1)
    · exact update_cases (P := fun p : Pc => p ≠ .out .etimedout) e.thread
        (fun hv hb' => h1 (hv ▸ hr (Or.inr hb'))) (fun _ => h2)

/-- A thread that posts nothing goes on. -/
theorem goes {p : Pc} (h : Inv s) (hp : s.pc t = p)
    (hq : p.queued = true → b.queued = true ∨ (t ∉ s.sem.line ∧ t ∉ s.sem.given) := by simp [Pc.queued])
    (hr : b = .relock .etimedout ∨ b = .out .etimedout → p = .relock .etimedout := by simp)
    (hw : b.waits = p.waits := by rfl) (hs : p.posts = false := by rfl) (hb : b.posts = false := by rfl)
    (hu : b ≠ .undo := by simp) : Inv (s.goto t b) := by
  subst hp
  exact h.move hw hs hb hu hq hr

/-- A new waiting thread. -/
theorem register {timed : Bool} (h : Inv s) (hp : (s.pc t).waits = false) (hs : (s.pc t).posts = false)
    (hq : (s.pc t).queued = false) (ho : s.owner = none) (hfew : s.waiting.card < semaphoreCountMax) :
    Inv (s.register t timed) := by
  have hout : t ∉ s.waiting := by simp [h.waits, hp]
  have hzero : s.toPost = 0 := by simp [Cond.toPost, ho]
  have hzero' : (s.register t timed).toPost = 0 := by simp [Cond.toPost, Cond.register, Cond.goto, ho]
  have hnew : ∀ v, v ≠ t → (s.register t timed).reg v = s.reg v := fun v hv => by simp [Cond.register, Cond.goto, hv]
  have hself : (s.register t timed).reg t = s.now + 1 := by simp [Cond.register, Cond.goto]
  have hold : ∀ e ∈ s.used, e.registered = (s.register t timed).reg e.thread → e.thread ≠ t := by
    intro e he hreg heq
    have := h.usedReg e he
    have := h.known t
    rw [heq, hself] at hreg
    rw [heq] at *
    omega
  refine ⟨fun v => ?waits, fun v => ?undone, fun v => ?locked, ?counted, ?few, h.settled,
    fun v hv => ?queue, h.free, fun p hp' => ?stamped, fun v => ?known, ?past,
    fun v left hv => ?all, ?enough, h.earned, fun e he => ?usedReg, fun e he hreg => ?unused⟩
  case waits =>
    refine update_cases (P := fun p : Pc => v ∈ insert t s.waiting ↔ p.waits = true) v (fun hv => by simp [hv, Pc.waits]) (fun hv => ?_)
    simp [hv, h.waits]
  case undone =>
    exact update_cases (P := fun p : Pc => p ≠ .undo) v (fun _ => by simp) (fun _ => h.undone v)
  case locked =>
    refine update_cases (P := fun p : Pc => p.posts = true ↔ s.owner = some v) v (fun _ => by simp [Pc.posts, ho]) (fun _ => h.locked v)
  case counted =>
    have := h.counted
    rw [hzero']
    change (insert t s.waiting).card = s.waiters + 1 + 0 + s.sem.permits
    rw [Finset.card_insert_of_notMem hout]
    omega
  case few =>
    change (insert t s.waiting).card ≤ _
    rw [Finset.card_insert_of_notMem hout]
    exact hfew
  case queue =>
    refine update_cases (P := fun p : Pc => p.queued = true) v (fun hvt => ?_) (fun _ => h.queue v hv)
    have := h.queue v hv
    rw [hvt, hq] at this
    cases this
  case stamped =>
    exact Nat.le_succ_of_le (h.stamped p hp')
  case known =>
    change (s.register t timed).reg v ≤ s.now + 1
    by_cases hv : v = t
    · rw [hv, hself]
    · rw [hnew v hv]
      exact Nat.le_succ_of_le (h.known v)
  case past =>
    exact Nat.le_succ_of_le h.past
  case all =>
    have hv' : Function.update s.pc t (.unlock timed) v = .posting true left := hv
    have hvt : v ≠ t := by
      rintro rfl
      simp at hv'
    have := (h.locked v).mp (by rw [← Function.update_of_ne hvt (.unlock timed) s.pc, hv']; rfl)
    simp [ho] at this
  case enough =>
    -- the new one registered after every broadcast
    have hsame : (s.register t timed).unserved s.lastBc = s.unserved s.lastBc := by
      ext v
      simp only [Cond.unserved, Finset.mem_filter]
      by_cases hv : v = t
      · subst hv
        have := h.past
        simp only [hself]
        constructor
        · rintro ⟨-, -, hle⟩
          omega
        · rintro ⟨hin, -, -⟩
          exact absurd hin hout
      · rw [hnew v hv]
        simp [Cond.register, Cond.goto, hv]
    change ((s.register t timed).unserved s.lastBc).card ≤ _
    rw [hsame]
    exact h.enough
  case usedReg =>
    by_cases hv : e.thread = t
    · have := h.usedReg e he
      have := h.known e.thread
      rw [hv, hself]
      rw [hv] at *
      omega
    · rw [hnew _ hv]
      exact h.usedReg e he
  case unused =>
    have hne := hold e he hreg
    obtain ⟨hgiven, h1, h2⟩ := h.unused e he (by rw [hreg]; exact hnew _ hne)
    have hpc : (s.register t timed).pc e.thread = s.pc e.thread := by simp [Cond.register, Cond.goto, hne]
    rw [hpc]
    exact ⟨fun hin => hgiven ((Finset.mem_insert.mp hin).resolve_left hne), h1, h2⟩

theorem given_waits (h : Inv s) {v : τ} (hv : v ∈ s.sem.given) : v ∈ s.waiting := by
  have := h.queue v (Or.inr hv)
  rw [h.waits]
  cases hp : s.pc v <;> simp [hp, Pc.queued, Pc.waits] at this ⊢

/-- The place of `t` in the line changes. -/
theorem inLine {l : Finset τ} (h : Inv s) (hl : ({ s.sem with line := l } : Handoff τ).Settled)
    (hq : ∀ v ∈ l, v ∈ s.sem.line ∨ (s.pc v).queued = true) : Inv { s with sem := { s.sem with line := l } } :=
  { h with
    settled := hl
    queue := fun v hv => by
      rcases hv with hv | hv
      · exact (hq v hv).elim (fun hin => h.queue v (Or.inl hin)) id
      · exact h.queue v (Or.inr hv) }

omit [DecidableEq τ] in
/-- The free permit that `t` takes was posted since it registered, if there is one. -/
theorem permitFor_spec (hc : ∃ p ∈ s.free, s.reg t < p) : s.permitFor t ∈ s.free ∧ s.reg t < s.permitFor t := by
  obtain ⟨p, hp, hlt⟩ := hc
  cases hf : s.free.find? (s.reg t < ·) with
  | none => exact absurd (by simpa using hlt) (List.find?_eq_none.mp hf p hp)
  | some q =>
    have hq : s.permitFor t = q := by simp [Cond.permitFor, hf]
    rw [hq]
    exact ⟨List.mem_of_find?_eq_some hf, by simpa using List.find?_some hf⟩

/-- A permit is taken. -/
theorem got (h : Inv s) (hw : (s.pc t).waits = true) (hg : s.sem.gets t)
    (hc : t ∉ s.sem.given → ∃ p ∈ s.free, s.reg t < p) : Inv (s.got t) := by
  have hs : (s.pc t).posts = false := by cases hp : s.pc t <;> simp [hp, Pc.waits, Pc.posts] at hw ⊢
  have hin : t ∈ s.waiting := (h.waits t).mpr hw
  have hsem : (s.got t).sem = s.sem.take t := by
    unfold Cond.got
    split <;> rfl
  have hpc : (s.got t).pc = Function.update s.pc t (.relock .zero) := by
    unfold Cond.got
    split <;> rfl
  have hwaiting : (s.got t).waiting = s.waiting.erase t := by
    unfold Cond.got
    split <;> rfl
  have hreg : (s.got t).reg = s.reg := by
    unfold Cond.got
    split <;> rfl
  have hsame : (s.got t).owner = s.owner ∧ (s.got t).waiters = s.waiters ∧ (s.got t).now = s.now ∧
      (s.got t).lastBc = s.lastBc := by
    unfold Cond.got
    split <;> exact ⟨rfl, rfl, rfl, rfl⟩
  obtain ⟨howner, hwaiters, hnow, hlast⟩ := hsame
  have htp : (s.got t).toPost = s.toPost := by
    have := toPost_goto (b := .relock .zero) (h.not_owner hs)
    unfold Cond.toPost at this ⊢
    rw [howner, hpc]
    exact this
  have hfree : (s.got t).free = if t ∈ s.sem.given then s.free else s.free.erase (s.permitFor t) := by
    unfold Cond.got
    split <;> rfl
  have hused : ∀ e ∈ (s.got t).used, e ∈ s.used ∨ (t ∉ s.sem.given ∧ e = ⟨t, s.reg t, s.permitFor t⟩) := by
    intro e he
    unfold Cond.got at he
    split at he
    · exact Or.inl he
    · rename_i hng
      exact (List.mem_cons.mp he).symm.imp_right fun heq => ⟨hng, heq⟩
  refine ⟨fun v => ?waits, fun v => ?undone, fun v => ?locked, ?counted, ?few, ?settled, fun v hv => ?queue,
    ?free, fun p hp => ?stamped, ?known, ?past,
    fun v left hv => ?all, ?enough, fun e he => ?earned, fun e he => ?usedReg, fun e he heq => ?unused⟩
  case waits =>
    rw [hwaiting, hpc]
    refine update_cases (P := fun p : Pc => v ∈ s.waiting.erase t ↔ p.waits = true) v (fun hv => by simp [hv, Pc.waits]) (fun hv => ?_)
    simp [hv, h.waits]
  case undone =>
    rw [hpc]
    exact update_cases (P := fun p : Pc => p ≠ .undo) v (fun _ => by simp) (fun _ => h.undone v)
  case locked =>
    rw [hpc, howner]
    refine update_cases (P := fun p : Pc => p.posts = true ↔ s.owner = some v) v (fun hv => ?_) (fun _ => h.locked v)
    simp [hv, Pc.posts, h.not_owner hs]
  case counted =>
    have := h.counted
    have := Handoff.permits_take hg
    rw [hwaiting, hwaiters, htp, hsem, Finset.card_erase_of_mem hin]
    omega
  case few =>
    rw [hwaiting, Finset.card_erase_of_mem hin]
    have := h.few
    omega
  case settled =>
    rw [hsem]
    exact h.settled.take
  case queue =>
    rw [hsem] at hv
    rw [hpc]
    refine update_cases (P := fun p : Pc => p.queued = true) v (fun hvt => ?_) (fun _ => ?_)
    · subst hvt
      rcases hv with hv | hv
      · exact absurd hv (Handoff.not_mem_line_take h.settled)
      · exact absurd rfl (Handoff.mem_given_take.mp hv).2
    · rcases hv with hv | hv
      · exact h.queue v (Or.inl (Handoff.mem_line_take hv))
      · exact h.queue v (Or.inr (Handoff.mem_given_take.mp hv).1)
  case free =>
    rw [hfree, hsem]
    have := h.free
    unfold Handoff.take
    split
    · exact this
    · rename_i hng
      simp only [List.length_erase_of_mem (permitFor_spec (hc hng)).1, this]
  case stamped =>
    rw [hfree] at hp
    rw [hnow]
    split at hp
    · exact h.stamped p hp
    · exact h.stamped p (List.mem_of_mem_erase hp)
  case known =>
    rw [hreg, hnow]
    exact h.known
  case past =>
    rw [hlast, hnow]
    exact h.past
  case all =>
    rw [hwaiters]
    rw [hpc] at hv
    have hvt : v ≠ t := by
      rintro rfl
      simp at hv
    exact h.all v left (by simpa [hvt] using hv)
  case enough =>
    rw [hlast, hfree]
    have hen := h.enough
    by_cases hng : t ∈ s.sem.given
    · rw [if_pos hng]
      refine Nat.le_trans (Finset.card_le_card fun v hv => ?_) hen
      simp only [Cond.unserved, Finset.mem_filter, hwaiting, hsem, hreg, Finset.mem_erase] at hv ⊢
      exact ⟨hv.1.2, fun hin' => hv.2.1 (Handoff.mem_given_take.mpr ⟨hin', hv.1.1⟩), hv.2.2⟩
    · rw [if_neg hng]
      obtain ⟨hmem, hlt⟩ := permitFor_spec (hc hng)
      have hsub : (s.got t).unserved s.lastBc ⊆ (s.unserved s.lastBc).erase t := fun v hv => by
        simp only [Cond.unserved, Finset.mem_filter, hwaiting, hsem, hreg, Finset.mem_erase] at hv ⊢
        exact ⟨hv.1.1, hv.1.2, fun hin' => hv.2.1 (Handoff.mem_given_take.mpr ⟨hin', hv.1.1⟩), hv.2.2⟩
      have hle := Finset.card_le_card hsub
      by_cases hb : s.reg t ≤ s.lastBc
      · have htin : t ∈ s.unserved s.lastBc := by simp [Cond.unserved, hin, hng, hb]
        rw [Finset.card_erase_of_mem htin] at hle
        rw [List.countP_erase]
        split <;> omega
      · rw [List.countP_erase, if_neg (by simp; omega)]
        exact Nat.le_trans hle (Nat.le_trans (Finset.card_le_card (Finset.erase_subset _ _)) hen)
  case earned =>
    rcases hused e he with he | ⟨hng, rfl⟩
    · exact h.earned e he
    · exact (permitFor_spec (hc hng)).2
  case usedReg =>
    rw [hreg]
    rcases hused e he with he | ⟨-, rfl⟩
    · exact h.usedReg e he
    · exact Nat.le_refl _
  case unused =>
    rw [hreg] at heq
    rw [hwaiting, hsem, hpc]
    by_cases het : e.thread = t
    · simp [het]
    · have hold : e ∈ s.used := by
        rcases hused e he with he | ⟨-, rfl⟩
        · exact he
        · exact absurd rfl het
      obtain ⟨hgiven, h1, h2⟩ := h.unused e hold heq
      simp only [Function.update_of_ne het]
      exact ⟨fun hin' => Handoff.mem_given_take.mpr ⟨hgiven (Finset.mem_of_mem_erase hin'), het⟩, h1, h2⟩

/-- A thread that finds no permit takes its registration back. -/
theorem forget (h : Inv s) (hw : (s.pc t).waits = true) (hq : (s.pc t).queued = false) (hg : ¬s.sem.gets t)
    (ho : s.owner = none) : Inv (s.forget t .etimedout) := by
  obtain ⟨hng, hcount⟩ := not_or.mp hg
  have hcount : s.sem.count = 0 := by simpa using hcount
  have hin : t ∈ s.waiting := (h.waits t).mpr hw
  have hs : (s.pc t).posts = false := by cases hp : s.pc t <;> simp [hp, Pc.waits, Pc.posts] at hw ⊢
  -- all permits are given to others, so that `waiters` counts this thread
  have hpos : 0 < s.waiters := by
    have hsub : s.sem.given ⊆ s.waiting.erase t := fun v hv =>
      Finset.mem_erase.mpr ⟨fun he => hng (he ▸ hv), h.given_waits hv⟩
    have hle := Finset.card_le_card hsub
    rw [Finset.card_erase_of_mem hin] at hle
    have hcard := Finset.card_pos.mpr ⟨t, hin⟩
    have := h.counted
    simp only [Cond.toPost, ho, Handoff.permits, hcount] at this
    omega
  have hgo : (s.forget t .etimedout).toPost = s.toPost := by simp [Cond.toPost, Cond.forget, Cond.goto, ho]
  refine ⟨fun v => ?waits, fun v => ?undone, fun v => ?locked, ?counted, ?few, h.settled,
    fun v hv => ?queue, h.free, h.stamped, h.known, h.past,
    fun v left hv => ?all, ?enough, h.earned, h.usedReg, fun e he heq => ?unused⟩
  case waits =>
    refine update_cases (P := fun p : Pc => v ∈ s.waiting.erase t ↔ p.waits = true) v (fun hv => by simp [hv, Pc.waits]) (fun hv => ?_)
    simp [hv, h.waits]
  case undone =>
    exact update_cases (P := fun p : Pc => p ≠ .undo) v (fun _ => by simp) (fun _ => h.undone v)
  case locked =>
    exact update_cases (P := fun p : Pc => p.posts = true ↔ s.owner = some v) v (fun _ => by simp [Pc.posts, ho]) (fun _ => h.locked v)
  case counted =>
    have := h.counted
    rw [hgo]
    change (s.waiting.erase t).card = s.waiters - 1 + s.toPost + s.sem.permits
    rw [Finset.card_erase_of_mem hin]
    omega
  case few =>
    change (s.waiting.erase t).card ≤ _
    rw [Finset.card_erase_of_mem hin]
    have := h.few
    omega
  case queue =>
    refine update_cases (P := fun p : Pc => p.queued = true) v (fun hvt => ?_) (fun _ => h.queue v hv)
    have := h.queue v hv
    rw [hvt, hq] at this
    cases this
  case all =>
    have hvt : v ≠ t := by
      rintro rfl
      simp [Cond.forget, Cond.goto] at hv
    have := (h.locked v).mp (by
      have hv' : s.pc v = .posting true left := by simpa [Cond.forget, Cond.goto, hvt] using hv
      simp [hv', Pc.posts])
    simp [ho] at this
  case enough =>
    refine Nat.le_trans (Finset.card_le_card fun v hv => ?_) h.enough
    obtain ⟨hin', hrest⟩ := Finset.mem_filter.mp hv
    exact Finset.mem_filter.mpr ⟨Finset.mem_of_mem_erase hin', hrest⟩
  case unused =>
    obtain ⟨hgiven, h1, h2⟩ := h.unused e he heq
    have het : e.thread ≠ t := fun het => hng (het ▸ hgiven (het ▸ hin))
    have hpc : (s.forget t .etimedout).pc e.thread = s.pc e.thread := by simp [Cond.forget, Cond.goto, het]
    rw [hpc]
    exact ⟨fun hin' => hgiven (Finset.mem_of_mem_erase hin'), h1, h2⟩

/-- The lock is taken for a signal or a broadcast. -/
theorem call {n : ℕ} (h : Inv s) (hw : (s.pc t).waits = false) (hq : (s.pc t).queued = false) (ho : s.owner = none)
    (hn : n ≤ s.waiters) (hall : bc = true → n = s.waiters) :
    Inv ({ s with waiters := s.waiters - n, owner := some t }.goto t (.posting bc n)) := by
  have hnone : ∀ v, (s.pc v).posts = false := fun v => by
    have := h.locked v
    simp [ho] at this
    exact this
  refine ⟨fun v => ?waits, fun v => ?undone, fun v => ?locked, ?counted, h.few, h.settled,
    fun v hv => ?queue, h.free, h.stamped, h.known, h.past,
    fun v left hv => ?all, h.enough, h.earned, h.usedReg, fun e he heq => ?unused⟩
  case waits =>
    rw [show (Cond.goto { s with waiters := s.waiters - n, owner := some t } t (.posting bc n)).waiting = s.waiting from rfl, h.waits v]
    exact update_cases (P := fun p : Pc => (s.pc v).waits = true ↔ p.waits = true) v
      (fun hv => by rw [hv, hw]; simp [Pc.waits]) (fun _ => Iff.rfl)
  case undone =>
    exact update_cases (P := fun p : Pc => p ≠ .undo) v (fun _ => by simp) (fun _ => h.undone v)
  case locked =>
    refine update_cases (P := fun p : Pc => p.posts = true ↔ some t = some v) v (fun hv => by simp [hv, Pc.posts]) (fun hv => ?_)
    simp [hnone v, Ne.symm hv]
  case counted =>
    have := h.counted
    have htp : (Cond.goto { s with waiters := s.waiters - n, owner := some t } t (.posting bc n)).toPost = n := by
      simp [Cond.toPost, Cond.goto]
    rw [htp]
    simp only [Cond.toPost, ho] at this
    change s.waiting.card = s.waiters - n + n + s.sem.permits
    omega
  case queue =>
    refine update_cases (P := fun p : Pc => p.queued = true) v (fun hvt => ?_) (fun _ => h.queue v hv)
    have := h.queue v hv
    rw [hvt, hq] at this
    cases this
  case all =>
    by_cases hvt : v = t
    · subst hvt
      have hbc : bc = true := by
        have : Pc.posting bc n = .posting true left := by simpa [Cond.goto] using hv
        injection this
      change s.waiters - n = 0
      have := hall hbc
      omega
    · have hv' : s.pc v = .posting true left := by simpa [Cond.goto, hvt] using hv
      have := hnone v
      simp [hv', Pc.posts] at this
  case unused =>
    obtain ⟨hgiven, h1, h2⟩ := h.unused e he heq
    refine ⟨hgiven, ?_, ?_⟩
    · exact update_cases (P := fun p : Pc => p ≠ .relock .etimedout) e.thread (fun _ => by simp) (fun _ => h1)
    · exact update_cases (P := fun p : Pc => p ≠ .out .etimedout) e.thread (fun _ => by simp) (fun _ => h2)

/-- One permit is posted, and none is refused. -/
theorem post (h : Inv s) (hp : s.pc t = .posting bc (left + 1)) (hst : s.post t bc left pick = some u) :
    Inv u ∧ u.pc t = .posting bc left ∧ u.sem.permits = s.sem.permits + 1 := by
  have ho : s.owner = some t := (h.locked t).mp (by simp [hp, Pc.posts])
  have htp : s.toPost = left + 1 := by simp [Cond.toPost, ho, hp]
  have hcount := h.counted
  have hfew := h.few
  have htop : s.sem.count < semaphoreCountMax := by
    unfold Handoff.permits at hcount
    omega
  have hcounted : ∀ v : Cond τ, v.owner = some t → v.pc = Function.update s.pc t (.posting bc left) →
      v.waiting = s.waiting → v.waiters = s.waiters → v.sem.permits = s.sem.permits + 1 →
      v.waiting.card = v.waiters + v.toPost + v.sem.permits := by
    intro v hv hpc hin hw hperm
    have : v.toPost = left := by simp [Cond.toPost, hv, hpc]
    rw [this, hin, hw, hperm]
    omega
  -- what the post does not touch
  have hwaits : ∀ v, v ∈ s.waiting ↔ (Function.update s.pc t (.posting bc left) v).waits = true := fun v => by
    rw [h.waits v]
    exact update_cases (P := fun p : Pc => (s.pc v).waits = true ↔ p.waits = true) v (fun hv => by simp [hv, hp, Pc.waits]) (fun _ => Iff.rfl)
  have hundone : ∀ v, Function.update s.pc t (.posting bc left) v ≠ .undo := fun v =>
    update_cases (P := fun p : Pc => p ≠ .undo) v (fun _ => by simp) (fun _ => h.undone v)
  have hlocked : ∀ v, (Function.update s.pc t (.posting bc left) v).posts = true ↔ s.owner = some v := fun v =>
    update_cases (P := fun p : Pc => p.posts = true ↔ s.owner = some v) v (fun hv => by simp [hv, Pc.posts, ho]) (fun _ => h.locked v)
  have hqueue : ∀ v, (s.pc v).queued = true → (Function.update s.pc t (.posting bc left) v).queued = true := fun v hv =>
    update_cases (P := fun p : Pc => p.queued = true) v (fun hvt => by simp [hvt, hp, Pc.queued] at hv) (fun _ => hv)
  have hall : ∀ v l, Function.update s.pc t (.posting bc left) v = .posting true l → s.waiters = 0 := fun v l hv => by
    by_cases hvt : v = t
    · subst hvt
      have hbc : bc = true := by
        have : Pc.posting bc left = .posting true l := by simpa using hv
        injection this
      exact h.all v (left + 1) (by rw [hp, hbc])
    · exact h.all v l (by simpa [hvt] using hv)
  have hstill : ∀ v, s.pc v ≠ .relock .etimedout ∧ s.pc v ≠ .out .etimedout →
      Function.update s.pc t (.posting bc left) v ≠ .relock .etimedout ∧
        Function.update s.pc t (.posting bc left) v ≠ .out .etimedout := fun v hv =>
    ⟨update_cases (P := fun p : Pc => p ≠ .relock .etimedout) v (fun _ => by simp) (fun _ => hv.1),
      update_cases (P := fun p : Pc => p ≠ .out .etimedout) v (fun _ => by simp) (fun _ => hv.2)⟩
  obtain ⟨g, hg, rfl⟩ := Option.map_eq_some_iff.mp hst
  cases pick with
  | some w =>
    obtain ⟨⟨hw, -⟩, rfl⟩ := by
      simpa only [Handoff.post, Option.ite_none_right_eq_some, Option.some.injEq] using hg
    have hnew : w ∉ s.sem.given := h.settled.apart w hw
    have hperm : ({ s.sem with line := s.sem.line.erase w, given := insert w s.sem.given } : Handoff τ).permits =
        s.sem.permits + 1 := by
      simp only [Handoff.permits, Finset.card_insert_of_notMem hnew]
      omega
    have hwq : (s.pc w).queued = true := h.queue w (Or.inl hw)
    dsimp only
    refine ⟨⟨hwaits, hundone, hlocked, ?_, hfew, h.settled.post hg, fun v hv => ?_, h.free, fun p hp' => ?_, fun v => ?_, ?_,
      hall, ?_, fun e he => ?_, fun e he => ?_, fun e he heq => ?_⟩, by simp [Cond.goto], hperm⟩
    · exact hcounted _ ho rfl rfl rfl hperm
    · refine hqueue v ?_
      rcases hv with hv | hv
      · exact h.queue v (Or.inl (Finset.mem_of_mem_erase hv))
      · rcases Finset.mem_insert.mp hv with rfl | hv
        · exact hwq
        · exact h.queue v (Or.inr hv)
    · exact Nat.le_succ_of_le (h.stamped p hp')
    · exact Nat.le_succ_of_le (h.known v)
    · exact Nat.le_succ_of_le h.past
    · refine Nat.le_trans (Finset.card_le_card fun v hv => ?_) h.enough
      obtain ⟨hin, hng, hle⟩ := Finset.mem_filter.mp hv
      exact Finset.mem_filter.mpr ⟨hin, fun hgv => hng (Finset.mem_insert_of_mem hgv), hle⟩
    · rcases List.mem_cons.mp he with rfl | he
      · exact Nat.lt_succ_of_le (h.known w)
      · exact h.earned e he
    · rcases List.mem_cons.mp he with rfl | he
      · exact Nat.le_refl _
      · exact h.usedReg e he
    · rcases List.mem_cons.mp he with rfl | he
      · refine ⟨fun _ => Finset.mem_insert_self w _, hstill w ⟨fun hr => ?_, fun hr => ?_⟩⟩ <;> simp [hr, Pc.queued] at hwq
      · obtain ⟨hgiven, h12⟩ := h.unused e he heq
        exact ⟨fun hin => Finset.mem_insert_of_mem (hgiven hin), hstill _ h12⟩
  | none =>
    have hroom : ¬semaphoreCountMax ≤ s.sem.count := by omega
    obtain ⟨hline, rfl⟩ := by
      simpa only [Handoff.post, if_neg hroom, Option.ite_none_right_eq_some, Option.some.injEq] using hg
    have hperm : ({ s.sem with count := s.sem.count + 1 } : Handoff τ).permits = s.sem.permits + 1 := by
      simp only [Handoff.permits]
      omega
    dsimp only
    rw [if_pos (Nat.lt_succ_self _)]
    refine ⟨⟨hwaits, hundone, hlocked, ?_, hfew, h.settled.post hg, fun v hv => hqueue v (h.queue v hv), ?_, fun p hp' => ?_,
      fun v => Nat.le_succ_of_le (h.known v), Nat.le_succ_of_le h.past, hall, ?_, h.earned, h.usedReg, fun e he heq => ?_⟩,
      by simp [Cond.goto], hperm⟩
    · exact hcounted _ ho rfl rfl rfl hperm
    · have := h.free
      simp [Cond.goto, this]
    · rcases List.mem_append.mp hp' with hp' | hp'
      · exact Nat.le_succ_of_le (h.stamped p hp')
      · rw [List.mem_singleton.mp hp']
        exact Nat.le_refl _
    · refine Nat.le_trans h.enough ?_
      change _ ≤ (s.free ++ [s.now + 1]).countP _
      rw [List.countP_append]
      exact Nat.le_add_right _ _
    · obtain ⟨hgiven, h12⟩ := h.unused e he heq
      exact ⟨hgiven, hstill _ h12⟩

/-- The lock is given back; a broadcast has a permit for every thread that waits. -/
theorem done (h : Inv s) (hp : s.pc t = .posting bc 0) :
    Inv ({ s with owner := none, lastBc := if bc then s.now else s.lastBc }.goto t (.out .zero)) := by
  have ho : s.owner = some t := (h.locked t).mp (by simp [hp, Pc.posts])
  have htp : s.toPost = 0 := by simp [Cond.toPost, ho, hp]
  have hcount := h.counted
  have hothers : ∀ v, v ≠ t → (s.pc v).posts = false := fun v hv => by
    have := h.locked v
    simp [ho, Ne.symm hv] at this
    exact this
  refine ⟨fun v => ?waits, fun v => ?undone, fun v => ?locked, ?counted, h.few, h.settled,
    fun v hv => ?queue, h.free, h.stamped, h.known, ?past,
    fun v left hv => ?all, ?enough, h.earned, h.usedReg, fun e he heq => ?unused⟩
  case waits =>
    change v ∈ s.waiting ↔ _
    rw [h.waits v]
    exact update_cases (P := fun p : Pc => (s.pc v).waits = true ↔ p.waits = true) v (fun hv => by simp [hv, hp, Pc.waits]) (fun _ => Iff.rfl)
  case undone =>
    exact update_cases (P := fun p : Pc => p ≠ .undo) v (fun _ => by simp) (fun _ => h.undone v)
  case locked =>
    refine update_cases (P := fun p : Pc => p.posts = true ↔ none = some v) v (fun _ => by simp [Pc.posts]) (fun hv => ?_)
    simp [hothers v hv]
  case counted =>
    change s.waiting.card = s.waiters + 0 + s.sem.permits
    omega
  case queue =>
    refine update_cases (P := fun p : Pc => p.queued = true) v (fun hvt => ?_) (fun _ => h.queue v hv)
    have := h.queue v hv
    simp [hvt, hp, Pc.queued] at this
  case past =>
    change (if bc then s.now else s.lastBc) ≤ s.now
    split
    · exact Nat.le_refl _
    · exact h.past
  case all =>
    have hvt : v ≠ t := by
      rintro rfl
      simp [Cond.goto] at hv
    have hv' : s.pc v = .posting true left := by simpa [Cond.goto, hvt] using hv
    have := hothers v hvt
    simp [hv', Pc.posts] at this
  case enough =>
    change (s.unserved (if bc then s.now else s.lastBc)).card ≤ s.free.countP (· ≤ (if bc then s.now else s.lastBc))
    cases bc with
    | false => exact h.enough
    | true =>
      have hzero := h.all t 0 hp
      have hfree : s.free.countP (fun p => decide (p ≤ s.now)) = s.free.length :=
        List.countP_eq_length.mpr fun p hp' => by simpa using h.stamped p hp'
      have hleft : s.unserved s.now = s.waiting \ s.sem.given := by
        ext v
        simp [Cond.unserved, h.known v]
      have hsub : s.sem.given ⊆ s.waiting := fun v hv => h.given_waits hv
      simp only [if_true]
      rw [hfree, h.free, hleft, Finset.card_sdiff_of_subset hsub]
      unfold Handoff.permits at hcount
      omega
  case unused =>
    obtain ⟨hgiven, h1, h2⟩ := h.unused e he heq
    refine ⟨hgiven, ?_, ?_⟩
    · exact update_cases (P := fun p : Pc => p ≠ .relock .etimedout) e.thread (fun _ => by simp) (fun _ => h1)
    · exact update_cases (P := fun p : Pc => p ≠ .out .etimedout) e.thread (fun _ => by simp) (fun _ => h2)

/-- A thread leaves the line, and moves. -/
theorem leave (h : Inv s) : Inv { s with sem := s.sem.leave t } :=
  h.inLine h.settled.leave fun _ hv => Or.inl (Finset.mem_of_mem_erase hv)

theorem apart_leave (hng : t ∉ s.sem.given) : t ∉ (s.sem.leave t).line ∧ t ∉ (s.sem.leave t).given :=
  ⟨by simp [Handoff.leave], hng⟩

/-- One step of a thread. -/
theorem run {f : Finds τ} (h : Inv s) (hok : s.Careful (.run t f)) (hst : s.run t f = some u) : Inv u := by
  obtain ⟨hcalls, htake⟩ := hok
  cases hp : s.pc t with
  | out res => simp [Cond.run, hp] at hst
  | parked timed => simp [Cond.run, hp] at hst
  | undo => exact absurd hp (h.undone t)
  | arrive timed =>
    simp only [Cond.works, hp, Bool.and_eq_true, decide_eq_true_eq] at hcalls
    simp only [Cond.run, Cond.locked, hp, hcalls.1, if_true, Option.ite_none_right_eq_some, Option.some.injEq] at hst
    obtain ⟨ho, rfl⟩ := hst
    exact h.register (by simp [hp, Pc.waits]) (by simp [hp, Pc.posts]) (by simp [hp, Pc.queued]) ho hcalls.2
  | unlock timed =>
    simp only [Cond.works, hp] at hcalls
    simp only [Cond.run, hp, hcalls, if_true, Option.some.injEq] at hst
    subst hst
    cases timed <;> exact h.goes hp
  | check =>
    simp only [Cond.run, hp, Option.some.injEq] at hst
    subst hst
    split <;> exact h.goes hp
  | enter timed =>
    simp only [Cond.run, hp, Option.some.injEq] at hst
    subst hst
    by_cases hlate : timed = true ∧ f.late = true
    · rw [if_pos hlate]
      exact h.goes hp (fun _ => Or.inl rfl)
    rw [if_neg hlate]
    by_cases hg : s.sem.gets t
    · rw [if_pos hg]
      refine h.got (by simp [hp, Pc.waits]) hg fun hng => htake ?_ hng (hg.resolve_left hng)
      cases timed with
      | false => simp [Cond.tries, hp]
      | true => simpa [Cond.tries, hp] using hlate
    rw [if_neg hg]
    split
    · exact h.leave
    · -- a place in the line is one of a thread in the call
      have hin : Inv { s with sem := s.sem.park t } := h.inLine (h.settled.park hg) fun v hv => by
        rcases Finset.mem_insert.mp hv with rfl | hv
        · exact Or.inr (by simp [hp, Pc.queued])
        · exact Or.inl hv
      exact hin.goes hp (fun _ => Or.inl rfl)
  | settle =>
    simp only [Cond.run, hp, Option.some.injEq] at hst
    subst hst
    by_cases hg : s.sem.gets t
    · rw [if_pos hg]
      exact h.got (by simp [hp, Pc.waits]) hg fun hng => htake (by simp [Cond.tries, hp]) hng (hg.resolve_left hng)
    · rw [if_neg hg]
      exact h.leave.goes (t := t) hp (fun _ => Or.inr (apart_leave (not_or.mp hg).1))
  | giveUp =>
    simp only [Cond.works, hp] at hcalls
    simp only [Cond.run, Cond.locked, hp, hcalls, if_true, Option.ite_none_right_eq_some, Option.some.injEq] at hst
    obtain ⟨ho, rfl⟩ := hst
    split
    · rename_i hg
      exact h.got (by simp [hp, Pc.waits]) hg fun hng => htake (by simp [Cond.tries, hp]) hng (hg.resolve_left hng)
    · rename_i hg
      exact h.forget (by simp [hp, Pc.waits]) (by simp [hp, Pc.queued]) hg ho
  | relock res =>
    simp only [Cond.run, hp, Option.some.injEq] at hst
    subst hst
    exact h.goes hp
  | call bc =>
    simp only [Cond.works, hp] at hcalls
    simp only [Cond.run, Cond.locked, hp, hcalls, if_true, Option.ite_none_right_eq_some, Option.some.injEq] at hst
    obtain ⟨ho, rfl⟩ := hst
    refine h.call (by simp [hp, Pc.waits]) (by simp [hp, Pc.queued]) ho ?_ (fun hbc => by simp [hbc])
    split <;> omega
  | posting bc left =>
    cases left with
    | zero =>
      simp only [Cond.run, hp, Option.some.injEq] at hst
      subst hst
      exact h.done hp
    | succ left =>
      simp only [Cond.run, hp] at hst
      exact (h.post hp hst).1

theorem step {e : Event τ} (h : Inv s) (hok : s.Careful e) (hst : s.step e = some u) : Inv u := by
  cases e with
  | start t op =>
    cases hp : s.pc t with
    | out res =>
      simp only [Cond.step, hp, Option.some.injEq] at hst
      subst hst
      cases op <;> exact h.goes hp
    | _ => simp [Cond.step, hp] at hst
  | run t f => exact h.run hok hst
  | wake t =>
    cases hp : s.pc t with
    | parked timed =>
      simp only [Cond.step, hp, Option.some.injEq] at hst
      subst hst
      exact h.goes hp (fun _ => Or.inl rfl)
    | _ => simp [Cond.step, hp] at hst

theorem reach (hr : Reach Cond.step Cond.Careful Cond.start s) : Inv s :=
  hr.inv inv_start fun _ _ _ h hok hst => h.step hok hst

end Inv

/-! ### What a step of one thread is to the others -/

/-- A step of `t` moves nobody else, and puts nobody else out of the line but by a permit. -/
structure Alone (s u : Cond τ) (t : τ) : Prop where
  pc : ∀ v, v ≠ t → u.pc v = s.pc v
  reg : ∀ v, u.reg v = s.reg v ∨ (v = t ∧ ∃ timed, s.pc t = .arrive timed)
  line : ∀ v, v ≠ t → v ∈ s.sem.line ∨ v ∈ s.sem.given → v ∈ u.sem.line ∨ v ∈ u.sem.given
  parked : ∀ timed, u.pc t = .parked timed → t ∈ u.sem.line
  last : u.lastBc = s.lastBc ∨ (s.pc t = .posting true 0 ∧ u.lastBc = s.now ∧ u.reg = s.reg)

namespace Alone
variable {s u : Cond τ} {t : τ} {b : Pc} {bc : Bool} {left : ℕ} {pick : Option τ}

/-- A thread goes on, and leaves the semaphore to the others. -/
theorem goto (hu : u.pc = s.pc) (hr : u.reg = s.reg) (hbc : u.lastBc = s.lastBc) (hl : ∀ v, v ≠ t → v ∈ s.sem.line ∨ v ∈ s.sem.given →
    v ∈ u.sem.line ∨ v ∈ u.sem.given) (hb : ∀ timed, b ≠ .parked timed) : Alone s (u.goto t b) t where
  pc := fun v hv => by simp [Cond.goto, hv, hu]
  reg := fun v => Or.inl (by simp [Cond.goto, hr])
  line := hl
  parked := fun timed hp => absurd (by simpa [Cond.goto] using hp) (hb timed)
  last := Or.inl hbc

theorem leave (v : τ) (hv : v ≠ t) (hin : v ∈ s.sem.line ∨ v ∈ s.sem.given) :
    v ∈ (s.sem.leave t).line ∨ v ∈ (s.sem.leave t).given :=
  hin.imp_left fun hl => Finset.mem_erase.mpr ⟨hv, hl⟩

theorem got : Alone s (s.got t) t := by
  unfold Cond.got
  split <;> exact goto rfl rfl rfl (fun v hv hin => Handoff.stays_take hv hin) (by simp)

theorem post (hst : s.post t bc left pick = some u) : Alone s u t := by
  obtain ⟨g, hg, rfl⟩ := Option.map_eq_some_iff.mp hst
  cases pick with
  | some w => exact goto rfl rfl rfl (fun v _ hin => Handoff.stays_post hg hin) (by simp)
  | none =>
    dsimp only
    split
    · exact goto rfl rfl rfl (fun v _ hin => Handoff.stays_post hg hin) (by simp)
    · exact goto rfl rfl rfl (fun v _ hin => hin) (by simp)

omit [DecidableEq τ] in
theorem locked {f : Finds τ} {a b : Cond τ} (hst : s.locked f a b = some u) (ha : Alone s a t) (hb : Alone s b t) :
    Alone s u t := by
  unfold Cond.locked at hst
  split at hst
  · obtain ⟨-, rfl⟩ := by simpa only [Option.ite_none_right_eq_some, Option.some.injEq] using hst
    exact ha
  · cases hst
    exact hb

theorem run {f : Finds τ} (hst : s.run t f = some u) : Alone s u t := by
  have stay : ∀ v, v ≠ t → v ∈ s.sem.line ∨ v ∈ s.sem.given → v ∈ s.sem.line ∨ v ∈ s.sem.given := fun _ _ hin => hin
  unfold Cond.run at hst
  split at hst
  · cases hst
  · cases hst
  · rename_i timed hp
    refine locked hst ⟨fun v hv => ?_, fun v => ?_, stay, fun timed hp => ?_, Or.inl rfl⟩ (goto rfl rfl rfl stay (by simp))
    · simp [Cond.register, Cond.goto, hv]
    · by_cases hv : v = t
      · exact Or.inr ⟨hv, timed, hp⟩
      · exact Or.inl (by simp [Cond.register, Cond.goto, hv])
    · simp [Cond.register, Cond.goto] at hp
  · cases hst
    split
    · exact goto rfl rfl rfl stay (by split <;> simp)
    · exact goto rfl rfl rfl stay (by simp)
  · have hf : Alone s (s.forget t .einval) t := goto rfl rfl rfl stay (by simp)
    exact locked hst hf ⟨hf.pc, hf.reg, hf.line, hf.parked, hf.last⟩
  · cases hst
    split <;> exact goto rfl rfl rfl stay (by simp)
  · cases hst
    split
    · exact goto rfl rfl rfl stay (by simp)
    split
    · exact got
    split
    · rename_i hp _ _ _
      exact ⟨fun _ _ => rfl, fun _ => Or.inl rfl, leave, fun timed' hp' => by simp [hp] at hp', Or.inl rfl⟩
    · refine ⟨fun v hv => ?_, fun _ => Or.inl rfl, fun v _ hin => ?_, fun _ _ => ?_, Or.inl rfl⟩
      · simp [Cond.goto, hv]
      · exact hin.imp_left fun hl => Finset.mem_insert_of_mem hl
      · exact Finset.mem_insert_self t _
  · cases hst
    split
    · exact got
    · exact goto rfl rfl rfl leave (by simp)
  · refine locked hst ?_ (goto rfl rfl rfl stay (by simp))
    split
    · exact got
    · exact goto rfl rfl rfl stay (by simp)
  · cases hst
    exact goto rfl rfl rfl stay (by simp)
  · exact locked hst (goto rfl rfl rfl stay (by simp)) (goto rfl rfl rfl stay (by simp))
  · rename_i bc hp
    cases hst
    refine ⟨fun v hv => by simp [Cond.goto, hv], fun _ => Or.inl rfl, stay, fun timed hp' => by simp [Cond.goto] at hp', ?_⟩
    cases bc with
    | false => exact Or.inl rfl
    | true => exact Or.inr ⟨hp, rfl, rfl⟩
  · exact post hst

end Alone

/-- Who is parked stands in the line, or has a permit. -/
theorem parked_stays {s : Cond τ} (hr : Reach Cond.step Free Cond.start s) {t : τ} {timed : Bool}
    (hp : s.pc t = .parked timed) : t ∈ s.sem.line ∨ t ∈ s.sem.given := by
  refine hr.inv (I := fun s => ∀ t timed, s.pc t = .parked timed → t ∈ s.sem.line ∨ t ∈ s.sem.given) (by simp [Cond.start])
    (fun s e u ih _ hst => ?_) t timed hp
  have hmove : ∀ {t b}, (∀ timed, b ≠ .parked timed) → ∀ v timed, (s.goto t b).pc v = .parked timed →
      v ∈ s.sem.line ∨ v ∈ s.sem.given := by
    intro t b hb v timed hv
    by_cases hvt : v = t
    · exact absurd (by simpa [Cond.goto, hvt] using hv) (hb timed)
    · exact ih v timed (by simpa [Cond.goto, hvt] using hv)
  cases e with
  | start t op =>
    simp only [Cond.step] at hst
    split at hst
    · cases hst
      exact hmove (by cases op <;> simp)
    · cases hst
  | wake t =>
    simp only [Cond.step] at hst
    split at hst
    · cases hst
      exact hmove (by simp)
    · cases hst
  | run t f =>
    have ha := Alone.run hst
    intro v timed hv
    by_cases hvt : v = t
    · subst hvt
      exact Or.inl (ha.parked timed hv)
    · rw [ha.pc v hvt] at hv
      exact ha.line v hvt (ih v timed hv)

/-- Between the user's mutex given up and about to be taken again. -/
def Pc.away : Pc → Bool
  | .check | .enter _ | .parked _ | .settle | .giveUp => true
  | _ => false

/-- Where a step leads when the calls work. -/
def Pc.Next : Pc → Pc → Prop
  | .arrive timed, q => q = .unlock timed
  | .unlock _, q => q.away = true
  | .check, q | .enter _, q | .settle, q | .giveUp, q => q.away = true ∨ ∃ res, q = .relock res
  | .relock res, q => q = .out res
  | .call bc, q => ∃ left, q = .posting bc left
  | .posting _ 0, q => q = .out .zero
  | .posting bc (left + 1), q => q = .posting bc left
  | _, _ => True

theorem got_pc {s : Cond τ} {t : τ} : (s.got t).pc t = .relock .zero := by
  unfold Cond.got
  split <;> simp [Cond.goto]

theorem next_run {s u : Cond τ} {t : τ} {f : Finds τ} (hst : s.run t f = some u) (hw : s.works t f = true) :
    (s.pc t).Next (u.pc t) := by
  unfold Cond.run Cond.locked at hst
  cases hp : s.pc t with
  | out res => trivial
  | parked timed => trivial
  | undo => trivial
  | arrive timed =>
    simp only [Cond.works, hp, Bool.and_eq_true] at hw
    simp only [hp, hw.1, if_true, Option.ite_none_right_eq_some, Option.some.injEq] at hst
    obtain ⟨-, rfl⟩ := hst
    simp [Pc.Next, Cond.register, Cond.goto]
  | unlock timed =>
    simp only [Cond.works, hp] at hw
    simp only [hp, hw, if_true, Option.some.injEq] at hst
    subst hst
    cases timed <;> simp [Pc.Next, Cond.goto, Pc.away]
  | check =>
    simp only [hp, Option.some.injEq] at hst
    subst hst
    split <;> simp [Pc.Next, Cond.goto, Pc.away]
  | enter timed =>
    simp only [hp, Option.some.injEq] at hst
    subst hst
    split
    · simp [Pc.Next, Cond.goto, Pc.away]
    split
    · simp [Pc.Next, got_pc]
    split
    · simp [Pc.Next, hp, Pc.away]
    · simp [Pc.Next, Cond.goto, Pc.away]
  | settle =>
    simp only [hp, Option.some.injEq] at hst
    subst hst
    split
    · simp [Pc.Next, got_pc]
    · simp [Pc.Next, Cond.goto, Pc.away]
  | giveUp =>
    simp only [Cond.works, hp] at hw
    simp only [hp, hw, if_true, Option.ite_none_right_eq_some, Option.some.injEq] at hst
    obtain ⟨-, rfl⟩ := hst
    split
    · simp [Pc.Next, got_pc]
    · simp [Pc.Next, Cond.forget, Cond.goto]
  | relock res =>
    simp only [hp, Option.some.injEq] at hst
    subst hst
    simp [Pc.Next, Cond.goto]
  | call bc =>
    simp only [Cond.works, hp] at hw
    simp only [hp, hw, if_true, Option.ite_none_right_eq_some, Option.some.injEq] at hst
    obtain ⟨-, rfl⟩ := hst
    simp [Pc.Next, Cond.goto]
  | posting bc left =>
    cases left with
    | zero =>
      simp only [hp, Option.some.injEq] at hst
      subst hst
      simp [Pc.Next, Cond.goto]
    | succ left =>
      simp only [hp] at hst
      obtain ⟨g, -, rfl⟩ := Option.map_eq_some_iff.mp hst
      split
      · simp [Pc.Next, Cond.goto]
      · split <;> simp [Pc.Next, Cond.goto]

/-! ### What signals and broadcasts do -/

/-- How many waiting threads no permit was posted for. -/
def Cond.unposted (s : Cond τ) : ℕ := s.waiting.card - s.sem.permits

structure Sound (s : Cond τ) : Prop where
  waits : ∀ t, t ∈ s.waiting ↔ (s.pc t).waits = true
  /-- `waiters` has them all but those that the owner of the state lock is about to post for. -/
  counted : s.sem.permits ≤ s.waiting.card ∧ s.waiters + s.toPost = s.unposted
  called : ∀ t bc f u, s.pc t = .call bc → f.ok = true → s.run t f = some u →
    u.pc t = .posting bc (if bc then s.unposted else min 1 s.unposted)
  posted : ∀ t bc left f u, s.pc t = .posting bc (left + 1) → s.run t f = some u →
    u.pc t = .posting bc left ∧ u.sem.permits = s.sem.permits + 1
  earned : ∀ e ∈ s.used, e.registered < e.posted
  served : ∀ t ∈ s.sem.line, s.lastBc < s.reg t
  late : ∀ t, s.pc t = .relock .etimedout ∨ s.pc t = .out .etimedout → ∀ e ∈ s.used, e.thread = t → e.registered < s.reg t
  clean : s.waiting = ∅ → s.sem.permits = 0

namespace Inv
variable {s : Cond τ}

theorem counted' (h : Inv s) : s.sem.permits ≤ s.waiting.card ∧ s.waiters + s.toPost = s.unposted := by
  have := h.counted
  unfold Cond.unposted
  omega

theorem called {t : τ} {bc : Bool} {f : Finds τ} {u : Cond τ} (h : Inv s) (hp : s.pc t = .call bc) (hok : f.ok = true)
    (hst : s.run t f = some u) : u.pc t = .posting bc (if bc then s.unposted else min 1 s.unposted) := by
  simp only [Cond.run, Cond.locked, hp, hok, if_true, Option.ite_none_right_eq_some, Option.some.injEq] at hst
  obtain ⟨ho, rfl⟩ := hst
  have hzero : s.toPost = 0 := by simp [Cond.toPost, ho]
  have := h.counted'.2
  rw [show s.waiters = s.unposted by omega]
  simp [Cond.goto]

/-- A thread in the line registered after the last broadcast: all that were there have permits. -/
theorem served {t : τ} (h : Inv s) (ht : t ∈ s.sem.line) : s.lastBc < s.reg t := by
  by_contra hle
  have hin : t ∈ s.waiting := by
    have := h.queue t (Or.inl ht)
    rw [h.waits]
    cases hp : s.pc t <;> simp [hp, Pc.queued, Pc.waits] at this ⊢
  have hmem : t ∈ s.unserved s.lastBc := by
    simp [Cond.unserved, hin, h.settled.apart t ht]
    omega
  have hnone : s.free = [] := List.length_eq_zero_iff.mp (h.free.trans (h.settled.free ⟨t, ht⟩))
  have hen := h.enough
  have := Finset.card_pos.mpr ⟨t, hmem⟩
  simp only [hnone, List.countP_nil] at hen
  omega

theorem sound (h : Inv s) : Sound s where
  waits := h.waits
  counted := h.counted'
  called := fun _ _ _ _ hp hok hst => h.called hp hok hst
  posted := fun t bc left f u hp hst => by
    simp only [Cond.run, hp] at hst
    exact (h.post hp hst).2
  earned := h.earned
  served := fun _ ht => h.served ht
  late := fun t ht e he het => by
    subst het
    refine Nat.lt_of_le_of_ne (h.usedReg e he) fun heq => ?_
    obtain ⟨-, h1, h2⟩ := h.unused e he heq
    exact ht.elim h1 h2
  clean := fun hnone => by
    have := h.counted'.1
    simpa [hnone] using this

end Inv

theorem signal_releases (s : Cond τ) (hr : Reach Cond.step Cond.Careful Cond.start s) : Sound s :=
  (Inv.reach hr).sound

instance (s : Cond τ) (e : Event τ) : Decidable (s.Careful e) :=
  match e with
  | .start _ _ => .isTrue trivial
  | .wake _ => .isTrue trivial
  | .run _ _ => inferInstanceAs (Decidable (_ ∧ (_ → _ → _ → _)))

/-- A step of `t` where everything works. -/
def go (t : ℕ) (pick : Option ℕ := none) : Event ℕ := .run t ⟨true, false, false, pick⟩

/-- 1 parks, 2 is not that far; a broadcast has a permit for each. -/
def bothReleased : List (Event ℕ) :=
  [.start 1 .wait, go 1, go 1, go 1, .start 2 .timedwait, go 2, go 2, .start 0 .broadcast, go 0, go 0 (some 1), go 0,
    go 0, go 2, go 2, .wake 1, go 1]

theorem signal_releases_both : ∃ s : Cond ℕ, Reach Cond.step Cond.Careful Cond.start s ∧
    s.used = [⟨2, 2, 4⟩, ⟨1, 1, 3⟩] ∧ Sound s := by
  have hrun : (Schemes.runIf Cond.step (fun s e => decide (s.Careful e)) Cond.start bothReleased).map Cond.used =
      some [⟨2, 2, 4⟩, ⟨1, 1, 3⟩] := by
    decide +kernel
  obtain ⟨s, hs, hused⟩ := Option.map_eq_some_iff.mp hrun
  have hreach := Schemes.reach_of_runIf hs fun _ _ h => of_decide_eq_true h
  exact ⟨s, hreach, hused, signal_releases s hreach⟩

/-- 1 is registered, but not in the semaphore when the signal comes; 2 comes after the signal and takes the permit. -/
def theft : List (Event ℕ) :=
  [.start 1 .wait, go 1, go 1, .start 0 .signal, go 0, go 0, go 0, .start 2 .wait, go 2, go 2, go 2, go 1]

theorem permit_stolen : ∃ s : Cond ℕ, Reach Cond.step Free Cond.start s ∧ s.used = [⟨2, 3, 2⟩] ∧
    s.sem.line = {1} ∧ s.sem.permits = 0 ∧ ¬Sound s := by
  have hrun : (Schemes.runOps Cond.step Cond.start theft).map (fun s => (s.used, s.sem.line, s.sem.permits)) =
      some ([⟨2, 3, 2⟩], {1}, 0) := by
    decide +kernel
  obtain ⟨s, hs, hfacts⟩ := Option.map_eq_some_iff.mp hrun
  simp only [Prod.mk.injEq] at hfacts
  obtain ⟨hused, hline, hnone⟩ := hfacts
  refine ⟨s, Schemes.reach_of_runOps hs, hused, hline, hnone, fun h => ?_⟩
  have := h.earned ⟨2, 3, 2⟩ (by simp [hused])
  simp at this

end EwokOS.Libc.Condvar
