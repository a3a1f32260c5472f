import EwokOS.Schemes.Crowd
import EwokOS.Schemes.Handoff
import EwokOS.Schemes.Run

/-! Mutexes (`libewoksys/src/pthread/pthread_mutex_common.h` and the calls around it).

    The word of a mutex has the state in its low two bits and the id of a semaphore above them. Locks and
    unlocks that meet nobody are a load and a compare-and-swap of the word. Who finds the lock taken
    publishes a semaphore in the word, once for the life of the mutex, marks the state WAIT and parks on
    it; an unlock out of WAIT posts one permit, which is a hint to look at the word again.

        FREE ──lock──▶ HELD ──announce──▶ WAIT          load ─▶ ensure ─▶ announce ─▶ enter ─▶ parked
          ▲              │                 │              ▲                             │ got     │
          └────unlock────┴──unlock, post───┘              └─────────────────────────────┴─────────┘

    Every load, every compare-and-swap and every semaphore call is one step of one thread. What a
    semaphore does is `Schemes.Handoff`; the kernel may wake a parked thread at any time. -/

namespace EwokOS.Libc.Mtx

open Schemes (Handoff Reach Free update_cases)

variable {τ : Type} [DecidableEq τ]

def mtxFree : ℕ := 0
def mtxHeld : ℕ := 1
def mtxWait : ℕ := 2

/-- Ids of semaphores are not above this (`SEMAPHORE_MAX`). -/
def semaphoreMax : ℕ := 1024
def semaphoreCountMax : ℕ := 0x7fffffff

/-- `w & MTX_STATE_MASK`. -/
def mtxState (w : ℕ) : ℕ := w % 4

/-- `w >> MTX_SEM_SHIFT`. -/
def mtxSem (w : ℕ) : ℕ := w / 4

/-- The word that `mtx_cas_state` puts in the place of `expect`. -/
def withState (expect st : ℕ) : ℕ := 4 * (expect / 4) + st

/-- The word that `mtx_ensure_sem` puts in the place of `cur`. -/
def withSem (cur id : ℕ) : ℕ := cur % 4 + 4 * id

@[simp] theorem mtxState_withState {w st : ℕ} (h : st < 4) : mtxState (withState w st) = st := by
  unfold mtxState withState
  omega

@[simp] theorem mtxSem_withState {w st : ℕ} (h : st < 4) : mtxSem (withState w st) = mtxSem w := by
  unfold mtxSem withState
  omega

@[simp] theorem mtxState_withSem {w id : ℕ} : mtxState (withSem w id) = mtxState w := by
  unfold mtxState withSem
  omega

@[simp] theorem mtxSem_withSem {w id : ℕ} : mtxSem (withSem w id) = id := by
  unfold mtxSem withSem
  omega

inductive Kind where | lock | trylock | timedlock
  deriving DecidableEq, Repr

inductive Res where | zero | ebusy | etimedout | enomem | einval
  deriving DecidableEq, Repr

/-- Where a thread is; `cur` is the word it loaded, `sem` and `id` are ids of semaphores. -/
inductive Pc where
  | out (res : Res)
  /-- `mtx_try_acquire`. -/
  | tryLoad (kind : Kind)
  | tryCas (kind : Kind) (cur : ℕ)
  /-- The head of the loop of `mtx_lock_contended`. -/
  | load (timed : Bool)
  | grab (timed : Bool) (cur : ℕ)
  | give (sem : ℕ)
  /-- `mtx_ensure_sem`. -/
  | ensure (timed : Bool)
  | alloc (timed : Bool)
  | publish (timed : Bool) (id : ℕ)
  | publishCas (timed : Bool) (id cur : ℕ)
  | drop (timed : Bool) (id cur : ℕ)
  /-- The inner loop of `mtx_lock_contended`. -/
  | announce (timed : Bool) (sem : ℕ)
  | announceCas (timed : Bool) (sem cur : ℕ)
  /-- In `semaphore_enter` or `semaphore_enter_timeout`: about to call, parked, and the last try. -/
  | enter (timed : Bool) (sem : ℕ)
  | parked (timed : Bool) (sem : ℕ)
  | settle (sem : ℕ)
  /-- `pthread_mutex_unlock`. -/
  | unLoad
  | unCas (cur : ℕ)
  | post (sem : ℕ)
  deriving DecidableEq, Repr

/-- A mutex and the threads around it: the word, the semaphores allocated for it, and who is between an
    acquire and its unlock. -/
structure Mutex (τ : Type) where
  word : ℕ
  chan : ℕ → Option (Handoff τ)
  pc : τ → Pc
  held : List τ

/-- `pthread_mutex_init`, or `PTHREAD_MUTEX_INITIALIZER`. -/
def Mutex.start : Mutex τ := ⟨0, fun _ => none, fun _ => .out .zero, []⟩

/-- What a step finds: whether the deadline has passed, whether the kernel cannot queue the thread, the id
    that an allocation returns (0 for none), and whom a post hands its permit to. -/
structure Finds (τ : Type) where
  late : Bool
  full : Bool
  id : ℕ
  pick : Option τ

inductive Event (τ : Type) where
  | lock (t : τ) (kind : Kind)
  | unlock (t : τ)
  | run (t : τ) (f : Finds τ)
  | wake (t : τ)

namespace Mutex
variable (s : Mutex τ) (t : τ)

def goto (pc : Pc) : Mutex τ := { s with pc := Function.update s.pc t pc }

def setChan (i : ℕ) (c : Option (Handoff τ)) : Mutex τ := { s with chan := Function.update s.chan i c }

/-- `semaphore_quit`; it does nothing where there is no such semaphore. -/
def semaphoreQuit (sem : ℕ) (pick : Option τ) : Option (Mutex τ) :=
  match s.chan sem with
  | none => some s
  | some c => (c.post semaphoreCountMax pick).map fun c => s.setChan sem (some c)

/-- After a failed `mtx_try_acquire`. -/
def lose : Kind → Mutex τ
  | .trylock => s.goto t (.out .ebusy)
  | .lock => s.goto t (.load false)
  | .timedlock => s.goto t (.load true)

/-- A compare-and-swap from `cur` that takes the lock. -/
def acquire (cur st : ℕ) (lost : Mutex τ) : Mutex τ :=
  if s.word = cur then { s with word := withState cur st, held := t :: s.held }.goto t (.out .zero) else lost

/-- One kernel attempt of `semaphore_enter` or `semaphore_enter_timeout`. -/
def semaphoreEnter (timed : Bool) (sem : ℕ) (full : Bool) : Mutex τ :=
  match s.chan sem with
  | none => s.goto t (.out .einval)
  | some c =>
    if c.gets t then (s.setChan sem (some (c.take t))).goto t (.load timed)
    else if full then s.setChan sem (some (c.leave t))
    else (s.setChan sem (some (c.park t))).goto t (.parked timed sem)

/-- The `semaphore_tryenter` at the end of `semaphore_enter_timeout`. -/
def semaphoreTryenter (sem : ℕ) : Mutex τ :=
  match s.chan sem with
  | none => s.goto t (.out .einval)
  | some c =>
    if c.gets t then (s.setChan sem (some (c.take t))).goto t (.load true)
    else (s.setChan sem (some (c.leave t))).goto t (.load true)

/-- The next step of a thread. -/
def run (f : Finds τ) : Option (Mutex τ) :=
  match s.pc t with
  | .out _ => none
  | .tryLoad kind =>
    some (if mtxState s.word ≠ mtxFree then s.lose t kind else s.goto t (.tryCas kind s.word))
  | .tryCas kind cur => some (s.acquire t cur mtxHeld (s.lose t kind))
  | .load timed =>
    some (if mtxState s.word = mtxFree then s.goto t (.grab timed s.word)
      else if timed ∧ f.late then
        if mtxSem s.word ≠ 0 then s.goto t (.give (mtxSem s.word)) else s.goto t (.out .etimedout)
      else s.goto t (.ensure timed))
  | .grab timed cur => some (s.acquire t cur mtxWait (s.goto t (.load timed)))
  | .give sem => (s.semaphoreQuit sem f.pick).map (·.goto t (.out .etimedout))
  | .ensure timed =>
    some (if mtxSem s.word ≠ 0 then s.goto t (.announce timed (mtxSem s.word)) else s.goto t (.alloc timed))
  | .alloc timed =>
    if f.id = 0 then some (s.goto t (.out .enomem))
    else if f.id ≤ semaphoreMax ∧ (s.chan f.id).isNone then
      some ((s.setChan f.id (some (.fresh 0))).goto t (.publish timed f.id))
    else none
  | .publish timed id =>
    some (if mtxSem s.word ≠ 0 then s.goto t (.drop timed id s.word) else s.goto t (.publishCas timed id s.word))
  | .publishCas timed id cur =>
    some (if s.word = cur then { s with word := withSem cur id }.goto t (.announce timed id)
      else s.goto t (.publish timed id))
  | .drop timed id cur => some ((s.setChan id none).goto t (.announce timed (mtxSem cur)))
  | .announce timed sem =>
    some (if mtxState s.word = mtxFree then s.goto t (.load timed)
      else if mtxState s.word = mtxWait then s.goto t (.enter timed sem)
      else s.goto t (.announceCas timed sem s.word))
  | .announceCas timed sem cur =>
    some (if s.word = cur then { s with word := withState cur mtxWait }.goto t (.enter timed sem)
      else s.goto t (.announce timed sem))
  | .enter timed sem =>
    some (if timed ∧ f.late then s.goto t (.settle sem) else s.semaphoreEnter t timed sem f.full)
  | .parked _ _ => none
  | .settle sem => some (s.semaphoreTryenter t sem)
  | .unLoad =>
    some (if mtxState s.word = mtxFree then s.goto t (.out .einval) else s.goto t (.unCas s.word))
  | .unCas cur =>
    some (if s.word = cur then
        { s with word := withState cur mtxFree, held := s.held.erase t }.goto t
          (if mtxState cur ≠ mtxHeld ∧ mtxSem cur ≠ 0 then .post (mtxSem cur) else .out .zero)
      else s.goto t .unLoad)
  | .post sem => (s.semaphoreQuit sem f.pick).map (·.goto t (.out .zero))

/-- Only a holder unlocks. -/
def step : Event τ → Option (Mutex τ)
  | .lock t kind =>
    match s.pc t with
    | .out _ => some (s.goto t (.tryLoad kind))
    | _ => none
  | .unlock t =>
    match s.pc t with
    | .out _ => if t ∈ s.held then some (s.goto t .unLoad) else none
    | _ => none
  | .run t f => s.run t f
  | .wake t =>
    match s.pc t with
    | .parked timed sem => some (s.goto t (.enter timed sem))
    | _ => none

/-- The semaphore in the word. -/
def channel : Handoff τ := (s.chan (mtxSem s.word)).getD (.fresh 0)

/-- Parked, and no permit was given to it. -/
def Parked : Prop := (∃ timed sem, s.pc t = .parked timed sem) ∧ t ∉ s.channel.given

/-- Nobody runs inside a call. -/
def Quiet : Prop := ∀ t, (∃ r, s.pc t = .out r) ∨ s.Parked t

end Mutex

/-! ### The invariant -/

namespace Pc

/-- The semaphore a thread took out of the word. -/
def sem : Pc → Option ℕ
  | .give i | .announce _ i | .announceCas _ i _ | .enter _ i | .parked _ i | .settle i | .post i => some i
  | _ => none

/-- The semaphore a thread has allocated and neither published nor freed. -/
def own : Pc → Option ℕ
  | .publish _ i | .publishCas _ i _ | .drop _ i _ => some i
  | _ => none

/-- Where a thread can be in the line of the semaphore, or have a permit there. -/
def queued : Pc → Bool
  | .enter _ _ | .parked _ _ | .settle _ => true
  | _ => false

/-- Where a thread goes to park without another look at the word. -/
def needs : Pc → Bool
  | .enter _ _ | .parked _ _ => true
  | _ => false

def sleeps : Pc → Bool
  | .parked _ _ => true
  | _ => false

/-- Where a thread is going to look at the word again, or to post. -/
def answers : Pc → Bool
  | .load _ | .grab _ _ | .give _ | .ensure _ | .publish _ _ | .publishCas _ _ _ | .drop _ _ _ | .announce _ _
  | .announceCas _ _ _ | .settle _ | .post _ => true
  | _ => false

def releasing : Pc → Bool
  | .unLoad | .unCas _ => true
  | _ => false

/-- What a thread has seen in the word, and may rely on. -/
def Saw (w : ℕ) : Pc → Prop
  | .tryCas _ cur | .grab _ cur => mtxState cur = mtxFree
  | .publishCas _ _ cur => mtxSem cur = 0
  | .drop _ _ cur => mtxSem cur = mtxSem w ∧ mtxSem w ≠ 0
  | .announceCas _ _ cur | .unCas cur => mtxState cur ≠ mtxFree
  | _ => True

end Pc

namespace Mutex
variable (s : Mutex τ)

/-- A thread that parks, or has parked, and has no permit. -/
def Needy (t : τ) : Prop := (s.pc t).needs = true ∧ t ∉ s.channel.given

/-- A thread that will take the lock, mark the word or pass a permit on. -/
def Answers (t : τ) : Prop := (s.pc t).answers = true ∨ t ∈ s.channel.given

/-- Whoever needs a wake-up has one coming. -/
def Answered : Prop :=
  ∀ t, s.Needy t → mtxState s.word = mtxWait ∨ 0 < s.channel.count ∨ ∃ v, s.Answers v

end Mutex

structure Inv (s : Mutex τ) : Prop where
  state : mtxState s.word ≤ mtxWait
  bound : mtxSem s.word ≤ semaphoreMax
  held : s.held.length = if mtxState s.word = mtxFree then 0 else 1
  owner : ∀ t, (s.pc t).releasing = true → t ∈ s.held
  sem : ∀ t i, (s.pc t).sem = some i → i = mtxSem s.word ∧ i ≠ 0
  own : ∀ t i, (s.pc t).own = some i → i ≠ 0 ∧ i ≤ semaphoreMax ∧ i ≠ mtxSem s.word ∧ s.chan i = some (.fresh 0)
  single : ∀ t u i, (s.pc t).own = some i → (s.pc u).own = some i → t = u
  mine : ∀ i, s.chan i ≠ none → i = mtxSem s.word ∨ ∃ t, (s.pc t).own = some i
  zero : s.chan 0 = none
  there : mtxSem s.word ≠ 0 → s.chan (mtxSem s.word) ≠ none
  saw : ∀ t, (s.pc t).Saw s.word
  settled : s.channel.Settled
  queue : ∀ t, t ∈ s.channel.line ∨ t ∈ s.channel.given → (s.pc t).queued = true
  lined : ∀ t, (s.pc t).sleeps = true → t ∈ s.channel.line ∨ t ∈ s.channel.given
  answered : s.Answered

theorem Pc.Saw.congr {p : Pc} {w w' : ℕ} (h : p.Saw w) (hw : mtxSem w' = mtxSem w) : p.Saw w' := by
  cases p <;> simp_all [Pc.Saw]

/-- What is asked of the place `b` that `t` goes to with the word `w` and the holders `l`. -/
structure Fits (s : Mutex τ) (t : τ) (b : Pc) (w : ℕ) (l : List τ) : Prop where
  rel : b.releasing = true → t ∈ l
  sem : ∀ i, b.sem = some i → i = mtxSem s.word ∧ i ≠ 0
  own : b.own = (s.pc t).own
  saw : b.Saw w

namespace Inv
variable {s u : Mutex τ} {t : τ} {b : Pc} {w : ℕ} {l : List τ} {c d : Handoff τ} {i : ℕ}

/-- The state bits and the place of one thread change. -/
theorem turn (h : Inv s) (hsem : mtxSem w = mtxSem s.word) (hstate : mtxState w ≤ mtxWait)
    (hheld : l.length = if mtxState w = mtxFree then 0 else 1)
    (howner : ∀ u, u ≠ t → (s.pc u).releasing = true → u ∈ l) (hb : Fits s t b w l)
    (hq : (s.pc t).queued = true → b.queued = true ∨ (t ∉ s.channel.line ∧ t ∉ s.channel.given))
    (hans : ({ s with word := w, held := l }.goto t b).Answered) (hawake : b.sleeps = false := by rfl) :
    Inv ({ s with word := w, held := l }.goto t b) := by
  have hchan : ({ s with word := w, held := l }.goto t b).channel = s.channel := by
    simp only [Mutex.channel, Mutex.goto, hsem]
  have hown : ∀ v, (({ s with word := w, held := l }.goto t b).pc v).own = (s.pc v).own := by
    intro v
    refine update_cases (P := fun p : Pc => p.own = (s.pc v).own) v (fun hv => ?_) (fun _ => rfl)
    rw [hv]
    exact hb.own
  refine ⟨hstate, ?bound, hheld, fun v => ?owner, fun v i => ?sem, fun v i hv => ?own,
    fun v x i hv hx => ?single, fun i hi => ?mine,
    h.zero, fun hne => ?there, fun v => ?saw, ?settled, fun v hv => ?queue, fun v => ?lined, hans⟩
  case bound =>
    simp only [Mutex.goto, hsem]
    exact h.bound
  case owner =>
    exact update_cases (P := fun p : Pc => p.releasing = true → v ∈ l) v (fun hv => hv ▸ hb.rel) (fun hv => howner v hv)
  case sem =>
    simp only [Mutex.goto, hsem]
    exact update_cases (P := fun p : Pc => p.sem = some i → i = mtxSem s.word ∧ i ≠ 0) v (fun _ => hb.sem i) (fun _ => h.sem v i)
  case own =>
    rw [hown] at hv
    simpa only [Mutex.goto, hsem] using h.own v i hv
  case single =>
    rw [hown] at hv hx
    exact h.single v x i hv hx
  case mine =>
    rcases h.mine i hi with he | ⟨v, hv⟩
    · exact Or.inl (he.trans hsem.symm)
    · exact Or.inr ⟨v, by rw [hown]; exact hv⟩
  case there =>
    simp only [Mutex.goto, hsem] at hne ⊢
    exact h.there hne
  case saw =>
    exact update_cases (P := fun p : Pc => p.Saw w) v (fun _ => hb.saw) (fun _ => (h.saw v).congr hsem)
  case settled =>
    rw [hchan]
    exact h.settled
  case queue =>
    rw [hchan] at hv
    refine update_cases (P := fun p : Pc => p.queued = true) v (fun hvt => ?_) (fun _ => h.queue v hv)
    subst hvt
    rcases hq (h.queue v hv) with hb' | ⟨hl, hg⟩
    · exact hb'
    · rcases hv with hv | hv
      · exact absurd hv hl
      · exact absurd hv hg
  case lined =>
    rw [hchan]
    exact update_cases (P := fun p : Pc => p.sleeps = true → v ∈ s.channel.line ∨ v ∈ s.channel.given) v
      (fun _ hs => by simp [hawake] at hs) (fun _ => h.lined v)

omit [DecidableEq τ] in
/-- Nobody parks before there is a semaphore. -/
theorem sem_of_needs {v : τ} (h : Inv s) (hn : (s.pc v).needs = true) : mtxSem s.word ≠ 0 := by
  have hsome : ∃ i, (s.pc v).sem = some i := by
    cases hp : s.pc v <;> simp [hp, Pc.needs, Pc.sem] at hn ⊢
  obtain ⟨i, hi⟩ := hsome
  obtain ⟨he, hne⟩ := h.sem v i hi
  rwa [← he]

/-- The needy are still answered for when one thread goes elsewhere, if it answers for them as it did, and
    needs a wake-up only if it did or if the word says WAIT. -/
theorem answered_goto (h : Inv s) (hw : u.word = s.word) (hcount : u.channel.count = s.channel.count)
    (hgiven : u.channel.given = s.channel.given) (hpc : u.pc = Function.update s.pc t b)
    (hans : (s.pc t).answers = true → b.answers = true ∨ mtxSem s.word = 0 ∨ mtxState s.word = mtxWait)
    (hneed : b.needs = true → (s.pc t).needs = true ∨ mtxState s.word = mtxWait) : u.Answered := by
  intro v hv
  rw [hw, hcount]
  have hold : (∃ x, s.Needy x) ∨ mtxState s.word = mtxWait := by
    by_cases hvt : v = t
    · subst hvt
      have hb' : b.needs = true := by simpa [hpc] using hv.1
      rcases hneed hb' with hn | hw
      · exact Or.inl ⟨v, hn, by rw [← hgiven]; exact hv.2⟩
      · exact Or.inr hw
    · exact Or.inl ⟨v, by simpa [hpc, hvt] using hv.1, by rw [← hgiven]; exact hv.2⟩
  rcases hold with ⟨x, hx⟩ | hw
  · rcases h.answered x hx with hw | hc | ⟨y, hy | hy⟩
    · exact Or.inl hw
    · exact Or.inr (Or.inl hc)
    · by_cases hyt : y = t
      · subst hyt
        rcases hans hy with hb' | hzero | hw
        · exact Or.inr (Or.inr ⟨y, Or.inl (by simpa [hpc] using hb')⟩)
        · exact absurd hzero (h.sem_of_needs hx.1)
        · exact Or.inl hw
      · exact Or.inr (Or.inr ⟨y, Or.inl (by simpa [hpc, hyt] using hy)⟩)
    · exact Or.inr (Or.inr ⟨y, Or.inr (by rw [hgiven]; exact hy)⟩)
  · exact Or.inl hw

/-- One thread goes elsewhere. -/
theorem move (h : Inv s) (hb : Fits s t b s.word s.held)
    (hq : (s.pc t).queued = true → b.queued = true ∨ (t ∉ s.channel.line ∧ t ∉ s.channel.given))
    (hans : (s.pc t).answers = true → b.answers = true ∨ mtxSem s.word = 0 ∨ mtxState s.word = mtxWait)
    (hneed : b.needs = true → (s.pc t).needs = true ∨ mtxState s.word = mtxWait) (hawake : b.sleeps = false := by rfl) :
    Inv (s.goto t b) :=
  h.turn rfl h.state h.held (fun v _ => h.owner v) hb hq (h.answered_goto rfl rfl rfl rfl hans hneed) hawake

/-- A thread with nothing in hand goes on, to where nothing is asked of it. -/
theorem goes {p : Pc} (h : Inv s) (hp : s.pc t = p) (hsem : ∀ i, b.sem = some i → i = mtxSem s.word ∧ i ≠ 0)
    (hsaw : b.Saw s.word) (hans : p.answers = false ∨ b.answers = true ∨ mtxSem s.word = 0 ∨ mtxState s.word = mtxWait)
    (hrel : b.releasing = true → t ∈ s.held := by nofun) (hown : b.own = p.own := by rfl) (hq : p.queued = false := by rfl)
    (hneed : b.needs = false := by rfl) (hawake : b.sleeps = false := by rfl) : Inv (s.goto t b) := by
  subst hp
  refine h.move ⟨hrel, hsem, hown, hsaw⟩ (fun hin => ?_) (fun ha => hans.resolve_left ?_) (fun hn => ?_) hawake
  · simp [hq] at hin
  · simp [ha]
  · simp [hneed] at hn

/-- After a compare-and-swap the needy are still answered for: the word says WAIT now, or it did not
    before and the thread was not the one to answer, or the thread posts next. -/
theorem answered_turn (h : Inv s) (hsem : mtxSem w = mtxSem s.word) (hb : b.needs = true → mtxState w = mtxWait)
    (hst : mtxState w = mtxWait ∨ (mtxState s.word ≠ mtxWait ∧ (s.pc t).answers = false) ∨ b.answers = true ∨
      mtxSem s.word = 0) : ({ s with word := w, held := l }.goto t b).Answered := by
  have hchan : ({ s with word := w, held := l }.goto t b).channel = s.channel := by
    simp only [Mutex.channel, Mutex.goto, hsem]
  intro v hv
  by_cases hvt : v = t
  · subst hvt
    exact Or.inl (hb (by simpa [Mutex.goto] using hv.1))
  have hold : s.Needy v := ⟨by simpa [Mutex.goto, hvt] using hv.1, by rw [← hchan]; exact hv.2⟩
  rcases hst with hw | ⟨hw, ht⟩ | hb' | hzero
  · exact Or.inl hw
  · rcases h.answered v hold with hw' | hc | ⟨y, hy⟩
    · exact absurd hw' hw
    · exact Or.inr (Or.inl (by rw [hchan]; exact hc))
    · refine Or.inr (Or.inr ⟨y, ?_⟩)
      rcases hy with hy | hy
      · have hyt : y ≠ t := by
          rintro rfl
          simp [ht] at hy
        exact Or.inl (by simpa [Mutex.goto, hyt] using hy)
      · exact Or.inr (by rw [hchan]; exact hy)
  · exact Or.inr (Or.inr ⟨t, Or.inl (by simpa [Mutex.goto] using hb')⟩)
  · exact absurd hzero (h.sem_of_needs hold.1)

/-- A compare-and-swap out of FREE takes the lock. -/
theorem acquire {cur st : ℕ} {lost : Mutex τ} (h : Inv s) (hsaw : mtxState cur = mtxFree) (hst : st = mtxHeld ∨ st = mtxWait)
    (hown : (s.pc t).own = none) (hq : (s.pc t).queued = false) (hans : st = mtxWait ∨ (s.pc t).answers = false)
    (hlost : Inv lost) : Inv (s.acquire t cur st lost) := by
  unfold Mutex.acquire
  split
  · rename_i hw
    subst hw
    have hlt : st < 4 := by
      rcases hst with rfl | rfl <;> decide
    have hempty : s.held = [] := List.length_eq_zero_iff.mp (by rw [h.held, if_pos hsaw])
    refine h.turn (mtxSem_withState hlt) ?_ ?_ (fun u _ hu => List.mem_cons_of_mem t (h.owner u hu))
      ⟨by simp [Pc.releasing], by simp [Pc.sem], hown.symm, trivial⟩ (by simp [hq])
      (h.answered_turn (mtxSem_withState hlt) (by simp [Pc.needs]) ?_)
    · rw [mtxState_withState hlt]
      rcases hst with rfl | rfl <;> decide
    · rw [mtxState_withState hlt, hempty]
      rcases hst with rfl | rfl <;> rfl
    · rw [mtxState_withState hlt]
      rcases hans with rfl | hans
      · exact Or.inl rfl
      · exact Or.inr (Or.inl ⟨by rw [hsaw]; decide, hans⟩)
  · exact hlost

/-- A compare-and-swap into FREE gives the lock up. -/
theorem release {cur : ℕ} (h : Inv s) (hp : s.pc t = .unCas cur) (hw : s.word = cur) :
    Inv ({ s with word := withState cur mtxFree, held := s.held.erase t }.goto t
      (if mtxState cur ≠ mtxHeld ∧ mtxSem cur ≠ 0 then .post (mtxSem cur) else .out .zero)) := by
  subst hw
  have hsaw : mtxState s.word ≠ mtxFree := by simpa [hp, Pc.Saw] using h.saw t
  have hone := h.held
  rw [if_neg hsaw] at hone
  have hin : t ∈ s.held := h.owner t (by simp [hp, Pc.releasing])
  have hleft : s.held.erase t = [] := List.length_eq_zero_iff.mp (by rw [List.length_erase_of_mem hin, hone])
  have hlt : mtxFree < 4 := by decide
  refine h.turn (mtxSem_withState hlt) ?_ ?_ (fun u hu hr => ?_) ?_ (by simp [hp, Pc.queued])
    (h.answered_turn (mtxSem_withState hlt) (fun hn => ?_) ?_) (by split <;> rfl)
  · rw [mtxState_withState hlt]
    decide
  · rw [mtxState_withState hlt, hleft]
    rfl
  · exact (List.mem_erase_of_ne hu).mpr (h.owner u hr)
  · split
    · rename_i hpost
      exact ⟨by simp [Pc.releasing], by simp [Pc.sem, hpost.2], by simp [Pc.own, hp], trivial⟩
    · exact ⟨by simp [Pc.releasing], by simp [Pc.sem], by simp [Pc.own, hp], trivial⟩
  · split at hn <;> simp [Pc.needs] at hn
  · by_cases hheld : mtxState s.word = mtxHeld
    · exact Or.inr (Or.inl ⟨by rw [hheld]; decide, by simp [hp, Pc.answers]⟩)
    · by_cases hzero : mtxSem s.word = 0
      · exact Or.inr (Or.inr (Or.inr hzero))
      · exact Or.inr (Or.inr (Or.inl (by simp [hheld, hzero, Pc.answers])))

/-- HELD becomes WAIT. -/
theorem mark {timed : Bool} {i : ℕ} (h : Inv s) (hp : s.pc t = .announceCas timed i s.word) :
    Inv ({ s with word := withState s.word mtxWait }.goto t (.enter timed i)) := by
  have hsaw : mtxState s.word ≠ mtxFree := by simpa [hp, Pc.Saw] using h.saw t
  have hlt : mtxWait < 4 := by decide
  refine h.turn (l := s.held) (mtxSem_withState hlt) ?_ ?_ (fun v _ => h.owner v) ?_ (by simp [hp, Pc.queued])
    (h.answered_turn (mtxSem_withState hlt) ?_ ?_)
  · rw [mtxState_withState hlt]
  · have := h.held
    rw [if_neg hsaw] at this
    rw [mtxState_withState hlt, this]
    rfl
  · exact ⟨by simp [Pc.releasing], fun j hj => h.sem t j (by simpa [hp, Pc.sem] using hj), by simp [Pc.own, hp], trivial⟩
  · exact fun _ => mtxState_withState hlt
  · exact Or.inl (mtxState_withState hlt)

/-- The semaphore of the word is used by `t`. -/
theorem setChan (h : Inv s) (hi : i = mtxSem s.word) (hi0 : i ≠ 0) (hc : s.chan i = some c) (hd : d.Settled)
    (hb : Fits s t b s.word s.held) (hqueue : ∀ v, v ∈ d.line ∨ v ∈ d.given → v ∈ c.line ∨ v ∈ c.given ∨ v = t)
    (hq : t ∈ d.line ∨ t ∈ d.given → b.queued = true)
    (hstay : ∀ v, v ≠ t → v ∈ c.line ∨ v ∈ c.given → v ∈ d.line ∨ v ∈ d.given)
    (hs : b.sleeps = true → t ∈ d.line ∨ t ∈ d.given) (hans : ((s.setChan i (some d)).goto t b).Answered) : Inv ((s.setChan i (some d)).goto t b) := by
  subst hi
  have hch : s.channel = c := by simp [Mutex.channel, hc]
  have hch' : ((s.setChan (mtxSem s.word) (some d)).goto t b).channel = d := by
    simp [Mutex.channel, Mutex.setChan, Mutex.goto]
  have hown : ∀ v, (((s.setChan (mtxSem s.word) (some d)).goto t b).pc v).own = (s.pc v).own := by
    intro v
    refine update_cases (P := fun p : Pc => p.own = (s.pc v).own) v (fun hv => ?_) (fun _ => rfl)
    rw [hv]
    exact hb.own
  refine ⟨h.state, h.bound, h.held, fun v => ?owner, fun v i => ?sem, fun v i hv => ?own,
    fun v x i hv hx => ?single, fun i hn => ?mine,
    ?zero, fun _ => ?there, fun v => ?saw, ?settled, fun v hv => ?queue, fun v => ?lined, hans⟩
  case owner =>
    exact update_cases (P := fun p : Pc => p.releasing = true → v ∈ s.held) v (fun hv => hv ▸ hb.rel) (fun _ => h.owner v)
  case sem =>
    exact update_cases (P := fun p : Pc => p.sem = some i → i = mtxSem s.word ∧ i ≠ 0) v (fun _ => hb.sem i) (fun _ => h.sem v i)
  case own =>
    rw [hown] at hv
    obtain ⟨h0, hle, hne, hfresh⟩ := h.own v i hv
    refine ⟨h0, hle, hne, ?_⟩
    simpa [Mutex.goto, Mutex.setChan, hne] using hfresh
  case single =>
    rw [hown] at hv hx
    exact h.single v x i hv hx
  case mine =>
    by_cases he : i = mtxSem s.word
    · exact Or.inl he
    · rcases h.mine i (by simpa [Mutex.goto, Mutex.setChan, he] using hn) with he' | ⟨v, hv⟩
      · exact absurd he' he
      · exact Or.inr ⟨v, by rw [hown]; exact hv⟩
  case zero =>
    simpa [Mutex.goto, Mutex.setChan, hi0.symm] using h.zero
  case there =>
    simp [Mutex.goto, Mutex.setChan]
  case saw =>
    exact update_cases (P := fun p : Pc => p.Saw s.word) v (fun _ => hb.saw) (fun _ => h.saw v)
  case settled =>
    rw [hch']
    exact hd
  case queue =>
    rw [hch'] at hv
    refine update_cases (P := fun p : Pc => p.queued = true) v (fun hvt => hq (hvt ▸ hv)) (fun hvt => ?_)
    rcases hqueue v hv with hv | hv | rfl
    · exact h.queue v (Or.inl (by rw [hch]; exact hv))
    · exact h.queue v (Or.inr (by rw [hch]; exact hv))
    · exact absurd rfl hvt
  case lined =>
    rw [hch']
    exact update_cases (P := fun p : Pc => p.sleeps = true → v ∈ d.line ∨ v ∈ d.given) v (fun hvt => hvt ▸ hs)
      (fun hvt hv => hstay v hvt (by rw [← hch]; exact h.lined v hv))

/-- A semaphore that is not in the word is allocated for `t`, or freed by it. -/
theorem setOther {o : Option (Handoff τ)} (h : Inv s) (hi : i ≠ mtxSem s.word) (hi0 : i ≠ 0) (hle : i ≤ semaphoreMax)
    (hother : ∀ v, v ≠ t → (s.pc v).own ≠ some i) (hmine : (s.pc t).own = none ∨ (s.pc t).own = some i)
    (ho : (o = none ∧ b.own = none) ∨ (o = some (.fresh 0) ∧ b.own = some i)) (hrel : b.releasing = false)
    (hsem : ∀ j, b.sem = some j → j = mtxSem s.word ∧ j ≠ 0) (hsaw : b.Saw s.word) (hq : (s.pc t).queued = false)
    (hans : (s.pc t).answers = true → b.answers = true) (hneed : b.needs = false)
    (hawake : b.sleeps = false := by rfl) : Inv ((s.setChan i o).goto t b) := by
  have hch : ((s.setChan i o).goto t b).channel = s.channel := by
    simp [Mutex.channel, Mutex.setChan, Mutex.goto, hi.symm]
  have hself : ((s.setChan i o).goto t b).pc t = b := by simp [Mutex.goto]
  have helse : ∀ v, v ≠ t → ((s.setChan i o).goto t b).pc v = s.pc v := fun v hv => by simp [Mutex.goto, Mutex.setChan, hv]
  refine ⟨h.state, h.bound, h.held, fun v => ?owner, fun v j => ?sem, fun v j hv => ?own,
    fun v x j hv hx => ?single, fun j hn => ?mine,
    ?zero, fun hne => ?there, fun v => ?saw, ?settled, fun v hv => ?queue, fun v => ?lined, ?answered⟩
  case owner =>
    exact update_cases (P := fun p : Pc => p.releasing = true → v ∈ s.held) v (fun _ => by simp [hrel]) (fun _ => h.owner v)
  case sem =>
    exact update_cases (P := fun p : Pc => p.sem = some j → j = mtxSem s.word ∧ j ≠ 0) v (fun _ => hsem j) (fun _ => h.sem v j)
  case own =>
    by_cases hvt : v = t
    · rw [hvt, hself] at hv
      rcases ho with ⟨-, hb⟩ | ⟨rfl, hb⟩
      · simp [hb] at hv
      · obtain rfl : i = j := by simpa [hb] using hv
        exact ⟨hi0, hle, hi, by simp [Mutex.goto, Mutex.setChan]⟩
    · rw [helse v hvt] at hv
      obtain ⟨h0, hle', hne, hfresh⟩ := h.own v j hv
      have hji : j ≠ i := fun he => hother v hvt (he ▸ hv)
      exact ⟨h0, hle', hne, by simpa [Mutex.goto, Mutex.setChan, hji] using hfresh⟩
  case single =>
    by_cases hvt : v = t
    · by_cases hxt : x = t
      · rw [hvt, hxt]
      · rw [hvt, hself] at hv
        rw [helse x hxt] at hx
        rcases ho with ⟨-, hb⟩ | ⟨-, hb⟩
        · simp [hb] at hv
        · obtain rfl : i = j := by simpa [hb] using hv
          exact absurd hx (hother x hxt)
    · rw [helse v hvt] at hv
      by_cases hxt : x = t
      · rw [hxt, hself] at hx
        rcases ho with ⟨-, hb⟩ | ⟨-, hb⟩
        · simp [hb] at hx
        · obtain rfl : i = j := by simpa [hb] using hx
          exact absurd hv (hother v hvt)
      · rw [helse x hxt] at hx
        exact h.single v x j hv hx
  case mine =>
    by_cases hji : j = i
    · rcases ho with ⟨rfl, -⟩ | ⟨-, hb⟩
      · simp [Mutex.goto, Mutex.setChan, hji] at hn
      · exact Or.inr ⟨t, by rw [hself, hb, hji]⟩
    · rcases h.mine j (by simpa [Mutex.goto, Mutex.setChan, hji] using hn) with he | ⟨v, hv⟩
      · exact Or.inl he
      · have hvt : v ≠ t := by
          rintro rfl
          rcases hmine with hm | hm
          · simp [hm] at hv
          · exact hji (by simpa [hm] using hv.symm)
        exact Or.inr ⟨v, by rw [helse v hvt]; exact hv⟩
  case zero =>
    simpa [Mutex.goto, Mutex.setChan, hi0.symm] using h.zero
  case there =>
    simpa [Mutex.goto, Mutex.setChan, hi.symm] using h.there hne
  case saw =>
    exact update_cases (P := fun p : Pc => p.Saw s.word) v (fun _ => hsaw) (fun _ => h.saw v)
  case settled =>
    rw [hch]
    exact h.settled
  case queue =>
    rw [hch] at hv
    have hold := h.queue v hv
    have hvt : v ≠ t := by
      rintro rfl
      simp [hq] at hold
    rwa [helse v hvt]
  case lined =>
    rw [hch]
    exact update_cases (P := fun p : Pc => p.sleeps = true → v ∈ s.channel.line ∨ v ∈ s.channel.given) v
      (fun _ hs => by simp [hawake] at hs) (fun _ => h.lined v)
  case answered =>
    exact h.answered_goto rfl (by rw [hch]) (by rw [hch]) rfl (fun ha => Or.inl (hans ha)) (by simp [hneed])

/-- The one semaphore of the mutex gets into the word. -/
theorem publish {timed : Bool} (h : Inv s) (hp : s.pc t = .publishCas timed i s.word) :
    Inv ({ s with word := withSem s.word i }.goto t (.announce timed i)) := by
  have hzero : mtxSem s.word = 0 := by simpa [hp, Pc.Saw] using h.saw t
  have hown : (s.pc t).own = some i := by simp [hp, Pc.own]
  obtain ⟨hi0, hle, -, hfresh⟩ := h.own t i hown
  -- nobody has seen a semaphore in the word yet
  have hnone : ∀ v j, (s.pc v).sem ≠ some j := fun v j hv => by
    obtain ⟨he, hne⟩ := h.sem v j hv
    exact hne (he.trans hzero)
  have hch : ({ s with word := withSem s.word i }.goto t (.announce timed i)).channel = .fresh 0 := by
    simp [Mutex.channel, Mutex.goto, hfresh]
  have hself : ({ s with word := withSem s.word i }.goto t (.announce timed i)).pc t = .announce timed i := by simp [Mutex.goto]
  have helse : ∀ v, v ≠ t → ({ s with word := withSem s.word i }.goto t (.announce timed i)).pc v = s.pc v :=
    fun v hv => by simp [Mutex.goto, hv]
  have hown' : ∀ v j, (({ s with word := withSem s.word i }.goto t (.announce timed i)).pc v).own = some j →
      v ≠ t ∧ (s.pc v).own = some j := by
    intro v j hv
    by_cases hvt : v = t
    · rw [hvt, hself] at hv
      simp [Pc.own] at hv
    · exact ⟨hvt, by rwa [helse v hvt] at hv⟩
  refine ⟨?state, ?bound, ?held, fun v hv => ?owner, fun v j hv => ?sem, fun v j hv => ?own,
    fun v x j hv hx => ?single, fun j hn => ?mine, h.zero,
    fun _ => ?there, fun v => ?saw, ?settled, fun v hv => ?queue, fun v hv => ?lined, fun v hv => ?answered⟩
  case state =>
    simpa [Mutex.goto] using h.state
  case bound =>
    simpa [Mutex.goto] using hle
  case held =>
    simpa [Mutex.goto] using h.held
  case owner =>
    by_cases hvt : v = t
    · rw [hvt, hself] at hv
      simp [Pc.releasing] at hv
    · rw [helse v hvt] at hv
      exact h.owner v hv
  case sem =>
    by_cases hvt : v = t
    · rw [hvt, hself] at hv
      obtain rfl : i = j := by simpa [Pc.sem] using hv
      exact ⟨by simp [Mutex.goto], hi0⟩
    · rw [helse v hvt] at hv
      exact absurd hv (hnone v j)
  case own =>
    replace ⟨hvt, hv⟩ := hown' v j hv
    obtain ⟨h0, hle', -, hfresh'⟩ := h.own v j hv
    refine ⟨h0, hle', ?_, hfresh'⟩
    simp only [Mutex.goto, mtxSem_withSem]
    exact fun he => hvt (h.single v t j hv (he ▸ hown))
  case single =>
    exact h.single v x j (hown' v j hv).2 (hown' x j hx).2
  case mine =>
    have hj : s.chan j ≠ none := hn
    rcases h.mine j hj with he | ⟨v, hv⟩
    · rw [he, hzero] at hj
      exact absurd h.zero hj
    · by_cases hvt : v = t
      · rw [hvt, hown, Option.some.injEq] at hv
        exact Or.inl (by simp [Mutex.goto, hv])
      · exact Or.inr ⟨v, by rw [helse v hvt]; exact hv⟩
  case there =>
    simp [Mutex.goto, hfresh]
  case saw =>
    by_cases hvt : v = t
    · rw [hvt, hself]
      trivial
    · rw [helse v hvt]
      have hsaw := h.saw v
      cases hpv : s.pc v <;> simp [hpv, Pc.Saw, hzero] at hsaw ⊢ <;> exact hsaw
  case settled =>
    rw [hch]
    exact Handoff.settled_fresh 0
  case queue =>
    rw [hch] at hv
    simp [Handoff.fresh] at hv
  case lined =>
    by_cases hvt : v = t
    · rw [hvt, hself] at hv
      simp [Pc.sleeps] at hv
    · rw [helse v hvt] at hv
      have hneeds : (s.pc v).needs = true := by cases hpv : s.pc v <;> simp [hpv, Pc.sleeps, Pc.needs] at hv ⊢
      exact absurd hzero (h.sem_of_needs hneeds)
  case answered =>
    have hneeds := hv.1
    by_cases hvt : v = t
    · rw [hvt, hself] at hneeds
      simp [Pc.needs] at hneeds
    · rw [helse v hvt] at hneeds
      exact absurd hzero (h.sem_of_needs hneeds)

omit [DecidableEq τ] in
/-- The semaphore that a thread took out of the word is there. -/
theorem chan_of_sem (h : Inv s) (hi : (s.pc t).sem = some i) : i = mtxSem s.word ∧ i ≠ 0 ∧ s.chan i = some s.channel := by
  obtain ⟨rfl, hne⟩ := h.sem t i hi
  refine ⟨rfl, hne, ?_⟩
  obtain ⟨c, hc⟩ := Option.ne_none_iff_exists'.mp (h.there hne)
  simp [Mutex.channel, hc]

omit [DecidableEq τ] in
/-- Whoever goes back to the loop of `mtx_lock_contended` answers for all. -/
theorem answered_self (hpc : u.pc t = b) (hb : b.answers = true) : u.Answered :=
  fun _ _ => Or.inr (Or.inr ⟨t, Or.inl (by rw [hpc, hb])⟩)

/-- A post, and the end of the call. -/
theorem quit {r : Res} {o : Option τ} (h : Inv s) (hi : (s.pc t).sem = some i) (hq : (s.pc t).queued = false)
    (hown : (s.pc t).own = none) (hst : (s.semaphoreQuit i o).map (·.goto t (.out r)) = some u) : Inv u := by
  obtain ⟨he, hne, hc⟩ := h.chan_of_sem hi
  obtain ⟨v, hv, rfl⟩ := Option.map_eq_some_iff.mp hst
  simp only [Mutex.semaphoreQuit, hc] at hv
  obtain ⟨d, hd, rfl⟩ := Option.map_eq_some_iff.mp hv
  have hin : ∀ x, x ∈ d.line ∨ x ∈ d.given → x ∈ s.channel.line ∨ x ∈ s.channel.given := by
    rintro x (hx | hx)
    · exact Or.inl (Handoff.mem_line_post hd hx)
    · exact (Handoff.mem_given_post hd hx).symm
  refine h.setChan he hne hc (h.settled.post hd) ⟨by simp [Pc.releasing], by simp [Pc.sem], hown.symm, trivial⟩
    (fun x hx => (hin x hx).imp_right Or.inl) (fun ht => ?_) (fun x _ => Handoff.stays_post hd) (by simp [Pc.sleeps])
    fun x hx => ?_
  · have := h.queue t (hin t ht)
    simp [hq] at this
  · have hch : ((s.setChan i (some d)).goto t (.out r)).channel = d := by
      simp [Mutex.channel, Mutex.setChan, Mutex.goto, he]
    right
    rcases Handoff.post_some hd (by decide) with hpos | ⟨w, hw, -⟩
    · exact Or.inl (by rw [hch]; exact hpos)
    · exact Or.inr ⟨w, Or.inr (by rw [hch]; exact hw)⟩

/-- A permit taken, and back to the loop. -/
theorem got {timed : Bool} (h : Inv s) (hi : (s.pc t).sem = some i) (hown : (s.pc t).own = none) :
    Inv ((s.setChan i (some (s.channel.take t))).goto t (.load timed)) := by
  obtain ⟨he, hne, hc⟩ := h.chan_of_sem hi
  refine h.setChan he hne hc h.settled.take ⟨by simp [Pc.releasing], by simp [Pc.sem], hown.symm, trivial⟩
    (fun v hv => ?_) (fun ht => ?_) (fun v hv => Handoff.stays_take hv) (by simp [Pc.sleeps])
    (answered_self (t := t) (b := .load timed) (by simp [Mutex.goto]) rfl)
  · rcases hv with hv | hv
    · exact Or.inl (Handoff.mem_line_take hv)
    · exact Or.inr (Or.inl (Handoff.mem_given_take.mp hv).1)
  · rcases ht with ht | ht
    · exact absurd ht (Handoff.not_mem_line_take h.settled)
    · exact absurd rfl (Handoff.mem_given_take.mp ht).2

/-- Out of the line without a permit. -/
theorem left (h : Inv s) (hi : (s.pc t).sem = some i) (hg : ¬s.channel.gets t) (hb : Fits s t b s.word s.held)
    (hans : (s.pc t).answers = true → b.answers = true) (hneed : b.needs = true → (s.pc t).needs = true)
    (hawake : b.sleeps = false) : Inv ((s.setChan i (some (s.channel.leave t))).goto t b) := by
  obtain ⟨he, hne, hc⟩ := h.chan_of_sem hi
  have hch : ((s.setChan i (some (s.channel.leave t))).goto t b).channel = s.channel.leave t := by
    simp [Mutex.channel, Mutex.setChan, Mutex.goto, he]
  refine h.setChan he hne hc h.settled.leave hb (fun v hv => ?_) (fun ht => ?_)
    (fun v hv hin => hin.imp_left fun hl => Finset.mem_erase.mpr ⟨hv, hl⟩) (by simp [hawake]) ?_
  · rcases hv with hv | hv
    · exact Or.inl (Finset.mem_of_mem_erase hv)
    · exact Or.inr (Or.inl hv)
  · rcases ht with ht | ht
    · simp [Handoff.leave] at ht
    · exact absurd (Or.inl ht) hg
  · exact h.answered_goto rfl (by rw [hch]; rfl) (by rw [hch]; rfl) rfl (fun ha => Or.inl (hans ha)) fun hn => Or.inl (hneed hn)

theorem semaphoreEnter {timed full : Bool} (h : Inv s) (hp : s.pc t = .enter timed i) :
    Inv (s.semaphoreEnter t timed i full) := by
  have hi : (s.pc t).sem = some i := by simp [hp, Pc.sem]
  obtain ⟨he, hne, hc⟩ := h.chan_of_sem hi
  simp only [Mutex.semaphoreEnter, hc]
  split
  · exact h.got hi (by simp [hp, Pc.own])
  · rename_i hg
    split
    · have hstay : (s.setChan i (some (s.channel.leave t))).goto t (s.pc t) = s.setChan i (some (s.channel.leave t)) := by
        simp [Mutex.goto, Mutex.setChan]
      rw [← hstay]
      exact h.left hi hg ⟨fun hr => h.owner t hr, h.sem t, rfl, h.saw t⟩ id id (by simp [hp, Pc.sleeps])
    · have hch : ((s.setChan i (some (s.channel.park t))).goto t (.parked timed i)).channel = s.channel.park t := by
        simp [Mutex.channel, Mutex.setChan, Mutex.goto, he]
      refine h.setChan he hne hc (h.settled.park hg)
        ⟨by simp [Pc.releasing], fun j hj => h.sem t j (by simpa [hp, Pc.sem] using hj), by simp [Pc.own, hp], trivial⟩
        (fun v hv => ?_) (fun _ => rfl) (fun v _ hin => hin.imp_left fun hl => Finset.mem_insert_of_mem hl)
        (fun _ => Or.inl (Finset.mem_insert_self t _)) ?_
      · rcases hv with hv | hv
        · rcases Finset.mem_insert.mp hv with hv | hv
          · exact Or.inr (Or.inr hv)
          · exact Or.inl hv
        · exact Or.inr (Or.inl hv)
      · exact h.answered_goto rfl (by rw [hch]; rfl) (by rw [hch]; rfl) rfl (by simp [hp, Pc.answers])
          fun _ => Or.inl (by simp [hp, Pc.needs])

theorem semaphoreTryenter (h : Inv s) (hp : s.pc t = .settle i) : Inv (s.semaphoreTryenter t i) := by
  have hi : (s.pc t).sem = some i := by simp [hp, Pc.sem]
  obtain ⟨-, -, hc⟩ := h.chan_of_sem hi
  simp only [Mutex.semaphoreTryenter, hc]
  split
  · exact h.got hi (by simp [hp, Pc.own])
  · rename_i hg
    exact h.left hi hg ⟨by simp [Pc.releasing], by simp [Pc.sem], by simp [Pc.own, hp], trivial⟩ (fun _ => rfl)
      (by simp [Pc.needs]) rfl

theorem lose {kind : Kind} (h : Inv s) (hown : (s.pc t).own = none) (hq : (s.pc t).queued = false)
    (hans : (s.pc t).answers = false) : Inv (s.lose t kind) := by
  cases kind <;>
    exact h.move ⟨by simp [Pc.releasing], by simp [Pc.sem], hown.symm, trivial⟩ (by simp [hq]) (by simp [hans]) (by simp [Pc.needs])

/-- The next step of a thread, wherever it is. -/
theorem run {f : Finds τ} (h : Inv s) (hst : s.run t f = some u) : Inv u := by
  have hsem : ∀ i, (s.pc t).sem = some i → i = mtxSem s.word ∧ i ≠ 0 := h.sem t
  have hsaw := h.saw t
  unfold Mutex.run at hst
  split at hst <;> rename_i hp
  case h_1 => cases hst
  case h_2 =>
    cases hst
    split
    · exact h.lose (by simp [hp, Pc.own]) (by simp [hp, Pc.queued]) (by simp [hp, Pc.answers])
    · rename_i hfree
      exact h.goes hp nofun (by simpa [Pc.Saw] using hfree) (.inl rfl)
  case h_3 =>
    cases hst
    exact h.acquire (by simpa [hp, Pc.Saw] using hsaw) (Or.inl rfl) (by simp [hp, Pc.own]) (by simp [hp, Pc.queued])
      (Or.inr (by simp [hp, Pc.answers])) (h.lose (by simp [hp, Pc.own]) (by simp [hp, Pc.queued]) (by simp [hp, Pc.answers]))
  case h_4 =>
    cases hst
    split
    · rename_i hfree
      exact h.goes hp nofun hfree (.inr (.inl rfl))
    · split
      · split
        · rename_i hne
          exact h.goes hp (by simp [Pc.sem, hne]) trivial (.inr (.inl rfl))
        · rename_i hzero
          exact h.goes hp nofun trivial (.inr (.inr (.inl (by simpa using hzero))))
      · exact h.goes hp nofun trivial (.inr (.inl rfl))
  case h_5 =>
    cases hst
    exact h.acquire (by simpa [hp, Pc.Saw] using hsaw) (Or.inr rfl) (by simp [hp, Pc.own]) (by simp [hp, Pc.queued])
      (Or.inl rfl) (h.goes hp nofun trivial (.inr (.inl rfl)))
  case h_6 => exact h.quit (by simp [hp, Pc.sem]) (by simp [hp, Pc.queued]) (by simp [hp, Pc.own]) hst
  case h_7 =>
    cases hst
    split
    · rename_i hne
      exact h.goes hp (by simp [Pc.sem, hne]) trivial (.inr (.inl rfl))
    · rename_i hzero
      exact h.goes hp nofun trivial (.inr (.inr (.inl (by simpa using hzero))))
  case h_8 =>
    split at hst
    · cases hst
      exact h.goes hp nofun trivial (.inl rfl)
    · rename_i hid
      split at hst
      · rename_i hnew
        cases hst
        have hnone : s.chan f.id = none := by simpa using hnew.2
        refine h.setOther ?_ hid hnew.1 (fun v _ hv => ?_) (Or.inl (by simp [hp, Pc.own])) (Or.inr ⟨rfl, rfl⟩) rfl
          (by simp [Pc.sem]) trivial (by simp [hp, Pc.queued]) (by simp [hp, Pc.answers]) rfl
        · intro he
          exact h.there (he ▸ hid) (he ▸ hnone)
        · have := (h.own v f.id hv).2.2.2
          simp [hnone] at this
      · cases hst
  case h_9 =>
    cases hst
    split
    · rename_i hne
      exact h.goes hp nofun ⟨rfl, hne⟩ (.inr (.inl rfl))
    · rename_i hzero
      exact h.goes hp nofun (by simpa [Pc.Saw] using hzero) (.inr (.inl rfl))
  case h_10 =>
    cases hst
    split
    · rename_i hw
      subst hw
      exact h.publish hp
    · exact h.goes hp nofun trivial (.inr (.inl rfl))
  case h_11 timed id cur =>
    cases hst
    have hown : (s.pc t).own = some id := by simp [hp, Pc.own]
    obtain ⟨hcur, hne⟩ : mtxSem cur = mtxSem s.word ∧ mtxSem s.word ≠ 0 := by simpa [hp, Pc.Saw] using hsaw
    obtain ⟨h0, hle, hid, -⟩ := h.own t id hown
    exact h.setOther hid h0 hle (fun v hvt hv => hvt (h.single v t id hv hown)) (Or.inr hown) (Or.inl ⟨rfl, rfl⟩) rfl
      (by simp [Pc.sem, hcur, hne]) trivial (by simp [hp, Pc.queued]) (by simp [Pc.answers]) rfl
  case h_12 =>
    cases hst
    split
    · exact h.goes hp nofun trivial (.inr (.inl rfl))
    · rename_i hfree
      split
      · rename_i hwait
        exact h.move ⟨by simp [Pc.releasing], by simpa [hp, Pc.sem] using hsem, by simp [hp, Pc.own], trivial⟩
          (by simp [hp, Pc.queued]) (fun _ => Or.inr (Or.inr hwait)) (fun _ => Or.inr hwait)
      · exact h.goes hp (by simpa [hp, Pc.sem] using hsem) hfree (.inr (.inl rfl))
  case h_13 =>
    cases hst
    split
    · rename_i hw
      subst hw
      exact h.mark hp
    · exact h.goes hp (by simpa [hp, Pc.sem] using hsem) trivial (.inr (.inl rfl))
  case h_14 =>
    cases hst
    split
    · exact h.move ⟨by simp [Pc.releasing], by simpa [hp, Pc.sem] using hsem, by simp [hp, Pc.own], trivial⟩
        (fun _ => Or.inl rfl) (by simp [hp, Pc.answers]) (by simp [Pc.needs])
    · exact h.semaphoreEnter hp
  case h_15 => cases hst
  case h_16 =>
    cases hst
    exact h.semaphoreTryenter hp
  case h_17 =>
    cases hst
    have hin : t ∈ s.held := h.owner t (by simp [hp, Pc.releasing])
    split
    · exact h.goes hp nofun trivial (.inl rfl)
    · rename_i hfree
      exact h.goes hp nofun hfree (.inl rfl) (fun _ => hin)
  case h_18 =>
    cases hst
    have hin : t ∈ s.held := h.owner t (by simp [hp, Pc.releasing])
    split
    · rename_i hw
      exact h.release hp hw
    · exact h.goes hp nofun trivial (.inl rfl) (fun _ => hin)
  case h_19 => exact h.quit (by simp [hp, Pc.sem]) (by simp [hp, Pc.queued]) (by simp [hp, Pc.own]) hst

theorem step {e : Event τ} (h : Inv s) (hst : s.step e = some u) : Inv u := by
  cases e with
  | lock t kind =>
    simp only [Mutex.step] at hst
    split at hst
    · rename_i hp
      cases hst
      exact h.goes hp nofun trivial (.inl rfl)
    · cases hst
  | unlock t =>
    simp only [Mutex.step] at hst
    split at hst
    · rename_i hp
      split at hst
      · rename_i hin
        cases hst
        exact h.goes hp nofun trivial (.inl rfl) (fun _ => hin)
      · cases hst
    · cases hst
  | run t f => exact h.run hst
  | wake t =>
    simp only [Mutex.step] at hst
    split at hst
    · rename_i hp
      cases hst
      exact h.move ⟨by simp [Pc.releasing], by simpa [hp, Pc.sem] using h.sem t, by simp [hp, Pc.own], trivial⟩
        (fun _ => Or.inl rfl) (by simp [hp, Pc.answers]) (fun _ => Or.inl (by simp [hp, Pc.needs]))
    · cases hst

end Inv

omit [DecidableEq τ] in
theorem inv_start : Inv (Mutex.start : Mutex τ) where
  state := by simp [Mutex.start, mtxState, mtxWait]
  bound := by simp [Mutex.start, mtxSem]
  held := rfl
  owner := by simp [Mutex.start, Pc.releasing]
  sem := by simp [Mutex.start, Pc.sem]
  own := by simp [Mutex.start, Pc.own]
  single := by simp [Mutex.start, Pc.own]
  mine := by simp [Mutex.start]
  zero := rfl
  there := by simp [Mutex.start, mtxSem]
  saw := by simp [Mutex.start, Pc.Saw]
  settled := Handoff.settled_fresh 0
  queue := by simp [Mutex.start, Mutex.channel, Handoff.fresh]
  lined := by simp [Mutex.start, Pc.sleeps]
  answered := fun t ht => by simpa [Mutex.start, Pc.needs] using ht.1

/-! ### What holds in every run -/

/-- What holds of a mutex at any time: one holder, told by the state bits; the semaphores allocated for it
    are the one in the word and those that some thread inside `mtx_ensure_sem` is about to publish or to
    free; and when nobody runs inside, the threads that are parked are told in the word. -/
structure Safe (s : Mutex τ) : Prop where
  one : s.held.length ≤ 1
  free : mtxState s.word = mtxFree ↔ s.held = []
  sems : ∀ i, s.chan i ≠ none → i = mtxSem s.word ∨ ∃ t, (s.pc t).own = some i
  told : s.Quiet → ∀ t, s.Parked t → mtxState s.word = mtxWait

omit [DecidableEq τ] in
theorem Inv.safe {s : Mutex τ} (h : Inv s) : Safe s where
  one := by
    rw [h.held]
    split <;> decide
  free := by
    have := h.held
    constructor
    · intro hf
      rw [if_pos hf] at this
      exact List.length_eq_zero_iff.mp this
    · intro hnil
      by_contra hf
      rw [if_neg hf, hnil] at this
      cases this
  sems := h.mine
  told := fun hq t ht => by
    obtain ⟨⟨timed, sem, hp⟩, hgiven⟩ := ht
    rcases h.answered t ⟨by simp [hp, Pc.needs], hgiven⟩ with hw | hc | ⟨v, hv⟩
    · exact hw
    · -- nobody stands in the line of a free permit
      have hline := (h.lined t (by simp [hp, Pc.sleeps])).resolve_right hgiven
      have := h.settled.free ⟨t, hline⟩
      omega
    · rcases hq v with ⟨r, hr⟩ | ⟨⟨timed', sem', hp'⟩, hgiven'⟩
      · rcases hv with hv | hv
        · simp [hr, Pc.answers] at hv
        · have := h.queue v (Or.inr hv)
          simp [hr, Pc.queued] at this
      · rcases hv with hv | hv
        · simp [hp', Pc.answers] at hv
        · exact absurd hv hgiven'

/-- What a step makes of the word: nothing, or what one of the two compare-and-swaps puts there. -/
theorem run_word {s u : Mutex τ} {t : τ} {f : Finds τ} (hst : s.run t f = some u) :
    u.word = s.word ∨ (∃ st, st < 4 ∧ u.word = withState s.word st) ∨
      ∃ timed id, s.pc t = .publishCas timed id s.word ∧ u.word = withSem s.word id := by
  have hlose : ∀ kind, (s.lose t kind).word = s.word := by
    intro kind
    cases kind <;> rfl
  have hacquire : ∀ {cur st} lost, st < 4 → (lost : Mutex τ).word = s.word → (s.acquire t cur st lost).word = s.word ∨
      ∃ st', st' < 4 ∧ (s.acquire t cur st lost).word = withState s.word st' := by
    intro cur st lost hlt hlost
    unfold Mutex.acquire
    split
    · rename_i hw
      exact Or.inr ⟨st, hlt, by rw [hw]; rfl⟩
    · exact Or.inl hlost
  have hquit : ∀ {i : ℕ} {pick : Option τ} {r : Res}, (s.semaphoreQuit i pick).map (·.goto t (.out r)) = some u →
      u.word = s.word := by
    intro i pick r hq
    obtain ⟨v, hv, rfl⟩ := Option.map_eq_some_iff.mp hq
    unfold Mutex.semaphoreQuit at hv
    split at hv
    · cases hv
      rfl
    · obtain ⟨d, -, rfl⟩ := Option.map_eq_some_iff.mp hv
      rfl
  unfold Mutex.run at hst
  split at hst <;> rename_i hp
  case h_1 | h_15 => cases hst
  case h_11 =>
    cases hst
    exact Or.inl rfl
  case h_3 =>
    cases hst
    exact (hacquire _ (show mtxHeld < 4 by decide) (hlose _)).imp_right Or.inl
  case h_5 =>
    cases hst
    exact (hacquire (s.goto t (.load _)) (show mtxWait < 4 by decide) rfl).imp_right Or.inl
  case h_6 | h_19 => exact Or.inl (hquit hst)
  case h_8 =>
    split at hst
    · cases hst
      exact Or.inl rfl
    · split at hst
      · cases hst
        exact Or.inl rfl
      · cases hst
  case h_10 =>
    cases hst
    split
    · rename_i hw
      subst hw
      exact Or.inr (Or.inr ⟨_, _, hp, rfl⟩)
    · exact Or.inl rfl
  case h_13 =>
    cases hst
    split
    · rename_i hw
      exact Or.inr (Or.inl ⟨mtxWait, by decide, by rw [hw]; rfl⟩)
    · exact Or.inl rfl
  case h_18 =>
    cases hst
    split
    · rename_i hw
      exact Or.inr (Or.inl ⟨mtxFree, by decide, by rw [hw]; rfl⟩)
    · exact Or.inl rfl
  case h_2 =>
    cases hst
    split
    · exact Or.inl (hlose _)
    · exact Or.inl rfl
  case h_14 =>
    cases hst
    split
    · exact Or.inl rfl
    · unfold Mutex.semaphoreEnter
      split
      · exact Or.inl rfl
      · split_ifs <;> exact Or.inl rfl
  case h_16 =>
    cases hst
    unfold Mutex.semaphoreTryenter
    split
    · exact Or.inl rfl
    · split_ifs <;> exact Or.inl rfl
  all_goals
    cases hst
    split_ifs <;> exact Or.inl rfl

/-- Once there is a semaphore in the word, it stays. -/
theorem Inv.sem_stays {s u : Mutex τ} {e : Event τ} (h : Inv s) (hst : s.step e = some u) (hne : mtxSem s.word ≠ 0) :
    mtxSem u.word = mtxSem s.word := by
  cases e with
  | run t f =>
    rcases run_word hst with hw | ⟨st, hlt, hw⟩ | ⟨timed, id, hp, -⟩
    · rw [hw]
    · rw [hw, mtxSem_withState hlt]
    · have hzero : mtxSem s.word = 0 := by simpa [hp, Pc.Saw] using h.saw t
      exact absurd hzero hne
  | lock t kind =>
    simp only [Mutex.step] at hst
    split at hst <;> cases hst
    rfl
  | unlock t =>
    simp only [Mutex.step] at hst
    split at hst
    · split at hst <;> cases hst
      rfl
    · cases hst
  | wake t =>
    simp only [Mutex.step] at hst
    split at hst <;> cases hst
    rfl

/-- Every run of any threads is safe, and keeps the semaphore it has published. -/
theorem mutex_safe {s : Mutex τ} (h : Reach Mutex.step Free Mutex.start s) :
    Safe s ∧ ∀ e u, s.step e = some u → mtxSem s.word ≠ 0 → mtxSem u.word = mtxSem s.word := by
  have hinv : Inv s := h.inv (I := Inv) inv_start fun _ _ _ hs _ hst => hs.step hst
  exact ⟨hinv.safe, fun _ _ hst => hinv.sem_stays hst⟩

/-- One thread holds the lock, and another one parks behind it. -/
def contended : List (Event ℕ) :=
  [.lock 1 .lock, .run 1 ⟨false, false, 0, none⟩, .run 1 ⟨false, false, 0, none⟩, .lock 2 .lock] ++
    List.replicate 9 (.run 2 ⟨false, false, 5, none⟩)

theorem mutex_safe_contended : ∃ s : Mutex ℕ, Schemes.runOps Mutex.step Mutex.start contended = some s ∧
    s.word = 4 * 5 + mtxWait ∧ s.pc 2 = .parked false 5 ∧ s.held = [1] ∧ Safe s := by
  have hrun : (Schemes.runOps Mutex.step Mutex.start contended).map (fun s => (s.word, s.pc 2, s.held)) =
      some (22, .parked false 5, [1]) := by decide +kernel
  obtain ⟨s, hs, hfacts⟩ := Option.map_eq_some_iff.mp hrun
  obtain ⟨hw, hp, hheld⟩ : s.word = 22 ∧ s.pc 2 = .parked false 5 ∧ s.held = [1] := by simpa using hfacts
  exact ⟨s, hs, hw, hp, hheld, (mutex_safe (Schemes.reach_of_runOps hs)).1⟩

end EwokOS.Libc.Mtx
