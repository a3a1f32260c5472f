import EwokOS.Schemes.Run
import Mathlib.Data.Int.Notation
import Mathlib.Data.List.Nodup
import Mathlib.Logic.Function.Basic

/-! Thread-specific data (`libewoksys/src/pthread/pthread_key.c`).

    A key is an index into `_keys`; the values of a thread are an array in its entry of `_tls_list`. What a
    key held is left in the arrays when it is deleted, and is found there when the index is handed out
    again:

        create ─▶ 0    set(0, v)      delete(0)       create ─▶ 0    get(0)
                       [v| | ...]     [v| | ...]      [v| | ...]     ─▶ v

    Each section under `_tls_locked` is one step. The lock is given up for the `malloc` of
    `pthread_setspecific`, and while the destructors of a thread that exits are called.

    Ghosts: how often an index was handed out and what was registered then, the number of each store, what
    each thread stored last, and which destructors were called. -/

namespace EwokOS.Libc.ThreadKey

open Schemes (Reach Free runIf runOps reach_of_runIf reach_of_runOps)

variable {τ : Type} [DecidableEq τ]

/-- `PTHREAD_KEYS_MAX` -/
def keysMax : ℕ := 64

/-- `PTHREAD_DESTRUCTOR_ITERATIONS` -/
def destructorIterations : ℕ := 4

/-- A value that is not `NULL`, with the key and its generation at the store, and the store's number. -/
structure Stored where
  ptr : ℕ
  key : ℕ
  gen : ℕ
  stamp : ℕ
  deriving DecidableEq, Repr

/-- `tls_entry_t`. -/
structure Entry (τ : Type) where
  tid : τ
  values : ℕ → Option Stored

/-- One of `_keys`. -/
structure Key where
  inUse : Bool
  destructor : Option ℕ
  deriving DecidableEq, Repr

/-- A destructor and the value that was taken for it. -/
structure Taken where
  destructor : ℕ
  value : Stored
  deriving DecidableEq, Repr

/-- Where a thread is: running, in `__pthread_tls_thread_exit` after so many rounds with these destructors to
    call, in one of them, or about to drop its entry. -/
inductive Mode where
  | dead
  | run
  | exit (iter : ℕ) (todo : List Taken)
  | destr (iter : ℕ) (todo : List Taken)
  | last
  deriving DecidableEq, Repr

/-- The destructors a thread still has to call. -/
def Mode.todo : Mode → List Taken
  | .exit _ l | .destr _ l => l
  | .dead | .run | .last => []

/-- The thread runs code of its own, or a destructor. -/
def Mode.busy : Mode → Bool
  | .run | .destr _ _ => true
  | .dead | .exit _ _ | .last => false

/-- A thread; `alloc` is the key and the value of a `pthread_setspecific` that is in `malloc`: it counts at
    its store behind that, for the generation the key has then. -/
structure Thread where
  mode : Mode
  alloc : Option (ℕ × ℕ)
  deriving DecidableEq, Repr

structure Keys (τ : Type) where
  keys : ℕ → Key
  list : List (Entry τ)
  thread : τ → Thread
  gens : ℕ → ℕ
  registered : ℕ → ℕ → Option ℕ
  stamps : ℕ
  latest : τ → ℕ → Option Stored
  called : List Taken

def Keys.start : Keys τ :=
  ⟨fun _ => ⟨false, none⟩, [], fun _ => ⟨.dead, none⟩, fun _ => 0, fun _ _ => none, 0, fun _ _ => none, []⟩

/-- A key that an interface takes. -/
def inRange (k : ℤ) : Bool := 0 ≤ k ∧ k < keysMax

/-- The first entry of a thread is changed. -/
def changeFirst (t : τ) (f : (ℕ → Option Stored) → ℕ → Option Stored) : List (Entry τ) → List (Entry τ)
  | [] => []
  | e :: l => if e.tid = t then { e with values := f e.values } :: l else e :: changeFirst t f l

namespace Keys
variable (s : Keys τ) (t : τ)

/-- `tls_find_locked`. -/
def find : Option (Entry τ) := s.list.find? fun e => e.tid = t

/-- A value in the array of a thread. -/
def cell (k : ℕ) : Option Stored := (s.find t).bind fun e => e.values k

def goto (mode : Mode) : Keys τ := { s with thread := Function.update s.thread t { s.thread t with mode := mode } }

/-- The index the next key gets. -/
def free : Option ℕ := (List.range keysMax).find? fun i => !(s.keys i).inUse

/-- `pthread_key_create`: the key, or `none` for `EAGAIN`. -/
def keyCreate (destructor : Option ℕ) : Option ℕ × Keys τ :=
  match s.free with
  | none => (none, s)
  | some i =>
    (some i, { s with
      keys := Function.update s.keys i ⟨true, destructor⟩
      gens := Function.update s.gens i (s.gens i + 1)
      registered := Function.update s.registered i
        (Function.update (s.registered i) (s.gens i + 1) destructor)
      latest := fun t => Function.update (s.latest t) i none })

/-- `pthread_key_delete`; `false` is `EINVAL`. -/
def keyDelete (k : ℤ) : Bool × Keys τ :=
  if inRange k = true ∧ (s.keys k.toNat).inUse = true then
    (true, { s with keys := Function.update s.keys k.toNat ⟨false, none⟩ })
  else (false, s)

/-- What a store of `v` puts into the array. -/
def stored (k v : ℕ) : Option Stored := if v = 0 then none else some ⟨v, k, s.gens k, s.stamps⟩

/-- The values of a thread are stored; `list` is the new list. -/
def store (k v : ℕ) (list : List (Entry τ)) : Keys τ :=
  { s with
    list := list
    stamps := s.stamps + 1
    latest := Function.update s.latest t (Function.update (s.latest t) k (s.stored k v)) }

/-- `pthread_setspecific` up to the `malloc`; `false` is `EINVAL`. -/
def setspecific (k : ℤ) (v : ℕ) : Bool × Keys τ :=
  if inRange k = true ∧ (s.keys k.toNat).inUse = true then
    match s.find t with
    | some _ => (true, s.store t k.toNat v (changeFirst t (fun f => Function.update f k.toNat (s.stored k.toNat v)) s.list))
    | none => (true, { s with thread := Function.update s.thread t { s.thread t with alloc := some (k.toNat, v) } })
  else (false, s)

/-- `pthread_setspecific` behind the `malloc`; without memory it is `ENOMEM`. -/
def setAlloc (k v : ℕ) (ok : Bool) : Keys τ :=
  let s' := { s with thread := Function.update s.thread t { s.thread t with alloc := none } }
  if ok then s'.store t k v (⟨t, Function.update (fun _ => none) k (s.stored k v)⟩ :: s.list) else s'

/-- `pthread_getspecific`, with 0 for `NULL`. -/
def getspecific (k : ℤ) : ℕ :=
  if inRange k = true ∧ (s.keys k.toNat).inUse = true then
    ((s.cell t k.toNat).map Stored.ptr).getD 0
  else 0

/-- A key whose values have a destructor. -/
def ends (i : ℕ) : Bool := i < keysMax ∧ (s.keys i).inUse = true ∧ (s.keys i).destructor.isSome = true

/-- What a round of `__pthread_tls_thread_exit` takes out of an array. -/
def takes (values : ℕ → Option Stored) : List Taken :=
  (List.range keysMax).filterMap fun i =>
    if (s.keys i).inUse then (s.keys i).destructor.bind fun d => (values i).map fun x => ⟨d, x⟩ else none

/-- The rest of the array. -/
def rest (values : ℕ → Option Stored) (i : ℕ) : Option Stored := if s.ends i then none else values i

/-- A round of `__pthread_tls_thread_exit`. -/
def round (iter : ℕ) : Keys τ :=
  if iter < destructorIterations then
    match s.find t with
    | none => s.goto t .last
    | some e =>
      if s.takes e.values = [] then s.goto t .last
      else
        { s with
          list := changeFirst t s.rest s.list
          latest := Function.update s.latest t (s.rest (s.latest t)) }.goto t (.exit (iter + 1) (s.takes e.values))
  else s.goto t .last

/-- The end of `__pthread_tls_thread_exit`, and of the thread. -/
def drop : Keys τ :=
  { s with list := s.list.eraseP fun e => e.tid = t
           latest := Function.update s.latest t fun _ => none }.goto t .dead

end Keys

inductive Event (τ : Type) where
  | spawn (t : τ)
  | create (t : τ) (destructor : Option ℕ)
  | delete (t : τ) (k : ℤ)
  | set (t : τ) (k : ℤ) (v : ℕ)
  | alloc (t : τ) (ok : Bool)
  | exit (t : τ)
  | round (t : τ)
  | call (t : τ)
  | ret (t : τ)
  | drop (t : τ)

namespace Keys
variable (s : Keys τ) (t : τ)

/-- The thread can make a call. -/
def able : Bool := (s.thread t).alloc == none && (s.thread t).mode.busy

def step : Event τ → Option (Keys τ)
  | .spawn t => if (s.thread t).mode = .dead then some (s.goto t .run) else none
  | .create t d => if s.able t then some (s.keyCreate d).2 else none
  | .delete t k => if s.able t then some (s.keyDelete k).2 else none
  | .set t k v => if s.able t then some (s.setspecific t k v).2 else none
  | .alloc t ok => (s.thread t).alloc.map fun a => s.setAlloc t a.1 a.2 ok
  | .exit t => if (s.thread t).alloc = none ∧ (s.thread t).mode = .run then some (s.goto t (.exit 0 [])) else none
  | .round t =>
    match (s.thread t).mode with
    | .exit iter [] => some (s.round t iter)
    | _ => none
  | .call t =>
    match (s.thread t).mode with
    | .exit iter (x :: l) => some ({ s with called := x :: s.called }.goto t (.destr iter l))
    | _ => none
  | .ret t =>
    match (s.thread t).mode with
    | .destr iter l => if (s.thread t).alloc = none then some (s.goto t (.exit iter l)) else none
    | _ => none
  | .drop t => if (s.thread t).mode = .last then some (s.drop t) else none

/-- A key in use gives what the thread stored last since it was created, and has not lost to its exit, and any
    other key gives `NULL`; a thread has an entry only while it lives, and no more than one; and a destructor gets
    what was stored under the key it was registered for, once for each store. -/
structure Right (s : Keys τ) : Prop where
  get : ∀ t (k : ℤ), s.getspecific t k =
    if inRange k = true ∧ (s.keys k.toNat).inUse = true then ((s.latest t k.toNat).map Stored.ptr).getD 0 else 0
  one : ∀ t, (s.list.filter fun e => e.tid = t).length ≤ 1
  gone : ∀ t, (s.thread t).mode = .dead → ∀ e ∈ s.list, e.tid ≠ t
  own : ∀ x ∈ s.called, s.registered x.value.key x.value.gen = some x.destructor
  once : (s.called.map fun x => x.value.stamp).Nodup

/-- An index is handed out only when no thread has a value there. -/
def Clean : Event τ → Prop
  | .create _ _ => ∀ i, s.free = some i → ∀ e ∈ s.list, e.values i = none
  | _ => True

end Keys

/-! ### The list -/

section
variable {t u : τ} {f : (ℕ → Option Stored) → ℕ → Option Stored} {l : List (Entry τ)}

theorem tids_changeFirst : (changeFirst t f l).map Entry.tid = l.map Entry.tid := by
  induction l with
  | nil => rfl
  | cons e l ih =>
    rw [changeFirst]
    split <;> simp [ih]

theorem find_changeFirst : (changeFirst t f l).find? (fun e => e.tid = u) =
    if u = t then (l.find? fun e => e.tid = t).map fun e => { e with values := f e.values }
    else l.find? fun e => e.tid = u := by
  induction l with
  | nil => simp [changeFirst]
  | cons e l ih =>
    rw [changeFirst]
    by_cases he : e.tid = t
    · rw [if_pos he]
      by_cases hu : u = t
      · simp [he, hu]
      · have hne : ¬t = u := fun h => hu h.symm
        simp [he, hu, hne]
    · rw [if_neg he]
      by_cases heu : e.tid = u
      · have hne : u ≠ t := fun h => he (heu.trans h)
        simp [heu, hne]
      · simp only [List.find?_cons, heu, decide_false, ih, he]

theorem find_eraseP (h : (l.map Entry.tid).Nodup) : (l.eraseP fun e => e.tid = t).find? (fun e => e.tid = u) =
    if u = t then none else l.find? fun e => e.tid = u := by
  induction l with
  | nil => simp
  | cons e l ih =>
    rw [List.map_cons, List.nodup_cons] at h
    by_cases he : e.tid = t
    · rw [List.eraseP_cons_of_pos (by simpa using he)]
      by_cases hu : u = t
      · rw [if_pos hu, List.find?_eq_none]
        intro x hx hxu
        have hxt : x.tid = t := (of_decide_eq_true hxu).trans hu
        exact h.1 (he.trans hxt.symm ▸ List.mem_map_of_mem hx)
      · have hne : ¬t = u := fun h => hu h.symm
        rw [if_neg hu, List.find?_cons]
        simp [he, hne]
    · rw [List.eraseP_cons_of_neg (by simpa using he), List.find?_cons, ih h.2, List.find?_cons]
      by_cases heu : e.tid = u
      · have hne : u ≠ t := fun h => he (heu.trans h)
        simp [heu, hne]
      · simp [heu]

/-- The entry of a thread that has none is new. -/
theorem find_eq_none_iff : (l.find? fun e => e.tid = t) = none ↔ t ∉ l.map Entry.tid := by
  rw [List.find?_eq_none]
  simp only [decide_eq_true_eq, List.mem_map, not_exists, not_and]

end

/-! ### The invariant -/

/-- Where a stored value is. -/
inductive Place (τ : Type) where
  | cell (t : τ) (k : ℕ)
  | todo (t : τ)
  | called

/-- Every stored value is in one place. -/
structure Placed (s : Keys τ) (p : ℕ → Option (Place τ)) : Prop where
  cell : ∀ t k x, s.cell t k = some x → p x.stamp = some (.cell t k)
  todo : ∀ t, ∀ x ∈ (s.thread t).mode.todo, p x.value.stamp = some (.todo t)
  called : ∀ x ∈ s.called, p x.value.stamp = some .called
  fresh : ∀ n, s.stamps ≤ n → p n = none
  todoNodup : ∀ t, ((s.thread t).mode.todo.map fun x => x.value.stamp).Nodup
  calledNodup : (s.called.map fun x => x.value.stamp).Nodup

structure Inv (s : Keys τ) : Prop where
  nodup : (s.list.map Entry.tid).Nodup
  owner : ∀ t, (s.thread t).mode = .dead → s.find t = none
  alloc : ∀ t, (s.thread t).alloc ≠ none → s.find t = none ∧ (s.thread t).mode.busy = true
  placed : ∃ p, Placed s p

/-- What was registered with the generation a value was stored under. -/
def Meant (s : Keys τ) (x : Taken) : Prop :=
  x.value.gen ≤ s.gens x.value.key ∧ s.registered x.value.key x.value.gen = some x.destructor

/-- Nothing in an array is older than its key. -/
structure Current (s : Keys τ) : Prop where
  latest : ∀ t k, s.latest t k = s.cell t k
  gen : ∀ t k x, s.cell t k = some x → x.key = k ∧ x.gen = s.gens k
  registered : ∀ i, (s.keys i).inUse = true → s.registered i (s.gens i) = (s.keys i).destructor
  todo : ∀ t, ∀ x ∈ (s.thread t).mode.todo, Meant s x
  called : ∀ x ∈ s.called, Meant s x

variable {s u : Keys τ} {t : τ}

/-- What a step leaves of the values; the thread `t` may have changed its mode. -/
structure Same (s u : Keys τ) : Prop where
  list : u.list = s.list
  stamps : u.stamps = s.stamps
  called : u.called = s.called

theorem Same.find (h : Same s u) (v : τ) : u.find v = s.find v := by
  rw [Keys.find, h.list]
  rfl

theorem Same.cell (h : Same s u) (v : τ) (k : ℕ) : u.cell v k = s.cell v k := by
  rw [Keys.cell, h.find]
  rfl

/-- The modes change, and the destructors to call do not. -/
theorem Inv.same (h : Inv s) (hs : Same s u) (htodo : ∀ v, (u.thread v).mode.todo = (s.thread v).mode.todo)
    (hdead : ∀ v, (u.thread v).mode = .dead → (s.thread v).mode = .dead)
    (halloc : ∀ v, (u.thread v).alloc ≠ none → s.find v = none ∧ (u.thread v).mode.busy = true) : Inv u := by
  obtain ⟨p, hp⟩ := h.placed
  refine ⟨by rw [hs.list]; exact h.nodup, fun v hv => ?_, fun v hv => ?_, p, ?_⟩
  · rw [hs.find]
    exact h.owner v (hdead v hv)
  · rw [hs.find]
    exact halloc v hv
  · refine ⟨fun v k x hx => ?_, fun v x hx => ?_, ?_, ?_, fun v => ?_, ?_⟩
    · rw [hs.cell] at hx
      exact hp.cell v k x hx
    · rw [htodo] at hx
      exact hp.todo v x hx
    · rw [hs.called]
      exact hp.called
    · rw [hs.stamps]
      exact hp.fresh
    · rw [htodo]
      exact hp.todoNodup v
    · rw [hs.called]
      exact hp.calledNodup

theorem Keys.cell_find (o : Option (Entry τ)) (h : s.find t = o) (k : ℕ) : s.cell t k = o.bind fun e => e.values k := by
  rw [Keys.cell, h]

theorem Inv.alloc_none (h : Inv s) (hb : (s.thread t).mode.busy = false) : (s.thread t).alloc = none := by
  by_contra ha
  have := (h.alloc t ha).2
  rw [hb] at this
  cases this

/-- A thread gets on, with the same destructors to call. -/
theorem Inv.goto (h : Inv s) {m : Mode} (htodo : m.todo = (s.thread t).mode.todo) (hm : m ≠ .dead)
    (ha : (s.thread t).alloc = none) : Inv (s.goto t m) := by
  have hthread : ∀ v, v ≠ t → (s.goto t m).thread v = s.thread v := fun v hv => Function.update_of_ne hv _ _
  have hself : (s.goto t m).thread t = { s.thread t with mode := m } := Function.update_self _ _ _
  refine h.same ⟨rfl, rfl, rfl⟩ (fun v => ?_) (fun v hv => ?_) fun v hv => ?_
  · by_cases hvt : v = t
    · rw [hvt, hself, htodo]
    · rw [hthread v hvt]
  · by_cases hvt : v = t
    · rw [hvt, hself] at hv
      exact absurd hv hm
    · rwa [hthread v hvt] at hv
  · by_cases hvt : v = t
    · rw [hvt, hself] at hv
      exact absurd ha hv
    · rw [hthread v hvt] at hv ⊢
      exact h.alloc v hv

/-- A value is stored: the array of `t` is changed at `k`, and no other. -/
theorem Inv.store (h : Inv s) {k v : ℕ} {list : List (Entry τ)} (hn : (list.map Entry.tid).Nodup)
    (hfind : ∀ w, (s.store t k v list).find w =
      if w = t then some ⟨t, Function.update (s.cell t) k (s.stored k v)⟩ else s.find w)
    (hm : (s.thread t).mode ≠ .dead) (ha : (s.thread t).alloc = none) : Inv (s.store t k v list) := by
  obtain ⟨p, hp⟩ := h.placed
  refine ⟨hn, fun w hw => ?_, fun w hw => ?_, Function.update p s.stamps (some (.cell t k)), ?_⟩
  · have hwt : w ≠ t := by
      rintro rfl
      exact hm hw
    rw [hfind, if_neg hwt]
    exact h.owner w hw
  · have hwt : w ≠ t := by
      rintro rfl
      exact hw ha
    rw [hfind, if_neg hwt]
    exact h.alloc w hw
  · have hold : ∀ n q, p n = some q → Function.update p s.stamps (some (.cell t k)) n = some q := by
      intro n q hq
      have hne : n ≠ s.stamps := by
        rintro rfl
        rw [hp.fresh _ (Nat.le_refl _)] at hq
        cases hq
      rw [Function.update_of_ne hne, hq]
    refine ⟨fun w j x hx => ?_, fun w x hx => hold _ _ (hp.todo w x hx), fun x hx => hold _ _ (hp.called x hx),
      fun n hn => ?_, hp.todoNodup, hp.calledNodup⟩
    · rw [Keys.cell_find _ (hfind w)] at hx
      by_cases hwt : w = t
      · rw [if_pos hwt, Option.bind_some] at hx
        by_cases hj : j = k
        · simp only [hj, Function.update_self, Keys.stored] at hx
          split at hx
          · cases hx
          · rw [← Option.some.inj hx, Function.update_self, hwt, hj]
        · simp only [Function.update_of_ne hj] at hx
          rw [hwt]
          exact hold _ _ (hp.cell t j x hx)
      · rw [if_neg hwt] at hx
        exact hold _ _ (hp.cell w j x hx)
    · have hlt : s.stamps < n := hn
      rw [Function.update_of_ne (Nat.ne_of_gt hlt)]
      exact hp.fresh n (Nat.le_of_lt hlt)

theorem Keys.tid_of_find {e : Entry τ} (he : s.find t = some e) : e.tid = t := by
  rw [Keys.find] at he
  simpa using List.find?_some he

theorem Keys.find_store_first {k v : ℕ} {e : Entry τ} (he : s.find t = some e) (w : τ) :
    (s.store t k v (changeFirst t (fun f => Function.update f k (s.stored k v)) s.list)).find w =
      if w = t then some ⟨t, Function.update (s.cell t) k (s.stored k v)⟩ else s.find w := by
  have ht := tid_of_find he
  have hc : s.cell t = e.values := funext fun j => by rw [Keys.cell_find _ he, Option.bind_some]
  rw [Keys.find] at he
  rw [Keys.find, Keys.store, find_changeFirst, he, hc, Option.map_some, ht]
  rfl

theorem Keys.find_store_new {k v : ℕ} (hnone : s.find t = none) (w : τ) :
    (s.store t k v (⟨t, Function.update (fun _ => none) k (s.stored k v)⟩ :: s.list)).find w =
      if w = t then some ⟨t, Function.update (s.cell t) k (s.stored k v)⟩ else s.find w := by
  have hc : s.cell t = fun _ => none := funext fun j => by rw [Keys.cell_find _ hnone, Option.bind_none]
  rw [hc, Keys.find, Keys.store, List.find?_cons]
  by_cases hw : w = t
  · simp [hw]
  · have hne : ¬t = w := fun h => hw h.symm
    simp [hw, hne]
    rfl

omit [DecidableEq τ] in
theorem Keys.mem_takes {values : ℕ → Option Stored} {x : Taken} : x ∈ s.takes values ↔ ∃ i < keysMax,
    (s.keys i).inUse = true ∧ (s.keys i).destructor = some x.destructor ∧ values i = some x.value := by
  simp only [Keys.takes, List.mem_filterMap, List.mem_range]
  constructor
  · rintro ⟨i, hi, hx⟩
    split at hx
    · rename_i hu
      obtain ⟨d, hd, hx⟩ := Option.bind_eq_some_iff.mp hx
      obtain ⟨y, hy, rfl⟩ := Option.map_eq_some_iff.mp hx
      exact ⟨i, hi, hu, hd, hy⟩
    · cases hx
  · rintro ⟨i, hi, hu, hd, hx⟩
    exact ⟨i, hi, by simp [hu, hd, hx]⟩

omit [DecidableEq τ] in
theorem Keys.rest_eq_some {values : ℕ → Option Stored} {i : ℕ} {x : Stored} (hx : s.rest values i = some x) :
    s.ends i = false ∧ values i = some x := by
  simp only [Keys.rest] at hx
  split at hx
  · cases hx
  · rename_i he
    exact ⟨by simpa using he, hx⟩

/-- The values a round takes were stored one by one. -/
theorem Placed.takes_nodup {p : ℕ → Option (Place τ)} (hp : Placed s p) :
    ((s.takes (s.cell t)).map fun x => x.value.stamp).Nodup := by
  rw [Keys.takes, List.map_filterMap]
  refine List.Nodup.filterMap (fun i j n hi hj => ?_) List.nodup_range
  have hcell : ∀ i, n ∈ Option.map (fun x : Taken => x.value.stamp)
      (if (s.keys i).inUse = true then
        (s.keys i).destructor.bind fun d => (s.cell t i).map fun x => ⟨d, x⟩ else none) →
      p n = some (.cell t i) := by
    intro i hn
    obtain ⟨x, hx, rfl⟩ := Option.map_eq_some_iff.mp hn
    split at hx
    · obtain ⟨d, -, hx⟩ := Option.bind_eq_some_iff.mp hx
      obtain ⟨y, hy, rfl⟩ := Option.map_eq_some_iff.mp hx
      exact hp.cell t i y hy
    · cases hx
  have h := (hcell i hi).symm.trans (hcell j hj)
  injection h with h
  injection h

/-- The values of a round go from the array to the destructors to call. -/
theorem Placed.round {p : ℕ → Option (Place τ)} (hp : Placed s p)
    (hcell : ∀ w k, u.cell w k = if w = t then s.rest (s.cell t) k else s.cell w k)
    (hmode : ∀ w, (u.thread w).mode.todo = if w = t then s.takes (s.cell t) else (s.thread w).mode.todo)
    (hstamps : u.stamps = s.stamps) (hcalled : u.called = s.called) :
    Placed u fun n => if n ∈ (s.takes (s.cell t)).map fun x => x.value.stamp then some (.todo t) else p n := by
  have hfrom : ∀ n ∈ (s.takes (s.cell t)).map fun x => x.value.stamp,
      ∃ i, s.ends i = true ∧ p n = some (.cell t i) := by
    intro n hn
    obtain ⟨x, hx, rfl⟩ := List.mem_map.mp hn
    obtain ⟨i, hi, hu, hd, hv⟩ := Keys.mem_takes.mp hx
    exact ⟨i, by simp [Keys.ends, hi, hu, hd], hp.cell t i _ hv⟩
  have hold : ∀ n q, p n = some q → (∀ i, s.ends i = true → q ≠ .cell t i) →
      (if n ∈ (s.takes (s.cell t)).map fun x => x.value.stamp then some (.todo t) else p n) = some q := by
    intro n q hq hne
    rw [if_neg, hq]
    intro hn
    obtain ⟨i, hi, hpn⟩ := hfrom n hn
    exact hne i hi (Option.some.inj (hq.symm.trans hpn))
  refine ⟨fun w k x hx => ?_, fun w x hx => ?_, fun x hx => ?_, fun n hn => ?_, fun w => ?_, ?_⟩
  · rw [hcell] at hx
    split at hx
    · rename_i hw
      obtain ⟨he, hx⟩ := Keys.rest_eq_some hx
      rw [hw]
      refine hold _ _ (hp.cell t k x hx) fun i hi hki => ?_
      injection hki with _ hki
      rw [hki, hi] at he
      cases he
    · rename_i hw
      refine hold _ _ (hp.cell w k x hx) fun i hi hki => ?_
      injection hki with hki
      exact hw hki
  · rw [hmode] at hx
    split at hx
    · rename_i hw
      rw [hw, if_pos (List.mem_map_of_mem hx)]
    · exact hold _ _ (hp.todo w x hx) fun i hi hki => by cases hki
  · rw [hcalled] at hx
    exact hold _ _ (hp.called x hx) fun i hi hki => by cases hki
  · rw [hstamps] at hn
    rw [if_neg, hp.fresh n hn]
    intro hmem
    obtain ⟨i, -, hpn⟩ := hfrom n hmem
    rw [hp.fresh n hn] at hpn
    cases hpn
  · rw [hmode]
    split
    · exact hp.takes_nodup
    · exact hp.todoNodup w
  · rw [hcalled]
    exact hp.calledNodup

theorem Inv.round (h : Inv s) {iter : ℕ} (hm : (s.thread t).mode = .exit iter []) : Inv (s.round t iter) := by
  have ha : (s.thread t).alloc = none := h.alloc_none (by rw [hm]; rfl)
  have hlast : Inv (s.goto t .last) := h.goto (by rw [hm]; rfl) (by simp) ha
  rw [Keys.round]
  split
  · split
    · exact hlast
    · rename_i e he
      split
      · exact hlast
      · have ht := Keys.tid_of_find he
        have hc : s.cell t = e.values := funext fun j => by rw [Keys.cell_find _ he, Option.bind_some]
        obtain ⟨p, hp⟩ := h.placed
        have hfind : ∀ w, ({ s with
            list := changeFirst t s.rest s.list
            latest := Function.update s.latest t (s.rest (s.latest t)) }.goto t
              (.exit (iter + 1) (s.takes e.values))).find w =
            if w = t then some ⟨t, s.rest (s.cell t)⟩ else s.find w := by
          intro w
          rw [Keys.find] at he
          rw [Keys.find, Keys.goto, find_changeFirst, he, hc, Option.map_some, ht]
          rfl
        refine ⟨?_, fun w hw => ?_, fun w hw => ?_, _, hp.round (t := t) (fun w k => ?_) (fun w => ?_) rfl rfl⟩
        · simp only [Keys.goto, tids_changeFirst]
          exact h.nodup
        · by_cases hwt : w = t
          · simp [Keys.goto, hwt] at hw
          · simp only [Keys.goto, Function.update_of_ne hwt] at hw
            rw [hfind, if_neg hwt]
            exact h.owner w hw
        · by_cases hwt : w = t
          · simp [Keys.goto, hwt, ha] at hw
          · simp only [Keys.goto, Function.update_of_ne hwt] at hw ⊢
            have := h.alloc w hw
            refine ⟨?_, this.2⟩
            exact ((hfind w).trans (if_neg hwt)).trans this.1
        · rw [Keys.cell_find _ (hfind w)]
          split <;> rfl
        · by_cases hwt : w = t
          · simp [Keys.goto, hwt, Mode.todo, hc]
          · simp [Keys.goto, hwt]
  · exact hlast

/-- A destructor is called. -/
theorem Inv.call (h : Inv s) {iter : ℕ} {x : Taken} {l : List Taken} (hm : (s.thread t).mode = .exit iter (x :: l)) :
    Inv ({ s with called := x :: s.called }.goto t (.destr iter l)) := by
  have ha : (s.thread t).alloc = none := h.alloc_none (by rw [hm]; rfl)
  obtain ⟨p, hp⟩ := h.placed
  have htodo : (s.thread t).mode.todo = x :: l := by rw [hm]; rfl
  have hx : p x.value.stamp = some (.todo t) := hp.todo t x (by simp [htodo])
  have hold : ∀ n q, p n = some q → q ≠ .todo t → Function.update p x.value.stamp (some .called) n = some q := by
    intro n q hq hne
    have : n ≠ x.value.stamp := by
      rintro rfl
      exact hne (Option.some.inj (hq.symm.trans hx))
    rw [Function.update_of_ne this, hq]
  have hnd := hp.todoNodup t
  rw [htodo, List.map_cons, List.nodup_cons] at hnd
  refine ⟨h.nodup, fun w hw => ?_, fun w hw => ?_, Function.update p x.value.stamp (some .called), ?_⟩
  · by_cases hwt : w = t
    · simp [Keys.goto, hwt] at hw
    · simp only [Keys.goto, Function.update_of_ne hwt] at hw
      exact h.owner w hw
  · by_cases hwt : w = t
    · simp [Keys.goto, hwt, ha] at hw
    · simp only [Keys.goto, Function.update_of_ne hwt] at hw ⊢
      exact h.alloc w hw
  · refine ⟨fun w k y hy => hold _ _ (hp.cell w k y hy) (by simp), fun w y hy => ?_, fun y hy => ?_,
      fun n hn => ?_, fun w => ?_, ?_⟩
    · by_cases hwt : w = t
      · simp only [Keys.goto, hwt, Function.update_self, Mode.todo] at hy ⊢
        have hne : y.value.stamp ≠ x.value.stamp := fun h => hnd.1 (List.mem_map.mpr ⟨y, hy, h⟩)
        rw [Function.update_of_ne hne]
        exact hp.todo t y (by simp [htodo, hy])
      · simp only [Keys.goto, Function.update_of_ne hwt] at hy
        refine hold _ _ (hp.todo w y hy) fun he => hwt ?_
        injection he
    · rcases List.mem_cons.mp hy with rfl | hy
      · exact Function.update_self _ _ _
      · exact hold _ _ (hp.called y hy) (by simp)
    · have hne : n ≠ x.value.stamp := by
        rintro rfl
        rw [hp.fresh _ hn] at hx
        cases hx
      rw [Function.update_of_ne hne]
      exact hp.fresh n hn
    · by_cases hwt : w = t
      · simpa [Keys.goto, hwt, Mode.todo] using hnd.2
      · simp only [Keys.goto, Function.update_of_ne hwt]
        exact hp.todoNodup w
    · refine List.nodup_cons.mpr ⟨fun hmem => ?_, hp.calledNodup⟩
      obtain ⟨y, hy, hyx⟩ := List.mem_map.mp hmem
      have := hp.called y hy
      rw [hyx, hx] at this
      injection this with this
      cases this

theorem Inv.find_drop (h : Inv s) (w : τ) : (s.drop t).find w = if w = t then none else s.find w := by
  rw [Keys.find, Keys.drop, Keys.goto, find_eraseP h.nodup]
  rfl

theorem Inv.drop (h : Inv s) (hm : (s.thread t).mode = .last) : Inv (s.drop t) := by
  have ha : (s.thread t).alloc = none := h.alloc_none (by rw [hm]; rfl)
  have hthread : ∀ w, w ≠ t → (s.drop t).thread w = s.thread w := fun w hw => Function.update_of_ne hw _ _
  have hself : (s.drop t).thread t = ⟨.dead, none⟩ := by simp [Keys.drop, Keys.goto, ha]
  obtain ⟨p, hp⟩ := h.placed
  refine ⟨?_, fun w hw => ?_, fun w hw => ?_, p, fun w k x hx => ?_, fun w x hx => ?_, hp.called, hp.fresh,
    fun w => ?_, hp.calledNodup⟩
  · exact (List.eraseP_sublist.map _).nodup h.nodup
  · rw [h.find_drop]
    split
    · rfl
    · rename_i hwt
      rw [hthread w hwt] at hw
      exact h.owner w hw
  · by_cases hwt : w = t
    · rw [hwt, hself] at hw
      exact absurd rfl hw
    · rw [hthread w hwt] at hw ⊢
      rw [h.find_drop, if_neg hwt]
      exact h.alloc w hw
  · rw [Keys.cell_find _ (h.find_drop w)] at hx
    split at hx
    · cases hx
    · exact hp.cell w k x hx
  · by_cases hwt : w = t
    · rw [hwt, hself] at hx
      cases hx
    · rw [hthread w hwt] at hx
      exact hp.todo w x hx
  · by_cases hwt : w = t
    · rw [hwt, hself]
      exact List.nodup_nil
    · rw [hthread w hwt]
      exact hp.todoNodup w

theorem Inv.set (h : Inv s) {k : ℤ} {v : ℕ} (hable : s.able t = true) : Inv (s.setspecific t k v).2 := by
  simp only [Keys.able, Bool.and_eq_true, beq_iff_eq] at hable
  rw [Keys.setspecific]
  split
  · split
    · rename_i e he
      refine h.store (by rw [tids_changeFirst]; exact h.nodup) (Keys.find_store_first he) (fun hd => ?_) hable.1
      rw [hd] at hable
      cases hable.2
    · rename_i hnone
      -- the thread is in `malloc` now
      refine h.same ⟨rfl, rfl, rfl⟩ (fun w => ?_) (fun w hw => ?_) fun w hw => ?_
      · by_cases hwt : w = t <;> simp [hwt]
      · by_cases hwt : w = t
        · simpa [hwt] using hw
        · simpa [hwt] using hw
      · by_cases hwt : w = t
        · simp [hwt, hnone, hable.2]
        · simp only [Function.update_of_ne hwt] at hw ⊢
          exact h.alloc w hw
  · exact h

theorem Inv.setAlloc (h : Inv s) {k v : ℕ} {ok : Bool} (ha : (s.thread t).alloc = some (k, v)) :
    Inv (s.setAlloc t k v ok) := by
  obtain ⟨hnone, hbusy⟩ := h.alloc t (by simp [ha])
  have h' : Inv { s with thread := Function.update s.thread t { s.thread t with alloc := none } } := by
    refine h.same ⟨rfl, rfl, rfl⟩ (fun w => ?_) (fun w hw => ?_) fun w hw => ?_
    · by_cases hwt : w = t <;> simp [hwt]
    · by_cases hwt : w = t
      · simpa [hwt] using hw
      · simpa [hwt] using hw
    · by_cases hwt : w = t
      · simp [hwt] at hw
      · simp only [Function.update_of_ne hwt] at hw ⊢
        exact h.alloc w hw
  rw [Keys.setAlloc]
  split
  · refine h'.store ?_ (Keys.find_store_new hnone) ?_ (by simp)
    · exact List.nodup_cons.mpr ⟨find_eq_none_iff.mp hnone, h.nodup⟩
    · intro hd
      simp only [Function.update_self] at hd
      rw [hd] at hbusy
      cases hbusy
  · exact h'

theorem Inv.step (h : Inv s) {e : Event τ} (hs : s.step e = some u) : Inv u := by
  cases e with
  | spawn t =>
    simp only [Keys.step, Option.ite_none_right_eq_some, Option.some.injEq] at hs
    obtain ⟨hm, rfl⟩ := hs
    exact h.goto (by rw [hm]; rfl) (by simp) (h.alloc_none (by rw [hm]; rfl))
  | create t d =>
    simp only [Keys.step, Option.ite_none_right_eq_some, Option.some.injEq] at hs
    obtain ⟨-, rfl⟩ := hs
    rw [Keys.keyCreate]
    split
    · exact h
    · exact h.same ⟨rfl, rfl, rfl⟩ (fun _ => rfl) (fun _ hw => hw) h.alloc
  | delete t k =>
    simp only [Keys.step, Option.ite_none_right_eq_some, Option.some.injEq] at hs
    obtain ⟨-, rfl⟩ := hs
    rw [Keys.keyDelete]
    split
    · exact h.same ⟨rfl, rfl, rfl⟩ (fun _ => rfl) (fun _ hw => hw) h.alloc
    · exact h
  | set t k v =>
    simp only [Keys.step, Option.ite_none_right_eq_some, Option.some.injEq] at hs
    obtain ⟨hable, rfl⟩ := hs
    exact h.set hable
  | alloc t ok =>
    simp only [Keys.step, Option.map_eq_some_iff] at hs
    obtain ⟨⟨k, v⟩, ha, rfl⟩ := hs
    exact h.setAlloc ha
  | exit t =>
    simp only [Keys.step, Option.ite_none_right_eq_some, Option.some.injEq] at hs
    obtain ⟨⟨ha, hm⟩, rfl⟩ := hs
    exact h.goto (by rw [hm]; rfl) (by simp) ha
  | round t =>
    simp only [Keys.step] at hs
    split at hs
    · rename_i iter hm
      rw [← Option.some.inj hs]
      exact h.round hm
    · cases hs
  | call t =>
    simp only [Keys.step] at hs
    split at hs
    · rename_i iter x l hm
      rw [← Option.some.inj hs]
      exact h.call hm
    · cases hs
  | ret t =>
    simp only [Keys.step] at hs
    split at hs
    · rename_i iter l hm
      simp only [Option.ite_none_right_eq_some, Option.some.injEq] at hs
      obtain ⟨ha, rfl⟩ := hs
      exact h.goto (by rw [hm]; rfl) (by simp) ha
    · cases hs
  | drop t =>
    simp only [Keys.step, Option.ite_none_right_eq_some, Option.some.injEq] at hs
    obtain ⟨hm, rfl⟩ := hs
    exact h.drop hm

/-! ### Values and generations -/

/-- What a step leaves of the keys. -/
theorem Current.same (h : Current s) (hs : Same s u) (hkeys : u.keys = s.keys) (hgens : u.gens = s.gens)
    (hreg : u.registered = s.registered) (hlatest : u.latest = s.latest)
    (htodo : ∀ w, ∀ x ∈ (u.thread w).mode.todo, ∃ v, x ∈ (s.thread v).mode.todo) : Current u := by
  have hmeant : ∀ x, Meant s x → Meant u x := by
    intro x hx
    rw [Meant, hgens, hreg]
    exact hx
  refine ⟨fun w k => ?_, fun w k x hx => ?_, fun i hi => ?_, fun w x hx => ?_, fun x hx => ?_⟩
  · rw [hlatest, hs.cell]
    exact h.latest w k
  · rw [hs.cell] at hx
    rw [hgens]
    exact h.gen w k x hx
  · rw [hkeys] at hi ⊢
    rw [hreg, hgens]
    exact h.registered i hi
  · obtain ⟨v, hv⟩ := htodo w x hx
    exact hmeant x (h.todo v x hv)
  · rw [hs.called] at hx
    exact hmeant x (h.called x hx)

theorem Current.goto (h : Current s) {m : Mode} (htodo : m.todo = (s.thread t).mode.todo) : Current (s.goto t m) := by
  refine h.same ⟨rfl, rfl, rfl⟩ rfl rfl rfl rfl fun w x hx => ⟨w, ?_⟩
  by_cases hwt : w = t
  · simpa [Keys.goto, hwt, htodo] using hx
  · simpa [Keys.goto, hwt] using hx

/-- An index where no thread has a value is handed out. -/
theorem Current.create (h : Current s) {d : Option ℕ} (hclean : ∀ i, s.free = some i → ∀ e ∈ s.list, e.values i = none) :
    Current (s.keyCreate d).2 := by
  rw [Keys.keyCreate]
  split
  · exact h
  · rename_i i hi
    have hnone : ∀ w, s.cell w i = none := by
      intro w
      cases he : s.find w with
      | none => rw [Keys.cell_find _ he, Option.bind_none]
      | some e =>
        rw [Keys.cell_find _ he, Option.bind_some]
        rw [Keys.find] at he
        exact hclean i hi e (List.mem_of_find?_eq_some he)
    have hmeant : ∀ x, Meant s x → x.value.gen ≤ Function.update s.gens i (s.gens i + 1) x.value.key ∧
        Function.update s.registered i (Function.update (s.registered i) (s.gens i + 1) d)
          x.value.key x.value.gen = some x.destructor := by
      rintro x ⟨hgen, hreg⟩
      by_cases hk : x.value.key = i
      · rw [hk] at hgen hreg ⊢
        have hne : x.value.gen ≠ s.gens i + 1 := by omega
        rw [Function.update_self, Function.update_self, Function.update_of_ne hne]
        exact ⟨by omega, hreg⟩
      · rw [Function.update_of_ne hk, Function.update_of_ne hk]
        exact ⟨hgen, hreg⟩
    refine ⟨fun w k => ?_, fun w k x hx => ?_, fun j hj => ?_, fun w x hx => hmeant x (h.todo w x hx),
      fun x hx => hmeant x (h.called x hx)⟩
    · by_cases hk : k = i
      · rw [hk]
        exact (Function.update_self ..).trans (hnone w).symm
      · exact (Function.update_of_ne hk ..).trans (h.latest w k)
    · have hk : k ≠ i := by
        rintro rfl
        exact nomatch (hnone w).symm.trans hx
      simpa [hk] using h.gen w k x hx
    · by_cases hji : j = i
      · simp [hji]
      · simp only [Function.update_of_ne hji] at hj ⊢
        exact h.registered j hj

theorem Current.delete (h : Current s) {k : ℤ} : Current (s.keyDelete k).2 := by
  rw [Keys.keyDelete]
  split
  · refine ⟨h.latest, h.gen, fun j hj => ?_, h.todo, h.called⟩
    by_cases hji : j = k.toNat
    · simp [hji] at hj
    · simp only [Function.update_of_ne hji] at hj ⊢
      exact h.registered j hj
  · exact h

theorem Current.store (h : Current s) {k v : ℕ} {list : List (Entry τ)} (hfind : ∀ w, (s.store t k v list).find w =
    if w = t then some ⟨t, Function.update (s.cell t) k (s.stored k v)⟩ else s.find w) :
    Current (s.store t k v list) := by
  have hcell : ∀ w j, (s.store t k v list).cell w j =
      if w = t then Function.update (s.cell t) k (s.stored k v) j else s.cell w j := by
    intro w j
    rw [Keys.cell_find _ (hfind w)]
    split <;> rfl
  refine ⟨fun w j => ?_, fun w j x hx => ?_, h.registered, h.todo, h.called⟩
  · rw [hcell]
    by_cases hwt : w = t
    · have : s.latest t = s.cell t := funext (h.latest t)
      simp [Keys.store, hwt, this]
    · simpa [Keys.store, hwt] using h.latest w j
  · rw [hcell] at hx
    split at hx
    · by_cases hj : j = k
      · rw [hj, Function.update_self, Keys.stored] at hx
        split at hx
        · cases hx
        · rw [← Option.some.inj hx, hj]
          exact ⟨rfl, rfl⟩
      · rw [Function.update_of_ne hj] at hx
        exact h.gen t j x hx
    · exact h.gen w j x hx

theorem Current.round (h : Current s) {iter : ℕ} (hm : (s.thread t).mode = .exit iter []) :
    Current (s.round t iter) := by
  have hlast : Current (s.goto t .last) := h.goto (by rw [hm]; rfl)
  rw [Keys.round]
  split
  · split
    · exact hlast
    · rename_i e he
      split
      · exact hlast
      · have hc : s.cell t = e.values := funext fun j => by rw [Keys.cell_find _ he, Option.bind_some]
        have hcell : ∀ w k, ({ s with
            list := changeFirst t s.rest s.list
            latest := Function.update s.latest t (s.rest (s.latest t)) }.goto t
              (.exit (iter + 1) (s.takes e.values))).cell w k =
            if w = t then s.rest (s.cell t) k else s.cell w k := by
          intro w k
          rw [Keys.find] at he
          rw [Keys.cell, Keys.find, Keys.goto, find_changeFirst, he, hc]
          split <;> rfl
        refine ⟨fun w k => ?_, fun w k x hx => ?_, h.registered, fun w x hx => ?_, h.called⟩
        · rw [hcell]
          by_cases hwt : w = t
          · have : s.latest t = s.cell t := funext (h.latest t)
            simp [Keys.goto, hwt, this]
          · simpa [Keys.goto, hwt] using h.latest w k
        · rw [hcell] at hx
          split at hx
          · exact h.gen t k x (Keys.rest_eq_some hx).2
          · exact h.gen w k x hx
        · by_cases hwt : w = t
          · simp only [Keys.goto, hwt, Function.update_self, Mode.todo] at hx
            obtain ⟨i, hi, hu, hd, hv⟩ := Keys.mem_takes.mp hx
            obtain ⟨hkey, hgen⟩ := h.gen t i x.value (by rw [hc]; exact hv)
            have hreg := h.registered i hu
            refine ⟨?_, ?_⟩
            · rw [hkey, hgen]
              exact Nat.le_refl _
            · rw [hkey, hgen]
              exact hreg.trans hd
          · simp only [Keys.goto, Function.update_of_ne hwt] at hx
            exact h.todo w x hx
  · exact hlast

theorem Current.call (h : Current s) {iter : ℕ} {x : Taken} {l : List Taken}
    (hm : (s.thread t).mode = .exit iter (x :: l)) :
    Current ({ s with called := x :: s.called }.goto t (.destr iter l)) := by
  have htodo : (s.thread t).mode.todo = x :: l := by rw [hm]; rfl
  refine ⟨h.latest, h.gen, h.registered, fun w y hy => ?_, fun y hy => ?_⟩
  · by_cases hwt : w = t
    · simp only [Keys.goto, hwt, Function.update_self, Mode.todo] at hy
      exact h.todo t y (by simp [htodo, hy])
    · simp only [Keys.goto, Function.update_of_ne hwt] at hy
      exact h.todo w y hy
  · rcases List.mem_cons.mp hy with rfl | hy
    · exact h.todo t y (by simp [htodo])
    · exact h.called y hy

theorem Current.drop (hi : Inv s) (h : Current s) : Current (s.drop t) := by
  have hcell : ∀ w k, (s.drop t).cell w k = if w = t then none else s.cell w k := by
    intro w k
    rw [Keys.cell_find _ (hi.find_drop w)]
    split <;> rfl
  refine ⟨fun w k => ?_, fun w k x hx => ?_, h.registered, fun w x hx => ?_, h.called⟩
  · rw [hcell]
    by_cases hwt : w = t
    · simp [Keys.drop, Keys.goto, hwt]
    · simpa [Keys.drop, Keys.goto, hwt] using h.latest w k
  · rw [hcell] at hx
    split at hx
    · cases hx
    · exact h.gen w k x hx
  · by_cases hwt : w = t
    · simp [Keys.drop, Keys.goto, hwt, Mode.todo] at hx
    · simp only [Keys.drop, Keys.goto, Function.update_of_ne hwt] at hx
      exact h.todo w x hx

theorem Current.set (h : Current s) {k : ℤ} {v : ℕ} : Current (s.setspecific t k v).2 := by
  rw [Keys.setspecific]
  split
  · split
    · rename_i e he
      exact h.store (Keys.find_store_first he)
    · refine h.same ⟨rfl, rfl, rfl⟩ rfl rfl rfl rfl fun w x hx => ⟨w, ?_⟩
      by_cases hwt : w = t
      · simpa [hwt] using hx
      · simpa [hwt] using hx
  · exact h

theorem Current.setAlloc (hi : Inv s) (h : Current s) {k v : ℕ} {ok : Bool} (ha : (s.thread t).alloc = some (k, v)) :
    Current (s.setAlloc t k v ok) := by
  have hnone := (hi.alloc t (by simp [ha])).1
  have h' : Current { s with thread := Function.update s.thread t { s.thread t with alloc := none } } := by
    refine h.same ⟨rfl, rfl, rfl⟩ rfl rfl rfl rfl fun w x hx => ⟨w, ?_⟩
    by_cases hwt : w = t
    · simpa [hwt] using hx
    · simpa [hwt] using hx
  rw [Keys.setAlloc]
  split
  · exact h'.store (Keys.find_store_new hnone)
  · exact h'

theorem Current.step (hi : Inv s) (h : Current s) {e : Event τ} (hclean : s.Clean e) (hs : s.step e = some u) :
    Current u := by
  cases e with
  | spawn t =>
    simp only [Keys.step, Option.ite_none_right_eq_some, Option.some.injEq] at hs
    obtain ⟨hm, rfl⟩ := hs
    exact h.goto (by rw [hm]; rfl)
  | create t d =>
    simp only [Keys.step, Option.ite_none_right_eq_some, Option.some.injEq] at hs
    obtain ⟨-, rfl⟩ := hs
    exact h.create hclean
  | delete t k =>
    simp only [Keys.step, Option.ite_none_right_eq_some, Option.some.injEq] at hs
    obtain ⟨-, rfl⟩ := hs
    exact h.delete
  | set t k v =>
    simp only [Keys.step, Option.ite_none_right_eq_some, Option.some.injEq] at hs
    obtain ⟨-, rfl⟩ := hs
    exact h.set
  | alloc t ok =>
    simp only [Keys.step, Option.map_eq_some_iff] at hs
    obtain ⟨⟨k, v⟩, ha, rfl⟩ := hs
    exact h.setAlloc hi ha
  | exit t =>
    simp only [Keys.step, Option.ite_none_right_eq_some, Option.some.injEq] at hs
    obtain ⟨⟨-, hm⟩, rfl⟩ := hs
    exact h.goto (by rw [hm]; rfl)
  | round t =>
    simp only [Keys.step] at hs
    split at hs
    · rename_i iter hm
      rw [← Option.some.inj hs]
      exact h.round hm
    · cases hs
  | call t =>
    simp only [Keys.step] at hs
    split at hs
    · rename_i iter x l hm
      rw [← Option.some.inj hs]
      exact h.call hm
    · cases hs
  | ret t =>
    simp only [Keys.step] at hs
    split at hs
    · rename_i iter l hm
      simp only [Option.ite_none_right_eq_some, Option.some.injEq] at hs
      obtain ⟨-, rfl⟩ := hs
      exact h.goto (by rw [hm]; rfl)
    · cases hs
  | drop t =>
    simp only [Keys.step, Option.ite_none_right_eq_some, Option.some.injEq] at hs
    obtain ⟨-, rfl⟩ := hs
    exact h.drop hi

theorem Inv.start : Inv (Keys.start : Keys τ) :=
  ⟨List.nodup_nil, fun _ _ => rfl, fun _ h => absurd rfl h, fun _ => none,
    fun _ _ _ h => (nomatch h), fun _ _ h => (nomatch h), fun _ h => (nomatch h), fun _ _ => rfl,
    fun _ => List.nodup_nil, List.nodup_nil⟩

theorem Current.start : Current (Keys.start : Keys τ) :=
  ⟨fun _ _ => rfl, fun _ _ _ h => (nomatch h), fun _ h => (nomatch h), fun _ _ h => (nomatch h), fun _ h => (nomatch h)⟩

theorem Inv.right (hi : Inv s) (h : Current s) : s.Right := by
  refine ⟨fun t k => ?_, fun t => ?_, fun t hm e he het => ?_, fun x hx => (h.called x hx).2, ?_⟩
  · rw [Keys.getspecific, h.latest]
  · -- the entries of one thread have one id, and no id is there twice
    have hrep : (s.list.filter fun e => e.tid = t).map Entry.tid =
        List.replicate (s.list.filter fun e => e.tid = t).length t :=
      List.eq_replicate_iff.mpr ⟨List.length_map _, fun w hw => by
        obtain ⟨e, he, rfl⟩ := List.mem_map.mp hw
        exact of_decide_eq_true (List.mem_filter.mp he).2⟩
    have hsub : (s.list.filter fun e => e.tid = t).Sublist s.list := List.filter_sublist
    have hnd := (hsub.map Entry.tid).nodup hi.nodup
    rw [hrep] at hnd
    exact List.nodup_replicate.mp hnd
  · have := hi.owner t hm
    rw [Keys.find, find_eq_none_iff] at this
    exact this (List.mem_map.mpr ⟨e, he, het⟩)
  · obtain ⟨p, hp⟩ := hi.placed
    exact hp.calledNodup

/-- While no index is handed out where a thread still has a value, thread-specific data is a map of threads and key
    generations. -/
theorem clean_right (h : Reach Keys.step Keys.Clean Keys.start s) : s.Right := by
  have hinv : Inv s ∧ Current s := by
    refine h.inv (I := fun s => Inv s ∧ Current s) ⟨Inv.start, Current.start⟩ ?_
    intro _ _ _ hi hclean hs
    exact ⟨hi.1.step hs, hi.2.step hi.1 hclean hs⟩
  exact hinv.1.right hinv.2

/-- `Clean`, to be run. -/
def Keys.cleanb (s : Keys τ) : Event τ → Bool
  | .create _ _ => s.free.all fun i => s.list.all fun e => (e.values i).isNone
  | _ => true

omit [DecidableEq τ] in
theorem Keys.clean_of_cleanb (s : Keys τ) (e : Event τ) (h : s.cleanb e = true) : s.Clean e := by
  cases e with
  | create t d =>
    intro i hi e he
    simp only [Keys.cleanb, hi, Option.all_some, List.all_eq_true, Option.isNone_iff_eq_none] at h
    exact h e he
  | _ => trivial

/-- The destructor stores a value again; the thread's id is used again. -/
theorem clean_right_reused : ∃ s : Keys ℕ, s.Right ∧
    s.called.map (fun x => (x.destructor, x.value.ptr)) = [(7, 6), (7, 5)] ∧ s.getspecific 1 0 = 0 ∧
    s.getspecific 1 1 = 9 := by
  obtain ⟨s, hrun, hs⟩ := Option.map_eq_some_iff.mp (show (runIf Keys.step Keys.cleanb (Keys.start : Keys ℕ)
      [.spawn 1, .create 1 (some 7), .set 1 0 5, .alloc 1 true, .create 1 none, .exit 1, .round 1, .call 1, .set 1 0 6,
        .ret 1, .round 1, .call 1, .ret 1, .round 1, .drop 1, .spawn 1, .set 1 1 9, .alloc 1 true]).map
      (fun s => (s.called.map fun x => (x.destructor, x.value.ptr), s.getspecific 1 0, s.getspecific 1 1)) =
      some ([(7, 6), (7, 5)], 0, 9) by decide +kernel)
  simp only [Prod.mk.injEq] at hs
  exact ⟨s, clean_right (reach_of_runIf hrun Keys.clean_of_cleanb), hs.1, hs.2.1, hs.2.2⟩

/-- A new key gives the value of a deleted one. -/
theorem stale_value : ∃ s : Keys ℕ, Reach Keys.step Free Keys.start s ∧ s.getspecific 1 0 = 5 ∧
    s.latest 1 0 = none ∧ ¬s.Right := by
  obtain ⟨s, hrun, hs⟩ := Option.map_eq_some_iff.mp (show (runOps Keys.step (Keys.start : Keys ℕ)
      [.spawn 1, .create 1 none, .set 1 0 5, .alloc 1 true, .delete 1 0, .create 1 none]).map
      (fun s => (s.getspecific 1 0, s.latest 1 0)) = some (5, none) by decide +kernel)
  simp only [Prod.mk.injEq] at hs
  refine ⟨s, reach_of_runOps hrun, hs.1, hs.2, fun h => ?_⟩
  have hget := h.get 1 0
  rw [hs.1, Int.toNat_zero, hs.2] at hget
  split at hget <;> cases hget

end EwokOS.Libc.ThreadKey
