import EwokOS.Schemes.Run
import Mathlib.Logic.Function.Basic

/-! `pthread_once` (`libewoksys/src/pthread/pthread_once.c`).

    One lock, with the id of its owner next to it, serves all controls. A call that an initialiser makes
    finds its own id there and goes on without the lock; the unlock at its end gives the lock up all the
    same, while the initialiser around it still runs.

        enter ── done ──▶ out             ┌── owner = self ──┐
          │                               │                  ▼
          └── not done ────────────────▶ lock ─▶ take ─▶ own ─▶ check ─▶ init ─▶ store ─┐
                                                  ⟲ taken          └───── done ────────┤
          out ◀── release ◀── disown ◀──── owner = self ──── unlock ◀───────────────────┘
           ▲─────────────────────────────── owner ≠ self ───────┘

    Every load and every store is one step of one thread. A thread is its stack of calls: each call
    below the top one is in its initialiser, which made the call above it. -/

namespace EwokOS.Libc.OnceLock

open Schemes (Reach Free)

variable {κ : Type} [DecidableEq κ]

/-- Where a call is. -/
inductive Pc where
  | enter
  /-- At the look at `_once_owner` in `once_lock`. -/
  | lock
  /-- At the test-and-set. -/
  | take
  | own
  | check
  /-- In `init_routine`. -/
  | init
  | store
  | unlock
  | disown
  | release
  deriving DecidableEq, Repr

structure Call (κ : Type) where
  control : κ
  pc : Pc

/-- The words of all controls, the lock, and the calls of each thread with the top one first. The ids of
    threads are those of `pthread_self`. The rest is ghost: how often an initialiser was started and came
    to its end, and how often a call returned 0. -/
structure Once (κ : Type) where
  control : κ → ℕ
  locked : Bool
  owner : ℕ
  calls : ℕ → List (Call κ)
  starts : κ → ℕ
  ends : κ → ℕ
  zeros : κ → ℕ

def Once.start : Once κ := ⟨fun _ => 0, false, 0, fun _ => [], fun _ => 0, fun _ => 0, fun _ => 0⟩

inductive Event (κ : Type) where
  /-- `pthread_once`; `none` and `false` for the null pointers. -/
  | call (t : ℕ) (control : Option κ) (routine : Bool)
  | run (t : ℕ)

namespace Once
variable (s : Once κ) (t : ℕ)

def put (l : List (Call κ)) : Once κ := { s with calls := Function.update s.calls t l }

def count (f : κ → ℕ) (c : κ) : κ → ℕ := Function.update f c (f c + 1)

/-- The top call returns 0. -/
def leave (c : κ) (l : List (Call κ)) : Once κ := { s with zeros := count s.zeros c }.put t l

/-- The next step of a thread; in `init_routine` it is the return from there. -/
def run : Option (Once κ) :=
  match s.calls t with
  | [] => none
  | ⟨c, pc⟩ :: l =>
    some <| match pc with
    | .enter => if s.control c ≠ 0 then s.leave t c l else s.put t (⟨c, .lock⟩ :: l)
    | .lock => s.put t (⟨c, if s.owner = t then .check else .take⟩ :: l)
    | .take => if s.locked then s else { s with locked := true }.put t (⟨c, .own⟩ :: l)
    | .own => { s with owner := t }.put t (⟨c, .check⟩ :: l)
    | .check =>
      if s.control c = 0 then { s with starts := count s.starts c }.put t (⟨c, .init⟩ :: l)
      else s.put t (⟨c, .unlock⟩ :: l)
    | .init => { s with ends := count s.ends c }.put t (⟨c, .store⟩ :: l)
    | .store => { s with control := Function.update s.control c 1 }.put t (⟨c, .unlock⟩ :: l)
    | .unlock => if s.owner = t then s.put t (⟨c, .disown⟩ :: l) else s.leave t c l
    | .disown => { s with owner := 0 }.put t (⟨c, .release⟩ :: l)
    | .release => { s with locked := false }.leave t c l

/-- A thread calls when it is in no call or in an initialiser, and then for another control than those whose
    initialisers it is in. A null pointer gives -1, and nothing happens. -/
def call (c : κ) : Option (Once κ) :=
  match s.calls t with
  | [] => some (s.put t [⟨c, .enter⟩])
  | g :: l =>
    if g.pc = .init ∧ c ∉ (g :: l).map Call.control then some (s.put t (⟨c, .enter⟩ :: g :: l)) else none

def step : Event κ → Option (Once κ)
  | .call t (some c) true => s.call t c
  | .call _ _ _ => some s
  | .run t => s.run t

end Once

namespace Pc

/-- With the lock taken and the control not stored. -/
def inside : Pc → Bool
  | .own | .check | .init | .store => true
  | .enter | .lock | .take | .unlock | .disown | .release => false

/-- Where the owner of the lock can be. -/
def owning : Pc → Bool
  | .check | .init | .store | .unlock | .disown => true
  | .enter | .lock | .take | .own | .release => false

/-- Where the lock is taken and `_once_owner` does not say by whom. -/
def between : Pc → Bool
  | .own | .release => true
  | _ => false

/-- The initialiser of the control is started, and the control not stored. -/
def running : Pc → Bool
  | .init | .store => true
  | _ => false

/-- Behind the initialiser, or the look that found it done. -/
def behind : Pc → Bool
  | .store | .unlock | .disown | .release => true
  | _ => false

end Pc

namespace Once

/-- The first two are about initialisers: each is started once at most, and no call returns 0 before its
    end. -/
structure Sound (s : Once κ) : Prop where
  once : ∀ c, s.starts c ≤ 1
  done : ∀ c, s.zeros c ≠ 0 → s.ends c ≠ 0
  free : (∀ t, s.calls t = []) → s.locked = false

/-- Who takes the lock finds no other thread inside; and thread 0 stays out, as 0 is nobody's id in
    `_once_owner`. -/
def Alone (s : Once κ) : Event κ → Prop
  | .call t _ _ => t ≠ 0
  | .run t => ∀ c l, s.calls t = ⟨c, .take⟩ :: l → s.locked = false →
      ∀ u, u ≠ t → ∀ g ∈ s.calls u, g.pc.inside = false

/-- No call goes on without the lock. -/
def Flat (s : Once κ) : Event κ → Prop
  | .call t _ _ => t ≠ 0
  | .run t => ∀ c l, s.calls t = ⟨c, .lock⟩ :: l → s.owner ≠ t

/-! ### Steps -/

/-- What a step of a thread can do, by where its top call is. -/
inductive Turn (s : Once κ) (t : ℕ) (c : κ) (l : List (Call κ)) : Pc → Once κ → Prop where
  | done : s.control c ≠ 0 → Turn s t c l .enter (s.leave t c l)
  | miss : Turn s t c l .enter (s.put t (⟨c, .lock⟩ :: l))
  | recur : s.owner = t → Turn s t c l .lock (s.put t (⟨c, .check⟩ :: l))
  | queue : s.owner ≠ t → Turn s t c l .lock (s.put t (⟨c, .take⟩ :: l))
  | spin : Turn s t c l .take s
  | take : s.locked = false → Turn s t c l .take ({ s with locked := true }.put t (⟨c, .own⟩ :: l))
  | own : Turn s t c l .own ({ s with owner := t }.put t (⟨c, .check⟩ :: l))
  | begin : s.control c = 0 → Turn s t c l .check ({ s with starts := count s.starts c }.put t (⟨c, .init⟩ :: l))
  | skip : s.control c ≠ 0 → Turn s t c l .check (s.put t (⟨c, .unlock⟩ :: l))
  | finish : Turn s t c l .init ({ s with ends := count s.ends c }.put t (⟨c, .store⟩ :: l))
  | store : Turn s t c l .store
      ({ s with control := Function.update s.control c 1 }.put t (⟨c, .unlock⟩ :: l))
  | mine : s.owner = t → Turn s t c l .unlock (s.put t (⟨c, .disown⟩ :: l))
  | pass : s.owner ≠ t → Turn s t c l .unlock (s.leave t c l)
  | disown : Turn s t c l .disown ({ s with owner := 0 }.put t (⟨c, .release⟩ :: l))
  | release : Turn s t c l .release ({ s with locked := false }.leave t c l)

variable {s w : Once κ} {t : ℕ}

theorem run_turn (h : s.run t = some w) : ∃ c pc l, s.calls t = ⟨c, pc⟩ :: l ∧ Turn s t c l pc w := by
  rw [run] at h
  split at h
  · cases h
  rename_i c pc l hc
  refine ⟨c, pc, l, hc, ?_⟩
  cases pc <;> simp only [Option.some.injEq] at h
  case enter =>
    split at h <;> subst h
    · exact .done ‹_›
    · exact .miss
  case lock =>
    split at h <;> subst h
    · exact .recur ‹_›
    · exact .queue ‹_›
  case take =>
    split at h <;> subst h
    · exact .spin
    · exact .take (by simpa using ‹¬s.locked = true›)
  case check =>
    split at h <;> subst h
    · exact .begin ‹_›
    · exact .skip ‹_›
  case unlock =>
    split at h <;> subst h
    · exact .mine ‹_›
    · exact .pass ‹_›
  all_goals subst h
  · exact .own
  · exact .finish
  · exact .store
  · exact .disown
  · exact .release

theorem call_eq {c : κ} (h : s.call t c = some w) : w = s.put t (⟨c, .enter⟩ :: s.calls t) ∧
    c ∉ (s.calls t).map Call.control ∧ ∀ g l, s.calls t = g :: l → g.pc = .init := by
  rw [call] at h
  split at h
  · rename_i hc
    cases h
    simp [hc]
  · rename_i g l hc
    split_ifs at h with hg
    cases h
    rw [hc]
    refine ⟨rfl, hg.2, fun g' l' hgl => ?_⟩
    obtain ⟨rfl, rfl⟩ := List.cons.inj hgl
    exact hg.1

omit [DecidableEq κ] in
@[simp] theorem calls_put {l : List (Call κ)} : (s.put t l).calls = Function.update s.calls t l := rfl

/-! ### The calls of a thread -/

variable {c : κ} {pc pc' : Pc} {l : List (Call κ)} {u : ℕ} {f : Call κ} {P : Call κ → Prop}

/-- The top call of `t` goes from `pc` to `pc'`. -/
def Moves (s : Once κ) (t : ℕ) (c : κ) (pc pc' : Pc) (l : List (Call κ)) (w : Once κ) : Prop :=
  s.calls t = ⟨c, pc⟩ :: l ∧ w.calls = Function.update s.calls t (⟨c, pc'⟩ :: l)

/-- The top call of `t` returns. -/
def Pops (s : Once κ) (t : ℕ) (c : κ) (pc : Pc) (l : List (Call κ)) (w : Once κ) : Prop :=
  s.calls t = ⟨c, pc⟩ :: l ∧ w.calls = Function.update s.calls t l

omit [DecidableEq κ] in
theorem Moves.mem_iff (h : Moves s t c pc pc' l w) :
    f ∈ w.calls u ↔ (u = t ∧ (f = ⟨c, pc'⟩ ∨ f ∈ l)) ∨ (u ≠ t ∧ f ∈ s.calls u) := by
  rw [h.2]
  by_cases hu : u = t
  · subst hu
    simp
  · simp [hu]

omit [DecidableEq κ] in
theorem Moves.mem (h : Moves s t c pc pc' l w) (hf : f ∈ w.calls u) :
    (u = t ∧ f = ⟨c, pc'⟩) ∨ f ∈ s.calls u := by
  rcases h.mem_iff.mp hf with ⟨rfl, rfl | hf⟩ | ⟨-, hf⟩
  · exact .inl ⟨rfl, rfl⟩
  · exact .inr (h.1 ▸ List.mem_cons_of_mem _ hf)
  · exact .inr hf

omit [DecidableEq κ] in
theorem Moves.exists (h : Moves s t c pc pc' l w) (hf : ∃ f ∈ s.calls u, P f)
    (hp : u = t → P ⟨c, pc⟩ → P ⟨c, pc'⟩) : ∃ f ∈ w.calls u, P f := by
  obtain ⟨f, hf, hP⟩ := hf
  rw [h.2]
  by_cases hu : u = t
  · subst hu
    rw [h.1, List.mem_cons] at hf
    rw [Function.update_self]
    rcases hf with rfl | hf
    · exact ⟨_, List.mem_cons_self, hp rfl hP⟩
    · exact ⟨f, List.mem_cons_of_mem _ hf, hP⟩
  · rw [Function.update_of_ne hu]
    exact ⟨f, hf, hP⟩

omit [DecidableEq κ] in
theorem Pops.mem (h : Pops s t c pc l w) (hf : f ∈ w.calls u) : f ∈ s.calls u := by
  rw [h.2] at hf
  by_cases hu : u = t
  · subst hu
    rw [Function.update_self] at hf
    rw [h.1]
    exact List.mem_cons_of_mem _ hf
  · rwa [Function.update_of_ne hu] at hf

omit [DecidableEq κ] in
theorem Pops.exists (h : Pops s t c pc l w) (hf : ∃ f ∈ s.calls u, P f) (hp : u = t → ¬P ⟨c, pc⟩) :
    ∃ f ∈ w.calls u, P f := by
  obtain ⟨f, hf, hP⟩ := hf
  rw [h.2]
  by_cases hu : u = t
  · subst hu
    rw [h.1, List.mem_cons] at hf
    rw [Function.update_self]
    rcases hf with rfl | hf
    · exact absurd hP (hp rfl)
    · exact ⟨f, hf, hP⟩
  · rw [Function.update_of_ne hu]
    exact ⟨f, hf, hP⟩

/-- A turn moves the top call, takes it off, or leaves everything as it is. -/
theorem Turn.calls (hc : s.calls t = ⟨c, pc⟩ :: l) (h : Turn s t c l pc w) :
    w = s ∨ (∃ pc', Moves s t c pc pc' l w) ∨ Pops s t c pc l w := by
  cases h
  case spin => exact .inl rfl
  case done | pass | release => exact .inr (.inr ⟨hc, rfl⟩)
  all_goals exact .inr (.inl ⟨_, hc, rfl⟩)

end Once

open Once

/-! ### What holds in every run -/

/-- A call below the top one is in its initialiser, and the calls of a thread are for different controls. -/
structure Stacks (s : Once κ) : Prop where
  below : ∀ t g l, s.calls t = g :: l → ∀ f ∈ l, f.pc = .init
  apart : ∀ t, ((s.calls t).map Call.control).Nodup
  zero : s.calls 0 = []

structure Inv (s : Once κ) : Prop extends Stacks s where
  owned : s.owner ≠ 0 → ∃ f ∈ s.calls s.owner, f.pc.owning = true
  taken : s.locked = true → s.owner ≠ 0 ∨ ∃ t, ∃ f ∈ s.calls t, f.pc.between = true
  ended : ∀ c, s.control c ≠ 0 → s.ends c ≠ 0
  behind : ∀ t, ∀ f ∈ s.calls t, f.pc.behind = true → s.ends f.control ≠ 0
  zeros : ∀ c, s.zeros c ≠ 0 → s.ends c ≠ 0

variable {s w : Once κ} {t u : ℕ} {c : κ} {pc pc' : Pc} {l : List (Call κ)}

theorem count_ne_zero {f : κ → ℕ} {c d : κ} (h : f d ≠ 0) : count f c d ≠ 0 := by
  by_cases hd : d = c
  · subst hd
    simp [count]
  · simpa [count, hd] using h

namespace Stacks

omit [DecidableEq κ] in
theorem ne_zero (h : Stacks s) (hc : s.calls t = ⟨c, pc⟩ :: l) : t ≠ 0 := by
  rintro rfl
  rw [h.zero] at hc
  cases hc

theorem turn (h : Stacks s) (hc : s.calls t = ⟨c, pc⟩ :: l) (ht : Turn s t c l pc w) : Stacks w := by
  have hz := (h.ne_zero hc).symm
  have hin := h.below t _ l hc
  have hnd := h.apart t
  rw [hc, List.map_cons] at hnd
  rcases ht.calls hc with rfl | ⟨pc', -, hw⟩ | ⟨-, hw⟩
  · exact h
  · refine ⟨fun u g m hu f hf => ?_, fun u => ?_, ?_⟩
    · rw [hw] at hu
      by_cases hut : u = t
      · subst hut
        rw [Function.update_self] at hu
        obtain ⟨-, rfl⟩ := List.cons.inj hu
        exact hin f hf
      · rw [Function.update_of_ne hut] at hu
        exact h.below u g m hu f hf
    · rw [hw]
      by_cases hut : u = t
      · subst hut
        rwa [Function.update_self, List.map_cons]
      · rw [Function.update_of_ne hut]
        exact h.apart u
    · rw [hw, Function.update_of_ne hz]
      exact h.zero
  · refine ⟨fun u g m hu f hf => ?_, fun u => ?_, ?_⟩
    · rw [hw] at hu
      by_cases hut : u = t
      · subst hut
        rw [Function.update_self] at hu
        exact hin f (hu ▸ List.mem_cons_of_mem _ hf)
      · rw [Function.update_of_ne hut] at hu
        exact h.below u g m hu f hf
    · rw [hw]
      by_cases hut : u = t
      · subst hut
        rw [Function.update_self]
        exact (List.nodup_cons.mp hnd).2
      · rw [Function.update_of_ne hut]
        exact h.apart u
    · rw [hw, Function.update_of_ne hz]
      exact h.zero

omit [DecidableEq κ] in
theorem call (h : Stacks s) (ht : t ≠ 0) (hw : w.calls = Function.update s.calls t (⟨c, .enter⟩ :: s.calls t))
    (hnew : c ∉ (s.calls t).map Call.control) (htop : ∀ g l, s.calls t = g :: l → g.pc = .init) : Stacks w := by
  refine ⟨fun u g m hu f hf => ?_, fun u => ?_, ?_⟩
  · rw [hw] at hu
    by_cases hut : u = t
    · subst hut
      rw [Function.update_self] at hu
      obtain ⟨-, rfl⟩ := List.cons.inj hu
      cases hl : s.calls u with
      | nil => simp [hl] at hf
      | cons g' l =>
        rw [hl, List.mem_cons] at hf
        rcases hf with rfl | hf
        · exact htop f l hl
        · exact h.below u g' l hl f hf
    · rw [Function.update_of_ne hut] at hu
      exact h.below u g m hu f hf
  · rw [hw]
    by_cases hut : u = t
    · subst hut
      rw [Function.update_self, List.map_cons]
      exact List.nodup_cons.mpr ⟨hnew, h.apart u⟩
    · rw [Function.update_of_ne hut]
      exact h.apart u
  · rw [hw, Function.update_of_ne ht.symm]
    exact h.zero

end Stacks

namespace Inv

omit [DecidableEq κ] in
theorem start : Inv (Once.start (κ := κ)) := by
  refine ⟨⟨?_, ?_, rfl⟩, ?_, ?_, ?_, ?_, ?_⟩ <;> simp [Once.start]

omit [DecidableEq κ] in
/-- The top call goes on. -/
theorem move (h : Inv s) (hst : Stacks w) (hm : Moves s t c pc pc' l w) (hz : w.zeros = s.zeros)
    (howner : (w.owner = s.owner ∧ (pc.owning = true → pc'.owning = true)) ∨ w.owner = 0 ∨
      (w.owner = t ∧ pc'.owning = true))
    (hlock : pc'.between = true ∨ w.owner ≠ 0 ∨ (w.locked = s.locked ∧ w.owner = s.owner ∧ pc.between = false))
    (hends : ∀ d, s.ends d ≠ 0 → w.ends d ≠ 0) (hctl : ∀ d, w.control d ≠ 0 → s.control d ≠ 0 ∨ w.ends d ≠ 0)
    (hbehind : pc'.behind = true → w.ends c ≠ 0) : Inv w := by
  have hnew : ∃ f ∈ w.calls t, f = ⟨c, pc'⟩ := ⟨_, by rw [hm.2, Function.update_self]; exact List.mem_cons_self, rfl⟩
  refine ⟨hst, fun ho => ?_, fun hl => ?_, fun d hd => ?_, fun u f hf hb => ?_, fun d hd => ?_⟩
  · rcases howner with ⟨he, hp⟩ | he | ⟨he, hp⟩
    · rw [he] at ho ⊢
      exact hm.exists (h.owned ho) fun _ => hp
    · exact absurd he ho
    · rw [he]
      obtain ⟨f, hf, rfl⟩ := hnew
      exact ⟨_, hf, hp⟩
  · rcases hlock with hp | ho | ⟨he, ho, hp⟩
    · obtain ⟨f, hf, rfl⟩ := hnew
      exact .inr ⟨t, _, hf, hp⟩
    · exact .inl ho
    · rw [ho]
      refine (h.taken (he ▸ hl)).imp_right fun ⟨u, hu⟩ => ⟨u, hm.exists hu fun _ hb => ?_⟩
      rw [hp] at hb
      cases hb
  · exact (hctl d hd).elim (fun hd => hends d (h.ended d hd)) id
  · rcases hm.mem hf with ⟨-, rfl⟩ | hf
    · exact hbehind hb
    · exact hends _ (h.behind u f hf hb)
  · rw [hz] at hd
    exact hends d (h.zeros d hd)

/-- The top call returns 0. -/
theorem pop (h : Inv s) (hst : Stacks w) (hm : Pops s t c pc l w) (hz : w.zeros = count s.zeros c)
    (howner : w.owner = s.owner) (hown : pc.owning = true → s.owner ≠ t)
    (hlock : w.locked = true → s.locked = true ∧ pc.between = false) (hends : w.ends = s.ends)
    (hctl : w.control = s.control) (hdone : s.ends c ≠ 0) : Inv w := by
  refine ⟨hst, fun ho => ?_, fun hl => ?_, fun d hd => ?_, fun u f hf hb => ?_, fun d hd => ?_⟩
  · rw [howner] at ho ⊢
    exact hm.exists (h.owned ho) fun he hp => hown hp he
  · rw [howner]
    obtain ⟨hl, hp⟩ := hlock hl
    exact (h.taken hl).imp_right fun ⟨u, hu⟩ => ⟨u, hm.exists hu fun _ => by simp [hp]⟩
  · rw [hends]
    exact h.ended d (hctl ▸ hd)
  · rw [hends]
    exact h.behind u f (hm.mem hf) hb
  · rw [hends]
    by_cases hdc : d = c
    · exact hdc ▸ hdone
    · rw [hz, count, Function.update_of_ne hdc] at hd
      exact h.zeros d hd

theorem turn (h : Inv s) (hc : s.calls t = ⟨c, pc⟩ :: l) (ht : Turn s t c l pc w) : Inv w := by
  have hst := h.toStacks.turn hc ht
  have hb : pc.behind = true → s.ends c ≠ 0 := h.behind t ⟨c, pc⟩ (hc ▸ List.mem_cons_self)
  have same : ∀ d, s.control d ≠ 0 → s.control d ≠ 0 ∨ s.ends d ≠ 0 := fun _ => .inl
  cases ht with
  | spin => exact h
  | done hd =>
    exact h.pop hst ⟨hc, rfl⟩ rfl rfl (by simp [Pc.owning]) (fun hl => ⟨hl, rfl⟩) rfl rfl (h.ended c hd)
  | pass ho => exact h.pop hst ⟨hc, rfl⟩ rfl rfl (fun _ => ho) (fun hl => ⟨hl, rfl⟩) rfl rfl (hb rfl)
  | release =>
    exact h.pop hst ⟨hc, rfl⟩ rfl rfl (by simp [Pc.owning]) (fun hl => by cases hl) rfl rfl (hb rfl)
  | miss =>
    exact h.move hst ⟨hc, rfl⟩ rfl (.inl ⟨rfl, by simp [Pc.owning]⟩) (.inr (.inr ⟨rfl, rfl, rfl⟩)) (fun _ => id)
      same (by simp [Pc.behind])
  | recur =>
    exact h.move hst ⟨hc, rfl⟩ rfl (.inl ⟨rfl, by simp [Pc.owning]⟩) (.inr (.inr ⟨rfl, rfl, rfl⟩)) (fun _ => id)
      same (by simp [Pc.behind])
  | queue =>
    exact h.move hst ⟨hc, rfl⟩ rfl (.inl ⟨rfl, by simp [Pc.owning]⟩) (.inr (.inr ⟨rfl, rfl, rfl⟩)) (fun _ => id)
      same (by simp [Pc.behind])
  | take =>
    exact h.move hst ⟨hc, rfl⟩ rfl (.inl ⟨rfl, by simp [Pc.owning]⟩) (.inl rfl) (fun _ => id) same
      (by simp [Pc.behind])
  | own =>
    exact h.move hst ⟨hc, rfl⟩ rfl (.inr (.inr ⟨rfl, rfl⟩)) (.inr (.inl (h.ne_zero hc))) (fun _ => id) same
      (by simp [Pc.behind])
  | begin =>
    exact h.move hst ⟨hc, rfl⟩ rfl (.inl ⟨rfl, fun _ => rfl⟩) (.inr (.inr ⟨rfl, rfl, rfl⟩)) (fun _ => id)
      same (by simp [Pc.behind])
  | skip hd =>
    exact h.move hst ⟨hc, rfl⟩ rfl (.inl ⟨rfl, fun _ => rfl⟩) (.inr (.inr ⟨rfl, rfl, rfl⟩)) (fun _ => id)
      same fun _ => h.ended c hd
  | finish =>
    exact h.move hst ⟨hc, rfl⟩ rfl (.inl ⟨rfl, fun _ => rfl⟩) (.inr (.inr ⟨rfl, rfl, rfl⟩))
      (fun _ => count_ne_zero) (fun _ => .inl) fun _ => by simp [put, count]
  | store =>
    refine h.move hst ⟨hc, rfl⟩ rfl (.inl ⟨rfl, fun _ => rfl⟩) (.inr (.inr ⟨rfl, rfl, rfl⟩)) (fun _ => id) (fun d hd => ?_)
      fun _ => hb rfl
    by_cases hdc : d = c
    · exact .inr (hdc ▸ hb rfl)
    · exact .inl (by simpa [put, hdc] using hd)
  | mine =>
    exact h.move hst ⟨hc, rfl⟩ rfl (.inl ⟨rfl, fun _ => rfl⟩) (.inr (.inr ⟨rfl, rfl, rfl⟩)) (fun _ => id)
      same fun _ => hb rfl
  | disown => exact h.move hst ⟨hc, rfl⟩ rfl (.inr (.inl rfl)) (.inl rfl) (fun _ => id) same fun _ => hb rfl

omit [DecidableEq κ] in
/-- A new call is on top of the others. -/
theorem mem_called {n : Call κ} (hw : w = s.put t (n :: s.calls t)) {u : ℕ} {f : Call κ} :
    f ∈ w.calls u ↔ (u = t ∧ f = n) ∨ f ∈ s.calls u := by
  subst hw
  by_cases hu : u = t
  · subst hu
    simp
  · simp [hu]

theorem call (h : Inv s) (ht : t ≠ 0) (hr : s.call t c = some w) : Inv w := by
  obtain ⟨hw, hnew, htop⟩ := call_eq hr
  have hmem : ∀ {u : ℕ} {f : Call κ}, f ∈ w.calls u ↔ (u = t ∧ f = ⟨c, .enter⟩) ∨ f ∈ s.calls u :=
    mem_called hw
  have hst : Stacks w := h.toStacks.call ht (by rw [hw]; rfl) hnew htop
  have hrest : w.control = s.control ∧ w.locked = s.locked ∧ w.owner = s.owner ∧ w.ends = s.ends ∧
      w.zeros = s.zeros := by
    rw [hw]
    exact ⟨rfl, rfl, rfl, rfl, rfl⟩
  obtain ⟨hctl, hlock, howner, hends, hz⟩ := hrest
  refine ⟨hst, fun ho => ?_, fun hl => ?_, by rw [hctl, hends]; exact h.ended, fun u f hf hb => ?_,
    by rw [hz, hends]; exact h.zeros⟩
  · rw [howner] at ho ⊢
    obtain ⟨f, hf, hp⟩ := h.owned ho
    exact ⟨f, hmem.mpr (.inr hf), hp⟩
  · rw [howner]
    refine (h.taken (hlock ▸ hl)).imp_right fun ⟨u, f, hf, hp⟩ => ⟨u, f, hmem.mpr (.inr hf), hp⟩
  · rw [hends]
    rcases hmem.mp hf with ⟨-, rfl⟩ | hf
    · simp [Pc.behind] at hb
    · exact h.behind u f hf hb

omit [DecidableEq κ] in
/-- Nobody is in a call, so nobody has the lock. -/
theorem unlocked (h : Inv s) (hnone : ∀ t, s.calls t = []) : s.locked = false := by
  by_contra hl
  rcases h.taken (by simpa using hl) with ho | ⟨t, f, hf, -⟩
  · obtain ⟨f, hf, -⟩ := h.owned ho
    simp [hnone] at hf
  · simp [hnone] at hf

end Inv

/-! ### Once each -/

/-- One thread at most is inside, and only there can a control be that is started and not stored. -/
structure Single (s : Once κ) : Prop where
  inside : ∀ t u, ∀ f ∈ s.calls t, ∀ g ∈ s.calls u, f.pc.inside = true → g.pc.inside = true → t = u
  fresh : ∀ c, s.starts c ≠ 0 → s.control c = 0 → ∃ t, ∃ f ∈ s.calls t, f.control = c ∧ f.pc.running = true
  once : ∀ c, s.starts c ≤ 1

namespace Single

omit [DecidableEq κ] in
theorem start : Single (Once.start (κ := κ)) := by
  refine ⟨?_, ?_, ?_⟩ <;> simp [Once.start]

omit [DecidableEq κ] in
theorem move (h : Single s) (hm : Moves s t c pc pc' l w)
    (hin : pc'.inside = true → pc.inside = true ∨ ∀ u, u ≠ t → ∀ g ∈ s.calls u, g.pc.inside = false)
    (hrun : pc.running = true → pc'.running = true ∨ w.control c ≠ 0)
    (hctl : ∀ d, w.control d = 0 → s.control d = 0)
    (hstarts : ∀ d, w.starts d ≠ 0 → s.starts d ≠ 0 ∨ (d = c ∧ pc'.running = true))
    (honce : ∀ d, w.starts d ≤ 1) : Single w := by
  have htop : (⟨c, pc⟩ : Call κ) ∈ s.calls t := hm.1 ▸ List.mem_cons_self
  -- the others are outside, if the top call comes in
  have hother : pc'.inside = true → ∀ u, ∀ g ∈ s.calls u, g.pc.inside = true → u = t := by
    intro hp u g hg hgi
    rcases hin hp with hpc | hall
    · exact h.inside u t g hg _ htop hgi hpc
    · by_contra hne
      simp [hall u hne g hg] at hgi
  refine ⟨fun u v f hf g hg hfi hgi => ?_, fun d hd h0 => ?_, honce⟩
  · rcases hm.mem hf with ⟨rfl, rfl⟩ | hf <;> rcases hm.mem hg with ⟨rfl, rfl⟩ | hg
    · rfl
    · exact (hother hfi v g hg hgi).symm
    · exact hother hgi u f hf hfi
    · exact h.inside u v f hf g hg hfi hgi
  · rcases hstarts d hd with hd | ⟨rfl, hp⟩
    · obtain ⟨u, hu⟩ := h.fresh d hd (hctl d h0)
      refine ⟨u, hm.exists hu ?_⟩
      rintro - ⟨rfl, hp⟩
      exact ⟨rfl, (hrun hp).resolve_right (not_not_intro h0)⟩
    · exact ⟨t, _, by rw [hm.2, Function.update_self]; exact List.mem_cons_self, rfl, hp⟩

omit [DecidableEq κ] in
theorem pop (h : Single s) (hm : Pops s t c pc l w) (hrun : pc.running = false) (hctl : w.control = s.control)
    (hstarts : w.starts = s.starts) : Single w := by
  refine ⟨fun u v f hf g hg => h.inside u v f (hm.mem hf) g (hm.mem hg), fun d hd h0 => ?_, hstarts ▸ h.once⟩
  obtain ⟨u, hu⟩ := h.fresh d (hstarts ▸ hd) (hctl ▸ h0)
  refine ⟨u, hm.exists hu ?_⟩
  rintro - ⟨-, hp⟩
  simp [hrun] at hp

omit [DecidableEq κ] in
/-- A call that goes on without the lock is made in an initialiser. -/
theorem recur (hi : Inv s) (hc : s.calls t = ⟨c, .lock⟩ :: l) (ho : s.owner = t) :
    ∃ f ∈ s.calls t, f.pc.inside = true := by
  obtain ⟨f, hf, hp⟩ := hi.owned (ho.trans_ne (hi.ne_zero hc))
  rw [ho, hc, List.mem_cons] at hf
  rcases hf with rfl | hf
  · simp [Pc.owning] at hp
  · refine ⟨f, hc ▸ List.mem_cons_of_mem _ hf, ?_⟩
    simp [hi.below t _ l hc f hf, Pc.inside]

omit [DecidableEq κ] in
/-- A control that is about to be started has not been started before. -/
theorem begin (h : Single s) (hi : Inv s) (hc : s.calls t = ⟨c, .check⟩ :: l) (h0 : s.control c = 0) :
    s.starts c = 0 := by
  by_contra hs
  obtain ⟨u, f, hf, rfl, hp⟩ := h.fresh c hs h0
  have hfi : f.pc.inside = true := by
    cases hpc : f.pc <;> simp [hpc, Pc.running, Pc.inside] at hp ⊢
  have hut : u = t := h.inside u t f hf ⟨f.control, .check⟩ (hc ▸ List.mem_cons_self) hfi rfl
  subst hut
  have hnd := hi.apart u
  rw [hc, List.map_cons, List.nodup_cons] at hnd
  rw [hc, List.mem_cons] at hf
  rcases hf with he | hf
  · rw [congrArg Call.pc he] at hp
    cases hp
  · exact hnd.1 (List.mem_map.mpr ⟨f, hf, rfl⟩)

theorem turn (h : Single s) (hi : Inv s) (hok : Alone s (.run t)) (hc : s.calls t = ⟨c, pc⟩ :: l)
    (ht : Turn s t c l pc w) : Single w := by
  have stays : ∀ d, s.starts d ≠ 0 → s.starts d ≠ 0 ∨ (d = c ∧ pc.running = true) := fun _ => .inl
  cases ht with
  | spin => exact h
  | done | pass | release => exact h.pop ⟨hc, rfl⟩ rfl rfl rfl
  | miss | queue | skip | mine | disown =>
    exact h.move ⟨hc, rfl⟩ (by simp [Pc.inside]) (by simp [Pc.running]) (fun _ => id) (fun _ => .inl) h.once
  | recur ho =>
    obtain ⟨f, hf, hp⟩ := recur hi hc ho
    refine h.move ⟨hc, rfl⟩ (fun _ => .inr fun u hu g hg => ?_) (by simp [Pc.running]) (fun _ => id) (fun _ => .inl) h.once
    by_contra hgi
    exact hu (h.inside u t g hg f hf (by simpa using hgi) hp)
  | take hl =>
    exact h.move ⟨hc, rfl⟩ (fun _ => .inr (hok c l hc hl)) (by simp [Pc.running]) (fun _ => id) (fun _ => .inl) h.once
  | own => exact h.move ⟨hc, rfl⟩ (fun _ => .inl rfl) (by simp [Pc.running]) (fun _ => id) (fun _ => .inl) h.once
  | begin h0 =>
    refine h.move ⟨hc, rfl⟩ (fun _ => .inl rfl) (by simp [Pc.running]) (fun _ => id) (fun d hd => ?_) fun d => ?_
    · by_cases hdc : d = c
      · exact .inr ⟨hdc, rfl⟩
      · exact .inl (by simpa [put, count, hdc] using hd)
    · by_cases hdc : d = c
      · subst hdc
        simp [put, count, h.begin hi hc h0]
      · simpa [put, count, hdc] using h.once d
  | finish =>
    exact h.move ⟨hc, rfl⟩ (fun _ => .inl rfl) (fun _ => .inl rfl) (fun _ => id) (fun _ => .inl) h.once
  | store =>
    refine h.move ⟨hc, rfl⟩ (by simp [Pc.inside]) (fun _ => .inr (by simp [put])) (fun d hd => ?_) (fun _ => .inl) h.once
    by_cases hdc : d = c
    · simp [put, hdc] at hd
    · simpa [put, hdc] using hd

theorem call (h : Single s) (hr : s.call t c = some w) : Single w := by
  obtain ⟨hw, -, -⟩ := call_eq hr
  have hmem : ∀ {u : ℕ} {f : Call κ}, f ∈ w.calls u ↔ (u = t ∧ f = ⟨c, .enter⟩) ∨ f ∈ s.calls u :=
    Inv.mem_called hw
  have hrest : w.control = s.control ∧ w.starts = s.starts := by
    rw [hw]
    exact ⟨rfl, rfl⟩
  refine ⟨fun u v f hf g hg hfi hgi => ?_, fun d hd h0 => ?_, hrest.2 ▸ h.once⟩
  · rcases hmem.mp hf with ⟨-, rfl⟩ | hf
    · simp [Pc.inside] at hfi
    · rcases hmem.mp hg with ⟨-, rfl⟩ | hg
      · simp [Pc.inside] at hgi
      · exact h.inside u v f hf g hg hfi hgi
  · obtain ⟨u, f, hf, hp⟩ := h.fresh d (hrest.2 ▸ hd) (hrest.1 ▸ h0)
    exact ⟨u, f, hmem.mpr (.inr hf), hp⟩

end Single

/-- Every run in which nobody takes the lock with another thread inside starts each initialiser once. -/
theorem once_each (h : Reach Once.step Alone Once.start s) : s.Sound := by
  have hall : Inv s ∧ Single s := by
    refine h.inv (I := fun s => Inv s ∧ Single s) ⟨.start, .start⟩ fun s e w ⟨hi, hs⟩ hok hst => ?_
    cases e with
    | call t c r =>
      cases c with
      | none => cases hst; exact ⟨hi, hs⟩
      | some c =>
        cases r with
        | false => cases hst; exact ⟨hi, hs⟩
        | true => exact ⟨hi.call hok hst, hs.call hst⟩
    | run t =>
      obtain ⟨c, pc, l, hc, ht⟩ := run_turn hst
      exact ⟨hi.turn hc ht, hs.turn hi hok hc ht⟩
  exact ⟨hall.2.once, hall.1.zeros, hall.1.unlocked⟩

/-! ### Without nested calls -/

namespace Pc

/-- With the lock taken. -/
def holding : Pc → Bool
  | .own | .check | .init | .store | .unlock | .disown | .release => true
  | .enter | .lock | .take => false

theorem holding_of_inside {p : Pc} (h : p.inside = true) : p.holding = true := by
  cases p <;> simp [inside, holding] at h ⊢

theorem holding_of_owning {p : Pc} (h : p.owning = true) : p.holding = true := by
  cases p <;> simp [owning, holding] at h ⊢

end Pc

/-- The lock is one call's, and above that call there is one at most that is on its way to the lock. -/
structure Locked (s : Once κ) : Prop where
  holds : ∀ t, ∀ f ∈ s.calls t, f.pc.holding = true → s.locked = true
  sole : ∀ t u, ∀ f ∈ s.calls t, ∀ g ∈ s.calls u, f.pc.holding = true → g.pc.holding = true → t = u
  last : ∀ t g l, s.calls t = g :: l → g.pc.holding = true → l = []
  short : ∀ t, (s.calls t).length ≤ 2
  owner : ∀ t, ∀ f ∈ s.calls t, f.pc.owning = true → s.owner = t

namespace Locked

omit [DecidableEq κ] in
theorem start : Locked (Once.start (κ := κ)) := by
  refine ⟨?_, ?_, ?_, ?_, ?_⟩ <;> simp [Once.start]

omit [DecidableEq κ] in
theorem move (h : Locked s) (hs : Stacks s) (hm : Moves s t c pc pc' l w)
    (hhold : pc'.holding = true → pc.holding = true ∨ s.locked = false)
    (hlock : w.locked = s.locked ∨ w.locked = true) (hnew : pc'.holding = true → w.locked = true)
    (howner : w.owner = s.owner ∨ pc.holding = true) (hown : pc'.owning = true → w.owner = t) : Locked w := by
  have htop : (⟨c, pc⟩ : Call κ) ∈ s.calls t := hm.1 ▸ List.mem_cons_self
  -- with the lock at the top call nobody else has it
  have hother : pc'.holding = true → ∀ u, ∀ g ∈ s.calls u, g.pc.holding = true → u = t := by
    intro hp u g hg hgh
    rcases hhold hp with hpc | hl
    · exact h.sole u t g hg _ htop hgh hpc
    · rw [h.holds u g hg hgh] at hl
      cases hl
  refine ⟨fun u f hf hfh => ?_, fun u v f hf g hg hfh hgh => ?_, fun u g m hu hgh => ?_, fun u => ?_,
    fun u f hf hfo => ?_⟩
  · rcases hm.mem hf with ⟨-, rfl⟩ | hf
    · exact hnew hfh
    · rcases hlock with hl | hl
      · rw [hl]
        exact h.holds u f hf hfh
      · exact hl
  · rcases hm.mem hf with ⟨rfl, rfl⟩ | hf <;> rcases hm.mem hg with ⟨rfl, rfl⟩ | hg
    · rfl
    · exact (hother hfh v g hg hgh).symm
    · exact hother hgh u f hf hfh
    · exact h.sole u v f hf g hg hfh hgh
  · rw [hm.2] at hu
    by_cases hut : u = t
    · subst hut
      rw [Function.update_self] at hu
      obtain ⟨rfl, rfl⟩ := List.cons.inj hu
      rcases hhold hgh with hpc | hl
      · exact h.last u _ l hm.1 hpc
      · refine List.eq_nil_iff_forall_not_mem.mpr fun f hf => ?_
        have hf' : f ∈ s.calls u := hm.1 ▸ List.mem_cons_of_mem _ hf
        rw [h.holds u f hf' (by simp [hs.below u _ l hm.1 f hf, Pc.holding])] at hl
        cases hl
    · rw [Function.update_of_ne hut] at hu
      exact h.last u g m hu hgh
  · have hlen := h.short u
    rw [hm.2]
    by_cases hut : u = t
    · subst hut
      rw [hm.1] at hlen
      simpa using hlen
    · rwa [Function.update_of_ne hut]
  · rcases hm.mem_iff.mp hf with ⟨rfl, rfl | hl⟩ | ⟨hne, hf⟩
    · exact hown hfo
    · rcases howner with ho | hp
      · rw [ho]
        exact h.owner u f (hm.1 ▸ List.mem_cons_of_mem _ hl) hfo
      · rw [h.last u _ l hm.1 hp] at hl
        cases hl
    · rcases howner with ho | hp
      · rw [ho]
        exact h.owner u f hf hfo
      · exact absurd (h.sole u t f hf _ htop (Pc.holding_of_owning hfo) hp) hne

omit [DecidableEq κ] in
theorem pop (h : Locked s) (hm : Pops s t c pc l w) (hlock : w.locked = s.locked ∨ pc.holding = true)
    (howner : w.owner = s.owner) : Locked w := by
  have htop : (⟨c, pc⟩ : Call κ) ∈ s.calls t := hm.1 ▸ List.mem_cons_self
  have hlen := h.short t
  rw [hm.1, List.length_cons] at hlen
  refine ⟨fun u f hf hfh => ?_, fun u v f hf g hg => h.sole u v f (hm.mem hf) g (hm.mem hg),
    fun u g m hu hgh => ?_, fun u => ?_, fun u f hf hfo => howner ▸ h.owner u f (hm.mem hf) hfo⟩
  · rcases hlock with hl | hp
    · rw [hl]
      exact h.holds u f (hm.mem hf) hfh
    · have hut := h.sole u t f (hm.mem hf) _ htop hfh hp
      rw [hm.2, hut, Function.update_self, h.last t _ l hm.1 hp] at hf
      cases hf
  · rw [hm.2] at hu
    by_cases hut : u = t
    · subst hut
      rw [Function.update_self] at hu
      rw [hu, List.length_cons] at hlen
      exact List.length_eq_zero_iff.mp (by omega)
    · rw [Function.update_of_ne hut] at hu
      exact h.last u g m hu hgh
  · rw [hm.2]
    by_cases hut : u = t
    · subst hut
      rw [Function.update_self]
      omega
    · rw [Function.update_of_ne hut]
      exact h.short u

theorem turn (h : Locked s) (hs : Stacks s) (hok : Flat s (.run t)) (hc : s.calls t = ⟨c, pc⟩ :: l)
    (ht : Turn s t c l pc w) : Locked w := by
  have htop : (⟨c, pc⟩ : Call κ) ∈ s.calls t := hc ▸ List.mem_cons_self
  have hlk := h.holds t _ htop
  have how := h.owner t _ htop
  cases ht with
  | spin => exact h
  | done => exact h.pop ⟨hc, rfl⟩ (.inl rfl) rfl
  | pass ho => exact absurd (how rfl) ho
  | release => exact h.pop ⟨hc, rfl⟩ (.inr rfl) rfl
  | recur ho => exact absurd ho (hok c l hc)
  | miss | queue =>
    exact h.move hs ⟨hc, rfl⟩ (by simp [Pc.holding]) (.inl rfl) (by simp [Pc.holding]) (.inl rfl) (by simp [Pc.owning])
  | take hl =>
    exact h.move hs ⟨hc, rfl⟩ (fun _ => .inr hl) (.inr rfl) (fun _ => rfl) (.inl rfl) (by simp [Pc.owning])
  | own => exact h.move hs ⟨hc, rfl⟩ (fun _ => .inl rfl) (.inl rfl) (fun _ => hlk rfl) (.inr rfl) fun _ => rfl
  | begin | skip | finish | store | mine =>
    exact h.move hs ⟨hc, rfl⟩ (fun _ => .inl rfl) (.inl rfl) (fun _ => hlk rfl) (.inl rfl) fun _ => how rfl
  | disown =>
    exact h.move hs ⟨hc, rfl⟩ (fun _ => .inl rfl) (.inl rfl) (fun _ => hlk rfl) (.inr rfl) (by simp [Pc.owning])

theorem call (h : Locked s) (hr : s.call t c = some w) : Locked w := by
  obtain ⟨hw, -, htop⟩ := call_eq hr
  have hmem : ∀ {u : ℕ} {f : Call κ}, f ∈ w.calls u ↔ (u = t ∧ f = ⟨c, .enter⟩) ∨ f ∈ s.calls u :=
    Inv.mem_called hw
  have hrest : w.locked = s.locked ∧ w.owner = s.owner := by
    rw [hw]
    exact ⟨rfl, rfl⟩
  have hcalls : w.calls = Function.update s.calls t (⟨c, .enter⟩ :: s.calls t) := by
    rw [hw]
    rfl
  refine ⟨fun u f hf hfh => ?_, fun u v f hf g hg hfh hgh => ?_, fun u g m hu hgh => ?_, fun u => ?_,
    fun u f hf hfo => ?_⟩
  · rw [hrest.1]
    rcases hmem.mp hf with ⟨-, rfl⟩ | hf
    · simp [Pc.holding] at hfh
    · exact h.holds u f hf hfh
  · rcases hmem.mp hf with ⟨-, rfl⟩ | hf
    · simp [Pc.holding] at hfh
    · rcases hmem.mp hg with ⟨-, rfl⟩ | hg
      · simp [Pc.holding] at hgh
      · exact h.sole u v f hf g hg hfh hgh
  · rw [hcalls] at hu
    by_cases hut : u = t
    · subst hut
      rw [Function.update_self] at hu
      obtain ⟨rfl, -⟩ := List.cons.inj hu
      simp [Pc.holding] at hgh
    · rw [Function.update_of_ne hut] at hu
      exact h.last u g m hu hgh
  · rw [hcalls]
    by_cases hut : u = t
    · subst hut
      rw [Function.update_self, List.length_cons]
      cases hl : s.calls u with
      | nil => simp
      | cons g l =>
        rw [h.last u g l hl (by simp [htop g l hl, Pc.holding])]
        simp
    · rw [Function.update_of_ne hut]
      exact h.short u
  · rw [hrest.2]
    rcases hmem.mp hf with ⟨-, rfl⟩ | hf
    · simp [Pc.owning] at hfo
    · exact h.owner u f hf hfo

omit [DecidableEq κ] in
/-- A free lock is nobody's. -/
theorem alone (h : Locked s) {e : Event κ} (hok : Flat s e) : Alone s e := by
  cases e with
  | call t c r => exact hok
  | run t =>
    intro c l hc hl u hu g hg
    by_contra hgi
    rw [h.holds u g hg (Pc.holding_of_inside (by simpa using hgi))] at hl
    cases hl

end Locked

/-- Only a call that an initialiser made can give the lock away: where none goes on without the lock,
    nobody finds another thread inside. -/
theorem flat_alone (h : Reach Once.step Flat Once.start s) : Reach Once.step Alone Once.start s := by
  have hall : (Stacks s ∧ Locked s) ∧ Reach Once.step Alone Once.start s := by
    induction h with
    | start => exact ⟨⟨Inv.start.toStacks, .start⟩, .start⟩
    | @next s w e _ hok hst ih =>
      obtain ⟨⟨hs, hl⟩, hr⟩ := ih
      refine ⟨?_, .next hr (hl.alone hok) hst⟩
      cases e with
      | call t c r =>
        cases c with
        | none => cases hst; exact ⟨hs, hl⟩
        | some c =>
          cases r with
          | false => cases hst; exact ⟨hs, hl⟩
          | true =>
            obtain ⟨hw, hnew, htop⟩ := call_eq hst
            exact ⟨hs.call hok (by rw [hw]; rfl) hnew htop, hl.call hst⟩
      | run t =>
        obtain ⟨c, pc, l, hc, ht⟩ := run_turn hst
        exact ⟨hs.turn hc ht, hl.turn hs hok hc ht⟩
  exact hall.2

/-! ### Twice -/

/-- Thread `t` goes on for `n` steps. -/
def goes (t n : ℕ) : List (Event ℕ) := List.replicate n (.run t)

/-- Thread 1 is in the initialiser of control 0 and calls for control 1; the end of that call gives the
    lock up, and thread 2 starts the initialiser of control 0 again. -/
def nested : List (Event ℕ) :=
  .call 1 (some 0) true :: goes 1 5 ++ .call 1 (some 1) true :: goes 1 9 ++ .call 2 (some 0) true :: goes 2 5

theorem started_twice : ∃ s, Reach Once.step Free (Once.start (κ := ℕ)) s ∧ s.starts 0 = 2 ∧ ¬s.Sound := by
  have hrun : (Schemes.runOps Once.step Once.start nested).map (fun s => s.starts 0) = some 2 := by decide +kernel
  obtain ⟨s, hs, h2⟩ := Option.map_eq_some_iff.mp hrun
  refine ⟨s, Schemes.reach_of_runOps hs, h2, fun hsound => ?_⟩
  have hone := hsound.once 0
  omega

/-- Thread 2 waits at the lock for the initialiser that thread 1 is in. -/
def queued : List (Event ℕ) :=
  .call 1 (some 0) true :: goes 1 5 ++ .call 2 (some 0) true :: goes 2 3 ++ goes 1 5 ++ goes 2 6

/-- `Flat`, for an evaluation. -/
def flatly (s : Once ℕ) : Event ℕ → Bool
  | .call t _ _ => t ≠ 0
  | .run t =>
    match s.calls t with
    | ⟨_, .lock⟩ :: _ => s.owner ≠ t
    | _ => true

theorem flat_of_flatly {s : Once ℕ} {e : Event ℕ} (h : flatly s e = true) : Flat s e := by
  cases e with
  | call t c r => simpa [flatly, Flat] using h
  | run t =>
    intro c l hc
    simpa [flatly, hc] using h

theorem once_each_queued : ∃ s, Reach Once.step Alone (Once.start (κ := ℕ)) s ∧ s.starts 0 = 1 ∧ s.zeros 0 = 2 ∧
    s.Sound := by
  have hrun : (Schemes.runIf Once.step flatly Once.start queued).map (fun s => (s.starts 0, s.zeros 0)) = some (1, 2) := by
    decide +kernel
  obtain ⟨s, hs, hz⟩ := Option.map_eq_some_iff.mp hrun
  have hr := flat_alone (Schemes.reach_of_runIf hs fun _ _ => flat_of_flatly)
  obtain ⟨h1, h2⟩ := Prod.mk.inj hz
  exact ⟨s, hr, h1, h2, once_each hr⟩

end EwokOS.Libc.OnceLock
