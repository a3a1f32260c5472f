import EwokOS.Libc.Cond
import EwokOS.Schemes.Crowd

/-! Barriers (`libewoksys/src/pthread/pthread_barrier.c`).

    A round is over when `threshold` threads have arrived; the last one counts `gen` up and broadcasts,
    and the others wait on the condition variable for as long as `gen` is what they saw.

        out ─▶ lock ─▶ arrive ─┬─ last one ──▶ last ──▶ unlock ─▶ out (serial)
                               └─▶ loop ⇄ wait    loop ─▶ unlock ─▶ out

    The condition variable is that of `Libc.Cond`, step by step; while a thread is in there, `lock` is
    given up and taken again where `cond_wait_internal` does it. -/

namespace EwokOS.Libc.Bar

open Schemes (Reach Free Crowd update_cases)
open Condvar (Cond Finds)

variable {τ : Type} [DecidableEq τ]

/-- Where a thread is; `gen` is what it saw. -/
inductive Pc where
  | out
  | lock
  /-- With the lock, before the look at `gen` and `arrived`. -/
  | arrive
  /-- At the head of the `while`. -/
  | loop (gen : BitVec 32)
  /-- In `pthread_cond_wait`. -/
  | wait (gen : BitVec 32)
  /-- In `pthread_cond_broadcast`. -/
  | last
  | unlock (serial : Bool)
  deriving DecidableEq, Repr

/-- `pthread_barrier_t`, and where the threads are; `owner` has `lock`. The rest is ghost: the rounds that
    are over, how often each thread called and returned, and who returned from which of its calls as the
    serial one. -/
structure Barrier (τ : Type) where
  cond : Cond τ
  threshold : ℕ
  gen : BitVec 32
  arrived : ℕ
  owner : Option τ
  pc : τ → Pc
  round : ℕ
  calls : τ → ℕ
  returns : τ → ℕ
  serials : List (τ × ℕ)

/-- `pthread_barrier_init`. -/
def init (count : ℕ) : Option (Barrier τ) :=
  if count = 0 then none
  else some ⟨.start, count, 0, 0, none, fun _ => .out, 0, fun _ => 0, fun _ => 0, []⟩

inductive Event (τ : Type) where
  | start (t : τ)
  | run (t : τ) (f : Finds τ)
  | wake (t : τ)

namespace Barrier
variable (s : Barrier τ) (t : τ)

def goto (pc : Pc) : Barrier τ := { s with pc := Function.update s.pc t pc }

/-- What a step in the condition variable finds: `lock` can be unlocked when anybody has it. -/
def finds (f : Finds τ) : Finds τ :=
  match s.cond.pc t with
  | .unlock _ => { f with ok := s.owner.isSome }
  | _ => f

/-- A step in `pthread_cond_wait`. -/
def inWait (f : Finds τ) : Option (Barrier τ) :=
  match s.cond.pc t with
  | .unlock _ => (s.cond.run t (s.finds t f)).map fun c => { s with cond := c, owner := none }
  | .relock _ =>
    if f.ok then
      if s.owner = none then (s.cond.run t f).map fun c => { s with cond := c, owner := some t } else none
    else (s.cond.run t f).map fun c => { s with cond := c }
  | _ => (s.cond.run t f).map fun c => { s with cond := c }

/-- The next step of a thread. -/
def run (f : Finds τ) : Option (Barrier τ) :=
  match s.pc t with
  | .out => none
  | .lock =>
    if f.ok then if s.owner = none then some ({ s with owner := some t }.goto t .arrive) else none
    else some (s.goto t .arrive)
  | .arrive =>
    if s.threshold ≤ s.arrived + 1 then
      (s.cond.step (.start t .broadcast)).map fun c =>
        { s with cond := c, arrived := 0, gen := s.gen + 1, round := s.round + 1 }.goto t .last
    else some ({ s with arrived := s.arrived + 1 }.goto t (.loop s.gen))
  | .loop gen =>
    if s.gen = gen then (s.cond.step (.start t .wait)).map fun c => { s with cond := c }.goto t (.wait gen)
    else some (s.goto t (.unlock false))
  | .wait gen =>
    match s.cond.pc t with
    | .out _ => some (s.goto t (.loop gen))
    | _ => s.inWait t f
  | .last =>
    match s.cond.pc t with
    | .out _ => some (s.goto t (.unlock true))
    | _ => (s.cond.run t f).map fun c => { s with cond := c }
  | .unlock serial =>
    some ({ s with owner := none, returns := Function.update s.returns t (s.returns t + 1),
                   serials := if serial then (t, s.calls t) :: s.serials else s.serials }.goto t .out)

def step : Event τ → Option (Barrier τ)
  | .start t =>
    if s.pc t = .out then some ({ s with calls := Function.update s.calls t (s.calls t + 1) }.goto t .lock) else none
  | .run t f => s.run t f
  | .wake t => (s.cond.step (.wake t)).map fun c => { s with cond := c }

/-- Whether a call of `pthread_mutex_lock` for `lock` works. -/
def works (f : Finds τ) : Bool :=
  match s.pc t, s.cond.pc t with
  | .lock, _ | .wait _, .relock _ => f.ok
  | _, _ => true

/-- The calls work, and the steps in the condition variable are careful ones: a thread that takes a free
    permit registered before one of the free ones was posted. -/
def Careful : Event τ → Prop
  | .run t f => s.works t f = true ∧ s.cond.Careful (.run t (s.finds t f))
  | _ => True

/-- All are parked in the wait, and there is no permit for anybody. -/
def Stuck : Prop := (∀ t, ∃ timed, s.cond.pc t = .parked timed) ∧ s.cond.sem.permits = 0

end Barrier

/-! ### The invariant -/

/-- Arrived in the round that counts as `gen`. -/
def Pc.inRound (gen : BitVec 32) : Pc → Bool
  | .loop g | .wait g => g = gen
  | .out | .lock | .arrive | .last | .unlock _ => false

/-- In a call whose round is not over. -/
def Pc.early (gen : BitVec 32) : Pc → Bool
  | .lock | .arrive => true
  | .loop g | .wait g => g = gen
  | .out | .last | .unlock _ => false

/-- In a call whose round is over. -/
def Pc.late (gen : BitVec 32) : Pc → Bool
  | .loop g | .wait g => g ≠ gen
  | .last | .unlock _ => true
  | .out | .lock | .arrive => false

/-- What a thread saw is the round that runs or the one before. -/
def Pc.near (gen : BitVec 32) : Pc → Bool
  | .loop g | .wait g => g = gen ∨ g + 1 = gen
  | .out | .lock | .arrive | .last | .unlock _ => true

/-- About to return as the serial one. -/
def Pc.serial : Pc → Bool
  | .last => true
  | .unlock serial => serial
  | .out | .lock | .arrive | .loop _ | .wait _ => false

/-- In `pthread_cond_wait` with the mutex. -/
def withMutex : Condvar.Pc → Bool
  | .arrive _ | .unlock _ | .out _ => true
  | _ => false

def waitPlace : Condvar.Pc → Bool
  | .call _ | .posting _ _ | .undo => false
  | _ => true

def broadcastPlace : Condvar.Pc → Bool
  | .call bc | .posting bc _ => bc
  | .out _ => true
  | _ => false

def outPlace : Condvar.Pc → Bool
  | .out _ => true
  | _ => false

theorem outPlace_out {c : Condvar.Pc} (h : outPlace c = true) : ∃ res, c = .out res := by
  cases c <;> simp [outPlace] at h ⊢

/-- With `lock`; the second place is that in the condition variable. -/
def Pc.holds (p : Pc) (c : Condvar.Pc) : Bool :=
  match p with
  | .out | .lock => false
  | .wait _ => withMutex c
  | .arrive | .loop _ | .last | .unlock _ => true

/-- Where in the condition variable a thread can be. -/
def Pc.fits (p : Pc) (c : Condvar.Pc) : Bool :=
  match p with
  | .wait _ => waitPlace c
  | .last => broadcastPlace c
  | .out | .lock | .arrive | .loop _ | .unlock _ => outPlace c

variable [Fintype τ]

structure Inv (s : Barrier τ) : Prop where
  reach : Reach Cond.step Cond.Careful Cond.start s.cond
  everybody : s.threshold = Fintype.card τ
  room : s.arrived < s.threshold
  arrived : Crowd (Pc.inRound s.gen) s.pc s.arrived
  near : ∀ t, (s.pc t).near s.gen = true
  fits : ∀ t, (s.pc t).fits (s.cond.pc t) = true
  owner : ∀ t, s.owner = some t ↔ (s.pc t).holds (s.cond.pc t) = true
  called : ∀ t, s.calls t = s.round + ((s.pc t).early s.gen).toNat
  returned : ∀ t, s.returns t + ((s.pc t).late s.gen).toNat = s.round
  serials : ∃ past pending, Crowd Pc.serial s.pc pending ∧ past + pending = s.round ∧
    s.serials.map Prod.snd = (List.range' 1 past).reverse
  fresh : ∀ t g, s.pc t = .wait g → (s.pc t).holds (s.cond.pc t) = true → (∀ res, s.cond.pc t ≠ .out res) → g = s.gen
  old : ∀ t g, s.pc t = .wait g → g ≠ s.gen → (s.cond.pc t).waits = true →
    s.cond.reg t ≤ s.cond.lastBc ∨ ∃ v, s.pc v = .last ∧ ∀ res, s.cond.pc v ≠ .out res

/-- What a step of `t` leaves of the condition variable. -/
structure Moved (a c : Cond τ) (t : τ) : Prop where
  reach : Reach Cond.step Cond.Careful Cond.start c
  pc : ∀ v, v ≠ t → c.pc v = a.pc v
  reg : ∀ v, c.reg v = a.reg v ∨ (v = t ∧ ∃ timed, a.pc t = .arrive timed)
  last : a.lastBc ≤ c.lastBc

omit [Fintype τ] in
theorem Moved.refl {a : Cond τ} {t : τ} (h : Reach Cond.step Cond.Careful Cond.start a) : Moved a a t :=
  ⟨h, fun _ _ => rfl, fun _ => Or.inl rfl, Nat.le_refl _⟩

omit [Fintype τ] in
theorem Moved.run {a c : Cond τ} {t : τ} {f : Finds τ} (h : Reach Cond.step Cond.Careful Cond.start a)
    (hok : a.Careful (.run t f)) (hst : a.run t f = some c) : Moved a c t := by
  have ha := Condvar.Alone.run hst
  refine ⟨.next h hok hst, ha.pc, ha.reg, ?_⟩
  rcases ha.last with hl | ⟨-, hl, -⟩
  · exact Nat.le_of_eq hl.symm
  · rw [hl]
    exact (Condvar.Inv.reach h).past

omit [Fintype τ] in
/-- A call is begun, or a parked thread woken. -/
theorem Moved.goto {a : Cond τ} {t : τ} {b : Condvar.Pc} {e : Condvar.Event τ} (h : Reach Cond.step Cond.Careful Cond.start a)
    (hok : a.Careful e) (hst : a.step e = some (a.goto t b)) : Moved a (a.goto t b) t :=
  ⟨.next h hok hst, fun v hv => by simp [Cond.goto, hv], fun _ => Or.inl rfl, Nat.le_refl _⟩

namespace Inv
variable {s u : Barrier τ} {t : τ} {c : Cond τ} {o : Option τ} {b : Pc}

/-- A thread goes on in its call. -/
theorem turn {p : Pc} (h : Inv s) (hp : s.pc t = p) (hm : Moved s.cond c t) (hnear : b.near s.gen = true)
    (hfits : b.fits (c.pc t) = true) (howner : ∀ v, v ≠ t → (o = some v ↔ s.owner = some v))
    (hself : o = some t ↔ b.holds (c.pc t) = true)
    (hfresh : ∀ g, b = .wait g → b.holds (c.pc t) = true → (∀ res, c.pc t ≠ .out res) → g = s.gen := by simp)
    (hold : ∀ g, b = .wait g → g ≠ s.gen → (c.pc t).waits = true →
      p = .wait g ∧ (s.cond.pc t).waits = true ∧ ∀ timed, s.cond.pc t ≠ .arrive timed := by simp)
    (hlast : p = .last → (∀ res, s.cond.pc t ≠ .out res) →
      (b = .last ∧ ∀ res, c.pc t ≠ .out res) ∨ ∀ v, c.reg v ≤ c.lastBc := by simp)
    (hin : b.inRound s.gen = p.inRound s.gen := by rfl) (hearly : b.early s.gen = p.early s.gen := by rfl)
    (hlate : b.late s.gen = p.late s.gen := by rfl) (hserial : b.serial = p.serial := by rfl) :
    Inv ({ s with cond := c, owner := o }.goto t b) := by
  subst hp
  have hpc : ∀ {P : Pc → Condvar.Pc → Prop} (v : τ), (v = t → P b (c.pc t)) → (v ≠ t → P (s.pc v) (s.cond.pc v)) →
      P (Function.update s.pc t b v) (c.pc v) := by
    intro P v h1 h2
    by_cases hv : v = t
    · subst hv
      simpa using h1 rfl
    · simpa [hv, hm.pc v hv] using h2 hv
  refine ⟨hm.reach, h.everybody, h.room, h.arrived.stay hin, fun v => ?_, fun v => ?_, fun v => ?_, fun v => ?_, fun v => ?_,
    ?_, fun v g => ?_, fun v g => ?_⟩
  · exact hpc (P := fun p _ => p.near s.gen = true) v (fun _ => hnear) (fun _ => h.near v)
  · exact hpc (P := fun p c => p.fits c = true) v (fun _ => hfits) (fun _ => h.fits v)
  · refine hpc (P := fun p c => o = some v ↔ p.holds c = true) v (fun hv => hv ▸ hself) (fun hv => ?_)
    exact (howner v hv).trans (h.owner v)
  · refine hpc (P := fun p _ => s.calls v = s.round + (p.early s.gen).toNat) v (fun hv => ?_) (fun _ => h.called v)
    rw [hearly, hv]
    exact h.called t
  · refine hpc (P := fun p _ => s.returns v + (p.late s.gen).toNat = s.round) v (fun hv => ?_) (fun _ => h.returned v)
    rw [hlate, hv]
    exact h.returned t
  · obtain ⟨past, pending, hcrowd, hrest⟩ := h.serials
    exact ⟨past, pending, hcrowd.stay hserial, hrest⟩
  · exact hpc (P := fun p c => p = .wait g → p.holds c = true → (∀ res, c ≠ .out res) → g = s.gen) v (fun _ => hfresh g)
      (fun _ => h.fresh v g)
  · intro hp hg hw
    change c.reg v ≤ c.lastBc ∨ ∃ w, Function.update s.pc t b w = .last ∧ ∀ res, c.pc w ≠ .out res
    -- what was known of `v` before
    have hbefore : s.pc v = .wait g ∧ (s.cond.pc v).waits = true ∧ c.reg v = s.cond.reg v := by
      by_cases hv : v = t
      · subst hv
        obtain ⟨h1, h2, h3⟩ := hold g (by simpa [Barrier.goto] using hp) hg hw
        exact ⟨h1, h2, (hm.reg v).resolve_right fun ⟨_, timed, ha⟩ => h3 timed ha⟩
      · exact ⟨by simpa [Barrier.goto, hv] using hp, by rwa [← hm.pc v hv], (hm.reg v).resolve_right fun ⟨he, _⟩ => hv he⟩
    rcases h.old v g hbefore.1 hg hbefore.2.1 with hle | ⟨w, hlw, hbc⟩
    · left
      rw [hbefore.2.2]
      exact Nat.le_trans hle hm.last
    · by_cases hwt : w = t
      · subst hwt
        rcases hlast hlw hbc with ⟨hb, hc⟩ | hall
        · exact Or.inr ⟨w, by simp [hb], hc⟩
        · exact Or.inl (hall v)
      · exact Or.inr ⟨w, by simp [hwt, hlw], fun res => by rw [hm.pc w hwt]; exact hbc res⟩

/-- A thread goes on inside the condition variable. -/
theorem inside (h : Inv s) (hm : Moved s.cond c t) (hfits : (s.pc t).fits (c.pc t) = true)
    (howner : ∀ v, v ≠ t → (o = some v ↔ s.owner = some v)) (hself : o = some t ↔ (s.pc t).holds (c.pc t) = true)
    (hfresh : ∀ g, s.pc t = .wait g → (s.pc t).holds (c.pc t) = true → (∀ res, c.pc t ≠ .out res) → g = s.gen)
    (hold : ∀ g, s.pc t = .wait g → g ≠ s.gen → (c.pc t).waits = true →
      (s.cond.pc t).waits = true ∧ ∀ timed, s.cond.pc t ≠ .arrive timed)
    (hlast : s.pc t = .last → (∀ res, s.cond.pc t ≠ .out res) → (∀ res, c.pc t ≠ .out res) ∨ ∀ v, c.reg v ≤ c.lastBc) :
    Inv { s with cond := c, owner := o } := by
  have := h.turn (b := s.pc t) rfl hm (h.near t) hfits howner hself hfresh
    (fun g hp hg hw => ⟨hp, hold g hp hg hw⟩) (fun hl ho => (hlast hl ho).imp_left fun hc => ⟨hl, hc⟩)
  simpa [Barrier.goto] using this

/-- A step in `pthread_cond_wait`. -/
theorem inWait {g : BitVec 32} {f : Finds τ} (h : Inv s) (hp : s.pc t = .wait g) (hout : ∀ res, s.cond.pc t ≠ .out res)
    (hw : s.works t f = true) (hc : s.cond.Careful (.run t (s.finds t f))) (hst : s.inWait t f = some u) : Inv u := by
  have hfit : waitPlace (s.cond.pc t) = true := by simpa [hp, Pc.fits] using h.fits t
  have hown : s.owner = some t ↔ withMutex (s.cond.pc t) = true := by simpa [hp, Pc.holds] using h.owner t
  have hworks : s.cond.works t (s.finds t f) = true := And.left hc
  -- the step of the condition variable, and where it leads
  have hgo : ∀ {c}, s.cond.run t (s.finds t f) = some c → Moved s.cond c t ∧ (s.cond.pc t).Next (c.pc t) := fun hst =>
    ⟨Moved.run h.reach hc hst, Condvar.next_run hst hworks⟩
  have hnolast : s.pc t ≠ .last := by simp [hp]
  have hwait : ∀ {g'}, s.pc t = .wait g' → g' = g := fun hp' => by simpa [hp] using hp'.symm
  have hgen : ∀ timed, s.cond.pc t = .arrive timed ∨ s.cond.pc t = .unlock timed → g = s.gen := by
    intro timed hcp
    refine h.fresh t g hp ?_ hout
    rcases hcp with hcp | hcp <;> simp [hp, hcp, Pc.holds, withMutex]
  have hmid : ∀ {c}, Moved s.cond c t → waitPlace (c.pc t) = true → withMutex (c.pc t) = withMutex (s.cond.pc t) →
      (∀ timed, c.pc t = .arrive timed ∨ c.pc t = .unlock timed → g = s.gen) →
      (g ≠ s.gen → (c.pc t).waits = true → (s.cond.pc t).waits = true ∧ ∀ timed, s.cond.pc t ≠ .arrive timed) →
      Inv { s with cond := c } := by
    intro c hm hw hsame hgen hold
    refine h.inside hm (by simpa [hp, Pc.fits] using hw) (fun _ _ => Iff.rfl) ?_ ?_ ?_ (fun hl => absurd hl hnolast)
    · simpa [hp, Pc.holds, hsame] using hown
    · intro g' hg' hh hout'
      rw [hwait hg']
      cases hcp : c.pc t <;> simp [hp, hcp, Pc.holds, withMutex] at hh hout'
      · exact hgen _ (Or.inl hcp)
      · exact hgen _ (Or.inr hcp)
    · intro g' hg' hne
      rw [hwait hg'] at hne
      exact hold hne
  -- on the way from one end of the mutex to the other
  have haway : (s.cond.pc t).away = true → (∀ {c}, (s.cond.pc t).Next (c) → c.away = true ∨ ∃ res, c = .relock res) →
      ((s.cond.run t (s.finds t f)).map fun c => { s with cond := c }) = some u → Inv u := by
    intro haway hnext hst
    obtain ⟨c, hrun, rfl⟩ := Option.map_eq_some_iff.mp hst
    obtain ⟨hm, hn⟩ := hgo hrun
    have hto := hnext hn
    refine hmid hm ?_ ?_ ?_ ?_
    · rcases hto with hc' | ⟨res, hc'⟩
      · cases hcp : c.pc t <;> simp [hcp, Condvar.Pc.away, waitPlace] at hc' ⊢
      · simp [hc', waitPlace]
    · rcases hto with hc' | ⟨res, hc'⟩
      · cases hcp : c.pc t <;> cases hcp' : s.cond.pc t <;> simp [hcp, hcp', Condvar.Pc.away, withMutex] at haway hc' ⊢
      · cases hcp' : s.cond.pc t <;> simp [hc', hcp', Condvar.Pc.away, withMutex] at haway ⊢
    · intro timed hcp
      rcases hcp with hcp | hcp <;> simp [hcp, Condvar.Pc.away] at hto
    · intro _ _
      cases hcp : s.cond.pc t <;> simp [hcp, Condvar.Pc.away, Condvar.Pc.waits] at haway ⊢
  cases hcp : s.cond.pc t with
  | out res => exact absurd hcp (hout res)
  | undo => simp [hcp, waitPlace] at hfit
  | call bc => simp [hcp, waitPlace] at hfit
  | posting bc left => simp [hcp, waitPlace] at hfit
  | parked timed => simp [Barrier.inWait, hcp, Cond.run] at hst
  | arrive timed =>
    simp only [Barrier.inWait, hcp] at hst
    obtain ⟨c, hrun, rfl⟩ := Option.map_eq_some_iff.mp hst
    obtain ⟨hm, hnext⟩ := hgo (by simpa [Barrier.finds, hcp] using hrun)
    simp only [hcp, Condvar.Pc.Next] at hnext
    exact hmid hm (by simp [hnext, waitPlace]) (by simp [hnext, hcp, withMutex]) (fun _ _ => hgen timed (Or.inl hcp))
      fun hne => absurd (hgen timed (Or.inl hcp)) hne
  | unlock timed =>
    simp only [Barrier.inWait, hcp] at hst
    obtain ⟨c, hrun, rfl⟩ := Option.map_eq_some_iff.mp hst
    obtain ⟨hm, hnext⟩ := hgo hrun
    simp only [hcp, Condvar.Pc.Next] at hnext
    have hme : s.owner = some t := hown.mpr (by simp [hcp, withMutex])
    have hfree : withMutex (c.pc t) = false := by
      cases hc' : c.pc t <;> simp [hc', Condvar.Pc.away, withMutex] at hnext ⊢
    refine h.inside hm ?_ (fun v hv => ?_) ?_ ?_ ?_ (fun hl => absurd hl hnolast)
    · cases hc' : c.pc t <;> simp [hp, hc', Pc.fits, Condvar.Pc.away, waitPlace] at hnext ⊢
    · simp [hme, Ne.symm hv]
    · simp [hp, Pc.holds, hfree]
    · intro g' _ hh
      simp [hp, Pc.holds, hfree] at hh
    · intro g' hg' hne
      rw [hwait hg'] at hne
      exact absurd (hgen timed (Or.inr hcp)) hne
  | check =>
    refine haway (by simp [hcp, Condvar.Pc.away]) (fun hn => by simpa [hcp, Condvar.Pc.Next] using hn) ?_
    simpa [Barrier.inWait, Barrier.finds, hcp] using hst
  | enter timed =>
    refine haway (by simp [hcp, Condvar.Pc.away]) (fun hn => by simpa [hcp, Condvar.Pc.Next] using hn) ?_
    simpa [Barrier.inWait, Barrier.finds, hcp] using hst
  | settle =>
    refine haway (by simp [hcp, Condvar.Pc.away]) (fun hn => by simpa [hcp, Condvar.Pc.Next] using hn) ?_
    simpa [Barrier.inWait, Barrier.finds, hcp] using hst
  | giveUp =>
    refine haway (by simp [hcp, Condvar.Pc.away]) (fun hn => by simpa [hcp, Condvar.Pc.Next] using hn) ?_
    simpa [Barrier.inWait, Barrier.finds, hcp] using hst
  | relock res =>
    have hok : f.ok = true := by simpa [Barrier.works, hp, hcp] using hw
    simp only [Barrier.inWait, hcp, hok, if_true, Option.ite_none_right_eq_some] at hst
    obtain ⟨hnone, hst⟩ := hst
    obtain ⟨c, hrun, rfl⟩ := Option.map_eq_some_iff.mp hst
    obtain ⟨hm, hnext⟩ := hgo (by simpa [Barrier.finds, hcp] using hrun)
    simp only [hcp, Condvar.Pc.Next] at hnext
    refine h.inside hm ?_ (fun v hv => ?_) ?_ ?_ ?_ (fun hl => absurd hl hnolast)
    · simp [hp, hnext, Pc.fits, waitPlace]
    · simp [hnone, Ne.symm hv]
    · simp [hp, hnext, Pc.holds, withMutex]
    · intro g' _ _ hout'
      exact absurd hnext (hout' res)
    · intro g' _ _ hw'
      simp [hnext, Condvar.Pc.waits] at hw'

/-- A step in `pthread_cond_broadcast`. -/
theorem inLast {f : Finds τ} (h : Inv s) (hp : s.pc t = .last) (hout : ∀ res, s.cond.pc t ≠ .out res)
    (hc : s.cond.Careful (.run t (s.finds t f))) (hrun : s.cond.run t (s.finds t f) = some c) :
    Inv { s with cond := c } := by
  have hfit : broadcastPlace (s.cond.pc t) = true := by simpa [hp, Pc.fits] using h.fits t
  have hm : Moved s.cond c t := Moved.run h.reach hc hrun
  have hnext := Condvar.next_run hrun (And.left hc)
  have hnowait : ∀ {g}, s.pc t ≠ .wait g := by simp [hp]
  have hme : s.owner = some t := (h.owner t).mpr (by simp [hp, Pc.holds])
  refine h.inside hm ?_ (fun _ _ => Iff.rfl) (by simp [hme, hp, Pc.holds]) (fun g hg => absurd hg hnowait)
    (fun g hg => absurd hg hnowait) (fun _ _ => ?_)
  · cases hcp : s.cond.pc t with
    | call bc =>
      simp only [hcp, Condvar.Pc.Next, broadcastPlace] at hnext hfit
      obtain ⟨left, hnext⟩ := hnext
      simp [hp, Pc.fits, hnext, broadcastPlace, hfit]
    | posting bc left =>
      simp only [hcp, broadcastPlace] at hnext hfit
      cases left with
      | zero => simp [hp, Pc.fits, show c.pc t = .out .zero from hnext, broadcastPlace]
      | succ left => simp [hp, Pc.fits, show c.pc t = .posting bc left from hnext, broadcastPlace, hfit]
    | out res => exact absurd hcp (hout res)
    | _ => simp [hcp, broadcastPlace] at hfit
  · -- with the last step of the broadcast everybody in a wait has registered before
    by_cases hzero : s.cond.pc t = .posting true 0
    · right
      intro v
      simp only [Cond.run, hzero, Option.some.injEq] at hrun
      rw [← hrun]
      exact (Condvar.Inv.reach h.reach).known v
    · left
      intro res hres
      cases hcp : s.cond.pc t with
      | call bc =>
        simp only [hcp, Condvar.Pc.Next] at hnext
        obtain ⟨left, hnext⟩ := hnext
        simp [hnext] at hres
      | posting bc left =>
        simp only [hcp, broadcastPlace] at hnext hfit hzero
        cases left with
        | zero => simp [hfit] at hzero
        | succ left => simp [show c.pc t = .posting bc left from hnext] at hres
      | out res => exact absurd hcp (hout res)
      | _ => simp [hcp, broadcastPlace] at hfit

/-- A call of the condition variable begins. -/
theorem starts {op : Condvar.Op} {b : Condvar.Pc} (h : Inv s) (hp : outPlace (s.cond.pc t) = true)
    (hb : ∀ res, s.cond.pc t = .out res → s.cond.step (.start t op) = some (s.cond.goto t b))
    (hst : s.cond.step (.start t op) = some c) : Moved s.cond c t ∧ c.pc t = b := by
  obtain ⟨res, hres⟩ := outPlace_out hp
  have hc := hb res hres
  cases hst.symm.trans hc
  exact ⟨Moved.goto (e := .start t op) h.reach trivial hc, by simp [Cond.goto]⟩

/-- A thread that is not in a broadcast goes where nobody waits; whoever is left over is woken as before. -/
theorem old_goto (h : Inv s) (hp : s.pc t ≠ .last) (hb : ∀ g, b ≠ .wait g) (v : τ) (g : BitVec 32)
    (hw : Function.update s.pc t b v = .wait g) (hg : g ≠ s.gen) (hs : (s.cond.pc v).waits = true) :
    s.cond.reg v ≤ s.cond.lastBc ∨ ∃ w, Function.update s.pc t b w = .last ∧ ∀ res, s.cond.pc w ≠ .out res := by
  have hv : s.pc v = .wait g :=
    update_cases (P := fun p : Pc => p = .wait g → s.pc v = .wait g) v (fun _ he => absurd he (hb g)) (fun _ => id) hw
  rcases h.old v g hv hg hs with hle | ⟨w, hw', hbc⟩
  · exact Or.inl hle
  · have hwt : w ≠ t := by
      rintro rfl
      exact hp hw'
    exact Or.inr ⟨w, by rw [Function.update_of_ne hwt, hw'], hbc⟩

/-- Not the last one. -/
theorem arrives (h : Inv s) (hp : s.pc t = .arrive) (hroom : s.arrived + 1 < s.threshold) :
    Inv ({ s with arrived := s.arrived + 1 }.goto t (.loop s.gen)) := by
  have hlocked := h.owner t
  have hcalled := h.called t
  have hreturned := h.returned t
  have hfits := h.fits t
  simp only [hp, Pc.early, Pc.late, Pc.holds, Pc.fits] at hlocked hcalled hreturned hfits
  refine ⟨h.reach, h.everybody, hroom, h.arrived.join (by simp [hp, Pc.inRound]) (by simp [Pc.inRound]), fun v => ?_, fun v => ?_,
    fun v => ?_, fun v => ?_, fun v => ?_, ?_, fun v g => ?_, fun v g => ?_⟩
  · exact update_cases (P := fun p : Pc => p.near s.gen = true) v (fun _ => by simp [Pc.near]) (fun _ => h.near v)
  · exact update_cases (P := fun p : Pc => p.fits (s.cond.pc v) = true) v (fun hv => by rw [hv]; exact hfits) (fun _ => h.fits v)
  · exact update_cases (P := fun p : Pc => s.owner = some v ↔ p.holds (s.cond.pc v) = true) v
      (fun hv => by simpa [hv, Pc.holds] using hlocked) (fun _ => h.owner v)
  · refine update_cases (P := fun p : Pc => s.calls v = s.round + (p.early s.gen).toNat) v (fun hv => ?_) (fun _ => h.called v)
    rw [hv, hcalled]
    simp [Pc.early]
  · refine update_cases (P := fun p : Pc => s.returns v + (p.late s.gen).toNat = s.round) v (fun hv => ?_) (fun _ => h.returned v)
    rw [hv]
    simpa [Pc.late] using hreturned
  · obtain ⟨past, pending, hcrowd, hrest⟩ := h.serials
    exact ⟨past, pending, hcrowd.stay (by simp [hp, Pc.serial]), hrest⟩
  · exact update_cases (P := fun p : Pc => p = .wait g → p.holds (s.cond.pc v) = true → (∀ res, s.cond.pc v ≠ .out res) → g = s.gen) v
      (fun _ hw => nomatch hw) (fun _ => h.fresh v g)
  · exact h.old_goto (t := t) (b := .loop s.gen) (by simp [hp]) (fun _ hw => nomatch hw) v g

/-- The last one: the round is over, for all. -/
theorem completes (h : Inv s) (hp : s.pc t = .arrive) (hall : s.threshold ≤ s.arrived + 1)
    (hst : s.cond.step (.start t .broadcast) = some c) :
    Inv ({ s with cond := c, arrived := 0, gen := s.gen + 1, round := s.round + 1 }.goto t .last) := by
  have hlocked : s.owner = some t := (h.owner t).mpr (by simp [hp, Pc.holds])
  obtain ⟨hm, hc⟩ := h.starts (b := .call true) (by simpa [hp, Pc.fits] using h.fits t)
    (fun res hres => by simp [Cond.step, hres]) hst
  -- everybody else waits in this round, and in the condition variable, as `t` has the lock
  have hothers : ∀ v, v ≠ t → s.pc v = .wait s.gen := by
    intro v hv
    have hin := h.arrived.others (by simp [hp, Pc.inRound]) (h.everybody ▸ hall) hv
    cases hpv : s.pc v with
    | loop g =>
      have := (h.owner v).mpr (by simp [hpv, Pc.holds])
      rw [hlocked] at this
      exact absurd (Option.some.inj this).symm hv
    | wait g =>
      simp only [hpv, Pc.inRound, decide_eq_true_eq] at hin
      rw [hin]
    | _ => simp [hpv, Pc.inRound] at hin
  have hunlocked : ∀ v, v ≠ t → withMutex (s.cond.pc v) = false := by
    intro v hv
    have hno : s.owner ≠ some v := fun ho => hv (Option.some.inj (ho.symm.trans hlocked))
    simpa [h.owner v, hothers v hv, Pc.holds] using hno
  have hpc : ∀ {P : Pc → Condvar.Pc → Prop} (v : τ), (v = t → P .last (.call true)) →
      (v ≠ t → P (.wait s.gen) (s.cond.pc v)) → P (Function.update s.pc t .last v) (c.pc v) := by
    intro P v h1 h2
    by_cases hv : v = t
    · subst hv
      rw [hc]
      simpa using h1 rfl
    · rw [hm.pc v hv, Function.update_of_ne hv, hothers v hv]
      exact h2 hv
  have hpos : 0 < s.threshold := by
    have := h.room
    omega
  refine ⟨hm.reach, h.everybody, hpos, .empty fun v => ?_, fun v => ?_, fun v => ?_, fun v => ?_, fun v => ?_, fun v => ?_,
    ?_, fun v g => ?_, fun v g hv hg hw => Or.inr ⟨t, by simp [Barrier.goto], fun res => ?_⟩⟩
  · exact hpc (P := fun p _ => p.inRound (s.gen + 1) = false) v (fun _ => rfl) (fun _ => by simp [Pc.inRound])
  · exact hpc (P := fun p _ => p.near (s.gen + 1) = true) v (fun _ => rfl) (fun _ => by simp [Pc.near])
  · refine hpc (P := fun p c => p.fits c = true) v (fun _ => rfl) (fun hv => ?_)
    have := h.fits v
    rwa [hothers v hv] at this
  · refine hpc (P := fun p c => s.owner = some v ↔ p.holds c = true) v (fun hv => by simp [hv, hlocked, Pc.holds]) (fun hv => ?_)
    simp [Pc.holds, hunlocked v hv, hlocked, Ne.symm hv]
  · refine hpc (P := fun p _ => s.calls v = s.round + 1 + (p.early (s.gen + 1)).toNat) v (fun hv => ?_) (fun hv => ?_)
    · simpa [hv, hp, Pc.early] using h.called t
    · simpa [hothers v hv, Pc.early] using h.called v
  · refine hpc (P := fun p _ => s.returns v + (p.late (s.gen + 1)).toNat = s.round + 1) v (fun hv => ?_) (fun hv => ?_)
    · simpa [hv, hp, Pc.late] using h.returned t
    · simpa [hothers v hv, Pc.late] using h.returned v
  · obtain ⟨past, pending, hcrowd, hsum, hlog⟩ := h.serials
    refine ⟨past, pending + 1, hcrowd.join (by simp [hp, Pc.serial]) rfl, ?_, hlog⟩
    change past + (pending + 1) = s.round + 1
    omega
  · refine hpc (P := fun p c => p = .wait g → p.holds c = true → (∀ res, c ≠ .out res) → g = s.gen + 1) v
      (fun _ hp' => by simp at hp') (fun hv _ hh => ?_)
    simp [Pc.holds, hunlocked v hv] at hh
  · simp [Barrier.goto, hc]

/-- A thread returns. -/
theorem returns {serial : Bool} (h : Inv s) (hp : s.pc t = .unlock serial) :
    Inv ({ s with owner := none, returns := Function.update s.returns t (s.returns t + 1),
                  serials := if serial then (t, s.calls t) :: s.serials else s.serials }.goto t .out) := by
  have hlocked : s.owner = some t := (h.owner t).mpr (by simp [hp, Pc.holds])
  have hcalled : s.calls t = s.round := by simpa [hp, Pc.early] using h.called t
  have hreturned : s.returns t + 1 = s.round := by simpa [hp, Pc.late] using h.returned t
  have hfits : outPlace (s.cond.pc t) = true := by simpa [hp, Pc.fits] using h.fits t
  refine ⟨h.reach, h.everybody, h.room, h.arrived.stay (by simp [hp, Pc.inRound]), fun v => ?_, fun v => ?_, fun v => ?_,
    fun v => ?_, fun v => ?_, ?_, fun v g => ?_, fun v g => ?_⟩
  · exact update_cases (P := fun p : Pc => p.near s.gen = true) v (fun _ => rfl) (fun _ => h.near v)
  · exact update_cases (P := fun p : Pc => p.fits (s.cond.pc v) = true) v (fun hv => by rw [hv]; exact hfits) (fun _ => h.fits v)
  · refine update_cases (P := fun p : Pc => none = some v ↔ p.holds (s.cond.pc v) = true) v (fun _ => by simp [Pc.holds]) (fun hv => ?_)
    rw [← h.owner v, hlocked]
    simp [Ne.symm hv]
  · exact update_cases (P := fun p : Pc => s.calls v = s.round + (p.early s.gen).toNat) v (fun hv => by simp [hv, hcalled, Pc.early])
      (fun _ => h.called v)
  · refine update_cases (P := fun p : Pc => Function.update s.returns t (s.returns t + 1) v + (p.late s.gen).toNat = s.round) v
      (fun hv => by simp [hv, hreturned, Pc.late]) (fun hv => ?_)
    rw [Function.update_of_ne hv]
    exact h.returned v
  · obtain ⟨past, pending, hcrowd, hsum, hlog⟩ := h.serials
    cases serial with
    | false => exact ⟨past, pending, hcrowd.stay (by simp [hp, Pc.serial]), hsum, hlog⟩
    | true =>
      -- it was the only one about to
      have hone : pending = 1 := by
        refine hcrowd.single (t := t) (by simp [hp, Pc.serial]) fun v hv => ?_
        have : s.owner = some v := by
          rw [h.owner v]
          cases hpv : s.pc v <;> simp [hpv, Pc.serial, Pc.holds] at hv ⊢
        exact Option.some.inj (this.symm.trans hlocked)
      subst hone
      refine ⟨past + 1, 0, hcrowd.leave (by simp [hp, Pc.serial]) rfl, hsum, ?_⟩
      have : s.calls t = 1 + past := by omega
      simp [Barrier.goto, hlog, List.range'_concat, this]
  · exact update_cases (P := fun p : Pc => p = .wait g → p.holds (s.cond.pc v) = true → (∀ res, s.cond.pc v ≠ .out res) → g = s.gen) v
      (fun _ hw => nomatch hw) (fun _ => h.fresh v g)
  · exact h.old_goto (t := t) (b := .out) (by simp [hp]) (fun _ hw => nomatch hw) v g

/-- A thread calls. -/
theorem calls (h : Inv s) (hp : s.pc t = .out) :
    Inv ({ s with calls := Function.update s.calls t (s.calls t + 1) }.goto t .lock) := by
  have hcalled : s.calls t = s.round := by simpa [hp, Pc.early] using h.called t
  have hreturned : s.returns t = s.round := by simpa [hp, Pc.late] using h.returned t
  have hfits : outPlace (s.cond.pc t) = true := by simpa [hp, Pc.fits] using h.fits t
  have hlocked : s.owner ≠ some t := by simp [h.owner t, hp, Pc.holds]
  refine ⟨h.reach, h.everybody, h.room, h.arrived.stay (by simp [hp, Pc.inRound]), fun v => ?_, fun v => ?_, fun v => ?_,
    fun v => ?_, fun v => ?_, ?_, fun v g => ?_, fun v g => ?_⟩
  · exact update_cases (P := fun p : Pc => p.near s.gen = true) v (fun _ => rfl) (fun _ => h.near v)
  · exact update_cases (P := fun p : Pc => p.fits (s.cond.pc v) = true) v (fun hv => by rw [hv]; exact hfits) (fun _ => h.fits v)
  · exact update_cases (P := fun p : Pc => s.owner = some v ↔ p.holds (s.cond.pc v) = true) v (fun hv => by simp [hv, hlocked, Pc.holds])
      (fun _ => h.owner v)
  · refine update_cases (P := fun p : Pc => Function.update s.calls t (s.calls t + 1) v = s.round + (p.early s.gen).toNat) v
      (fun hv => by simp [hv, hcalled, Pc.early]) (fun hv => ?_)
    rw [Function.update_of_ne hv]
    exact h.called v
  · exact update_cases (P := fun p : Pc => s.returns v + (p.late s.gen).toNat = s.round) v (fun hv => by simp [hv, hreturned, Pc.late])
      (fun _ => h.returned v)
  · obtain ⟨past, pending, hcrowd, hrest⟩ := h.serials
    exact ⟨past, pending, hcrowd.stay (by simp [hp, Pc.serial]), hrest⟩
  · exact update_cases (P := fun p : Pc => p = .wait g → p.holds (s.cond.pc v) = true → (∀ res, s.cond.pc v ≠ .out res) → g = s.gen) v
      (fun _ hw => nomatch hw) (fun _ => h.fresh v g)
  · exact h.old_goto (t := t) (b := .lock) (by simp [hp]) (fun _ hw => nomatch hw) v g

theorem run {f : Finds τ} (h : Inv s) (hok : s.Careful (.run t f)) (hst : s.run t f = some u) : Inv u := by
  obtain ⟨hw, hc⟩ := hok
  have hrefl : Moved s.cond s.cond t := .refl h.reach
  have hfit := h.fits t
  cases hp : s.pc t with
  | out => simp [Barrier.run, hp] at hst
  | lock =>
    have hok : f.ok = true := by simpa [Barrier.works, hp] using hw
    simp only [Barrier.run, hp, hok, if_true, Option.ite_none_right_eq_some, Option.some.injEq] at hst
    obtain ⟨hnone, rfl⟩ := hst
    rw [hp] at hfit
    refine h.turn hp hrefl rfl hfit (fun v hv => ?_) (by simp [Pc.holds])
    simp [hnone, Ne.symm hv]
  | arrive =>
    simp only [Barrier.run, hp] at hst
    split at hst
    · rename_i hall
      obtain ⟨c, hstart, rfl⟩ := Option.map_eq_some_iff.mp hst
      exact h.completes hp hall hstart
    · cases hst
      exact h.arrives hp (by omega)
  | loop g =>
    have hlocked : s.owner = some t := (h.owner t).mpr (by simp [hp, Pc.holds])
    have hnear := h.near t
    rw [hp] at hfit hnear
    simp only [Barrier.run, hp] at hst
    split at hst
    · rename_i hgen
      obtain ⟨c, hstart, rfl⟩ := Option.map_eq_some_iff.mp hst
      obtain ⟨hm, hc'⟩ := h.starts (b := .arrive false) hfit (fun res hres => by simp [Cond.step, hres]) hstart
      refine h.turn hp hm (by simp [hgen, Pc.near]) (by simp [hc', Pc.fits, waitPlace]) (fun _ _ => Iff.rfl)
        (by simp [hlocked, hc', Pc.holds, withMutex]) ?_ ?_
      · intro g' hg' _ _
        injection hg' with hg'
        exact hg'.symm.trans hgen.symm
      · intro g' hg' hne
        injection hg' with hg'
        exact absurd (hg'.symm.trans hgen.symm) hne
    · rename_i hgen
      cases hst
      have hne : g ≠ s.gen := Ne.symm hgen
      exact h.turn hp hrefl rfl hfit (fun _ _ => Iff.rfl) (by simp [hlocked, Pc.holds]) (by simp) (by simp) (by simp)
        (by simp [Pc.inRound, hne]) (by simp [Pc.early, hne]) (by simp [Pc.late, hne])
  | wait g =>
    simp only [Barrier.run, hp] at hst
    split at hst
    · rename_i res hres
      cases hst
      have hlocked : s.owner = some t := (h.owner t).mpr (by simp [hp, hres, Pc.holds, withMutex])
      have hnear := h.near t
      rw [hp] at hnear
      exact h.turn hp hrefl hnear (by simp [hres, Pc.fits, outPlace]) (fun _ _ => Iff.rfl) (by simp [hlocked, Pc.holds])
    · rename_i hout
      exact h.inWait hp (fun res hres => hout res hres) hw hc hst
  | last =>
    simp only [Barrier.run, hp] at hst
    split at hst
    · rename_i res hres
      cases hst
      have hlocked : s.owner = some t := (h.owner t).mpr (by simp [hp, Pc.holds])
      exact h.turn hp hrefl rfl (by simp [hres, Pc.fits, outPlace]) (fun _ _ => Iff.rfl) (by simp [hlocked, Pc.holds]) (by simp)
        (by simp) (fun _ hout => absurd hres (hout res))
    · rename_i hout
      obtain ⟨c, hrun, rfl⟩ := Option.map_eq_some_iff.mp hst
      have hfinds : s.finds t f = f := by
        have hplace : broadcastPlace (s.cond.pc t) = true := by simpa [hp, Pc.fits] using hfit
        unfold Barrier.finds
        split
        · rename_i hcp
          simp [hcp, broadcastPlace] at hplace
        · rfl
      exact h.inLast hp (fun res hres => hout res hres) hc (by rwa [hfinds])
  | unlock serial =>
    simp only [Barrier.run, hp, Option.some.injEq] at hst
    subst hst
    exact h.returns hp

/-- Who is parked waits, and may be woken at any time. -/
theorem wakes (h : Inv s) (hst : s.cond.step (.wake t) = some c) : Inv { s with cond := c } := by
  cases hcp : s.cond.pc t with
  | parked timed =>
    have hc : s.cond.step (.wake t) = some (s.cond.goto t (.enter timed)) := by simp [Cond.step, hcp]
    cases hst.symm.trans hc
    have hm : Moved s.cond (s.cond.goto t (.enter timed)) t := Moved.goto (e := .wake t) h.reach trivial hc
    have hnew : (s.cond.goto t (.enter timed)).pc t = .enter timed := by simp [Cond.goto]
    obtain ⟨g, hp⟩ : ∃ g, s.pc t = .wait g := by
      have := h.fits t
      cases hp : s.pc t <;> simp [hp, hcp, Pc.fits, outPlace, broadcastPlace] at this ⊢
    refine h.inside hm (by simp [hp, hnew, Pc.fits, waitPlace]) (fun _ _ => Iff.rfl) ?_ ?_ ?_ (by simp [hp])
    · rw [h.owner t, hp, hcp, hnew]
      rfl
    · intro g' _ hh
      rw [hp, hnew] at hh
      cases hh
    · intro g' _ _ _
      simp [hcp, Condvar.Pc.waits]
  | _ => simp [Cond.step, hcp] at hst

theorem step {e : Event τ} (h : Inv s) (hok : s.Careful e) (hst : s.step e = some u) : Inv u := by
  cases e with
  | start t =>
    simp only [Barrier.step, Option.ite_none_right_eq_some, Option.some.injEq] at hst
    obtain ⟨hp, rfl⟩ := hst
    exact h.calls hp
  | run t f => exact h.run hok hst
  | wake t =>
    obtain ⟨c, hwake, rfl⟩ := Option.map_eq_some_iff.mp hst
    exact h.wakes hwake

end Inv

theorem inv_init {n : ℕ} {s : Barrier τ} (hn : n = Fintype.card τ) (hs : init n = some s) : Inv s := by
  unfold init at hs
  split at hs
  · cases hs
  rename_i hpos
  cases hs
  refine ⟨.start, hn, Nat.pos_of_ne_zero hpos, .empty fun _ => rfl, fun _ => rfl, fun _ => rfl, fun _ => ?_, fun _ => rfl,
    fun _ => rfl, ⟨0, 0, .empty fun _ => rfl, rfl, rfl⟩, fun _ _ hp => ?_, fun _ _ hp => ?_⟩
  · simp [Pc.holds]
  · cases hp
  · cases hp

/-! ### Rounds -/

/-- Nobody is back from its call number `r` before all have made theirs, one of them is told apart in each
    round, and some thread can go on. -/
structure Sound (s : Barrier τ) : Prop where
  together : ∀ t u, s.returns t ≤ s.calls u
  once : ∀ r, s.serials.countP (fun e => e.2 = r) ≤ 1
  serial : ∀ r, 1 ≤ r → (∃ t, r ≤ s.returns t) → (∀ t, r ≤ s.returns t) → s.serials.countP (fun e => e.2 = r) = 1
  awake : ¬s.Stuck

namespace Inv
variable {s : Barrier τ}

theorem calls_ge (h : Inv s) (t : τ) : s.round ≤ s.calls t := by
  have := h.called t
  omega

theorem returns_le (h : Inv s) (t : τ) : s.returns t ≤ s.round := by
  have := h.returned t
  omega

/-- Nobody in the line is of an old round; so a stuck barrier has everybody in this one, and is full. -/
theorem awake (h : Inv s) : ¬s.Stuck := by
  rintro ⟨hparked, hnone⟩
  have hcond := Condvar.Inv.reach h.reach
  have hin : ∀ t, (s.pc t).inRound s.gen = true := by
    intro t
    obtain ⟨timed, ht⟩ := hparked t
    have hgiven : s.cond.sem.given = ∅ := by
      unfold Schemes.Handoff.permits at hnone
      exact Finset.card_eq_zero.mp (by omega)
    have hline : t ∈ s.cond.sem.line := by
      have := Condvar.parked_stays (h.reach.mono fun _ _ _ => trivial) ht
      simpa [hgiven] using this
    have hserved := hcond.served hline
    obtain ⟨g, hp⟩ : ∃ g, s.pc t = .wait g := by
      have := h.fits t
      cases hp : s.pc t <;> simp [hp, ht, Pc.fits, outPlace, broadcastPlace] at this ⊢
    by_contra hout
    have hne : g ≠ s.gen := by simpa [hp, Pc.inRound] using hout
    rcases h.old t g hp hne (by simp [ht, Condvar.Pc.waits]) with hle | ⟨v, hv, -⟩
    · omega
    · obtain ⟨timed', hv'⟩ := hparked v
      have := h.fits v
      simp [hv, hv', Pc.fits, broadcastPlace] at this
  have := h.arrived.all hin
  have := h.room
  have := h.everybody
  omega

theorem sound (h : Inv s) : Sound s := by
  obtain ⟨past, pending, hcrowd, hsum, hlog⟩ := h.serials
  have hcount : ∀ r, s.serials.countP (fun e => e.2 = r) = (List.range' 1 past).count r := by
    intro r
    rw [← List.count_reverse, ← hlog, List.count_eq_countP, List.countP_map]
    rfl
  have hnodup : (List.range' 1 past).Nodup := List.nodup_range'
  refine ⟨fun t u => Nat.le_trans (h.returns_le t) (h.calls_ge u), fun r => ?_, fun r hr hex hall => ?_, h.awake⟩
  · rw [hcount]
    exact List.nodup_iff_count_le_one.mp hnodup r
  · rw [hcount]
    refine List.count_eq_one_of_mem hnodup (List.mem_range'_1.mpr ⟨hr, ?_⟩)
    obtain ⟨t, ht⟩ := hex
    have hround := h.returns_le t
    -- who is about to return as the serial one has not returned from this round
    by_contra hlt
    obtain ⟨v, hv⟩ := hcrowd.exists_of_pos (by omega)
    have hone : pending = 1 := by
      refine hcrowd.single hv fun w hw => ?_
      have howns : ∀ x, (s.pc x).serial = true → s.owner = some x := by
        intro x hx
        rw [h.owner x]
        cases hpx : s.pc x <;> simp [hpx, Pc.serial, Pc.holds] at hx ⊢
      exact Option.some.inj ((howns w hw).symm.trans (howns v hv))
    have hlate : s.returns v + 1 = s.round := by
      have := h.returned v
      cases hpv : s.pc v <;> simp [hpv, Pc.serial] at hv <;> simpa [hpv, Pc.late] using this
    have := hall v
    omega

end Inv

theorem barrier_rounds (s₀ s : Barrier τ) (h0 : init (Fintype.card τ) = some s₀)
    (hr : Reach Barrier.step Barrier.Careful s₀ s) : Sound s :=
  (hr.inv (I := Inv) (inv_init rfl h0) fun _ _ _ h hok hst => h.step hok hst).sound

instance (s : Barrier τ) (e : Event τ) : Decidable (s.Careful e) :=
  match e with
  | .start _ => .isTrue trivial
  | .wake _ => .isTrue trivial
  | .run _ _ => inferInstanceAs (Decidable (_ ∧ _))

/-- A step of `t` where everything works. -/
def go (t : Fin 2) (pick : Option (Fin 2) := none) : Event (Fin 2) := .run t ⟨true, false, false, pick⟩

/-- 0 parks; 1 comes last, releases it and returns, and so does 0. -/
def oneRound : List (Event (Fin 2)) :=
  [.start 0, go 0, go 0, go 0, go 0, go 0, go 0, .start 1, go 1, go 1, go 1, go 1 (some 0), go 1, go 1, go 1, .wake 0, go 0,
    go 0, go 0, go 0, go 0]

theorem barrier_rounds_one : ∃ s₀ s : Barrier (Fin 2), init 2 = some s₀ ∧ Reach Barrier.step Barrier.Careful s₀ s ∧
    s.serials = [(1, 1)] ∧ s.returns 0 = 1 ∧ Sound s := by
  obtain ⟨s₀, h0⟩ : ∃ s₀ : Barrier (Fin 2), init 2 = some s₀ := ⟨_, rfl⟩
  have hrun : ((init 2 : Option (Barrier (Fin 2))).bind fun s₀ =>
      Schemes.runIf Barrier.step (fun s e => decide (s.Careful e)) s₀ oneRound).map (fun s => (s.serials, s.returns 0)) =
      some ([(1, 1)], 1) := by
    decide +kernel
  rw [h0, Option.bind_some] at hrun
  obtain ⟨s, hs, hfacts⟩ := Option.map_eq_some_iff.mp hrun
  simp only [Prod.mk.injEq] at hfacts
  have hreach := Schemes.reach_of_runIf hs fun _ _ h => of_decide_eq_true h
  exact ⟨s₀, s, h0, hreach, hfacts.1, hfacts.2, barrier_rounds s₀ s h0 hreach⟩

/-- 0 has registered and not entered the semaphore when 1 comes last; 1 is back for the next round before
    0 goes on, and takes the permit. -/
def overtaken : List (Event (Fin 2)) :=
  [.start 0, go 0, go 0, go 0, go 0, go 0, .start 1, go 1, go 1, go 1, go 1, go 1, go 1, go 1, .start 1, go 1, go 1, go 1, go 1,
    go 1, go 1, go 1, go 1, go 1, go 1, go 1, go 1, go 0]

theorem barrier_stuck : ∃ s₀ s : Barrier (Fin 2), init 2 = some s₀ ∧ Reach Barrier.step Free s₀ s ∧ s.Stuck ∧ ¬Sound s := by
  obtain ⟨s₀, h0⟩ : ∃ s₀ : Barrier (Fin 2), init 2 = some s₀ := ⟨_, rfl⟩
  have hrun : ((init 2 : Option (Barrier (Fin 2))).bind fun s₀ => Schemes.runOps Barrier.step s₀ overtaken).map
      (fun s => (s.cond.pc 0, s.cond.pc 1, s.cond.sem.permits)) = some (.parked false, .parked false, 0) := by
    decide +kernel
  rw [h0, Option.bind_some] at hrun
  obtain ⟨s, hs, hfacts⟩ := Option.map_eq_some_iff.mp hrun
  simp only [Prod.mk.injEq] at hfacts
  obtain ⟨hp0, hp1, hnone⟩ := hfacts
  have hstuck : s.Stuck := ⟨Fin.forall_fin_two.mpr ⟨⟨false, hp0⟩, ⟨false, hp1⟩⟩, hnone⟩
  exact ⟨s₀, s, h0, Schemes.reach_of_runOps hs, hstuck, fun h => h.awake hstuck⟩

end EwokOS.Libc.Bar
