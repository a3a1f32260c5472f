import EwokOS.Schemes.Ledger
import EwokOS.Schemes.Run
import Mathlib.Algebra.Ring.Int.Defs
import Mathlib.Algebra.Ring.Nat
import Mathlib.Data.List.FinRange

/-! The neighbour cache and its queue (`netd/stack/arp.c`, `ip_output_device` of `stack/ip.c`).

    An output asks for the hardware address of its next hop. While there is none, the datagram is left with
    the INCOMPLETE entry, and the ARP message that resolves it takes it along:

        output ─▶ resolve ─FOUND─▶ out             input ─▶ update ──▶ entry: RESOLVED, datagram ─▶ out
                     └─▶ push ─▶ entry                          └─▶ none: (unlocked) ─▶ insert: RESOLVED
                           └─▶ resolve again

    Each section under the mutex is one step, and so is each transmission. The book, a `Schemes.Ledger`, is
    ghost: it follows each datagram from its output to its one fate. -/

namespace EwokOS.Net.Neigh

open Schemes (Ledger Reach Free)

variable {n : ℕ} {α β δ : Type}

inductive State where | free | incomplete | resolved | static
  deriving DecidableEq, Repr

/-- `struct arp_cache`; `α` is a protocol address, `β` a hardware address, `δ` a datagram, and an interface
    is its number. Times are microseconds. -/
structure Entry (α β δ : Type) where
  state : State
  pa : α
  ha : β
  timestamp : ℤ
  iface : Option ℕ
  request : ℤ
  pending : Option δ

def arpCacheTimeout : ℤ := 600
def arpIncompleteTimeout : ℤ := 5
def arpRequestIntervalUs : ℤ := 500000

/-- RESOLVED or STATIC. -/
def Entry.usable (e : Entry α β δ) : Bool := e.state = .resolved ∨ e.state = .static

/-- Where an output is. -/
inductive Phase (β : Type) where
  | resolve
  | push
  | again
  | found (ha : β)

/-- What an ARP message has still to do. -/
inductive Todo (α β δ : Type) where
  | flush (iface : Option ℕ) (ha : β) (d : δ)
  | insert (spa : α) (sha : β)

/-- Where a datagram can be: with its output, queued behind an entry, or with an ARP message. -/
inductive Place (n : ℕ) where
  | call (r : ℕ)
  | slot (i : Fin n)
  | flight (m : ℕ)
  deriving DecidableEq

/-- What becomes of one: it is transmitted, or given up. -/
inductive Fate (β δ : Type) where
  | sent (iface : ℕ) (ha : β) (d : δ)
  | lost
  deriving DecidableEq

/-- What an output is called with. -/
structure Args (α δ : Type) where
  iface : ℕ
  pa : α
  data : δ

/-- The cache, the outputs and the ARP messages under way by number, and the ghost part: what each output
    was called with, the book, and the sender addresses of all ARP messages that came. -/
structure Arp (n : ℕ) (α β δ : Type) where
  caches : Fin n → Entry α β δ
  calls : ℕ → Option (Phase β)
  msgs : ℕ → Option (Todo α β δ)
  args : ℕ → Option (Args α δ)
  book : Ledger (Place n) (Fate β δ)
  heard : List (α × β)

section Code
variable [DecidableEq α] [Zero α] [Zero β]

/-- All zero. -/
def Arp.start : Arp n α β δ :=
  ⟨fun _ => ⟨.free, 0, 0, 0, none, 0, none⟩, fun _ => none, fun _ => none, fun _ => none, .fresh, []⟩

namespace Arp
variable (s : Arp n α β δ) (i : Fin n) (now : ℤ)

def set (e : Entry α β δ) : Arp n α β δ := { s with caches := Function.update s.caches i e }

/-- `arp_pending_drop`. -/
def pendingDrop : Arp n α β δ :=
  { s.set i { s.caches i with pending := none, iface := none, request := 0 } with
    book := s.book.settle .lost (.slot i) }

/-- The first entry with the smallest time stamp. -/
def oldest : Option (Fin n) :=
  (List.finRange n).foldl (fun o i => match o with
    | none => some i
    | some j => if (s.caches i).timestamp < (s.caches j).timestamp then some i else some j) none

/-- `arp_cache_alloc`. -/
def cacheAlloc : Option (Fin n × Arp n α β δ) :=
  match (List.finRange n).find? fun i => (s.caches i).state = .free with
  | some i => some (i, s)
  | none => s.oldest.map fun i => (i, s.pendingDrop i)

/-- The entry that `arp_cache_select` returns. -/
def selected (pa : α) : Option (Fin n) :=
  ((List.finRange n).find? fun i => (s.caches i).usable ∧ (s.caches i).pa = pa).or
    ((List.finRange n).find? fun i => (s.caches i).state ≠ .free ∧ (s.caches i).pa = pa)

/-- `arp_cache_select` refreshes the entry it returns if that is usable. -/
def cacheSelect (pa : α) : Option (Fin n × Arp n α β δ) :=
  (s.selected pa).map fun i =>
    (i, if (s.caches i).usable then s.set i { s.caches i with timestamp := now } else s)

/-- `arp_cache_insert`. -/
def cacheInsert (pa : α) (ha : β) : Arp n α β δ :=
  match (s.cacheSelect now pa).or s.cacheAlloc with
  | none => s
  | some (i, t) => t.set i { t.caches i with state := .resolved, pa := pa, ha := ha, timestamp := now }

/-- `arp_cache_delete`. -/
def cacheDelete : Arp n α β δ :=
  let t := s.pendingDrop i
  t.set i { t.caches i with state := .free, pa := 0, ha := 0, timestamp := 0 }

/-- `arp_request_due`, with `timersub` as it normalises. -/
def requestDue (e : Entry α β δ) : Bool :=
  e.request = 0 ∨ 0 < (now - e.request) / 1000000 ∨ arpRequestIntervalUs ≤ (now - e.request) % 1000000

def endCall (r : ℕ) (f : Fate β δ) : Arp n α β δ :=
  { s with calls := Function.update s.calls r none, book := s.book.settle f (.call r) }

def goto (r : ℕ) (p : Phase β) : Arp n α β δ := { s with calls := Function.update s.calls r (some p) }

/-- `arp_resolve` for the output `r`, and where it goes on then; `ok` says that the interface is an Ethernet
    one. -/
def resolve (r : ℕ) (a : Args α δ) (ok first : Bool) : Arp n α β δ :=
  if ok = false then s.endCall r .lost else
  match s.cacheSelect now a.pa with
  | none =>
    match s.cacheAlloc with
    | none => s.endCall r .lost
    | some (i, t) =>
      let t := t.set i { t.caches i with state := .incomplete, pa := a.pa, iface := some a.iface, timestamp := now, request := now }
      if first then t.goto r .push else t.endCall r .lost
  | some (i, t) =>
    let e := t.caches i
    if e.state = .incomplete then
      let t := t.set i { e with iface := some a.iface, request := if requestDue now e then now else e.request }
      if first then t.goto r .push else t.endCall r .lost
    else t.goto r (.found e.ha)

/-- `arp_pending_push` for the output `r`; `ok` says that the length fits and that there is memory. -/
def pendingPush (r : ℕ) (a : Args α δ) (ok : Bool) : Arp n α β δ :=
  if ok then
    match s.cacheSelect now a.pa with
    | none => s.goto r .again
    | some (i, t) =>
      if (t.caches i).state = .incomplete then
        { t.set i { t.caches i with pending := some a.data, iface := some a.iface } with
          calls := Function.update s.calls r none
          book := (s.book.settle .lost (.slot i)).move (.call r) (.slot i) }
      else t.goto r .again
  else s.goto r .again

/-- The first section of `arp_input`; `mine` says that the target is this host's address. -/
def input (spa : α) (sha : β) (mine : Bool) : Arp n α β δ :=
  let m := s.heard.length
  let s := { s with heard := s.heard ++ [(spa, sha)] }
  match s.cacheSelect now spa with
  | none => if mine then { s with msgs := Function.update s.msgs m (some (.insert spa sha)) } else s
  | some (i, t) =>
    let e := t.caches i
    { t.set i { e with state := .resolved, ha := sha, timestamp := now, pending := none, iface := none, request := 0 } with
      msgs := Function.update s.msgs m (e.pending.map (.flush e.iface sha))
      book := s.book.move (.slot i) (.flight m) }

/-- An entry that `arp_timer` deletes. -/
def expired (e : Entry α β δ) : Bool :=
  e.state ≠ .free ∧ e.state ≠ .static ∧
    (if e.state = .incomplete then arpIncompleteTimeout else arpCacheTimeout) < (now - e.timestamp) / 1000000

/-- `arp_timer`. -/
def timer : Arp n α β δ :=
  (List.finRange n).foldl (fun s i => if expired now (s.caches i) then s.cacheDelete i else s) s

end Arp

/-- What happens: an output begins and takes its next step, an ARP message comes and takes its next step,
    and the timer runs. -/
inductive Event (α β δ : Type) where
  | output (a : Args α δ)
  | next (r : ℕ) (now : ℤ) (ok : Bool)
  | input (now : ℤ) (spa : α) (sha : β) (mine : Bool)
  | proceed (m : ℕ) (now : ℤ)
  | timer (now : ℤ)

namespace Arp
variable (s : Arp n α β δ)

def step : Event α β δ → Option (Arp n α β δ)
  | .output a =>
    let r := s.book.accepted
    some { s with calls := Function.update s.calls r (some .resolve), args := Function.update s.args r (some a),
                  book := s.book.enroll (.call r) }
  | .next r now ok =>
    match s.calls r, s.args r with
    | some .resolve, some a => some (s.resolve now r a ok true)
    | some .push, some a => some (s.pendingPush now r a ok)
    | some .again, some a => some (s.resolve now r a ok false)
    | some (.found ha), some a => some (s.endCall r (.sent a.iface ha a.data))
    | _, _ => none
  | .input now spa sha mine => some (s.input now spa sha mine)
  | .proceed m now =>
    match s.msgs m with
    | some (.flush iface ha d) =>
      some { s with msgs := Function.update s.msgs m none,
                    book := s.book.settle ((iface.map (.sent · ha d)).getD .lost) (.flight m) }
    | some (.insert spa sha) => some { s.cacheInsert now spa sha with msgs := Function.update s.msgs m none }
    | none => none
  | .timer now => some (s.timer now)

/-- What `m` has to do is not to resolve an entry with a datagram queued behind it. -/
def clean (m : ℕ) : Bool :=
  match s.msgs m with
  | some (.insert spa _) => (s.selected spa).all fun i => (s.caches i).pending.isNone
  | _ => true

/-- The second section of `arp_input` finds no datagram queued behind the entry it resolves. -/
def Careful : Event α β δ → Prop
  | .proceed m _ => s.clean m = true
  | _ => True

instance (e : Event α β δ) : Decidable (s.Careful e) :=
  match e with
  | .proceed _ _ => inferInstanceAs (Decidable (_ = true))
  | .output _ => .isTrue trivial
  | .next _ _ _ => .isTrue trivial
  | .input _ _ _ _ => .isTrue trivial
  | .timer _ => .isTrue trivial

end Arp

end Code

/-! ### The invariant -/

/-- What the message `m` has to do, and holds. -/
def Arp.TodoOk (s : Arp n α β δ) (m : ℕ) : Option (Todo α β δ) → Prop
  | none => s.book.held (.flight m) = none
  | some (.insert spa sha) => s.book.held (.flight m) = none ∧ (spa, sha) ∈ s.heard
  | some (.flush _ ha d) => ∃ r a, s.book.held (.flight m) = some r ∧ s.args r = some a ∧ a.data = d ∧ (a.pa, ha) ∈ s.heard

/-- What the output `r` holds while it runs, and the address it found. -/
def Arp.CallOk (s : Arp n α β δ) (r : ℕ) : Option (Phase β) → Prop
  | none => s.book.held (.call r) = none
  | some p => s.book.held (.call r) = some r ∧ ∃ a, s.args r = some a ∧ ∀ ha, p = .found ha → (a.pa, ha) ∈ s.heard

/-- What is queued behind the entry `i`. -/
def Arp.SlotOk (s : Arp n α β δ) (i : Fin n) (e : Entry α β δ) : Prop :=
  match e.pending with
  | none => s.book.held (.slot i) = none
  | some d => e.state = .incomplete ∧ e.iface ≠ none ∧
      ∃ r a, s.book.held (.slot i) = some r ∧ s.args r = some a ∧ a.data = d ∧ a.pa = e.pa

structure Inv (s : Arp n α β δ) : Prop where
  book : s.book.Valid
  single : ∀ i j, (s.caches i).state ≠ .free → (s.caches j).state ≠ .free → (s.caches i).pa = (s.caches j).pa → i = j
  slot : ∀ i, s.SlotOk i (s.caches i)
  call : ∀ r, s.CallOk r (s.calls r)
  msg : ∀ m, s.TodoOk m (s.msgs m)
  later : ∀ m, s.heard.length ≤ m → s.msgs m = none
  unborn : ∀ r, s.book.accepted ≤ r → s.calls r = none
  known : ∀ i, (s.caches i).usable = true → ((s.caches i).pa, (s.caches i).ha) ∈ s.heard
  fates : ∀ r iface ha d, .sent iface ha d ∈ s.book.fates r → ∃ a, s.args r = some a ∧ a.data = d ∧ (a.pa, ha) ∈ s.heard

theorem inv_start [Zero α] [Zero β] : Inv (Arp.start : Arp n α β δ) where
  book := Ledger.valid_fresh
  single := by simp [Arp.start]
  slot := fun _ => rfl
  call := fun _ => rfl
  msg := fun _ => rfl
  later := fun _ _ => rfl
  unborn := fun _ _ => rfl
  known := by simp [Arp.start, Entry.usable]
  fates := by simp [Arp.start, Ledger.fresh]

theorem usable_ne_free {e : Entry α β δ} (h : e.usable = true) : e.state ≠ .free := by
  intro hf
  simp [Entry.usable, hf] at h

namespace Inv
variable {s t : Arp n α β δ} {i j : Fin n} {e : Entry α β δ} {r : ℕ} {now : ℤ} {pa : α} {ha : β}

/-- An entry is changed with what is queued behind it left alone. -/
theorem set (h : Inv s) (hslot : s.SlotOk i e)
    (hone : e.state ≠ .free → ∀ j, j ≠ i → (s.caches j).state ≠ .free → (s.caches j).pa ≠ e.pa)
    (hknown : e.usable = true → (e.pa, e.ha) ∈ s.heard) : Inv (s.set i e) := by
  have hpc : ∀ {P : Fin n → Entry α β δ → Prop} (j : Fin n), P i e → (j ≠ i → P j (s.caches j)) → P j ((s.set i e).caches j) := by
    intro P j h1 h2
    by_cases hj : j = i
    · subst hj
      simpa [Arp.set] using h1
    · simpa [Arp.set, hj] using h2 hj
  refine ⟨h.book, fun j k => ?_, fun j => ?_, h.call, h.msg, h.later, h.unborn, fun j => ?_, h.fates⟩
  · by_cases hj : j = i <;> by_cases hk : k = i
    · exact fun _ _ _ => hj.trans hk.symm
    · subst hj
      simp only [Arp.set, Function.update_self, Function.update_of_ne hk]
      exact fun he hk' heq => absurd heq.symm (hone he k hk hk')
    · subst hk
      simp only [Arp.set, Function.update_self, Function.update_of_ne hj]
      exact fun hj' he heq => absurd heq (hone he j hj hj')
    · simp only [Arp.set, Function.update_of_ne hj, Function.update_of_ne hk]
      exact h.single j k
  · exact hpc (P := fun j e => s.SlotOk j e) j hslot fun _ => h.slot j
  · exact hpc (P := fun _ e => e.usable = true → (e.pa, e.ha) ∈ s.heard) j hknown fun _ => h.known j

/-- The entry of an address stays the only one. -/
theorem alone (h : Inv s) (hi : (s.caches i).state ≠ .free) (j : Fin n) (hj : j ≠ i) (hfree : (s.caches j).state ≠ .free) :
    (s.caches j).pa ≠ (s.caches i).pa :=
  fun heq => hj (h.single j i hfree hi heq)

/-- Times and the like are changed. -/
theorem retouch (h : Inv s) (hst : e.state = (s.caches i).state) (hpa : e.pa = (s.caches i).pa) (hha : e.ha = (s.caches i).ha)
    (hpend : e.pending = (s.caches i).pending) (hif : e.iface = (s.caches i).iface ∨ e.iface ≠ none) : Inv (s.set i e) := by
  refine h.set ?_ (fun he => ?_) (fun he => ?_)
  · have := h.slot i
    unfold Arp.SlotOk at this ⊢
    rw [hpend, hst, hpa]
    cases hp : (s.caches i).pending with
    | none => simpa [hp] using this
    | some d =>
      simp only [hp] at this ⊢
      refine ⟨this.1, ?_, this.2.2⟩
      rcases hif with hif | hif
      · rw [hif]
        exact this.2.1
      · exact hif
  · rw [hpa]
    rw [hst] at he
    exact h.alone he
  · rw [hpa, hha]
    refine h.known i ?_
    unfold Entry.usable at he ⊢
    rwa [hst] at he

/-- What a look at the cache leaves as it was. -/
structure Frame (s t : Arp n α β δ) : Prop where
  calls : t.calls = s.calls
  msgs : t.msgs = s.msgs
  args : t.args = s.args
  heard : t.heard = s.heard
  accepted : t.book.accepted = s.book.accepted
  caches : ∀ j, (t.caches j).state = (s.caches j).state ∧ (t.caches j).pa = (s.caches j).pa ∧ (t.caches j).ha = (s.caches j).ha

theorem Frame.refl (s : Arp n α β δ) : Frame s s := ⟨rfl, rfl, rfl, rfl, rfl, fun _ => ⟨rfl, rfl, rfl⟩⟩

theorem Frame.set (hst : e.state = (s.caches i).state) (hpa : e.pa = (s.caches i).pa) (hha : e.ha = (s.caches i).ha) :
    Frame s (s.set i e) := by
  refine ⟨rfl, rfl, rfl, rfl, rfl, fun j => ?_⟩
  by_cases hj : j = i
  · subst hj
    simp [Arp.set, hst, hpa, hha]
  · simp [Arp.set, hj]

theorem Frame.drop : Frame s (s.pendingDrop i) := by
  have h := Frame.set (s := s) (i := i) (e := { s.caches i with pending := none, iface := none, request := 0 }) rfl rfl rfl
  exact ⟨h.calls, h.msgs, h.args, h.heard, Ledger.settle_accepted, h.caches⟩

/-- A datagram meets its fate. -/
theorem settle_fates (h : Inv s) {p : Place n} {f : Fate β δ}
    (hf : ∀ r iface ha d, s.book.held p = some r → f = .sent iface ha d → ∃ a, s.args r = some a ∧ a.data = d ∧ (a.pa, ha) ∈ s.heard) :
    ∀ r iface ha d, .sent iface ha d ∈ (s.book.settle f p).fates r → ∃ a, s.args r = some a ∧ a.data = d ∧ (a.pa, ha) ∈ s.heard := by
  intro r iface ha d hin
  unfold Ledger.settle at hin
  split at hin
  · exact h.fates r iface ha d hin
  · rename_i r' hr'
    by_cases hr : r = r'
    · subst hr
      simp only [Function.update_self, List.mem_append, List.mem_singleton] at hin
      rcases hin with hin | heq
      · exact h.fates r iface ha d hin
      · exact hf r iface ha d hr' heq.symm
    · exact h.fates r iface ha d (by simpa [hr] using hin)

/-- `arp_pending_drop`. -/
theorem drop (h : Inv s) : Inv (s.pendingDrop i) := by
  refine ⟨Ledger.valid_settle h.book, fun j k => ?_, fun j => ?_, fun r => ?_, fun m => ?_, h.later, fun r => ?_, fun j => ?_,
    h.settle_fates (by simp)⟩
  · have hst : ∀ j, ((s.pendingDrop i).caches j).state = (s.caches j).state ∧ ((s.pendingDrop i).caches j).pa = (s.caches j).pa := by
      intro j
      by_cases hj : j = i
      · subst hj
        simp [Arp.pendingDrop, Arp.set]
      · simp [Arp.pendingDrop, Arp.set, hj]
    rw [(hst j).1, (hst j).2, (hst k).1, (hst k).2]
    exact h.single j k
  · by_cases hj : j = i
    · subst hj
      simp [Arp.SlotOk, Arp.pendingDrop, Arp.set, Ledger.settle_held]
    · have := h.slot j
      unfold Arp.SlotOk at this ⊢
      simpa [Arp.pendingDrop, Arp.set, hj, Ledger.settle_held] using this
  · have := h.call r
    change Arp.CallOk _ r (s.calls r)
    cases hc : s.calls r <;> simpa [hc, Arp.CallOk, Arp.pendingDrop, Arp.set, Ledger.settle_held] using this
  · have := h.msg m
    change Arp.TodoOk _ m (s.msgs m)
    cases hm : s.msgs m with
    | none => simpa [hm, Arp.TodoOk, Arp.pendingDrop, Arp.set, Ledger.settle_held] using this
    | some t => cases t <;> simpa [hm, Arp.TodoOk, Arp.pendingDrop, Arp.set, Ledger.settle_held] using this
  · simpa [Arp.pendingDrop, Arp.set] using h.unborn r
  · by_cases hj : j = i
    · subst hj
      simpa [Arp.pendingDrop, Arp.set, Entry.usable] using h.known j
    · simpa [Arp.pendingDrop, Arp.set, hj] using h.known j

/-- `arp_cache_alloc` makes room, at the cost of a datagram perhaps. -/
theorem alloc (h : Inv s) (ha : s.cacheAlloc = some (i, t)) : Inv t ∧ Frame s t ∧ (t.caches i).pending = none := by
  unfold Arp.cacheAlloc at ha
  split at ha
  · rename_i j hj
    cases ha
    refine ⟨h, .refl s, ?_⟩
    -- a free entry has nothing queued
    have hfree : (s.caches i).state = .free := by simpa using List.find?_some hj
    have := h.slot i
    unfold Arp.SlotOk at this
    cases hp : (s.caches i).pending with
    | none => rfl
    | some d => simp [hp, hfree] at this
  · obtain ⟨j, -, hj⟩ := Option.map_eq_some_iff.mp ha
    cases hj
    exact ⟨h.drop, .drop, by simp [Arp.pendingDrop, Arp.set]⟩

/-- An entry with nothing queued is given to an address that has none. -/
theorem give (h : Inv s) (hp : (s.caches i).pending = none) (he : e.pending = none)
    (hone : ∀ j, j ≠ i → (s.caches j).state ≠ .free → (s.caches j).pa ≠ e.pa)
    (hknown : e.usable = true → (e.pa, e.ha) ∈ s.heard) : Inv (s.set i e) := by
  refine h.set ?_ (fun _ => hone) hknown
  have := h.slot i
  simpa [Arp.SlotOk, hp, he] using this

variable [DecidableEq α]

theorem selected_spec (hs : s.selected pa = some i) : (s.caches i).state ≠ .free ∧ (s.caches i).pa = pa := by
  rcases Option.or_eq_some_iff.mp hs with hs | ⟨-, hs⟩
  · have := List.find?_some hs
    simp only [Bool.and_eq_true, decide_eq_true_eq, Bool.decide_and] at this
    exact ⟨usable_ne_free this.1, this.2⟩
  · simpa using List.find?_some hs

theorem not_selected (hs : s.selected pa = none) (j : Fin n) (hj : (s.caches j).state ≠ .free) : (s.caches j).pa ≠ pa := by
  have := List.find?_eq_none.mp (Option.or_eq_none_iff.mp hs).2 j (List.mem_finRange j)
  simpa [hj] using this

/-- `arp_cache_select` finds the one entry of an address, and touches no more than its time. -/
theorem select (h : Inv s) (hs : s.cacheSelect now pa = some (i, t)) :
    Inv t ∧ Frame s t ∧ s.selected pa = some i ∧ (t.caches i).pending = (s.caches i).pending ∧ t.book = s.book := by
  obtain ⟨j, hj, heq⟩ := Option.map_eq_some_iff.mp hs
  simp only [Prod.mk.injEq] at heq
  obtain ⟨rfl, rfl⟩ := heq
  split
  · exact ⟨h.retouch rfl rfl rfl rfl (Or.inl rfl), .set rfl rfl rfl, hj, by simp [Arp.set], rfl⟩
  · exact ⟨h, .refl s, hj, rfl, rfl⟩

/-- `arp_cache_insert`, where nothing is queued behind the entry of the address. -/
theorem insert (now : ℤ) (h : Inv s) (hin : (pa, ha) ∈ s.heard)
    (hc : ∀ i, s.selected pa = some i → (s.caches i).pending.isNone = true) :
    Inv (s.cacheInsert now pa ha) ∧ (s.cacheInsert now pa ha).msgs = s.msgs ∧
      (s.cacheInsert now pa ha).heard = s.heard := by
  unfold Arp.cacheInsert
  cases hs : s.cacheSelect now pa with
  | some it =>
    obtain ⟨i, t⟩ := it
    obtain ⟨hinv, hf, hsel, hpend, -⟩ := h.select hs
    have hnone : (t.caches i).pending = none := by
      rw [hpend]
      simpa using hc i hsel
    obtain ⟨hfree, hpa⟩ := selected_spec hsel
    simp only [Option.some_or]
    refine ⟨hinv.give hnone hnone (fun j hj hjf heq => ?_) (fun _ => by rw [hf.heard]; exact hin), hf.msgs, hf.heard⟩
    rw [(hf.caches j).1] at hjf
    rw [(hf.caches j).2.1] at heq
    exact h.alone hfree j hj hjf (heq.trans hpa.symm)
  | none =>
    have hsel : s.selected pa = none := by simpa [Arp.cacheSelect] using hs
    cases ha' : s.cacheAlloc with
    | none => exact ⟨h, rfl, rfl⟩
    | some it =>
      obtain ⟨i, t⟩ := it
      obtain ⟨hinv, hf, hnone⟩ := h.alloc ha'
      simp only [Option.none_or]
      refine ⟨hinv.give hnone hnone (fun j hj hjf heq => ?_) (fun _ => by rw [hf.heard]; exact hin), hf.msgs, hf.heard⟩
      rw [(hf.caches j).1] at hjf
      rw [(hf.caches j).2.1] at heq
      exact not_selected hsel j hjf heq

omit [DecidableEq α] in
/-- An output goes on. -/
theorem goto {p q : Phase β} (h : Inv s) (hc : s.calls r = some p)
    (hp : ∀ ha a, q = .found ha → s.args r = some a → (a.pa, ha) ∈ s.heard) : Inv (s.goto r q) := by
  refine ⟨h.book, h.single, h.slot, fun r' => ?_, h.msg, h.later, fun r' hr' => ?_, h.known, h.fates⟩
  · by_cases hr : r' = r
    · subst hr
      have := h.call r'
      simp only [hc, Arp.CallOk] at this
      obtain ⟨hheld, a, ha, -⟩ := this
      simp only [Arp.goto, Function.update_self]
      exact ⟨hheld, a, ha, fun x hx => hp x a hx ha⟩
    · simp only [Arp.goto, Function.update_of_ne hr]
      exact h.call r'
  · have hne : r' ≠ r := by
      rintro rfl
      have := h.unborn r' hr'
      rw [hc] at this
      cases this
    simp only [Arp.goto, Function.update_of_ne hne]
    exact h.unborn r' hr'

omit [DecidableEq α] in
/-- An output ends. -/
theorem endCall {f : Fate β δ} (h : Inv s)
    (hf : ∀ iface ha d, f = .sent iface ha d → ∃ a, s.args r = some a ∧ a.data = d ∧ (a.pa, ha) ∈ s.heard) :
    Inv (s.endCall r f) := by
  refine ⟨Ledger.valid_settle h.book, h.single, fun i => ?_, fun r' => ?_, fun m => ?_, h.later, fun r' hr' => ?_, h.known,
    h.settle_fates fun r' iface ha d hr' heq => ?_⟩
  · have := h.slot i
    unfold Arp.SlotOk at this ⊢
    simpa [Arp.endCall, Ledger.settle_held] using this
  · by_cases hr : r' = r
    · subst hr
      simp [Arp.endCall, Arp.CallOk, Ledger.settle_held]
    · have := h.call r'
      have hcalls : (s.endCall r f).calls r' = s.calls r' := by simp [Arp.endCall, hr]
      rw [hcalls]
      cases hc : s.calls r' <;> simpa [hc, Arp.CallOk, Arp.endCall, Ledger.settle_held, hr] using this
  · have := h.msg m
    change Arp.TodoOk _ m (s.msgs m)
    cases hm : s.msgs m with
    | none => simpa [hm, Arp.TodoOk, Arp.endCall, Ledger.settle_held] using this
    | some t => cases t <;> simpa [hm, Arp.TodoOk, Arp.endCall, Ledger.settle_held] using this
  · by_cases hr : r' = r
    · simp [Arp.endCall, hr]
    · simp only [Arp.endCall, Function.update_of_ne hr]
      exact h.unborn r' (by simpa [Arp.endCall] using hr')
  · have hcall : r' = r := by
      have := h.call r
      cases hc : s.calls r with
      | none => simp [hc, Arp.CallOk, hr'] at this
      | some p =>
        simp only [hc, Arp.CallOk, hr', Option.some.injEq] at this
        exact this.1
    subst hcall
    exact hf iface ha d heq

/-- After `arp_resolve`. -/
theorem resolve {a : Args α δ} {ok first : Bool} {p : Phase β} (h : Inv s) (hc : s.calls r = some p) (ha : s.args r = some a) :
    Inv (s.resolve now r a ok first) := by
  -- where it goes on without an address
  have hon : ∀ {t : Arp n α β δ}, Inv t → t.calls = s.calls → Inv (if first then t.goto r .push else t.endCall r .lost) := by
    intro t ht hcalls
    split
    · exact ht.goto (p := p) (by rw [hcalls, hc]) (by simp)
    · exact ht.endCall (by simp)
  unfold Arp.resolve
  split
  · exact h.endCall (by simp)
  cases hs : s.cacheSelect now a.pa with
  | none =>
    have hsel : s.selected a.pa = none := by simpa [Arp.cacheSelect] using hs
    cases hal : s.cacheAlloc with
    | none => exact h.endCall (by simp)
    | some it =>
      obtain ⟨i, t⟩ := it
      obtain ⟨hinv, hf, hnone⟩ := h.alloc hal
      refine hon (hinv.give hnone hnone (fun j hj hjf heq => ?_) (fun hu => by simp [Entry.usable] at hu)) hf.calls
      rw [(hf.caches j).1] at hjf
      rw [(hf.caches j).2.1] at heq
      exact not_selected hsel j hjf heq
  | some it =>
    obtain ⟨i, t⟩ := it
    obtain ⟨hinv, hf, hsel, -, -⟩ := h.select hs
    obtain ⟨hfree, hpa⟩ := selected_spec hsel
    dsimp only
    split
    · exact hon (hinv.retouch rfl rfl rfl rfl (Or.inr (by simp))) hf.calls
    · rename_i hinc
      refine hinv.goto (p := p) (by rw [hf.calls, hc]) fun x b hx hb => ?_
      -- what is neither free nor incomplete has an address that was heard
      have hus : (t.caches i).usable = true := by
        have hne : (t.caches i).state ≠ .free := by rwa [(hf.caches i).1]
        cases hst : (t.caches i).state <;> simp [hst, Entry.usable] at hne hinc ⊢
      have hknown := hinv.known i hus
      cases hx
      rw [hf.args, ha, Option.some.injEq] at hb
      rwa [(hf.caches i).2.1, hpa, hb] at hknown

omit [DecidableEq α] in
/-- A datagram goes from its output into the entry of its next hop, in the place of what was there. -/
theorem queue {a : Args α δ} (h : Inv s) {p : Phase β} (hc : s.calls r = some p) (ha : s.args r = some a)
    (hinc : (s.caches i).state = .incomplete) (hpa : (s.caches i).pa = a.pa) :
    Inv { s.set i { s.caches i with pending := some a.data, iface := some a.iface } with
          calls := Function.update s.calls r none
          book := (s.book.settle .lost (.slot i)).move (.call r) (.slot i) } := by
  have hr : s.book.held (.call r) = some r := by
    have := h.call r
    simp only [hc, Arp.CallOk] at this
    exact this.1
  have hheld : ∀ x, ((s.book.settle (.lost : Fate β δ) (.slot i)).move (.call r) (.slot i)).held x =
      if x = .call r then none else if x = .slot i then some r else s.book.held x := by
    intro x
    rw [Ledger.move_held]
    split
    · rfl
    · split
      · rw [Ledger.settle_held, Function.update_of_ne (by simp), hr]
      · rename_i hx
        rw [Ledger.settle_held, Function.update_of_ne hx]
  have hsame := (Frame.set (s := s) (i := i) (e := { s.caches i with pending := some a.data, iface := some a.iface }) rfl rfl rfl).caches
  refine ⟨Ledger.valid_move (Ledger.valid_settle h.book) (by simp [Ledger.settle_held]), fun j k => ?_, fun j => ?_, fun r' => ?_,
    fun m => ?_, h.later, fun r' hr' => ?_, fun j => ?_, h.settle_fates (by simp)⟩
  · dsimp only
    rw [(hsame j).1, (hsame j).2.1, (hsame k).1, (hsame k).2.1]
    exact h.single j k
  · by_cases hj : j = i
    · subst hj
      simp only [Arp.SlotOk, Arp.set, Function.update_self]
      exact ⟨hinc, by simp, r, a, by rw [hheld, if_neg (by simp), if_pos rfl], ha, rfl, hpa.symm⟩
    · have := h.slot j
      unfold Arp.SlotOk at this ⊢
      simpa [Arp.set, hj, hheld] using this
  · by_cases hrr : r' = r
    · subst hrr
      simp [Arp.CallOk, hheld]
    · have := h.call r'
      simp only [Function.update_of_ne hrr]
      cases hc' : s.calls r' <;> simpa [hc', Arp.CallOk, Arp.set, hheld, hrr] using this
  · have := h.msg m
    change Arp.TodoOk _ m (s.msgs m)
    cases hm : s.msgs m with
    | none => simpa [hm, Arp.TodoOk, Arp.set, hheld] using this
    | some t => cases t <;> simpa [hm, Arp.TodoOk, Arp.set, hheld] using this
  · by_cases hrr : r' = r
    · simp [hrr]
    · simp only [Function.update_of_ne hrr]
      exact h.unborn r' (by simpa [Ledger.move] using hr')
  · intro hu
    have hold : (s.caches j).usable = true := by
      unfold Entry.usable at hu ⊢
      rwa [(hsame j).1] at hu
    have := h.known j hold
    dsimp only
    rw [(hsame j).2.1, (hsame j).2.2]
    exact this

/-- After `arp_pending_push`. -/
theorem pendingPush {a : Args α δ} {ok : Bool} {p : Phase β} (h : Inv s) (hc : s.calls r = some p) (ha : s.args r = some a) :
    Inv (s.pendingPush now r a ok) := by
  unfold Arp.pendingPush
  split
  · cases hs : s.cacheSelect now a.pa with
    | none => exact h.goto hc (by simp)
    | some it =>
      obtain ⟨i, t⟩ := it
      obtain ⟨hinv, hf, hsel, -, hbook⟩ := h.select hs
      dsimp only
      split
      · rename_i hinc
        have hpa : (t.caches i).pa = a.pa := by rw [(hf.caches i).2.1, (selected_spec hsel).2]
        rw [← hf.calls, ← hbook]
        exact hinv.queue (by rw [hf.calls, hc]) (by rw [hf.args, ha]) hinc hpa
      · exact hinv.goto (by rw [hf.calls, hc]) (by simp)
  · exact h.goto hc (by simp)

omit [DecidableEq α] in
/-- An ARP message comes. -/
theorem hear {x : α × β} (h : Inv s) : Inv { s with heard := s.heard ++ [x] } := by
  have hmono : ∀ {y}, y ∈ s.heard → y ∈ s.heard ++ [x] := fun hy => List.mem_append_left _ hy
  refine ⟨h.book, h.single, h.slot, fun r => ?_, fun m => ?_, fun m hm => ?_, h.unborn, fun i hi => hmono (h.known i hi),
    fun r iface ha d hin => ?_⟩
  · have := h.call r
    cases hc : s.calls r with
    | none => simpa [hc, Arp.CallOk] using this
    | some p =>
      simp only [hc, Arp.CallOk] at this ⊢
      obtain ⟨hheld, a, ha, hk⟩ := this
      exact ⟨hheld, a, ha, fun y hy => hmono (hk y hy)⟩
  · have := h.msg m
    cases hm : s.msgs m with
    | none => simpa [hm, Arp.TodoOk] using this
    | some t =>
      cases t with
      | flush iface ha d =>
        simp only [hm, Arp.TodoOk] at this ⊢
        obtain ⟨r, a, hheld, ha', hd, hk⟩ := this
        exact ⟨r, a, hheld, ha', hd, hmono hk⟩
      | insert spa sha =>
        simp only [hm, Arp.TodoOk] at this ⊢
        exact ⟨this.1, hmono this.2⟩
  · refine h.later m ?_
    simp only [List.length_append, List.length_singleton] at hm
    omega
  · obtain ⟨a, ha', hd, hk⟩ := h.fates r iface ha d hin
    exact ⟨a, ha', hd, hmono hk⟩

omit [DecidableEq α] in
/-- An ARP message goes on. -/
theorem todo {m : ℕ} {todo : Option (Todo α β δ)} (h : Inv s) (hm : m < s.heard.length) (hok : s.TodoOk m todo) :
    Inv { s with msgs := Function.update s.msgs m todo } := by
  refine ⟨h.book, h.single, h.slot, h.call, fun m' => ?_, fun m' hm' => ?_, h.unborn, h.known, h.fates⟩
  · by_cases hmm : m' = m
    · subst hmm
      simp only [Function.update_self]
      cases todo with
      | none => exact hok
      | some t => cases t <;> exact hok
    · simp only [Function.update_of_ne hmm]
      exact h.msg m'
  · have hmm : m' ≠ m := by
      rintro rfl
      exact absurd hm (Nat.not_lt.mpr hm')
    simp only [Function.update_of_ne hmm]
    exact h.later m' hm'

omit [DecidableEq α] in
/-- The datagram behind an entry goes with the ARP message that resolves it. -/
theorem answer {m : ℕ} (now : ℤ) (sha : β) (h : Inv s) (hm : s.msgs m = none) (hmlt : m < s.heard.length) (hfree : (s.caches i).state ≠ .free)
    (hin : ((s.caches i).pa, sha) ∈ s.heard) :
    Inv { s.set i { s.caches i with state := .resolved, ha := sha, timestamp := now, pending := none, iface := none, request := 0 } with
          msgs := Function.update s.msgs m ((s.caches i).pending.map (.flush (s.caches i).iface sha))
          book := s.book.move (.slot i) (.flight m) } := by
  have hempty : s.book.held (.flight m) = none := by
    have := h.msg m
    simpa [hm, Arp.TodoOk] using this
  have hslot := h.slot i
  refine ⟨Ledger.valid_move h.book hempty, fun j k => ?_, fun j => ?_, fun r => ?_, fun m' => ?_, fun m' hm' => ?_, h.unborn, fun j => ?_,
    h.fates⟩
  · by_cases hj : j = i <;> by_cases hk : k = i
    · exact fun _ _ _ => hj.trans hk.symm
    · subst hj
      simp only [Arp.set, Function.update_self, Function.update_of_ne hk]
      exact fun _ hk' heq => h.single j k hfree hk' heq
    · subst hk
      simp only [Arp.set, Function.update_self, Function.update_of_ne hj]
      exact fun hj' _ heq => h.single j k hj' hfree heq
    · simp only [Arp.set, Function.update_of_ne hj, Function.update_of_ne hk]
      exact h.single j k
  · by_cases hj : j = i
    · subst hj
      simp [Arp.SlotOk, Arp.set, Ledger.move_held]
    · have := h.slot j
      unfold Arp.SlotOk at this ⊢
      simpa [Arp.set, hj, Ledger.move_held] using this
  · have := h.call r
    change Arp.CallOk _ r (s.calls r)
    cases hc : s.calls r <;> simpa [hc, Arp.CallOk, Arp.set, Ledger.move_held] using this
  · by_cases hmm : m' = m
    · subst hmm
      simp only [Function.update_self]
      unfold Arp.SlotOk at hslot
      cases hp : (s.caches i).pending with
      | none => simpa [hp, Arp.TodoOk, Ledger.move_held] using hslot
      | some d =>
        simp only [hp] at hslot
        obtain ⟨-, -, r, a, hheld, ha, hd, hpa⟩ := hslot
        refine ⟨r, a, by simpa [Ledger.move_held] using hheld, ha, hd, ?_⟩
        rw [hpa]
        exact hin
    · have := h.msg m'
      simp only [Function.update_of_ne hmm]
      cases hm' : s.msgs m' with
      | none => simpa [hm', Arp.TodoOk, Arp.set, Ledger.move_held, hmm] using this
      | some t => cases t <;> simpa [hm', Arp.TodoOk, Arp.set, Ledger.move_held, hmm] using this
  · have hmm : m' ≠ m := by
      rintro rfl
      exact absurd hmlt (Nat.not_lt.mpr hm')
    simp only [Function.update_of_ne hmm]
    exact h.later m' hm'
  · by_cases hj : j = i
    · subst hj
      simpa [Arp.set] using fun _ => hin
    · simpa [Arp.set, hj] using h.known j

/-- The first section of `arp_input`. -/
theorem input {spa : α} {sha : β} {mine : Bool} (h : Inv s) : Inv (s.input now spa sha mine) := by
  have hh : Inv { s with heard := s.heard ++ [(spa, sha)] } := h.hear
  have hlt : s.heard.length < (s.heard ++ [(spa, sha)]).length := by simp
  have hnew : s.msgs s.heard.length = none := h.later _ (Nat.le_refl _)
  have hin : (spa, sha) ∈ s.heard ++ [(spa, sha)] := by simp
  unfold Arp.input
  dsimp only
  cases hs : Arp.cacheSelect { s with heard := s.heard ++ [(spa, sha)] } now spa with
  | none =>
    dsimp only
    split
    · refine hh.todo hlt ⟨?_, hin⟩
      simpa [hnew, Arp.TodoOk] using h.msg s.heard.length
    · exact hh
  | some it =>
    obtain ⟨i, t⟩ := it
    obtain ⟨hinv, hf, hsel, -, hbook⟩ := hh.select hs
    obtain ⟨hfree, hpa⟩ := selected_spec hsel
    have := hinv.answer (i := i) (m := s.heard.length) now sha (by rw [hf.msgs]; exact hnew)
      (by rw [hf.heard]; exact hlt) (by rwa [(hf.caches i).1]) (by rw [(hf.caches i).2.1, hpa, hf.heard]; exact hin)
    rw [hf.msgs, hbook] at this
    exact this

omit [DecidableEq α] in
/-- The datagram that an ARP message took along is transmitted. -/
theorem flush {m : ℕ} {iface : Option ℕ} {d : δ} (h : Inv s) (hm : s.msgs m = some (.flush iface ha d)) :
    Inv { s with msgs := Function.update s.msgs m none,
                 book := s.book.settle ((iface.map (.sent · ha d)).getD .lost) (.flight m) } := by
  have hmsg := h.msg m
  simp only [hm, Arp.TodoOk] at hmsg
  obtain ⟨r, a, hheld, ha', hd, hk⟩ := hmsg
  refine ⟨Ledger.valid_settle h.book, h.single, fun i => ?_, fun r' => ?_, fun m' => ?_, fun m' hm' => ?_, fun r' hr' => ?_, h.known,
    h.settle_fates fun r' iface' ha'' d' hr' heq => ?_⟩
  · have := h.slot i
    unfold Arp.SlotOk at this ⊢
    simpa [Ledger.settle_held] using this
  · have := h.call r'
    cases hc : s.calls r' <;> simpa [hc, Arp.CallOk, Ledger.settle_held] using this
  · by_cases hmm : m' = m
    · subst hmm
      simp [Arp.TodoOk, Ledger.settle_held]
    · have := h.msg m'
      simp only [Function.update_of_ne hmm]
      cases hm' : s.msgs m' with
      | none => simpa [hm', Arp.TodoOk, Ledger.settle_held, hmm] using this
      | some t => cases t <;> simpa [hm', Arp.TodoOk, Ledger.settle_held, hmm] using this
  · by_cases hmm : m' = m
    · simp [hmm]
    · simp only [Function.update_of_ne hmm]
      exact h.later m' hm'
  · exact h.unborn r' (by simpa using hr')
  · cases iface with
    | none => simp at heq
    | some x =>
      simp only [Option.map_some, Option.getD_some, Fate.sent.injEq] at heq
      obtain ⟨-, rfl, rfl⟩ := heq
      rw [hheld, Option.some.injEq] at hr'
      subst hr'
      exact ⟨a, ha', hd, hk⟩

omit [DecidableEq α] in
/-- `arp_cache_delete`. -/
theorem delete [Zero α] [Zero β] (h : Inv s) : Inv (s.cacheDelete i) := by
  refine h.drop.set ?_ (fun hf => absurd rfl hf) (fun hu => by simp [Entry.usable] at hu)
  simp [Arp.SlotOk, Arp.pendingDrop, Arp.set, Ledger.settle_held]

omit [DecidableEq α] in
theorem timer [Zero α] [Zero β] (h : Inv s) : Inv (s.timer now) := by
  unfold Arp.timer
  generalize List.finRange n = l
  induction l generalizing s with
  | nil => exact h
  | cons i l ih =>
    rw [List.foldl_cons]
    split
    · exact ih h.delete
    · exact ih h

omit [DecidableEq α] in
/-- An output begins. -/
theorem output (h : Inv s) (a : Args α δ) :
    Inv { s with calls := Function.update s.calls s.book.accepted (some .resolve)
                 args := Function.update s.args s.book.accepted (some a)
                 book := s.book.enroll (.call s.book.accepted) } := by
  have hnone : s.book.held (.call s.book.accepted) = none := by
    have := h.call s.book.accepted
    rw [h.unborn _ (Nat.le_refl _)] at this
    exact this
  -- what is held is older
  have hold : ∀ {p r}, s.book.held p = some r → r ≠ s.book.accepted := fun hp =>
    Nat.ne_of_lt (h.book.below _ _ hp)
  refine ⟨Ledger.valid_enroll h.book hnone, h.single, fun i => ?_, fun r => ?_, fun m => ?_, h.later, fun r hr => ?_, h.known,
    fun r iface ha d hin => ?_⟩
  · have := h.slot i
    unfold Arp.SlotOk at this ⊢
    cases hp : (s.caches i).pending with
    | none => simpa [hp] using this
    | some d =>
      simp only [hp] at this ⊢
      obtain ⟨h1, h2, r, b, hheld, hb, hrest⟩ := this
      exact ⟨h1, h2, r, b, by simpa using hheld, by rw [Function.update_of_ne (hold hheld)]; exact hb, hrest⟩
  · by_cases hr : r = s.book.accepted
    · subst hr
      simp [Arp.CallOk]
    · have := h.call r
      simp only [Function.update_of_ne hr]
      cases hc : s.calls r with
      | none => simpa [hc, Arp.CallOk, hr] using this
      | some p => simpa [hc, Arp.CallOk, hr] using this
  · have := h.msg m
    cases hm : s.msgs m with
    | none => simpa [hm, Arp.TodoOk] using this
    | some t =>
      cases t with
      | flush iface ha d =>
        simp only [hm, Arp.TodoOk] at this ⊢
        obtain ⟨r, b, hheld, hb, hrest⟩ := this
        exact ⟨r, b, by simpa using hheld, by rw [Function.update_of_ne (hold hheld)]; exact hb, hrest⟩
      | insert spa sha => simpa [hm, Arp.TodoOk] using this
  · have hr' : s.book.accepted + 1 ≤ r := hr
    dsimp only
    rw [Function.update_of_ne (by omega)]
    exact h.unborn r (by omega)
  · have hin' : Fate.sent iface ha d ∈ s.book.fates r := hin
    have hr : r ≠ s.book.accepted := by
      rintro rfl
      simp [h.book.unborn _ (Nat.le_refl _)] at hin'
    dsimp only
    rw [Function.update_of_ne hr]
    exact h.fates r iface ha d hin'

theorem step [Zero α] [Zero β] {e : Event α β δ} (h : Inv s) (hok : s.Careful e) (hst : s.step e = some t) : Inv t := by
  cases e with
  | output a =>
    cases hst
    exact h.output a
  | input now spa sha mine =>
    cases hst
    exact h.input
  | timer now =>
    cases hst
    exact h.timer
  | next r now ok =>
    simp only [Arp.step] at hst
    split at hst
    · rename_i hc ha
      cases hst
      exact h.resolve hc ha
    · rename_i hc ha
      cases hst
      exact h.pendingPush hc ha
    · rename_i hc ha
      cases hst
      exact h.resolve hc ha
    · rename_i ha a hc hargs
      cases hst
      refine h.endCall fun iface ha' d heq => ?_
      cases heq
      have := h.call r
      simp only [hc, Arp.CallOk] at this
      obtain ⟨-, b, hb, hk⟩ := this
      rw [hargs, Option.some.injEq] at hb
      subst hb
      exact ⟨a, hargs, rfl, hk ha rfl⟩
    · cases hst
  | proceed m now =>
    have hlt : ∀ {x}, s.msgs m = some x → m < s.heard.length := by
      intro x hx
      by_contra hle
      rw [h.later m (Nat.not_lt.mp hle)] at hx
      cases hx
    simp only [Arp.step] at hst
    split at hst
    · rename_i hm
      cases hst
      exact h.flush hm
    · rename_i spa sha hm
      cases hst
      simp only [Arp.Careful] at hok
      have hmsg := h.msg m
      simp only [hm, Arp.TodoOk] at hmsg
      obtain ⟨hinv, hmsgs, hheard⟩ := h.insert now hmsg.2 fun i hi => by simpa [Arp.clean, hm, hi] using hok
      have hheld := hinv.msg m
      rw [hmsgs, hm] at hheld
      have hleft : (s.cacheInsert now spa sha).TodoOk m none := hheld.1
      rw [← hmsgs]
      exact hinv.todo (by rw [hheard]; exact hlt hm) hleft
    · cases hst

end Inv

/-! ### The queue -/

/-- One entry for each address; only an incomplete one has a datagram queued behind it, which is one for its
    address; each datagram is in one place or met one fate; and one that was transmitted went as it was to
    a hardware address that an ARP message announced for its next hop. -/
structure Sound (s : Arp n α β δ) : Prop where
  single : ∀ i j, (s.caches i).state ≠ .free → (s.caches j).state ≠ .free → (s.caches i).pa = (s.caches j).pa → i = j
  owned : ∀ i, (s.caches i).pending ≠ none → (s.caches i).state = .incomplete
  queued : ∀ i d, (s.caches i).pending = some d → ∃ r a, s.book.held (.slot i) = some r ∧ s.args r = some a ∧ a.data = d ∧
    a.pa = (s.caches i).pa
  once : ∀ r, r < s.book.accepted →
    ((∃! p, s.book.held p = some r) ∧ s.book.fates r = []) ∨ ((∀ p, s.book.held p ≠ some r) ∧ ∃ f, s.book.fates r = [f])
  right : ∀ r iface ha d, .sent iface ha d ∈ s.book.fates r → ∃ a, s.args r = some a ∧ a.data = d ∧ (a.pa, ha) ∈ s.heard

theorem Inv.sound {s : Arp n α β δ} (h : Inv s) : Sound s := by
  refine ⟨h.single, fun i hi => ?_, fun i d hd => ?_, fun r hr => h.book.open_or_met hr, h.fates⟩
  · obtain ⟨d, hd⟩ := Option.ne_none_iff_exists'.mp hi
    have := h.slot i
    simp only [Arp.SlotOk, hd] at this
    exact this.1
  · have := h.slot i
    simp only [Arp.SlotOk, hd] at this
    exact this.2.2

theorem queue_sound [DecidableEq α] [Zero α] [Zero β] (s : Arp n α β δ) (hr : Reach Arp.step Arp.Careful Arp.start s) : Sound s :=
  (hr.inv (I := Inv) inv_start fun _ _ _ h hok hst => h.step hok hst).sound

/-- 7 is asked for, answers, and gets the datagram that waited. -/
def answered : List (Event ℕ ℕ ℕ) :=
  [.output ⟨0, 7, 42⟩, .next 0 1 true, .next 0 2 true, .input 3 7 70 true, .proceed 0 4]

theorem queue_sound_answered : ∃ s : Arp 32 ℕ ℕ ℕ, Reach Arp.step Arp.Careful Arp.start s ∧
    s.book.fates 0 = [.sent 0 70 42] ∧ Sound s := by
  have hrun : (Schemes.runIf Arp.step (fun s e => decide (s.Careful e)) (Arp.start : Arp 32 ℕ ℕ ℕ) answered).map
      (fun s => s.book.fates 0) = some [.sent 0 70 42] := by
    decide +kernel
  obtain ⟨s, hs, hfate⟩ := Option.map_eq_some_iff.mp hrun
  have hreach := Schemes.reach_of_runIf hs fun _ _ h => of_decide_eq_true h
  exact ⟨s, hreach, hfate, queue_sound s hreach⟩

/-- A message of 7 finds no entry; an output makes one and queues behind it, before the message makes the
    entry RESOLVED. -/
def gap : List (Event ℕ ℕ ℕ) :=
  [.input 1 7 70 true, .output ⟨0, 7, 42⟩, .next 0 2 true, .next 0 3 true, .proceed 0 4]

theorem datagram_stranded : ∃ s : Arp 32 ℕ ℕ ℕ, Reach Arp.step Free Arp.start s ∧ (s.caches 0).state = .resolved ∧
    (s.caches 0).pending = some 42 ∧ ¬Sound s := by
  have hrun : (Schemes.runOps Arp.step (Arp.start : Arp 32 ℕ ℕ ℕ) gap).map
      (fun s => ((s.caches 0).state, (s.caches 0).pending)) = some (.resolved, some 42) := by
    decide +kernel
  obtain ⟨s, hs, hfacts⟩ := Option.map_eq_some_iff.mp hrun
  simp only [Prod.mk.injEq] at hfacts
  obtain ⟨hst, hp⟩ := hfacts
  refine ⟨s, Schemes.reach_of_runOps hs, hst, hp, fun h => ?_⟩
  have := h.owned 0 (by simp [hp])
  simp [hst] at this

end EwokOS.Net.Neigh
