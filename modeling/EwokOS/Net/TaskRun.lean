import EwokOS.Net.TaskLife

/-! When a socket id goes back to the stack.

    Who closes a socket took it from its task first (`task_detach_sock`), and waits for the others that
    entered with it; the wait of `release_task` hands the rest to the last of them, and the wait of
    `SOCK_CLOSE` just ends.

        task ──▶ closer (waits) ──▶ closed        task ──▶ closer ──▶ dead task ──▶ last one out ──▶ closed -/

namespace EwokOS.Net.Netd

open Schemes (Reach Free)

variable {ω : Type}

/-! ### The conditions -/

namespace Daemon
variable (s : Daemon ω)

/-- An id that `SOCK_ACCEPT` gave out, open and not linked yet. -/
def Fresh (id : ℤ) : Prop :=
  s.used id = true ∧ (s.past.accepted (s.life id)).isSome = true ∧ s.past.linked (s.life id) = none

/-- The step is no `SOCK_LINK` to an id of the table that is not fresh from `SOCK_ACCEPT`, and no
    `SOCK_CLOSE` that gives up its wait while another operation goes by the id. -/
def Careful : Event ω → Prop
  | .run w _ =>
    match s.pc w with
    | .serving (.sockLink id) _ _ _ => inTable id → s.Fresh id
    | .draining _ old i => i < drainPollMax ∨ ∀ v n, (s.pc v).snapshot ≠ some (n, old)
    | _ => True
  | _ => True

/-- Nobody loses a socket under its hands, and no task is lost or freed under anybody. -/
structure Sound : Prop where
  /-- The slot that an operation goes by still holds the socket of its snapshot. -/
  snapshot : ∀ w n r, (s.pc w).snapshot = some (n, r) → inTable r.id → s.Holds r
  /-- Who is about to close a socket is the first to. -/
  held : ∀ w, inTable (s.pc w).held.id → s.Holds (s.pc w).held ∧ s.past.closes (s.pc w).held.life = 0
  closes : ∀ i, s.past.closes i ≤ 1
  /-- The task somebody works on, or finds on the list, is allocated. -/
  works : ∀ w n, (s.pc w).node = some n → ∃ t, s.task n = some t
  list : ∀ n ∈ s.list, ∃ t, s.task n = some t
  freed : ∀ n, s.past.freed n ≤ 1
  /-- A freed task stays freed, and was freed with nobody in an operation on it. -/
  gone : ∀ n, s.past.freed n = 1 → s.task n = none ∧ ∀ w, (s.pc w).node ≠ some n
  /-- A task that lost its last reference is freed, or somebody is there to do it. -/
  last : ∀ n, 0 < n → n < s.nodes → s.past.freed n = 1 ∨ ∃ t, s.task n = some t ∧
    (0 < t.refs ∨ (∃ w, (s.pc w).tears = some n) ∨ t.dead = true ∧ ∃ w, (s.pc w).op = some n)

end Daemon

/-! ### Who has a socket -/

/-- Who has a socket in hand. -/
inductive Owner (ω : Type) where
  | task (n : ℕ)
  /-- `fin_sock` of a dead task. -/
  | fin (n : ℕ)
  | closer (w : ω)
  | opener (w : ω)
  /-- The client that accepted it. -/
  | accepted
  /-- Nobody: its task was bound to another one. -/
  | lost
  | closed

/-- What the last operation out of a dead task has to close. -/
def Task.fin (t : Task) : Ref := if t.dead = true ∧ 0 < t.inflight then t.finSock else .unbound

/-- What they have in hand. -/
def Daemon.hand (s : Daemon ω) : Owner ω → Ref
  | .task n => (s.task n).elim .unbound Task.sock
  | .fin n => (s.task n).elim .unbound Task.fin
  | .closer w => (s.pc w).held
  | .opener w => (s.pc w).got
  | .accepted | .lost | .closed => .unbound

theorem Daemon.hand_setTask {s : Daemon ω} {n : ℕ} {t c : Task} (ht : s.task n = some t) (hsock : c.sock = t.sock)
    (hfin : c.fin = t.fin) (x : Owner ω) : (s.setTask n c).hand x = s.hand x := by
  cases x with
  | task m =>
    by_cases hm : m = n
    · subst hm
      simp [hand, setTask, ht, hsock]
    · simp [hand, setTask, hm]
  | fin m =>
    by_cases hm : m = n
    · subst hm
      simp [hand, setTask, ht, hfin]
    · simp [hand, setTask, hm]
  | closer v => rfl
  | opener v => rfl
  | accepted => rfl
  | lost => rfl
  | closed => rfl

/-- Whose a socket may be while an operation on `n` goes by it: a closer still waits for the operation. -/
def Daemon.Guards (s : Daemon ω) (n : ℕ) (r : Ref) : Owner ω → Prop
  | .task m | .fin m => m = n
  | .closer w => (s.pc w).drains = some n ∧ (s.pc w).held = r
  | .lost => True
  | .opener _ | .accepted | .closed => False

theorem not_inTable_unbound : ¬ inTable Ref.unbound.id := by simp [inTable, Ref.unbound]

structure Slots (s : Daemon ω) : Prop where
  lives : ∀ k, s.used k = true → s.life k < s.past.lives
  apart : ∀ j k, s.used j = true → s.used k = true → s.life j = s.life k → j = k
  closes : ∀ i, s.past.closes i ≤ 1
  unclosed : ∀ k, s.used k = true → s.past.closes (s.life k) = 0
  fresh : ∀ i, s.past.lives ≤ i → s.past.closes i = 0 ∧ s.past.accepted i = none

structure Owned (s : Daemon ω) (owner : ℕ → Owner ω) : Prop where
  slots : Slots s
  hand : ∀ x, inTable (s.hand x).id → s.Holds (s.hand x) ∧ owner (s.hand x).life = x
  accepted : ∀ k, s.Fresh k → owner (s.life k) = .accepted
  snapshot : ∀ w n r, (s.pc w).snapshot = some (n, r) → inTable r.id → s.Holds r ∧ s.Guards n r (owner r.life)

/-- The stack's slots, and what is remembered of the sockets in them, are the same. -/
def SameSlots (u s : Daemon ω) : Prop :=
  u.used = s.used ∧ u.life = s.life ∧ u.past.lives = s.past.lives ∧ u.past.accepted = s.past.accepted ∧
    u.past.closes = s.past.closes

namespace Slots
variable {s u : Daemon ω}

theorem same (h : Slots s) (hsame : SameSlots u s) : Slots u := by
  obtain ⟨h1, h2, h3, h4, h5⟩ := hsame
  exact ⟨by simpa only [h1, h2, h3] using h.lives, by simpa only [h1, h2] using h.apart, by simpa only [h5] using h.closes,
    by simpa only [h1, h2, h5] using h.unclosed, by simpa only [h3, h4, h5] using h.fresh⟩

end Slots

namespace Owned
variable {s u : Daemon ω} {owner : ℕ → Owner ω}

theorem start : Owned (Daemon.start : Daemon ω) fun _ => .lost := by
  refine ⟨⟨?_, ?_, ?_, ?_, ?_⟩, ?_, ?_, ?_⟩
  · intro k hk
    simp [Daemon.start] at hk
  · intro j k hj
    simp [Daemon.start] at hj
  · intro i
    simp [Daemon.start]
  · intro k hk
    simp [Daemon.start] at hk
  · intro i _
    simp [Daemon.start]
  · intro x hx
    cases x <;> exact absurd hx not_inTable_unbound
  · rintro k ⟨hk, -⟩
    simp [Daemon.start] at hk
  · intro w n r hw
    simp [Daemon.start, Pc.snapshot] at hw

/-- Of two that have a socket in hand, one does. -/
theorem hand_ne (h : Owned s owner) {x y : Owner ω} (hx : inTable (s.hand x).id) (hy : inTable (s.hand y).id) (hne : x ≠ y) :
    (s.hand x).life ≠ (s.hand y).life := by
  intro he
  have := (h.hand x hx).2
  rw [he, (h.hand y hy).2] at this
  exact hne this.symm

/-- The one in whose hands a socket is, and not the client that accepted it. -/
theorem fresh_ne (h : Owned s owner) {x : Owner ω} (hx : inTable (s.hand x).id) {k : ℤ} (hk : s.Fresh k) :
    s.life k ≠ (s.hand x).life := by
  intro he
  have ho := (h.hand x hx).2
  rw [← he, h.accepted k hk] at ho
  subst ho
  exact not_inTable_unbound hx

/-- Nobody has a socket in hand that was not there, and nobody stops waiting for an operation. -/
theorem same (h : Owned s owner) (hsame : SameSlots u s) (hlinked : u.past.linked = s.past.linked)
    (hhand : ∀ x, inTable (u.hand x).id → u.hand x = s.hand x)
    (hsnap : ∀ v n r, (u.pc v).snapshot = some (n, r) → inTable r.id → (s.pc v).snapshot = some (n, r) ∨ s.hand (.task n) = r)
    (hdrain : ∀ v n r, (s.pc v).drains = some n → (s.pc v).held = r → inTable r.id →
      ((u.pc v).drains = some n ∧ (u.pc v).held = r) ∨ ∀ v', (s.pc v').snapshot ≠ some (n, r)) : Owned u owner := by
  obtain ⟨h1, h2, h3, h4, h5⟩ := hsame
  have hholds : ∀ r, u.Holds r ↔ s.Holds r := fun r => by simp only [Daemon.Holds, h1, h2]
  refine ⟨h.slots.same ⟨h1, h2, h3, h4, h5⟩, fun x hx => ?_, fun k hk => ?_, fun v n r hv hr => ?_⟩
  · have he := hhand x hx
    rw [he] at hx ⊢
    rw [hholds]
    exact h.hand x hx
  · simp only [Daemon.Fresh, h1, h2, h4, hlinked] at hk
    rw [h2]
    exact h.accepted k hk
  · rw [hholds]
    rcases hsnap v n r hv hr with hv | he
    · obtain ⟨hh, hg⟩ := h.snapshot v n r hv hr
      refine ⟨hh, ?_⟩
      cases ho : owner r.life <;> rw [ho] at hg
      · exact hg
      · exact hg
      · rename_i v'
        rcases hdrain v' n r hg.1 hg.2 hr with hd | hd
        · exact hd
        · exact absurd hv (hd v)
      all_goals exact hg
    · subst he
      obtain ⟨hh, ho⟩ := h.hand _ hr
      exact ⟨hh, by rw [ho]; rfl⟩

/-- A socket that was `a`'s comes to `b`, who loses the one he had. -/
theorem give (h : Owned s owner) {a b : Owner ω} {r : Ref} (hr : inTable r.id → s.Holds r ∧ owner r.life = a)
    (hsame : SameSlots u s) (hfresh : ∀ k, u.Fresh k → s.Fresh k ∧ (inTable r.id → s.life k ≠ r.life))
    (hhand : ∀ x, inTable (u.hand x).id → (x ≠ a ∧ x ≠ b ∧ u.hand x = s.hand x) ∨ (x = b ∧ u.hand x = r))
    (hguard : ∀ v n, (u.pc v).snapshot = some (n, r) → s.Guards n r a → u.Guards n r b)
    (hsnap : ∀ v n r, (u.pc v).snapshot = some (n, r) → inTable r.id → (s.pc v).snapshot = some (n, r))
    (hdrain : ∀ v n r', r' ≠ r → (s.pc v).drains = some n → (s.pc v).held = r' →
      (u.pc v).drains = some n ∧ (u.pc v).held = r') :
    ∃ owner', Owned u owner' := by
  classical
  have hsl := hsame
  obtain ⟨h1, h2, h3, h4, h5⟩ := hsame
  have hholds : ∀ r, u.Holds r ↔ s.Holds r := fun r => by simp only [Daemon.Holds, h1, h2]
  refine ⟨fun i => if inTable r.id ∧ i = r.life then b else if inTable (s.hand b).id ∧ i = (s.hand b).life then .lost
    else owner i, h.slots.same hsl, fun x hx => ?_, fun k hk => ?_, fun v n r' hv hr' => ?_⟩
  · rcases hhand x hx with ⟨hxa, hxb, he⟩ | ⟨rfl, he⟩
    · rw [he] at hx ⊢
      obtain ⟨hh, ho⟩ := h.hand x hx
      refine ⟨(hholds _).mpr hh, ?_⟩
      rw [if_neg, if_neg]
      · exact ho
      · rintro ⟨hb, hl⟩
        exact h.hand_ne hx hb hxb hl
      · rintro ⟨hb, hl⟩
        rw [hl, (hr hb).2] at ho
        exact hxa ho.symm
    · rw [he] at hx ⊢
      exact ⟨(hholds _).mpr (hr hx).1, if_pos ⟨hx, rfl⟩⟩
  · obtain ⟨hk, hne⟩ := hfresh k hk
    rw [h2, if_neg fun hc => hne hc.1 hc.2, if_neg]
    · exact h.accepted k hk
    · rintro ⟨hb, hl⟩
      have ho := (h.hand b hb).2
      rw [← hl, h.accepted k hk] at ho
      subst ho
      exact not_inTable_unbound hb
  · rw [hholds]
    obtain ⟨hh, hg⟩ := h.snapshot v n r' (hsnap v n r' hv hr') hr'
    refine ⟨hh, ?_⟩
    by_cases hl : inTable r.id ∧ r'.life = r.life
    · -- the socket itself
      rw [if_pos hl]
      obtain ⟨hh', ho⟩ := hr hl.1
      have hid : r'.id = r.id := h.slots.apart _ _ hh.1 hh'.1 (by rw [hh.2, hh'.2, hl.2])
      have he : r' = r := by
        cases r'
        cases r
        simp_all
      subst he
      rw [ho] at hg
      exact hguard v n hv hg
    rw [if_neg hl]
    by_cases hb : inTable (s.hand b).id ∧ r'.life = (s.hand b).life
    · rw [if_pos hb]
      trivial
    rw [if_neg hb]
    cases ho : owner r'.life <;> rw [ho] at hg
    · exact hg
    · exact hg
    · rename_i v'
      exact hdrain v' n r' (fun he => hl ⟨he ▸ hr', he ▸ rfl⟩) hg.1 hg.2
    all_goals exact hg

/-- `b` gets a new socket in slot `k`. -/
theorem take (h : Owned s owner) {b : Owner ω} {k : ℤ} (hk : s.used k = false) (hused : u.used = Function.update s.used k true)
    (hlife : u.life = Function.update s.life k s.past.lives) (hlives : u.past.lives = s.past.lives + 1)
    (hcloses : u.past.closes = s.past.closes) (hlinked : u.past.linked = s.past.linked)
    (haccepted : ∀ i, i ≠ s.past.lives → u.past.accepted i = s.past.accepted i)
    (hb : (u.past.accepted s.past.lives).isSome = true → b = .accepted)
    (hhand : ∀ x, inTable (u.hand x).id → u.hand x = s.hand x ∨ (x = b ∧ u.hand x = ⟨k, s.past.lives⟩))
    (hsnap : ∀ v n r, (u.pc v).snapshot = some (n, r) → inTable r.id → (s.pc v).snapshot = some (n, r))
    (hdrain : ∀ v n, (s.pc v).drains = some n → (u.pc v).drains = some n ∧ (u.pc v).held = (s.pc v).held) :
    ∃ owner', Owned u owner' := by
  have hne : ∀ j, s.used j = true → j ≠ k := by
    rintro j hj rfl
    rw [hk] at hj
    cases hj
  have hold : ∀ r, s.Holds r → u.Holds r ∧ r.life ≠ s.past.lives := by
    rintro r ⟨h1, h2⟩
    refine ⟨?_, ?_⟩
    · simpa only [Daemon.Holds, hused, hlife, Function.update_of_ne (hne _ h1)] using ⟨h1, h2⟩
    · rw [← h2]
      exact Nat.ne_of_lt (h.slots.lives _ h1)
  have hcase : ∀ j, u.used j = true → (j = k ∧ u.life j = s.past.lives) ∨ (s.used j = true ∧ u.life j = s.life j) := by
    intro j hj
    by_cases hjk : j = k
    · subst hjk
      exact Or.inl ⟨rfl, by simp [hlife]⟩
    · rw [hused, Function.update_of_ne hjk] at hj
      exact Or.inr ⟨hj, by simp [hlife, hjk]⟩
  refine ⟨Function.update owner s.past.lives b, ⟨fun j hj => ?_, fun j j' hj hj' he => ?_, ?_, fun j hj => ?_, fun i hi => ?_⟩,
    fun x hx => ?_, fun j hj => ?_, fun v n r hv hr => ?_⟩
  · rw [hlives]
    rcases hcase j hj with ⟨-, hl⟩ | ⟨hj, hl⟩
    · rw [hl]
      exact Nat.lt_succ_self _
    · rw [hl]
      exact Nat.lt_succ_of_lt (h.slots.lives j hj)
  · rcases hcase j hj with ⟨rfl, hl⟩ | ⟨hj, hl⟩ <;> rcases hcase j' hj' with ⟨rfl, hl'⟩ | ⟨hj', hl'⟩
    · rfl
    · rw [hl, hl'] at he
      exact absurd he (Nat.ne_of_gt (h.slots.lives j' hj'))
    · rw [hl, hl'] at he
      exact absurd he (Nat.ne_of_lt (h.slots.lives j hj))
    · exact h.slots.apart j j' hj hj' (by rw [← hl, ← hl', he])
  · rw [hcloses]
    exact h.slots.closes
  · rw [hcloses]
    rcases hcase j hj with ⟨-, hl⟩ | ⟨hj, hl⟩
    · rw [hl]
      exact (h.slots.fresh _ (Nat.le_refl _)).1
    · rw [hl]
      exact h.slots.unclosed j hj
  · rw [hlives] at hi
    rw [hcloses, haccepted i (Nat.ne_of_gt hi)]
    exact h.slots.fresh i (Nat.le_of_succ_le hi)
  · rcases hhand x hx with he | ⟨rfl, he⟩
    · rw [he] at hx ⊢
      obtain ⟨hh, ho⟩ := h.hand x hx
      exact ⟨(hold _ hh).1, by rw [Function.update_of_ne (hold _ hh).2, ho]⟩
    · rw [he]
      exact ⟨by simp [Daemon.Holds, hused, hlife], by simp⟩
  · obtain ⟨hj, hacc, hlink⟩ := hj
    rcases hcase j hj with ⟨-, hl⟩ | ⟨hj, hl⟩
    · rw [hl] at hacc
      rw [hl, Function.update_self, hb hacc]
    · have hlt := Nat.ne_of_lt (h.slots.lives j hj)
      rw [hl, Function.update_of_ne hlt]
      rw [hl] at hacc hlink
      exact h.accepted j ⟨hj, by rwa [← haccepted _ hlt], by rwa [← hlinked]⟩
  · obtain ⟨hh, hg⟩ := h.snapshot v n r (hsnap v n r hv hr) hr
    refine ⟨(hold r hh).1, ?_⟩
    rw [Function.update_of_ne (hold r hh).2]
    cases ho : owner r.life <;> rw [ho] at hg
    · exact hg
    · exact hg
    · obtain ⟨h1, h2⟩ := hdrain _ n hg.1
      exact ⟨h1, h2.trans hg.2⟩
    all_goals exact hg

/-- A closer that waits for nobody closes its socket. -/
theorem close (h : Owned s owner) {w : ω} {r : Ref} (hheld : (s.pc w).held = r) (hdone : (s.pc w).drains = none)
    (htab : inTable r.id) (hused : u.used = Function.update s.used r.id false) (hlife : u.life = s.life)
    (hlives : u.past.lives = s.past.lives) (haccepted : u.past.accepted = s.past.accepted) (hlinked : u.past.linked = s.past.linked)
    (hcloses : u.past.closes = Function.update s.past.closes r.life (s.past.closes r.life + 1))
    (hhand : ∀ x, inTable (u.hand x).id → x ≠ .closer w ∧ u.hand x = s.hand x)
    (hsnap : ∀ v n r, (u.pc v).snapshot = some (n, r) → inTable r.id → (s.pc v).snapshot = some (n, r))
    (hdrain : ∀ v n, (s.pc v).drains = some n → (u.pc v).drains = some n ∧ (u.pc v).held = (s.pc v).held) :
    ∃ owner', Owned u owner' := by
  have hmine : s.hand (.closer w) = r := hheld
  obtain ⟨hh, ho⟩ := h.hand (.closer w) (by rwa [hmine])
  rw [hmine] at hh ho
  have hlt : r.life < s.past.lives := by
    rw [← hh.2]
    exact h.slots.lives _ hh.1
  have hzero : s.past.closes r.life = 0 := by
    rw [← hh.2]
    exact h.slots.unclosed _ hh.1
  have hcase : ∀ j, u.used j = true → s.used j = true ∧ s.life j ≠ r.life := by
    intro j hj
    rw [hused] at hj
    have hjr : j ≠ r.id := by
      rintro rfl
      simp at hj
    rw [Function.update_of_ne hjr] at hj
    exact ⟨hj, fun he => hjr (h.slots.apart j r.id hj hh.1 (he.trans hh.2.symm))⟩
  have hholds : ∀ r', s.Holds r' → r'.life ≠ r.life → u.Holds r' := by
    rintro r' ⟨h1, h2⟩ hne
    have hid : r'.id ≠ r.id := by
      intro he
      rw [he, hh.2] at h2
      exact hne h2.symm
    simpa only [Daemon.Holds, hused, hlife, Function.update_of_ne hid] using ⟨h1, h2⟩
  refine ⟨Function.update owner r.life .closed, ⟨fun j hj => ?_, fun j j' hj hj' he => ?_, fun i => ?_, fun j hj => ?_, fun i hi => ?_⟩,
    fun x hx => ?_, fun j hj => ?_, fun v n r' hv hr' => ?_⟩
  · rw [hlife, hlives]
    exact h.slots.lives j (hcase j hj).1
  · rw [hlife] at he
    exact h.slots.apart j j' (hcase j hj).1 (hcase j' hj').1 he
  · rw [hcloses]
    by_cases hi : i = r.life
    · subst hi
      simp [hzero]
    · rw [Function.update_of_ne hi]
      exact h.slots.closes i
  · rw [hlife, hcloses, Function.update_of_ne (hcase j hj).2]
    exact h.slots.unclosed j (hcase j hj).1
  · rw [hlives] at hi
    rw [hcloses, haccepted, Function.update_of_ne (Nat.ne_of_gt (Nat.lt_of_lt_of_le hlt hi))]
    exact h.slots.fresh i hi
  · obtain ⟨hxw, he⟩ := hhand x hx
    rw [he] at hx ⊢
    obtain ⟨hhx, hox⟩ := h.hand x hx
    have hne : (s.hand x).life ≠ r.life := by
      rw [← hmine]
      exact h.hand_ne hx (by rwa [hmine]) hxw
    exact ⟨hholds _ hhx hne, by rw [Function.update_of_ne hne, hox]⟩
  · obtain ⟨hj, hacc, hlink⟩ := hj
    obtain ⟨hj, hne⟩ := hcase j hj
    rw [hlife] at hacc hlink ⊢
    rw [Function.update_of_ne hne]
    exact h.accepted j ⟨hj, by rwa [← haccepted], by rwa [← hlinked]⟩
  · obtain ⟨hh', hg⟩ := h.snapshot v n r' (hsnap v n r' hv hr') hr'
    have hne : r'.life ≠ r.life := by
      intro he
      rw [he, ho] at hg
      exact absurd (hdone.symm.trans hg.1) (by simp)
    refine ⟨hholds r' hh' hne, ?_⟩
    rw [Function.update_of_ne hne]
    cases hor : owner r'.life <;> rw [hor] at hg
    · exact hg
    · exact hg
    · obtain ⟨h1, h2⟩ := hdrain _ n hg.1
      exact ⟨h1, h2.trans hg.2⟩
    all_goals exact hg

/-- A reference is counted, or not. -/
theorem touch {n : ℕ} {t c : Task} (h : Owned s owner) (ht : s.task n = some t) (hsock : c.sock = t.sock) (hfin : c.fin = t.fin) :
    Owned (s.setTask n c) owner :=
  h.same ⟨rfl, rfl, rfl, rfl, rfl⟩ rfl (fun x _ => Daemon.hand_setTask ht hsock hfin x) (fun _ _ _ hv _ => Or.inl hv)
    fun _ _ _ h1 h2 _ => Or.inl ⟨h1, h2⟩

end Owned

/-! ### The steps -/

theorem Daemon.freeSlot_spec {s : Daemon ω} {k : ℤ} (hk : s.freeSlot = some k) : inTable k ∧ s.used k = false := by
  obtain ⟨j, hj, rfl⟩ := Option.map_eq_some_iff.mp hk
  have hmem := List.mem_of_find?_eq_some hj
  have hfree := List.find?_some hj
  simp only [List.mem_range] at hmem
  exact ⟨⟨by omega, by omega⟩, by simpa using hfree⟩

variable [DecidableEq ω]

namespace Daemon
variable {s u : Daemon ω} {w : ω} {n : ℕ} {t c : Task} {b : Pc}

/-- What is in hand after a step of `w` on task `n`. -/
theorem hand_cases (htask : u.task = Function.update s.task n (some c)) (hpc : u.pc = Function.update s.pc w b) (x : Owner ω) :
    (x = .task n ∧ u.hand x = c.sock) ∨ (x = .fin n ∧ u.hand x = c.fin) ∨ (x = .closer w ∧ u.hand x = b.held) ∨
      (x = .opener w ∧ u.hand x = b.got) ∨
      (x ≠ .task n ∧ x ≠ .fin n ∧ x ≠ .closer w ∧ x ≠ .opener w ∧ u.hand x = s.hand x) := by
  cases x with
  | task m =>
    by_cases hm : m = n
    · subst hm
      simp [hand, htask]
    · simp [hand, htask, hm]
  | fin m =>
    by_cases hm : m = n
    · subst hm
      simp [hand, htask]
    · simp [hand, htask, hm]
  | closer v =>
    by_cases hv : v = w
    · subst hv
      simp [hand, hpc]
    · simp [hand, hpc, hv]
  | opener v =>
    by_cases hv : v = w
    · subst hv
      simp [hand, hpc]
    · simp [hand, hpc, hv]
  | accepted => simp [hand]
  | lost => simp [hand]
  | closed => simp [hand]

/-- What is in hand after a step of `w` that leaves the tasks alone. -/
theorem hand_cases_pc (htask : u.task = s.task) (hpc : u.pc = Function.update s.pc w b) (x : Owner ω) :
    (x = .closer w ∧ u.hand x = b.held) ∨ (x = .opener w ∧ u.hand x = b.got) ∨
      (x ≠ .closer w ∧ x ≠ .opener w ∧ u.hand x = s.hand x) := by
  cases x with
  | task m => simp [hand, htask]
  | fin m => simp [hand, htask]
  | closer v =>
    by_cases hv : v = w
    · subst hv
      simp [hand, hpc]
    · simp [hand, hpc, hv]
  | opener v =>
    by_cases hv : v = w
    · subst hv
      simp [hand, hpc]
    · simp [hand, hpc, hv]
  | accepted => simp [hand]
  | lost => simp [hand]
  | closed => simp [hand]

theorem pc_cases (hpc : u.pc = Function.update s.pc w b) (v : ω) : (v = w ∧ u.pc v = b) ∨ (v ≠ w ∧ u.pc v = s.pc v) := by
  rw [hpc]
  by_cases hv : v = w
  · subst hv
    simp
  · simp [hv]

end Daemon

namespace Owned
variable {s u : Daemon ω} {owner : ℕ → Owner ω} {w : ω} {n : ℕ} {t c : Task} {p b : Pc}

/-- A worker goes on with what it has, or drops what is no id. -/
theorem stay (h : Owned s owner) (hp : s.pc w = p) (ht : s.task n = some t) (htask : u.task = Function.update s.task n (some c))
    (hpc : u.pc = Function.update s.pc w b) (hsame : SameSlots u s) (hlinked : u.past.linked = s.past.linked)
    (hsock : inTable c.sock.id → c.sock = t.sock) (hfin : inTable c.fin.id → c.fin = t.fin)
    (hheld : inTable b.held.id → b.held = p.held) (hgot : inTable b.got.id → b.got = p.got)
    (hsnap : ∀ m r, b.snapshot = some (m, r) → p.snapshot = some (m, r) ∨ (m = n ∧ r = t.sock))
    (hdrain : ∀ m, p.drains = some m → (b.drains = some m ∧ b.held = p.held) ∨ ∀ v, (s.pc v).snapshot ≠ some (m, p.held)) :
    Owned u owner := by
  subst hp
  refine h.same hsame hlinked (fun x hx => ?_) (fun v m r hv hr => ?_) fun v m r hv hr htab => ?_
  · rcases Daemon.hand_cases htask hpc x with ⟨rfl, he⟩ | ⟨rfl, he⟩ | ⟨rfl, he⟩ | ⟨rfl, he⟩ | ⟨-, -, -, -, he⟩
    · rw [he] at hx ⊢
      rw [hsock hx]
      simp [Daemon.hand, ht]
    · rw [he] at hx ⊢
      rw [hfin hx]
      simp [Daemon.hand, ht]
    · rw [he] at hx ⊢
      simp [Daemon.hand, hheld hx]
    · rw [he] at hx ⊢
      simp [Daemon.hand, hgot hx]
    · exact he
  · rw [hpc] at hv
    by_cases hvw : v = w
    · subst hvw
      rw [Function.update_self] at hv
      rcases hsnap m r hv with hs | ⟨rfl, rfl⟩
      · exact Or.inl hs
      · exact Or.inr (by simp [Daemon.hand, ht])
    · exact Or.inl (by simpa [hvw] using hv)
  · rw [hpc]
    by_cases hvw : v = w
    · subst hvw
      subst hr
      rw [Function.update_self]
      exact (hdrain m hv).imp_left fun ⟨h1, h2⟩ => ⟨h1, h2⟩
    · simp [hvw, hv, hr]

theorem networkOpen (h : Owned s owner) (hu : s.step .networkOpen = some u) : Owned u owner := by
  cases hu
  refine h.same ⟨rfl, rfl, rfl, rfl, rfl⟩ rfl (fun x hx => ?_) (fun _ _ _ hv _ => Or.inl hv) fun _ _ _ h1 h2 _ => Or.inl ⟨h1, h2⟩
  cases x with
  | task m =>
    by_cases hm : m = s.nodes
    · subst hm
      exact absurd (by simpa [Daemon.hand] using hx) not_inTable_unbound
    · simp [Daemon.hand, hm]
  | fin m =>
    by_cases hm : m = s.nodes
    · subst hm
      exact absurd (by simpa [Daemon.hand, Task.fin] using hx) not_inTable_unbound
    · simp [Daemon.hand, hm]
  | closer v => rfl
  | opener v => rfl
  | accepted => rfl
  | lost => rfl
  | closed => rfl

theorem networkDup (h : Owned s owner) (hu : s.step (.networkDup n) = some u) : Owned u owner := by
  simp only [Daemon.step] at hu
  split at hu
  · rename_i t hf
    cases hu
    split
    · exact h
    · exact h.touch (Life.of_findLive_task hf) rfl rfl
  · cases hu
    exact h

theorem networkClose (h : Owned s owner) (hu : s.step (.networkClose w n) = some u) : Owned u owner := by
  simp only [Daemon.step, Option.ite_none_right_eq_some] at hu
  obtain ⟨hidle, hu⟩ := hu
  split at hu
  · rename_i t hf
    have ht := Life.of_findLive_task hf
    cases hu
    split
    · simp only [Daemon.networkClose]
      split
      · exact h.stay (c := { t with refs := 0, closing := true }) hidle ht rfl rfl ⟨rfl, rfl, rfl, rfl, rfl⟩ rfl (fun _ => rfl)
          (fun _ => rfl) (fun _ => rfl) (fun _ => rfl) (by intros; contradiction) (by intros; contradiction)
      · exact h.touch ht rfl rfl
    · exact h
  · cases hu
    exact h

theorem request {req : Req} {pid : ℕ} (h : Owned s owner) (hl : ∀ n t, s.findLive n = some t → t.closing = false → t.dead = false)
    (hu : s.step (.request w req n pid) = some u) : Owned u owner := by
  simp only [Daemon.step, Option.ite_none_right_eq_some] at hu
  obtain ⟨hidle, hu⟩ := hu
  split at hu
  · rename_i t hf
    have ht := Life.of_findLive_task hf
    cases hu
    split
    · exact h
    · rename_i hopen
      have hdead := hl n t hf (by simpa using hopen)
      refine h.stay (c := { t with inflight := t.inflight + 1 }) hidle ht rfl rfl ⟨rfl, rfl, rfl, rfl, rfl⟩ rfl (fun _ => rfl)
        (fun _ => ?_) (fun hx => absurd hx not_inTable_unbound) (fun hx => absurd hx not_inTable_unbound)
        (fun m r hs => Or.inr ?_) (by intros; contradiction)
      · simp [Task.fin, hdead]
      · simp only [Pc.snapshot, Option.some.injEq, Prod.mk.injEq] at hs
        exact ⟨hs.1.symm, hs.2.symm⟩
  · cases hu
    exact h

/-- `task_detach_sock`: the worker has the socket of its task. -/
theorem detach (h : Owned s owner) (hp : s.pc w = p) (ht : s.task n = some t)
    (hdrains : p.drains = none) (hbd : b.drains = some n) (hbh : b.held = t.sock) (hbg : b.got = .unbound) (hbs : b.snapshot = none) :
    ∃ owner', Owned ((s.detachSock n t).goto w b) owner' := by
  subst hp
  have hhand : s.hand (.task n) = t.sock := by simp [Daemon.hand, ht]
  refine h.give (a := .task n) (b := .closer w) (r := t.sock) (fun hx => ?_) ⟨rfl, rfl, rfl, rfl, rfl⟩ (fun k hk => ⟨hk, fun hx => ?_⟩)
    (fun x hx => ?_) (fun v m hv hm => ?_) (fun v m r hv _ => ?_) fun v m r hne hv hr => ?_
  · rw [← hhand] at hx ⊢
    exact h.hand _ hx
  · rw [← hhand] at hx ⊢
    exact h.fresh_ne hx hk
  · rcases Daemon.hand_cases (s := s) (u := (s.detachSock n t).goto w b) rfl rfl x with
      ⟨rfl, he⟩ | ⟨rfl, he⟩ | ⟨rfl, he⟩ | ⟨rfl, he⟩ | ⟨h1, -, h2, -, he⟩
    · rw [he] at hx
      exact absurd hx not_inTable_unbound
    · refine Or.inl ⟨nofun, nofun, ?_⟩
      rw [he]
      simp [Daemon.hand, ht, Task.fin]
    · exact Or.inr ⟨rfl, he.trans hbh⟩
    · rw [he, hbg] at hx
      exact absurd hx not_inTable_unbound
    · exact Or.inl ⟨h1, h2, he⟩
  · obtain rfl : n = m := hm
    exact ⟨by simp [Daemon.goto, hbd], by simp [Daemon.goto, hbh]⟩
  · by_cases hvw : v = w
    · subst hvw
      simp [Daemon.goto, hbs] at hv
    · simpa [Daemon.goto, Daemon.detachSock, hvw] using hv
  · by_cases hvw : v = w
    · subst hvw
      rw [hdrains] at hv
      cases hv
    · simpa [Daemon.goto, Daemon.detachSock, hvw] using ⟨hv, hr⟩

/-- `task_bind_sock`: the task has the socket `r`. -/
theorem bind (h : Owned s owner) {a : Owner ω} {r : Ref} {sock : Ref} (hp : s.pc w = p) (ht : s.task n = some t)
    (hdrains : p.drains = none) (hsnap : p.snapshot = some (n, sock))
    (htask : u.task = Function.update s.task n (some { t with sock := r })) (hpc : u.pc = Function.update s.pc w (.ending n sock))
    (hr : inTable r.id → s.Holds r ∧ owner r.life = a) (ha : a = .opener w ∨ a = .accepted)
    (hsame : SameSlots u s) (hfresh : ∀ k, u.Fresh k → s.Fresh k ∧ (inTable r.id → s.life k ≠ r.life)) : ∃ owner', Owned u owner' := by
  subst hp
  refine h.give (a := a) (b := .task n) (r := r) hr hsame hfresh (fun x hx => ?_) (fun _ m _ hm => ?_) (fun v m r' hv _ => ?_)
    fun v m r' hne hv hr' => ?_
  · rcases Daemon.hand_cases htask hpc x with ⟨rfl, he⟩ | ⟨rfl, he⟩ | ⟨rfl, he⟩ | ⟨rfl, he⟩ | ⟨h1, -, -, h2, he⟩
    · exact Or.inr ⟨rfl, he⟩
    · refine Or.inl ⟨by rcases ha with rfl | rfl <;> nofun, nofun, ?_⟩
      rw [he]
      simp [Daemon.hand, ht, Task.fin]
    · rw [he] at hx
      exact absurd hx not_inTable_unbound
    · rw [he] at hx
      exact absurd hx not_inTable_unbound
    · refine Or.inl ⟨?_, h1, he⟩
      rcases ha with rfl | rfl
      · exact h2
      · rintro rfl
        rw [he] at hx
        exact absurd hx not_inTable_unbound
  · rcases ha with rfl | rfl <;> exact hm.elim
  · rw [hpc] at hv
    by_cases hvw : v = w
    · subst hvw
      rw [Function.update_self] at hv
      exact hsnap.trans hv
    · simpa [hvw] using hv
  · rw [hpc]
    by_cases hvw : v = w
    · subst hvw
      rw [hdrains] at hv
      cases hv
    · simpa [hvw] using ⟨hv, hr'⟩

/-- A worker that leaves the tasks and the slots alone. -/
theorem keep (h : Owned s owner) (hp : s.pc w = p) (hb : u.pc = Function.update s.pc w b) (htask : u.task = s.task)
    (hsame : SameSlots u s) (hlinked : u.past.linked = s.past.linked) (hheld : inTable b.held.id → b.held = p.held)
    (hgot : inTable b.got.id → b.got = p.got) (hsnap : ∀ m r, b.snapshot = some (m, r) → inTable r.id → p.snapshot = some (m, r))
    (hdrain : ∀ m, p.drains = some m → (b.drains = some m ∧ b.held = p.held) ∨ ∀ v, (s.pc v).snapshot ≠ some (m, p.held)) :
    Owned u owner := by
  subst hp
  refine h.same hsame hlinked (fun x hx => ?_) (fun v m r hv hr => Or.inl ?_) fun v m r hv hr htab => ?_
  · rcases Daemon.hand_cases_pc htask hb x with ⟨rfl, he⟩ | ⟨rfl, he⟩ | ⟨-, -, he⟩
    · rw [he] at hx ⊢
      exact hheld hx
    · rw [he] at hx ⊢
      exact hgot hx
    · exact he
  · rcases Daemon.pc_cases hb v with ⟨rfl, he⟩ | ⟨-, he⟩ <;> rw [he] at hv
    · exact hsnap m r hv hr
    · exact hv
  · rcases Daemon.pc_cases hb v with ⟨rfl, he⟩ | ⟨-, he⟩ <;> rw [he]
    · subst hr
      exact hdrain m hv
    · exact Or.inl ⟨hv, hr⟩

/-- A worker closes the socket it has in hand. -/
theorem sockClose (h : Owned s owner) (hp : s.pc w = p) (hdrains : p.drains = none)
    (hheld : b.held = .unbound) (hgot : b.got = .unbound) (hsnap : ∀ m r, b.snapshot = some (m, r) → ¬ inTable r.id) :
    ∃ owner', Owned ((s.sockClose p.held).goto w b) owner' := by
  subst hp
  obtain ⟨htask, -, -, -, hpc⟩ := s.sockClose_frame (s.pc w).held
  have hpc' : ((s.sockClose (s.pc w).held).goto w b).pc = Function.update s.pc w b := by simp [Daemon.goto, hpc]
  have hhand := Daemon.hand_cases_pc (u := (s.sockClose (s.pc w).held).goto w b) htask hpc'
  have hcases := Daemon.pc_cases hpc'
  unfold Daemon.sockClose at hhand hcases ⊢
  split at hhand
  · rename_i htab
    rw [if_pos htab] at hcases ⊢
    refine h.close (w := w) rfl hdrains htab rfl rfl rfl rfl rfl rfl (fun x hx => ?_) (fun v m r hv hr => ?_) fun v m hv => ?_
    · rcases hhand x with ⟨rfl, he⟩ | ⟨rfl, he⟩ | ⟨h1, -, he⟩
      · rw [he, hheld] at hx
        exact absurd hx not_inTable_unbound
      · rw [he, hgot] at hx
        exact absurd hx not_inTable_unbound
      · exact ⟨h1, he⟩
    · rcases hcases v with ⟨rfl, he⟩ | ⟨-, he⟩ <;> rw [he] at hv
      · exact absurd hr (hsnap m r hv)
      · exact hv
    · rcases hcases v with ⟨rfl, he⟩ | ⟨-, he⟩
      · rw [hdrains] at hv
        cases hv
      · rw [he]
        exact ⟨hv, rfl⟩
  · rename_i htab
    rw [if_neg htab]
    refine ⟨owner, h.keep rfl rfl rfl ⟨rfl, rfl, rfl, rfl, rfl⟩ rfl (fun hx => ?_) (fun hx => ?_) (fun m r hs hr => ?_) fun m hm => ?_⟩
    · rw [hheld] at hx
      exact absurd hx not_inTable_unbound
    · rw [hgot] at hx
      exact absurd hx not_inTable_unbound
    · exact absurd hr (hsnap m r hs)
    · rw [hdrains] at hm
      cases hm

/-- A worker makes a new socket, for itself or for a client. -/
theorem make (h : Owned s owner) {o : Owner ω} {k : ℤ} (hp : s.pc w = p) (hk : s.used k = false) (htask : u.task = s.task)
    (hpc : u.pc = Function.update s.pc w b) (hused : u.used = Function.update s.used k true)
    (hlife : u.life = Function.update s.life k s.past.lives) (hlives : u.past.lives = s.past.lives + 1)
    (hcloses : u.past.closes = s.past.closes) (hlinked : u.past.linked = s.past.linked)
    (haccepted : ∀ i, i ≠ s.past.lives → u.past.accepted i = s.past.accepted i)
    (ho : (u.past.accepted s.past.lives).isSome = true → o = .accepted) (hdrains : p.drains = none)
    (hheld : b.held = .unbound) (hgot : inTable b.got.id → o = .opener w ∧ b.got = ⟨k, s.past.lives⟩)
    (hsnap : b.snapshot = p.snapshot) : ∃ owner', Owned u owner' := by
  subst hp
  refine h.take (b := o) hk hused hlife hlives hcloses hlinked haccepted ho (fun x hx => ?_) (fun v m r hv hr => ?_) fun v m hv => ?_
  · rcases Daemon.hand_cases_pc htask hpc x with ⟨rfl, he⟩ | ⟨rfl, he⟩ | ⟨-, -, he⟩
    · rw [he, hheld] at hx
      exact absurd hx not_inTable_unbound
    · rw [he] at hx ⊢
      exact Or.inr ⟨(hgot hx).1.symm, (hgot hx).2⟩
    · exact Or.inl he
  · rcases Daemon.pc_cases hpc v with ⟨rfl, he⟩ | ⟨-, he⟩ <;> rw [he] at hv
    · exact hsnap.symm.trans hv
    · exact hv
  · rcases Daemon.pc_cases hpc v with ⟨rfl, he⟩ | ⟨-, he⟩
    · rw [hdrains] at hv
      cases hv
    · rw [he]
      exact ⟨hv, rfl⟩

/-- `sock_open`: the worker has a new socket, or none. -/
theorem sockOpen {ok : Bool} {pid : ℕ} {sock : Ref} (h : Owned s owner) (hp : s.pc w = .serving .sockOpen n pid sock) :
    ∃ owner', Owned ((s.sockOpen ok n).1.goto w (.opened n sock (s.sockOpen ok n).2)) owner' := by
  unfold Daemon.sockOpen
  split
  · rename_i k hk
    have hfree := (Daemon.freeSlot_spec ((Option.ite_none_right_eq_some ..).mp hk).2).2
    refine h.make (o := .opener w) hp hfree rfl rfl rfl rfl rfl rfl rfl (fun _ _ => rfl) (fun hs => ?_) rfl rfl
      (fun _ => ⟨rfl, rfl⟩) rfl
    have hs : (s.past.accepted s.past.lives).isSome = true := hs
    rw [(h.slots.fresh _ (Nat.le_refl _)).2] at hs
    cases hs
  · exact ⟨owner, h.keep (b := .opened n sock .unbound) hp rfl rfl ⟨rfl, rfl, rfl, rfl, rfl⟩ rfl
      (fun hx => absurd hx not_inTable_unbound) (fun hx => absurd hx not_inTable_unbound) (fun _ _ hs _ => hs) nofun⟩

/-- `sock_accept`: a client has a new socket, or none. -/
theorem sockAccept {ok : Bool} {pid : ℕ} {sock : Ref} (h : Owned s owner) (hp : s.pc w = .serving .sockAccept n pid sock) :
    ∃ owner', Owned ((s.sockAccept ok pid sock).goto w (.ending n sock)) owner' := by
  unfold Daemon.sockAccept
  split
  · rename_i k hk
    have hfree := (Daemon.freeSlot_spec ((Option.ite_none_right_eq_some ..).mp hk).2).2
    exact h.make (o := .accepted) (b := .ending n sock) hp hfree rfl rfl rfl rfl rfl rfl rfl
      (fun i hi => by simp [Daemon.take, Daemon.goto, hi]) (fun _ => rfl) rfl rfl
      (fun hx => absurd hx not_inTable_unbound) rfl
  · exact ⟨owner, h.keep (b := .ending n sock) hp rfl rfl ⟨rfl, rfl, rfl, rfl, rfl⟩ rfl
      (fun hx => absurd hx not_inTable_unbound) (fun hx => absurd hx not_inTable_unbound) (fun _ _ hs _ => hs) (by intros; contradiction)⟩

/-- `task_end_op`: the last one out gets what is left to close. -/
theorem endOp {sock : Ref} {duty : ℕ → Duty ω} (h : Owned s owner) (hl : Life s duty) (hp : s.pc w = .ending n sock)
    (ht : s.task n = some t) : ∃ owner', Owned (s.endOp w n t) owner' := by
  have hcrowd := hl.crowd n t ht
  have hme : Pc.counted n (s.pc w) = true := by simp [hp, Pc.op]
  have hpos := hcrowd.pos hme
  simp only [Daemon.endOp]
  split
  · rename_i hlast
    obtain ⟨hdead, hzero⟩ := hlast
    have hfin : s.hand (.fin n) = t.finSock := by simp [Daemon.hand, ht, Task.fin, hdead, hpos]
    have hcases := Daemon.pc_cases (s := s) (u := (s.setTask n { t with inflight := t.inflight - 1 }).goto w (.finish n t.finSock))
      (w := w) rfl
    refine h.give (a := .fin n) (b := .closer w) (r := t.finSock) (fun hx => ?_) ⟨rfl, rfl, rfl, rfl, rfl⟩
      (fun k hk => ⟨hk, fun hx => ?_⟩) (fun x hx => ?_) (fun v m hv hm => ?_) (fun v m r hv _ => ?_) fun v m r hne hv hr => ?_
    · rw [← hfin] at hx ⊢
      exact h.hand _ hx
    · rw [← hfin] at hx ⊢
      exact h.fresh_ne hx hk
    · rcases Daemon.hand_cases (s := s) (u := (s.setTask n { t with inflight := t.inflight - 1 }).goto w (.finish n t.finSock))
        (c := { t with inflight := t.inflight - 1 }) rfl rfl x with
        ⟨rfl, he⟩ | ⟨rfl, he⟩ | ⟨rfl, he⟩ | ⟨rfl, he⟩ | ⟨-, h1, h2, -, he⟩
      · refine Or.inl ⟨(by simp), (by simp), ?_⟩
        rw [he]
        simp [Daemon.hand, ht]
      · rw [he] at hx
        simp only [Task.fin, hzero, Nat.lt_irrefl, and_false, if_false] at hx
        exact absurd hx not_inTable_unbound
      · exact Or.inr ⟨rfl, he⟩
      · rw [he] at hx
        exact absurd hx not_inTable_unbound
      · exact Or.inl ⟨h1, h2, he⟩
    · -- nobody else was in an operation on the task
      obtain rfl : n = m := hm
      rcases hcases v with ⟨rfl, he⟩ | ⟨hvw, he⟩ <;> rw [he] at hv
      · cases hv
      · exact absurd (hcrowd.unique (by omega) hme (by simp [Pc.op_snapshot hv])) hvw
    · rcases hcases v with ⟨rfl, he⟩ | ⟨hvw, he⟩ <;> rw [he] at hv
      · cases hv
      · exact hv
    · rcases hcases v with ⟨rfl, he⟩ | ⟨hvw, he⟩
      · rw [hp] at hv
        cases hv
      · rw [he]
        exact ⟨hv, hr⟩
  · rename_i hlast
    refine ⟨owner, h.stay (c := { t with inflight := t.inflight - 1 }) hp ht rfl rfl ⟨rfl, rfl, rfl, rfl, rfl⟩ rfl (fun _ => rfl)
      (fun hx => ?_) (fun _ => rfl) (fun _ => rfl) (by intros; contradiction) (by intros; contradiction)⟩
    simp only [Task.fin] at hx ⊢
    split at hx
    · rename_i hf
      rw [if_pos hf, if_pos ⟨hf.1, hpos⟩]
    · exact absurd hx not_inTable_unbound

/-- The second look of `release_task`: a task left to others has the socket to close. -/
theorem releaseTask {fin : Ref} {duty : ℕ → Duty ω} (h : Owned s owner) (hl : Life s duty) (hp : s.pc w = .recheck n fin)
    (ht : s.task n = some t) : ∃ owner', Owned (s.releaseTask w n t fin) owner' := by
  have hheld : s.hand (.closer w) = fin := by simp [Daemon.hand, hp, Pc.held]
  simp only [Daemon.releaseTask]
  split
  · rename_i hpos
    have hcases := Daemon.pc_cases (s := s) (u := (s.setTask n { t with dead := true, finSock := fin }).goto w .idle) (w := w) rfl
    refine h.give (a := .closer w) (b := .fin n) (r := fin) (fun hx => ?_) ⟨rfl, rfl, rfl, rfl, rfl⟩
      (fun k hk => ⟨hk, fun hx => ?_⟩) (fun x hx => ?_) (fun v m hv hm => ?_) (fun v m r hv _ => ?_) fun v m r hne hv hr => ?_
    · rw [← hheld] at hx ⊢
      exact h.hand _ hx
    · rw [← hheld] at hx ⊢
      exact h.fresh_ne hx hk
    · rcases Daemon.hand_cases (s := s) (u := (s.setTask n { t with dead := true, finSock := fin }).goto w .idle)
        (c := { t with dead := true, finSock := fin }) rfl rfl x with
        ⟨rfl, he⟩ | ⟨rfl, he⟩ | ⟨rfl, he⟩ | ⟨rfl, he⟩ | ⟨-, h1, h2, -, he⟩
      · refine Or.inl ⟨(by simp), (by simp), ?_⟩
        rw [he]
        simp [Daemon.hand, ht]
      · refine Or.inr ⟨rfl, ?_⟩
        rw [he]
        simp [Task.fin, hpos]
      · rw [he] at hx
        exact absurd hx not_inTable_unbound
      · rw [he] at hx
        exact absurd hx not_inTable_unbound
      · exact Or.inl ⟨h2, h1, he⟩
    · have hd : (s.pc w).drains = some m := hm.1
      rw [hp] at hd
      cases hd
      rfl
    · rcases hcases v with ⟨rfl, he⟩ | ⟨-, he⟩ <;> rw [he] at hv
      · cases hv
      · exact hv
    · rcases hcases v with ⟨rfl, he⟩ | ⟨-, he⟩
      · rw [hp] at hr
        exact absurd hr.symm hne
      · rw [he]
        exact ⟨hv, hr⟩
  · rename_i hzero
    exact ⟨owner, h.keep (b := .finish n fin) hp rfl rfl ⟨rfl, rfl, rfl, rfl, rfl⟩ rfl (fun _ => rfl) (fun hx => absurd hx not_inTable_unbound)
      (by intros; contradiction) fun m hm => Or.inr fun v => by cases hm; exact hl.nobody ht (by omega) v _⟩

/-- `task_destroy`. -/
theorem destroy {ok : Bool} (h : Owned s owner) (hp : s.pc w = .destroy n) (hu : s.run w ok = some u) : Owned u owner := by
  simp only [Daemon.run, hp] at hu
  cases hu
  have hkeep : Owned (s.goto w .idle) owner :=
    h.keep hp rfl rfl ⟨rfl, rfl, rfl, rfl, rfl⟩ rfl (fun hx => absurd hx not_inTable_unbound)
      (fun hx => absurd hx not_inTable_unbound) (by intros; contradiction) (by intros; contradiction)
  refine hkeep.same ⟨rfl, rfl, rfl, rfl, rfl⟩ rfl (fun x hx => ?_) (fun _ _ _ hv _ => Or.inl hv) fun _ _ _ h1 h2 _ => Or.inl ⟨h1, h2⟩
  cases x with
  | task m =>
    by_cases hm : m = n
    · subst hm
      exact absurd (by simpa [Daemon.hand, Daemon.goto] using hx) not_inTable_unbound
    · simp [Daemon.hand, Daemon.goto, hm]
  | fin m =>
    by_cases hm : m = n
    · subst hm
      exact absurd (by simpa [Daemon.hand, Daemon.goto] using hx) not_inTable_unbound
    · simp [Daemon.hand, Daemon.goto, hm]
  | closer v => rfl
  | opener v => rfl
  | accepted => rfl
  | lost => rfl
  | closed => rfl

/-- `SOCK_LINK` of an id fresh from `SOCK_ACCEPT`, or of none. -/
theorem sockLink {id : ℤ} {pid : ℕ} {sock : Ref} (h : Owned s owner) (hp : s.pc w = .serving (.sockLink id) n pid sock)
    (ht : s.task n = some t) (hfresh : inTable id → s.Fresh id) :
    ∃ owner', Owned ((s.sockLink n pid t id).goto w (.ending n sock)) owner' := by
  refine h.bind (a := .accepted) (r := s.payload id) hp ht rfl rfl rfl rfl (fun hx => ?_) (Or.inr rfl) ⟨rfl, rfl, rfl, rfl, rfl⟩
    fun k hk => ?_
  · unfold Daemon.payload at hx ⊢
    split
    · rename_i htab
      exact ⟨⟨(hfresh htab).1, rfl⟩, h.accepted id (hfresh htab)⟩
    · rename_i htab
      rw [if_neg htab] at hx
      exact absurd hx htab
  · obtain ⟨h1, h2, h3⟩ := hk
    unfold Daemon.payload
    simp only [Daemon.goto, Daemon.sockLink, Daemon.bindSock] at h1 h2 h3
    by_cases htab : inTable id
    · rw [if_pos htab] at h3 ⊢
      have hne : s.life k ≠ s.life id := by
        intro he
        rw [he, Function.update_self] at h3
        cases h3
      rw [Function.update_of_ne hne] at h3
      exact ⟨⟨h1, h2, h3⟩, fun _ => hne⟩
    · rw [if_neg htab] at h3 ⊢
      exact ⟨⟨h1, h2, h3⟩, fun hx => absurd hx htab⟩

theorem run {ok : Bool} {duty : ℕ → Duty ω} (h : Owned s owner) (hl : Life s duty) (hc : s.Careful (.run w ok)) (hu : s.run w ok = some u) :
    ∃ owner', Owned u owner' := by
  cases hp : s.pc w with
  | idle => simp [Daemon.run, hp] at hu
  | destroy n => exact ⟨owner, h.destroy hp hu⟩
  | serving req n pid sock =>
    cases req with
    | use =>
      simp only [Daemon.run, hp] at hu
      cases hu
      exact ⟨owner, h.keep hp rfl rfl ⟨rfl, rfl, rfl, rfl, rfl⟩ rfl (fun _ => rfl) (fun _ => rfl) (fun _ _ hs _ => hs) (by intros; contradiction)⟩
    | sockOpen =>
      simp only [Daemon.run, hp] at hu
      cases hu
      exact h.sockOpen hp
    | sockAccept =>
      simp only [Daemon.run, hp] at hu
      cases hu
      exact h.sockAccept hp
    | sockLink id =>
      simp only [Daemon.run, hp] at hu
      obtain ⟨t, ht, rfl⟩ := Option.map_eq_some_iff.mp hu
      have hfresh : inTable id → s.Fresh id := by simpa [Daemon.Careful, hp] using hc
      exact h.sockLink hp ht hfresh
    | sockClose =>
      simp only [Daemon.run, hp] at hu
      obtain ⟨t, ht, rfl⟩ := Option.map_eq_some_iff.mp hu
      split
      · rename_i hneg
        exact ⟨owner, h.stay (c := { t with sock := .unbound }) hp ht rfl rfl ⟨rfl, rfl, rfl, rfl, rfl⟩ rfl
          (fun hx => absurd hx not_inTable_unbound) (fun _ => rfl) (fun _ => rfl) (fun _ => rfl) (fun _ _ hs => Or.inl hs) (by intros; contradiction)⟩
      · exact h.detach hp ht rfl rfl rfl rfl rfl
  | opened n sock got =>
    simp only [Daemon.run, hp] at hu
    obtain ⟨t, ht, rfl⟩ := Option.map_eq_some_iff.mp hu
    have hgot : s.hand (.opener w) = got := by simp [Daemon.hand, hp, Pc.got]
    refine h.bind (a := .opener w) (r := got) hp ht rfl rfl rfl rfl (fun hx => ?_) (Or.inl rfl) ⟨rfl, rfl, rfl, rfl, rfl⟩
      fun k hk => ⟨hk, fun hx => ?_⟩
    · rw [← hgot] at hx ⊢
      exact h.hand _ hx
    · rw [← hgot] at hx ⊢
      exact h.fresh_ne hx hk
  | draining n old i =>
    simp only [Daemon.run, hp] at hu
    obtain ⟨t, ht, rfl⟩ := Option.map_eq_some_iff.mp hu
    split
    · exact ⟨owner, h.keep hp rfl rfl ⟨rfl, rfl, rfl, rfl, rfl⟩ rfl (fun _ => rfl) (fun _ => rfl) (by intros; contradiction) fun m hm => Or.inl ⟨hm, rfl⟩⟩
    · rename_i hdone
      refine ⟨owner, h.keep (b := .closing n old) hp rfl rfl ⟨rfl, rfl, rfl, rfl, rfl⟩ rfl (fun _ => rfl) (fun _ => rfl) (by intros; contradiction) fun m hm => Or.inr fun v hv => ?_⟩
      cases hm
      have hc : i < drainPollMax ∨ ∀ v n, (s.pc v).snapshot ≠ some (n, old) := by simpa [Daemon.Careful, hp] using hc
      rcases hc with hi | hc
      · -- the wait was over because nobody else is in an operation
        have hone : t.inflight ≤ 1 := by omega
        have hvw : v = w := (hl.crowd n t ht).unique hone (t := w) (by simp [hp, Pc.op]) (by simp [Pc.op_snapshot hv])
        subst hvw
        simp [hp, Pc.snapshot] at hv
      · exact hc v n hv
  | closing n old =>
    simp only [Daemon.run, hp] at hu
    cases hu
    refine h.sockClose (b := .ending n .unbound) hp rfl rfl rfl fun m r hs => ?_
    cases hs
    exact not_inTable_unbound
  | ending n sock =>
    simp only [Daemon.run, hp] at hu
    obtain ⟨t, ht, rfl⟩ := Option.map_eq_some_iff.mp hu
    exact h.endOp hl hp ht
  | release n =>
    simp only [Daemon.run, hp] at hu
    cases hu
    exact ⟨owner, h.keep hp rfl rfl ⟨rfl, rfl, rfl, rfl, rfl⟩ rfl (fun _ => rfl) (fun _ => rfl) (by intros; contradiction) (by intros; contradiction)⟩
  | unlisted n =>
    simp only [Daemon.run, hp] at hu
    obtain ⟨t, ht, rfl⟩ := Option.map_eq_some_iff.mp hu
    exact h.detach hp ht rfl rfl rfl rfl rfl
  | waiting n fin i =>
    simp only [Daemon.run, hp] at hu
    obtain ⟨t, ht, rfl⟩ := Option.map_eq_some_iff.mp hu
    refine ⟨owner, h.keep hp rfl rfl ⟨rfl, rfl, rfl, rfl, rfl⟩ rfl (fun _ => ?_) (fun hx => ?_) (fun m r hs => ?_) fun m hm => Or.inl ?_⟩
    · split <;> rfl
    · split <;> rfl
    · split at hs <;> cases hs
    · split <;> exact ⟨hm, rfl⟩
  | recheck n fin =>
    simp only [Daemon.run, hp] at hu
    obtain ⟨t, ht, rfl⟩ := Option.map_eq_some_iff.mp hu
    exact h.releaseTask hl hp ht
  | finish n fin =>
    simp only [Daemon.run, hp] at hu
    cases hu
    exact h.sockClose (b := .destroy n) hp rfl rfl rfl (by intros; contradiction)

theorem step {e : Event ω} {duty : ℕ → Duty ω} (h : Owned s owner) (hl : Life s duty) (hc : s.Careful e) (hu : s.step e = some u) :
    ∃ owner', Owned u owner' := by
  cases e with
  | networkOpen => exact ⟨owner, h.networkOpen hu⟩
  | networkDup n => exact ⟨owner, h.networkDup hu⟩
  | networkClose w n => exact ⟨owner, h.networkClose hu⟩
  | request w req n pid =>
    exact ⟨owner, h.request (fun n t hf hopen => hl.of_findLive_open hf hopen) hu⟩
  | run w ok => exact h.run hl hc hu

end Owned

/-! ### Teardown -/

/-- Every task has its life, and every socket its owner. -/
def Inv (s : Daemon ω) : Prop := ∃ duty owner, Life s duty ∧ Owned s owner

theorem inv_reach {s : Daemon ω} (hr : Reach Daemon.step Daemon.Careful Daemon.start s) : Inv s := by
  refine hr.inv (I := Inv) ⟨_, _, Life.start, Owned.start⟩ ?_
  rintro s e u ⟨duty, owner, hl, ho⟩ hc hu
  obtain ⟨duty', hl'⟩ := hl.step hu
  obtain ⟨owner', ho'⟩ := ho.step hl hc hu
  exact ⟨duty', owner', hl', ho'⟩

omit [DecidableEq ω] in
theorem Inv.sound {s : Daemon ω} (h : Inv s) : s.Sound := by
  obtain ⟨duty, owner, hl, ho⟩ := h
  have hfreed : ∀ n, s.past.freed n ≤ 1 := by
    intro n
    have hfits := hl.fits n
    cases hd : duty n <;> rw [hd] at hfits
    · rw [hfits.2.1]
      exact Nat.zero_le _
    · obtain ⟨t, ht, -⟩ := hfits
      rw [hl.freed n t ht]
      exact Nat.zero_le _
    · obtain ⟨-, t, ht, -⟩ := hfits
      rw [hl.freed n t ht]
      exact Nat.zero_le _
    · obtain ⟨t, ht, -⟩ := hfits
      rw [hl.freed n t ht]
      exact Nat.zero_le _
    · rw [hfits.2]
  have hgone : ∀ n, s.past.freed n = 1 → s.task n = none := by
    intro n hn
    cases ht : s.task n with
    | none => rfl
    | some t => exact absurd ((hl.freed n t ht).symm.trans hn) (by simp)
  refine ⟨fun w n r hw hr => (ho.snapshot w n r hw hr).1, fun w hw => ?_, ho.slots.closes, fun w n => hl.works, fun n hn => ?_,
    hfreed, fun n hn => ⟨hgone n hn, fun w hw => ?_⟩, fun n hpos hlt => ?_⟩
  · have hh := (ho.hand (.closer w) hw).1
    refine ⟨hh, ?_⟩
    have := ho.slots.unclosed _ hh.1
    rwa [hh.2] at this
  · have hfits := hl.fits n
    rcases hl.list n hn with hd | ⟨v, hd, -⟩ <;> rw [hd] at hfits
    · obtain ⟨t, ht, -⟩ := hfits
      exact ⟨t, ht⟩
    · obtain ⟨-, t, ht, -⟩ := hfits
      exact ⟨t, ht⟩
  · obtain ⟨t, ht⟩ := hl.works hw
    exact absurd ((hgone n hn).symm.trans ht) (by simp)
  · have hfits := hl.fits n
    cases hd : duty n <;> rw [hd] at hfits
    · have := hfits.2.2
      omega
    · obtain ⟨t, ht, -, hrefs, -⟩ := hfits
      exact Or.inr ⟨t, ht, Or.inl hrefs⟩
    · obtain ⟨htears, t, ht, -⟩ := hfits
      exact Or.inr ⟨t, ht, Or.inr (Or.inl ⟨_, htears⟩)⟩
    · obtain ⟨t, ht, -, -, hdead, hpos⟩ := hfits
      obtain ⟨w, hw⟩ := (hl.crowd n t ht).exists_of_pos hpos
      exact Or.inr ⟨t, ht, Or.inr (Or.inr ⟨hdead, w, by simpa using hw⟩)⟩
    · exact Or.inl hfits.2

theorem teardown_sound (s : Daemon ω) (hr : Reach Daemon.step Daemon.Careful Daemon.start s) : s.Sound :=
  (inv_reach hr).sound

instance (s : Daemon ω) (id : ℤ) : Decidable (s.Fresh id) := inferInstanceAs (Decidable (_ ∧ _ ∧ _))

/-- A careful step, of no wait that is given up. -/
def Daemon.prompt (s : Daemon ω) : Event ω → Bool
  | .run w _ =>
    match s.pc w with
    | .serving (.sockLink id) _ _ _ => inTable id → s.Fresh id
    | .draining _ _ i => i < drainPollMax
    | _ => true
  | _ => true

omit [DecidableEq ω] in
theorem Daemon.careful_of_prompt (s : Daemon ω) (e : Event ω) (h : s.prompt e = true) : s.Careful e := by
  cases e with
  | run w ok =>
    simp only [prompt] at h
    simp only [Careful]
    split at h <;> simp_all [Decidable.imp_iff_not_or]
  | _ => trivial

/-- A socket is opened through node 1 and used by worker 0 while worker 1 closes it; then the node is closed,
    and closed again. -/
def closed : List (Event (Fin 2)) :=
  [.networkOpen, .request 0 .sockOpen 1 7, .run 0 true, .run 0 true, .run 0 true, .request 0 .use 1 7, .request 1 .sockClose 1 7,
    .run 1 true, .run 1 true, .run 0 true, .run 0 true, .run 1 true, .run 1 true, .run 1 true, .networkClose 1 1, .networkClose 0 1,
    .run 1 true, .run 1 true, .run 1 true, .run 1 true, .run 1 true, .run 1 true, .networkClose 0 1]

theorem teardown_sound_closed : ∃ s : Daemon (Fin 2), Reach Daemon.step Daemon.Careful Daemon.start s ∧
    s.past.closes 1 = 1 ∧ s.past.freed 1 = 1 ∧ s.Sound := by
  have hrun : (Schemes.runIf Daemon.step Daemon.prompt (Daemon.start : Daemon (Fin 2)) closed).map
      (fun s => (s.past.closes 1, s.past.freed 1)) = some (1, 1) := by
    decide +kernel
  obtain ⟨s, hs, hfacts⟩ := Option.map_eq_some_iff.mp hrun
  simp only [Prod.mk.injEq] at hfacts
  have hreach := Schemes.reach_of_runIf hs Daemon.careful_of_prompt
  exact ⟨s, hreach, hfacts.1, hfacts.2, teardown_sound s hreach⟩

/-- Worker 0 stalls in a `SOCK_SEND` while worker 1 closes the socket, waits 1000 polls, gives up, and goes
    on to open another socket through node 2. -/
def stalled : List (Event (Fin 2)) :=
  [.networkOpen, .request 0 .sockOpen 1 7, .run 0 true, .run 0 true, .run 0 true, .request 0 .use 1 7, .request 1 .sockClose 1 7,
    .run 1 true] ++ List.replicate 1001 (.run 1 true) ++
  [.run 1 true, .run 1 true, .networkOpen, .request 1 .sockOpen 2 8, .run 1 true]

theorem slot_recycled : ∃ s : Daemon (Fin 2), Reach Daemon.step Free Daemon.start s ∧ (s.pc 0).snapshot = some (1, ⟨0, 1⟩) ∧
    s.sockGet 0 = some 2 ∧ ¬s.Sound := by
  have hrun : (Schemes.runOps Daemon.step (Daemon.start : Daemon (Fin 2)) stalled).map
      (fun s => ((s.pc 0).snapshot, s.sockGet 0, s.life 0)) = some (some (1, ⟨0, 1⟩), some 2, 2) := by
    decide +kernel
  obtain ⟨s, hs, hfacts⟩ := Option.map_eq_some_iff.mp hrun
  simp only [Prod.mk.injEq] at hfacts
  obtain ⟨hsnap, hget, hlife⟩ := hfacts
  refine ⟨s, Schemes.reach_of_runOps hs, hsnap, hget, fun h => ?_⟩
  have := (h.snapshot 0 1 ⟨0, 1⟩ hsnap (by decide)).2
  rw [hlife] at this
  cases this

end EwokOS.Net.Netd
