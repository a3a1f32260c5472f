import EwokOS.Net.TaskRun

/-! Which node a socket belongs to.

    A socket comes to a node by `SOCK_OPEN`, or by `SOCK_ACCEPT` at a listener and a `SOCK_LINK` of the id
    that the client was told. The id in a `SOCK_LINK` is taken as it comes, and a node that has a socket is
    bound to the next one without a look at it. -/

namespace EwokOS.Net.Netd

open Schemes (Reach Free)

variable {ω : Type}

/-- The task whose socket is off for good. -/
def Pc.detached : Pc → Option ℕ
  | .waiting n _ _ | .recheck n _ | .finish n _ | .destroy n => some n
  | .idle | .serving _ _ _ _ | .opened _ _ _ | .draining _ _ _ | .closing _ _ | .ending _ _ | .release _ | .unlisted _ => none

namespace Daemon
variable (s : Daemon ω)

/-- Opened through the node, or accepted by a process and linked to the node by it. -/
def Entitled (n i : ℕ) : Prop :=
  s.past.opened i = some n ∨ ∃ pid, s.past.accepted i = some pid ∧ s.past.linked i = some (n, pid)

/-- `release_task` took the socket off the task. -/
def Detached (n : ℕ) : Prop := (∃ w, (s.pc w).detached = some n) ∨ ∃ t, s.task n = some t ∧ t.dead = true

/-- No socket of the table is bound to the node. -/
def Unbound (n : ℕ) : Prop := ∀ t, s.task n = some t → ¬ inTable t.sock.id

/-- The step is no bind of a node that has a socket, no bind of a socket to a task that `release_task` has
    taken the socket off, and no `SOCK_LINK` of an id that was given out to another process. -/
def Proper : Event ω → Prop
  | .run w _ =>
    match s.pc w with
    | .opened n _ got => s.Unbound n ∧ (inTable got.id → ¬ s.Detached n)
    | .serving (.sockLink id) n pid _ =>
      s.Unbound n ∧ (inTable id → ¬ s.Detached n ∧ s.past.accepted (s.life id) = some pid)
    | _ => True
  | _ => True

/-- `sock_close` was called for the socket, and no slot holds it. -/
def Closed (i : ℕ) : Prop := s.past.closes i = 1 ∧ ∀ k, s.used k = true → s.life k ≠ i

/-- The socket is on its way to `sock_close`, with somebody who took it off the node. -/
def Leaving (n i : ℕ) : Prop :=
  (∃ w, (s.pc w).node = some n ∧ inTable (s.pc w).held.id ∧ (s.pc w).held.life = i) ∨
    ∃ t, s.task n = some t ∧ t.dead = true ∧ inTable t.finSock.id ∧ t.finSock.life = i

/-- Every node keeps to its sockets. -/
structure Confined : Prop where
  /-- What a request on a node finds under its id is the node's. -/
  acts : ∀ w n r i, (s.pc w).snapshot = some (n, r) → s.sockGet r.id = some i → s.Entitled n i
  /-- So is what is closed in the name of the node. -/
  closer : ∀ w n i, (s.pc w).node = some n → s.sockGet (s.pc w).held.id = some i → s.Entitled n i
  single : ∀ m n t c, s.task m = some t → s.task n = some c → inTable t.sock.id → t.sock.id = c.sock.id → m = n
  /-- `sock_to_task` has the task bound to each socket, and no other. -/
  map : ∀ k n, inTable k → (s.sockToTask k = some n ↔ ∃ t, s.task n = some t ∧ t.sock.id = k)
  /-- A socket that was bound to a node still is, or is about to be closed, or closed. -/
  bound : ∀ i n, s.past.bound i = some n → (∃ t, s.task n = some t ∧ t.sock.life = i) ∨ s.Leaving n i ∨ s.Closed i
  released : ∀ i n, s.past.bound i = some n → s.past.freed n = 1 → s.Closed i

end Daemon

/-! ### The invariant -/

/-- The node in whose name somebody has a socket to be closed, or bound. -/
def Daemon.place (s : Daemon ω) : Owner ω → Option ℕ
  | .task n | .fin n => some n
  | .closer w => (s.pc w).node
  | .opener _ | .accepted | .lost | .closed => none

structure Tied (s : Daemon ω) : Prop where
  snapshot : ∀ w n r, (s.pc w).snapshot = some (n, r) → inTable r.id → s.Entitled n r.life
  hands : ∀ x n, s.place x = some n → inTable (s.hand x).id → s.Entitled n (s.hand x).life
  opened : ∀ w n sock got, s.pc w = .opened n sock got → inTable got.id → s.past.opened got.life = some n
  bound : ∀ i n, s.past.bound i = some n →
    (∃ x, s.place x = some n ∧ inTable (s.hand x).id ∧ (s.hand x).life = i) ∨ s.past.closes i = 1

structure Mapped (s : Daemon ω) : Prop where
  map : ∀ k n, inTable k → (s.sockToTask k = some n ↔ ∃ t, s.task n = some t ∧ t.sock.id = k)
  clear : ∀ n, s.Detached n → s.Unbound n

namespace Tied
variable {s u : Daemon ω} {owner : ℕ → Owner ω}

/-- Who has a socket in hand goes on in the name of the same node, and a socket that is new in hand is the
    node's. -/
theorem move (h : Tied s) (ho : Owned s owner) (hent : ∀ n i, i < s.past.lives → s.Entitled n i → u.Entitled n i)
    (hhand : ∀ x n, u.place x = some n → inTable (u.hand x).id →
      (∃ y, s.place y = some n ∧ s.hand y = u.hand x) ∨ u.Entitled n (u.hand x).life)
    (hback : ∀ y n, s.place y = some n → inTable (s.hand y).id →
      (∃ x, u.place x = some n ∧ u.hand x = s.hand y) ∨ u.past.closes (s.hand y).life = 1)
    (hsnap : ∀ v n r, (u.pc v).snapshot = some (n, r) → inTable r.id → (s.pc v).snapshot = some (n, r) ∨ s.hand (.task n) = r)
    (hopened : ∀ v n sock got, u.pc v = .opened n sock got → inTable got.id →
      s.pc v = .opened n sock got ∨ u.past.opened got.life = some n)
    (hold : ∀ i, i < s.past.lives → u.past.opened i = s.past.opened i)
    (hbound : ∀ i n, u.past.bound i = some n → s.past.bound i = some n ∨
      ∃ x, u.place x = some n ∧ inTable (u.hand x).id ∧ (u.hand x).life = i)
    (hcloses : ∀ i, s.past.closes i = 1 → u.past.closes i = 1) : Tied u := by
  have hlt : ∀ r, s.Holds r → r.life < s.past.lives := by
    intro r hh
    rw [← hh.2]
    exact ho.slots.lives _ hh.1
  have hhands : ∀ x n, s.place x = some n → inTable (s.hand x).id → u.Entitled n (s.hand x).life := fun x n hx hr =>
    hent n _ (hlt _ (ho.hand x hr).1) (h.hands x n hx hr)
  refine ⟨fun v n r hv hr => ?_, fun x n hx hr => ?_, fun v n sock got hv hr => ?_, fun i n hi => ?_⟩
  · rcases hsnap v n r hv hr with hv | rfl
    · exact hent n _ (hlt _ (ho.snapshot v n r hv hr).1) (h.snapshot v n r hv hr)
    · exact hhands (.task n) n rfl hr
  · rcases hhand x n hx hr with ⟨y, hy, he⟩ | he
    · rw [← he] at hr ⊢
      exact hhands y n hy hr
    · exact he
  · rcases hopened v n sock got hv hr with hv | he
    · have hgot : s.hand (.opener v) = got := by simp [Daemon.hand, hv, Pc.got]
      have hh := (ho.hand (.opener v) (by rwa [hgot])).1
      rw [hgot] at hh
      rw [hold _ (hlt _ hh)]
      exact h.opened v n sock got hv hr
    · exact he
  · rcases hbound i n hi with hi | hx
    · rcases h.bound i n hi with ⟨y, hy, hr, rfl⟩ | hc
      · rcases hback y n hy hr with ⟨x, hx, he⟩ | hc
        · exact Or.inl ⟨x, hx, by rwa [he], by rw [he]⟩
        · exact Or.inr hc
      · exact Or.inr (hcloses i hc)
    · exact Or.inl hx

end Tied

/-- What task `n` and a worker on it have in hand. -/
def Daemon.Mine (s : Daemon ω) (w : ω) (n : ℕ) (r : Ref) : Prop :=
  r = s.hand (.task n) ∨ r = s.hand (.fin n) ∨ (s.pc w).node = some n ∧ r = (s.pc w).held

namespace Tied
variable {s u : Daemon ω} {owner : ℕ → Owner ω} {w : ω} {n : ℕ}

/-- A worker does something about one task. -/
theorem turn (h : Tied s) (ho : Owned s owner) (hpc : ∀ v, v ≠ w → u.pc v = s.pc v) (htask : ∀ m, m ≠ n → u.task m = s.task m)
    (hw : ∀ m, (s.pc w).node = some m → m = n) (hb : ∀ m, (u.pc w).node = some m → m = n)
    (hent : ∀ m i, i < s.past.lives → s.Entitled m i → u.Entitled m i)
    (hfwd : ∀ r, inTable r.id → u.Mine w n r → s.Mine w n r ∨ u.Entitled n r.life)
    (hback : ∀ r, inTable r.id → s.Mine w n r → u.Mine w n r ∨ u.past.closes r.life = 1)
    (hsnap : ∀ r, (u.pc w).snapshot = some (n, r) → inTable r.id → (s.pc w).snapshot = some (n, r) ∨ s.hand (.task n) = r)
    (hopened : ∀ sock got, u.pc w = .opened n sock got → inTable got.id → u.past.opened got.life = some n)
    (hold : ∀ i, i < s.past.lives → u.past.opened i = s.past.opened i)
    (hbound : ∀ i m, u.past.bound i = some m → s.past.bound i = some m ∨ (m = n ∧ ∃ r, inTable r.id ∧ r.life = i ∧ u.Mine w n r))
    (hcloses : ∀ i, s.past.closes i = 1 → u.past.closes i = 1) : Tied u := by
  have hmine : ∀ {s : Daemon ω} {r}, s.Mine w n r → ∃ x, s.place x = some n ∧ s.hand x = r := by
    rintro s r (hr | hr | ⟨hn, hr⟩)
    · exact ⟨.task n, rfl, hr.symm⟩
    · exact ⟨.fin n, rfl, hr.symm⟩
    · exact ⟨.closer w, hn, hr.symm⟩
  -- who has something in hand in the name of `m`, and does not belong to this step
  have hplace : ∀ x m, (u.place x = some m ∨ s.place x = some m) →
      (u.place x = s.place x ∧ u.hand x = s.hand x) ∨
        (m = n ∧ (u.place x = some n → u.Mine w n (u.hand x)) ∧ (s.place x = some n → s.Mine w n (s.hand x))) := by
    intro x m hx
    cases x with
    | task k =>
      obtain rfl : k = m := by rcases hx with hx | hx <;> exact Option.some.inj hx
      by_cases hk : k = n
      · exact Or.inr ⟨hk, fun _ => Or.inl (by rw [hk]), fun _ => Or.inl (by rw [hk])⟩
      · exact Or.inl ⟨rfl, by simp [Daemon.hand, htask k hk]⟩
    | fin k =>
      obtain rfl : k = m := by rcases hx with hx | hx <;> exact Option.some.inj hx
      by_cases hk : k = n
      · exact Or.inr ⟨hk, fun _ => Or.inr (Or.inl (by rw [hk])), fun _ => Or.inr (Or.inl (by rw [hk]))⟩
      · exact Or.inl ⟨rfl, by simp [Daemon.hand, htask k hk]⟩
    | closer v =>
      by_cases hv : v = w
      · subst hv
        refine Or.inr ⟨?_, fun hn => Or.inr (Or.inr ⟨hn, rfl⟩), fun hn => Or.inr (Or.inr ⟨hn, rfl⟩)⟩
        rcases hx with hx | hx
        · exact hb m hx
        · exact hw m hx
      · exact Or.inl ⟨by simp [Daemon.place, hpc v hv], by simp [Daemon.hand, hpc v hv]⟩
    | opener v => rcases hx with hx | hx <;> cases hx
    | accepted => rcases hx with hx | hx <;> cases hx
    | lost => rcases hx with hx | hx <;> cases hx
    | closed => rcases hx with hx | hx <;> cases hx
  refine h.move ho hent (fun x m hx hr => ?_) (fun y m hy hr => ?_) (fun v m r hv hr => ?_) (fun v m sock got hv hr => ?_) hold
    (fun i m hi => ?_) hcloses
  · rcases hplace x m (Or.inl hx) with ⟨hp, he⟩ | ⟨rfl, hu, -⟩
    · exact Or.inl ⟨x, hp.symm.trans hx, he.symm⟩
    · rcases hfwd _ hr (hu hx) with hm | hm
      · exact Or.inl (hmine hm)
      · exact Or.inr hm
  · rcases hplace y m (Or.inr hy) with ⟨hp, he⟩ | ⟨rfl, -, hs⟩
    · exact Or.inl ⟨y, hp.trans hy, he⟩
    · exact (hback _ hr (hs hy)).imp_left hmine
  · by_cases hvw : v = w
    · subst hvw
      obtain rfl := hb m (Pc.node_op (Pc.op_snapshot hv))
      exact hsnap r hv hr
    · rw [hpc v hvw] at hv
      exact Or.inl hv
  · by_cases hvw : v = w
    · subst hvw
      obtain rfl := hb m (by rw [hv]; rfl)
      exact Or.inr (hopened sock got hv hr)
    · rw [hpc v hvw] at hv
      exact Or.inl hv
  · rcases hbound i m hi with hi | ⟨rfl, r, hr, rfl, hm⟩
    · exact Or.inl hi
    · obtain ⟨x, hx, he⟩ := hmine hm
      exact Or.inr ⟨x, hx, by rwa [he], by rw [he]⟩

/-- Everybody has in hand what they had, and nothing is new in the books. -/
theorem same (h : Tied s) (ho : Owned s owner) (hhand : ∀ x, u.hand x = s.hand x) (hpc : u.pc = s.pc) (hpast : u.past = s.past) :
    Tied u := by
  have hplace : ∀ x, u.place x = s.place x := by
    intro x
    cases x <;> simp [Daemon.place, hpc]
  refine h.move ho (fun n i _ hi => ?_) (fun x n hx _ => Or.inl ⟨x, (hplace x).symm.trans hx, (hhand x).symm⟩)
    (fun y n hy _ => Or.inl ⟨y, (hplace y).trans hy, hhand y⟩) (fun v n r hv _ => Or.inl ?_) (fun v n sock got hv _ => Or.inl ?_)
    (fun i _ => by rw [hpast]) (fun i n hi => Or.inl ?_) fun i hi => ?_
  · simpa only [Daemon.Entitled, hpast] using hi
  · rwa [hpc] at hv
  · rwa [hpc] at hv
  · rwa [hpast] at hi
  · rwa [hpast]

/-- A worker does something about one task, and no socket comes or goes. -/
theorem quiet (h : Tied s) (ho : Owned s owner) (hpc : ∀ v, v ≠ w → u.pc v = s.pc v) (htask : ∀ m, m ≠ n → u.task m = s.task m)
    (hw : ∀ m, (s.pc w).node = some m → m = n) (hb : ∀ m, (u.pc w).node = some m → m = n)
    (hopened : u.past.opened = s.past.opened) (haccepted : u.past.accepted = s.past.accepted)
    (hlinked : u.past.linked = s.past.linked) (hbound : u.past.bound = s.past.bound) (hcloses : u.past.closes = s.past.closes)
    (hmine : ∀ r, inTable r.id → (u.Mine w n r ↔ s.Mine w n r))
    (hsnap : ∀ r, (u.pc w).snapshot = some (n, r) → inTable r.id → (s.pc w).snapshot = some (n, r) ∨ s.hand (.task n) = r)
    (hnot : ∀ sock got, u.pc w ≠ .opened n sock got) : Tied u := by
  refine h.turn ho hpc htask hw hb (fun m i _ hi => ?_) (fun r hr hm => Or.inl ((hmine r hr).mp hm))
    (fun r hr hm => Or.inl ((hmine r hr).mpr hm)) hsnap (fun sock got hv => absurd hv (hnot sock got)) (fun i _ => by rw [hopened])
    (fun i m hi => Or.inl ?_) fun i hi => ?_
  · simpa only [Daemon.Entitled, hopened, haccepted, hlinked] using hi
  · rwa [hbound] at hi
  · rwa [hcloses]

end Tied

theorem ne_unbound {r : Ref} (hr : inTable r.id) : r ≠ .unbound := by
  rintro rfl
  exact not_inTable_unbound hr

theorem Daemon.mine_iff {s : Daemon ω} {w : ω} {n : ℕ} {r : Ref} {t : Task} {p : Pc} (ht : s.task n = some t) (hp : s.pc w = p) :
    s.Mine w n r ↔ r = t.sock ∨ r = t.fin ∨ p.node = some n ∧ r = p.held := by
  simp [Mine, hand, ht, hp]

namespace Mapped
variable {s u : Daemon ω} {n : ℕ} {k : ℤ}

theorem bound_iff (hk : inTable k) : (∃ t, s.task n = some t ∧ t.sock.id = k) ↔ (s.hand (.task n)).id = k := by
  cases ht : s.task n with
  | none =>
    have : Ref.unbound.id ≠ k := by
      rintro rfl
      exact not_inTable_unbound hk
    simp [Daemon.hand, ht, this]
  | some t => simp [Daemon.hand, ht]

theorem unbound_iff : s.Unbound n ↔ ¬ inTable (s.hand (.task n)).id := by
  cases ht : s.task n with
  | none => simp [Daemon.Unbound, Daemon.hand, ht, not_inTable_unbound]
  | some t => simp [Daemon.Unbound, Daemon.hand, ht]

/-- No task is bound or taken off its socket. -/
theorem same (h : Mapped s) (hmap : u.sockToTask = s.sockToTask)
    (hhand : ∀ m, (u.hand (.task m)).id = (s.hand (.task m)).id ∨ ¬ inTable (u.hand (.task m)).id ∧ ¬ inTable (s.hand (.task m)).id)
    (hdet : ∀ m, u.Detached m → s.Detached m) : Mapped u := by
  refine ⟨fun k m hk => ?_, fun m hm => ?_⟩
  · rw [hmap, h.map k m hk, bound_iff hk, bound_iff hk]
    rcases hhand m with he | ⟨h1, h2⟩
    · rw [he]
    · constructor
      · rintro rfl
        exact absurd hk h2
      · rintro rfl
        exact absurd hk h1
  · have := unbound_iff.mp (h.clear m (hdet m hm))
    refine unbound_iff.mpr fun htab => ?_
    rcases hhand m with he | ⟨h1, -⟩
    · rw [he] at htab
      exact this htab
    · exact h1 htab

theorem touch {t c : Task} (h : Mapped s) (ht : s.task n = some t) (hsock : c.sock = t.sock) (hdead : c.dead = t.dead) :
    Mapped (s.setTask n c) := by
  refine h.same rfl (fun m => Or.inl ?_) fun m hm => ?_
  · by_cases hmn : m = n
    · subst hmn
      simp [Daemon.hand, Daemon.setTask, ht, hsock]
    · simp [Daemon.hand, Daemon.setTask, hmn]
  · refine hm.imp_right ?_
    rintro ⟨t₀, ht₀, hd⟩
    by_cases hmn : m = n
    · subst hmn
      obtain rfl : c = t₀ := by simpa [Daemon.setTask] using ht₀
      exact ⟨t, ht, hdead.symm.trans hd⟩
    · exact ⟨t₀, by simpa [Daemon.setTask, hmn] using ht₀, hd⟩

/-- The map forgets the socket of a task. -/
theorem unmap_iff {t : Task} (h : Mapped s) (ht : s.task n = some t) {k : ℤ} {m : ℕ} (hk : inTable k) :
    s.unmap n t.sock.id k = some m ↔ m ≠ n ∧ (s.hand (.task m)).id = k := by
  have hn : (s.hand (.task n)).id = t.sock.id := by simp [Daemon.hand, ht]
  have hmap : ∀ m, s.sockToTask k = some m ↔ (s.hand (.task m)).id = k := fun m => (h.map k m hk).trans (bound_iff hk)
  unfold Daemon.unmap
  split
  · rename_i hc
    by_cases hkt : k = t.sock.id
    · subst hkt
      rw [Function.update_self]
      constructor
      · intro hcon
        cases hcon
      · rintro ⟨hne, he⟩
        have := (hmap m).mpr he
        rw [hc.2, Option.some.injEq] at this
        exact absurd this.symm hne
    · rw [Function.update_of_ne hkt, hmap]
      refine ⟨fun he => ⟨?_, he⟩, fun he => he.2⟩
      rintro rfl
      exact hkt (he.symm.trans hn)
  · rename_i hc
    rw [hmap]
    refine ⟨fun he => ⟨?_, he⟩, fun he => he.2⟩
    rintro rfl
    have hkt : k = t.sock.id := he.symm.trans hn
    subst hkt
    exact hc ⟨hk, (hmap m).mpr he⟩

end Mapped

/-! ### The steps -/

variable [DecidableEq ω]

namespace Tied
variable {s u : Daemon ω} {owner : ℕ → Owner ω} {duty : ℕ → Duty ω} {w : ω} {n : ℕ} {t c : Task} {p b : Pc}

/-- A worker goes on; the books are the same, and so is what it and its task have in hand. -/
theorem stay (h : Tied s) (ho : Owned s owner) (hp : s.pc w = p) (ht : s.task n = some t)
    (htask : u.task = Function.update s.task n (some c)) (hpc : u.pc = Function.update s.pc w b)
    (hw : ∀ m, p.node = some m → m = n) (hb : ∀ m, b.node = some m → m = n)
    (hopened : u.past.opened = s.past.opened) (haccepted : u.past.accepted = s.past.accepted)
    (hlinked : u.past.linked = s.past.linked) (hbound : u.past.bound = s.past.bound) (hcloses : u.past.closes = s.past.closes)
    (hmine : ∀ r, inTable r.id → ((r = c.sock ∨ r = c.fin ∨ b.node = some n ∧ r = b.held) ↔
      (r = t.sock ∨ r = t.fin ∨ p.node = some n ∧ r = p.held)))
    (hsnap : ∀ r, b.snapshot = some (n, r) → inTable r.id → p.snapshot = some (n, r) ∨ t.sock = r)
    (hnot : ∀ sock got, b ≠ .opened n sock got) : Tied u := by
  subst hp
  have hbw : u.pc w = b := by simp [hpc]
  have ht' : u.task n = some c := by simp [htask]
  refine h.quiet (w := w) (n := n) ho (fun v hv => by simp [hpc, hv]) (fun m hm => by simp [htask, hm]) hw (by rwa [hbw])
    hopened haccepted hlinked hbound hcloses (fun r hr => ?_) (fun r hv hr => ?_) (by rwa [hbw])
  · rw [Daemon.mine_iff ht' hbw, Daemon.mine_iff ht rfl]
    exact hmine r hr
  · rw [hbw] at hv
    rcases hsnap r hv hr with hs | hs
    · exact Or.inl hs
    · exact Or.inr (by simp [Daemon.hand, ht, hs])

theorem networkOpen (h : Tied s) (ho : Owned s owner) (hl : Life s duty) (hu : s.step .networkOpen = some u) : Tied u := by
  cases hu
  have hnone : s.task s.nodes = none := by
    have hfits := hl.fits s.nodes
    rw [hl.ahead _ (Nat.le_refl _)] at hfits
    exact hfits.1
  refine h.same ho (fun x => ?_) rfl rfl
  cases x with
  | task m =>
    by_cases hm : m = s.nodes
    · subst hm
      simp [Daemon.hand, hnone]
    · simp [Daemon.hand, hm]
  | fin m =>
    by_cases hm : m = s.nodes
    · subst hm
      simp [Daemon.hand, hnone, Task.fin]
    · simp [Daemon.hand, hm]
  | closer v => rfl
  | opener v => rfl
  | accepted => rfl
  | lost => rfl
  | closed => rfl

theorem networkDup (h : Tied s) (ho : Owned s owner) (hu : s.step (.networkDup n) = some u) : Tied u := by
  simp only [Daemon.step] at hu
  split at hu
  · rename_i t hf
    cases hu
    split
    · exact h
    · exact h.same ho (Daemon.hand_setTask (Life.of_findLive_task hf) rfl rfl) rfl rfl
  · cases hu
    exact h

theorem networkClose (h : Tied s) (ho : Owned s owner) (hu : s.step (.networkClose w n) = some u) : Tied u := by
  simp only [Daemon.step, Option.ite_none_right_eq_some] at hu
  obtain ⟨hidle, hu⟩ := hu
  split at hu
  · rename_i t hf
    have ht := Life.of_findLive_task hf
    cases hu
    split
    · simp only [Daemon.networkClose]
      split
      · refine h.stay (c := { t with refs := 0, closing := true }) (b := .release n) ho hidle ht rfl rfl (by intros; contradiction)
          (fun m hm => (Option.some.inj hm).symm) rfl rfl rfl rfl rfl (fun r hr => ?_) (by intros; contradiction) (by simp)
        simp [Task.fin, Pc.node, Pc.held, ne_unbound hr]
      · exact h.same ho (Daemon.hand_setTask ht rfl rfl) rfl rfl
    · exact h
  · cases hu
    exact h

theorem request {req : Req} {pid : ℕ} (h : Tied s) (ho : Owned s owner) (hl : Life s duty)
    (hu : s.step (.request w req n pid) = some u) : Tied u := by
  simp only [Daemon.step, Option.ite_none_right_eq_some] at hu
  obtain ⟨hidle, hu⟩ := hu
  split at hu
  · rename_i t hf
    have ht := Life.of_findLive_task hf
    cases hu
    split
    · exact h
    · rename_i hopen
      have hdead := hl.of_findLive_open hf (by simpa using hopen)
      refine h.stay (c := { t with inflight := t.inflight + 1 }) (b := .serving req n pid t.sock) ho hidle ht rfl rfl (by intros; contradiction)
        (fun m hm => (Option.some.inj hm).symm) rfl rfl rfl rfl rfl (fun r hr => ?_) (fun r hs _ => Or.inr ?_) (by simp)
      · simp [Task.fin, Pc.node, Pc.held, hdead, ne_unbound hr]
      · simp only [Pc.snapshot, Option.some.injEq, Prod.mk.injEq] at hs
        exact hs.2
  · cases hu
    exact h

/-- A worker that leaves its task as it is goes on with what it had in hand. -/
theorem keep (h : Tied s) (ho : Owned s owner) (hp : s.pc w = p) (ht : s.task n = some t) (htask : u.task = s.task)
    (hpc : u.pc = Function.update s.pc w b) (hheld : p.held = b.held ∧ p.node = b.node ∨ p.held = .unbound ∧ b.held = .unbound)
    (hsnap : ∀ r, b.snapshot = some (n, r) → p.snapshot = some (n, r) := by intros; contradiction)
    (hw : ∀ m, p.node = some m → m = n := by simp [Pc.node]) (hb : ∀ m, b.node = some m → m = n := by simp [Pc.node])
    (hpast : u.past = s.past := by rfl) (hnot : ∀ sock got, b ≠ .opened n sock got := by simp) : Tied u := by
  refine h.stay ho hp ht (by rw [htask, ← ht, Function.update_eq_self]) hpc hw hb (by rw [hpast]) (by rw [hpast]) (by rw [hpast])
    (by rw [hpast]) (by rw [hpast]) (fun r hr => ?_) (fun r hs _ => Or.inl (hsnap r hs)) hnot
  rcases hheld with ⟨h1, h2⟩ | ⟨h1, h2⟩
  · rw [h1, h2]
  · simp [h1, h2, ne_unbound hr]

/-- `task_detach_sock`: what was the task's is the worker's. -/
theorem detach (h : Tied s) (ho : Owned s owner) (hp : s.pc w = p) (ht : s.task n = some t) (hw : p.node = some n)
    (hph : p.held = .unbound) (hb : b.node = some n) (hheld : b.held = t.sock ∨ b.held = .unbound ∧ ¬ inTable t.sock.id)
    (hsnap : ∀ r, b.snapshot = some (n, r) → p.snapshot = some (n, r) := by intros; contradiction)
    (hnot : ∀ sock got, b ≠ .opened n sock got := by simp) : Tied ((s.detachSock n t).goto w b) := by
  refine h.stay (c := { t with sock := .unbound }) ho hp ht rfl rfl (by simp [hw]) (by simp [hb]) rfl rfl rfl rfl rfl
    (fun r hr => ?_) (fun r hs _ => Or.inl (hsnap r hs)) hnot
  have hne := ne_unbound hr
  rcases hheld with he | ⟨he, hout⟩
  · simp only [Task.fin, hb, hw, hph, he, hne, true_and, false_or, or_false, and_false]
    exact or_comm
  · have : r ≠ t.sock := by
      rintro rfl
      exact hout hr
    simp [Task.fin, hph, he, hne, this]

/-- A worker closes the socket it has in hand. -/
theorem sockClose (h : Tied s) (ho : Owned s owner) (hp : s.pc w = p) (ht : s.task n = some t) (hw : p.node = some n)
    (hb : b.node = some n) (hheld : b.held = .unbound) (hsnap : ∀ r, b.snapshot = some (n, r) → ¬ inTable r.id)
    (hnot : ∀ sock got, b ≠ .opened n sock got) : Tied ((s.sockClose p.held).goto w b) := by
  obtain ⟨htask, -, -, -, hpc⟩ := s.sockClose_frame p.held
  have hbw : ((s.sockClose p.held).goto w b).pc w = b := by simp [Daemon.goto]
  have ht' : ((s.sockClose p.held).goto w b).task n = some t := by simp [Daemon.goto, htask, ht]
  by_cases htab : inTable p.held.id
  · have hhand : s.hand (.closer w) = p.held := by simp [Daemon.hand, hp]
    have hh := (ho.hand (.closer w) (by rwa [hhand])).1
    rw [hhand] at hh
    have hzero : s.past.closes p.held.life = 0 := by
      rw [← hh.2]
      exact ho.slots.unclosed _ hh.1
    have hcl : ((s.sockClose p.held).goto w b).past.closes =
        Function.update s.past.closes p.held.life (s.past.closes p.held.life + 1) := by
      simp [Daemon.sockClose, htab, Daemon.goto]
    refine h.turn (w := w) (n := n) ho (fun v hv => by simp [Daemon.goto, hpc, hv]) (fun m _ => by simp [Daemon.goto, htask])
      (by simp [hp, hw]) (by simp [hbw, hb]) (fun m i _ hi => ?_) (fun r hr hm => ?_) (fun r hr hm => ?_) (fun r hv hr => ?_)
      (fun sock got hv => ?_) (fun i _ => ?_) (fun i m hi => Or.inl ?_) fun i hi => ?_
    · simpa [Daemon.Entitled, Daemon.sockClose, htab, Daemon.goto] using hi
    · rw [Daemon.mine_iff ht' hbw, hheld] at hm
      rw [Daemon.mine_iff ht hp]
      rcases hm with hm | hm | ⟨-, hm⟩
      · exact Or.inl (Or.inl hm)
      · exact Or.inl (Or.inr (Or.inl hm))
      · exact absurd hm (ne_unbound hr)
    · rw [Daemon.mine_iff ht hp] at hm
      rw [Daemon.mine_iff ht' hbw]
      rcases hm with hm | hm | ⟨-, hm⟩
      · exact Or.inl (Or.inl hm)
      · exact Or.inl (Or.inr (Or.inl hm))
      · right
        rw [hcl, hm, Function.update_self, hzero]
    · rw [hbw] at hv
      exact absurd hr (hsnap r hv)
    · rw [hbw] at hv
      exact absurd hv (hnot sock got)
    · simp [Daemon.sockClose, htab, Daemon.goto]
    · simpa [Daemon.sockClose, htab, Daemon.goto] using hi
    · rw [hcl]
      have hne : i ≠ p.held.life := by
        rintro rfl
        rw [hzero] at hi
        cases hi
      rw [Function.update_of_ne hne]
      exact hi
  · have he : s.sockClose p.held = s := by simp [Daemon.sockClose, htab]
    rw [he]
    refine h.stay (c := t) ho hp ht (by rw [← ht, Function.update_eq_self]; rfl) rfl (by simp [hw]) (by simp [hb]) rfl rfl rfl rfl
      rfl (fun r hr => ?_) (fun r hs hr => absurd hr (hsnap r hs)) hnot
    have : r ≠ p.held := by
      rintro rfl
      exact htab hr
    simp [hheld, ne_unbound hr, this]

/-- A worker asks for a new socket, for its node or for a client. -/
theorem make (h : Tied s) (ho : Owned s owner) (hp : s.pc w = p) (ht : s.task n = some t) (htask : u.task = s.task)
    (hpc : u.pc = Function.update s.pc w b) (hw : p.node = some n) (hb : b.node = some n) (hph : p.held = .unbound)
    (hbh : b.held = .unbound) (hopened : ∀ i, i < s.past.lives → u.past.opened i = s.past.opened i)
    (haccepted : ∀ i, i < s.past.lives → u.past.accepted i = s.past.accepted i) (hlinked : u.past.linked = s.past.linked)
    (hbound : u.past.bound = s.past.bound) (hcloses : u.past.closes = s.past.closes) (hsnap : b.snapshot = p.snapshot)
    (hgot : ∀ sock got, b = .opened n sock got → inTable got.id → u.past.opened got.life = some n) : Tied u := by
  have hbw : u.pc w = b := by simp [hpc]
  have ht' : u.task n = some t := by rw [htask, ht]
  have hmine : ∀ r, inTable r.id → (u.Mine w n r ↔ s.Mine w n r) := by
    intro r hr
    rw [Daemon.mine_iff ht' hbw, Daemon.mine_iff ht hp, hph, hbh]
    simp [ne_unbound hr]
  refine h.turn (w := w) (n := n) ho (fun v hv => by simp [hpc, hv]) (fun _ _ => by rw [htask]) (by simp [hp, hw])
    (by simp [hbw, hb]) (fun m i hi he => ?_) (fun r hr hm => Or.inl ((hmine r hr).mp hm)) (fun r hr hm => Or.inl ((hmine r hr).mpr hm))
    (fun r hv _ => Or.inl ?_) (fun sock got hv hr => hgot sock got (hbw.symm.trans hv) hr) hopened (fun i m hi => Or.inl ?_) fun i hi => ?_
  · simpa only [Daemon.Entitled, hopened i hi, haccepted i hi, hlinked] using he
  · rw [hp, ← hsnap, ← hbw, hv]
  · rwa [hbound] at hi
  · rwa [hcloses]

/-- `sock_open`: a new socket is the node's from the start. -/
theorem sockOpen {ok : Bool} {pid : ℕ} {sock : Ref} (h : Tied s) (ho : Owned s owner) (hp : s.pc w = .serving .sockOpen n pid sock)
    (ht : s.task n = some t) : Tied ((s.sockOpen ok n).1.goto w (.opened n sock (s.sockOpen ok n).2)) := by
  unfold Daemon.sockOpen
  split
  · refine h.make ho hp ht rfl rfl rfl rfl rfl rfl (fun i hi => ?_) (fun _ _ => rfl) rfl rfl rfl rfl fun sock' got hb _ => ?_
    · simp [Daemon.goto, Nat.ne_of_lt hi]
    · cases hb
      simp [Daemon.goto]
  · refine h.make (b := .opened n sock .unbound) ho hp ht rfl rfl rfl rfl rfl rfl (fun _ _ => rfl) (fun _ _ => rfl) rfl rfl rfl rfl
      fun sock' got hb hr => ?_
    cases hb
    exact absurd hr not_inTable_unbound

/-- `sock_accept`: a new socket is nobody's yet. -/
theorem sockAccept {ok : Bool} {pid : ℕ} {sock : Ref} (h : Tied s) (ho : Owned s owner)
    (hp : s.pc w = .serving .sockAccept n pid sock) (ht : s.task n = some t) :
    Tied ((s.sockAccept ok pid sock).goto w (.ending n sock)) := by
  unfold Daemon.sockAccept
  split
  · exact h.make (b := .ending n sock) ho hp ht rfl rfl rfl rfl rfl rfl (fun _ _ => rfl)
      (fun i hi => by simp [Daemon.goto, Daemon.take, Nat.ne_of_lt hi]) rfl rfl rfl rfl nofun
  · exact h.make (b := .ending n sock) ho hp ht rfl rfl rfl rfl rfl rfl (fun _ _ => rfl) (fun _ _ => rfl) rfl rfl rfl rfl nofun

/-- The node of a bind has the new socket, and no other. -/
theorem bind {r : Ref} {sock : Ref} (h : Tied s) (ho : Owned s owner) (hp : s.pc w = p) (ht : s.task n = some t)
    (hw : p.node = some n) (hheld : p.held = .unbound) (hsnap : p.snapshot = some (n, sock))
    (htask : u.task = Function.update s.task n (some { t with sock := r })) (hpc : u.pc = Function.update s.pc w (.ending n sock))
    (hfree : ¬ inTable t.sock.id) (hent : ∀ m i, i < s.past.lives → s.Entitled m i → u.Entitled m i)
    (hmine : inTable r.id → u.Entitled n r.life) (hopened : u.past.opened = s.past.opened) (hcloses : u.past.closes = s.past.closes)
    (hbound : u.past.bound = if inTable r.id then Function.update s.past.bound r.life (some n) else s.past.bound) : Tied u := by
  have hbw : u.pc w = .ending n sock := by simp [hpc]
  have ht' : u.task n = some { t with sock := r } := by simp [htask]
  refine h.turn (w := w) (n := n) ho (fun v hv => by simp [hpc, hv]) (fun m hm => by simp [htask, hm])
    (by simp [hp, hw]) (by simp [hbw, Pc.node]) hent (fun r' hr hm => ?_) (fun r' hr hm => Or.inl ?_) (fun r' hv _ => Or.inl ?_)
    (fun sock' got hv => ?_) (fun i _ => by rw [hopened]) (fun i m hi => ?_) fun i hi => by rwa [hcloses]
  · rw [Daemon.mine_iff ht' hbw] at hm
    rw [Daemon.mine_iff ht hp]
    rcases hm with rfl | hm | ⟨-, hm⟩
    · exact Or.inr (hmine hr)
    · exact Or.inl (Or.inr (Or.inl hm))
    · exact absurd hm (ne_unbound hr)
  · rw [Daemon.mine_iff ht hp, hheld] at hm
    rw [Daemon.mine_iff ht' hbw]
    rcases hm with rfl | hm | ⟨-, hm⟩
    · exact absurd hr hfree
    · exact Or.inr (Or.inl hm)
    · exact absurd hm (ne_unbound hr)
  · rw [hp, hsnap]
    rwa [hbw] at hv
  · rw [hbw] at hv
    cases hv
  · rw [hbound] at hi
    split at hi
    · rename_i hr
      by_cases hir : i = r.life
      · subst hir
        rw [Function.update_self, Option.some.injEq] at hi
        exact Or.inr ⟨hi.symm, r, hr, rfl, (Daemon.mine_iff ht' hbw).mpr (Or.inl rfl)⟩
      · rw [Function.update_of_ne hir] at hi
        exact Or.inl hi
    · exact Or.inl hi

/-- `task_end_op`: what was left in a dead task is the last one's. -/
theorem endOp {sock : Ref} (h : Tied s) (ho : Owned s owner) (hl : Life s duty) (hp : s.pc w = .ending n sock)
    (ht : s.task n = some t) : Tied (s.endOp w n t) := by
  have hpos : 0 < t.inflight := (hl.crowd n t ht).pos (t := w) (by simp [hp, Pc.op])
  simp only [Daemon.endOp]
  split
  · rename_i hlast
    obtain ⟨hdead, hzero⟩ := hlast
    refine h.stay (c := { t with inflight := t.inflight - 1 }) (b := .finish n t.finSock) ho hp ht rfl rfl (by simp [Pc.node])
      (by simp [Pc.node]) rfl rfl rfl rfl rfl (fun r hr => ?_) (by intros; contradiction) (by simp)
    simp [Task.fin, hdead, hzero, hpos, Pc.node, Pc.held, ne_unbound hr]
  · rename_i hlast
    refine h.stay (c := { t with inflight := t.inflight - 1 }) (b := .idle) ho hp ht rfl rfl (by simp [Pc.node])
      (by intros; contradiction) rfl rfl rfl rfl rfl (fun r hr => ?_) (by intros; contradiction) (by simp)
    have hfin : Task.fin { t with inflight := t.inflight - 1 } = t.fin := by
      simp only [Task.fin]
      by_cases hdead : t.dead = true
      · have : 0 < t.inflight - 1 := Nat.pos_of_ne_zero fun hz => hlast ⟨hdead, hz⟩
        rw [if_pos ⟨hdead, this⟩, if_pos ⟨hdead, hpos⟩]
      · rw [if_neg fun hc => hdead hc.1, if_neg fun hc => hdead hc.1]
    rw [hfin]
    simp [Pc.node, Pc.held, ne_unbound hr]

/-- The second look of `release_task`: what the closer had is left in the dead task. -/
theorem releaseTask {fin : Ref} (h : Tied s) (ho : Owned s owner) (hl : Life s duty) (hp : s.pc w = .recheck n fin)
    (ht : s.task n = some t) : Tied (s.releaseTask w n t fin) := by
  simp only [Daemon.releaseTask]
  split
  · rename_i hpos
    have hdead : t.dead = false := by
      obtain ⟨-, t₀, ht₀, -, -, hlate⟩ := hl.of_tears (w := w) (n := n) (by simp [hp, Pc.tears])
      cases ht.symm.trans ht₀
      simpa [hp, Pc.late] using hlate
    refine h.stay (c := { t with dead := true, finSock := fin }) (b := .idle) ho hp ht rfl rfl (by simp [Pc.node])
      (by intros; contradiction) rfl rfl rfl rfl rfl (fun r hr => ?_) (by intros; contradiction) (by simp)
    simp [Task.fin, hdead, hpos, Pc.node, Pc.held, ne_unbound hr]
  · exact h.keep (b := .finish n fin) ho hp ht rfl rfl (Or.inl ⟨rfl, rfl⟩)

/-- `task_destroy`, of a task with nothing in hand. -/
theorem destroy {ok : Bool} (h : Tied s) (ho : Owned s owner) (hl : Life s duty) (hp : s.pc w = .destroy n) (hclear : s.Unbound n)
    (hu : s.run w ok = some u) : Tied u := by
  obtain ⟨-, t, ht, -, -, hlate⟩ := hl.of_tears (w := w) (n := n) (by simp [hp, Pc.tears])
  have hzero : t.inflight = 0 := by simpa [hp, Pc.late] using hlate
  simp only [Daemon.run, hp] at hu
  cases hu
  refine h.quiet (w := w) (n := n) ho (fun v hv => by simp [Daemon.goto, hv]) (fun m hm => by simp [Daemon.goto, hm])
    (by simp [hp, Pc.node]) (by simp [Daemon.goto, Pc.node]) rfl rfl rfl rfl rfl (fun r hr => ?_) (fun r hv => ?_) (fun _ _ hv => ?_)
  · rw [Daemon.mine_iff ht hp]
    have : r ≠ t.sock := by
      rintro rfl
      exact hclear t ht hr
    simp [Daemon.Mine, Daemon.hand, Daemon.goto, Pc.node, Pc.held, Task.fin, hzero, ne_unbound hr, this]
  · simp [Daemon.goto, Pc.snapshot] at hv
  · simp [Daemon.goto] at hv

theorem run {ok : Bool} (h : Tied s) (ho : Owned s owner) (hl : Life s duty) (hclear : ∀ n, s.Detached n → s.Unbound n)
    (hc : s.Careful (.run w ok)) (hpr : s.Proper (.run w ok)) (hu : s.run w ok = some u) : Tied u := by
  cases hp : s.pc w with
  | idle => simp [Daemon.run, hp] at hu
  | destroy n => exact h.destroy ho hl hp (hclear n (Or.inl ⟨w, by simp [hp, Pc.detached]⟩)) hu
  | serving req n pid sock =>
    obtain ⟨t, ht⟩ := hl.works (w := w) (n := n) (by simp [hp, Pc.node])
    cases req with
    | use =>
      simp only [Daemon.run, hp] at hu
      cases hu
      exact h.keep ho hp ht rfl rfl (Or.inr ⟨rfl, rfl⟩) fun _ hs => hs
    | sockOpen =>
      simp only [Daemon.run, hp] at hu
      cases hu
      exact h.sockOpen ho hp ht
    | sockAccept =>
      simp only [Daemon.run, hp] at hu
      cases hu
      exact h.sockAccept ho hp ht
    | sockLink id =>
      simp only [Daemon.run, hp, ht, Option.map_some] at hu
      cases hu
      have hfresh : inTable id → s.Fresh id := by simpa [Daemon.Careful, hp] using hc
      obtain ⟨hfree, hlink⟩ : s.Unbound n ∧ (inTable id → ¬ s.Detached n ∧ s.past.accepted (s.life id) = some pid) := by
        simpa [Daemon.Proper, hp] using hpr
      refine h.bind ho hp ht rfl rfl rfl rfl rfl (hfree t ht) (fun m i hi he => ?_) (fun hr => ?_) rfl rfl rfl
      · rcases he with he | ⟨pid', h1, h2⟩
        · exact Or.inl he
        · refine Or.inr ⟨pid', h1, ?_⟩
          simp only [Daemon.goto, Daemon.sockLink]
          split
          · rename_i htab
            have hne : i ≠ s.life id := by
              rintro rfl
              rw [(hfresh htab).2.2] at h2
              cases h2
            rw [Function.update_of_ne hne]
            exact h2
          · exact h2
      · have htab : inTable id := by
          unfold Daemon.payload at hr
          split at hr <;> exact hr
        right
        refine ⟨pid, ?_, ?_⟩
        · change s.past.accepted (s.payload id).life = some pid
          simpa [Daemon.payload, htab] using (hlink htab).2
        · simp [Daemon.payload, htab, Daemon.goto, Daemon.sockLink]
    | sockClose =>
      simp only [Daemon.run, hp, ht, Option.map_some] at hu
      cases hu
      split
      · rename_i hneg
        refine h.detach ho hp ht rfl rfl rfl (Or.inr ⟨rfl, fun htab => ?_⟩) fun _ hs => hs
        exact absurd htab.1 (by omega)
      · exact h.detach ho hp ht rfl rfl rfl (Or.inl rfl)
  | opened n sock got =>
    simp only [Daemon.run, hp] at hu
    obtain ⟨t, ht, rfl⟩ := Option.map_eq_some_iff.mp hu
    obtain ⟨hfree, -⟩ : s.Unbound n ∧ (inTable got.id → ¬ s.Detached n) := by simpa [Daemon.Proper, hp] using hpr
    exact h.bind ho hp ht rfl rfl rfl rfl rfl (hfree t ht) (fun _ _ _ he => he) (fun hr => Or.inl (h.opened w n sock got hp hr)) rfl rfl rfl
  | draining n old i =>
    simp only [Daemon.run, hp] at hu
    obtain ⟨t, ht, rfl⟩ := Option.map_eq_some_iff.mp hu
    split
    · exact h.keep ho hp ht rfl rfl (Or.inl ⟨rfl, rfl⟩)
    · exact h.keep ho hp ht rfl rfl (Or.inl ⟨rfl, rfl⟩)
  | closing n old =>
    simp only [Daemon.run, hp] at hu
    cases hu
    obtain ⟨t, ht⟩ := hl.works (w := w) (n := n) (by simp [hp, Pc.node])
    refine h.sockClose (b := .ending n .unbound) ho hp ht rfl rfl rfl (fun r hs => ?_) (by simp)
    cases hs
    exact not_inTable_unbound
  | ending n sock =>
    simp only [Daemon.run, hp] at hu
    obtain ⟨t, ht, rfl⟩ := Option.map_eq_some_iff.mp hu
    exact h.endOp ho hl hp ht
  | release n =>
    simp only [Daemon.run, hp] at hu
    cases hu
    obtain ⟨t, ht⟩ := hl.works (w := w) (n := n) (by simp [hp, Pc.node])
    exact h.keep ho hp ht rfl rfl (Or.inr ⟨rfl, rfl⟩)
  | unlisted n =>
    simp only [Daemon.run, hp] at hu
    obtain ⟨t, ht, rfl⟩ := Option.map_eq_some_iff.mp hu
    exact h.detach ho hp ht rfl rfl rfl (Or.inl rfl)
  | waiting n fin i =>
    simp only [Daemon.run, hp] at hu
    obtain ⟨t, ht, rfl⟩ := Option.map_eq_some_iff.mp hu
    split
    · exact h.keep ho hp ht rfl rfl (Or.inl ⟨rfl, rfl⟩)
    · exact h.keep ho hp ht rfl rfl (Or.inl ⟨rfl, rfl⟩)
  | recheck n fin =>
    simp only [Daemon.run, hp] at hu
    obtain ⟨t, ht, rfl⟩ := Option.map_eq_some_iff.mp hu
    exact h.releaseTask ho hl hp ht
  | finish n fin =>
    simp only [Daemon.run, hp] at hu
    cases hu
    obtain ⟨t, ht⟩ := hl.works (w := w) (n := n) (by simp [hp, Pc.node])
    exact h.sockClose (b := .destroy n) ho hp ht rfl rfl rfl (by intros; contradiction) (by simp)

theorem step {e : Event ω} (h : Tied s) (ho : Owned s owner) (hl : Life s duty) (hclear : ∀ n, s.Detached n → s.Unbound n)
    (hc : s.Careful e) (hpr : s.Proper e) (hu : s.step e = some u) : Tied u := by
  cases e with
  | networkOpen => exact h.networkOpen ho hl hu
  | networkDup n => exact h.networkDup ho hu
  | networkClose w n => exact h.networkClose ho hu
  | request w req n pid => exact h.request ho hl hu
  | run w ok => exact h.run ho hl hclear hc hpr hu

end Tied

namespace Mapped
variable {s u : Daemon ω} {owner : ℕ → Owner ω} {duty : ℕ → Duty ω} {w : ω} {n : ℕ} {t c : Task} {p b : Pc}

/-- A worker goes on, and its task keeps its socket. -/
theorem stay (h : Mapped s) (hp : s.pc w = p) (ht : s.task n = some t) (htask : u.task = Function.update s.task n (some c))
    (hpc : u.pc = Function.update s.pc w b) (hmap : u.sockToTask = s.sockToTask) (hsock : c.sock = t.sock)
    (hdead : c.dead = true → t.dead = true ∨ p.detached = some n)
    (hdet : ∀ m, b.detached = some m → p.detached = some m ∨ (m = n ∧ t.dead = true)) : Mapped u := by
  subst hp
  refine h.same hmap (fun m => Or.inl ?_) fun m hm => ?_
  · by_cases hmn : m = n
    · subst hmn
      simp [Daemon.hand, htask, ht, hsock]
    · simp [Daemon.hand, htask, hmn]
  · rcases hm with ⟨v, hv⟩ | ⟨t₀, ht₀, hd⟩
    · rcases Daemon.pc_cases hpc v with ⟨rfl, he⟩ | ⟨-, he⟩ <;> rw [he] at hv
      · rcases hdet m hv with hd | ⟨rfl, hd⟩
        · exact Or.inl ⟨v, hd⟩
        · exact Or.inr ⟨t, ht, hd⟩
      · exact Or.inl ⟨v, hv⟩
    · rw [htask] at ht₀
      by_cases hmn : m = n
      · subst hmn
        obtain rfl : c = t₀ := by simpa using ht₀
        rcases hdead hd with hd | hd
        · exact Or.inr ⟨t, ht, hd⟩
        · exact Or.inl ⟨w, hd⟩
      · rw [Function.update_of_ne hmn] at ht₀
        exact Or.inr ⟨t₀, ht₀, hd⟩

/-- The task is the same, too. -/
theorem keep (h : Mapped s) (hp : s.pc w = p) (ht : s.task n = some t) (htask : u.task = s.task)
    (hpc : u.pc = Function.update s.pc w b) (hmap : u.sockToTask = s.sockToTask)
    (hdet : ∀ m, b.detached = some m → p.detached = some m) : Mapped u :=
  h.stay hp ht (by rw [htask, ← ht, Function.update_eq_self]) hpc hmap rfl (fun hd => Or.inl hd) fun m hm => Or.inl (hdet m hm)

/-- `task_detach_sock`. -/
theorem detach (h : Mapped s) (ht : s.task n = some t) (hp : s.pc w = p) (hdet : ∀ m, b.detached = some m → m = n) :
    Mapped ((s.detachSock n t).goto w b) := by
  have hother : ∀ m, m ≠ n → ((s.detachSock n t).goto w b).hand (.task m) = s.hand (.task m) := fun m hm => by
    simp [Daemon.hand, Daemon.goto, Daemon.detachSock, hm]
  have hself : ((s.detachSock n t).goto w b).hand (.task n) = .unbound := by
    simp [Daemon.hand, Daemon.goto, Daemon.detachSock]
  refine ⟨fun k m hk => ?_, fun m hm => ?_⟩
  · rw [bound_iff hk]
    change s.unmap n t.sock.id k = some m ↔ _
    rw [h.unmap_iff ht hk]
    by_cases hmn : m = n
    · subst hmn
      rw [hself]
      refine ⟨fun he => absurd rfl he.1, ?_⟩
      rintro rfl
      exact absurd hk not_inTable_unbound
    · simp [hother m hmn, hmn]
  · rw [unbound_iff]
    by_cases hmn : m = n
    · subst hmn
      rw [hself]
      exact not_inTable_unbound
    · rw [hother m hmn]
      refine unbound_iff.mp (h.clear m ?_)
      rcases hm with ⟨v, hv⟩ | ⟨t₀, ht₀, hd⟩
      · by_cases hvw : v = w
        · subst hvw
          exact absurd (hdet m (by simpa [Daemon.goto] using hv)) hmn
        · exact Or.inl ⟨v, by simpa [Daemon.goto, Daemon.detachSock, hvw] using hv⟩
      · exact Or.inr ⟨t₀, by simpa [Daemon.goto, Daemon.detachSock, hmn] using ht₀, hd⟩

/-- `task_bind_sock` of a task without a socket, to one that no task has. -/
theorem bind {r : Ref} (h : Mapped s) (ht : s.task n = some t) (hp : s.pc w = p)
    (htask : u.task = Function.update s.task n (some { t with sock := r })) (hpc : u.pc = Function.update s.pc w b)
    (hmap : u.sockToTask = if inTable r.id then Function.update (s.unmap n t.sock.id) r.id (some n) else s.unmap n t.sock.id)
    (hb : b.detached = none) (hfree : ∀ m, inTable r.id → (s.hand (.task m)).id ≠ r.id) (hopen : inTable r.id → ¬ s.Detached n) :
    Mapped u := by
  have hother : ∀ m, m ≠ n → u.hand (.task m) = s.hand (.task m) := fun m hm => by
    simp [Daemon.hand, htask, hm]
  have hself : u.hand (.task n) = r := by
    simp [Daemon.hand, htask]
  refine ⟨fun k m hk => ?_, fun m hm => ?_⟩
  · rw [bound_iff hk, hmap]
    by_cases hmn : m = n
    · subst hmn
      rw [hself]
      split
      · by_cases hkr : k = r.id
        · subst hkr
          simp
        · rw [Function.update_of_ne hkr, h.unmap_iff ht hk]
          exact ⟨fun he => absurd rfl he.1, fun he => absurd he.symm hkr⟩
      · rename_i hout
        rw [h.unmap_iff ht hk]
        refine ⟨fun he => absurd rfl he.1, ?_⟩
        rintro rfl
        exact absurd hk hout
    · rw [hother m hmn]
      split
      · rename_i hr
        by_cases hkr : k = r.id
        · subst hkr
          simp [Ne.symm hmn, hfree m hr]
        · rw [Function.update_of_ne hkr, h.unmap_iff ht hk]
          simp [hmn]
      · rw [h.unmap_iff ht hk]
        simp [hmn]
  · have hs : s.Detached m := by
      rcases hm with ⟨v, hv⟩ | ⟨t₀, ht₀, hd⟩
      · rcases Daemon.pc_cases hpc v with ⟨rfl, he⟩ | ⟨-, he⟩ <;> rw [he] at hv
        · rw [hb] at hv
          cases hv
        · exact Or.inl ⟨v, hv⟩
      · rw [htask] at ht₀
        by_cases hmn : m = n
        · subst hmn
          obtain rfl := by simpa using ht₀
          exact Or.inr ⟨t, ht, hd⟩
        · rw [Function.update_of_ne hmn] at ht₀
          exact Or.inr ⟨t₀, ht₀, hd⟩
    rw [unbound_iff]
    by_cases hmn : m = n
    · subst hmn
      rw [hself]
      exact fun hr => hopen hr hs
    · rw [hother m hmn]
      exact unbound_iff.mp (h.clear m hs)

theorem run {ok : Bool} (h : Mapped s) (ho : Owned s owner) (hl : Life s duty) (hc : s.Careful (.run w ok))
    (hpr : s.Proper (.run w ok)) (hu : s.run w ok = some u) : Mapped u := by
  cases hp : s.pc w with
  | idle => simp [Daemon.run, hp] at hu
  | serving req n pid sock =>
    obtain ⟨t, ht⟩ := hl.works (w := w) (n := n) (by simp [hp, Pc.node])
    cases req with
    | use =>
      simp only [Daemon.run, hp] at hu
      cases hu
      exact h.keep hp ht rfl rfl rfl (by intros; contradiction)
    | sockOpen =>
      simp only [Daemon.run, hp] at hu
      cases hu
      obtain ⟨htask, -, -, -, hpc⟩ := s.sockOpen_frame ok n
      refine h.keep (b := .opened n sock (s.sockOpen ok n).2) hp ht htask (by simp [Daemon.goto, hpc]) ?_ (by intros; contradiction)
      unfold Daemon.sockOpen
      split <;> rfl
    | sockAccept =>
      simp only [Daemon.run, hp] at hu
      cases hu
      obtain ⟨htask, -, -, -, hpc⟩ := s.sockAccept_frame ok pid sock
      refine h.keep (b := .ending n sock) hp ht htask (by simp [Daemon.goto, hpc]) ?_ (by intros; contradiction)
      unfold Daemon.sockAccept
      split <;> rfl
    | sockLink id =>
      simp only [Daemon.run, hp, ht, Option.map_some] at hu
      cases hu
      have hfresh : inTable id → s.Fresh id := by simpa [Daemon.Careful, hp] using hc
      obtain ⟨-, hlink⟩ : s.Unbound n ∧ (inTable id → ¬ s.Detached n ∧ s.past.accepted (s.life id) = some pid) := by
        simpa [Daemon.Proper, hp] using hpr
      have hid : (s.payload id).id = id := by
        unfold Daemon.payload
        split <;> rfl
      refine h.bind (b := .ending n sock) ht hp rfl rfl rfl rfl (fun m hr he => ?_) fun hr => (hlink (hid ▸ hr)).1
      rw [hid] at hr he
      rw [← he] at hr
      refine ho.fresh_ne hr (hfresh (he ▸ hr)) ?_
      rw [← he]
      exact (ho.hand _ hr).1.2
    | sockClose =>
      simp only [Daemon.run, hp, ht, Option.map_some] at hu
      cases hu
      refine h.detach ht hp fun m hm => ?_
      split at hm <;> cases hm
  | opened n sock got =>
    simp only [Daemon.run, hp] at hu
    obtain ⟨t, ht, rfl⟩ := Option.map_eq_some_iff.mp hu
    obtain ⟨-, hopen⟩ : s.Unbound n ∧ (inTable got.id → ¬ s.Detached n) := by simpa [Daemon.Proper, hp] using hpr
    have hgot : s.hand (.opener w) = got := by simp [Daemon.hand, hp, Pc.got]
    refine h.bind (b := .ending n sock) ht hp rfl rfl rfl rfl (fun m hr he => ?_) hopen
    have hm : inTable (s.hand (.task m)).id := by rwa [he]
    refine ho.hand_ne (x := .task m) (y := .opener w) hm (by rwa [hgot]) (by simp) ?_
    have h1 := (ho.hand _ hm).1.2
    have h2 := (ho.hand (.opener w) (by rwa [hgot])).1.2
    rw [← h1, ← h2, he, hgot]
  | draining n old i =>
    simp only [Daemon.run, hp] at hu
    obtain ⟨t, ht, rfl⟩ := Option.map_eq_some_iff.mp hu
    refine h.keep hp ht rfl rfl rfl fun m hm => ?_
    split at hm <;> cases hm
  | closing n old =>
    simp only [Daemon.run, hp] at hu
    cases hu
    obtain ⟨t, ht⟩ := hl.works (w := w) (n := n) (by simp [hp, Pc.node])
    obtain ⟨htask, -, -, -, hpc⟩ := s.sockClose_frame old
    refine h.keep (b := .ending n .unbound) hp ht htask (by simp [Daemon.goto, hpc]) ?_ (by intros; contradiction)
    unfold Daemon.sockClose
    split <;> rfl
  | ending n sock =>
    simp only [Daemon.run, hp] at hu
    obtain ⟨t, ht, rfl⟩ := Option.map_eq_some_iff.mp hu
    refine h.stay (c := { t with inflight := t.inflight - 1 }) hp ht rfl rfl rfl rfl (fun hd => Or.inl hd) fun m hm => Or.inr ?_
    split at hm
    · rename_i hlast
      cases hm
      exact ⟨rfl, hlast.1⟩
    · cases hm
  | release n =>
    simp only [Daemon.run, hp] at hu
    cases hu
    obtain ⟨t, ht⟩ := hl.works (w := w) (n := n) (by simp [hp, Pc.node])
    exact h.keep hp ht rfl rfl rfl (by intros; contradiction)
  | unlisted n =>
    simp only [Daemon.run, hp] at hu
    obtain ⟨t, ht, rfl⟩ := Option.map_eq_some_iff.mp hu
    exact h.detach ht hp fun m hm => (Option.some.inj hm).symm
  | waiting n fin i =>
    simp only [Daemon.run, hp] at hu
    obtain ⟨t, ht, rfl⟩ := Option.map_eq_some_iff.mp hu
    refine h.keep hp ht rfl rfl rfl fun m hm => ?_
    split at hm <;> exact hm
  | recheck n fin =>
    simp only [Daemon.run, hp] at hu
    obtain ⟨t, ht, rfl⟩ := Option.map_eq_some_iff.mp hu
    simp only [Daemon.releaseTask]
    split
    · exact h.stay (c := { t with dead := true, finSock := fin }) (b := .idle) hp ht rfl rfl rfl rfl (fun _ => Or.inr rfl) (by intros; contradiction)
    · exact h.keep (b := .finish n fin) hp ht rfl rfl rfl fun m hm => hm
  | finish n fin =>
    simp only [Daemon.run, hp] at hu
    cases hu
    obtain ⟨t, ht⟩ := hl.works (w := w) (n := n) (by simp [hp, Pc.node])
    obtain ⟨htask, -, -, -, hpc⟩ := s.sockClose_frame fin
    refine h.keep (b := .destroy n) hp ht htask (by simp [Daemon.goto, hpc]) ?_ fun m hm => hm
    unfold Daemon.sockClose
    split <;> rfl
  | destroy n =>
    simp only [Daemon.run, hp] at hu
    cases hu
    have hclear := unbound_iff.mp (h.clear n (Or.inl ⟨w, by simp [hp, Pc.detached]⟩))
    refine h.same rfl (fun m => ?_) fun m hm => ?_
    · by_cases hmn : m = n
      · subst hmn
        exact Or.inr ⟨by simpa [Daemon.hand, Daemon.goto] using not_inTable_unbound, hclear⟩
      · exact Or.inl (by simp [Daemon.hand, Daemon.goto, hmn])
    · rcases hm with ⟨v, hv⟩ | ⟨t₀, ht₀, hd⟩
      · by_cases hvw : v = w
        · subst hvw
          simp [Daemon.goto, Pc.detached] at hv
        · exact Or.inl ⟨v, by simpa [Daemon.goto, hvw] using hv⟩
      · by_cases hmn : m = n
        · subst hmn
          simp [Daemon.goto] at ht₀
        · exact Or.inr ⟨t₀, by simpa [Daemon.goto, hmn] using ht₀, hd⟩

theorem step {e : Event ω} (h : Mapped s) (ho : Owned s owner) (hl : Life s duty) (hc : s.Careful e) (hpr : s.Proper e)
    (hu : s.step e = some u) : Mapped u := by
  cases e with
  | run w ok => exact h.run ho hl hc hpr hu
  | networkOpen =>
    cases hu
    have hnone : s.task s.nodes = none := by
      have hfits := hl.fits s.nodes
      rw [hl.ahead _ (Nat.le_refl _)] at hfits
      exact hfits.1
    refine h.same rfl (fun m => Or.inl ?_) fun m hm => ?_
    · by_cases hmn : m = s.nodes
      · subst hmn
        simp [Daemon.hand, hnone]
      · simp [Daemon.hand, hmn]
    · refine hm.imp_right ?_
      rintro ⟨t₀, ht₀, hd⟩
      by_cases hmn : m = s.nodes
      · subst hmn
        obtain rfl := by simpa using ht₀
        cases hd
      · exact ⟨t₀, by simpa [hmn] using ht₀, hd⟩
  | networkDup n =>
    simp only [Daemon.step] at hu
    split at hu
    · rename_i t hf
      cases hu
      split
      · exact h
      · exact h.touch (Life.of_findLive_task hf) rfl rfl
    · cases hu
      exact h
  | networkClose w n =>
    simp only [Daemon.step, Option.ite_none_right_eq_some] at hu
    obtain ⟨hidle, hu⟩ := hu
    split at hu
    · rename_i t hf
      have ht := Life.of_findLive_task hf
      cases hu
      split
      · simp only [Daemon.networkClose]
        split
        · exact h.stay (c := { t with refs := 0, closing := true }) (b := .release n) hidle ht rfl rfl rfl rfl
            (fun hd => Or.inl hd) (by intros; contradiction)
        · exact h.touch ht rfl rfl
      · exact h
    · cases hu
      exact h
  | request w req n pid =>
    simp only [Daemon.step, Option.ite_none_right_eq_some] at hu
    obtain ⟨hidle, hu⟩ := hu
    split at hu
    · rename_i t hf
      have ht := Life.of_findLive_task hf
      cases hu
      split
      · exact h
      · exact h.stay (c := { t with inflight := t.inflight + 1 }) (b := .serving req n pid t.sock) hidle ht rfl rfl rfl rfl
          (fun hd => Or.inl hd) (by intros; contradiction)
    · cases hu
      exact h

end Mapped

/-! ### Confinement -/

/-- The books agree with what everybody has. -/
def Kept (s : Daemon ω) : Prop := ∃ duty owner, Life s duty ∧ Owned s owner ∧ Tied s ∧ Mapped s

theorem kept_reach {s : Daemon ω} (hr : Reach Daemon.step (fun s e => s.Careful e ∧ s.Proper e) Daemon.start s) : Kept s := by
  refine hr.inv (I := Kept) ⟨_, _, Life.start, Owned.start, ?_, ?_⟩ ?_
  · refine ⟨fun w n r hw => ?_, fun x n _ hx => ?_, fun w n sock got hw => ?_, fun i n hi => ?_⟩
    · simp [Daemon.start, Pc.snapshot] at hw
    · cases x <;> exact absurd hx not_inTable_unbound
    · simp [Daemon.start] at hw
    · simp [Daemon.start] at hi
  · refine ⟨fun k n _ => by simp [Daemon.start], fun n hn => ?_⟩
    rcases hn with ⟨w, hw⟩ | ⟨t, ht, -⟩
    · simp [Daemon.start, Pc.detached] at hw
    · simp [Daemon.start] at ht
  · rintro s e u ⟨duty, owner, hl, ho, ht, hm⟩ ⟨hc, hpr⟩ hu
    obtain ⟨duty', hl'⟩ := hl.step hu
    obtain ⟨owner', ho'⟩ := ho.step hl hc hu
    exact ⟨duty', owner', hl', ho', ht.step ho hl hm.clear hc hpr hu, hm.step ho hl hc hpr hu⟩

omit [DecidableEq ω] in
theorem Kept.confined {s : Daemon ω} (h : Kept s) : s.Confined := by
  obtain ⟨duty, owner, hl, ho, ht, hm⟩ := h
  have hget : ∀ {r : Ref} {i}, s.sockGet r.id = some i → inTable r.id ∧ i = s.life r.id := by
    intro r i hi
    simp only [Daemon.sockGet, Option.ite_none_right_eq_some, Option.some.injEq] at hi
    exact ⟨hi.1.1, hi.2.symm⟩
  have hclosed : ∀ i, s.past.closes i = 1 → s.Closed i := by
    refine fun i hi => ⟨hi, fun k hk he => ?_⟩
    have := ho.slots.unclosed k hk
    rw [he, hi] at this
    cases this
  have hbound : ∀ i n, s.past.bound i = some n → (∃ t, s.task n = some t ∧ t.sock.life = i) ∨ s.Leaving n i ∨ s.Closed i := by
    intro i n hi
    rcases ht.bound i n hi with ⟨x, hx, hr, rfl⟩ | hc
    · cases x with
      | task m =>
        obtain rfl : m = n := Option.some.inj hx
        cases htask : s.task m with
        | none =>
          rw [show s.hand (.task m) = .unbound by simp [Daemon.hand, htask]] at hr
          exact absurd hr not_inTable_unbound
        | some t => exact Or.inl ⟨t, rfl, by simp [Daemon.hand, htask]⟩
      | fin m =>
        obtain rfl : m = n := Option.some.inj hx
        cases htask : s.task m with
        | none =>
          rw [show s.hand (.fin m) = .unbound by simp [Daemon.hand, htask]] at hr
          exact absurd hr not_inTable_unbound
        | some t =>
          have hfin : s.hand (.fin m) = t.fin := by simp [Daemon.hand, htask]
          rw [hfin] at hr ⊢
          unfold Task.fin at hr ⊢
          split at hr
          · rename_i hd
            rw [if_pos hd]
            exact Or.inr (Or.inl (Or.inr ⟨t, htask, hd.1, hr, rfl⟩))
          · exact absurd hr not_inTable_unbound
      | closer w => exact Or.inr (Or.inl (Or.inl ⟨w, hx, hr, rfl⟩))
      | opener w => cases hx
      | accepted => cases hx
      | lost => cases hx
      | closed => cases hx
    · exact Or.inr (Or.inr (hclosed i hc))
  refine ⟨fun w n r i hw hi => ?_, fun w n i hw hi => ?_, fun m n t c h1 h2 htab he => ?_, hm.map, hbound, fun i n hi hn => ?_⟩
  · obtain ⟨htab, rfl⟩ := hget hi
    rw [(ho.snapshot w n r hw htab).1.2]
    exact ht.snapshot w n r hw htab
  · obtain ⟨htab, rfl⟩ := hget hi
    rw [show s.life (s.pc w).held.id = (s.pc w).held.life from (ho.hand (.closer w) htab).1.2]
    exact ht.hands (.closer w) n hw htab
  · have := (hm.map t.sock.id m htab).mpr ⟨t, h1, rfl⟩
    rw [(hm.map t.sock.id n htab).mpr ⟨c, h2, he.symm⟩] at this
    exact (Option.some.inj this).symm
  · -- nobody is left to have it in hand
    have hgone : s.task n = none := by
      cases htask : s.task n with
      | none => rfl
      | some t => exact absurd ((hl.freed n t htask).symm.trans hn) (by simp)
    rcases hbound i n hi with ⟨t, ht, -⟩ | (⟨w, hw, -⟩ | ⟨t, ht, -⟩) | hc
    · exact absurd (hgone.symm.trans ht) (by simp)
    · obtain ⟨t, ht⟩ := hl.works hw
      exact absurd (hgone.symm.trans ht) (by simp)
    · exact absurd (hgone.symm.trans ht) (by simp)
    · exact hc

theorem sockets_confined (s : Daemon ω) (hr : Reach Daemon.step (fun s e => s.Careful e ∧ s.Proper e) Daemon.start s) :
    s.Confined :=
  (kept_reach hr).confined

instance (s : Daemon ω) (n : ℕ) : Decidable (s.Unbound n) := decidable_of_iff (¬ inTable (s.hand (.task n)).id) Mapped.unbound_iff.symm

instance [Fintype ω] (s : Daemon ω) (n : ℕ) : Decidable (s.Detached n) :=
  decidable_of_iff ((∃ w, (s.pc w).detached = some n) ∨ (s.task n).any Task.dead = true) (or_congr Iff.rfl (by cases s.task n <;> simp))

instance [Fintype ω] (s : Daemon ω) (e : Event ω) : Decidable (s.Proper e) :=
  match e with
  | .networkOpen | .networkDup _ | .networkClose _ _ | .request _ _ _ _ => .isTrue trivial
  | .run w ok => by
    unfold Daemon.Proper
    dsimp only
    split <;> infer_instance

/-- Node 1 listens, process 7 accepts from it and links the connection to node 2, and closes node 2. -/
def accepted : List (Event (Fin 2)) :=
  [.networkOpen, .request 0 .sockOpen 1 7, .run 0 true, .run 0 true, .run 0 true, .request 0 .sockAccept 1 7, .run 0 true, .run 0 true,
    .networkOpen, .request 1 (.sockLink 1) 2 7, .run 1 true, .run 1 true, .networkClose 1 2, .run 1 true, .run 1 true, .run 1 true,
    .run 1 true, .run 1 true, .run 1 true]

theorem sockets_confined_accepted : ∃ s : Daemon (Fin 2),
    Reach Daemon.step (fun s e => s.Careful e ∧ s.Proper e) Daemon.start s ∧ s.past.bound 2 = some 2 ∧ s.Closed 2 ∧ s.Confined := by
  have hrun : (Schemes.runIf Daemon.step (fun s e => s.prompt e && decide (s.Proper e)) (Daemon.start : Daemon (Fin 2)) accepted).map
      (fun s => (s.past.bound 2, s.past.freed 2)) = some (some 2, 1) := by
    decide +kernel
  obtain ⟨s, hs, hfacts⟩ := Option.map_eq_some_iff.mp hrun
  simp only [Prod.mk.injEq] at hfacts
  have hreach : Reach Daemon.step (fun s e => s.Careful e ∧ s.Proper e) Daemon.start s := Schemes.reach_of_runIf hs fun s e h => by
    obtain ⟨h1, h2⟩ := Bool.and_eq_true_iff.mp h
    exact ⟨s.careful_of_prompt e h1, of_decide_eq_true h2⟩
  have hconf := sockets_confined s hreach
  exact ⟨s, hreach, hfacts.1, hconf.released 2 2 hfacts.1 hfacts.2, hconf⟩

/-- Process 7 opens a socket through node 1; process 8 opens node 2, links the same id to it, and sends. -/
def stolen : List (Event (Fin 2)) :=
  [.networkOpen, .request 0 .sockOpen 1 7, .run 0 true, .run 0 true, .run 0 true, .networkOpen, .request 1 (.sockLink 0) 2 8,
    .run 1 true, .run 1 true, .request 1 .use 2 8]

theorem socket_stolen : ∃ s : Daemon (Fin 2), Reach Daemon.step Free Daemon.start s ∧ (s.pc 1).snapshot = some (2, ⟨0, 1⟩) ∧
    s.sockGet 0 = some 1 ∧ s.past.opened 1 = some 1 ∧ ¬s.Confined := by
  have hrun : (Schemes.runOps Daemon.step (Daemon.start : Daemon (Fin 2)) stolen).map
      (fun s => ((s.pc 1).snapshot, s.sockGet 0, s.past.opened 1, s.past.accepted 1)) =
      some (some (2, ⟨0, 1⟩), some 1, some 1, none) := by
    decide +kernel
  obtain ⟨s, hs, hfacts⟩ := Option.map_eq_some_iff.mp hrun
  simp only [Prod.mk.injEq] at hfacts
  obtain ⟨hsnap, hget, hopened, haccepted⟩ := hfacts
  refine ⟨s, Schemes.reach_of_runOps hs, hsnap, hget, hopened, fun h => ?_⟩
  rcases h.acts 1 2 ⟨0, 1⟩ 1 hsnap hget with he | ⟨pid, he, -⟩
  · simp [hopened] at he
  · simp [haccepted] at he

end EwokOS.Net.Netd
