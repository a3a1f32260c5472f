import EwokOS.Net.Task
import EwokOS.Schemes.Crowd
import Mathlib.Tactic.Attr.Core

/-! The life of a socket task.

    A task is live for as long as it has references. The close that drops the last one tears it down, and
    may leave the rest to the operations in flight: whoever ends the last of them frees it.

        live ──▶ torn by w ──┬──▶ gone
                             └──▶ handed over ──▶ torn by the last one out ──▶ gone -/

namespace EwokOS.Net.Netd

open Schemes (Reach Free Crowd)

variable {ω : Type}

/-! ### What a worker has in hand -/

namespace Pc

/-- The task it works on. -/
def node : Pc → Option ℕ
  | .idle => none
  | .serving _ n _ _ | .opened n _ _ | .draining n _ _ | .closing n _ | .ending n _ | .release n | .unlisted n
  | .waiting n _ _ | .recheck n _ | .finish n _ | .destroy n => some n

/-- The operation that it is in: counted in `inflight`. -/
def op : Pc → Option ℕ
  | .serving _ n _ _ | .opened n _ _ | .draining n _ _ | .closing n _ | .ending n _ => some n
  | .idle | .release _ | .unlisted _ | .waiting _ _ _ | .recheck _ _ | .finish _ _ | .destroy _ => none

/-- The task it takes down. -/
def tears : Pc → Option ℕ
  | .release n | .unlisted n | .waiting n _ _ | .recheck n _ | .finish n _ | .destroy n => some n
  | .idle | .serving _ _ _ _ | .opened _ _ _ | .draining _ _ _ | .closing _ _ | .ending _ _ => none

/-- The id that an operation goes by, with its node. `SOCK_CLOSE` goes by the one it detached. -/
def snapshot : Pc → Option (ℕ × Ref)
  | .serving _ n _ sock | .opened n sock _ | .ending n sock => some (n, sock)
  | .idle | .draining _ _ _ | .closing _ _ | .release _ | .unlisted _ | .waiting _ _ _ | .recheck _ _ | .finish _ _
  | .destroy _ => none

/-- The socket it is going to close. -/
def held : Pc → Ref
  | .draining _ old _ | .closing _ old => old
  | .waiting _ fin _ | .recheck _ fin | .finish _ fin => fin
  | .idle | .serving _ _ _ _ | .opened _ _ _ | .ending _ _ | .release _ | .unlisted _ | .destroy _ => .unbound

/-- The socket it made and did not bind yet. -/
def got : Pc → Ref
  | .opened _ _ got => got
  | .idle | .serving _ _ _ _ | .draining _ _ _ | .closing _ _ | .ending _ _ | .release _ | .unlisted _ | .waiting _ _ _
  | .recheck _ _ | .finish _ _ | .destroy _ => .unbound

/-- The task whose operations it waits for. -/
def drains : Pc → Option ℕ
  | .draining n _ _ | .waiting n _ _ | .recheck n _ => some n
  | .idle | .serving _ _ _ _ | .opened _ _ _ | .closing _ _ | .ending _ _ | .release _ | .unlisted _ | .finish _ _
  | .destroy _ => none

/-- Past the last look at `inflight`. -/
def late : Pc → Bool
  | .finish _ _ | .destroy _ => true
  | .idle | .serving _ _ _ _ | .opened _ _ _ | .draining _ _ _ | .closing _ _ | .ending _ _ | .release _ | .unlisted _
  | .waiting _ _ _ | .recheck _ _ => false

variable {p : Pc} {n : ℕ}

theorem node_op (h : p.op = some n) : p.node = some n := by
  cases p <;> simp_all [op, node]

theorem node_tears (h : p.tears = some n) : p.node = some n := by
  cases p <;> simp_all [tears, node]

theorem op_or_tears (h : p.node = some n) : p.op = some n ∨ p.tears = some n := by
  cases p <;> simp_all [op, tears, node]

theorem op_snapshot {r : Ref} (h : p.snapshot = some (n, r)) : p.op = some n := by
  cases p <;> simp_all [snapshot, op]

/-- Counted in the `inflight` of `n`. -/
def counted (n : ℕ) (p : Pc) : Bool := p.op = some n

@[simp] theorem counted_iff : counted n p = true ↔ p.op = some n := by simp [counted]

theorem not_counted (h : p.op ≠ some n) : counted n p = false := by simp [counted, h]

end Pc

/-! ### The stack's part leaves the tasks alone -/

namespace Daemon
variable (s : Daemon ω)

theorem sockOpen_frame (ok : Bool) (n : ℕ) :
    (s.sockOpen ok n).1.task = s.task ∧ (s.sockOpen ok n).1.list = s.list ∧ (s.sockOpen ok n).1.nodes = s.nodes ∧
      (s.sockOpen ok n).1.past.freed = s.past.freed ∧ (s.sockOpen ok n).1.pc = s.pc := by
  unfold sockOpen
  split <;> exact ⟨rfl, rfl, rfl, rfl, rfl⟩

theorem sockAccept_frame (ok : Bool) (pid : ℕ) (sock : Ref) :
    (s.sockAccept ok pid sock).task = s.task ∧ (s.sockAccept ok pid sock).list = s.list ∧
      (s.sockAccept ok pid sock).nodes = s.nodes ∧ (s.sockAccept ok pid sock).past.freed = s.past.freed ∧
      (s.sockAccept ok pid sock).pc = s.pc := by
  unfold sockAccept
  split <;> exact ⟨rfl, rfl, rfl, rfl, rfl⟩

theorem sockClose_frame (r : Ref) :
    (s.sockClose r).task = s.task ∧ (s.sockClose r).list = s.list ∧ (s.sockClose r).nodes = s.nodes ∧
      (s.sockClose r).past.freed = s.past.freed ∧ (s.sockClose r).pc = s.pc := by
  unfold sockClose
  split <;> exact ⟨rfl, rfl, rfl, rfl, rfl⟩

end Daemon

/-! ### The life of a task -/

/-- Who is to take a task down. -/
inductive Duty (ω : Type) where
  | unborn
  | live
  | torn (w : ω)
  /-- The last operation out. -/
  | handed
  | gone

/-- What the duty says of the task. -/
def Duty.Fits (s : Daemon ω) (n : ℕ) : Duty ω → Prop
  | .unborn => s.task n = none ∧ s.past.freed n = 0 ∧ (n = 0 ∨ s.nodes ≤ n)
  | .live => ∃ t, s.task n = some t ∧ t.closing = false ∧ 0 < t.refs ∧ t.dead = false
  | .torn w => (s.pc w).tears = some n ∧ ∃ t, s.task n = some t ∧ t.closing = true ∧ t.refs = 0 ∧
    if (s.pc w).late = true then t.inflight = 0 else t.dead = false
  | .handed => ∃ t, s.task n = some t ∧ t.closing = true ∧ t.refs = 0 ∧ t.dead = true ∧ 0 < t.inflight
  | .gone => s.task n = none ∧ s.past.freed n = 1

structure Life (s : Daemon ω) (duty : ℕ → Duty ω) : Prop where
  nodes : 0 < s.nodes
  ahead : ∀ n, s.nodes ≤ n → duty n = .unborn
  fits : ∀ n, (duty n).Fits s n
  tears : ∀ w n, (s.pc w).tears = some n → duty n = .torn w
  freed : ∀ n t, s.task n = some t → s.past.freed n = 0
  op : ∀ w n, (s.pc w).op = some n → ∃ t, s.task n = some t
  crowd : ∀ n t, s.task n = some t → Crowd (Pc.counted n) s.pc t.inflight
  list : ∀ n ∈ s.list, duty n = .live ∨ ∃ w, duty n = .torn w ∧ s.pc w = .release n
  nodup : s.list.Nodup

theorem Duty.Fits.frame {s u : Daemon ω} {m : ℕ} {d : Duty ω} (h : d.Fits s m) (htask : u.task m = s.task m)
    (hfreed : u.past.freed m = s.past.freed m) (hnodes : u.nodes = s.nodes) (hpc : ∀ w, d = .torn w → u.pc w = s.pc w) :
    d.Fits u m := by
  cases d with
  | unborn => simpa only [Fits, htask, hfreed, hnodes] using h
  | live => simpa only [Fits, htask] using h
  | torn w => simpa only [Fits, htask, hpc w rfl] using h
  | handed => simpa only [Fits, htask] using h
  | gone => simpa only [Fits, htask, hfreed] using h

namespace Life
variable {s u : Daemon ω} {duty : ℕ → Duty ω} {w : ω} {n : ℕ} {t : Task}

theorem start : Life (Daemon.start : Daemon ω) fun _ => .unborn :=
  ⟨Nat.one_pos, fun _ _ => rfl, fun n => ⟨rfl, rfl, by simp only [Daemon.start]; omega⟩, fun _ _ h => by simp [Daemon.start, Pc.tears] at h,
    fun _ _ h => by simp [Daemon.start] at h, fun _ _ h => by simp [Daemon.start, Pc.op] at h,
    fun _ _ h => by simp [Daemon.start] at h, fun _ h => by simp [Daemon.start] at h, List.nodup_nil⟩

/-- One task changes, and workers that have to do with no other. -/
theorem turn (h : Life s duty) (d : Duty ω) (hn : n < s.nodes)
    (hpc : ∀ v, u.pc v = s.pc v ∨ (∀ m, (s.pc v).node = some m → m = n) ∧ ∀ m, (u.pc v).node = some m → m = n)
    (htask : ∀ m, m ≠ n → u.task m = s.task m) (hnodes : u.nodes = s.nodes)
    (hfreed : ∀ m, m ≠ n → u.past.freed m = s.past.freed m) (hlist : u.list.Sublist s.list)
    (hfit : d.Fits u n) (htears : ∀ v, (u.pc v).tears = some n → d = .torn v)
    (hself : ∀ t, u.task n = some t → u.past.freed n = 0 ∧ Crowd (Pc.counted n) u.pc t.inflight)
    (hop : ∀ v, (u.pc v).op = some n → ∃ t, u.task n = some t)
    (hl : n ∈ u.list → d = .live ∨ ∃ v, d = .torn v ∧ u.pc v = .release n) :
    Life u (Function.update duty n d) := by
  have hother : ∀ {m}, m ≠ n → ∀ v, u.pc v = s.pc v ∨ (s.pc v).node ≠ some m ∧ (u.pc v).node ≠ some m := by
    intro m hm v
    exact (hpc v).imp_right fun ⟨h1, h2⟩ => ⟨fun he => hm (h1 m he), fun he => hm (h2 m he)⟩
  refine ⟨by rw [hnodes]; exact h.nodes, fun m hm => ?_, fun m => ?_, fun v m ht => ?_, fun m t ht => ?_, fun v m ho => ?_,
    fun m t ht => ?_, fun m hm => ?_, h.nodup.sublist hlist⟩
  · rw [hnodes] at hm
    rw [Function.update_of_ne (Nat.ne_of_gt (Nat.lt_of_lt_of_le hn hm))]
    exact h.ahead m hm
  · by_cases hm : m = n
    · subst hm
      simpa using hfit
    rw [Function.update_of_ne hm]
    refine (h.fits m).frame (htask m hm) (hfreed m hm) hnodes fun v hv => ?_
    have hfits := h.fits m
    rw [hv] at hfits
    rcases hother hm v with he | ⟨hne, -⟩
    · exact he
    · exact absurd (Pc.node_tears hfits.1) hne
  · by_cases hm : m = n
    · subst hm
      simpa using htears v ht
    rw [Function.update_of_ne hm]
    rcases hother hm v with he | ⟨-, hne⟩
    · exact h.tears v m (he ▸ ht)
    · exact absurd (Pc.node_tears ht) hne
  · by_cases hm : m = n
    · subst hm
      exact (hself t ht).1
    rw [hfreed m hm]
    exact h.freed m t (htask m hm ▸ ht)
  · by_cases hm : m = n
    · subst hm
      exact hop v ho
    rw [htask m hm]
    rcases hother hm v with he | ⟨-, hne⟩
    · exact h.op v m (he ▸ ho)
    · exact absurd (Pc.node_op ho) hne
  · by_cases hm : m = n
    · subst hm
      exact (hself t ht).2
    refine (h.crowd m t (htask m hm ▸ ht)).congr fun v => ?_
    rcases hother hm v with he | ⟨h1, h2⟩
    · rw [he]
    · rw [Pc.not_counted fun ho => h1 (Pc.node_op ho), Pc.not_counted fun ho => h2 (Pc.node_op ho)]
  · by_cases hmn : m = n
    · subst hmn
      simpa using hl hm
    rw [Function.update_of_ne hmn]
    rcases h.list m (hlist.subset hm) with hlive | ⟨v, hv, hrel⟩
    · exact Or.inl hlive
    · refine Or.inr ⟨v, hv, ?_⟩
      rcases hother hmn v with he | ⟨hne, -⟩
      · rw [he]
        exact hrel
      · exact absurd (by simp [hrel, Pc.node]) hne

theorem lt_nodes (h : Life s duty) (ht : s.task n = some t) : n < s.nodes := by
  by_contra hge
  have hfits := h.fits n
  rw [h.ahead n (Nat.le_of_not_lt hge)] at hfits
  exact absurd (hfits.1.symm.trans ht) (by simp)

theorem of_findLive_task (hf : s.findLive n = some t) : s.task n = some t := by
  simp only [Daemon.findLive, Option.ite_none_right_eq_some] at hf
  exact hf.2

/-- A task on the list is referenced, or about to leave it. -/
theorem of_findLive (h : Life s duty) (hf : s.findLive n = some t) :
    s.task n = some t ∧ (t.refs ≠ 0 ∨ t.closing = false → duty n = .live) := by
  simp only [Daemon.findLive, Option.ite_none_right_eq_some] at hf
  obtain ⟨⟨-, hin⟩, ht⟩ := hf
  refine ⟨ht, fun hopen => ?_⟩
  rcases h.list n hin with hlive | ⟨v, hv, -⟩
  · exact hlive
  · have hfits := h.fits n
    rw [hv] at hfits
    obtain ⟨-, c, ht', hc, hr, -⟩ := hfits
    cases ht.symm.trans ht'
    rcases hopen with hopen | hopen
    · exact absurd hr hopen
    · rw [hc] at hopen
      cases hopen

/-- A task on the list that is not closing is not dead. -/
theorem of_findLive_open (h : Life s duty) (hf : s.findLive n = some t) (hopen : t.closing = false) : t.dead = false := by
  obtain ⟨ht, hlive⟩ := h.of_findLive hf
  have hfits := h.fits n
  rw [hlive (Or.inr hopen)] at hfits
  obtain ⟨t₀, ht₀, -, -, hdead⟩ := hfits
  cases ht.symm.trans ht₀
  exact hdead

/-- Who tears a task down has it still. -/
theorem of_tears (h : Life s duty) (hp : (s.pc w).tears = some n) :
    duty n = .torn w ∧ ∃ t, s.task n = some t ∧ t.closing = true ∧ t.refs = 0 ∧
      if (s.pc w).late = true then t.inflight = 0 else t.dead = false := by
  have hfits := h.fits n
  rw [h.tears w n hp] at hfits
  exact ⟨h.tears w n hp, hfits.2⟩

/-- The task a worker works on is there. -/
theorem works (h : Life s duty) (hp : (s.pc w).node = some n) : ∃ t, s.task n = some t := by
  rcases Pc.op_or_tears hp with ho | ht
  · exact h.op w n ho
  · obtain ⟨-, t, ht', -⟩ := h.of_tears ht
    exact ⟨t, ht'⟩

/-- Where nobody is in an operation on a task, nobody goes by a socket with it. -/
theorem nobody (h : Life s duty) (ht : s.task n = some t) (hzero : t.inflight = 0) (v : ω) (r : Ref) :
    (s.pc v).snapshot ≠ some (n, r) := by
  intro hv
  have := (h.crowd n t ht).pos (t := v) (by simp [Pc.op_snapshot hv])
  omega

/-- The reference count of a live task changes. -/
theorem touch {c : Task} (h : Life s duty) (ht : s.task n = some t) (hlive : duty n = .live) (hin : c.inflight = t.inflight)
    (hclosing : c.closing = false) (hrefs : 0 < c.refs) (hdead : c.dead = false) : Life (s.setTask n c) duty := by
  have := h.turn (u := s.setTask n c) .live (h.lt_nodes ht) (fun _ => Or.inl rfl) (fun m hm => by simp [Daemon.setTask, hm])
    rfl (fun _ _ => rfl) (List.Sublist.refl _) ⟨c, by simp [Daemon.setTask], hclosing, hrefs, hdead⟩
    (fun v hv => hlive ▸ h.tears v n hv) ?_ (fun v _ => ⟨c, by simp [Daemon.setTask]⟩) (fun _ => Or.inl rfl)
  · rwa [← hlive, Function.update_eq_self] at this
  · intro t₀ ht₀
    obtain rfl : c = t₀ := by simpa [Daemon.setTask] using ht₀
    refine ⟨h.freed n t ht, ?_⟩
    rw [hin]
    exact h.crowd n t ht

variable [DecidableEq ω] {c : Task} {b : Pc}

/-- The part of a task that its life is about. -/
def Alike (c t : Task) : Prop :=
  c.refs = t.refs ∧ c.inflight = t.inflight ∧ c.closing = t.closing ∧ c.dead = t.dead

theorem one_pc (hw : ∀ m, (s.pc w).node = some m → m = n) (hb : ∀ m, b.node = some m → m = n) (v : ω) :
    Function.update s.pc w b v = s.pc v ∨
      (∀ m, (s.pc v).node = some m → m = n) ∧ ∀ m, (Function.update s.pc w b v).node = some m → m = n := by
  by_cases hv : v = w
  · subst hv
    simpa using Or.inr ⟨hw, hb⟩
  · exact Or.inl (by simp [hv])

/-- A worker goes on in its operation, or in its teardown. -/
theorem move (h : Life s duty) (hnode : (s.pc w).node = some n) (ht : s.task n = some t) (ht' : u.task n = some c)
    (halike : Alike c t) (hpc : u.pc = Function.update s.pc w b) (hop : b.op = (s.pc w).op) (htears : b.tears = (s.pc w).tears)
    (hlate : b.late = true → (s.pc w).late = true ∨ t.inflight = 0) (hearly : (s.pc w).late = true → b.late = true)
    (htask : ∀ m, m ≠ n → u.task m = s.task m) (hnodes : u.nodes = s.nodes) (hfreed : u.past.freed = s.past.freed)
    (hlist : u.list.Sublist s.list) (hl : s.pc w = .release n → n ∉ u.list) : Life u duty := by
  obtain ⟨hrefs, hin, hclosing, hdead⟩ := halike
  have hbn : ∀ m, b.node = some m → m = n := by
    intro m hm
    rcases Pc.op_or_tears hm with ho | ho
    · exact Option.some.inj ((Pc.node_op (hop.symm.trans ho)).symm.trans hnode)
    · exact Option.some.inj ((Pc.node_tears (htears.symm.trans ho)).symm.trans hnode)
  have hof : ∀ v, (u.pc v).op = (s.pc v).op ∧ (u.pc v).tears = (s.pc v).tears := by
    intro v
    rw [hpc]
    by_cases hv : v = w
    · subst hv
      simp [hop, htears]
    · simp [hv]
  have := h.turn (u := u) (n := n) (duty n) (h.lt_nodes ht) (fun v => by rw [hpc]; exact one_pc (by simp [hnode]) hbn v) htask hnodes
    (fun m _ => by rw [hfreed]) hlist ?_ (fun v hv => h.tears v n ((hof v).2 ▸ hv)) ?_ (fun v _ => ⟨c, ht'⟩) ?_
  · simpa using this
  · have hfits := h.fits n
    cases hd : duty n <;> rw [hd] at hfits
    · exact absurd (hfits.1.symm.trans ht) (by simp)
    · obtain ⟨t₀, ht₀, h1, h2, h3⟩ := hfits
      cases ht.symm.trans ht₀
      exact ⟨c, ht', by rw [hclosing, h1], by rw [hrefs]; exact h2, by rw [hdead, h3]⟩
    · rename_i v
      obtain ⟨htv, t₀, ht₀, h1, h2, h3⟩ := hfits
      cases ht.symm.trans ht₀
      refine ⟨(hof v).2.trans htv, c, ht', by rw [hclosing, h1], by rw [hrefs, h2], ?_⟩
      by_cases hv : v = w
      · subst hv
        rw [hpc, Function.update_self, hin, hdead]
        split at h3
        · rename_i hs
          simpa [hearly hs] using h3
        · rename_i hs
          split
          · rename_i hs'
            exact (hlate hs').resolve_left hs
          · exact h3
      · rw [hpc, Function.update_of_ne hv, hin, hdead]
        exact h3
    · obtain ⟨t₀, ht₀, h1, h2, h3, h4⟩ := hfits
      cases ht.symm.trans ht₀
      exact ⟨c, ht', by rw [hclosing, h1], by rw [hrefs, h2], by rw [hdead, h3], by rw [hin]; exact h4⟩
    · exact absurd (hfits.1.symm.trans ht) (by simp)
  · intro t₀ ht₀
    cases ht'.symm.trans ht₀
    refine ⟨by rw [hfreed]; exact h.freed n t ht, ?_⟩
    rw [hin]
    exact (h.crowd n t ht).congr fun v => by simp [Pc.counted, hof v]
  · intro hm
    rcases h.list n (hlist.subset hm) with hlive | ⟨v, hv, hrel⟩
    · exact Or.inl hlive
    · refine Or.inr ⟨v, hv, ?_⟩
      have hne : v ≠ w := by
        rintro rfl
        exact hl hrel hm
      simpa [hpc, hne] using hrel

theorem networkOpen (h : Life s duty) (hu : s.step .networkOpen = some u) :
    Life u (Function.update duty s.nodes .live) := by
  cases hu
  have hunborn := h.ahead s.nodes (Nat.le_refl _)
  have hfits := h.fits s.nodes
  rw [hunborn] at hfits
  obtain ⟨hnone, hfreed, -⟩ := hfits
  have hnobody : ∀ v, (s.pc v).node ≠ some s.nodes := by
    intro v hv
    obtain ⟨t, ht⟩ := h.works hv
    exact absurd (hnone.symm.trans ht) (by simp)
  refine ⟨Nat.succ_pos _, fun m hm => ?_, fun m => ?_, fun v m ht => ?_, fun m t ht => ?_, fun v m ho => ?_, fun m t ht => ?_,
    fun m hm => ?_, ?_⟩
  · rw [Function.update_of_ne (Nat.ne_of_gt hm)]
    exact h.ahead m (Nat.le_of_succ_le hm)
  · by_cases hm : m = s.nodes
    · subst hm
      simp [Duty.Fits]
    · have hfm := h.fits m
      rw [Function.update_of_ne hm]
      cases hd : duty m <;> rw [hd] at hfm <;> simp only [Duty.Fits, Function.update_of_ne hm] at hfm ⊢
      · exact ⟨hfm.1, hfm.2.1, by omega⟩
      all_goals exact hfm
  · have hm : m ≠ s.nodes := fun he => hnobody v (he ▸ Pc.node_tears ht)
    rw [Function.update_of_ne hm]
    exact h.tears v m ht
  · by_cases hm : m = s.nodes
    · subst hm
      exact hfreed
    · exact h.freed m t (by simpa [hm] using ht)
  · have hm : m ≠ s.nodes := fun he => hnobody v (he ▸ Pc.node_op ho)
    simpa [hm] using h.op v m ho
  · by_cases hm : m = s.nodes
    · subst hm
      simp only [Function.update_self, Option.some.injEq] at ht
      subst ht
      exact Crowd.empty fun v => Pc.not_counted fun ho => hnobody v (Pc.node_op ho)
    · exact h.crowd m t (by simpa [hm] using ht)
  · rcases List.mem_append.mp hm with hold | hnew
    · have hne : m ≠ s.nodes := by
        rintro rfl
        rcases h.list _ hold with hlive | ⟨v, hv, -⟩
        · rw [hunborn] at hlive
          cases hlive
        · rw [hunborn] at hv
          cases hv
      rw [Function.update_of_ne hne]
      exact h.list m hold
    · left
      rw [List.mem_singleton.mp hnew, Function.update_self]
  · refine List.nodup_append.mpr ⟨h.nodup, List.nodup_singleton _, fun m hm k hk => ?_⟩
    rw [List.mem_singleton.mp hk]
    rintro rfl
    rcases h.list _ hm with hlive | ⟨v, hv, -⟩
    · rw [hunborn] at hlive
      cases hlive
    · rw [hunborn] at hv
      cases hv

theorem networkDup (h : Life s duty) (hu : s.step (.networkDup n) = some u) : Life u duty := by
  simp only [Daemon.step] at hu
  cases hf : s.findLive n with
  | none =>
    rw [hf] at hu
    cases hu
    exact h
  | some t =>
    rw [hf] at hu
    cases hu
    split
    · exact h
    · rename_i hopen
      have hopen : t.closing = false := by simpa using hopen
      obtain ⟨ht, hlive⟩ := h.of_findLive hf
      have hlive := hlive (Or.inr hopen)
      have hfits := h.fits n
      rw [hlive] at hfits
      obtain ⟨t₀, ht₀, -, -, hdead⟩ := hfits
      cases ht.symm.trans ht₀
      exact h.touch ht hlive rfl hopen (Nat.succ_pos _) hdead

theorem networkClose (h : Life s duty) (hu : s.step (.networkClose w n) = some u) : ∃ duty', Life u duty' := by
  simp only [Daemon.step, Option.ite_none_right_eq_some] at hu
  obtain ⟨hidle, hu⟩ := hu
  cases hf : s.findLive n with
  | none =>
    rw [hf] at hu
    cases hu
    exact ⟨duty, h⟩
  | some t =>
    rw [hf] at hu
    cases hu
    split
    · rename_i hpos
      obtain ⟨ht, hlive⟩ := h.of_findLive hf
      have hlive := hlive (Or.inl (Nat.ne_of_gt hpos))
      have hfits := h.fits n
      rw [hlive] at hfits
      obtain ⟨t₀, ht₀, hopen, -, hdead⟩ := hfits
      cases ht.symm.trans ht₀
      have hout : ∀ v, (s.pc v).tears ≠ some n := by
        intro v hv
        have := h.tears v n hv
        rw [hlive] at this
        cases this
      simp only [Daemon.networkClose]
      split
      · -- the last reference: the task is torn down by this worker
        refine ⟨_, h.turn (.torn w) (h.lt_nodes ht) (one_pc (s := s) (by simp [hidle, Pc.node]) (by simp [Pc.node])) (fun m hm => ?_)
          rfl (fun _ _ => rfl) (List.Sublist.refl _) ?_ (fun v hv => ?_) (fun c ht' => ?_) (fun v _ => ?_) (fun _ => ?_)⟩
        · simp [Daemon.setTask, Daemon.goto, hm]
        · simp [Duty.Fits, Daemon.setTask, Daemon.goto, Pc.tears, Pc.late, hdead]
        · by_cases hvw : v = w
          · rw [hvw]
          · exact absurd (by simpa [Daemon.setTask, Daemon.goto, hvw] using hv) (hout v)
        · obtain rfl := by simpa [Daemon.setTask, Daemon.goto] using ht'
          refine ⟨h.freed n t ht, (h.crowd n t ht).stay ?_⟩
          simp [Pc.counted, hidle, Pc.op]
        · simp [Daemon.setTask, Daemon.goto]
        · exact Or.inr ⟨w, rfl, by simp [Daemon.goto]⟩
      · rename_i hne
        exact ⟨duty, h.touch ht hlive rfl hopen (by simp only; omega) hdead⟩
    · exact ⟨duty, h⟩

theorem request {req : Req} {pid : ℕ} (h : Life s duty) (hu : s.step (.request w req n pid) = some u) : Life u duty := by
  simp only [Daemon.step, Option.ite_none_right_eq_some] at hu
  obtain ⟨hidle, hu⟩ := hu
  cases hf : s.findLive n with
  | none =>
    rw [hf] at hu
    cases hu
    exact h
  | some t =>
    rw [hf] at hu
    cases hu
    split
    · exact h
    · rename_i hopen
      have hopen : t.closing = false := by simpa using hopen
      obtain ⟨ht, hlive⟩ := h.of_findLive hf
      have hlive := hlive (Or.inr hopen)
      have hfits := h.fits n
      rw [hlive] at hfits
      obtain ⟨t₀, ht₀, -, hrefs, hdead⟩ := hfits
      cases ht.symm.trans ht₀
      rw [← Function.update_eq_self n duty, hlive]
      refine h.turn .live (h.lt_nodes ht) (one_pc (s := s) (by simp [hidle, Pc.node]) (by simp [Pc.node])) (fun m hm => ?_)
        rfl (fun _ _ => rfl) (List.Sublist.refl _) ?_ (fun v hv => ?_) (fun c ht' => ?_) (fun v _ => ?_) (fun _ => Or.inl rfl)
      · simp [Daemon.setTask, Daemon.goto, hm]
      · simp [Duty.Fits, Daemon.setTask, Daemon.goto, hopen, hrefs, hdead]
      · by_cases hvw : v = w
        · subst hvw
          simp [Daemon.goto, Pc.tears] at hv
        · rw [← hlive]
          exact h.tears v n (by simpa [Daemon.setTask, Daemon.goto, hvw] using hv)
      · obtain rfl := by simpa [Daemon.setTask, Daemon.goto] using ht'
        refine ⟨h.freed n t ht, (h.crowd n t ht).join ?_ ?_⟩
        · simp [Pc.counted, hidle, Pc.op]
        · simp [Pc.counted, Pc.op]
      · simp [Daemon.setTask, Daemon.goto]

/-- A step of a worker that changes no task, list or freed count. -/
theorem stay {p : Pc} (h : Life s duty) (hp : s.pc w = p) (hnode : p.node = some n) (htask : u.task = s.task)
    (hlist : u.list = s.list) (hnodes : u.nodes = s.nodes) (hfreed : u.past.freed = s.past.freed)
    (hpc : u.pc = Function.update s.pc w b) (hop : b.op = p.op) (htears : b.tears = p.tears)
    (hlate : b.late = p.late) (hrel : p ≠ .release n) : Life u duty := by
  subst hp
  obtain ⟨t, ht⟩ := h.works hnode
  exact h.move hnode ht (by rw [htask, ht]) ⟨rfl, rfl, rfl, rfl⟩ hpc hop htears (fun hb => Or.inl (hlate ▸ hb))
    (fun hb => hlate.trans hb) (fun m _ => by rw [htask]) hnodes hfreed (by rw [hlist]) (fun hr => absurd hr hrel)

/-- A step of a worker that changes the socket of its task. -/
theorem rebind {p : Pc} {r : Ref} (h : Life s duty) (hp : s.pc w = p) (hnode : p.node = some n) (ht : s.task n = some t)
    (htask : u.task = Function.update s.task n (some { t with sock := r })) (hlist : u.list = s.list)
    (hnodes : u.nodes = s.nodes) (hfreed : u.past.freed = s.past.freed) (hpc : u.pc = Function.update s.pc w b)
    (hop : b.op = p.op) (htears : b.tears = p.tears) (hlate : b.late = p.late) (hrel : p ≠ .release n) : Life u duty := by
  subst hp
  exact h.move (c := { t with sock := r }) hnode ht (by rw [htask, Function.update_self]) ⟨rfl, rfl, rfl, rfl⟩ hpc hop htears
    (fun hb => Or.inl (hlate ▸ hb)) (fun hb => hlate.trans hb) (fun m hm => by rw [htask, Function.update_of_ne hm]) hnodes
    hfreed (by rw [hlist]) (fun hr => absurd hr hrel)

/-- A worker leaves its operation. -/
theorem endOp {sock : Ref} (h : Life s duty) (hp : s.pc w = .ending n sock) (ht : s.task n = some t) :
    ∃ duty', Life (s.endOp w n t) duty' := by
  have ho : (s.pc w).op = some n := by simp [hp, Pc.op]
  have hcrowd := h.crowd n t ht
  have hpos : 0 < t.inflight := hcrowd.pos (t := w) (by simp [ho])
  have hfits := h.fits n
  simp only [Daemon.endOp]
  -- `d` is whose duty the task is then
  suffices hd : ∀ d b, (b = .idle ∨ b = .finish n t.finSock) →
      d.Fits ((s.setTask n { t with inflight := t.inflight - 1 }).goto w b) n →
      (∀ v, v ≠ w → (s.pc v).tears = some n → d = .torn v) → (b ≠ .idle → d = .torn w) →
      (n ∈ s.list → d = duty n) →
      Life ((s.setTask n { t with inflight := t.inflight - 1 }).goto w b) (Function.update duty n d) by
    split
    · rename_i hlast
      obtain ⟨hdead, hzero⟩ := hlast
      have hhanded : duty n = .handed := by
        cases hdn : duty n <;> rw [hdn] at hfits
        · exact absurd (hfits.1.symm.trans ht) (by simp)
        · obtain ⟨t₀, ht₀, -, -, h3⟩ := hfits
          cases ht.symm.trans ht₀
          rw [hdead] at h3
          cases h3
        · obtain ⟨-, t₀, ht₀, -, -, h3⟩ := hfits
          cases ht.symm.trans ht₀
          split at h3
          · omega
          · rw [hdead] at h3
            cases h3
        · exact absurd (hfits.1.symm.trans ht) (by simp)
      rw [hhanded] at hfits
      obtain ⟨t₀, ht₀, h1, h2, -, -⟩ := hfits
      cases ht.symm.trans ht₀
      refine ⟨_, hd (.torn w) _ (Or.inr rfl) ?_ (fun v _ hv => ?_) (fun _ => rfl) (fun hm => ?_)⟩
      · simp [Duty.Fits, Daemon.setTask, Daemon.goto, Pc.tears, Pc.late, h1, h2, hzero]
      · have := h.tears v n hv
        rw [hhanded] at this
        cases this
      · rcases h.list n hm with hl | ⟨v, hv, -⟩
        · rw [hhanded] at hl
          cases hl
        · rw [hhanded] at hv
          cases hv
    · rename_i hlast
      refine ⟨_, hd (duty n) _ (Or.inl rfl) ?_ (fun v _ hv => h.tears v n hv) (fun hb => absurd rfl hb) (fun _ => rfl)⟩
      cases hdn : duty n <;> rw [hdn] at hfits
      · exact absurd (hfits.1.symm.trans ht) (by simp)
      · obtain ⟨t₀, ht₀, h1, h2, h3⟩ := hfits
        cases ht.symm.trans ht₀
        simp [Duty.Fits, Daemon.setTask, Daemon.goto, h1, h2, h3]
      · rename_i v
        obtain ⟨htv, t₀, ht₀, h1, h2, h3⟩ := hfits
        cases ht.symm.trans ht₀
        have hv : v ≠ w := by
          rintro rfl
          simp [hp, Pc.tears] at htv
        have hlate : (s.pc v).late = false := by
          by_contra hl
          rw [if_pos (by simpa using hl)] at h3
          omega
        rw [hlate, if_neg (by simp)] at h3
        simp [Duty.Fits, Daemon.setTask, Daemon.goto, hv, htv, h1, h2, hlate, h3]
      · obtain ⟨t₀, ht₀, h1, h2, h3, h4⟩ := hfits
        cases ht.symm.trans ht₀
        have : t.inflight - 1 ≠ 0 := fun hz => hlast ⟨h3, hz⟩
        simp only [Duty.Fits, Daemon.setTask, Daemon.goto, Function.update_self]
        exact ⟨_, rfl, h1, h2, h3, by simp only; omega⟩
      · exact absurd (hfits.1.symm.trans ht) (by simp)
  intro d b hb hfit hout hself hlist
  have hbop : b.op = none := by rcases hb with rfl | rfl <;> rfl
  refine h.turn d (h.lt_nodes ht) (one_pc (s := s) (by simp [hp, Pc.node]) ?_) (fun m hm => ?_) rfl (fun _ _ => rfl)
    (List.Sublist.refl _) hfit (fun v hv => ?_) (fun c ht' => ?_) (fun v _ => ?_) (fun hm => ?_)
  · rcases hb with rfl | rfl <;> simp [Pc.node]
  · simp [Daemon.setTask, Daemon.goto, hm]
  · by_cases hvw : v = w
    · subst hvw
      refine hself ?_
      rintro rfl
      simp [Daemon.goto, Pc.tears] at hv
    · exact hout v hvw (by simpa [Daemon.setTask, Daemon.goto, hvw] using hv)
  · obtain rfl := by simpa [Daemon.setTask, Daemon.goto] using ht'
    exact ⟨h.freed n t ht, hcrowd.leave (by simp [ho]) (Pc.not_counted (by simp [hbop]))⟩
  · simp [Daemon.setTask, Daemon.goto]
  · rw [hlist hm]
    rcases h.list n hm with hl | ⟨v, hv, hrel⟩
    · exact Or.inl hl
    · refine Or.inr ⟨v, hv, ?_⟩
      have hvw : v ≠ w := by
        rintro rfl
        rw [hp] at hrel
        cases hrel
      simpa [Daemon.setTask, Daemon.goto, hvw] using hrel

/-- The second look of `release_task`. -/
theorem releaseTask {fin : Ref} (h : Life s duty) (hp : s.pc w = .recheck n fin) (ht : s.task n = some t) :
    ∃ duty', Life (s.releaseTask w n t fin) duty' := by
  obtain ⟨htorn, t₀, ht₀, h1, h2, -⟩ := h.of_tears (w := w) (n := n) (by simp [hp, Pc.tears])
  cases ht.symm.trans ht₀
  simp only [Daemon.releaseTask]
  split
  · rename_i hpos
    have hout : ∀ v, v ≠ w → (s.pc v).tears ≠ some n := by
      intro v hv he
      have := h.tears v n he
      rw [htorn] at this
      cases this
      exact hv rfl
    refine ⟨_, h.turn .handed (h.lt_nodes ht) (one_pc (s := s) (by simp [hp, Pc.node]) (by simp [Pc.node])) (fun m hm => ?_)
      rfl (fun _ _ => rfl) (List.Sublist.refl _) ?_ (fun v hv => ?_) (fun c ht' => ?_) (fun v _ => ?_) (fun hm => ?_)⟩
    · simp [Daemon.setTask, Daemon.goto, hm]
    · simp [Duty.Fits, Daemon.setTask, Daemon.goto, h1, h2, hpos]
    · by_cases hvw : v = w
      · subst hvw
        simp [Daemon.goto, Pc.tears] at hv
      · exact absurd (by simpa [Daemon.setTask, Daemon.goto, hvw] using hv) (hout v hvw)
    · obtain rfl := by simpa [Daemon.setTask, Daemon.goto] using ht'
      refine ⟨h.freed n t ht, (h.crowd n t ht).stay ?_⟩
      simp [Pc.counted, hp, Pc.op]
    · simp [Daemon.setTask, Daemon.goto]
    · rcases h.list n hm with hl | ⟨v, hv, hrel⟩
      · rw [htorn] at hl
        cases hl
      · rw [htorn] at hv
        cases hv
        rw [hp] at hrel
        cases hrel
  · rename_i hzero
    have := h.move (u := s.goto w (.finish n fin)) (by simp [hp, Pc.node]) ht ht ⟨rfl, rfl, rfl, rfl⟩ rfl (by simp [hp, Pc.op])
      (by simp [hp, Pc.tears]) (fun _ => Or.inr (by omega)) (by simp [hp, Pc.late]) (fun _ _ => rfl) rfl rfl
      (List.Sublist.refl _) (by simp [hp])
    exact ⟨duty, this⟩

/-- `task_destroy`. -/
theorem destroy {ok : Bool} (h : Life s duty) (hp : s.pc w = .destroy n) (hu : s.run w ok = some u) :
    ∃ duty', Life u duty' := by
  simp only [Daemon.run, hp] at hu
  cases hu
  obtain ⟨htorn, t, ht, -, -, hlate⟩ := h.of_tears (w := w) (n := n) (by simp [hp, Pc.tears])
  have hzero : t.inflight = 0 := by simpa [hp, Pc.late] using hlate
  have hnobody : ∀ v, (s.pc v).op ≠ some n := by
    intro v hv
    have := (h.crowd n t ht).pos (t := v) (by simp [hv])
    omega
  refine ⟨_, h.turn .gone (h.lt_nodes ht) (one_pc (s := s) (by simp [hp, Pc.node]) (by simp [Pc.node])) (fun m hm => ?_)
    rfl (fun m hm => ?_) (List.Sublist.refl _) ?_ (fun v hv => ?_) (fun c ht' => ?_) (fun v hv => ?_) (fun hm => ?_)⟩
  · simp [Daemon.goto, hm]
  · simp [Daemon.goto, hm]
  · simp [Duty.Fits, Daemon.goto, h.freed n t ht]
  · by_cases hvw : v = w
    · subst hvw
      simp [Daemon.goto, Pc.tears] at hv
    · have := h.tears v n (by simpa [Daemon.goto, hvw] using hv)
      rw [htorn] at this
      cases this
      exact absurd rfl hvw
  · simp [Daemon.goto] at ht'
  · by_cases hvw : v = w
    · subst hvw
      simp [Daemon.goto, Pc.op] at hv
    · exact absurd (by simpa [Daemon.goto, hvw] using hv) (hnobody v)
  · rcases h.list n hm with hl | ⟨v, hv, hrel⟩
    · rw [htorn] at hl
      cases hl
    · rw [htorn] at hv
      cases hv
      rw [hp] at hrel
      cases hrel

theorem run {ok : Bool} (h : Life s duty) (hu : s.run w ok = some u) : ∃ duty', Life u duty' := by
  cases hp : s.pc w with
  | idle => simp [Daemon.run, hp] at hu
  | destroy n => exact h.destroy hp hu
  | serving req n pid sock =>
    cases req with
    | use =>
      simp only [Daemon.run, hp] at hu
      cases hu
      exact ⟨duty, h.stay hp rfl rfl rfl rfl rfl rfl rfl rfl rfl nofun⟩
    | sockOpen =>
      simp only [Daemon.run, hp] at hu
      cases hu
      obtain ⟨htask, hlist, hnodes, hfreed, hpc⟩ := s.sockOpen_frame ok n
      exact ⟨duty, h.stay (b := .opened n sock (s.sockOpen ok n).2) hp rfl htask hlist hnodes hfreed (by simp [Daemon.goto, hpc]) rfl rfl rfl nofun⟩
    | sockAccept =>
      simp only [Daemon.run, hp] at hu
      cases hu
      obtain ⟨htask, hlist, hnodes, hfreed, hpc⟩ := s.sockAccept_frame ok pid sock
      exact ⟨duty, h.stay (b := .ending n sock) hp rfl htask hlist hnodes hfreed (by simp [Daemon.goto, hpc]) rfl rfl rfl nofun⟩
    | sockLink id =>
      simp only [Daemon.run, hp] at hu
      obtain ⟨t, ht, rfl⟩ := Option.map_eq_some_iff.mp hu
      exact ⟨duty, h.rebind hp rfl ht rfl rfl rfl rfl rfl rfl rfl rfl nofun⟩
    | sockClose =>
      simp only [Daemon.run, hp] at hu
      obtain ⟨t, ht, rfl⟩ := Option.map_eq_some_iff.mp hu
      refine ⟨duty, h.rebind hp rfl ht rfl rfl rfl rfl rfl ?_ ?_ ?_ nofun⟩ <;> split <;> rfl
  | opened n sock got =>
    simp only [Daemon.run, hp] at hu
    obtain ⟨t, ht, rfl⟩ := Option.map_eq_some_iff.mp hu
    exact ⟨duty, h.rebind hp rfl ht rfl rfl rfl rfl rfl rfl rfl rfl nofun⟩
  | draining n old i =>
    simp only [Daemon.run, hp] at hu
    obtain ⟨t, ht, rfl⟩ := Option.map_eq_some_iff.mp hu
    refine ⟨duty, h.stay hp rfl rfl rfl rfl rfl rfl ?_ ?_ ?_ nofun⟩ <;> split <;> rfl
  | closing n old =>
    simp only [Daemon.run, hp] at hu
    cases hu
    obtain ⟨htask, hlist, hnodes, hfreed, hpc⟩ := s.sockClose_frame old
    exact ⟨duty, h.stay (b := .ending n .unbound) hp rfl htask hlist hnodes hfreed (by simp [Daemon.goto, hpc]) rfl rfl rfl nofun⟩
  | ending n sock =>
    simp only [Daemon.run, hp] at hu
    obtain ⟨t, ht, rfl⟩ := Option.map_eq_some_iff.mp hu
    exact h.endOp hp ht
  | release n =>
    simp only [Daemon.run, hp] at hu
    cases hu
    obtain ⟨t, ht⟩ := h.works (w := w) (n := n) (by simp [hp, Pc.node])
    have := h.move (u := { s with list := s.list.erase n }.goto w (.unlisted n)) (by simp [hp, Pc.node]) ht ht ⟨rfl, rfl, rfl, rfl⟩ rfl
      (by simp [hp, Pc.op]) (by simp [hp, Pc.tears]) (by simp [Pc.late]) (by simp [hp, Pc.late]) (fun _ _ => rfl) rfl rfl
      List.erase_sublist fun _ => h.nodup.not_mem_erase
    exact ⟨duty, this⟩
  | unlisted n =>
    simp only [Daemon.run, hp] at hu
    obtain ⟨t, ht, rfl⟩ := Option.map_eq_some_iff.mp hu
    exact ⟨duty, h.rebind hp rfl ht rfl rfl rfl rfl rfl rfl rfl rfl nofun⟩
  | waiting n fin i =>
    simp only [Daemon.run, hp] at hu
    obtain ⟨t, ht, rfl⟩ := Option.map_eq_some_iff.mp hu
    refine ⟨duty, h.stay hp rfl rfl rfl rfl rfl rfl ?_ ?_ ?_ nofun⟩ <;> split <;> rfl
  | recheck n fin =>
    simp only [Daemon.run, hp] at hu
    obtain ⟨t, ht, rfl⟩ := Option.map_eq_some_iff.mp hu
    exact h.releaseTask hp ht
  | finish n fin =>
    simp only [Daemon.run, hp] at hu
    cases hu
    obtain ⟨htask, hlist, hnodes, hfreed, hpc⟩ := s.sockClose_frame fin
    exact ⟨duty, h.stay (b := .destroy n) hp rfl htask hlist hnodes hfreed (by simp [Daemon.goto, hpc]) rfl rfl rfl nofun⟩

theorem step {e : Event ω} (h : Life s duty) (hu : s.step e = some u) : ∃ duty', Life u duty' := by
  cases e with
  | networkOpen => exact ⟨_, h.networkOpen hu⟩
  | networkDup n => exact ⟨_, h.networkDup hu⟩
  | networkClose w n => exact h.networkClose hu
  | request w req n pid => exact ⟨_, h.request hu⟩
  | run w ok => exact h.run hu

end Life

end EwokOS.Net.Netd
