import EwokOS.Net.TcpSnd
import EwokOS.Net.TcpStream

/-! Runs of one connection, on the send side (`tcp.c`): every byte that `tcp_send` has reported has a copy in
    the retransmit queue until it is acknowledged.

    With `D` the bytes reported so far, the numbers of a connection are

        iss      iss + 1 ... iss + |D|      iss + 1 + |D|
        SYN      D                          FIN, once it is queued

    and the queue is the SYNs that wait for an answer, then parts of the line without a gap up to `snd.nxt`. -/

namespace EwokOS.Net

open Schemes

/-- There is a connection. -/
def State.live : State → Bool
  | .free | .closed | .listen => false
  | _ => true

/-- The FIN has been queued. -/
def State.finned : State → Bool
  | .finWait1 | .finWait2 | .closing | .lastAck | .timeWait => true
  | _ => false

/-- The SYN has not been answered. -/
def State.early : State → Bool
  | .synSent | .synReceived => true
  | _ => false

theorem State.early_of_finned {s : State} (h : s.finned = true) : s.early = false := by
  revert h
  cases s <;> decide

/-- A change of state that queues no FIN. -/
def State.Near (s t : State) : Prop :=
  t.live = true → s.live = true ∧ t.finned = s.finned ∧ (t.early = true → s.early = true)

theorem State.Near.refl (s : State) : s.Near s := fun h => ⟨h, rfl, id⟩

structure Backed (D : List UInt8) (p : Pcb) : Prop where
  out : ∀ o ∈ p.out, o.part.Right D p.iss
  parts : ∀ x ∈ p.snd.parts, x.Right D p.iss
  unfinished : p.state.live = true → p.state.finned = false → ∀ o ∈ p.out, o.flg.fin = false
  mss : p.mss < 2 ^ 16
  next : ∀ s, p.closeState = some s → s = .finWait1 ∨ s = .lastAck
  lined : p.state.live = true →
    ∃ U, Lined D p.state.finned.toNat p.snd U ∧ (p.state.early = true → U = 0 ∧ D = [])

variable {D E : List UInt8} {p q : Pcb} {env : Env} {seg : Segment} {U A f : ℕ} {v : Snd}

theorem Lined.no_fin {x : Part} (h : Lined D 0 v U) (hx : x ∈ v.parts) : x.flg.fin = false := by
  obtain ⟨syns, rest, s, hv, hsyn, -, -, -, hchain⟩ := h.queue
  rw [hv] at hx
  rcases List.mem_append.mp hx with hx | hx
  · exact (hsyn x hx).fin
  · exact hchain.no_fin hx

namespace Backed

/-- While no FIN has been queued, there is none to send again. -/
theorem no_fin {x : Part} (h : Backed D p) (hl : p.state.live = true) (hf : p.state.finned = false)
    (hx : x ∈ p.snd.parts) : x.flg.fin = false := by
  obtain ⟨U, hU, -⟩ := h.lined hl
  rw [hf] at hU
  exact hU.no_fin hx

/-- A step that leaves the send side as it is. -/
theorem idle (h : Backed D p) (hi : p.Idle q) (hc : q.closeState = p.closeState) (hn : p.state.Near q.state) :
    Backed D q := by
  have hiss : q.iss = p.iss := congrArg Snd.iss hi.snd
  refine ⟨?_, ?_, ?_, hi.mss h.mss, ?_, ?_⟩
  · intro o ho
    rw [hiss]
    rcases hi.mem_out ho with ho | ho | ho
    · exact h.out o ho
    · exact Or.inl ho
    · exact h.parts _ ho
  · intro x hx
    rw [hi.snd] at hx
    rw [hiss]
    exact h.parts x hx
  · intro hl hf o ho
    obtain ⟨hpl, hpf, -⟩ := hn hl
    rw [hpf] at hf
    rcases hi.mem_out ho with ho | ho | ho
    · exact h.unfinished hpl hf o ho
    · exact ho.2
    · exact h.no_fin hpl hf ho
  · rw [hc]
    exact h.next
  · intro hl
    obtain ⟨hpl, hpf, hpe⟩ := hn hl
    obtain ⟨U, hU, he⟩ := h.lined hpl
    refine ⟨U, ?_, fun hq => he (hpe hq)⟩
    rw [hi.snd, hpf]
    exact hU

/-- The same, in the same state. -/
theorem idle_base (h : Backed D p) (hi : p.Idle q) (hb : q.base = p.base) : Backed D q := by
  refine h.idle hi (congrArg Base.closeState hb) ?_
  have hst : q.state = p.state := congrArg Base.state hb
  rw [hst]
  exact .refl _

theorem abort (h : Backed D p) (reason : ℕ) : Backed D (p.abort reason) where
  out := h.out
  parts := fun _ hx => absurd hx List.not_mem_nil
  unfinished := fun hl => absurd hl Bool.false_ne_true
  mss := h.mss
  next := h.next
  lined := fun hl => absurd hl Bool.false_ne_true

theorem release (h : Backed D p) : Backed D p.release := h.abort p.closeReason

/-- A part goes out before the FIN, and the line may grow with it. -/
theorem push {r : Pcb} {x : Part} (h : Backed D p) (hl : p.state.live = true) (hf : p.state.finned = false)
    (hq : p.Queues q x) (hx : x.Right (D ++ E) p.iss) (ho : r.out = q.out)
    (hs : r.snd.parts = q.snd.parts ∧ r.iss = q.iss) (hm : r.mss = q.mss)
    (hnext : ∀ s, r.closeState = some s → s = .finWait1 ∨ s = .lastAck)
    (hfin : r.state.finned = false → x.flg.fin = false)
    (hlined : r.state.live = true →
      ∃ U, Lined (D ++ E) r.state.finned.toNat r.snd U ∧ (r.state.early = true → U = 0 ∧ D ++ E = [])) :
    Backed (D ++ E) r := by
  have hiss : r.iss = p.iss := hs.2.trans (congrArg Snd.iss hq.snd)
  obtain ⟨o', hout, hpart, -⟩ := hq.out
  refine ⟨?_, ?_, ?_, by rw [hm, hq.mss]; exact h.mss, hnext, hlined⟩
  · rw [ho, hout, hiss]
    intro o hmem
    rcases List.mem_append.mp hmem with hmem | hmem
    · exact (h.out o hmem).grow (h.unfinished hl hf o hmem)
    · rw [List.mem_singleton.mp hmem, hpart]
      exact hx
  · rw [hs.1, hq.snd, hiss]
    intro y hmem
    rcases List.mem_append.mp hmem with hmem | hmem
    · exact (h.parts y hmem).grow (h.no_fin hl hf hmem)
    · rw [List.mem_singleton.mp hmem]
      exact hx
  · rw [ho, hout]
    intro _ hrf o hmem
    rcases List.mem_append.mp hmem with hmem | hmem
    · exact h.unfinished hl hf o hmem
    · have hflg : o.flg = x.flg := by
        rw [List.mem_singleton.mp hmem]
        exact congrArg Part.flg hpart
      rw [hflg]
      exact hfin hrf

/-- A SYN that is sent once more. -/
theorem outputSyn (h : Backed D p) (he : p.state.early = true) (hl : p.state.live = true)
    (hf : p.state.finned = false) : Backed D (p.output env flgSynAck []).1 := by
  have hbase : (p.output env flgSynAck []).1.base = p.base := congrArg Kept.base (p.output_kept env flgSynAck [])
  rcases p.output_cases env flgSynAck [] rfl with hno | ⟨-, hq⟩
  · rw [hno]
    exact h
  generalize (p.output env flgSynAck []).1 = q at hbase hq
  have hs : q.state = p.state := congrArg Base.state hbase
  have hc : q.closeState = p.closeState := congrArg Base.closeState hbase
  have hsyn : Part.IsSyn p.iss ⟨if flgSynAck.syn then p.iss else p.sndNxt, flgSynAck, []⟩ := ⟨rfl, rfl, rfl, rfl⟩
  generalize (⟨if flgSynAck.syn then p.iss else p.sndNxt, flgSynAck, []⟩ : Part) = x at hq hsyn
  have hgoal : Backed (D ++ []) q := by
    refine h.push hl hf hq (Or.inl ⟨hsyn.data, hsyn.fin⟩) rfl ⟨rfl, rfl⟩ rfl (by rw [hc]; exact h.next)
      (fun _ => hsyn.fin) fun _ => ?_
    obtain ⟨U, hU, hearly⟩ := h.lined hl
    obtain ⟨rfl, rfl⟩ := hearly he
    rw [hs, hf, List.append_nil]
    rw [hf] at hU
    refine ⟨0, ?_, fun _ => ⟨rfl, rfl⟩⟩
    obtain ⟨syns, rest, s, hv, hsyns, -, h1, hs', hchain⟩ := hU.queue
    -- With no number given away there are only SYNs.
    have hrest : rest = [] := by
      cases rest with
      | nil => rfl
      | cons y ys =>
        have hy := hchain.1.pos
        have hle := (Chain.span hchain.2).1
        rw [List.length_nil, Bool.toNat_false] at hle
        omega
    subst hrest
    rw [List.append_nil] at hv
    rw [hq.snd]
    refine ⟨hU.una, hU.nxt, hU.le, ?_, syns ++ [x], [], s, ?_, ?_, fun _ => rfl, h1, hs', hchain⟩
    · change (p.snd.parts ++ [x]).length ≤ _
      rw [List.length_append, List.length_singleton, Pcb.snd, List.length_map]
      exact hq.room
    · change p.snd.parts ++ [x] = _
      rw [hv, List.append_nil]
    · intro y hy
      rcases List.mem_append.mp hy with hy | hy
      · exact hsyns y hy
      · rw [List.mem_singleton.mp hy]
        exact hsyn
  rwa [List.append_nil] at hgoal

end Backed

/-! ### Segments -/

/-- What an acknowledgment does to the send side. -/
def Pcb.acked (p : Pcb) (ack : Seq) : Pcb :=
  if seqAfter ack p.sndUna then { p with sndUna := ack }.queueCleanup else { p with sndUna := ack }

theorem queueCleanup_snd : p.queueCleanup.snd =
    { p.snd with parts := p.snd.parts.dropWhile fun x => !seqAfter x.stop p.sndUna } := by
  unfold Pcb.queueCleanup Pcb.snd
  rw [List.dropWhile_map]
  rfl

theorem takeAck_idle (p : Pcb) (env : Env) (seg : Segment) : (p.acked seg.ack).Idle (p.takeAck env seg) := by
  unfold Pcb.takeAck Pcb.acked
  dsimp only
  split
  · generalize Pcb.queueCleanup _ = q
    refine (Pcb.ccAck_idle _ env _).after ?_ rfl rfl
    unfold Pcb.snd
    cases q.queue <;> rfl
  · split
    · split
      · exact .of_eq rfl rfl rfl
      · split
        · exact (Pcb.retransmitHead_idle _ env).after rfl rfl rfl
        · exact .of_eq rfl rfl rfl
    · exact .refl _

theorem ackWindow_idle (env : Env) (hb : seqBetween seg.ack p.sndUna p.sndNxt = true) :
    (p.acked seg.ack).Idle (p.ackWindow env seg) := by
  have hi := (takeAck_idle p env seg).trans (Pcb.takeWindow_idle _ seg)
  unfold Pcb.ackWindow
  rw [if_pos hb]
  generalize (p.takeAck env seg).takeWindow seg = r at hi
  dsimp only
  split
  · split <;> exact hi.trans (.of_eq rfl rfl rfl)
  · exact hi

/-- What an acknowledgment of something in flight leaves is lined up. -/
theorem Lined.acked (h : Lined D f p.snd U) (hU : U ≤ A) (hA : A ≤ 1 + D.length + f) {ack : Seq}
    (hack : ack = p.iss + BitVec.ofNat 32 A) : Lined D f (p.acked ack).snd A := by
  have hafter : seqAfter ack p.sndUna = decide (U < A) := by
    rw [hack]
    exact h.after_iff hU hA
  unfold Pcb.acked
  rw [hafter]
  by_cases hlt : U < A
  · rw [decide_eq_true hlt, if_pos rfl, queueCleanup_snd, hack]
    exact h.cleanup hlt hA
  · obtain rfl : U = A := by omega
    rw [decide_eq_false hlt, if_neg Bool.false_ne_true]
    exact ⟨hack, h.nxt, h.le, h.room, h.queue⟩

theorem acked_parts (p : Pcb) (ack : Seq) {x : Part} (hx : x ∈ (p.acked ack).snd.parts) : x ∈ p.snd.parts := by
  unfold Pcb.acked at hx
  split at hx
  · rw [queueCleanup_snd] at hx
    exact (List.dropWhile_sublist _).subset hx
  · exact hx

/-- The fields beside the send side. -/
theorem acked_same (p : Pcb) (ack : Seq) :
    (p.acked ack).out = p.out ∧ (p.acked ack).mss = p.mss ∧ (p.acked ack).base = p.base := by
  unfold Pcb.acked
  split <;> exact ⟨rfl, rfl, rfl⟩

namespace Backed

theorem acked (h : Backed D p) (hl : p.state.live = true) (he : p.state.early = false) {ack : Seq}
    (hb : seqBetween ack p.sndUna p.sndNxt = true) : Backed D (p.acked ack) := by
  obtain ⟨hout, hmss, hbase⟩ := acked_same p ack
  have hs : (p.acked ack).state = p.state := congrArg Base.state hbase
  have hiss : (p.acked ack).iss = p.iss := congrArg Base.iss hbase
  have hc : (p.acked ack).closeState = p.closeState := congrArg Base.closeState hbase
  obtain ⟨U, hU, -⟩ := h.lined hl
  obtain ⟨A, hUA, hA, hack⟩ := hU.between hb
  refine ⟨?_, ?_, ?_, by rw [hmss]; exact h.mss, by rw [hc]; exact h.next, ?_⟩
  · rw [hout, hiss]
    exact h.out
  · rw [hiss]
    exact fun x hx => h.parts x (acked_parts p ack hx)
  · rw [hs, hout]
    exact h.unfinished
  · rw [hs, he]
    exact fun _ => ⟨A, hU.acked hUA hA hack, fun h => absurd h Bool.false_ne_true⟩

theorem ackWindow (h : Backed D p) (hl : p.state.live = true) (he : p.state.early = false) :
    Backed D (p.ackWindow env seg) := by
  have hbase : (p.ackWindow env seg).base = p.base := congrArg Kept.base (p.ackWindow_kept env seg)
  by_cases hb : seqBetween seg.ack p.sndUna p.sndNxt = true
  case neg =>
    rw [Pcb.ackWindow, if_neg hb]
    exact h
  exact (h.acked hl he hb).idle_base (ackWindow_idle env hb) (hbase.trans (acked_same p seg.ack).2.2.symm)

theorem ackState (h : Backed D p) : Backed D (p.ackState env seg) := by
  obtain ⟨hk, hstep⟩ := p.ackState_kept env seg
  refine h.idle (p.ackState_idle env seg) (congrArg (fun k => k.base.closeState) hk) ?_
  generalize (p.ackState env seg).state = t at hstep
  generalize p.state = s at hstep
  cases hstep with
  | same => exact .refl _
  | finished => exact fun _ => ⟨rfl, rfl, id⟩
  | closed => exact fun _ => ⟨rfl, rfl, id⟩

theorem text (h : Backed D p) : Backed D ((p.takeText env seg).takeFin env seg) := by
  have ht : Backed D (p.takeText env seg) := h.idle_base (p.takeText_idle env seg) (p.takeText_base env seg)
  generalize p.takeText env seg = q at ht
  rcases q.takeFin_cases env seg with hk | ⟨-, -, st, hstep, hb, -⟩
  · exact ht.idle_base (q.takeFin_idle env seg) (congrArg Kept.base hk)
  · refine ht.idle (q.takeFin_idle env seg) (congrArg Base.closeState hb) ?_
    have hs : (q.takeFin env seg).state = st := congrArg Base.state hb
    rw [hs]
    generalize q.state = s at hstep
    cases hstep with
    | same => exact .refl _
    | half h => rcases h with rfl | rfl <;> exact fun _ => ⟨rfl, rfl, fun h => nomatch h⟩
    | closing => exact fun _ => ⟨rfl, rfl, id⟩
    | both h => rcases h with rfl | rfl <;> exact fun _ => ⟨rfl, rfl, id⟩

theorem stops (h : Backed D p) (hs : Pcb.Stops p env seg q) : Backed D q := by
  cases hs with
  | again hst => exact h.outputSyn (by rw [hst]; rfl) (by rw [hst]; rfl) (by rw [hst]; rfl)
  | drop => exact h
  | answer => exact h.idle_base (p.outputAck_idle env) (p.outputAck_base env)
  | reset => exact h.abort 1
  | syn =>
    exact (h.idle_base (p.outputBare_idle env rfl rfl) (congrArg Kept.base (p.output_kept env flgRst []))).abort 1
  | refuse => exact h.idle_base (p.outputSegment_idle rfl) rfl
  | finish => exact h.abort 0

theorem passes (h : Backed D p) (hs : Pcb.Passes p env seg q) : Backed D q := by
  cases hs with
  | handshake hst =>
    have he : Backed D (p.establish env seg) :=
      h.idle (p.establish_idle env seg) rfl (by rw [hst]; exact fun _ => ⟨rfl, rfl, fun h => nomatch h⟩)
    exact (he.ackWindow rfl rfl).ackState
  | transfer ht =>
    unfold Pcb.transfers at ht
    have hst : p.state.live = true ∧ p.state.early = false := by
      revert ht
      cases p.state <;> decide
    exact (h.ackWindow hst.1 hst.2).ackState
  | timeWait =>
    split
    · exact h.idle_base (.of_eq rfl rfl rfl) rfl
    · exact h
  | shut => exact h

theorem arrivesOpened (h : Backed D p) : Backed D (p.arrivesOpened env seg) := by
  have hp : Backed D { p with idleStamp := env.now } := h.idle_base (.of_eq rfl rfl rfl) rfl
  rcases p.arrivesOpened_cases env seg with hstop | ⟨q, hpass, heq⟩
  · exact hp.stops hstop
  · rw [heq]
    exact (hp.passes hpass).text

/-- The SYN of the other end, to a connection that has sent its own. -/
theorem arrivesSynSent (h : Backed D p) (hst : p.state = .synSent) : Backed D (p.arrivesSynSent env seg) := by
  have hl : p.state.live = true := by rw [hst]; rfl
  obtain ⟨U, hU, hearly⟩ := h.lined hl
  obtain ⟨rfl, rfl⟩ := hearly (by rw [hst]; rfl)
  have hf : p.state.finned = false := by rw [hst]; rfl
  rw [hf] at hU
  have huna : p.sndUna = p.iss := hU.una.trans (BitVec.add_zero _)
  unfold Pcb.arrivesSynSent
  split
  · exact h.idle_base (p.outputSegment_idle rfl) rfl
  rename_i hrange
  dsimp only
  split
  · split
    · exact h.abort 1
    · exact h
  split
  case isFalse => exact h
  by_cases hacc : (seg.flg.ack && seqBetween seg.ack p.sndUna p.sndNxt) = true
  · -- The SYN is acknowledged.
    obtain ⟨hack, hb⟩ := Bool.and_eq_true_iff.mp hacc
    have hafter : seqAfter seg.ack p.iss = true := by
      rw [hack, Bool.true_and, Bool.or_eq_true, not_or] at hrange
      have := hrange.1
      revert this
      cases seqAfter seg.ack p.iss <;> decide
    obtain ⟨A, -, hA, hackA⟩ := hU.between hb
    have hq : (p.acked seg.ack).snd = ({ p with sndUna := seg.ack }.queueCleanup).snd := by
      unfold Pcb.acked
      rw [huna, if_pos hafter]
    have hlined := hU.acked (Nat.zero_le A) hA hackA
    rw [hq] at hlined
    rw [if_pos hacc]
    have hgo : Backed [] { { p with rcvNxt := seg.seq + 1, irs := seg.seq, sndUna := seg.ack }.queueCleanup with
        state := .established } := by
      refine ⟨h.out, ?_, fun _ _ => h.unfinished hl hf, h.mss, h.next, fun _ => ⟨A, hlined, fun h => nomatch h⟩⟩
      intro x hx
      refine h.parts x (acked_parts p seg.ack ?_)
      rw [hq]
      exact hx
    have hcond : seqAfter { p with rcvNxt := seg.seq + 1, irs := seg.seq, sndUna := seg.ack }.queueCleanup.sndUna
        { p with rcvNxt := seg.seq + 1, irs := seg.seq, sndUna := seg.ack }.queueCleanup.iss = true := hafter
    rw [if_pos hcond]
    refine (hgo.idle_base (Pcb.ccInit_idle _ env) rfl).idle_base (p := Pcb.ccInit _ env) ?_ ?_
    · exact (Pcb.outputAck_idle _ env).trans (.of_eq rfl rfl rfl)
    · exact Pcb.outputAck_base _ env
  · -- It is not: the other end has sent its SYN at the same time.
    rw [if_neg hacc]
    have hcond : ¬seqAfter p.sndUna p.iss = true := by
      rw [huna, seqAfter, BitVec.sub_self]
      decide
    rw [if_neg hcond]
    have hgo : Backed [] { p with rcvNxt := seg.seq + 1, irs := seg.seq, state := .synReceived } :=
      h.idle (.of_eq rfl rfl rfl) rfl (by rw [hst]; exact fun _ => ⟨rfl, rfl, fun _ => rfl⟩)
    exact hgo.outputSyn rfl rfl rfl

theorem arrives (h : Backed D p) : Backed D (p.arrives env seg) := by
  unfold Pcb.arrives
  split
  · exact h
  · rename_i hst
    exact (h.idle_base (q := { p with idleStamp := env.now }) (.of_eq rfl rfl rfl) rfl).arrivesSynSent hst
  · exact h.arrivesOpened

/-! ### Closing and the timer -/

/-- The FIN takes the number behind the last byte. -/
theorem queueFin (h : Backed D p) (hl : p.state.live = true) (hf : p.state.finned = false) :
    Backed D (p.queueFin env) := by
  unfold Pcb.queueFin
  cases hc : p.closeState with
  | none => exact h
  | some s =>
    dsimp only
    have hbase : (p.output env flgFinAck []).1.base = p.base := congrArg Kept.base (p.output_kept env flgFinAck [])
    rcases p.output_cases env flgFinAck [] rfl with hno | ⟨hres, hq⟩
    · rw [hno]
      exact h.idle (.of_eq rfl rfl rfl) hc.symm (.refl _)
    generalize p.output env flgFinAck [] = r at hbase hres hq
    obtain ⟨q, res⟩ := r
    have hnext : (if p.state = .closeWait then State.lastAck else s).finned = true := by
      split
      · rfl
      · rcases h.next s hc with rfl | rfl <;> rfl
    have hgoal : ∀ t, State.finned t = true →
        Backed (D ++ []) { q with sndNxt := q.sndNxt + 1, state := t, closeState := none, closeTimer := 0 } := by
      intro t ht
      obtain ⟨U, hU, -⟩ := h.lined hl
      rw [hf] at hU
      have hat : Part.At (D ++ []) p.iss (1 + D.length) ⟨p.sndNxt, flgFinAck, []⟩ := by
        refine ⟨hU.nxt, rfl, Nat.le_add_right 1 _, fun i hi => absurd hi (Nat.not_lt_zero i), fun _ => ?_,
          Nat.two_pow_pos 16, Nat.zero_lt_one⟩
        rw [List.append_nil]
        exact Nat.add_comm 1 _
      have hqs : q.snd = { p.snd with parts := p.snd.parts ++ [⟨p.sndNxt, flgFinAck, []⟩] } := hq.snd
      refine h.push hl hf hq (Or.inr ⟨_, hat⟩) rfl ⟨rfl, rfl⟩ rfl (fun _ h => nomatch h)
        (fun h => absurd (ht.symm.trans h) (by decide)) fun _ => ⟨U, ?_, fun he => ?_⟩
      · change Lined (D ++ []) t.finned.toNat ⟨q.snd.iss, q.snd.una, q.snd.nxt + 1, q.snd.parts⟩ U
        rw [ht, hqs]
        refine hU.push ?_ hat rfl
        rw [Pcb.snd, List.length_map]
        exact hq.room
      · change t.early = true at he
        rw [State.early_of_finned ht] at he
        exact absurd he Bool.false_ne_true
    rw [List.append_nil] at hgoal
    cases res with
    | noQueue => exact absurd rfl hres
    | wired => exact hgoal _ hnext
    | deferred => exact hgoal _ hnext

/-- The user asks for the FIN. -/
theorem asks (h : Backed D p) {s : State} (hs : s = .finWait1 ∨ s = .lastAck) :
    Backed D { p with closeState := some s } where
  out := h.out
  parts := h.parts
  unfinished := h.unfinished
  mss := h.mss
  next := fun t ht => by
    cases ht
    exact hs
  lined := h.lined

theorem close (h : Backed D p) : Backed D (p.close env) := by
  have hgo : ∀ s, (s = State.finWait1 ∨ s = .lastAck) → p.state.live = true → p.state.finned = false →
      Backed D ({ p with closeState := some s }.queueFin env) := fun s hs hl hf => (h.asks hs).queueFin hl hf
  unfold Pcb.close
  split
  · exact h.release
  · exact h.abort 0
  · exact (h.idle_base (p.outputSegment_idle rfl) rfl).abort 0
  · rename_i hst
    exact hgo .finWait1 (Or.inl rfl) (by rw [hst]; rfl) (by rw [hst]; rfl)
  · rename_i hst
    exact hgo .finWait1 (Or.inl rfl) (by rw [hst]; rfl) (by rw [hst]; rfl)
  · rename_i hst
    exact hgo .lastAck (Or.inr rfl) (by rw [hst]; rfl) (by rw [hst]; rfl)
  all_goals exact h

theorem emit (h : Backed D p) : Backed D (p.emit env) := by
  rcases p.emit_kept env with hk | hk
  · exact h.idle_base (p.emit_idle env) (congrArg Kept.base hk)
  · refine h.idle (p.emit_idle env) (congrArg (fun k => k.base.closeState) hk) ?_
    have hst : (p.emit env).state = .closed := congrArg (fun k => k.base.state) hk
    rw [hst]
    exact fun h => nomatch h

theorem timer (h : Backed D p) : Backed D (p.timer env) := by
  unfold Pcb.timer
  split
  · exact h
  split
  · exact h.release
  obtain ⟨r, hr, hq | ⟨q, hq, hreap⟩⟩ := p.reap_cases env
  all_goals
    have hrb : Backed D r := by
      rcases hr with rfl | rfl
      · exact h
      · exact h.idle_base (.of_eq rfl rfl rfl) rfl
    rw [hq]
  · have hfin : Backed D (r.retryFin env) := by
      unfold Pcb.retryFin
      split
      · rename_i hcond
        refine hrb.queueFin ?_ ?_ <;> rcases hcond.2.1 with hs | hs | hs <;> rw [hs] <;> rfl
      · exact hrb
    have hemit : Backed D ((r.retryFin env).emit env) := hfin.emit
    have hprobe := hemit.idle_base (Pcb.probe_idle _ env) (congrArg Kept.base (Pcb.probe_kept _ env))
    exact hprobe.idle_base (Pcb.flushAck_idle _ env) (Pcb.flushAck_base _ env).1
  · cases hreap with
    | orphan => exact hrb.release
    | silent => exact (hrb.idle_base (r.outputSegment_idle rfl) rfl).abort 2

theorem receive (h : Backed D p) (size : ℕ) : Backed D (p.receive env size).1 := by
  refine h.idle_base (p.receive_idle env size) ?_
  unfold Pcb.receive
  split
  case h_6 | h_7 | h_8 | h_9 =>
    split
    · rfl
    · exact (take_rcv p env _).1
  all_goals rfl

/-! ### Sending -/

/-- A chunk of data gets the numbers behind the last byte, unless it could not be queued. -/
theorem outputData (env : Env) (chunk : List UInt8) {flg : Flags} (h : Backed D p) (hl : p.state.live = true)
    (hf : p.state.finned = false) (he : p.state.early = false) (hsyn : flg.syn = false) (hfin : flg.fin = false)
    (hsize : chunk.length < 2 ^ 16) :
    p.output env flg chunk = (p, .noQueue) ∨
      ((p.output env flg chunk).2 ≠ .noQueue ∧
        Backed (D ++ chunk) ((p.output env flg chunk).1.advance chunk.length)) := by
  have hbase : (p.output env flg chunk).1.base = p.base := congrArg Kept.base (p.output_kept env flg chunk)
  by_cases hnil : chunk = []
  · subst hnil
    refine Or.inr ⟨?_, ?_⟩
    · have hres : (p.output env flg []).2 = if p.wired env then .wired else .deferred := by
        unfold Pcb.output
        rw [hsyn, hfin]
        rfl
      rw [hres]
      split <;> exact fun h => nomatch h
    · rw [List.append_nil]
      have hout := h.idle_base (p.outputBare_idle env hsyn hfin) hbase
      generalize (p.output env flg []).1 = q at hout
      have hq : q.advance 0 = q := by
        unfold Pcb.advance
        rw [show q.sndNxt + BitVec.ofNat 32 0 = q.sndNxt from BitVec.add_zero _]
      rw [List.length_nil, hq]
      exact hout
  have hpos : 0 < chunk.length := List.length_pos_iff.mpr hnil
  have htake : (flg.syn || flg.fin || chunk.length ≠ 0) = true := by
    rw [hsyn, hfin, Bool.false_or, Bool.false_or]
    exact decide_eq_true (by omega)
  rcases p.output_cases env _ _ htake with hno | ⟨hres, hq⟩
  · exact Or.inl hno
  refine Or.inr ⟨hres, ?_⟩
  generalize (p.output env flg chunk).1 = q at hbase hq
  have hs : (q.advance chunk.length).state = p.state := congrArg Base.state hbase
  have hc : (q.advance chunk.length).closeState = p.closeState := congrArg Base.closeState hbase
  obtain ⟨U, hU, -⟩ := h.lined hl
  rw [hf] at hU
  rw [hsyn] at hq
  have hlen : Part.len ⟨p.sndNxt, flg, chunk⟩ = chunk.length + 0 := by
    unfold Part.len
    rw [hfin]
    rfl
  have hat : Part.At (D ++ chunk) p.iss (1 + D.length) ⟨p.sndNxt, flg, chunk⟩ := by
    refine ⟨hU.nxt, hsyn, Nat.le_add_right 1 _, ?_, fun h => ?_, hsize, by omega⟩
    · intro i _
      rw [Nat.add_sub_cancel_left, List.getElem?_append_right (Nat.le_add_right _ _), Nat.add_sub_cancel_left]
    · exact absurd (hfin.symm.trans h) Bool.false_ne_true
  refine h.push hl hf hq (Or.inr ⟨_, hat⟩) rfl ⟨rfl, rfl⟩ rfl (by rw [hc]; exact h.next) (fun _ => hfin) fun _ => ?_
  rw [hs, hf, he]
  refine ⟨U, ?_, fun h => absurd h Bool.false_ne_true⟩
  change Lined (D ++ chunk) 0 ⟨q.snd.iss, q.snd.una, q.snd.nxt + BitVec.ofNat 32 chunk.length, q.snd.parts⟩ U
  have hpush := hU.push (f := 0) (by rw [Pcb.snd, List.length_map]; exact hq.room) hat hlen
  rw [hlen, Nat.add_zero] at hpush
  rw [hq.snd]
  exact hpush

/-- Every round of the loop adds what it has counted. -/
theorem sendLoop (env : Env) {data : List UInt8} (k : ℕ) {sent : ℕ} (h : Backed (D ++ data.take sent) p)
    (hst : p.state = .established ∨ p.state = .closeWait) :
    Backed (D ++ data.take (Pcb.sendLoop env data k p sent).2) (Pcb.sendLoop env data k p sent).1 := by
  induction k generalizing p sent with
  | zero => exact h
  | succ k ih =>
    rw [Pcb.sendLoop]
    split
    case isFalse => exact h
    case isTrue hlt =>
      dsimp only
      split
      · split
        · exact h.idle_base (p.persistArm_idle env) (congrArg Kept.base (p.persistArm_kept env))
        · exact h
      · generalize hslen : min (min p.mss (data.length - sent)) (p.sendWindow - p.inflight) = slen
        generalize hflg : (if data.length ≤ sent + slen ∨ p.sendWindow - p.inflight - slen < p.persistDisarm.mss then
          flgPshAck else flgAck) = flg
        have hd : Backed (D ++ data.take sent) p.persistDisarm := h.idle_base (.of_eq rfl rfl rfl) rfl
        have hds : p.persistDisarm.state = p.state := rfl
        have hmss : p.mss < 2 ^ 16 := h.mss
        generalize p.persistDisarm = d at hd hds
        have hclen : ((data.drop sent).take slen).length = slen := by
          rw [List.length_take, List.length_drop]
          omega
        have hlive : d.state.live = true ∧ d.state.finned = false ∧ d.state.early = false := by
          rw [hds]
          rcases hst with hs | hs <;> rw [hs] <;> exact ⟨rfl, rfl, rfl⟩
        have hf : flg.syn = false ∧ flg.fin = false := by
          rw [← hflg]
          split <;> exact ⟨rfl, rfl⟩
        have hos : (d.output env flg ((data.drop sent).take slen)).1.state = d.state :=
          congrArg (fun k => k.base.state) (d.output_kept env flg _)
        rcases hd.outputData env ((data.drop sent).take slen) hlive.1 hlive.2.1 hlive.2.2 hf.1 hf.2
          (by omega) with hno | ⟨hres, hgo⟩
        · rw [hno]
          exact hd
        · rw [hclen, List.append_assoc, ← List.take_add] at hgo
          generalize d.output env flg ((data.drop sent).take slen) = r at hres hgo hos
          obtain ⟨q, res⟩ := r
          cases res with
          | noQueue => exact absurd rfl hres
          | deferred => exact hgo
          | wired =>
            refine ih hgo ?_
            have hqs : (q.advance slen).state = p.state := hos.trans hds
            rw [hqs]
            exact hst

end Backed

/-- How many bytes `tcp_send` reports. -/
def countOf : Except Errno ℕ → ℕ
  | .ok n => n
  | .error _ => 0

theorem Backed.send (h : Backed D p) (data : List UInt8) :
    Backed (D ++ data.take (countOf (p.send env data).2)) (p.send env data).1 := by
  have hnone : Backed (D ++ data.take 0) p := by
    rw [List.take_zero, List.append_nil]
    exact h
  unfold Pcb.send
  split
  case h_6 | h_7 =>
    rename_i hst
    split
    · exact hnone
    · have hloop := hnone.sendLoop env (data.length + 1) (by rw [hst]; decide)
      generalize Pcb.sendLoop env data (data.length + 1) p 0 = r at hloop
      obtain ⟨q, sent⟩ := r
      dsimp only
      split
      · rename_i hzero
        rw [show countOf (.error Errno.again) = sent from hzero.1.symm]
        exact hloop
      · change Backed (D ++ data.take sent) _
        split
        · exact hloop.idle_base (.of_eq rfl rfl rfl) rfl
        · exact hloop
  all_goals exact hnone

/-! ### Runs -/

/-- A connection, and the bytes that `tcp_send` has reported so far. -/
structure Sender where
  pcb : Pcb
  sent : List UInt8

inductive TcpEvent where
  | segment (env : Env) (seg : Segment)
  | receive (env : Env) (size : ℕ)
  | send (env : Env) (data : List UInt8)
  | close (env : Env)
  | tick (env : Env)

def Sender.step (c : Sender) : TcpEvent → Option Sender
  | .segment env seg => some { c with pcb := c.pcb.arrives env seg }
  | .receive env size => some { c with pcb := (c.pcb.receive env size).1 }
  | .send env data => some ⟨(c.pcb.send env data).1, c.sent ++ data.take (countOf (c.pcb.send env data).2)⟩
  | .close env => some { c with pcb := c.pcb.close env }
  | .tick env => some { c with pcb := c.pcb.timer env }

theorem Backed.step {c d : Sender} {e : TcpEvent} (h : Backed c.sent c.pcb) (hd : c.step e = some d) :
    Backed d.sent d.pcb := by
  cases e with
  | segment env seg => cases hd; exact h.arrives
  | receive env size => cases hd; exact h.receive size
  | send env data => cases hd; exact h.send data
  | close env => cases hd; exact h.close
  | tick env => cases hd; exact h.timer

/-- The SYN has been sent, and nothing else. -/
structure Starts (p : Pcb) : Prop where
  early : p.state.early = true
  una : p.sndUna = p.iss
  nxt : p.sndNxt = p.iss + 1
  room : p.queue.length ≤ retransmitQueueMax
  queue : ∀ e ∈ p.queue, e.part.IsSyn p.iss
  out : ∀ o ∈ p.out, o.part.Bare
  mss : p.mss < 2 ^ 16
  closeState : p.closeState = none

/-- A SYN goes out from a slot that was just handed out. -/
theorem output_first (env : Env) {p : Pcb} (hq : p.queue = []) (ho : p.out = []) {f : Flags} (hsyn : f.syn = true)
    (hfin : f.fin = false) :
    (p.output env f []).1.queue.length ≤ retransmitQueueMax ∧
      (∀ e ∈ (p.output env f []).1.queue, e.part.IsSyn p.iss) ∧
      (∀ o ∈ (p.output env f []).1.out, o.part.Bare) ∧ (p.output env f []).1.mss = p.mss := by
  rcases p.output_cases env f [] (by rw [hsyn]; rfl) with hno | ⟨-, hq'⟩
  · rw [hno, hq, ho]
    exact ⟨Nat.zero_le _, fun _ h => absurd h List.not_mem_nil, fun _ h => absurd h List.not_mem_nil, rfl⟩
  generalize (p.output env f []).1 = q at hq'
  have hparts : q.queue.map QueueEntry.part = [⟨p.iss, f, []⟩] := by
    have hs := congrArg Snd.parts hq'.snd
    change q.queue.map QueueEntry.part = p.queue.map QueueEntry.part ++ _ at hs
    rw [hs, hq, hsyn]
    rfl
  obtain ⟨o, hout, hpart, -⟩ := hq'.out
  refine ⟨?_, fun e he => ?_, fun o' ho' => ?_, hq'.mss⟩
  · have hlen := congrArg List.length hparts
    rw [List.length_map, List.length_singleton] at hlen
    rw [hlen]
    decide
  · have hmem := List.mem_map_of_mem (f := QueueEntry.part) he
    rw [hparts] at hmem
    rw [List.mem_singleton.mp hmem]
    exact ⟨rfl, hsyn, hfin, rfl⟩
  · rw [hout, ho, List.nil_append] at ho'
    rw [List.mem_singleton.mp ho', hpart]
    exact ⟨rfl, hfin⟩

theorem accepted_starts {now parent : ℕ} {here foreign : Endpoint} {iss : Seq} :
    Starts (Pcb.accepted env seg (Pcb.fresh now) parent here foreign iss) := by
  unfold Pcb.accepted
  dsimp only
  generalize hc : Pcb.output _ env flgSynAck [] = c
  obtain ⟨hroom, hq, ho, hm⟩ := output_first env (p := { Pcb.fresh now with
    parent := some parent, here := here, foreign := foreign, rcvWnd := rcvBufSize, rcvNxt := seg.seq + 1,
    irs := seg.seq, iss := iss, peerWscale := seg.wscale.getD 0, wsoptOk := seg.wscale.isSome })
    rfl rfl (f := flgSynAck) rfl rfl
  have hk := (congrArg (fun x => x.1.kept) hc).symm
  rw [Pcb.output_kept] at hk
  rw [hc] at hroom hq ho hm
  have hiss : c.1.iss = iss := congrArg (fun k => k.base.iss) hk
  refine ⟨rfl, hiss.symm, congrArg (· + 1) hiss.symm, hroom, ?_, ho, ?_, congrArg (fun k => k.base.closeState) hk⟩
  · intro e he
    change e.part.IsSyn c.1.iss
    rw [hiss]
    exact hq e he
  · change c.1.mss < 2 ^ 16
    rw [hm]
    exact Nat.two_pow_pos 16

theorem connect_starts {now : ℕ} {here foreign : Endpoint} {iss : Seq}
    (h : ((Pcb.fresh now).connect env here foreign iss).state = .synSent) :
    Starts ((Pcb.fresh now).connect env here foreign iss) := by
  revert h
  unfold Pcb.connect
  dsimp only
  obtain ⟨hroom, hq, ho, hm⟩ := output_first env
    (p := { Pcb.fresh now with here := here, foreign := foreign, rcvWnd := rcvBufSize, iss := iss })
    rfl rfl (f := flgSyn) rfl rfl
  generalize hc : Pcb.output _ env flgSyn [] = c at hroom hq ho hm
  have hk := (congrArg (fun x => x.1.kept) hc).symm
  rw [Pcb.output_kept] at hk
  have hiss : c.1.iss = iss := congrArg (fun k => k.base.iss) hk
  obtain ⟨c, res⟩ := c
  cases res with
  | wired =>
    intro _
    refine ⟨rfl, hiss.symm, congrArg (· + 1) hiss.symm, hroom, ?_, ho, ?_, congrArg (fun k => k.base.closeState) hk⟩
    · intro e he
      change e.part.IsSyn c.iss
      rw [hiss]
      exact hq e he
    · change c.mss < 2 ^ 16
      rw [hm]
      exact Nat.two_pow_pos 16
  | deferred => exact fun h => nomatch h
  | noQueue => exact fun h => nomatch h

theorem Starts.backed (h : Starts p) : Backed [] p := by
  have hf : p.state.finned = false := by
    have := h.early
    revert this
    cases p.state <;> decide
  refine ⟨fun o ho => Or.inl (h.out o ho), ?_, fun _ _ o ho => (h.out o ho).2, h.mss, ?_, fun _ => ⟨0, ?_, ?_⟩⟩
  · intro x hx
    obtain ⟨e, he, rfl⟩ := List.mem_map.mp hx
    exact Or.inl ⟨(h.queue e he).data, (h.queue e he).fin⟩
  · rw [h.closeState]
    exact fun _ h => nomatch h
  · rw [hf]
    refine ⟨h.una.trans (BitVec.add_zero _).symm, h.nxt, Nat.zero_le _, ?_, p.snd.parts, [], 1, ?_, ?_, fun _ => rfl,
      Nat.le_refl 1, Nat.le_refl 1, rfl⟩
    · change (p.queue.map QueueEntry.part).length ≤ _
      rw [List.length_map]
      exact h.room
    · exact (List.append_nil _).symm
    · intro x hx
      obtain ⟨e, he, rfl⟩ := List.mem_map.mp hx
      exact h.queue e he
  · exact fun _ => ⟨rfl, rfl⟩

/-- What the queue of a connection is for, with the bytes `D` reported. -/
structure Copied (D : List UInt8) (p : Pcb) : Prop where
  /-- The bytes reported have a number each, and the FIN one behind them. -/
  nxt : p.sndNxt = p.iss + BitVec.ofNat 32 (1 + D.length + p.state.finned.toNat)
  /-- Behind the SYNs, the entries follow each other up to `snd.nxt` from `snd.una` or below. -/
  queue : ∃ U s syns rest, p.sndUna = p.iss + BitVec.ofNat 32 U ∧ U ≤ 1 + D.length + p.state.finned.toNat ∧
    p.queue = syns ++ rest ∧ (∀ e ∈ syns, e.part.IsSyn p.iss) ∧ 1 ≤ s ∧ s ≤ max U 1 ∧
    Chain D p.iss s (rest.map QueueEntry.part) (1 + D.length + p.state.finned.toNat)
  /-- There is at most one FIN. -/
  fin : (p.queue.filter fun e => e.flg.fin).length ≤ 1
  /-- What goes out is what the numbers stand for. -/
  out : ∀ o ∈ p.out, o.part.Right D p.iss
  cap : p.queue.length ≤ retransmitQueueMax

theorem Backed.copied (h : Backed D p) (hl : p.state.live = true) : Copied D p := by
  obtain ⟨U, hU, -⟩ := h.lined hl
  obtain ⟨syns, rest, s, hv, hsyn, -, h1, hs, hchain⟩ := hU.queue
  obtain ⟨es, er, hqueue, rfl, rfl⟩ := List.map_eq_append_iff.mp hv
  have hsyn' : ∀ e ∈ es, e.part.IsSyn p.iss := fun e he => hsyn _ (List.mem_map_of_mem he)
  refine ⟨hU.nxt, ⟨U, s, es, er, hU.una, hU.le, hqueue, hsyn', h1, hs, hchain⟩, ?_, h.out, ?_⟩
  · have hnone : es.filter (fun e => e.flg.fin) = [] := by
      rw [List.filter_eq_nil_iff]
      intro e he
      rw [show e.flg.fin = false from (hsyn' e he).fin]
      exact Bool.false_ne_true
    have hone := hchain.one_fin
    rw [List.filter_map, List.length_map] at hone
    rw [hqueue, List.filter_append, hnone]
    exact hone
  · have hroom := hU.room
    change (p.queue.map QueueEntry.part).length ≤ _ at hroom
    rwa [List.length_map] at hroom

/-- Whatever happens to a connection, every byte reported as sent has a copy until it is acknowledged. -/
theorem queue_copies {p₀ : Pcb} (hp : Starts p₀) {c : Sender} (h : Reach Sender.step Free ⟨p₀, []⟩ c)
    (ho : c.pcb.opened = true) : Copied c.sent c.pcb := by
  have hb : Backed c.sent c.pcb :=
    h.inv (I := fun c => Backed c.sent c.pcb) hp.backed fun _ _ _ hI _ hd => hI.step hd
  refine hb.copied ?_
  unfold Pcb.opened at ho
  revert ho
  cases c.pcb.state <;> decide

/-- Three bytes are sent, and the last of them is waiting for its acknowledgment. -/
theorem queue_copies_three : ∃ c, Starts sampleConn ∧ Reach Sender.step Free ⟨sampleConn, []⟩ c ∧
    c.pcb.opened = true ∧ c.sent = [1, 2, 3] ∧ c.pcb.queue.length = 1 ∧ Copied c.sent c.pcb := by
  obtain ⟨c, hrun⟩ : ∃ c, runOps Sender.step ⟨sampleConn, []⟩
      [.segment sampleEnv ⟨10, 5, flgAck, 1000, none, []⟩, .send sampleEnv [1, 2, 3],
       .segment sampleEnv ⟨10, 7, flgAck, 1000, none, []⟩] = some c := ⟨_, rfl⟩
  have hstate : (runOps Sender.step ⟨sampleConn, []⟩
      [.segment sampleEnv ⟨10, 5, flgAck, 1000, none, []⟩, .send sampleEnv [1, 2, 3],
       .segment sampleEnv ⟨10, 7, flgAck, 1000, none, []⟩]).map
        (fun c => (c.pcb.opened, c.sent, c.pcb.queue.length)) = some (true, [1, 2, 3], 1) := by decide +kernel
  rw [hrun] at hstate
  obtain ⟨ho, hsent, hlen⟩ : c.pcb.opened = true ∧ c.sent = [1, 2, 3] ∧ c.pcb.queue.length = 1 := by
    have h := Option.some.inj hstate
    exact ⟨congrArg Prod.fst h, congrArg (fun x => x.2.1) h, congrArg (fun x => x.2.2) h⟩
  exact ⟨c, accepted_starts, reach_of_runOps hrun, ho, hsent, hlen,
    queue_copies accepted_starts (reach_of_runOps hrun) ho⟩

end EwokOS.Net
