import EwokOS.Net.TcpTimer

/-! Runs of one connection, and what it still has to do (`tcp.c`): data and a FIN that are not acknowledged,
    bytes that have come and are not acknowledged, a FIN that could not be queued, a writer that was refused.

    The first and the third are always watched over. The other two are lost in two places:

        text in FIN_WAIT1 or FIN_WAIT2     the delayed ACK is set, and no tick looks at it there
        a window that closes by an ACK     the writer was refused while it was open, so no probe is armed -/

namespace EwokOS.Net

open Schemes

/-- A connection, the bytes reported, whether a writer has been refused, and whether bytes that came next have
    not been acknowledged. -/
structure Watched where
  pcb : Pcb
  sent : List UInt8
  waits : Bool
  owed : Bool

/-- A segment that acknowledges everything has reached the device. -/
def said (p q : Pcb) (env : Env) : Bool :=
  (q.out.zipIdx.drop p.out.length).any fun x => env.wire x.2 && x.1.flg.ack && x.1.ack = q.rcvNxt

/-- Whether a writer waits behind this result. -/
def waitsOn (w : Bool) : Except Errno ℕ → Bool
  | .error .again => true
  | .ok n => w && n = 0
  | _ => false

def Watched.step (c : Watched) : TcpEvent → Option Watched
  | .segment env seg =>
    let q := c.pcb.arrives env seg
    let text := c.pcb.opened && seg.data ≠ [] && q.rcvNxt ≠ c.pcb.rcvNxt
    some ⟨q, c.sent, c.waits, (c.owed || text) && !said c.pcb q env⟩
  | .receive env size =>
    let q := (c.pcb.receive env size).1
    some ⟨q, c.sent, c.waits, c.owed && !said c.pcb q env⟩
  | .send env data =>
    let r := c.pcb.send env data
    some ⟨r.1, c.sent ++ data.take (countOf r.2), waitsOn c.waits r.2, c.owed && !said c.pcb r.1 env⟩
  | .close env => some ⟨c.pcb.close env, c.sent, c.waits, c.owed && !said c.pcb (c.pcb.close env) env⟩
  | .tick env => some ⟨c.pcb.timer env, c.sent, c.waits, c.owed && !said c.pcb (c.pcb.timer env) env⟩

/-- The segment size that the device leaves. -/
def Env.mss (env : Env) : ℕ := (env.mtu.map fun m => (m + 2 ^ 16 - 40) % 2 ^ 16).getD 536

/-- The steps that lose nothing. -/
def Careful (c : Watched) : TcpEvent → Prop
  | .segment env seg =>
    (c.pcb.state = .finWait1 ∨ c.pcb.state = .finWait2 → c.pcb.takes seg = []) ∧
    (c.owed = true ∨ seg.data ≠ [] → ∀ i, env.wire i = true) ∧
    (c.waits = true → c.pcb.persistProbing = false → seg.wnd ≠ 0) ∧ env.mss ≠ 0
  | .receive _ _ => True
  | .send _ _ => c.pcb.sndUna = c.pcb.iss → c.pcb.queue ≠ []
  | .close env | .tick env => c.owed = true → ∀ i, env.wire i = true

/-- What the connection still has to do. -/
inductive Owes (c : Watched) : Prop where
  | unacked : c.pcb.sndUna ≠ c.pcb.sndNxt → c.sent ≠ [] ∨ c.pcb.state.finned = true → Owes c
  | text : c.owed = true → Owes c
  | close : c.pcb.closeState.isSome = true → Owes c
  | writer : c.waits = true → c.pcb.state.early = true ∨ c.pcb.state.Serves → c.pcb.sendWindow ≤ c.pcb.inflight → Owes c

/-- What a tick acts on in the state the connection is in. -/
def Armed (p : Pcb) : Prop :=
  p.queue ≠ [] ∨ (p.delackPending = true ∧ p.state.Serves) ∨ (p.closeState.isSome = true ∧ p.state.Asks) ∨
    (p.persistProbing = true ∧ p.state.Serves)

/-! ### Acknowledgments -/

variable {p q : Pcb} {env : Env} {seg : Segment} {D : List UInt8} {w : Bool} {U A f : ℕ}

/-- With a device that takes everything, what has been sent has been said. -/
theorem Spoke.said (h : Spoke p q) (hw : ∀ i, env.wire i = true) : said p q env = true := by
  obtain ⟨l, o, hl, hmem, hack, hnum⟩ := h
  unfold EwokOS.Net.said
  rw [List.any_eq_true]
  obtain ⟨i, hi, hget⟩ := List.mem_iff_getElem.mp hmem
  refine ⟨(o, p.out.length + i), ?_, ?_⟩
  · rw [List.mem_iff_getElem?]
    refine ⟨i, ?_⟩
    rw [List.getElem?_drop, List.getElem?_zipIdx, hl, List.getElem?_append_right (Nat.le_add_right _ _),
      Nat.add_sub_cancel_left, List.getElem?_eq_getElem hi, hget, Nat.zero_add]
    rfl
  · dsimp only
    rw [hw, hack, decide_eq_true hnum]
    rfl

/-- The delayed ACK is pending as long as something is owed. -/
theorem Hears.owed (env : Env) {owed : Bool} (text : Bool) (h : Hears p q)
    (hp : owed = true → p.state.live = true → p.delackPending = true ∧ p.state.Serves)
    (hw : owed = true ∨ text = true → ∀ i, env.wire i = true) (htext : text = true → q.rcvNxt ≠ p.rcvNxt)
    (ho : ((owed || text) && !said p q env) = true) (hl : q.state.live = true) :
    q.delackPending = true ∧ q.state.Serves := by
  obtain ⟨hor, hnot⟩ := Bool.and_eq_true_iff.mp ho
  have hor' : owed = true ∨ text = true := by rwa [Bool.or_eq_true] at hor
  rcases h.heard with ⟨hn, hd, hs⟩ | hsp | ⟨hpend, hs⟩
  · rcases hor' with howed | ht
    · obtain ⟨hpend, hserves⟩ := hp howed (h.live hl)
      exact ⟨hd.trans hpend, hs hserves hl⟩
    · exact absurd hn (htext ht)
  · rw [hsp.said (hw hor')] at hnot
    exact absurd hnot (by decide)
  · exact ⟨hpend, hs hl⟩

theorem Hears.asks (h : Hears p q) (hp : p.closeState.isSome = true → p.state.live = true → p.state.Asks)
    (hc : q.closeState.isSome = true) (hl : q.state.live = true) : q.state.Asks := by
  rcases h.close with hnone | ⟨hsame, hs⟩
  · rw [hnone] at hc
    exact absurd hc Bool.false_ne_true
  · rw [hsame] at hc
    exact hs (hp hc (h.live hl)) hl

/-! ### Writers -/

/-- Whatever is in flight is in the queue. -/
def Cov (v : Snd) : Prop := v.una ≠ v.nxt → v.parts ≠ []

structure Ready (w : Bool) (p : Pcb) : Prop where
  fed : p.state.Serves → Fed p
  wnd : w = true → p.state.Serves → p.persistProbing = true ∨ p.sndWnd ≠ 0
  covered : w = true → p.state.live = true → Cov p.snd

theorem parts_ne_nil : p.snd.parts ≠ [] ↔ p.queue ≠ [] := by
  unfold Pcb.snd
  exact not_congr List.map_eq_nil_iff

/-- What is missing from the queue is at most the SYN. -/
theorem Lined.missing (h : Lined D f p.snd U) (hne : p.sndUna ≠ p.sndNxt) (hq : p.queue = []) :
    D = [] ∧ f = 0 ∧ U = 0 := by
  obtain ⟨syns, rest, s, hv, -, -, h1, hs, hchain⟩ := h.queue
  have hnil : p.snd.parts = [] := by
    unfold Pcb.snd
    rw [hq]
    rfl
  rw [hnil] at hv
  obtain ⟨-, rfl⟩ := List.append_eq_nil_iff.mp hv.symm
  have hend : s = 1 + D.length + f := hchain
  have hUN : U ≠ 1 + D.length + f := by
    intro heq
    have huna : p.sndUna = p.iss + BitVec.ofNat 32 U := h.una
    have hnxt : p.sndNxt = p.iss + BitVec.ofNat 32 (1 + D.length + f) := h.nxt
    rw [huna, hnxt, heq] at hne
    exact hne rfl
  have hle := h.le
  have hlen : D.length = 0 := by omega
  exact ⟨List.length_eq_zero_iff.mp hlen, by omega, by omega⟩

theorem Backed.cov (h : Backed D p) (hl : p.state.live = true) (hsyn : p.sndUna = p.iss → p.queue ≠ []) : Cov p.snd := by
  intro hne
  rw [parts_ne_nil]
  intro hq
  obtain ⟨U, hU, -⟩ := h.lined hl
  obtain ⟨-, -, rfl⟩ := hU.missing hne hq
  exact hsyn (hU.una.trans (BitVec.add_zero _)) hq

/-- An acknowledgment leaves the queue empty only when nothing is left in flight. -/
theorem Lined.acked_cov (h : Lined D f p.snd U) (hU : U ≤ A) (hA : A ≤ 1 + D.length + f) {ack : Seq}
    (hack : ack = p.iss + BitVec.ofNat 32 A) (hc : Cov p.snd) : Cov (p.acked ack).snd := by
  have hL := h.acked hU hA hack
  rcases Nat.lt_or_ge U A with hlt | hge
  · intro hne
    rw [parts_ne_nil]
    intro hq
    obtain ⟨-, -, rfl⟩ := hL.missing hne hq
    exact absurd hlt (Nat.not_lt_zero U)
  · obtain rfl : U = A := by omega
    have hafter : seqAfter ack p.sndUna = false := by
      rw [hack]
      exact (h.after_iff (Nat.le_refl U) hA).trans (decide_eq_false (Nat.lt_irrefl U))
    have hsnd : (p.acked ack).snd = p.snd := by
      unfold Pcb.acked
      rw [hafter, if_neg Bool.false_ne_true]
      unfold Pcb.snd
      dsimp only
      rw [hack]
      exact congrArg (fun u => Snd.mk p.iss u p.sndNxt (p.queue.map QueueEntry.part)) h.una.symm
    rw [hsnd]
    exact hc

namespace Ready

/-- A step that leaves the send side, the window and the probe as they are. -/
theorem keep (h : Ready w p) (hs : q.snd = p.snd) (hf : Flows p q) (hl : q.state.live = true → p.state.live = true)
    (hv : q.state.Serves → p.state.Serves) : Ready w q where
  fed := fun hq => hf.fed (h.fed (hv hq))
  wnd := fun hw hq => by
    rw [hf.wnd, hf.probing]
    exact h.wnd hw (hv hq)
  covered := fun hw hq => by
    rw [hs]
    exact h.covered hw (hl hq)

/-- The same, in the same state. -/
theorem stay (h : Ready w p) (hs : q.snd = p.snd) (hf : Flows p q) (hst : q.state = p.state) : Ready w q :=
  h.keep hs hf (by rw [hst]; exact id) (by rw [hst]; exact id)

theorem dead (h : q.state.live = false) : Ready w q := by
  have hno : ¬q.state.Serves := by
    rintro (hs | hs) <;> rw [hs] at h <;> cases h
  exact ⟨fun hs => absurd hs hno, fun _ hs => absurd hs hno, fun _ hl => absurd (h.symm.trans hl) Bool.false_ne_true⟩

theorem unwatched (h : Ready w p) : Ready false p :=
  ⟨h.fed, fun h => absurd h Bool.false_ne_true, fun h => absurd h Bool.false_ne_true⟩

end Ready

theorem peerWindow_ne_zero {n : ℕ} (h : n ≠ 0) : p.peerWindow n ≠ 0 := by
  unfold Pcb.peerWindow
  split
  · exact Nat.mul_ne_zero h (Nat.ne_of_gt (Nat.two_pow_pos _))
  · exact h

theorem takeWindow_wnd (h : p.persistProbing = true ∨ (p.sndWnd ≠ 0 ∧ seg.wnd ≠ 0)) :
    (p.takeWindow seg).persistProbing = true ∨ (p.takeWindow seg).sndWnd ≠ 0 := by
  unfold Pcb.takeWindow
  split
  · exact h.imp id fun h => peerWindow_ne_zero h.2
  · exact h.imp id And.left

theorem takeWindow_fed (seg : Segment) (h : Fed p) : Fed (p.takeWindow seg) := by
  unfold Pcb.takeWindow
  split <;> exact h

/-- The probe is given up only for a window that is open. -/
theorem ackWindow_wnd (h : p.persistProbing = true ∨ (p.sndWnd ≠ 0 ∧ seg.wnd ≠ 0)) :
    (p.ackWindow env seg).persistProbing = true ∨ (p.ackWindow env seg).sndWnd ≠ 0 := by
  have hflow := p.takeAck_flows env seg
  have ht : (p.takeAck env seg).persistProbing = true ∨ ((p.takeAck env seg).sndWnd ≠ 0 ∧ seg.wnd ≠ 0) := by
    rw [hflow.probing, hflow.wnd]
    exact h
  have hw := takeWindow_wnd ht
  unfold Pcb.ackWindow
  split
  · dsimp only
    generalize (p.takeAck env seg).takeWindow seg = r at hw
    split
    · rename_i hcan
      have hlt : r.inflight < r.sendWindow := of_decide_eq_true (Bool.and_eq_true_iff.mp hcan).1
      have hpos : r.sndWnd ≠ 0 := by
        have := Nat.min_le_left r.sndWnd r.cwnd
        unfold Pcb.sendWindow at hlt
        omega
      split <;> exact Or.inr hpos
    · exact hw
  · exact h.imp id And.left

theorem ackWindow_fed (h : Fed p) : Fed (p.ackWindow env seg) := by
  have ht := takeWindow_fed seg ((p.takeAck_flows env seg).fed h)
  unfold Pcb.ackWindow
  split
  · dsimp only
    generalize (p.takeAck env seg).takeWindow seg = r at ht
    split
    · split <;> exact ht
    · exact ht
  · exact h

/-- The segments that a waiting writer survives. -/
def Lets (w : Bool) (p : Pcb) (env : Env) (seg : Segment) : Prop :=
  (w = true → p.persistProbing = false → seg.wnd ≠ 0) ∧ env.mss ≠ 0

theorem Ready.ackWindow (h : Ready w p) (hb : Backed D p) (hl : p.state.live = true) (hc : Lets w p env seg) :
    Ready w (p.ackWindow env seg) := by
  have hk := p.ackWindow_kept env seg
  have hst : (p.ackWindow env seg).state = p.state := congrArg (fun k => k.base.state) hk
  refine ⟨?_, ?_, ?_⟩ <;> rw [hst]
  · exact fun hs => ackWindow_fed (h.fed hs)
  · intro hw hs
    refine ackWindow_wnd ?_
    by_cases hprobe : p.persistProbing = true
    · exact Or.inl hprobe
    · rw [Bool.not_eq_true] at hprobe
      refine Or.inr ⟨?_, hc.1 hw hprobe⟩
      rcases h.wnd hw hs with hp | hwnd
      · exact absurd (hprobe.symm.trans hp) Bool.false_ne_true
      · exact hwnd
  · intro hw _
    have hcov := h.covered hw hl
    by_cases hbt : seqBetween seg.ack p.sndUna p.sndNxt = true
    · obtain ⟨U, hU, -⟩ := hb.lined hl
      obtain ⟨A, hUA, hA, hack⟩ := hU.between hbt
      rw [(ackWindow_idle _ hbt).snd]
      exact hU.acked_cov hUA hA hack hcov
    · rw [Pcb.ackWindow, if_neg hbt]
      exact hcov

theorem establish_fed (h : env.mss ≠ 0) : Fed (p.establish env seg) := by
  have hmss : 0 < env.mss := Nat.pos_of_ne_zero h
  refine ⟨hmss, ?_, ?_⟩
  · change 0 < min (10 * env.mss) (max (2 * env.mss) 14600)
    omega
  · exact Nat.mul_pos (by decide) hmss

theorem Ready.establish (h : Ready w p) (hst : p.state = .synReceived) (hc : Lets w p env seg) :
    Ready w (p.establish env seg) where
  fed := fun _ => establish_fed hc.2
  wnd := fun hw _ => by
    by_cases hprobe : p.persistProbing = true
    · exact Or.inl hprobe
    · rw [Bool.not_eq_true] at hprobe
      exact Or.inr (peerWindow_ne_zero (hc.1 hw hprobe))
  covered := fun hw _ => by
    rw [(p.establish_idle env seg).snd]
    exact h.covered hw (by rw [hst]; rfl)

/-- A SYN that is sent once more. -/
theorem Ready.outputSyn (h : Ready w p) : Ready w (p.output env flgSynAck []).1 := by
  have hk := p.output_kept env flgSynAck []
  have hst : (p.output env flgSynAck []).1.state = p.state := congrArg (fun k => k.base.state) hk
  have hf := p.output_flows env flgSynAck []
  rcases p.output_cases env flgSynAck [] rfl with hno | ⟨-, hq⟩
  · rw [hno]
    exact h
  generalize (p.output env flgSynAck []).1 = q at hst hf hq
  refine ⟨?_, ?_, fun _ _ _ => ?_⟩
  · rw [hst]
    exact fun hs => hf.fed (h.fed hs)
  · rw [hst, hf.wnd, hf.probing]
    exact h.wnd
  · rw [hq.snd]
    exact List.append_ne_nil_of_right_ne_nil _ (List.cons_ne_nil _ _)

theorem Ready.stops (h : Ready w p) (hs : Pcb.Stops p env seg q) : Ready w q := by
  cases hs with
  | again => exact h.outputSyn
  | drop => exact h
  | answer => exact h.stay (p.outputAck_idle env).snd (p.outputAck_flows env) (congrArg Base.state (p.outputAck_base env))
  | reset => exact .dead rfl
  | syn => exact .dead rfl
  | refuse => exact h.stay rfl ⟨rfl, rfl, id⟩ rfl
  | finish => exact .dead rfl

theorem Ready.ackState (h : Ready w p) : Ready w (p.ackState env seg) := by
  obtain ⟨hk, hstep⟩ := p.ackState_kept env seg
  refine h.keep (p.ackState_idle env seg).snd (p.ackState_flows env seg) ?_ ?_
  all_goals
    generalize (p.ackState env seg).state = t at hstep
    generalize p.state = s at hstep
    cases hstep with
    | same => exact id
    | finished | closed => first | exact fun _ => rfl | (rintro (h | h) <;> cases h)

theorem Ready.passes (h : Ready w p) (hb : Backed D p) (hc : Lets w p env seg) (hs : Pcb.Passes p env seg q) :
    Ready w q := by
  cases hs with
  | handshake hst =>
    have hbe : Backed D (p.establish env seg) :=
      hb.idle (p.establish_idle env seg) rfl (by rw [hst]; exact fun _ => ⟨rfl, rfl, fun h => nomatch h⟩)
    exact ((h.establish hst hc).ackWindow hbe rfl hc).ackState
  | transfer ht =>
    have hl : p.state.live = true := by
      unfold Pcb.transfers at ht
      revert ht
      cases p.state <;> decide
    exact (h.ackWindow hb hl hc).ackState
  | timeWait =>
    split
    · exact h.stay rfl ⟨rfl, rfl, id⟩ rfl
    · exact h
  | shut => exact h

/-- The text comes behind the handshake. -/
theorem passes_state (hs : Pcb.Passes p env seg q) : q.state ≠ .synReceived := by
  have hack : ∀ p : Pcb, p.state ≠ .synReceived → ((p.ackWindow env seg).ackState env seg).state ≠ .synReceived := by
    intro p hp
    have hst : (p.ackWindow env seg).state = p.state := congrArg (fun k => k.base.state) (p.ackWindow_kept env seg)
    obtain ⟨-, hstep⟩ := (p.ackWindow env seg).ackState_kept env seg
    rw [hst] at hstep
    generalize ((p.ackWindow env seg).ackState env seg).state = t at hstep
    generalize p.state = s at hstep hp
    cases hstep with
    | same => exact hp
    | finished => decide
    | closed => decide
  cases hs with
  | handshake => exact hack _ (show State.established ≠ .synReceived by decide)
  | transfer ht =>
    refine hack p fun h => ?_
    unfold Pcb.transfers at ht
    rw [h] at ht
    exact absurd ht (by decide)
  | timeWait hst => split <;> exact fun h => absurd (hst.symm.trans h) (by decide)
  | shut ho =>
    intro h
    unfold Pcb.opened at ho
    rw [h] at ho
    exact absurd ho (by decide)

theorem Ready.text (h : Ready w p) (hst : p.state ≠ .synReceived) : Ready w ((p.takeText env seg).takeFin env seg) := by
  have hts : (p.takeText env seg).state = p.state := congrArg Base.state (p.takeText_base env seg)
  have ht : Ready w (p.takeText env seg) := h.stay (p.takeText_idle env seg).snd (p.takeText_flows env seg) hts
  rw [← hts] at hst
  generalize p.takeText env seg = q at ht hst
  rcases q.takeFin_cases env seg with hk | ⟨-, -, st, hstep, hb, -⟩
  · exact ht.stay (q.takeFin_idle env seg).snd (q.takeFin_flows env seg) (congrArg (fun k => k.base.state) hk)
  · have hs : (q.takeFin env seg).state = st := congrArg Base.state hb
    refine ht.keep (q.takeFin_idle env seg).snd (q.takeFin_flows env seg) ?_ ?_ <;> rw [hs]
    · exact finStep_live hstep
    · intro hv
      generalize q.state = s at hstep hst
      cases hstep with
      | same => exact hv
      | half h => exact Or.inl (h.resolve_left hst)
      | closing => rcases hv with h | h <;> cases h
      | both => rcases hv with h | h <;> cases h

theorem Ready.arrivesOpened (h : Ready w p) (hb : Backed D p) (hc : Lets w p env seg) :
    Ready w (p.arrivesOpened env seg) := by
  have hp : Ready w { p with idleStamp := env.now } := h.stay rfl ⟨rfl, rfl, id⟩ rfl
  have hpb : Backed D { p with idleStamp := env.now } := hb.idle_base (.of_eq rfl rfl rfl) rfl
  rcases p.arrivesOpened_cases env seg with hstop | ⟨q, hpass, heq⟩
  · exact hp.stops hstop
  · rw [heq]
    exact (hp.passes hpb hc hpass).text (passes_state hpass)

/-- An acknowledgment in range, before anything but the SYN has been sent, acknowledges the SYN. -/
theorem Lined.ack_syn (h : Lined [] 0 p.snd 0) {ack : Seq} (hafter : seqAfter ack p.iss = true)
    (hnot : seqAfter ack p.sndNxt = false) : ack = p.sndNxt := by
  have huna : p.sndUna = p.iss := h.una.trans (BitVec.add_zero _)
  have hbt : seqBetween ack p.sndUna p.sndNxt = true := by
    unfold seqBetween
    rw [hnot, huna]
    unfold seqBefore
    unfold seqAfter at hafter
    obtain ⟨-, hlt⟩ := Bool.and_eq_true_iff.mp hafter
    rw [decide_eq_false (Nat.not_le.mpr (of_decide_eq_true hlt))]
    rfl
  obtain ⟨A, -, hA, hackA⟩ := h.between hbt
  have hA1 : A = 1 := by
    rw [List.length_nil] at hA
    rcases Nat.eq_zero_or_pos A with rfl | hpos
    · have hzero : ack = p.iss := hackA.trans (BitVec.add_zero _)
      rw [hzero, seqAfter, BitVec.sub_self] at hafter
      exact absurd hafter (by decide)
    · omega
  rw [hackA, hA1]
  exact h.nxt.symm

theorem Ready.arrivesSynSent (h : Ready w p) (hb : Backed D p) (hst : p.state = .synSent) (hc : Lets w p env seg) :
    Ready w (p.arrivesSynSent env seg) := by
  have hl : p.state.live = true := by rw [hst]; rfl
  have hf : p.state.finned = false := by rw [hst]; rfl
  obtain ⟨U, hU, hearly⟩ := hb.lined hl
  obtain ⟨rfl, rfl⟩ := hearly (by rw [hst]; rfl)
  rw [hf] at hU
  have huna : p.sndUna = p.iss := hU.una.trans (BitVec.add_zero _)
  unfold Pcb.arrivesSynSent
  split
  · exact h.stay rfl ⟨rfl, rfl, id⟩ rfl
  rename_i hrange
  have hack : seg.flg.ack = true → seqAfter seg.ack p.iss = true ∧ seqAfter seg.ack p.sndNxt = false := by
    intro hflag
    rw [hflag] at hrange
    revert hrange
    cases seqAfter seg.ack p.iss <;> cases seqAfter seg.ack p.sndNxt <;> decide
  dsimp only
  split
  · split
    · exact .dead rfl
    · exact h
  split
  case isFalse => exact h
  generalize hq : (if (seg.flg.ack && seqBetween seg.ack p.sndUna p.sndNxt) = true then _ else _ : Pcb) = r
  have hr : r.sndNxt = p.sndNxt ∧ r.iss = p.iss ∧ r.persistProbing = p.persistProbing ∧
      (r.sndUna = seg.ack ∧ seg.flg.ack = true ∨ r.sndUna = p.sndUna ∧ r.queue = p.queue) := by
    rw [← hq]
    split
    · rename_i hacc
      exact ⟨rfl, rfl, rfl, Or.inl ⟨rfl, (Bool.and_eq_true_iff.mp hacc).1⟩⟩
    · exact ⟨rfl, rfl, rfl, Or.inr ⟨rfl, rfl⟩⟩
  obtain ⟨hrn, hri, hrp, hru⟩ := hr
  split
  · rename_i hafter
    -- Everything has been acknowledged.
    have hall : r.sndUna = r.sndNxt := by
      rcases hru with ⟨hu, hflag⟩ | ⟨hu, -⟩
      · rw [hu, hrn]
        exact hU.ack_syn (hack hflag).1 (hack hflag).2
      · rw [hu, hri, huna, seqAfter, BitVec.sub_self] at hafter
        exact absurd hafter (by decide)
    generalize hcc : Pcb.ccInit { r with state := .established } env = t₀
    have hidle₀ : r.Idle t₀ := by
      rw [← hcc]
      exact (Pcb.ccInit_idle { r with state := .established } env).after rfl rfl rfl
    have hprobe₀ : t₀.persistProbing = p.persistProbing := by
      rw [← hcc]
      exact hrp
    have hfed₀ : Fed t₀ := by
      rw [← hcc]
      have hmss : 0 < env.mss := Nat.pos_of_ne_zero hc.2
      refine ⟨hmss, ?_, Nat.mul_pos (by decide) hmss⟩
      change 0 < min (10 * env.mss) (max (2 * env.mss) 14600)
      omega
    have hidle : r.Idle (t₀.outputAck env) := hidle₀.trans (t₀.outputAck_idle env)
    have hflow := t₀.outputAck_flows env
    generalize t₀.outputAck env = t at hidle hflow
    refine ⟨fun _ => hflow.fed hfed₀, fun hw _ => ?_, fun _ _ hne => ?_⟩
    · by_cases hprobe : p.persistProbing = true
      · exact Or.inl (hflow.probing.trans (hprobe₀.trans hprobe))
      · rw [Bool.not_eq_true] at hprobe
        exact Or.inr (peerWindow_ne_zero (hc.1 hw hprobe))
    · have hu : t.sndUna = r.sndUna := congrArg Snd.una hidle.snd
      have hn : t.sndNxt = r.sndNxt := congrArg Snd.nxt hidle.snd
      exact absurd (hu.trans (hall.trans hn.symm)) hne
  · rename_i hafter
    refine Ready.outputSyn (p := { r with state := .synReceived }) ⟨?_, ?_, ?_⟩
    · rintro (h | h) <;> cases h
    · intro _
      rintro (h | h) <;> cases h
    · intro hw _ hne
      rcases hru with ⟨hu, hflag⟩ | ⟨hu, hqueue⟩
      · rw [hu, hri] at hafter
        exact absurd (hack hflag).1 hafter
      · have hsnd : r.snd = p.snd := by
          unfold Pcb.snd
          rw [hrn, hri, hu, hqueue]
        have hcov := h.covered hw hl
        rw [← hsnd] at hcov
        exact hcov hne

theorem Ready.arrives (h : Ready w p) (hb : Backed D p) (hc : Lets w p env seg) : Ready w (p.arrives env seg) := by
  unfold Pcb.arrives
  split
  · exact h
  · rename_i hst
    have hp : Ready w { p with idleStamp := env.now } := h.stay rfl ⟨rfl, rfl, id⟩ rfl
    exact hp.arrivesSynSent (hb.idle_base (.of_eq rfl rfl rfl) rfl) hst hc
  · exact h.arrivesOpened hb hc

/-! ### The user and the timer -/

theorem Ready.queueFin (h : Ready w p) (hnext : ∀ s, p.closeState = some s → s = .finWait1 ∨ s = .lastAck) :
    Ready w (p.queueFin env) := by
  have hflow := p.queueFin_flows env
  revert hflow
  unfold Pcb.queueFin
  split
  · exact fun _ => h
  · rename_i s hc
    dsimp only
    rcases p.output_cases env flgFinAck [] rfl with hno | ⟨hres, hq⟩
    · rw [hno]
      exact fun hflow => h.stay rfl hflow rfl
    have hfin : (if p.state = .closeWait then State.lastAck else s).finned = true := by
      split
      · rfl
      · rcases hnext s hc with rfl | rfl <;> rfl
    generalize (if p.state = .closeWait then State.lastAck else s) = t at hfin
    generalize p.output env flgFinAck [] = r at hres hq
    obtain ⟨q, res⟩ := r
    have hgoal : Ready w { q with sndNxt := q.sndNxt + 1, state := t, closeState := none, closeTimer := 0 } := by
      have hno : ¬State.Serves t := by
        rintro (h | h) <;> rw [h] at hfin <;> cases hfin
      refine ⟨fun hs => absurd hs hno, fun _ hs => absurd hs hno, fun _ _ _ => ?_⟩
      change q.snd.parts ≠ []
      rw [hq.snd]
      exact List.append_ne_nil_of_right_ne_nil _ (List.cons_ne_nil _ _)
    cases res with
    | noQueue => exact absurd rfl hres
    | wired => exact fun _ => hgoal
    | deferred => exact fun _ => hgoal

theorem Ready.close (h : Ready w p) : Ready w (p.close env) := by
  have hgo : ∀ s, (s = State.finWait1 ∨ s = .lastAck) → Ready w ({ p with closeState := some s }.queueFin env) := by
    intro s hs
    have hp : Ready w { p with closeState := some s } := h.stay rfl ⟨rfl, rfl, id⟩ rfl
    refine hp.queueFin fun t ht => ?_
    cases ht
    exact hs
  unfold Pcb.close
  split
  · exact .dead rfl
  · exact .dead rfl
  · exact .dead rfl
  · exact hgo .finWait1 (Or.inl rfl)
  · exact hgo .finWait1 (Or.inl rfl)
  · exact hgo .lastAck (Or.inr rfl)
  all_goals exact h

theorem Ready.emit (h : Ready w p) : Ready w (p.emit env) := by
  rcases p.emit_kept env with hk | hk
  · exact h.stay (p.emit_idle env).snd (p.emit_flows env) (congrArg (fun k => k.base.state) hk)
  · have hst : (p.emit env).state = .closed := congrArg (fun k => k.base.state) hk
    exact .dead (by rw [hst]; rfl)

theorem Ready.timer (h : Ready w p) (hb : Backed D p) : Ready w (p.timer env) := by
  unfold Pcb.timer
  split
  · exact h
  split
  · exact .dead rfl
  obtain ⟨r, hr, hq | ⟨q, hq, hreap⟩⟩ := p.reap_cases env
  · have hrr : Ready w r ∧ r.closeState = p.closeState := by
      rcases hr with rfl | rfl
      · exact ⟨h, rfl⟩
      · exact ⟨h.stay rfl ⟨rfl, rfl, id⟩ rfl, rfl⟩
    rw [hq]
    have hfin : Ready w (r.retryFin env) := by
      unfold Pcb.retryFin
      split
      · exact hrr.1.queueFin (by rw [hrr.2]; exact hb.next)
      · exact hrr.1
    have hemit : Ready w ((r.retryFin env).emit env) := hfin.emit
    have hprobe : Ready w (((r.retryFin env).emit env).probe env) :=
      hemit.stay (Pcb.probe_idle _ env).snd (Pcb.probe_flows _ env) (congrArg (fun k => k.base.state) (Pcb.probe_kept _ env))
    exact hprobe.stay (Pcb.flushAck_idle _ env).snd (Pcb.flushAck_flows _ env)
      (congrArg Base.state (Pcb.flushAck_base _ env).1)
  · rw [hq]
    cases hreap with
    | orphan => exact .dead rfl
    | silent => exact .dead rfl

theorem Ready.receive (h : Ready w p) (size : ℕ) : Ready w (p.receive env size).1 :=
  h.stay (p.receive_idle env size).snd (p.receive_flows env size) (receive_same size).2

/-! ### Sending -/

theorem sendLoop_fed (env : Env) (data : List UInt8) (k sent : ℕ) (h : Fed p) : Fed (Pcb.sendLoop env data k p sent).1 := by
  induction k generalizing p sent with
  | zero => exact h
  | succ k ih =>
    rw [Pcb.sendLoop]
    split
    case isFalse => exact h
    case isTrue =>
      dsimp only
      split
      · split
        · unfold Pcb.persistArm
          split <;> exact h
        · exact h
      · split
        all_goals
          rename_i q hq
          have hfed : Fed q := by
            have hout : _ = q := congrArg (fun x => x.1) hq
            rw [← hout]
            exact (Pcb.output_flows p.persistDisarm env _ _).fed h
        · exact hfed
        · exact hfed
        · exact ih _ (p := q.advance _) hfed

theorem sendLoop_le (env : Env) (data : List UInt8) (k sent : ℕ) : sent ≤ (Pcb.sendLoop env data k p sent).2 := by
  induction k generalizing p sent with
  | zero => exact Nat.le_refl _
  | succ k ih =>
    rw [Pcb.sendLoop]
    split
    case isFalse => exact Nat.le_refl _
    case isTrue =>
      dsimp only
      split
      · exact Nat.le_refl _
      · split
        · exact Nat.le_refl _
        · exact Nat.le_add_right _ _
        · exact Nat.le_trans (Nat.le_add_right _ _) (ih _)

/-- A writer that is refused leaves the queue as it was, and the probe armed if the window is closed. -/
theorem sendLoop_refused (env : Env) (data : List UInt8) (k : ℕ) (h : Fed p) (hne : data.length ≠ 0)
    (hzero : (Pcb.sendLoop env data (k + 1) p 0).2 = 0) :
    (Pcb.sendLoop env data (k + 1) p 0).1.snd = p.snd ∧
      ((Pcb.sendLoop env data (k + 1) p 0).1.persistProbing = true ∨
        (Pcb.sendLoop env data (k + 1) p 0).1.sndWnd ≠ 0) := by
  revert hzero
  rw [Pcb.sendLoop, if_pos (Nat.pos_of_ne_zero hne)]
  dsimp only
  split
  · intro _
    dsimp only
    split
    · refine ⟨(p.persistArm_idle env).snd, Or.inl ?_⟩
      unfold Pcb.persistArm
      split
      · rename_i hprobe
        exact hprobe
      · rfl
    · rename_i hwnd
      exact ⟨rfl, Or.inr hwnd⟩
  · rename_i hcap
    rw [not_or] at hcap
    have hwnd : p.sndWnd ≠ 0 := by
      intro hz
      refine hcap.1 ?_
      unfold Pcb.sendWindow
      rw [hz, Nat.zero_min, Nat.zero_sub]
    have hmss := h.1
    have hslen : 0 < min (min p.mss (data.length - 0)) (p.sendWindow - p.inflight) := by omega
    generalize min (min p.mss (data.length - 0)) (p.sendWindow - p.inflight) = slen at hslen
    generalize hflg : (if data.length ≤ 0 + slen ∨ p.sendWindow - p.inflight - slen < p.persistDisarm.mss then
      flgPshAck else flgAck) = flg
    have hlen : ((data.drop 0).take slen).length ≠ 0 := by
      rw [List.drop_zero, List.length_take]
      omega
    rcases p.persistDisarm.output_cases env flg ((data.drop 0).take slen)
      (by rw [Bool.or_eq_true]; exact Or.inr (decide_eq_true hlen)) with hno | ⟨hres, -⟩
    · rw [hno]
      exact fun _ => ⟨rfl, Or.inr hwnd⟩
    · generalize p.persistDisarm.output env flg ((data.drop 0).take slen) = r at hres
      obtain ⟨q, res⟩ := r
      intro hz
      exfalso
      cases res with
      | noQueue => exact hres rfl
      | deferred =>
        change 0 + slen = 0 at hz
        omega
      | wired =>
        have hle := sendLoop_le (p := q.advance slen) env data k (0 + slen)
        have hz' : (Pcb.sendLoop env data k (q.advance slen) (0 + slen)).2 = 0 := hz
        omega

theorem Ready.send (h : Ready w p) (hb : Backed D p) (hc : p.sndUna = p.iss → p.queue ≠ []) (data : List UInt8) :
    Ready (waitsOn w (p.send env data).2) (p.send env data).1 := by
  have hearly : p.state.early = true → p.state.live = true → Ready true p := by
    intro he hl
    have hno : ¬p.state.Serves := by
      rintro (hs | hs) <;> rw [hs] at he <;> cases he
    exact ⟨fun hs => absurd hs hno, fun _ hs => absurd hs hno, fun _ _ => hb.cov hl hc⟩
  let out : Pcb × ℕ → Pcb × Except Errno ℕ := fun r =>
    if r.2 = 0 ∧ data.length ≠ 0 then (r.1, .error .again)
    else (if 0 < r.2 then { r.1 with idleStamp := env.now } else r.1, .ok r.2)
  have hgo : p.state.Serves →
      Ready (waitsOn w (if env.mtu.isNone then (p, .error .io) else out (Pcb.sendLoop env data (data.length + 1) p 0)).2)
        (if env.mtu.isNone then (p, .error .io) else out (Pcb.sendLoop env data (data.length + 1) p 0)).1 := by
    intro hs
    have hl : p.state.live = true := by
      rcases hs with hs | hs <;> rw [hs] <;> rfl
    split
    · exact h.unwatched
    · have hfed := sendLoop_fed env data (data.length + 1) 0 (h.fed hs)
      have hrefused := sendLoop_refused env data data.length (h.fed hs)
      have hnil : data.length = 0 → Pcb.sendLoop env data (data.length + 1) p 0 = (p, 0) := by
        intro hz
        rw [Pcb.sendLoop, if_neg (by omega)]
      generalize Pcb.sendLoop env data (data.length + 1) p 0 = r at hfed hrefused hnil
      obtain ⟨q, sent⟩ := r
      dsimp only [out]
      split
      · rename_i hz
        obtain ⟨hsnd, hwnd⟩ := hrefused hz.2 hz.1
        refine ⟨fun _ => hfed, fun _ _ => hwnd, fun _ _ => ?_⟩
        change Cov q.snd
        rw [hsnd]
        exact hb.cov hl hc
      · rename_i hz
        by_cases hsent : 0 < sent
        · rw [if_pos hsent]
          have hw : waitsOn w (.ok sent) = false := by
            change (w && decide (sent = 0)) = false
            rw [decide_eq_false (by omega), Bool.and_false]
          refine ⟨fun _ => hfed, fun h => ?_, fun h => ?_⟩
          · exact absurd (hw.symm.trans h) Bool.false_ne_true
          · exact absurd (hw.symm.trans h) Bool.false_ne_true
        · rw [if_neg hsent]
          have hq := hnil (by omega)
          cases hq
          have hw : waitsOn w (.ok 0) = w := Bool.and_true w
          change Ready (waitsOn w (.ok 0)) p
          rw [hw]
          exact h
  unfold Pcb.send
  split
  case h_6 hst => exact hgo (Or.inl hst)
  case h_7 hst => exact hgo (Or.inr hst)
  case h_4 hst => exact hearly (by rw [hst]; rfl) (by rw [hst]; rfl)
  case h_5 hst => exact hearly (by rw [hst]; rfl) (by rw [hst]; rfl)
  case h_2 => split <;> exact h.unwatched
  all_goals exact h.unwatched

/-! ### Runs -/

structure Watch (c : Watched) : Prop where
  backed : Backed c.sent c.pcb
  owed : c.owed = true → c.pcb.state.live = true → c.pcb.delackPending = true ∧ c.pcb.state.Serves
  asks : c.pcb.closeState.isSome = true → c.pcb.state.live = true → c.pcb.state.Asks
  ready : Ready c.waits c.pcb

variable {c d : Watched}

/-- Nothing is owed or asked for before the handshake is over. -/
theorem Watch.synSent (h : Watch c) (hst : c.pcb.state = .synSent) :
    c.owed = false ∧ c.pcb.closeState = none := by
  constructor
  · by_contra ho
    rw [Bool.not_eq_false] at ho
    have hs := (h.owed ho (by rw [hst]; rfl)).2
    rw [hst] at hs
    rcases hs with hs | hs <;> cases hs
  · by_contra hc
    have hs := h.asks (Option.isSome_iff_ne_none.mpr hc) (by rw [hst]; rfl)
    rw [hst] at hs
    rcases hs with hs | hs | hs <;> cases hs

theorem arrivesSynSent_closeState (h : p.closeState = none) : (p.arrivesSynSent env seg).closeState = none := by
  unfold Pcb.arrivesSynSent
  dsimp only
  split
  · exact h
  split
  · split <;> exact h
  split
  · generalize hq : (if (seg.flg.ack && seqBetween seg.ack p.sndUna p.sndNxt) = true then _ else _ : Pcb) = r
    have hr : r.closeState = none := by
      rw [← hq]
      split <;> exact h
    split
    · exact (congrArg (fun k => k.base.closeState) (Pcb.outputAck_kept (Pcb.ccInit { r with state := .established } env) env)).trans hr
    · exact (congrArg (fun k => k.base.closeState) (Pcb.output_kept { r with state := .synReceived } env flgSynAck [])).trans hr
  · exact h

theorem arrives_cases (p : Pcb) (env : Env) (seg : Segment) :
    (p.state = .closed ∧ p.arrives env seg = p) ∨
    (p.state = .synSent ∧ p.arrives env seg = { p with idleStamp := env.now }.arrivesSynSent env seg) ∨
    p.arrives env seg = p.arrivesOpened env seg := by
  unfold Pcb.arrives
  split
  · rename_i h
    exact Or.inl ⟨h, rfl⟩
  · rename_i h
    exact Or.inr (Or.inl ⟨h, rfl⟩)
  · exact Or.inr (Or.inr rfl)

theorem Watch.segment (h : Watch c) (hc : Careful c (.segment env seg)) (hd : c.step (.segment env seg) = some d) :
    Watch d := by
  obtain ⟨htext, hwire, hwnd, hmss⟩ := hc
  cases hd
  refine ⟨h.backed.arrives, ?_, ?_, h.ready.arrives h.backed ⟨hwnd, hmss⟩⟩
  all_goals
    dsimp only
    rcases arrives_cases c.pcb env seg with ⟨hst, heq⟩ | ⟨hst, heq⟩ | heq <;> rw [heq]
  · intro _ hl
    rw [hst] at hl
    exact absurd hl Bool.false_ne_true
  · intro ho
    have hopen : c.pcb.opened = false := by rw [Pcb.opened, hst]
    rw [hopen, (h.synSent hst).1] at ho
    exact absurd ho Bool.false_ne_true
  · refine (arrivesOpened_hears htext).owed env _ h.owed ?_ ?_
    · rintro (howed | ht)
      · exact hwire (Or.inl howed)
      · exact hwire (Or.inr (of_decide_eq_true (Bool.and_eq_true_iff.mp (Bool.and_eq_true_iff.mp ht).1).2))
    · exact fun ht => of_decide_eq_true (Bool.and_eq_true_iff.mp ht).2
  · exact h.asks
  · intro hcs
    rw [arrivesSynSent_closeState (p := { c.pcb with idleStamp := env.now }) (h.synSent hst).2] at hcs
    exact absurd hcs Bool.false_ne_true
  · exact (arrivesOpened_hears htext).asks h.asks

/-- A call of the user or a tick. -/
theorem Watch.hears {sent : List UInt8} {waits : Bool} (h : Watch c) (hh : Hears c.pcb q)
    (hw : c.owed = true → (∀ i, env.wire i = true) ∨ (q.delackPending = c.pcb.delackPending ∧ q.state = c.pcb.state))
    (hb : Backed sent q) (hr : Ready waits q) : Watch ⟨q, sent, waits, c.owed && !said c.pcb q env⟩ := by
  refine ⟨hb, fun ho hl => ?_, hh.asks h.asks, hr⟩
  change (c.owed && !said c.pcb q env) = true at ho
  change q.state.live = true at hl
  have howed : c.owed = true := (Bool.and_eq_true_iff.mp ho).1
  rcases hw howed with hwire | ⟨hd, hs⟩
  · refine hh.owed env false h.owed (fun _ => hwire) (fun h => absurd h Bool.false_ne_true) ?_ hl
    rw [Bool.or_false]
    exact ho
  · rw [hs] at hl
    change q.delackPending = true ∧ q.state.Serves
    rw [hd, hs]
    exact h.owed howed hl

theorem Watch.close (h : Watch c) (hw : c.owed = true → ∀ i, env.wire i = true) (hd : c.step (.close env) = some d) :
    Watch d := by
  cases hd
  rcases close_cases c.pcb env with heq | hfree | ⟨hasks, s, heq⟩
  · exact h.hears (by rw [heq]; exact .refl _) (fun ho => Or.inl (hw ho)) h.backed.close h.ready.close
  · have hlive : (c.pcb.close env).state.live = false := by
      rw [hfree]
      rfl
    exact ⟨h.backed.close, fun _ hl => absurd (hlive.symm.trans hl) Bool.false_ne_true,
      fun _ hl => absurd (hlive.symm.trans hl) Bool.false_ne_true, h.ready.close⟩
  · -- The FIN is asked for, and then queued if there is room.
    have hh : Hears { c.pcb with closeState := some s } (c.pcb.close env) := by
      rw [heq]
      exact queueFin_hears (p := { c.pcb with closeState := some s }) hasks.live
    refine ⟨h.backed.close, fun ho hl => ?_, fun hcs hl => ?_, h.ready.close⟩
    · have howed : c.owed = true := (Bool.and_eq_true_iff.mp ho).1
      refine hh.owed env false h.owed (fun _ => hw howed) (fun h => absurd h Bool.false_ne_true) ?_ hl
      rw [Bool.or_false]
      exact ho
    · exact hh.asks (fun _ _ => hasks) hcs hl

theorem Watch.step {e : TcpEvent} (h : Watch c) (hc : Careful c e) (hd : c.step e = some d) : Watch d := by
  cases e with
  | segment env seg => exact h.segment hc hd
  | receive env size =>
    cases hd
    exact h.hears (receive_hears size) (fun _ => Or.inr (receive_same size)) (h.backed.receive size)
      (h.ready.receive size)
  | send env data =>
    cases hd
    have hk := c.pcb.send_kept env data
    exact h.hears (send_hears data) (fun _ => Or.inr ⟨congrArg Kept.delackPending hk, congrArg (fun k => k.base.state) hk⟩)
      (h.backed.send data) (h.ready.send h.backed hc data)
  | close env => exact h.close hc hd
  | tick env =>
    cases hd
    exact h.hears timer_hears (fun ho => Or.inl (hc ho)) h.backed.timer (h.ready.timer h.backed)

theorem Starts.watch (h : Starts p) : Watch ⟨p, [], false, false⟩ where
  backed := h.backed
  owed := fun h => absurd h Bool.false_ne_true
  asks := fun hc _ => by
    have hnone : p.closeState = none := h.closeState
    change p.closeState.isSome = true at hc
    rw [hnone] at hc
    exact absurd hc Bool.false_ne_true
  ready := by
    have hno : ¬p.state.Serves := by
      have he := h.early
      rintro (hs | hs) <;> rw [hs] at he <;> cases he
    exact ⟨fun hs => absurd hs hno, fun _ hs => absurd hs hno, fun h => absurd h Bool.false_ne_true⟩

/-- With nothing in flight, only the window of the peer can keep a writer out. -/
theorem Watch.writer (h : Watch c) (hl : c.pcb.state.live = true) (hw : c.waits = true)
    (hst : c.pcb.state.early = true ∨ c.pcb.state.Serves) (hfull : c.pcb.sendWindow ≤ c.pcb.inflight) : Armed c.pcb := by
  by_cases hq : c.pcb.queue = []
  case neg => exact Or.inl hq
  have hall : c.pcb.sndUna = c.pcb.sndNxt := by
    by_contra hne
    exact parts_ne_nil.mp (h.ready.covered hw hl hne) hq
  rcases hst with he | hs
  · obtain ⟨U, hU, hearly⟩ := h.backed.lined hl
    obtain ⟨rfl, hD⟩ := hearly he
    rw [hD] at hU
    have hf : c.pcb.state.finned = false := by
      revert he
      cases c.pcb.state <;> decide
    rw [hf] at hU
    have huna : c.pcb.sndUna = c.pcb.iss + BitVec.ofNat 32 0 := hU.una
    have hnxt : c.pcb.sndNxt = c.pcb.iss + BitVec.ofNat 32 1 := hU.nxt
    rw [huna, hnxt] at hall
    exact absurd (place_inj c.pcb.iss hall (by omega) (by omega)) (by decide)
  · have hzero : c.pcb.inflight = 0 := by
      unfold Pcb.inflight
      rw [hall, BitVec.sub_self, BitVec.toNat_zero]
    have hfed := (h.ready.fed hs).2.1
    rcases h.ready.wnd hw hs with hprobe | hwnd
    · exact Or.inr (Or.inr (Or.inr ⟨hprobe, hs⟩))
    · unfold Pcb.sendWindow at hfull
      omega

theorem Watch.armed (h : Watch c) (hl : c.pcb.state.live = true) (ho : Owes c) : Armed c.pcb := by
  cases ho with
  | unacked hne hsome =>
    refine Or.inl fun hq => ?_
    obtain ⟨U, hU, -⟩ := h.backed.lined hl
    obtain ⟨hD, hf, -⟩ := hU.missing hne hq
    rcases hsome with hs | hs
    · exact hs hD
    · rw [hs] at hf
      exact absurd hf (by decide)
  | text howed => exact Or.inr (Or.inl (h.owed howed hl))
  | close hc => exact Or.inr (Or.inr (Or.inl ⟨hc, h.asks hc hl⟩))
  | writer hw hst hfull => exact h.writer hl hw hst hfull

/-- In a run that loses nothing, what a connection still has to do is always watched over. -/
theorem obligations_armed {p₀ : Pcb} (hp : Starts p₀) {c : Watched}
    (h : Reach Watched.step Careful ⟨p₀, [], false, false⟩ c) (hl : c.pcb.state.live = true) (ho : Owes c) :
    Armed c.pcb :=
  (h.inv (I := Watch) hp.watch fun _ _ _ hI hc hd => hI.step hc hd).armed hl ho

/-- The handshake of the sample connection, and a byte that comes next. -/
def sampleShake : Segment := ⟨10, 5, flgAck, 1000, none, []⟩

def sampleText (ack : Seq) : Segment := ⟨10, ack, flgAck, 1000, none, [7]⟩

/-- One byte has come, and its delayed ACK is pending. -/
theorem obligations_armed_text : ∃ c, Reach Watched.step Careful ⟨sampleConn, [], false, false⟩ c ∧
    c.owed = true ∧ Armed c.pcb := by
  have h1 : Careful ⟨sampleConn, [], false, false⟩ (.segment sampleEnv sampleShake) :=
    ⟨fun h => absurd h (by decide +kernel), fun _ _ => rfl, fun h => absurd h (by decide), by decide⟩
  have h2 : Careful ⟨sampleConn.arrives sampleEnv sampleShake, [], false, false⟩ (.segment sampleEnv (sampleText 5)) :=
    ⟨fun h => absurd h (by decide +kernel), fun _ _ => rfl, fun h => absurd h (by decide), by decide⟩
  obtain ⟨c, hrun⟩ : ∃ c, Watched.step ⟨sampleConn.arrives sampleEnv sampleShake, [], false, false⟩
      (.segment sampleEnv (sampleText 5)) = some c := ⟨_, rfl⟩
  have hstate : (Watched.step ⟨sampleConn.arrives sampleEnv sampleShake, [], false, false⟩
      (.segment sampleEnv (sampleText 5))).map (fun c => (c.owed, c.pcb.state)) = some (true, .established) := by
    decide +kernel
  have hfirst : Watched.step ⟨sampleConn, [], false, false⟩ (.segment sampleEnv sampleShake) =
      some ⟨sampleConn.arrives sampleEnv sampleShake, [], false, false⟩ := rfl
  have hreach : Reach Watched.step Careful ⟨sampleConn, [], false, false⟩ c := .next (.next .start h1 hfirst) h2 hrun
  rw [hrun] at hstate
  have howed : c.owed = true := congrArg Prod.fst (Option.some.inj hstate)
  have hest : c.pcb.state = .established := congrArg Prod.snd (Option.some.inj hstate)
  exact ⟨c, hreach, howed, obligations_armed accepted_starts hreach (by rw [hest]; rfl) (.text howed)⟩

/-- What a run comes to. -/
structure Sight where
  owed : Bool
  waits : Bool
  state : State
  queue : ℕ
  window : ℕ
  delack : Bool
  close : Bool
  probing : Bool
  deriving DecidableEq

def Watched.sight (c : Watched) : Sight :=
  ⟨c.owed, c.waits, c.pcb.state, c.pcb.queue.length, c.pcb.sendWindow, c.pcb.delackPending,
    c.pcb.closeState.isSome, c.pcb.persistProbing⟩

/-- The user closes, the FIN is acknowledged, and then one more byte comes. -/
def sampleHalfClosed : List TcpEvent :=
  [.segment sampleEnv sampleShake, .close sampleEnv, .segment sampleEnv ⟨10, 6, flgAck, 1000, none, []⟩,
   .segment sampleEnv (sampleText 6)]

/-- Whether a tick would look at it. -/
def Sight.armed (s : Sight) : Bool :=
  s.queue ≠ 0 || (s.delack && (s.state = .established || s.state = .closeWait)) || s.close ||
    (s.probing && (s.state = .established || s.state = .closeWait))

theorem unarmed_of_sight {c : Watched} (h : c.sight.armed = false) : ¬Armed c.pcb := by
  have hserves : c.pcb.state.Serves → (c.pcb.state = .established || c.pcb.state = .closeWait : Bool) = true := by
    intro hs
    rwa [Bool.or_eq_true, decide_eq_true_eq, decide_eq_true_eq]
  unfold Sight.armed Watched.sight at h
  dsimp only at h
  simp only [Bool.or_eq_false_iff] at h
  obtain ⟨⟨⟨hq, hd⟩, hc⟩, hp⟩ := h
  rintro (hne | ⟨hpend, hs⟩ | ⟨hclose, -⟩ | ⟨hprobe, hs⟩)
  · exact of_decide_eq_false hq (fun hz => hne (List.length_eq_zero_iff.mp hz))
  · rw [hpend, hserves hs] at hd
    exact absurd hd (by decide)
  · exact absurd (hc.symm.trans hclose) Bool.false_ne_true
  · rw [hprobe, hserves hs] at hp
    exact absurd hp (by decide)

/-- In FIN_WAIT2 the delayed ACK is set, and no tick looks at it. -/
theorem obligations_lost : ¬ ∀ (p₀ : Pcb) (c : Watched), Starts p₀ →
    Reach Watched.step Free ⟨p₀, [], false, false⟩ c → c.pcb.state.live = true → Owes c → Armed c.pcb := by
  intro h
  have hsight : (runOps Watched.step ⟨sampleConn, [], false, false⟩ sampleHalfClosed).map Watched.sight =
      some ⟨true, false, .finWait2, 0, 1000, true, false, false⟩ := by decide +kernel
  obtain ⟨c, hrun, hc⟩ := Option.map_eq_some_iff.mp hsight
  have hst : c.pcb.state = .finWait2 := congrArg Sight.state hc
  have howed : c.owed = true := congrArg Sight.owed hc
  exact unarmed_of_sight (by rw [hc]; decide)
    (h sampleConn c accepted_starts (reach_of_runOps hrun) (by rw [hst]; rfl) (.text howed))

/-- The peer has room for three bytes, and closes its window with their acknowledgment while one more waits. -/
def sampleFull : List TcpEvent :=
  [.segment sampleEnv ⟨10, 5, flgAck, 3, none, []⟩, .send sampleEnv [1, 2, 3], .send sampleEnv [4],
   .segment sampleEnv ⟨10, 8, flgAck, 0, none, []⟩]

/-- The writer waits, and no probe is armed for it. -/
theorem writer_lost : ∃ c, Reach Watched.step Free ⟨sampleConn, [], false, false⟩ c ∧ c.pcb.state.live = true ∧
    c.waits = true ∧ Owes c ∧ ¬Armed c.pcb := by
  have hsight : (runOps Watched.step ⟨sampleConn, [], false, false⟩ sampleFull).map Watched.sight =
      some ⟨false, true, .established, 0, 0, false, false, false⟩ := by decide +kernel
  obtain ⟨c, hrun, hc⟩ := Option.map_eq_some_iff.mp hsight
  have hst : c.pcb.state = .established := congrArg Sight.state hc
  have hwaits : c.waits = true := congrArg Sight.waits hc
  have hwindow : c.pcb.sendWindow = 0 := congrArg Sight.window hc
  refine ⟨c, reach_of_runOps hrun, by rw [hst]; rfl, hwaits, .writer hwaits (.inr (.inl hst)) ?_,
    unarmed_of_sight (by rw [hc]; decide)⟩
  rw [hwindow]
  exact Nat.zero_le _

end EwokOS.Net
