import EwokOS.Net.TcpQueue

/-! What the timer watches over (`tcp.c`). Each of the four is honoured in some states only:

        the retransmit queue    every state            the delayed ACK     ESTABLISHED, CLOSE_WAIT
        the close retry         before the FIN         the persist probe   ESTABLISHED, CLOSE_WAIT

    so what a connection still has to do must be handed from one to the next whenever the state changes. -/

namespace EwokOS.Net

open Schemes

/-- There is always room for a byte in what congestion allows. -/
def Fed (p : Pcb) : Prop := 0 < p.mss ∧ 0 < p.cwnd ∧ 0 < p.ssthresh

/-- The window of the peer and the probe are as they were. -/
structure Flows (p q : Pcb) : Prop where
  wnd : q.sndWnd = p.sndWnd
  probing : q.persistProbing = p.persistProbing
  fed : Fed p → Fed q

namespace Flows

theorem refl (p : Pcb) : Flows p p := ⟨rfl, rfl, id⟩

theorem trans {p q r : Pcb} (h : Flows p q) (h' : Flows q r) : Flows p r :=
  ⟨h'.wnd.trans h.wnd, h'.probing.trans h.probing, fun hp => h'.fed (h.fed hp)⟩

theorem after {p q r : Pcb} (h : Flows q r) (hw : q.sndWnd = p.sndWnd) (hp : q.persistProbing = p.persistProbing)
    (hf : Fed p → Fed q) : Flows p r := trans ⟨hw, hp, hf⟩ h

end Flows

namespace Pcb
variable (p : Pcb) (env : Env) (seg : Segment)

theorem output_flows (flg : Flags) (data : List UInt8) : Flows p (p.output env flg data).1 := by
  unfold output
  dsimp only
  split
  · split <;> exact ⟨rfl, rfl, id⟩
  · exact ⟨rfl, rfl, id⟩

theorem outputAck_flows : Flows p (p.outputAck env) := p.output_flows env flgAck []

theorem resend_flows (f : Bool → QueueEntry → QueueEntry) : Flows p (p.resend env f) := by
  unfold resend
  split <;> exact ⟨rfl, rfl, id⟩

theorem ccAck_flows (acked : ℕ) : Flows p (p.ccAck env acked) := by
  unfold ccAck
  dsimp only
  split
  · split
    · refine (resend_flows _ env _).after rfl rfl fun h => ?_
      have hmss := h.1
      exact ⟨h.1, Nat.lt_of_lt_of_le (Nat.lt_of_lt_of_le hmss (Nat.le_max_right _ _)) (Nat.le_add_right _ _), h.2.2⟩
    · refine ⟨rfl, rfl, fun h => ⟨h.1, ?_, h.2.2⟩⟩
      have hmss := h.1
      exact Nat.lt_min.mpr ⟨h.2.2, Nat.lt_of_lt_of_le hmss (Nat.le_add_left _ _)⟩
  · have hmax : 0 < p.mss → 0 < retransmitQueueMax * p.mss := fun h => Nat.mul_pos (by decide) h
    split
    · refine ⟨rfl, rfl, fun h => ⟨h.1, ?_, h.2.2⟩⟩
      exact Nat.lt_min.mpr ⟨hmax h.1, Nat.lt_of_lt_of_le h.2.1 (Nat.le_add_right _ _)⟩
    · split
      · refine ⟨rfl, rfl, fun h => ⟨h.1, ?_, h.2.2⟩⟩
        exact Nat.lt_min.mpr ⟨hmax h.1, Nat.lt_of_lt_of_le h.2.1 (Nat.le_add_right _ _)⟩
      · exact ⟨rfl, rfl, id⟩

theorem takeAck_flows : Flows p (p.takeAck env seg) := by
  unfold takeAck
  dsimp only
  split
  · exact (ccAck_flows _ env _).after rfl rfl id
  · split
    · split
      · refine ⟨rfl, rfl, fun h => ⟨h.1, ?_, h.2.2⟩⟩
        have hmss := h.1
        exact Nat.lt_min.mpr ⟨Nat.lt_of_lt_of_le hmss (Nat.le_add_left _ _), Nat.mul_pos (by decide) hmss⟩
      · split
        · refine (resend_flows _ env _).after rfl rfl fun h => ?_
          have hss : 0 < max (({ p with sndUna := seg.ack, dupacks := min (p.dupacks + 1) 0xff } : Pcb).inflight / 2)
              (2 * p.mss) := Nat.lt_of_lt_of_le (Nat.mul_pos Nat.two_pos h.1) (Nat.le_max_right _ _)
          exact ⟨h.1, Nat.lt_of_lt_of_le hss (Nat.le_add_right _ _), hss⟩
        · exact ⟨rfl, rfl, id⟩
    · exact ⟨rfl, rfl, id⟩

theorem ackState_flows : Flows p (p.ackState env seg) := by
  unfold ackState
  split
  · split <;> exact ⟨rfl, rfl, id⟩
  · split <;> exact ⟨rfl, rfl, id⟩
  · exact .refl p

theorem delayAck_flows (merged : Bool) : Flows p (p.delayAck env merged) := by
  unfold delayAck
  dsimp only
  split
  · exact (outputAck_flows _ env).after rfl rfl id
  · split <;> exact ⟨rfl, rfl, id⟩

theorem stash_flows : Flows p (p.stash seg) := by
  unfold stash
  dsimp only
  split
  · split
    · exact ⟨rfl, rfl, id⟩
    · split <;> exact ⟨rfl, rfl, id⟩
  · exact .refl p

theorem merge_flows : Flows p p.merge.1 := by
  unfold merge
  dsimp only
  split
  · exact .refl p
  · split
    · exact ⟨rfl, rfl, id⟩
    · split <;> exact ⟨rfl, rfl, id⟩

theorem takeNext_flows (data : List UInt8) : Flows p (p.takeNext env data) := by
  unfold takeNext
  split
  · exact Flows.trans ((p.append data).merge_flows.after rfl rfl id) (delayAck_flows _ env _)
  · exact (outputAck_flows _ env).after rfl rfl id

theorem takeText_flows : Flows p (p.takeText env seg) := by
  unfold takeText
  split
  case h_4 => exact .refl p
  all_goals
    split
    · exact .refl p
    · split
      · exact Flows.trans (Flows.trans (p.stash_flows seg) (takeNext_flows _ env _)) ⟨rfl, rfl, id⟩
      · exact Flows.trans (takeNext_flows _ env _) ⟨rfl, rfl, id⟩

theorem finState_flows : Flows p (p.finState env seg) := by
  unfold finState
  split
  case h_3 => split <;> exact ⟨rfl, rfl, id⟩
  all_goals exact ⟨rfl, rfl, id⟩

theorem takeFin_flows : Flows p (p.takeFin env seg) := by
  unfold takeFin
  split
  case isFalse => exact .refl p
  case isTrue =>
    split
    case h_4 =>
      dsimp only
      split
      · exact p.outputAck_flows env
      · generalize hq : outputAck _ env = q
        have hflow : Flows p q := by
          rw [← hq]
          exact (outputAck_flows _ env).after rfl rfl id
        exact Flows.trans (hflow.trans (finState_flows q env seg)) ⟨rfl, rfl, id⟩
    all_goals exact .refl p

theorem emit_flows : Flows p (p.emit env) := by
  unfold emit
  split
  · exact .refl p
  · dsimp only
    split
    · exact ⟨rfl, rfl, id⟩
    · split
      · split
        · exact ⟨rfl, rfl, id⟩
        · refine Flows.trans ?_ (resend_flows _ env _)
          unfold chargeLoss
          split
          · refine ⟨rfl, rfl, fun h => ⟨h.1, h.1, ?_⟩⟩
            exact Nat.lt_of_lt_of_le (Nat.mul_pos Nat.two_pos h.1) (Nat.le_max_right _ _)
          · exact ⟨rfl, rfl, id⟩
      · exact .refl p

theorem probe_flows : Flows p (p.probe env) := by
  unfold probe
  split
  · exact ⟨rfl, rfl, id⟩
  · exact .refl p

theorem flushAck_flows : Flows p (p.flushAck env) := by
  unfold flushAck
  split
  · exact (outputAck_flows _ env).after rfl rfl id
  · exact .refl p

theorem take_flows (len : ℕ) : Flows p (p.take env len).1 := by
  unfold take
  dsimp only
  split
  · exact (outputAck_flows _ env).after rfl rfl id
  · exact ⟨rfl, rfl, id⟩

theorem receive_flows (size : ℕ) : Flows p (p.receive env size).1 := by
  unfold receive
  split
  case h_6 | h_7 | h_8 | h_9 =>
    split
    · exact .refl p
    · exact p.take_flows env _
  all_goals exact .refl p

theorem queueFin_flows : Flows p (p.queueFin env) := by
  unfold queueFin
  split
  · exact .refl p
  · dsimp only
    split
    · exact ⟨rfl, rfl, id⟩
    · rename_i q res _ hq
      have hflow := p.output_flows env flgFinAck []
      rw [hq] at hflow
      exact hflow.trans ⟨rfl, rfl, id⟩

end Pcb

/-! ### Acknowledgments -/

/-- A segment that acknowledges everything has been sent in between. -/
def Spoke (p q : Pcb) : Prop := ∃ l o, q.out = p.out ++ l ∧ o ∈ l ∧ o.flg.ack = true ∧ o.ack = q.rcvNxt

/-- The states in which the delayed ACK and the probe are honoured. -/
def State.Serves (s : State) : Prop := s = .established ∨ s = .closeWait

/-- The states in which a FIN may be waiting for room. -/
def State.Asks (s : State) : Prop := s = .synReceived ∨ s = .established ∨ s = .closeWait

/-- What comes next has not changed, or it has been acknowledged, or the delayed ACK is pending. -/
structure Hears (p q : Pcb) : Prop where
  out : p.out <+: q.out
  live : q.state.live = true → p.state.live = true
  close : q.closeState = none ∨
    (q.closeState = p.closeState ∧ (p.state.Asks → q.state.live = true → q.state.Asks))
  heard : (q.rcvNxt = p.rcvNxt ∧ q.delackPending = p.delackPending ∧
      (p.state.Serves → q.state.live = true → q.state.Serves)) ∨
    Spoke p q ∨ (q.delackPending = true ∧ (q.state.live = true → q.state.Serves))

theorem Spoke.append {p q r : Pcb} (h : Spoke p q) (ho : q.out <+: r.out) (hn : r.rcvNxt = q.rcvNxt) : Spoke p r := by
  obtain ⟨l, o, hl, hmem, hack, hnum⟩ := h
  obtain ⟨l', hl'⟩ := ho
  refine ⟨l ++ l', o, by rw [← hl', hl, List.append_assoc], List.mem_append_left _ hmem, hack, by rw [hn]; exact hnum⟩

theorem Spoke.prepend {p q r : Pcb} (ho : p.out <+: q.out) (h : Spoke q r) : Spoke p r := by
  obtain ⟨l, o, hl, hmem, hack, hnum⟩ := h
  obtain ⟨l', hl'⟩ := ho
  exact ⟨l' ++ l, o, by rw [hl, ← hl', List.append_assoc], List.mem_append_right _ hmem, hack, hnum⟩

namespace Hears

variable {p q r : Pcb}

theorem trans (h : Hears p q) (h' : Hears q r) : Hears p r where
  out := h.out.trans h'.out
  live := fun hl => h.live (h'.live hl)
  close := by
    rcases h'.close with hc | ⟨hc, hs⟩
    · exact Or.inl hc
    · rcases h.close with hc' | ⟨hc', hs'⟩
      · exact Or.inl (hc.trans hc')
      · exact Or.inr ⟨hc.trans hc', fun hp hl => hs (hs' hp (h'.live hl)) hl⟩
  heard := by
    rcases h'.heard with ⟨hn, hd, hs⟩ | hsp | hpend
    · rcases h.heard with ⟨hn', hd', hs'⟩ | hsp | ⟨hpend, hs'⟩
      · exact Or.inl ⟨hn.trans hn', hd.trans hd', fun hp hl => hs (hs' hp (h'.live hl)) hl⟩
      · exact Or.inr (Or.inl (hsp.append h'.out hn))
      · exact Or.inr (Or.inr ⟨hd.trans hpend, fun hl => hs (hs' (h'.live hl)) hl⟩)
    · exact Or.inr (Or.inl (hsp.prepend h.out))
    · exact Or.inr (Or.inr hpend)

/-- Nothing that matters here has changed. -/
theorem same (ho : p.out <+: q.out) (hs : q.state = p.state) (hc : q.closeState = p.closeState)
    (hn : q.rcvNxt = p.rcvNxt) (hd : q.delackPending = p.delackPending) : Hears p q := by
  refine ⟨ho, ?_, Or.inr ⟨hc, ?_⟩, Or.inl ⟨hn, hd, ?_⟩⟩ <;> rw [hs]
  · exact id
  · exact fun h _ => h
  · exact fun h _ => h

theorem of_kept (ho : p.out <+: q.out) (hk : q.kept = p.kept) : Hears p q :=
  same ho (congrArg (fun k => k.base.state) hk) (congrArg (fun k => k.base.closeState) hk)
    (congrArg (fun k => k.rcv.nxt) hk) (congrArg Kept.delackPending hk)

/-- The connection is gone. -/
theorem dead (ho : p.out <+: q.out) (hc : q.closeState = p.closeState) (hn : q.rcvNxt = p.rcvNxt)
    (hd : q.delackPending = p.delackPending) (hs : q.state.live = false) : Hears p q := by
  refine ⟨ho, ?_, Or.inr ⟨hc, ?_⟩, Or.inl ⟨hn, hd, ?_⟩⟩ <;> rw [hs]
  · exact fun h => absurd h Bool.false_ne_true
  · exact fun _ h => absurd h Bool.false_ne_true
  · exact fun _ h => absurd h Bool.false_ne_true

theorem refl (p : Pcb) : Hears p p := of_kept (List.prefix_refl _) rfl

end Hears

theorem Pcb.Idle.out_grows {p q : Pcb} (h : p.Idle q) : p.out <+: q.out := by
  obtain ⟨l, hl, -⟩ := h.out
  exact ⟨l, hl.symm⟩

/-- A bare ACK acknowledges everything. -/
theorem outputAck_spoke (p : Pcb) (env : Env) : Spoke p (p.outputAck env) :=
  ⟨[⟨p.sndNxt, p.rcvNxt, flgAck, p.wireWindow flgAck, []⟩], _, rfl, List.mem_singleton.mpr rfl, rfl, rfl⟩

/-- The bytes of a segment that come next. -/
def Pcb.takes (p : Pcb) (seg : Segment) : List UInt8 :=
  if seqAfter seg.seq p.rcvNxt then [] else (p.trim seg).take p.rcvWnd

section Hearing
variable (p : Pcb) (env : Env) (seg : Segment)

theorem takeNext_hears {p : Pcb} {data : List UInt8} (hst : data ≠ [] → p.state.Serves) :
    Hears p (p.takeNext env data) := by
  have hpre := (p.takeNext_idle env data).out_grows
  have hb := p.takeNext_base env data
  have hs : (p.takeNext env data).state = p.state := congrArg Base.state hb
  have hc : (p.takeNext env data).closeState = p.closeState := congrArg Base.closeState hb
  refine ⟨hpre, by rw [hs]; exact id, Or.inr ⟨hc, by rw [hs]; exact fun h _ => h⟩, Or.inr ?_⟩
  by_cases hne : data.length ≠ 0
  · have hmerge : p.out <+: (p.append data).merge.1.out := ((p.append data).merge_idle.after rfl rfl rfl).out_grows
    have hserves := hst (fun h => hne (by rw [h]; rfl))
    have hgo : Spoke p (p.takeNext env data) ∨ (p.takeNext env data).delackPending = true := by
      unfold Pcb.takeNext
      rw [if_pos hne]
      generalize (p.append data).merge = m at hmerge
      unfold Pcb.delayAck
      dsimp only
      split
      · exact Or.inl ((outputAck_spoke _ env).prepend hmerge)
      · split
        · rename_i hpend
          exact Or.inr hpend
        · exact Or.inr rfl
    refine hgo.imp id fun hpend => ⟨hpend, fun _ => ?_⟩
    rw [hs]
    exact hserves
  · refine Or.inl ?_
    unfold Pcb.takeNext
    rw [if_neg hne]
    exact (outputAck_spoke _ env).prepend (List.prefix_refl _)

theorem stash_hears : Hears p (p.stash seg) := by
  refine .same (p.stash_idle seg).out_grows (congrArg Base.state (p.stash_base seg))
    (congrArg Base.closeState (p.stash_base seg)) ?_ ?_
  all_goals
    unfold Pcb.stash
    dsimp only
    split
    · split
      · rfl
      · split <;> rfl
    · rfl

theorem takeText_hears (h : p.state = .finWait1 ∨ p.state = .finWait2 → p.takes seg = []) :
    Hears p (p.takeText env seg) := by
  have hwake : ∀ q : Pcb, Hears q (q.wake .readers) := fun q => .of_kept (List.prefix_refl _) rfl
  have hgo : p.state = .established ∨ p.state = .finWait1 ∨ p.state = .finWait2 →
      Hears p (if seg.data.length = 0 then p
        else if seqAfter seg.seq p.rcvNxt then ((p.stash seg).takeNext env []).wake .readers
        else (p.takeNext env ((p.trim seg).take p.rcvWnd)).wake .readers) := by
    intro hst
    split
    · exact .refl p
    · split
      · exact ((stash_hears p seg).trans (takeNext_hears env fun h => absurd rfl h)).trans (hwake _)
      · rename_i hafter
        refine (takeNext_hears env fun hne => ?_).trans (hwake _)
        rcases hst with hst | hst
        · exact Or.inl hst
        · have htakes := h hst
          rw [Pcb.takes, if_neg hafter] at htakes
          exact absurd htakes hne
  unfold Pcb.takeText
  split
  case h_4 => exact .refl p
  case h_1 hst => exact hgo (Or.inl hst)
  case h_2 hst => exact hgo (Or.inr (Or.inl hst))
  case h_3 hst => exact hgo (Or.inr (Or.inr hst))

theorem finStep_live {s t : State} (h : Pcb.FinStep s t) (hl : t.live = true) : s.live = true := by
  cases h with
  | same => exact hl
  | half h => rcases h with rfl | rfl <;> rfl
  | closing => rfl
  | both h => rcases h with rfl | rfl <;> rfl

theorem finStep_asks {s t : State} (h : Pcb.FinStep s t) (hs : s.Asks) : t.Asks := by
  cases h with
  | same => exact hs
  | half => exact Or.inr (Or.inr rfl)
  | closing => rcases hs with h | h | h <;> cases h
  | both h => rcases h with rfl | rfl <;> rcases hs with h | h | h <;> cases h

theorem takeFin_hears : Hears p (p.takeFin env seg) := by
  unfold Pcb.takeFin
  split
  case isFalse => exact .refl p
  case isTrue =>
    split
    case h_4 =>
      dsimp only
      split
      · exact .of_kept (p.outputAck_idle env).out_grows (p.outputAck_kept env)
      · generalize hq : Pcb.outputAck _ env = q
        have hspoke : Spoke p q := by
          rw [← hq]
          exact (outputAck_spoke _ env).prepend (List.prefix_refl _)
        have hbase : q.base = p.base := by
          rw [← hq, Pcb.outputAck_base]
          rfl
        have hs : q.state = p.state := congrArg Base.state hbase
        obtain ⟨hk, hstep⟩ := q.finState_kept env seg
        have hout : q.out <+: (q.finState env seg).out := (q.finState_idle env seg).out_grows
        have hc : (q.finState env seg).closeState = p.closeState :=
          (congrArg (fun k => k.base.closeState) hk).trans (congrArg Base.closeState hbase)
        have hsp : Spoke p (q.finState env seg) := hspoke.append hout (congrArg (fun k => k.rcv.nxt) hk)
        have hgrows : p.out <+: (q.finState env seg).out := by
          obtain ⟨l, o, hl, -⟩ := hsp
          exact ⟨l, hl.symm⟩
        rw [hs] at hstep
        exact ⟨hgrows, finStep_live hstep, Or.inr ⟨hc, fun h _ => finStep_asks hstep h⟩, Or.inr (Or.inl hsp)⟩
    all_goals exact .refl p

theorem ackWindow_hears : Hears p (p.ackWindow env seg) := by
  refine .of_kept ?_ (p.ackWindow_kept env seg)
  by_cases hb : seqBetween seg.ack p.sndUna p.sndNxt = true
  · have hpre := (ackWindow_idle env hb).out_grows
    rwa [(acked_same p seg.ack).1] at hpre
  · rw [Pcb.ackWindow, if_neg hb]

theorem ackState_hears : Hears p (p.ackState env seg) := by
  obtain ⟨hk, hstep⟩ := p.ackState_kept env seg
  have hc : (p.ackState env seg).closeState = p.closeState := congrArg (fun k => k.base.closeState) hk
  have hn : (p.ackState env seg).rcvNxt = p.rcvNxt := congrArg (fun k => k.rcv.nxt) hk
  have hd : (p.ackState env seg).delackPending = p.delackPending := congrArg Kept.delackPending hk
  have hst : ((p.ackState env seg).state.live = true → p.state.live = true) ∧
      (p.state.Asks → (p.ackState env seg).state.Asks) ∧ (p.state.Serves → (p.ackState env seg).state.Serves) := by
    generalize (p.ackState env seg).state = t at hstep
    generalize p.state = s at hstep
    cases hstep with
    | same => exact ⟨id, id, id⟩
    | finished | closed =>
      refine ⟨fun _ => rfl, ?_, ?_⟩
      · rintro (h | h | h) <;> cases h
      · rintro (h | h) <;> cases h
  exact ⟨(p.ackState_idle env seg).out_grows, hst.1, Or.inr ⟨hc, fun h _ => hst.2.1 h⟩,
    Or.inl ⟨hn, hd, fun h _ => hst.2.2 h⟩⟩

theorem abort_hears (reason : ℕ) : Hears p (p.abort reason) := .dead (List.prefix_refl _) rfl rfl rfl rfl

variable {p env seg} {q : Pcb}

theorem output_grows (p : Pcb) (env : Env) (flg : Flags) (data : List UInt8) : p.out <+: (p.output env flg data).1.out := by
  unfold Pcb.output
  dsimp only
  split
  · split
    · exact List.prefix_append _ _
    · exact List.prefix_refl _
  · exact List.prefix_append _ _

theorem stops_hears (h : Pcb.Stops p env seg q) : Hears p q := by
  have hout : ∀ flg, p.out <+: (p.output env flg []).1.out := fun flg => output_grows p env flg []
  cases h with
  | again => exact .of_kept (hout _) (p.output_kept env flgSynAck [])
  | drop => exact .refl p
  | answer => exact .of_kept (hout _) (p.outputAck_kept env)
  | reset => exact abort_hears p 1
  | syn => exact (Hears.of_kept (hout _) (p.output_kept env flgRst [])).trans (abort_hears _ 1)
  | refuse => exact .of_kept (List.prefix_append _ _) rfl
  | finish => exact abort_hears p 0

theorem passes_hears (h : Pcb.Passes p env seg q) : Hears p q := by
  cases h with
  | handshake hst =>
    have he : Hears p (p.establish env seg) := by
      refine ⟨List.prefix_refl _, ?_, Or.inr ⟨rfl, fun _ _ => Or.inr (Or.inl rfl)⟩, Or.inl ⟨rfl, rfl, ?_⟩⟩
      · rw [hst]
        exact fun _ => rfl
      · exact fun _ _ => Or.inl rfl
    exact (he.trans (ackWindow_hears _ env seg)).trans (ackState_hears _ env seg)
  | transfer => exact (ackWindow_hears p env seg).trans (ackState_hears _ env seg)
  | timeWait =>
    split
    · exact .of_kept (List.prefix_refl _) rfl
    · exact .refl p
  | shut => exact .refl p

/-- What gets to the text is not in FIN_WAIT unless it was before. -/
theorem passes_takes (h : Pcb.Passes p env seg q) (hcond : p.state = .finWait1 ∨ p.state = .finWait2 → p.takes seg = []) :
    q.state = .finWait1 ∨ q.state = .finWait2 → q.takes seg = [] := by
  have hack : ∀ {p : Pcb}, (p.state = .finWait1 ∨ p.state = .finWait2 → p.takes seg = []) →
      let q := (p.ackWindow env seg).ackState env seg
      q.state = .finWait1 ∨ q.state = .finWait2 → q.takes seg = [] := by
    intro p hcond q hq
    obtain ⟨hk, hstep⟩ := (p.ackWindow env seg).ackState_kept env seg
    have hw := p.ackWindow_kept env seg
    have hws : (p.ackWindow env seg).state = p.state := congrArg (fun k => k.base.state) hw
    have hrcv : q.rcv = p.rcv := (congrArg Kept.rcv hk).trans (congrArg Kept.rcv hw)
    have hp : p.state = .finWait1 ∨ p.state = .finWait2 := by
      rw [hws] at hstep
      change Pcb.AckStep p.state q.state at hstep
      generalize q.state = t at hstep hq
      generalize p.state = s at hstep
      cases hstep with
      | same => exact hq
      | finished => exact Or.inl rfl
      | closed => rcases hq with hq | hq <;> cases hq
    have htakes := hcond hp
    unfold Pcb.takes Pcb.trim at htakes ⊢
    have hn : q.rcvNxt = p.rcvNxt := congrArg RcvSide.nxt hrcv
    have hwnd : q.rcvWnd = p.rcvWnd := congrArg RcvSide.wnd hrcv
    rw [hn, hwnd]
    exact htakes
  cases h with
  | handshake hst => exact hack fun h => by rcases h with h | h <;> cases h
  | transfer => exact hack hcond
  | timeWait =>
    split
    · exact hcond
    · exact hcond
  | shut => exact hcond

theorem arrivesOpened_hears (hcond : p.state = .finWait1 ∨ p.state = .finWait2 → p.takes seg = []) :
    Hears p (p.arrivesOpened env seg) := by
  have hp : Hears p { p with idleStamp := env.now } := .of_kept (List.prefix_refl _) rfl
  rcases p.arrivesOpened_cases env seg with hstop | ⟨q, hpass, heq⟩
  · exact hp.trans (stops_hears hstop)
  · rw [heq]
    exact ((hp.trans (passes_hears hpass)).trans (takeText_hears q env seg (passes_takes hpass hcond))).trans
      (takeFin_hears _ env seg)

/-! ### The user and the timer -/

theorem queueFin_hears (hl : p.state.live = true) : Hears p (p.queueFin env) := by
  unfold Pcb.queueFin
  split
  · exact .refl p
  · rename_i s hc
    dsimp only
    have hk := p.output_kept env flgFinAck []
    rcases p.output_cases env flgFinAck [] rfl with hno | ⟨hres, hq⟩
    · rw [hno]
      exact .of_kept (List.prefix_refl _) rfl
    obtain ⟨o, hout, hpart, hack⟩ := hq.out
    have hflg : o.flg.ack = true := congrArg (fun x => x.flg.ack) hpart
    generalize p.output env flgFinAck [] = r at hk hres hout
    obtain ⟨q, res⟩ := r
    have hn : q.rcvNxt = p.rcvNxt := congrArg (fun k => k.rcv.nxt) hk
    have hgoal : ∀ t, Hears p { q with sndNxt := q.sndNxt + 1, state := t, closeState := none, closeTimer := 0 } := by
      intro t
      refine ⟨⟨_, hout.symm⟩, fun _ => hl, Or.inl rfl, Or.inr (Or.inl ⟨_, o, hout, List.mem_singleton.mpr rfl, hflg, ?_⟩)⟩
      exact hack.trans hn.symm
    cases res with
    | noQueue => exact absurd rfl hres
    | wired => exact hgoal _
    | deferred => exact hgoal _

/-- What `tcp_close` comes to. -/
theorem close_cases (p : Pcb) (env : Env) :
    p.close env = p ∨ (p.close env).state = .free ∨
      (p.state.Asks ∧ ∃ s, p.close env = { p with closeState := some s }.queueFin env) := by
  unfold Pcb.close
  split
  · exact Or.inr (Or.inl rfl)
  · exact Or.inr (Or.inl rfl)
  · exact Or.inr (Or.inl rfl)
  · rename_i hst
    exact Or.inr (Or.inr ⟨Or.inl hst, _, rfl⟩)
  · rename_i hst
    exact Or.inr (Or.inr ⟨Or.inr (Or.inl hst), _, rfl⟩)
  · rename_i hst
    exact Or.inr (Or.inr ⟨Or.inr (Or.inr hst), _, rfl⟩)
  all_goals exact Or.inl rfl

theorem State.Asks.live {s : State} (h : s.Asks) : s.live = true := by
  rcases h with rfl | rfl | rfl <;> rfl

theorem emit_hears : Hears p (p.emit env) := by
  have hpre := (p.emit_idle env).out_grows
  rcases p.emit_kept env with hk | hk
  · exact .of_kept hpre hk
  · have hst : (p.emit env).state = .closed := congrArg (fun k => k.base.state) hk
    exact .dead hpre (congrArg (fun k => k.base.closeState) hk) (congrArg (fun k => k.rcv.nxt) hk)
      (congrArg Kept.delackPending hk) (by rw [hst]; rfl)

theorem flushAck_hears : Hears p (p.flushAck env) := by
  unfold Pcb.flushAck
  split
  · have hb := Pcb.outputAck_base { p with delackPending := false, delackCount := 0 } env
    have hsp := outputAck_spoke { p with delackPending := false, delackCount := 0 } env
    generalize Pcb.outputAck { p with delackPending := false, delackCount := 0 } env = q at hb hsp
    have hs : q.state = p.state := congrArg Base.state hb
    have hc : q.closeState = p.closeState := congrArg Base.closeState hb
    obtain ⟨l, o, hl, hrest⟩ := hsp
    refine ⟨⟨l, hl.symm⟩, by rw [hs]; exact id, Or.inr ⟨hc, by rw [hs]; exact fun h _ => h⟩,
      Or.inr (Or.inl ⟨l, o, hl, hrest⟩)⟩
  · exact .refl p

theorem timer_hears : Hears p (p.timer env) := by
  unfold Pcb.timer
  split
  · exact .refl p
  split
  · exact abort_hears p p.closeReason
  obtain ⟨r, hr, hq | ⟨q, hq, hreap⟩⟩ := p.reap_cases env
  all_goals
    have hpr : Hears p r := by
      rcases hr with rfl | rfl
      · exact .refl _
      · exact .of_kept (List.prefix_refl _) rfl
    rw [hq]
  · have hfin : Hears r (r.retryFin env) := by
      unfold Pcb.retryFin
      split
      · rename_i hcond
        exact queueFin_hears (State.Asks.live hcond.2.1)
      · exact .refl r
    have hemit : Hears (r.retryFin env) ((r.retryFin env).emit env) := emit_hears
    have hprobe : Hears ((r.retryFin env).emit env) (((r.retryFin env).emit env).probe env) :=
      .of_kept (Pcb.probe_idle _ env).out_grows (Pcb.probe_kept _ env)
    exact (((hpr.trans hfin).trans hemit).trans hprobe).trans flushAck_hears
  · cases hreap with
    | orphan => exact hpr.trans (abort_hears r r.closeReason)
    | silent =>
      refine hpr.trans (Hears.trans (Hears.of_kept ?_ ?_) (abort_hears _ 2))
      · exact (r.outputSegment_idle rfl).out_grows
      · rfl

theorem take_pending (len : ℕ) : (p.take env len).1.delackPending = p.delackPending := by
  unfold Pcb.take
  dsimp only
  split
  · exact congrArg Kept.delackPending (Pcb.outputAck_kept _ env)
  · rfl

theorem take_hears (len : ℕ) : Hears p (p.take env len).1 := by
  obtain ⟨hb, tail, -, hr⟩ := take_rcv p env len
  exact .same (p.take_idle env len).out_grows (congrArg Base.state hb) (congrArg Base.closeState hb)
    (congrArg RcvSide.nxt hr) (take_pending len)

theorem receive_same (size : ℕ) :
    (p.receive env size).1.delackPending = p.delackPending ∧ (p.receive env size).1.state = p.state := by
  unfold Pcb.receive
  split
  case h_6 | h_7 | h_8 | h_9 =>
    split
    · exact ⟨rfl, rfl⟩
    · exact ⟨take_pending _, congrArg Base.state (take_rcv p env _).1⟩
  all_goals exact ⟨rfl, rfl⟩

theorem receive_hears (size : ℕ) : Hears p (p.receive env size).1 := by
  unfold Pcb.receive
  split
  case h_6 | h_7 | h_8 | h_9 =>
    split
    · exact .refl p
    · exact take_hears _
  all_goals exact .refl p

theorem sendLoop_grows {data : List UInt8} {k sent : ℕ} : p.out <+: (Pcb.sendLoop env data k p sent).1.out := by
  induction k generalizing p sent with
  | zero => exact List.prefix_refl _
  | succ k ih =>
    rw [Pcb.sendLoop]
    split
    case isFalse => exact List.prefix_refl _
    case isTrue =>
      dsimp only
      split
      · split
        · exact (p.persistArm_idle env).out_grows
        · exact List.prefix_refl _
      · split
        all_goals
          rename_i q hq
          have hpre : p.out <+: q.out := by
            have hout : _ = q.out := congrArg (fun x => x.1.out) hq
            rw [← hout]
            exact output_grows p.persistDisarm env _ _
        · exact hpre
        · exact hpre
        · exact hpre.trans (ih (p := q.advance _))

theorem send_hears (data : List UInt8) : Hears p (p.send env data).1 := by
  have hk := p.send_kept env data
  refine .same ?_ (congrArg (fun k => k.base.state) hk) (congrArg (fun k => k.base.closeState) hk)
    (congrArg (fun k => k.rcv.nxt) hk) (congrArg Kept.delackPending hk)
  unfold Pcb.send
  split
  case h_6 | h_7 =>
    split
    · exact List.prefix_refl _
    · dsimp only
      split
      · exact sendLoop_grows
      · dsimp only
        split
        · exact sendLoop_grows
        · exact sendLoop_grows
  all_goals exact List.prefix_refl _

end Hearing

end EwokOS.Net
