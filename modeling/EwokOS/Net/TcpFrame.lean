import Mathlib.Tactic.SplitIfs
import EwokOS.Net.TcpInput

/-! What the functions of a connection leave as it is (`tcp.c`).

    Sending, and what an acknowledgment does, are all about the queue, the windows and the timers; `kept` is
    the rest. The stages before the text either let the segment through with nothing of that changed but the
    state, or end it. -/

namespace EwokOS.Net

open Schemes

/-- What the receive side is made of. -/
structure RcvSide where
  nxt : Seq
  wnd : ℕ
  buf : ℕ → UInt8
  oooSeq : Seq
  oooLen : ℕ
  copies : List (ℕ × ℕ)

/-- What neither sending nor text touches. -/
structure Base where
  state : State
  closeReason : ℕ
  here : Endpoint
  foreign : Endpoint
  sndNxt : Seq
  iss : Seq
  irs : Seq
  closeState : Option State
  parent : Option ℕ
  backlog : List ℕ

/-- What sending does not touch. -/
structure Kept where
  base : Base
  rcv : RcvSide
  delackPending : Bool
  delackCount : ℕ
  delackTimer : ℕ

def Kept.withNxt (k : Kept) (n : Seq) : Kept := { k with base := { k.base with sndNxt := n } }

namespace Pcb
variable (p q : Pcb) (env : Env) (seg : Segment)

def rcv : RcvSide := ⟨p.rcvNxt, p.rcvWnd, p.buf, p.oooSeq, p.oooLen, p.copies⟩

def base : Base :=
  ⟨p.state, p.closeReason, p.here, p.foreign, p.sndNxt, p.iss, p.irs, p.closeState, p.parent, p.backlog⟩

def kept : Kept := ⟨p.base, p.rcv, p.delackPending, p.delackCount, p.delackTimer⟩

theorem output_kept (flg : Flags) (data : List UInt8) : (p.output env flg data).1.kept = p.kept := by
  unfold output
  dsimp only
  split_ifs <;> rfl

theorem outputAck_kept : (p.outputAck env).kept = p.kept := p.output_kept env flgAck []

theorem resend_kept (f : Bool → QueueEntry → QueueEntry) : (p.resend env f).kept = p.kept := by
  unfold resend
  split <;> rfl

theorem ccAck_kept (acked : ℕ) : (p.ccAck env acked).kept = p.kept := by
  unfold ccAck retransmitHead
  dsimp only
  split
  · split
    · exact resend_kept _ env _
    · rfl
  · split
    · rfl
    · split <;> rfl

theorem takeAck_kept : (p.takeAck env seg).kept = p.kept := by
  unfold takeAck retransmitHead
  dsimp only
  split
  · exact ccAck_kept _ env _
  · split
    · split
      · rfl
      · split
        · exact resend_kept _ env _
        · rfl
    · rfl

theorem takeWindow_kept : (p.takeWindow seg).kept = p.kept := by
  unfold takeWindow
  split_ifs <;> rfl

theorem wake_kept (w : Wake) : (p.wake w).kept = p.kept := rfl

theorem persistDisarm_kept : p.persistDisarm.kept = p.kept := rfl

theorem ackWindow_kept : (p.ackWindow env seg).kept = p.kept := by
  have h : ((p.takeAck env seg).takeWindow seg).kept = p.kept :=
    (takeWindow_kept _ seg).trans (takeAck_kept p env seg)
  unfold ackWindow
  dsimp only
  split
  · split
    · split
      · exact (persistDisarm_kept _).trans h
      · exact ((wake_kept _ _).trans (persistDisarm_kept _)).trans h
    · exact h
  · rfl

/-- What an acknowledgment can do to the state. -/
inductive AckStep : State → State → Prop where
  | same {s : State} : AckStep s s
  | finished : AckStep .finWait1 .finWait2
  | closed : AckStep .closing .timeWait

theorem ackState_kept :
    (p.ackState env seg).kept = { p.kept with base := { p.base with state := (p.ackState env seg).state } } ∧
      AckStep p.state (p.ackState env seg).state := by
  unfold ackState
  split
  case h_1 h =>
    split
    · rw [h]
      exact ⟨rfl, .finished⟩
    · exact ⟨rfl, .same⟩
  case h_2 h =>
    split
    · rw [h]
      exact ⟨rfl, .closed⟩
    · exact ⟨rfl, .same⟩
  case h_3 => exact ⟨rfl, .same⟩

theorem ackTransfer_error (h : p.ackTransfer env seg = .error q) : q = p.outputAck env := by
  unfold ackTransfer at h
  split at h
  · exact (Except.error.inj h).symm
  · cases h

theorem ackTransfer_ok (h : p.ackTransfer env seg = .ok q) : q = (p.ackWindow env seg).ackState env seg := by
  unfold ackTransfer at h
  split at h
  · cases h
  · exact (Except.ok.inj h).symm

/-! ### What happens to a segment -/

/-- How the stages before the text can end it. -/
inductive Stops : Pcb → Prop where
  | again : p.state = .synReceived → Stops (p.output env flgSynAck []).1
  | drop : Stops p
  | answer : p.opened = true → Stops (p.outputAck env)
  | reset : p.opened = true → Stops (p.abort 1)
  | syn : p.opened = true → Stops ((p.output env flgRst []).1.abort 1)
  | refuse : p.state = .synReceived → Stops (p.outputSegment seg.ack 0 flgRst 0 [])
  | finish : p.state = .lastAck → seg.ack = p.sndNxt → Stops (p.abort 0)

/-- The states in which an acknowledgment moves the queue. -/
def transfers : Bool :=
  match p.state with
  | .established | .finWait1 | .finWait2 | .closeWait | .closing => true
  | _ => false

/-- What the text and the FIN are left to. -/
inductive Passes : Pcb → Prop where
  | handshake : p.state = .synReceived → seqBetween seg.ack p.sndUna p.sndNxt = true →
      Passes (((p.establish env seg).ackWindow env seg).ackState env seg)
  | transfer : p.transfers = true → Passes ((p.ackWindow env seg).ackState env seg)
  | timeWait : p.state = .timeWait → Passes (if seg.flg.fin then p.setTimewaitTimer env else p)
  | shut : p.opened = false → Passes p

theorem checkAck_cases :
    (∃ q, p.checkAck env seg = .error q ∧ Stops p env seg q) ∨
      ∃ q, p.checkAck env seg = .ok q ∧ seg.flg.ack = true ∧ Passes p env seg q := by
  unfold checkAck
  by_cases hack : seg.flg.ack = true
  case neg =>
    rw [Bool.not_eq_true] at hack
    rw [hack]
    exact Or.inl ⟨p, rfl, .drop⟩
  rw [hack, Bool.not_true, if_neg Bool.false_ne_true]
  have htransfer : p.opened = true → p.transfers = true →
      (∃ q, p.ackTransfer env seg = .error q ∧ Stops p env seg q) ∨
        ∃ q, p.ackTransfer env seg = .ok q ∧ True ∧ Passes p env seg q := by
    intro ho ht
    cases hr : p.ackTransfer env seg with
    | error q =>
      rw [p.ackTransfer_error q env seg hr]
      exact Or.inl ⟨_, rfl, .answer ho⟩
    | ok q =>
      rw [p.ackTransfer_ok q env seg hr]
      exact Or.inr ⟨_, rfl, trivial, .transfer ht⟩
  cases hs : p.state with
  | synReceived =>
    dsimp only
    by_cases hb : seqBetween seg.ack p.sndUna p.sndNxt = true
    · rw [if_pos hb]
      have hb' : seqBetween seg.ack (p.establish env seg).sndUna (p.establish env seg).sndNxt = true := hb
      have hok : (p.establish env seg).ackTransfer env seg
          = .ok (((p.establish env seg).ackWindow env seg).ackState env seg) := by
        rw [ackTransfer, hb']
        rfl
      rw [hok]
      exact Or.inr ⟨_, rfl, rfl, .handshake hs hb⟩
    · rw [if_neg hb]
      exact Or.inl ⟨_, rfl, .refuse hs⟩
  | established => simpa using htransfer (by rw [opened, hs]) (by rw [transfers, hs])
  | finWait1 => simpa using htransfer (by rw [opened, hs]) (by rw [transfers, hs])
  | finWait2 => simpa using htransfer (by rw [opened, hs]) (by rw [transfers, hs])
  | closeWait => simpa using htransfer (by rw [opened, hs]) (by rw [transfers, hs])
  | closing => simpa using htransfer (by rw [opened, hs]) (by rw [transfers, hs])
  | lastAck =>
    dsimp only
    split
    case isTrue h => exact Or.inl ⟨_, rfl, .finish hs h⟩
    case isFalse => exact Or.inl ⟨_, rfl, .drop⟩
  | timeWait => exact Or.inr ⟨_, rfl, rfl, .timeWait hs⟩
  | free => exact Or.inr ⟨_, rfl, rfl, .shut (by rw [opened, hs])⟩
  | closed => exact Or.inr ⟨_, rfl, rfl, .shut (by rw [opened, hs])⟩
  | listen => exact Or.inr ⟨_, rfl, rfl, .shut (by rw [opened, hs])⟩
  | synSent => exact Or.inr ⟨_, rfl, rfl, .shut (by rw [opened, hs])⟩

theorem checkSeq_cases : (∃ q, p.checkSeq env seg = .error q ∧ Stops p env seg q) ∨ p.checkSeq env seg = .ok p := by
  unfold checkSeq
  by_cases ho : p.opened = true
  case neg =>
    rw [if_neg ho]
    exact Or.inr rfl
  rw [if_pos ho]
  split_ifs with hagain hacc hrst
  · exact Or.inl ⟨_, rfl, .again hagain.1⟩
  · exact Or.inr rfl
  · exact Or.inl ⟨_, rfl, .drop⟩
  · exact Or.inl ⟨_, rfl, .answer ho⟩

theorem checkRst_cases : (∃ q, p.checkRst seg = .error q ∧ Stops p env seg q) ∨ p.checkRst seg = .ok p := by
  unfold checkRst
  split
  case isTrue h => exact Or.inl ⟨_, rfl, .reset (Bool.and_eq_true_iff.mp h).1⟩
  case isFalse => exact Or.inr rfl

theorem checkSyn_cases : (∃ q, p.checkSyn env seg = .error q ∧ Stops p env seg q) ∨ p.checkSyn env seg = .ok p := by
  unfold checkSyn
  split
  case isTrue h => exact Or.inl ⟨_, rfl, .syn (Bool.and_eq_true_iff.mp h).1⟩
  case isFalse => exact Or.inr rfl

/-- A segment is ended before its text, or its text and its FIN are taken. -/
theorem arrivesOpened_cases :
    Stops { p with idleStamp := env.now } env seg (p.arrivesOpened env seg) ∨
      ∃ q, Passes { p with idleStamp := env.now } env seg q ∧
        p.arrivesOpened env seg = (q.takeText env seg).takeFin env seg := by
  unfold arrivesOpened
  generalize { p with idleStamp := env.now } = p
  simp only [bind, Except.bind]
  rcases p.checkSeq_cases env seg with ⟨q, hq, hst⟩ | hq
  · rw [hq]
    exact Or.inl hst
  rw [hq]
  dsimp only
  rcases p.checkRst_cases env seg with ⟨q, hq, hst⟩ | hq
  · rw [hq]
    exact Or.inl hst
  rw [hq]
  dsimp only
  rcases p.checkSyn_cases env seg with ⟨q, hq, hst⟩ | hq
  · rw [hq]
    exact Or.inl hst
  rw [hq]
  dsimp only
  rcases p.checkAck_cases env seg with ⟨q, hq, hst⟩ | ⟨q, hq, -, hpass⟩
  · rw [hq]
    exact Or.inl hst
  · rw [hq]
    exact Or.inr ⟨q, hpass, rfl⟩

/-! ### Text and FIN -/

theorem outputAck_base : (p.outputAck env).base = p.base := congrArg Kept.base (p.outputAck_kept env)

theorem outputAck_rcv : (p.outputAck env).rcv = p.rcv := congrArg Kept.rcv (p.outputAck_kept env)

theorem delayAck_base (merged : Bool) : (p.delayAck env merged).base = p.base ∧ (p.delayAck env merged).rcv = p.rcv := by
  unfold delayAck
  dsimp only
  split
  · exact ⟨outputAck_base _ env, outputAck_rcv _ env⟩
  · split <;> exact ⟨rfl, rfl⟩

theorem stash_base : (p.stash seg).base = p.base := by
  unfold stash
  dsimp only
  split
  · split
    · rfl
    · split <;> rfl
  · rfl

theorem merge_base : p.merge.1.base = p.base := by
  unfold merge
  dsimp only
  split
  · rfl
  · split
    · rfl
    · split <;> rfl

theorem takeNext_base (data : List UInt8) : (p.takeNext env data).base = p.base := by
  unfold takeNext
  split
  · rw [(delayAck_base _ env _).1, merge_base]
    rfl
  · exact outputAck_base _ env

theorem takeText_base : (p.takeText env seg).base = p.base := by
  unfold takeText
  split
  case h_4 => rfl
  all_goals
    split
    · rfl
    · split
      · exact (takeNext_base _ env _).trans (p.stash_base seg)
      · exact takeNext_base _ env _

/-- What a FIN can do to the state. -/
inductive FinStep : State → State → Prop where
  | same {s : State} : s ≠ .synReceived → s ≠ .established → s ≠ .finWait1 → s ≠ .finWait2 → FinStep s s
  | half {s : State} : s = .synReceived ∨ s = .established → FinStep s .closeWait
  | closing : FinStep .finWait1 .closing
  | both {s : State} : s = .finWait1 ∨ s = .finWait2 → FinStep s .timeWait

theorem finState_kept :
    (p.finState env seg).kept = { p.kept with base := { p.base with state := (p.finState env seg).state } } ∧
      FinStep p.state (p.finState env seg).state := by
  unfold finState
  cases h : p.state with
  | synReceived => exact ⟨rfl, .half (Or.inl rfl)⟩
  | established => exact ⟨rfl, .half (Or.inr rfl)⟩
  | finWait1 =>
    dsimp only
    split
    · exact ⟨rfl, .both (Or.inl rfl)⟩
    · exact ⟨rfl, .closing⟩
  | finWait2 => exact ⟨rfl, .both (Or.inr rfl)⟩
  | timeWait =>
    dsimp only [setTimewaitTimer]
    rw [h]
    exact ⟨by rw [← h]; rfl, .same (by decide) (by decide) (by decide) (by decide)⟩
  | free | closed | listen | synSent | closing | closeWait | lastAck =>
    dsimp only
    rw [h]
    exact ⟨by rw [← h]; rfl, .same (by decide) (by decide) (by decide) (by decide)⟩

/-- A FIN is passed over, or it is the next number. -/
theorem takeFin_cases :
    (p.takeFin env seg).kept = p.kept ∨
    (seg.flg.fin = true ∧ seg.seq + BitVec.ofNat 32 seg.data.length = p.rcvNxt ∧
      ∃ st, FinStep p.state st ∧ (p.takeFin env seg).base = { p.base with state := st } ∧
        (p.takeFin env seg).rcv = { p.rcv with nxt := p.rcvNxt + 1, oooLen := 0 } ∧
        (p.takeFin env seg).delackPending = false) := by
  unfold takeFin
  split
  case isFalse => exact Or.inl rfl
  case isTrue hfin =>
    split
    case h_1 => exact Or.inl rfl
    case h_2 => exact Or.inl rfl
    case h_3 => exact Or.inl rfl
    case h_4 =>
      dsimp only
      split
      case isTrue => exact Or.inl (p.outputAck_kept env)
      case isFalse hseq =>
        rw [not_not] at hseq
        refine Or.inr ⟨hfin, hseq, ?_⟩
        rw [hseq]
        generalize hq : Pcb.outputAck _ env = q
        have hk : q.kept = ⟨p.base, { p.rcv with nxt := p.rcvNxt + 1, oooLen := 0 }, false, 0, p.delackTimer⟩ := by
          rw [← hq, outputAck_kept]
          rfl
        obtain ⟨hf, hstep⟩ := q.finState_kept env seg
        have hst : q.state = p.state := congrArg (fun k => k.base.state) hk
        refine ⟨_, by rw [← hst]; exact hstep, ?_, ?_, ?_⟩
        · have hb : q.base = p.base := congrArg Kept.base hk
          have hfb : (q.finState env seg).base = { q.base with state := (q.finState env seg).state } :=
            congrArg Kept.base hf
          rw [hb] at hfb
          exact hfb
        · change (q.finState env seg).rcv = _
          exact (congrArg Kept.rcv hf).trans (congrArg Kept.rcv hk)
        · change (q.finState env seg).delackPending = _
          exact (congrArg Kept.delackPending hf).trans (congrArg Kept.delackPending hk)

/-! ### The timer and the user -/

theorem emit_kept : (p.emit env).kept = p.kept ∨
    (p.emit env).kept = { p.kept with base := { p.base with state := .closed, closeReason := 2 } } := by
  unfold emit
  split
  · exact Or.inl rfl
  · dsimp only
    split
    · exact Or.inr rfl
    · split
      · split
        · exact Or.inr rfl
        · refine Or.inl ((resend_kept _ env _).trans ?_)
          unfold chargeLoss
          split <;> rfl
      · exact Or.inl rfl

theorem probe_kept : (p.probe env).kept = p.kept := by
  unfold probe
  split <;> rfl

theorem flushAck_base : (p.flushAck env).base = p.base ∧ (p.flushAck env).rcv = p.rcv := by
  unfold flushAck
  split
  · exact ⟨outputAck_base _ env, outputAck_rcv _ env⟩
  · exact ⟨rfl, rfl⟩

/-- Nothing is retried while the user has not closed. -/
theorem retryFin_eq (h : p.closeState = none) : p.retryFin env = p := by
  unfold retryFin
  rw [if_neg]
  rw [h]
  exact fun hc => Bool.false_ne_true hc.1

/-- How the reapers can end a connection. -/
inductive Reaped (r : Pcb) : Pcb → Prop where
  | orphan : Reaped r r.release
  | silent : Reaped r ((r.outputSegment r.sndUna r.rcvNxt flgRst 0 []).abort 2)

theorem reap_cases : ∃ r, (r = p ∨ r = p.setTimewaitTimer env) ∧
    ((do let p ← p.reapOrphan env; p.reapIdle env : Except Pcb Pcb) = .ok r ∨
      ∃ q, (do let p ← p.reapOrphan env; p.reapIdle env : Except Pcb Pcb) = .error q ∧ Reaped r q) := by
  have hidle : ∀ r : Pcb, r.reapIdle env = .ok r ∨ ∃ q, r.reapIdle env = .error q ∧ Reaped r q := by
    intro r
    unfold reapIdle
    split
    · exact Or.inr ⟨_, rfl, .silent⟩
    · exact Or.inl rfl
  simp only [bind, Except.bind]
  unfold reapOrphan
  split_ifs
  · exact ⟨p, Or.inl rfl, hidle p⟩
  · exact ⟨p, Or.inl rfl, Or.inr ⟨_, rfl, .orphan⟩⟩
  · exact ⟨_, Or.inr rfl, hidle _⟩
  · exact ⟨p, Or.inl rfl, Or.inr ⟨_, rfl, .orphan⟩⟩
  · exact ⟨p, Or.inl rfl, hidle p⟩
  · exact ⟨p, Or.inl rfl, hidle p⟩

/-- What a tick can do to a connection that the user has not closed. -/
theorem timer_cases (h : p.closeState = none) :
    (p.timer env).rcv = p.rcv ∧ (p.timer env).closeState = none ∧
      ((p.timer env).state = p.state ∨ (p.timer env).state = .closed ∨ (p.timer env).state = .free) := by
  unfold timer
  split
  · exact ⟨rfl, h, Or.inl rfl⟩
  split
  · exact ⟨rfl, h, Or.inr (Or.inr rfl)⟩
  obtain ⟨q, hqp, hq | ⟨r, hq, hreap⟩⟩ := p.reap_cases env
  case inr =>
    rw [hq]
    have hqr : q.rcv = p.rcv ∧ q.closeState = none := by
      rcases hqp with rfl | rfl <;> exact ⟨rfl, h⟩
    cases hreap with
    | orphan => exact ⟨hqr.1, hqr.2, Or.inr (Or.inr rfl)⟩
    | silent => exact ⟨hqr.1, hqr.2, Or.inr (Or.inr rfl)⟩
  case inl =>
    rw [hq]
    have hqk : q.kept = p.kept := by
      rcases hqp with rfl | rfl <;> rfl
    have hqc : q.closeState = none := (congrArg (fun k => k.base.closeState) hqk).trans h
    dsimp only
    rw [q.retryFin_eq env hqc]
    obtain ⟨hfb, hfr⟩ := ((q.emit env).probe env).flushAck_base env
    have hpk := (q.emit env).probe_kept env
    have hbase : (((q.emit env).probe env).flushAck env).base = (q.emit env).base :=
      hfb.trans (congrArg Kept.base hpk)
    have hrcv : (((q.emit env).probe env).flushAck env).rcv = (q.emit env).rcv := hfr.trans (congrArg Kept.rcv hpk)
    rcases q.emit_kept env with he | he
    · rw [hqk] at he
      refine ⟨hrcv.trans (congrArg Kept.rcv he), ?_, Or.inl ?_⟩
      · exact (congrArg Base.closeState (hbase.trans (congrArg Kept.base he))).trans h
      · exact congrArg Base.state (hbase.trans (congrArg Kept.base he))
    · refine ⟨hrcv.trans ((congrArg Kept.rcv he).trans (congrArg Kept.rcv hqk)), ?_, Or.inr (Or.inl ?_)⟩
      · exact (congrArg Base.closeState (hbase.trans (congrArg Kept.base he))).trans hqc
      · exact congrArg Base.state (hbase.trans (congrArg Kept.base he))

theorem persistArm_kept : (p.persistArm env).kept = p.kept := by
  unfold persistArm
  split <;> rfl

/-- Sending moves nothing but the next number. -/
theorem sendLoop_kept (data : List UInt8) (k : ℕ) (sent : ℕ) :
    (sendLoop env data k p sent).1.kept = p.kept.withNxt (sendLoop env data k p sent).1.sndNxt := by
  have own : ∀ {p q : Pcb}, q.kept = p.kept → q.kept = p.kept.withNxt q.sndNxt := by
    intro p q hq
    rw [← hq]
    rfl
  induction k generalizing p sent with
  | zero => rfl
  | succ k ih =>
    rw [sendLoop]
    split
    case isFalse => rfl
    case isTrue =>
      dsimp only
      split
      · split
        · exact own (p.persistArm_kept env)
        · rfl
      · split
        case h_1 q hq => exact own ((congrArg (fun x => x.1.kept) hq).symm.trans (output_kept _ env _ _))
        case h_2 q hq =>
          have hk : q.kept = p.kept := (congrArg (fun x => x.1.kept) hq).symm.trans (output_kept _ env _ _)
          rw [← hk]
          rfl
        case h_3 q hq =>
          have hk : q.kept = p.kept := (congrArg (fun x => x.1.kept) hq).symm.trans (output_kept _ env _ _)
          rw [ih, ← hk]
          rfl

theorem send_kept (data : List UInt8) : (p.send env data).1.kept = p.kept.withNxt (p.send env data).1.sndNxt := by
  unfold send
  split
  case h_6 | h_7 =>
    split
    · rfl
    · dsimp only
      split
      · exact p.sendLoop_kept env data _ 0
      · dsimp only
        split
        · exact p.sendLoop_kept env data _ 0
        · exact p.sendLoop_kept env data _ 0
  all_goals rfl

end Pcb

end EwokOS.Net
