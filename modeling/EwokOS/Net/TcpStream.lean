import EwokOS.Net.TcpRcv

/-! Runs of one connection that its user has not closed, on the receive side (`tcp.c`).

    Segments come in any order and more than once, the user reads and writes, and the timer ticks. All that
    is asked of the segments is that they are cut from one stream `S`:

        established   Mapped    a FIN that comes next ends the stream
        closeWait     Ended     everything up to the end has been taken -/

namespace EwokOS.Net

open Schemes

/-- A connection, and what `tcp_receive` has returned so far. -/
structure Conn where
  pcb : Pcb
  got : List UInt8

inductive Call where
  | segment (env : Env) (seg : Segment)
  | receive (env : Env) (size : ℕ)
  | send (env : Env) (data : List UInt8)
  | tick (env : Env)

/-- The bytes of a result. -/
def bytesOf : Except Errno (List UInt8) → List UInt8
  | .ok l => l
  | .error _ => []

def Conn.step (c : Conn) : Call → Option Conn
  | .segment env seg => some { c with pcb := c.pcb.arrives env seg }
  | .receive env size => some ⟨(c.pcb.receive env size).1, c.got ++ bytesOf (c.pcb.receive env size).2⟩
  | .send env data => some { c with pcb := (c.pcb.send env data).1 }
  | .tick env => some { c with pcb := c.pcb.timer env }

/-- A segment with text or a FIN is cut from the stream. -/
def Cut (S : List UInt8) (b : Seq) (c : Conn) : Call → Prop
  | .segment _ seg =>
    seg.data.length ≠ 0 ∨ seg.flg.fin = true → ∃ o, Fits S b (c.got.length + c.pcb.rcv.remain) seg o
  | _ => True

/-- Both ends have seen a SYN, and nothing has come yet. -/
structure Begins (p : Pcb) : Prop where
  state : p.state = .synReceived ∨ p.state = .established
  nxt : p.rcvNxt = p.irs + 1
  wnd : p.rcvWnd = rcvBufSize
  empty : p.oooLen = 0
  copies : p.copies = []
  unclosed : p.closeState = none

theorem Begins.of_kept {p q : Pcb} (h : Begins p) (hb : q.base = p.base) (hr : q.rcv = p.rcv) : Begins q where
  state := by
    have hst : q.state = p.state := congrArg Base.state hb
    rw [hst]
    exact h.state
  nxt := ((congrArg RcvSide.nxt hr).trans h.nxt).trans (congrArg (fun x => x.irs + 1) hb).symm
  wnd := (congrArg RcvSide.wnd hr).trans h.wnd
  empty := (congrArg RcvSide.oooLen hr).trans h.empty
  copies := (congrArg RcvSide.copies hr).trans h.copies
  unclosed := (congrArg Base.closeState hb).trans h.unclosed

/-- What a SYN to a listener makes begins so. -/
theorem accepted_begins {fresh : Pcb} {parent : ℕ} {here foreign : Endpoint} {iss : Seq} {env : Env} {seg : Segment}
    (hooo : fresh.oooLen = 0) (hcopies : fresh.copies = []) (hcs : fresh.closeState = none) :
    Begins (Pcb.accepted env seg fresh parent here foreign iss) := by
  unfold Pcb.accepted
  dsimp only
  generalize hc : Pcb.output _ env flgSynAck [] = c
  have hk := (congrArg (fun x => x.1.kept) hc).symm
  rw [Pcb.output_kept] at hk
  exact ⟨Or.inl rfl, (congrArg (fun k => k.rcv.nxt) hk).trans (congrArg (fun k => k.base.irs + 1) hk).symm,
    congrArg (fun k => k.rcv.wnd) hk, (congrArg (fun k => k.rcv.oooLen) hk).trans hooo,
    (congrArg (fun k => k.rcv.copies) hk).trans hcopies, (congrArg (fun k => k.base.closeState) hk).trans hcs⟩

/-- And so does a connection that was waiting for the SYN of the other end. -/
theorem synSent_begins {p : Pcb} {env : Env} {seg : Segment} (hwnd : p.rcvWnd = rcvBufSize) (hooo : p.oooLen = 0)
    (hcopies : p.copies = []) (hcs : p.closeState = none) (hst : p.state = .synSent)
    (hopen : (p.arrivesSynSent env seg).opened = true) : Begins (p.arrivesSynSent env seg) := by
  have hshut : ∀ q : Pcb, q.state = .synSent ∨ q.state = .free → ¬q.opened = true := by
    rintro q (h | h) <;> rw [Pcb.opened, h] <;> exact Bool.false_ne_true
  have hbegin : ∀ st, st = .synReceived ∨ st = .established →
      ∀ q : Pcb, q.base = { p.base with irs := seg.seq, state := st } → q.rcv = { p.rcv with nxt := seg.seq + 1 } →
        Begins q := by
    intro st h q hb hr
    refine ⟨?_, ?_, (congrArg RcvSide.wnd hr).trans hwnd, (congrArg RcvSide.oooLen hr).trans hooo,
      (congrArg RcvSide.copies hr).trans hcopies, (congrArg Base.closeState hb).trans hcs⟩
    · have hq : q.state = st := congrArg Base.state hb
      rw [hq]
      exact h
    · exact (congrArg RcvSide.nxt hr).trans (congrArg (fun x => x.irs + 1) hb).symm
  revert hopen
  unfold Pcb.arrivesSynSent
  split
  · exact fun h => absurd h (hshut _ (Or.inl hst))
  · dsimp only
    split
    · split
      · exact fun h => absurd h (hshut _ (Or.inr rfl))
      · exact fun h => absurd h (hshut _ (Or.inl hst))
    · split
      · intro _
        generalize hq : (if (seg.flg.ack && seqBetween seg.ack p.sndUna p.sndNxt) = true then _ else _ : Pcb) = q
        have hqk : q.base = { p.base with irs := seg.seq } ∧ q.rcv = { p.rcv with nxt := seg.seq + 1 } := by
          rw [← hq]
          split <;> exact ⟨rfl, rfl⟩
        split
        · have hk := Pcb.outputAck_kept (Pcb.ccInit { q with state := .established } env) env
          refine hbegin .established (Or.inr rfl) _ ?_ ?_
          · exact (congrArg Kept.base hk).trans (congrArg (fun x : Base => { x with state := .established }) hqk.1)
          · exact (congrArg Kept.rcv hk).trans hqk.2
        · have hk := Pcb.output_kept { q with state := .synReceived } env flgSynAck []
          refine hbegin .synReceived (Or.inl rfl) _ ?_ ?_
          · exact (congrArg Kept.base hk).trans (congrArg (fun x : Base => { x with state := .synReceived }) hqk.1)
          · exact (congrArg Kept.rcv hk).trans hqk.2
      · exact fun h => absurd h (hshut _ (Or.inl hst))

/-! ### The invariant -/

/-- The FIN has been taken, and with it the last byte. -/
structure Ended (S : List UInt8) (b : Seq) (g : ℕ) (r : RcvSide) : Prop where
  wnd : r.wnd ≤ rcvBufSize
  whole : g + r.remain = S.length
  nxt : r.nxt = b + BitVec.ofNat 32 (S.length + 1)
  buf : ∀ i < r.remain, S[g + i]? = some (r.buf i)
  empty : r.oooLen = 0

/-- Where the connection is in the stream. A reset or a timeout leaves it there. -/
inductive Place (S : List UInt8) (b : Seq) (g : ℕ) (p : Pcb) : Prop where
  | taking : p.state ∈ [State.synReceived, .established, .closed, .free] → Mapped S b g p.rcv → Place S b g p
  | ended : p.state ∈ [State.closeWait, .closed, .free] → Ended S b g p.rcv → Place S b g p

structure Stream (S : List UInt8) (b : Seq) (c : Conn) : Prop where
  got : c.got <+: S
  inside : Inside c.pcb.rcv
  unclosed : c.pcb.closeState = none
  place : Place S b c.got.length c.pcb

variable {S : List UInt8} {b : Seq} {g o : ℕ} {p q : Pcb} {env : Env} {seg : Segment} {c : Conn}

/-- Nothing of the receive side has moved, and the state is the same or the connection is gone. -/
theorem Place.of_rcv (h : Place S b g p) (hr : q.rcv = p.rcv)
    (hst : q.state = p.state ∨ q.state = .closed ∨ q.state = .free) : Place S b g q := by
  cases h with
  | taking h1 h2 =>
    refine .taking ?_ (by rw [hr]; exact h2)
    rcases hst with hst | hst | hst <;> rw [hst]
    · exact h1
    · decide
    · decide
  | ended h1 h2 =>
    refine .ended ?_ (by rw [hr]; exact h2)
    rcases hst with hst | hst | hst <;> rw [hst]
    · exact h1
    · decide
    · decide

theorem Stream.of_rcv (h : Stream S b c) (hr : q.rcv = c.pcb.rcv) (hcs : q.closeState = c.pcb.closeState)
    (hst : q.state = c.pcb.state ∨ q.state = .closed ∨ q.state = .free) : Stream S b ⟨q, c.got⟩ where
  got := h.got
  inside := by
    intro x hx
    rw [hr] at hx
    exact h.inside x hx
  unclosed := hcs.trans h.unclosed
  place := h.place.of_rcv hr hst

/-- How the stages before the text can end a segment. -/
theorem stops_rcv (h : Pcb.Stops p env seg q) :
    q.rcv = p.rcv ∧ q.closeState = p.closeState ∧ (q.state = p.state ∨ q.state = .free) := by
  have hk : ∀ {q : Pcb}, q.kept = p.kept → q.rcv = p.rcv ∧ q.closeState = p.closeState ∧ (q.state = p.state ∨ q.state = .free) :=
    fun h => ⟨congrArg Kept.rcv h, congrArg (fun k => k.base.closeState) h, Or.inl (congrArg (fun k => k.base.state) h)⟩
  cases h with
  | again => exact hk (p.output_kept env flgSynAck [])
  | drop => exact hk rfl
  | answer => exact hk (p.outputAck_kept env)
  | reset => exact ⟨rfl, rfl, Or.inr rfl⟩
  | syn =>
    have hk := p.output_kept env flgRst []
    exact ⟨congrArg Kept.rcv hk, congrArg (fun k => k.base.closeState) hk, Or.inr rfl⟩
  | refuse => exact hk rfl
  | finish => exact ⟨rfl, rfl, Or.inr rfl⟩

/-- What gets through them, for a connection that the user has not closed. -/
theorem passes_rcv (h : Pcb.Passes p env seg q)
    (hst : p.state ∈ [State.synReceived, .established, .closeWait, .free]) :
    q.rcv = p.rcv ∧ q.closeState = p.closeState ∧
      (q.state = p.state ∨ (p.state = .synReceived ∧ q.state = .established)) := by
  have hack : ∀ {p : Pcb}, p.state ≠ .finWait1 → p.state ≠ .closing →
      ((p.ackWindow env seg).ackState env seg).kept = p.kept := by
    intro p h1 h2
    have hwk := p.ackWindow_kept env seg
    have hws : (p.ackWindow env seg).state = p.state := congrArg (fun k => k.base.state) hwk
    unfold Pcb.ackState
    rw [hws]
    cases hs : p.state with
    | finWait1 => exact absurd hs h1
    | closing => exact absurd hs h2
    | _ => exact hwk
  cases h with
  | handshake hs _ =>
    have hk := hack (p := p.establish env seg) (show State.established ≠ .finWait1 by decide)
      (show State.established ≠ .closing by decide)
    exact ⟨congrArg Kept.rcv hk, congrArg (fun k => k.base.closeState) hk,
      Or.inr ⟨hs, congrArg (fun k => k.base.state) hk⟩⟩
  | transfer _ =>
    have hk := hack (p := p) (fun h => by rw [h] at hst; revert hst; decide)
      (fun h => by rw [h] at hst; revert hst; decide)
    exact ⟨congrArg Kept.rcv hk, congrArg (fun k => k.base.closeState) hk, Or.inl (congrArg (fun k => k.base.state) hk)⟩
  | timeWait hs =>
    split <;> exact ⟨rfl, rfl, Or.inl rfl⟩
  | shut => exact ⟨rfl, rfl, Or.inl rfl⟩

/-- What may be read is part of the stream. -/
theorem Mapped.le_length {r : RcvSide} (h : Mapped S b g r) (hg : g ≤ S.length) : g + r.remain ≤ S.length := by
  rcases Nat.eq_zero_or_pos r.remain with hzero | hpos
  · omega
  · have := (List.getElem?_eq_some_iff.mp (h.buf (r.remain - 1) (by omega))).1
    omega

/-- A FIN that comes next ends the stream. -/
theorem takeFin_ended {r : RcvSide} (h : Mapped S b g p.rcv) (hg : g ≤ S.length) (hn : g + r.remain ≤ g + p.rcv.remain)
    (hf : Fits S b (g + r.remain) seg o) (hfin : seg.flg.fin = true)
    (hseq : seg.seq + BitVec.ofNat 32 seg.data.length = p.rcvNxt) :
    Ended S b g { p.rcv with nxt := p.rcvNxt + 1, oooLen := 0 } := by
  have hle := h.le_length hg
  have hend := hf.fin hfin
  have hahead := hf.ahead
  have hsize := hf.size
  have hnxt : p.rcvNxt = b + BitVec.ofNat 32 (g + p.rcv.remain) := h.nxt
  have heq : S.length = g + p.rcv.remain := by
    rw [hf.seq, place_add, hend, hnxt] at hseq
    exact place_inj b hseq (by omega) (by omega)
  refine ⟨h.wnd, heq.symm, ?_, h.buf, rfl⟩
  change p.rcvNxt + BitVec.ofNat 32 1 = _
  rw [hnxt, place_add, heq]

/-- The text and the FIN of a segment, while the stream goes on. -/
theorem taking_segment (h : Mapped S b g p.rcv) (hg : g ≤ S.length)
    (hst : p.state ∈ [State.synReceived, .established, .free]) (hin : Inside p.rcv)
    (hcut : seg.data.length ≠ 0 ∨ seg.flg.fin = true → ∃ o, Fits S b (g + p.rcv.remain) seg o) :
    Inside ((p.takeText env seg).takeFin env seg).rcv ∧ Place S b g ((p.takeText env seg).takeFin env seg) := by
  obtain ⟨o, ho⟩ : ∃ o, seg.data.length ≠ 0 → Fits S b (g + p.rcv.remain) seg o := by
    by_cases hne : seg.data.length ≠ 0
    · obtain ⟨o, ho⟩ := hcut (Or.inl hne)
      exact ⟨o, fun _ => ho⟩
    · exact ⟨0, fun h => absurd h hne⟩
  obtain ⟨hmap, hins, hgrow⟩ := takeText_mapped env h ho
  have hts : (p.takeText env seg).state = p.state := congrArg Base.state (p.takeText_base env seg)
  generalize p.takeText env seg = q at *
  rw [← hts] at hst
  rcases q.takeFin_cases env seg with hk | ⟨hfin, hseq, st, hstep, hb, hr, -⟩
  · have hr : (q.takeFin env seg).rcv = q.rcv := congrArg Kept.rcv hk
    have hs : (q.takeFin env seg).state = q.state := congrArg (fun k => k.base.state) hk
    rw [hr]
    refine ⟨hins hin, .taking ?_ (by rw [hr]; exact hmap)⟩
    rw [hs]
    revert hst
    cases q.state <;> decide
  · obtain ⟨o', ho'⟩ := hcut (Or.inr hfin)
    have hend := takeFin_ended hmap hg (Nat.add_le_add_left hgrow g) ho' hfin hseq
    have hs : (q.takeFin env seg).state = st := congrArg Base.state hb
    have hst' : st ∈ [State.closeWait, .closed, .free] := by
      generalize q.state = s at hst hstep
      cases hstep with
      | same h1 h2 => cases st <;> first | decide | exact absurd rfl h1 | exact absurd rfl h2 | exact absurd hst (by decide)
      | half => decide
      | closing => revert hst; decide
      | both h1 => rcases h1 with rfl | rfl <;> revert hst <;> decide
    refine ⟨?_, .ended (by rw [hs]; exact hst') (by rw [hr]; exact hend)⟩
    rw [hr]
    exact hins hin

/-- Behind the end there is nothing to take. -/
theorem ended_segment (h : Ended S b g p.rcv) (hst : p.state ∈ [State.closeWait, .free]) (hin : Inside p.rcv)
    (hcut : seg.flg.fin = true → ∃ o, Fits S b (g + p.rcv.remain) seg o) :
    Inside ((p.takeText env seg).takeFin env seg).rcv ∧ Place S b g ((p.takeText env seg).takeFin env seg) := by
  have htext : p.takeText env seg = p := by
    unfold Pcb.takeText
    generalize p.state = s at hst
    cases s <;> first | rfl | exact absurd hst (by decide)
  rw [htext]
  rcases p.takeFin_cases env seg with hk | ⟨hfin, hseq, -⟩
  · have hr : (p.takeFin env seg).rcv = p.rcv := congrArg Kept.rcv hk
    have hs : (p.takeFin env seg).state = p.state := congrArg (fun k => k.base.state) hk
    rw [hr]
    refine ⟨hin, .ended ?_ (by rw [hr]; exact h)⟩
    rw [hs]
    revert hst
    cases p.state <;> decide
  · -- The FIN is the number before the next one.
    obtain ⟨o, ho⟩ := hcut hfin
    have hnxt : p.rcvNxt = b + BitVec.ofNat 32 (S.length + 1) := h.nxt
    rw [ho.seq, place_add, ho.fin hfin, hnxt] at hseq
    have := place_inj b hseq (by omega) (by omega)
    omega

theorem takeFin_closeState : ((p.takeText env seg).takeFin env seg).closeState = p.closeState := by
  have htb : (p.takeText env seg).closeState = p.closeState := congrArg Base.closeState (p.takeText_base env seg)
  rcases (p.takeText env seg).takeFin_cases env seg with hk | ⟨-, -, st, -, hb, -⟩
  · exact (congrArg (fun k => k.base.closeState) hk).trans htb
  · exact (congrArg Base.closeState hb).trans htb

/-- A closed connection takes no segment. -/
theorem arrives_closed (h : p.state = .closed) : p.arrives env seg = p := by
  rw [Pcb.arrives, h]

theorem arrives_opened (h : p.state ∈ [State.synReceived, .established, .closeWait, .free]) :
    p.arrives env seg = p.arrivesOpened env seg := by
  unfold Pcb.arrives
  generalize p.state = s at h
  cases s <;> first | rfl | exact absurd h (by decide)

theorem Stream.segment (h : Stream S b c) (hcut : Cut S b c (.segment env seg)) :
    Stream S b ⟨c.pcb.arrives env seg, c.got⟩ := by
  have hg : c.got.length ≤ S.length := h.got.length_le
  by_cases hclosed : c.pcb.state = .closed
  · rw [arrives_closed hclosed]
    exact h
  have hst : c.pcb.state ∈ [State.synReceived, .established, .closeWait, .free] := by
    cases h.place with
    | taking h1 => revert h1 hclosed; cases c.pcb.state <;> decide
    | ended h1 => revert h1 hclosed; cases c.pcb.state <;> decide
  rw [arrives_opened hst]
  rcases c.pcb.arrivesOpened_cases env seg with hstop | ⟨q, hpass, heq⟩
  · obtain ⟨hr, hcs, hs⟩ := stops_rcv hstop
    exact h.of_rcv hr hcs (hs.imp_right Or.inr)
  obtain ⟨hqr, hqc, hqs⟩ := passes_rcv hpass hst
  have hin : Inside q.rcv := by
    rw [hqr]
    exact h.inside
  have hcs : ((q.takeText env seg).takeFin env seg).closeState = none :=
    takeFin_closeState.trans (hqc.trans h.unclosed)
  rw [heq]
  suffices hgoal : Inside ((q.takeText env seg).takeFin env seg).rcv ∧
      Place S b c.got.length ((q.takeText env seg).takeFin env seg) from ⟨h.got, hgoal.1, hcs, hgoal.2⟩
  cases h.place with
  | taking h1 h2 =>
    refine taking_segment (by rw [hqr]; exact h2) hg ?_ hin (by rw [hqr]; exact hcut)
    rcases hqs with hq | ⟨-, hq⟩
    · rw [hq]
      revert h1 hclosed
      cases c.pcb.state <;> decide
    · rw [hq]
      decide
  | ended h1 h2 =>
    refine ended_segment (by rw [hqr]; exact h2) ?_ hin (by rw [hqr]; exact fun hf => hcut (Or.inr hf))
    rcases hqs with hq | ⟨hq, -⟩
    · rw [hq]
      revert h1 hclosed
      cases c.pcb.state <;> decide
    · rw [hq] at h1
      exact absurd h1 (by decide)

/-! ### Reading, writing and the timer -/

/-- With nothing kept beyond a hole, everything that is left moves to the front. -/
theorem take_ended (env : Env) {len : ℕ} (h : Ended S b g p.rcv) (hle : len ≤ p.rcv.remain) :
    Ended S b (g + len) (p.take env len).1.rcv ∧ (Inside p.rcv → Inside (p.take env len).1.rcv) := by
  have hwnd : p.rcvWnd ≤ rcvBufSize := h.wnd
  have hbuf : p.rcv.remain + p.rcvWnd = rcvBufSize := Nat.sub_add_cancel hwnd
  have hzero : p.oooLen = 0 := h.empty
  have hwhole := h.whole
  obtain ⟨-, tail, htail, hrcv⟩ := take_rcv p env len
  have htail' : p.rcv.remain - len = tail := by
    rw [if_neg (by rw [not_not]; exact hzero)] at htail
    exact htail
  have hmr : rcvBufSize - (p.rcvWnd + len) = tail := by omega
  rw [hrcv]
  refine ⟨⟨?_, ?_, h.nxt, ?_, hzero⟩, ?_⟩
  · change p.rcvWnd + len ≤ rcvBufSize
    omega
  · change g + len + (rcvBufSize - (p.rcvWnd + len)) = S.length
    omega
  · intro i hi
    change i < rcvBufSize - (p.rcvWnd + len) at hi
    change S[g + len + i]? = some (if i < tail then p.buf (i + len) else p.buf i)
    rw [if_pos (by omega), Nat.add_comm i, Nat.add_assoc]
    exact h.buf (len + i) (by omega)
  · intro hc c hmem
    rcases List.mem_cons.mp hmem with rfl | hmem
    · change 0 + len ≤ rcvBufSize
      omega
    · rcases List.mem_cons.mp hmem with rfl | hmem
      · change len + tail ≤ rcvBufSize
        omega
      · exact hc c hmem

/-- What is returned comes next in the stream. -/
theorem Stream.take {len : ℕ} (h : Stream S b c) (hle : len ≤ c.pcb.rcv.remain) :
    Stream S b ⟨(c.pcb.take env len).1, c.got ++ slice c.pcb.buf 0 len⟩ := by
  have hb := (take_rcv c.pcb env len).1
  have hs : (c.pcb.take env len).1.state = c.pcb.state := congrArg Base.state hb
  have hcs : (c.pcb.take env len).1.closeState = none := (congrArg Base.closeState hb).trans h.unclosed
  have hlen : (c.got ++ slice c.pcb.buf 0 len).length = c.got.length + len := by
    rw [List.length_append, length_slice]
  have hpre : (∀ i < c.pcb.rcv.remain, S[c.got.length + i]? = some (c.pcb.buf i)) →
      c.got ++ slice c.pcb.buf 0 len <+: S :=
    fun hbuf => append_slice_grows h.got fun i hi => by
      rw [Nat.zero_add]
      exact hbuf i (by omega)
  cases h.place with
  | taking h1 h2 =>
    obtain ⟨hmap, hins⟩ := take_mapped env h2 hle
    exact ⟨hpre h2.buf, hins h.inside, hcs, .taking (by rw [hs]; exact h1) (by rw [hlen]; exact hmap)⟩
  | ended h1 h2 =>
    obtain ⟨hend, hins⟩ := take_ended env h2 hle
    exact ⟨hpre h2.buf, hins h.inside, hcs, .ended (by rw [hs]; exact h1) (by rw [hlen]; exact hend)⟩

/-- What `tcp_receive` does to a connection in the stream. -/
theorem receive_cases (env : Env) (h : Place S b g p) (size : ℕ) :
    ((p.receive env size).1 = p ∧ bytesOf (p.receive env size).2 = [] ∧
      ((p.receive env size).2 = .ok [] → p.state = .closeWait ∧ p.rcv.remain = 0)) ∨
    (p.rcv.remain ≠ 0 ∧
      p.receive env size = ((p.take env (min size p.rcv.remain)).1, .ok (slice p.buf 0 (min size p.rcv.remain)))) := by
  have hst : p.state ∈ [State.synReceived, .established, .closed, .free, .closeWait] := by
    cases h with
    | taking h1 => revert h1; cases p.state <;> decide
    | ended h1 => revert h1; cases p.state <;> decide
  have hrem : p.remain = p.rcv.remain := rfl
  unfold Pcb.receive
  cases hs : p.state with
  | synReceived | closed | free => exact Or.inl ⟨rfl, rfl, fun h => nomatch h⟩
  | established =>
    dsimp only
    split
    · exact Or.inl ⟨rfl, rfl, fun h => nomatch h⟩
    · rename_i hne
      exact Or.inr ⟨hne, rfl⟩
  | closeWait =>
    dsimp only
    split
    · rename_i hzero
      exact Or.inl ⟨rfl, rfl, fun _ => ⟨rfl, hzero⟩⟩
    · rename_i hne
      exact Or.inr ⟨hne, rfl⟩
  | _ =>
    rw [hs] at hst
    exact absurd hst (by decide)

theorem Stream.receive (h : Stream S b c) (size : ℕ) :
    Stream S b ⟨(c.pcb.receive env size).1, c.got ++ bytesOf (c.pcb.receive env size).2⟩ := by
  rcases receive_cases env h.place size with ⟨hp, hb, -⟩ | ⟨-, heq⟩
  · rw [hp, hb, List.append_nil]
    exact h
  · rw [heq]
    exact h.take (Nat.min_le_right _ _)

theorem Stream.send (h : Stream S b c) (data : List UInt8) : Stream S b ⟨(c.pcb.send env data).1, c.got⟩ := by
  have hk := c.pcb.send_kept env data
  exact h.of_rcv (congrArg Kept.rcv hk) (congrArg (fun k => k.base.closeState) hk)
    (Or.inl (congrArg (fun k => k.base.state) hk))

theorem Stream.tick (h : Stream S b c) : Stream S b ⟨c.pcb.timer env, c.got⟩ := by
  obtain ⟨hr, hcs, hst⟩ := c.pcb.timer_cases env h.unclosed
  exact h.of_rcv hr (hcs.trans h.unclosed.symm) hst

theorem Stream.step {call : Call} {d : Conn} (h : Stream S b c) (hcut : Cut S b c call) (hd : c.step call = some d) :
    Stream S b d := by
  cases call with
  | segment env seg => cases hd; exact h.segment hcut
  | receive env size => cases hd; exact h.receive size
  | send env data => cases hd; exact h.send data
  | tick env => cases hd; exact h.tick

theorem Begins.stream (h : Begins p) : Stream S (p.irs + 1) ⟨p, []⟩ where
  got := List.nil_prefix
  inside := fun x hx => by
    have hc : p.copies = [] := h.copies
    change x ∈ p.copies at hx
    rw [hc] at hx
    exact absurd hx List.not_mem_nil
  unclosed := h.unclosed
  place := by
    have hrem : p.rcv.remain = 0 := by
      unfold RcvSide.remain
      exact Nat.sub_eq_zero_of_le (Nat.le_of_eq h.wnd.symm)
    refine .taking ?_ ⟨Nat.le_of_eq h.wnd, ?_, ?_, ?_⟩
    · rcases h.state with hs | hs <;> rw [hs] <;> decide
    · rw [hrem]
      exact h.nxt.trans (BitVec.add_zero _).symm
    · intro i hi
      change i < p.rcv.remain at hi
      omega
    · exact fun hne => absurd h.empty hne

/-! ### What the user gets -/

/-- What a connection in the state `c` has delivered of the stream. -/
structure Delivers (S : List UInt8) (b : Seq) (c : Conn) : Prop where
  /-- What has been returned is the beginning of the stream. -/
  returned : c.got <+: S
  /-- Every byte below `rcv.nxt` has been returned or is in the buffer where it will be read. -/
  acked : ∃ n, (c.pcb.rcvNxt = b + BitVec.ofNat 32 n ∨ (n = S.length ∧ c.pcb.rcvNxt = b + BitVec.ofNat 32 (n + 1))) ∧
    n = c.got.length + c.pcb.remain ∧ n ≤ S.length ∧
    ∀ j, c.got.length ≤ j → j < n → S[j]? = some (c.pcb.buf (j - c.got.length))
  /-- What came too early is beyond `rcv.nxt` and inside the window. -/
  stash : c.pcb.oooLen ≠ 0 → ∃ k, 0 < k ∧ c.pcb.oooSeq = c.pcb.rcvNxt + BitVec.ofNat 32 k ∧
    k + c.pcb.oooLen ≤ c.pcb.rcvWnd ∧
    ∀ i < c.pcb.oooLen, S[c.got.length + c.pcb.remain + k + i]? = some (c.pcb.buf (c.pcb.remain + k + i))
  /-- Every copy is inside the buffer. -/
  inside : ∀ x ∈ c.pcb.copies, x.1 + x.2 ≤ rcvBufSize
  /-- The end is reported when everything has been returned. -/
  eof : ∀ env size, 0 < size → (c.pcb.receive env size).2 = .ok [] → c.got = S

theorem Stream.acked (h : Stream S b c) :
    ∃ n, (c.pcb.rcvNxt = b + BitVec.ofNat 32 n ∨ (n = S.length ∧ c.pcb.rcvNxt = b + BitVec.ofNat 32 (n + 1))) ∧
      n = c.got.length + c.pcb.remain ∧ n ≤ S.length ∧
      ∀ j, c.got.length ≤ j → j < n → S[j]? = some (c.pcb.buf (j - c.got.length)) := by
  have hbuf : (∀ i < c.pcb.rcv.remain, S[c.got.length + i]? = some (c.pcb.buf i)) →
      ∀ j, c.got.length ≤ j → j < c.got.length + c.pcb.remain → S[j]? = some (c.pcb.buf (j - c.got.length)) := by
    intro hb j hle hlt
    have hj := hb (j - c.got.length) (show j - c.got.length < c.pcb.remain by omega)
    rw [Nat.add_sub_of_le hle] at hj
    exact hj
  cases h.place with
  | taking _ h2 => exact ⟨_, Or.inl h2.nxt, rfl, h2.le_length h.got.length_le, hbuf h2.buf⟩
  | ended _ h2 =>
    have hwhole : c.got.length + c.pcb.remain = S.length := h2.whole
    refine ⟨_, Or.inr ⟨hwhole, ?_⟩, rfl, Nat.le_of_eq hwhole, hbuf h2.buf⟩
    rw [hwhole]
    exact h2.nxt

theorem Stream.delivers (h : Stream S b c) : Delivers S b c where
  returned := h.got
  acked := h.acked
  stash := fun hne => by
    cases h.place with
    | taking _ h2 =>
      obtain ⟨k, hk, hseq, hfit, hbuf⟩ := h2.stash hne
      refine ⟨k, hk, ?_, hfit, hbuf⟩
      have hnxt : c.pcb.rcvNxt = b + BitVec.ofNat 32 (c.got.length + c.pcb.rcv.remain) := h2.nxt
      rw [hnxt, place_add]
      exact hseq
    | ended _ h2 => exact absurd h2.empty hne
  inside := h.inside
  eof := fun env size hsize hres => by
    rcases receive_cases env h.place size with ⟨-, -, hend⟩ | ⟨hne, heq⟩
    · obtain ⟨hst, hzero⟩ := hend hres
      cases h.place with
      | taking h1 _ =>
        rw [hst] at h1
        exact absurd h1 (by decide)
      | ended _ h2 =>
        have hwhole := h2.whole
        exact h.got.eq_of_length (by omega)
    · -- At least one byte is returned.
      rw [heq] at hres
      have hlen := congrArg List.length (Except.ok.inj hres)
      rw [length_slice, List.length_nil] at hlen
      omega

/-- However the segments of a stream come, and however it is read, the user gets the stream. -/
theorem stream_delivered {p₀ : Pcb} (hp : Begins p₀) (S : List UInt8) {c : Conn}
    (h : Reach Conn.step (Cut S (p₀.irs + 1)) ⟨p₀, []⟩ c) : Delivers S (p₀.irs + 1) c :=
  (h.inv (I := Stream S (p₀.irs + 1)) hp.stream fun _ _ _ hI hcut hd => hI.step hcut hd).delivers

/-- A connection to port 80 of a host whose device takes everything. -/
def sampleEnv : Env := ⟨0, fun _ => true, fun _ => true, some 1500, true⟩

def sampleConn : Pcb := Pcb.accepted sampleEnv ⟨9, 0, flgSyn, 1000, none, []⟩ (Pcb.fresh 0) 0 ⟨1, 80⟩ ⟨2, 5000⟩ 4

theorem sampleConn_begins : Begins sampleConn := accepted_begins rfl rfl rfl

/-- The second byte of `[7, 8]` comes with the FIN. -/
def sampleLate : Segment := ⟨11, 5, flgFinAck, 1000, none, [8]⟩

def sampleEarly : Segment := ⟨10, 5, flgAck, 1000, none, [7]⟩

theorem sampleLate_fits {n : ℕ} (h : n ≤ 2) : Fits [7, 8] 10 n sampleLate 1 :=
  ⟨by decide, by unfold Agree; decide, by decide, fun _ => rfl, by omega, by omega⟩

theorem sampleEarly_fits {n : ℕ} (h : n ≤ 2) : Fits [7, 8] 10 n sampleEarly 0 :=
  ⟨by decide, by unfold Agree; decide, by decide, fun h => absurd h (by decide), by omega, by omega⟩

/-- The second byte comes too early, and once more behind the first. -/
def sampleCalls : List Call :=
  [.segment sampleEnv sampleLate, .segment sampleEnv sampleEarly, .segment sampleEnv sampleLate, .receive sampleEnv 5]

theorem sampleCalls_reach : ∃ c, runOps Conn.step ⟨sampleConn, []⟩ sampleCalls = some c ∧
    Reach Conn.step (Cut [7, 8] 10) ⟨sampleConn, []⟩ c := by
  refine ⟨_, rfl, .next (o := .receive sampleEnv 5) (.next (o := .segment sampleEnv sampleLate)
    (.next (o := .segment sampleEnv sampleEarly) (.next (o := .segment sampleEnv sampleLate) .start ?_ rfl) ?_ rfl)
    ?_ rfl) trivial rfl⟩
  · exact fun _ => ⟨1, sampleLate_fits (by decide +kernel)⟩
  · exact fun _ => ⟨0, sampleEarly_fits (by decide +kernel)⟩
  · exact fun _ => ⟨1, sampleLate_fits (by decide +kernel)⟩

/-- Both bytes are returned, and then the end. -/
theorem stream_delivered_two : ∃ c, Begins sampleConn ∧ Reach Conn.step (Cut [7, 8] 10) ⟨sampleConn, []⟩ c ∧
    c.got = [7, 8] ∧ (c.pcb.receive sampleEnv 1).2 = .ok [] ∧ Delivers [7, 8] 10 c := by
  obtain ⟨c, hrun, hreach⟩ := sampleCalls_reach
  have hgot : (runOps Conn.step ⟨sampleConn, []⟩ sampleCalls).map (fun c => (c.got, (c.pcb.receive sampleEnv 1).2)) =
      some ([7, 8], .ok []) := by decide +kernel
  rw [hrun] at hgot
  have hpair := Option.some.inj hgot
  exact ⟨c, sampleConn_begins, hreach, congrArg Prod.fst hpair, congrArg Prod.snd hpair,
    stream_delivered sampleConn_begins [7, 8] hreach⟩

/-- A call with no room for a byte returns 0 while there are bytes to read. -/
theorem stream_empty_read : ¬ ∀ (p₀ : Pcb) (S : List UInt8) (c : Conn), Begins p₀ →
    Reach Conn.step (Cut S (p₀.irs + 1)) ⟨p₀, []⟩ c →
    ∀ env size, (c.pcb.receive env size).2 = .ok [] → c.got = S := by
  intro h
  have hreach : Reach Conn.step (Cut [7, 8] 10) ⟨sampleConn, []⟩ ⟨sampleConn.arrives sampleEnv sampleEarly, []⟩ :=
    .next (o := .segment sampleEnv sampleEarly) .start (fun _ => ⟨0, sampleEarly_fits (by decide +kernel)⟩) rfl
  have hgot := h sampleConn [7, 8] _ sampleConn_begins hreach sampleEnv 0 (by decide +kernel)
  exact absurd hgot (by decide)

end EwokOS.Net
