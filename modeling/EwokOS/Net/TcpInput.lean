import EwokOS.Net.Tcp

/-! What a connection does when a segment arrives, when the timer ticks and when its user calls (`tcp.c`).

    `tcp_segment_arrives` goes through the checks of RFC 793 in order, and any of them may end it:

        sequence -> RST -> SYN -> ACK -> text -> FIN

    A stage is an `Except`: an error is the connection as the stage leaves it when it returns early. -/

namespace EwokOS.Net

open Schemes

namespace Pcb
variable (p : Pcb) (env : Env) (seg : Segment)

/-! ### The handshake -/

/-- The connection that a SYN to a listener makes. -/
def accepted (fresh : Pcb) (parent : ℕ) (here foreign : Endpoint) (iss : Seq) : Pcb :=
  let c := { fresh with
    parent := some parent
    here := here
    foreign := foreign
    rcvWnd := rcvBufSize
    rcvNxt := seg.seq + 1
    irs := seg.seq
    iss := iss
    peerWscale := seg.wscale.getD 0
    wsoptOk := seg.wscale.isSome }
  { (c.output env flgSynAck []).1 with sndNxt := iss + 1, sndUna := iss, state := .synReceived }

/-- The end of `tcp_connect`, with the addresses chosen. -/
def connect (here foreign : Endpoint) (iss : Seq) : Pcb :=
  let c := { p with here := here, foreign := foreign, rcvWnd := rcvBufSize, iss := iss }
  match c.output env flgSyn [] with
  | (c, .wired) => { c with sndUna := iss, sndNxt := iss + 1, state := .synSent }
  | (c, _) => c.release

/-- `tcp_segment_arrives` in SYN_SENT. A reset that answers an acknowledgment out of place goes out with no
    connection. -/
def arrivesSynSent : Pcb :=
  if seg.flg.ack && (!seqAfter seg.ack p.iss || seqAfter seg.ack p.sndNxt) then
    p.outputSegment seg.ack 0 flgRst 0 []
  else
    let acceptable := seg.flg.ack && seqBetween seg.ack p.sndUna p.sndNxt
    if seg.flg.rst then if acceptable then p.abort 1 else p
    else if seg.flg.syn then
      let p := { p with rcvNxt := seg.seq + 1, irs := seg.seq }
      let p := if acceptable then { p with sndUna := seg.ack }.queueCleanup else p
      if seqAfter p.sndUna p.iss then
        let p := ({ p with state := .established }.ccInit env).outputAck env
        let p := { p with peerWscale := seg.wscale.getD 0, wsoptOk := seg.wscale.isSome }
        { p with sndWnd := p.peerWindow seg.wnd, sndWl1 := seg.seq, sndWl2 := seg.ack }.wake .writers
      else ({ p with state := .synReceived }.output env flgSynAck []).1
    else p

/-! ### The stages -/

/-- The states in which both ends have seen a SYN. -/
def opened : Bool :=
  match p.state with
  | .synReceived | .established | .finWait1 | .finWait2 | .closeWait | .closing | .lastAck | .timeWait => true
  | .free | .closed | .listen | .synSent => false

/-- Some of the segment lies in the window. -/
def acceptable : Bool :=
  if seg.len = 0 then
    if p.rcvWnd = 0 then seg.seq = p.rcvNxt else (seg.seq - p.rcvNxt).toNat < p.rcvWnd
  else
    (seg.seq - p.rcvNxt).toNat < p.rcvWnd ||
      (seg.seq + BitVec.ofNat 32 seg.len - 1 - p.rcvNxt).toNat < p.rcvWnd

/-- First, the sequence number. -/
def checkSeq : Except Pcb Pcb :=
  if p.opened then
    if p.state = .synReceived ∧ seg.flg.syn = true ∧ seg.seq = p.irs then .error (p.output env flgSynAck []).1
    else if p.acceptable seg then .ok p
    else .error (if seg.flg.rst then p else p.outputAck env)
  else .ok p

/-- Second, RST. -/
def checkRst : Except Pcb Pcb := if p.opened && seg.flg.rst then .error (p.abort 1) else .ok p

/-- Fourth, SYN. -/
def checkSyn : Except Pcb Pcb :=
  if p.opened && seg.flg.syn then .error ((p.output env flgRst []).1.abort 1) else .ok p

/-- An acknowledgment of something that has been sent moves the window, and frees what it covers. -/
def takeAck : Pcb :=
  let advanced := seqAfter seg.ack p.sndUna
  let acked := (seg.ack - p.sndUna).toNat
  let p := { p with sndUna := seg.ack }
  if advanced then
    let p := p.queueCleanup
    let q := match p.queue with
      | [] => []
      | e :: rest => { e with last := env.now } :: rest
    { p with queue := q }.ccAck env acked
  else if seg.data.length = 0 ∧ p.queue ≠ [] ∧ p.peerWindow seg.wnd = p.sndWnd ∧ seg.flg.fin = false then
    let p := { p with dupacks := min (p.dupacks + 1) 0xff }
    if p.fastRecovery then { p with cwnd := min (p.cwnd + p.mss) (retransmitQueueMax * p.mss) }
    else if p.dupacks = 3 ∧ seqBefore seg.ack p.recover = false then
      let p := p.ccLoss
      { p with cwnd := p.ssthresh + 3 * p.mss, fastRecovery := true }.retransmitHead env
    else p
  else p

/-- The window of the peer, if the segment is not older than the one it was last taken from. -/
def takeWindow : Pcb :=
  if seqBefore p.sndWl1 seg.seq || (p.sndWl1 = seg.seq && !seqAfter p.sndWl2 seg.ack) then
    { p with sndWnd := p.peerWindow seg.wnd, sndWl1 := seg.seq, sndWl2 := seg.ack }
  else p

/-- What the ACK field does to the queue and the window, with the edge for the writers. -/
def ackWindow : Pcb :=
  if seqBetween seg.ack p.sndUna p.sndNxt then
    let q := (p.takeAck env seg).takeWindow seg
    if q.canSend then if p.canSend then q.persistDisarm else q.persistDisarm.wake .writers else q
  else p

/-- What it does to the state, once everything has been acknowledged. -/
def ackState : Pcb :=
  match p.state with
  | .finWait1 => if seg.ack = p.sndNxt then { p with state := .finWait2 } else p
  | .closing => if seg.ack = p.sndNxt then { p with state := .timeWait }.setTimewaitTimer env else p
  | _ => p

/-- What the ACK field does to a connection in transfer. -/
def ackTransfer : Except Pcb Pcb :=
  if !seqBetween seg.ack p.sndUna p.sndNxt && !seqBefore seg.ack p.sndUna && seqAfter seg.ack p.sndNxt then
    .error (p.outputAck env)
  else .ok ((p.ackWindow env seg).ackState env seg)

/-- The handshake is over. -/
def establish : Pcb :=
  let p := { p with state := .established }.ccInit env
  { p with sndWnd := p.peerWindow seg.wnd, sndWl1 := seg.seq, sndWl2 := seg.ack }.wake .writers

/-- Fifth, ACK. -/
def checkAck : Except Pcb Pcb :=
  if !seg.flg.ack then .error p
  else
    match p.state with
    | .synReceived =>
      if seqBetween seg.ack p.sndUna p.sndNxt then (p.establish env seg).ackTransfer env seg
      else .error (p.outputSegment seg.ack 0 flgRst 0 [])
    | .established | .finWait1 | .finWait2 | .closeWait | .closing => p.ackTransfer env seg
    | .lastAck => .error (if seg.ack = p.sndNxt then p.abort 0 else p)
    | .timeWait => .ok (if seg.flg.fin then p.setTimewaitTimer env else p)
    | .free | .closed | .listen | .synSent => .ok p

/-! ### Text -/

/-- What may be read. -/
def remain : ℕ := rcvBufSize - p.rcvWnd

/-- A copy to the buffer. -/
def fill (off : ℕ) (data : List UInt8) : Pcb :=
  { p with buf := put p.buf off data, copies := (off, data.length) :: p.copies }

/-- A segment behind a hole: it is kept if it is the first, or touches what is kept. -/
def stash : Pcb :=
  let off := (seg.seq - p.rcvNxt).toNat
  if off < p.rcvWnd then
    let keep := min seg.data.length (p.rcvWnd - off)
    let stop := seg.seq + BitVec.ofNat 32 keep
    let stopped := p.oooSeq + BitVec.ofNat 32 p.oooLen
    if p.oooLen = 0 then { p with oooSeq := seg.seq, oooLen := keep }.fill (p.remain + off) (seg.data.take keep)
    else if seqAfter seg.seq stopped = false ∧ seqBefore stop p.oooSeq = false then
      let start := if seqBefore seg.seq p.oooSeq then seg.seq else p.oooSeq
      let end' := if seqAfter stop stopped then stop else stopped
      { p with oooSeq := start, oooLen := (end' - start).toNat }.fill (p.remain + off) (seg.data.take keep)
    else p
  else p

/-- What of a segment that begins at the next byte or before comes next, if something does. -/
def trim : List UInt8 :=
  if seqBefore seg.seq p.rcvNxt then seg.data.drop (p.rcvNxt - seg.seq).toNat else seg.data

/-- The stash is taken over once the hole before it is filled. -/
def merge : Pcb × Bool :=
  let stopped := p.oooSeq + BitVec.ofNat 32 p.oooLen
  if p.oooLen = 0 then (p, false)
  else if !seqAfter stopped p.rcvNxt then ({ p with oooLen := 0 }, false)
  else if !seqAfter p.oooSeq p.rcvNxt then
    let delta := (stopped - p.rcvNxt).toNat
    ({ p with rcvNxt := p.rcvNxt + BitVec.ofNat 32 delta, rcvWnd := p.rcvWnd - delta, oooLen := 0 }, true)
  else (p, false)

/-- Bytes that come next. -/
def append (data : List UInt8) : Pcb :=
  let q := p.fill p.remain data
  { q with rcvNxt := q.rcvNxt + BitVec.ofNat 32 data.length, rcvWnd := q.rcvWnd - data.length }

/-- The delayed acknowledgment of bytes that have been taken. -/
def delayAck (merged : Bool) : Pcb :=
  let p := { p with delackCount := p.delackCount + 1 }
  if merged || delackSegs ≤ p.delackCount then
    { p with delackPending := false, delackCount := 0 }.outputAck env
  else if p.delackPending then p
  else { p with delackPending := true, delackTimer := env.now }

/-- Bytes that come next, if there are any. -/
def takeNext (data : List UInt8) : Pcb :=
  if data.length ≠ 0 then (p.append data).merge.1.delayAck env (p.append data).merge.2
  else { p with delackPending := false, delackCount := 0 }.outputAck env

/-- Seventh, the text. -/
def takeText : Pcb :=
  match p.state with
  | .established | .finWait1 | .finWait2 =>
    if seg.data.length = 0 then p
    else if seqAfter seg.seq p.rcvNxt then ((p.stash seg).takeNext env []).wake .readers
    else (p.takeNext env ((p.trim seg).take p.rcvWnd)).wake .readers
  | _ => p

/-- What a FIN does to the state. -/
def finState : Pcb :=
  match p.state with
  | .synReceived | .established => { p with state := .closeWait }
  | .finWait1 =>
    if seg.ack = p.sndNxt then { p with state := .timeWait }.setTimewaitTimer env else { p with state := .closing }
  | .finWait2 => { p with state := .timeWait }.setTimewaitTimer env
  | .timeWait => p.setTimewaitTimer env
  | _ => p

/-- Eighth, FIN. -/
def takeFin : Pcb :=
  if seg.flg.fin then
    match p.state with
    | .closed | .listen | .synSent => p
    | _ =>
      let finSeq := seg.seq + BitVec.ofNat 32 seg.data.length
      if finSeq ≠ p.rcvNxt then p.outputAck env
      else
        let p := { p with rcvNxt := finSeq + 1, oooLen := 0, delackPending := false, delackCount := 0 }.outputAck env
        (p.finState env seg).wake .readers
  else p

/-- `tcp_segment_arrives`, for a connection that is neither closed nor listening nor about to connect. -/
def arrivesOpened : Pcb :=
  let p := { p with idleStamp := env.now }
  let stages : Except Pcb Pcb := do
    let p ← p.checkSeq env seg
    let p ← p.checkRst seg
    let p ← p.checkSyn env seg
    p.checkAck env seg
  match stages with
  | .error p => p
  | .ok p => (p.takeText env seg).takeFin env seg

/-- `tcp_segment_arrives`, for a connection that is not listening. -/
def arrives : Pcb :=
  match p.state with
  | .closed => p
  | .synSent => { p with idleStamp := env.now }.arrivesSynSent env seg
  | _ => p.arrivesOpened env seg

/-! ### The timer -/

/-- The count of the attempts to shake hands. -/
def retried (e : QueueEntry) : QueueEntry :=
  { e with retries := e.retries + e.flg.syn.toNat }

/-- A segment that has been on the wire and is sent again stands for a loss. -/
def chargeLoss (e : QueueEntry) : Pcb :=
  if !e.txPending && e.data.length ≠ 0 && p.mss ≠ 0 then
    { p.ccLoss with cwnd := p.mss, fastRecovery := false, dupacks := 0 }
  else p

/-- `tcp_retransmit_queue_emit`, for the head of the queue. -/
def emit : Pcb :=
  match p.queue with
  | [] => p
  | e :: rest =>
    if retransmitDeadline ≤ env.now - e.first then
      { p.outputSegment p.sndUna p.rcvNxt flgRst 0 [] with state := .closed, closeReason := 2 }
    else if e.last + e.rto < env.now then
      if e.flg.syn ∧ synRetryMax ≤ (retried e).retries then
        { p with queue := retried e :: rest, state := .closed, closeReason := 2 }
      else
        ({ p with queue := retried e :: rest }.chargeLoss e).resend env fun ok e =>
          { e with
            last := env.now
            txPending := !ok
            rto := if !ok then txRetry else if e.txPending then defaultRto else e.rto * 2 }
    else p

/-- The zero-window probe. -/
def probe : Pcb :=
  if p.persistProbing ∧ (p.state = .established ∨ p.state = .closeWait) ∧ p.persistTimer < env.now then
    let p := p.outputSegment (p.sndUna - 1) p.rcvNxt flgAck (p.wireWindow flgAck) []
    let rto := min (p.persistRto * 2) persistRtoMax
    { p with persistRto := rto, persistTimer := env.now + rto }.wake .writers
  else p

/-- The delayed acknowledgment. -/
def flushAck : Pcb :=
  if p.delackPending ∧ (p.state = .established ∨ p.state = .closeWait) ∧ p.delackTimer + delackTimeout < env.now then
    { p with delackPending := false, delackCount := 0 }.outputAck env
  else p

/-- A connection that nobody will close any more. -/
def reapOrphan : Except Pcb Pcb :=
  if env.owned then .ok p
  else if p.state = .closed ∧ p.closeReason ≠ 0 then .error p.release
  else if (p.state = .finWait1 ∨ p.state = .finWait2 ∨ p.state = .closing ∨ p.state = .lastAck) ∧ p.queue = [] then
    if p.twTimer = 0 then .ok (p.setTimewaitTimer env)
    else if p.twTimer < env.now then .error p.release
    else .ok p
  else .ok p

/-- How long a connection may be silent. -/
def idleLimit : ℕ := if env.owned then idleTimeout else orphanIdleTimeout

/-- A connection that has been silent for too long. -/
def reapIdle : Except Pcb Pcb :=
  if (p.state = .established ∨ p.state = .closeWait) ∧ p.idleStamp + idleLimit env < env.now then
    .error ((p.outputSegment p.sndUna p.rcvNxt flgRst 0 []).abort 2)
  else .ok p

/-- The FIN that could not be queued. -/
def retryFin : Pcb :=
  if p.closeState.isSome ∧ (p.state = .synReceived ∨ p.state = .established ∨ p.state = .closeWait) ∧
      p.closeTimer < env.now then
    p.queueFin env
  else p

/-- `tcp_timer`, for one connection. -/
def timer : Pcb :=
  if p.state = .free then p
  else if p.state = .timeWait ∧ p.twTimer < env.now then p.release
  else
    match (do let p ← p.reapOrphan env; p.reapIdle env : Except Pcb Pcb) with
    | .error p => p
    | .ok p => (((p.retryFin env).emit env).probe env).flushAck env

/-! ### User calls -/

/-- `snd.nxt` moves over what has been queued. -/
def advance (n : ℕ) : Pcb := { p with sndNxt := p.sndNxt + BitVec.ofNat 32 n }

/-- The loop of `tcp_send`, with what has been sent so far. -/
def sendLoop (data : List UInt8) : ℕ → Pcb → ℕ → Pcb × ℕ
  | 0, p, sent => (p, sent)
  | k + 1, p, sent =>
    if sent < data.length then
      let cap := p.sendWindow - p.inflight
      if cap = 0 ∨ retransmitQueueMax ≤ p.queue.length then
        (if p.sndWnd = 0 then p.persistArm env else p, sent)
      else
        let slen := min (min p.mss (data.length - sent)) cap
        let p := p.persistDisarm
        let flg := if data.length ≤ sent + slen ∨ cap - slen < p.mss then flgPshAck else flgAck
        match p.output env flg ((data.drop sent).take slen) with
        | (p, .noQueue) => (p, sent)
        | (p, .deferred) => (p.advance slen, sent + slen)
        | (p, .wired) => sendLoop data k (p.advance slen) (sent + slen)
    else (p, sent)

/-- `tcp_send`. -/
def send (data : List UInt8) : Pcb × Except Errno ℕ :=
  match p.state with
  | .free => (p, .error .connReset)
  | .closed => (p, .error (if p.closeReason = 2 then .timedOut else .connReset))
  | .listen => (p, .error .pipe)
  | .synSent | .synReceived => (p, .error .again)
  | .established | .closeWait =>
    if env.mtu.isNone then (p, .error .io)
    else
      let (q, sent) := sendLoop env data (data.length + 1) p 0
      if sent = 0 ∧ data.length ≠ 0 then (q, .error .again)
      else (if 0 < sent then { q with idleStamp := env.now } else q, .ok sent)
  | .finWait1 | .finWait2 | .closing | .lastAck | .timeWait => (p, .error .pipe)

/-- The end of `tcp_receive`: the bytes, and everything behind them moves to the front. -/
def take (len : ℕ) : Pcb × List UInt8 :=
  let tail :=
    if p.oooLen ≠ 0 then p.remain + (p.oooSeq - p.rcvNxt).toNat + p.oooLen - len else p.remain - len
  let q := { p with
    buf := fun a => if a < tail then p.buf (a + len) else p.buf a
    rcvWnd := p.rcvWnd + len
    copies := (0, len) :: (len, tail) :: p.copies }
  (if q.rcvWnd ≠ p.rcvWnd then q.outputAck env else q, slice p.buf 0 len)

/-- `tcp_receive`. -/
def receive (size : ℕ) : Pcb × Except Errno (List UInt8) :=
  match p.state with
  | .free | .closed => (p, .error .connReset)
  | .listen | .synSent | .synReceived => (p, .error .again)
  | .established | .finWait1 | .finWait2 =>
    if p.remain = 0 then (p, .error .again)
    else let (q, l) := p.take env (min size p.remain); (q, .ok l)
  | .closeWait =>
    if p.remain = 0 then (p, .ok [])
    else let (q, l) := p.take env (min size p.remain); (q, .ok l)
  | .closing | .lastAck | .timeWait => (p, .ok [])

end Pcb

end EwokOS.Net
