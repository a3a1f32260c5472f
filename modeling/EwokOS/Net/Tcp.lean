import EwokOS.Schemes.Bytes
import Mathlib.Algebra.Ring.Int.Defs
import Mathlib.Algebra.Ring.Nat
import Mathlib.Logic.Basic

/-! One TCP connection (`tcp.c`).

    Sequence numbers are 32 bits and are compared by the sign of their difference. What goes out is kept, in
    order, until it is acknowledged; what comes in is put to its place in the buffer, of which the bytes
    before `rcv.nxt` are at the front and one later range, the stash, may be further back:

        sent       una ........ nxt                 queue = [una, nxt)
        received   |--- readable ---|   hole   |--- stash ---|        |
                   buf[0]        rcv.nxt      ooo_seq            rcv.nxt + wnd

    A function takes what lies outside of it, the clock, the device, the heap and the routes, as `Env`. -/

namespace EwokOS.Net

open Schemes

/-- `TCP_PCB_STATE_*` -/
inductive State where
  | free
  | closed
  | listen
  | synSent
  | synReceived
  | established
  | finWait1
  | finWait2
  | closing
  | timeWait
  | closeWait
  | lastAck
  deriving DecidableEq

structure Endpoint where
  addr : ℕ
  port : ℕ
  deriving DecidableEq

/-- `TCP_FLG_*`, less URG. -/
structure Flags where
  fin : Bool
  syn : Bool
  rst : Bool
  psh : Bool
  ack : Bool
  deriving DecidableEq

def flgAck : Flags := ⟨false, false, false, false, true⟩
def flgRst : Flags := ⟨false, false, true, false, false⟩
def flgRstAck : Flags := ⟨false, false, true, false, true⟩
def flgSyn : Flags := ⟨false, true, false, false, false⟩
def flgSynAck : Flags := ⟨false, true, false, false, true⟩
def flgFinAck : Flags := ⟨true, false, false, false, true⟩
def flgPshAck : Flags := ⟨false, false, false, true, true⟩

abbrev Seq := BitVec 32

/-- `tcp_seq_before`: the difference is negative. -/
def seqBefore (a b : Seq) : Bool := 2 ^ 31 ≤ (a - b).toNat

/-- `tcp_seq_after`. -/
def seqAfter (a b : Seq) : Bool := 0 < (a - b).toNat && (a - b).toNat < 2 ^ 31

/-- `tcp_seq_between`. -/
def seqBetween (seq first last : Seq) : Bool := !seqBefore seq first && !seqAfter seq last

/-- A segment as it arrives, with the window scale of its options if it has one. -/
structure Segment where
  seq : Seq
  ack : Seq
  flg : Flags
  wnd : ℕ
  wscale : Option ℕ
  data : List UInt8
  deriving DecidableEq

/-- `seg.len` -/
def Segment.len (s : Segment) : ℕ := (s.data.length + s.flg.syn.toNat + s.flg.fin.toNat) % 2 ^ 16

/-- A segment as it is handed to `ip_output`. -/
structure Out where
  seq : Seq
  ack : Seq
  flg : Flags
  wnd : ℕ
  data : List UInt8
  deriving DecidableEq

/-- `struct tcp_queue_entry`. -/
structure QueueEntry where
  seq : Seq
  flg : Flags
  data : List UInt8
  first : ℕ
  last : ℕ
  rto : ℕ
  txPending : Bool
  retries : ℕ
  deriving DecidableEq

/-- The number behind the last one that the entry takes. -/
def QueueEntry.stop (e : QueueEntry) : Seq :=
  e.seq + BitVec.ofNat 32 (e.data.length + e.flg.syn.toNat + e.flg.fin.toNat)

/-- The edges a connection raises for its socket. -/
inductive Wake where
  | readers
  | writers
  deriving DecidableEq

/-- `struct tcp_pcb`, all of which is in socket mode. -/
structure Pcb where
  state : State
  closeReason : ℕ
  here : Endpoint
  foreign : Endpoint
  sndNxt : Seq
  sndUna : Seq
  sndWnd : ℕ
  sndWl1 : Seq
  sndWl2 : Seq
  iss : Seq
  rcvNxt : Seq
  rcvWnd : ℕ
  irs : Seq
  mss : ℕ
  cwnd : ℕ
  ssthresh : ℕ
  caAcked : ℕ
  recover : Seq
  fastRecovery : Bool
  buf : ℕ → UInt8
  queue : List QueueEntry
  /-- In microseconds, as every time. -/
  twTimer : ℕ
  closeTimer : ℕ
  /-- `close_state`, if it is set. -/
  closeState : Option State
  persistTimer : ℕ
  persistRto : ℕ
  persistProbing : Bool
  idleStamp : ℕ
  delackPending : Bool
  delackCount : ℕ
  delackTimer : ℕ
  dupacks : ℕ
  peerWscale : ℕ
  wsoptOk : Bool
  oooSeq : Seq
  oooLen : ℕ
  parent : Option ℕ
  backlog : List ℕ
  /-- What has been handed to `ip_output`. Nothing reads it. -/
  out : List Out
  /-- The edges that have been raised. Nothing reads it here. -/
  wakes : List Wake
  /-- Where the buffer has been read and written, with the lengths. Nothing reads it. -/
  copies : List (ℕ × ℕ)

/-- The clock, whether the device takes the next segment, whether the heap has room for the next entry, the
    frame size towards the peer, and whether a socket owns the connection. -/
structure Env where
  now : ℕ
  wire : ℕ → Bool
  alloc : ℕ → Bool
  mtu : Option ℕ
  owned : Bool

/-- `TCP_RCV_BUF_SIZE` -/
def rcvBufSize : ℕ := 262144

/-- `TCP_DEFAULT_RTO` -/
def defaultRto : ℕ := 200000

/-- `TCP_TX_RETRY` -/
def txRetry : ℕ := 1000

/-- `TCP_RETRANSMIT_DEADLINE`, in microseconds. -/
def retransmitDeadline : ℕ := 60000000

/-- `TCP_TIMEWAIT_SEC`, in microseconds. -/
def timewait : ℕ := 30000000

/-- `TCP_RETRANSMIT_QUEUE_MAX` -/
def retransmitQueueMax : ℕ := 512

/-- `TCP_PERSIST_RTO_MAX` -/
def persistRtoMax : ℕ := 60000000

/-- `TCP_DELACK_TIMEOUT_USEC` -/
def delackTimeout : ℕ := 40000

/-- `TCP_DELACK_SEGS` -/
def delackSegs : ℕ := 2

/-- `TCP_IDLE_TIMEOUT_SECS`, in microseconds. -/
def idleTimeout : ℕ := 180000000

/-- `TCP_ORPHAN_IDLE_TIMEOUT_SECS`, in microseconds. -/
def orphanIdleTimeout : ℕ := 60000000

/-- `TCP_SYN_RETRY_MAX` -/
def synRetryMax : ℕ := 6

/-- `TCP_RCV_WSCALE` -/
def rcvWscale : ℕ := 3

/-- A slot as `tcp_pcb_alloc` hands it out: everything is zero but the state and the time. -/
def Pcb.fresh (now : ℕ) : Pcb where
  state := .closed
  closeReason := 0
  here := ⟨0, 0⟩
  foreign := ⟨0, 0⟩
  sndNxt := 0
  sndUna := 0
  sndWnd := 0
  sndWl1 := 0
  sndWl2 := 0
  iss := 0
  rcvNxt := 0
  rcvWnd := 0
  irs := 0
  mss := 0
  cwnd := 0
  ssthresh := 0
  caAcked := 0
  recover := 0
  fastRecovery := false
  buf := fun _ => 0
  queue := []
  twTimer := 0
  closeTimer := 0
  closeState := none
  persistTimer := 0
  persistRto := 0
  persistProbing := false
  idleStamp := now
  delackPending := false
  delackCount := 0
  delackTimer := 0
  dupacks := 0
  peerWscale := 0
  wsoptOk := false
  oooSeq := 0
  oooLen := 0
  parent := none
  backlog := []
  out := []
  wakes := []
  copies := []

/-- What an `errno` can be. -/
inductive Errno where
  | again
  | connReset
  | timedOut
  | pipe
  | io
  deriving DecidableEq

namespace Pcb
variable (p : Pcb) (env : Env)

/-! ### Windows -/

/-- `tcp_send_window`. -/
def sendWindow : ℕ := min p.sndWnd p.cwnd

def inflight : ℕ := (p.sndNxt - p.sndUna).toNat

/-- `tcp_peer_window`. -/
def peerWindow (wnd : ℕ) : ℕ := if p.wsoptOk then wnd * 2 ^ p.peerWscale else wnd

/-- `tcp_wire_window`. -/
def wireWindow (flg : Flags) : ℕ :=
  min (if !flg.syn && p.wsoptOk then p.rcvWnd / 2 ^ rcvWscale else p.rcvWnd) 0xffff

/-- The test that `tcp_writable` makes of a connection in transfer. -/
def canSend : Bool := p.inflight < p.sendWindow && p.queue.length < retransmitQueueMax

/-! ### Output -/

def wake (w : Wake) : Pcb := { p with wakes := p.wakes ++ [w] }

/-- `tcp_output_segment`. -/
def outputSegment (seq ack : Seq) (flg : Flags) (wnd : ℕ) (data : List UInt8) : Pcb :=
  { p with out := p.out ++ [⟨seq, ack, flg, wnd, data⟩] }

/-- Whether the next segment reaches the device. -/
def wired : Bool := env.wire p.out.length

/-- What `tcp_output` returns. -/
inductive Result where
  | wired
  | deferred
  | noQueue
  deriving DecidableEq

/-- `tcp_retransmit_queue_add`: there is room for one more. -/
def queueRoom : Bool := p.queue.length < retransmitQueueMax && env.alloc p.queue.length

/-- `tcp_output`. An entry is kept with what the attempt to send it gave. -/
def output (flg : Flags) (data : List UInt8) : Pcb × Result :=
  let seq := if flg.syn then p.iss else p.sndNxt
  let ok := p.wired env
  let res := if ok then Result.wired else .deferred
  if flg.syn || flg.fin || data.length ≠ 0 then
    if p.queueRoom env then
      let e : QueueEntry := ⟨seq, flg, data, env.now, env.now, if ok then defaultRto else txRetry, !ok, 0⟩
      ({ p with queue := p.queue ++ [e] }.outputSegment seq p.rcvNxt flg (p.wireWindow flg) data, res)
    else (p, .noQueue)
  else (p.outputSegment seq p.rcvNxt flg (p.wireWindow flg) data, res)

/-- A bare acknowledgment. -/
def outputAck : Pcb := (p.output env flgAck []).1

/-- `tcp_retransmit_queue_cleanup`. -/
def queueCleanup : Pcb := { p with queue := p.queue.dropWhile fun e => !seqAfter e.stop p.sndUna }

/-- The head is sent again, with the timer `f` gives it. -/
def resend (f : Bool → QueueEntry → QueueEntry) : Pcb :=
  match p.queue with
  | [] => p
  | e :: rest =>
    { p with queue := f (p.wired env) e :: rest }.outputSegment e.seq p.rcvNxt e.flg (p.wireWindow e.flg) e.data

/-- `tcp_retransmit_head`. -/
def retransmitHead : Pcb :=
  p.resend env fun ok e => { e with last := env.now, txPending := !ok, rto := if ok then defaultRto else txRetry }

/-- `tcp_persist_arm`. -/
def persistArm : Pcb :=
  if p.persistProbing then p
  else { p with persistProbing := true, persistRto := defaultRto, persistTimer := env.now + defaultRto }

/-- `tcp_persist_disarm`. -/
def persistDisarm : Pcb := { p with persistProbing := false }

/-- `tcp_set_timewait_timer`. -/
def setTimewaitTimer : Pcb := { p with twTimer := env.now + timewait }

/-- The part of `tcp_pcb_release` that is about the connection itself. -/
def release : Pcb :=
  { (p.wake .readers).wake .writers with parent := none, persistProbing := false, queue := [], backlog := [], state := .free }

/-- Closed for a reason, and released. -/
def abort (reason : ℕ) : Pcb := { p with closeReason := reason }.release

/-! ### Congestion -/

/-- `tcp_cc_init`. -/
def ccInit : Pcb :=
  let mss := (env.mtu.map fun m => (m + 2 ^ 16 - 40) % 2 ^ 16).getD 536
  { p with
    mss := mss
    cwnd := min (10 * mss) (max (2 * mss) 14600)
    ssthresh := retransmitQueueMax * mss
    recover := p.sndUna
    fastRecovery := false
    caAcked := 0
    dupacks := 0 }

/-- `tcp_cc_loss`. -/
def ccLoss : Pcb :=
  { p with ssthresh := max (p.inflight / 2) (2 * p.mss), caAcked := 0, recover := p.sndNxt }

/-- `tcp_cc_ack`. -/
def ccAck (acked : ℕ) : Pcb :=
  let p := { p with dupacks := 0 }
  if p.fastRecovery then
    if seqBefore p.sndUna p.recover then
      let cwnd := max (p.cwnd - acked) p.mss + if p.mss ≤ acked then p.mss else 0
      { p with cwnd := cwnd }.retransmitHead env
    else { p with fastRecovery := false, cwnd := min p.ssthresh (max p.inflight p.mss + p.mss) }
  else if p.cwnd < p.ssthresh then
    { p with cwnd := min (retransmitQueueMax * p.mss) (p.cwnd + min acked p.mss) }
  else
    let credit := p.caAcked + min acked p.mss
    if p.cwnd ≤ credit then
      { p with caAcked := credit - p.cwnd, cwnd := min (retransmitQueueMax * p.mss) (p.cwnd + p.mss) }
    else { p with caAcked := credit }

/-! ### Closing -/

/-- `tcp_queue_fin`. -/
def queueFin : Pcb :=
  match p.closeState with
  | none => p
  | some next =>
    let next := if p.state = .closeWait then .lastAck else next
    match p.output env flgFinAck [] with
    | (_, .noQueue) => { p with closeTimer := env.now + defaultRto }
    | (q, _) => { q with sndNxt := q.sndNxt + 1, state := next, closeState := none, closeTimer := 0 }

/-- `tcp_close`. -/
def close : Pcb :=
  match p.state with
  | .closed => p.release
  | .listen => p.abort 0
  | .synSent => (p.outputSegment p.sndNxt p.rcvNxt flgRstAck 0 []).abort 0
  | .synReceived | .established => { p with closeState := some .finWait1 }.queueFin env
  | .closeWait => { p with closeState := some .lastAck }.queueFin env
  | .free | .finWait1 | .finWait2 | .closing | .lastAck | .timeWait => p

end Pcb

end EwokOS.Net
