import EwokOS.Schemes.Bytes
import Mathlib.Algebra.Ring.Int.Defs
import Mathlib.Algebra.Ring.Nat
import Mathlib.Logic.Basic

/-! Fragments of IP datagrams (`ip.c`).

    `ip_output` cuts a payload that does not fit into a frame at multiples of eight bytes; `ip_frag_input`
    keeps the pieces in a table, under the addresses, the protocol and the id, until they cover the payload
    from the first byte to the end that the last fragment names:

        payload   |---- 0 ----|---- fp ----|---- 2fp ----|- last -|
        field       0 MF        fp/8 MF      2fp/8 MF      3fp/8

    A packet is a header and what came behind it, which for a short frame is more than the header's total
    says. -/

namespace EwokOS.Net

open Schemes

/-- `struct ip_hdr`, less what changes from one fragment to the next and what nothing looks at. -/
structure Header where
  version : ℕ
  /-- The low half of `vhl`, in bytes. -/
  hlen : ℕ
  id : ℕ
  protocol : ℕ
  src : ℕ
  dst : ℕ
  deriving DecidableEq

structure Packet where
  hdr : Header
  total : ℕ
  /-- The flags and the offset. -/
  field : ℕ
  /-- The checksum of the header is right. -/
  sumOk : Bool
  /-- Everything behind the header, as it came from the link. -/
  body : List UInt8
  deriving DecidableEq

/-! ### Sending -/

/-- `IP_HDR_SIZE_MIN` -/
def hdrSizeMin : ℕ := 20

/-- A call of `ip_output`, once the route has given the addresses and the frame size. The value of `id` is
    that of a variable which has not been set when the datagram is cut. -/
structure Send where
  protocol : ℕ
  data : List UInt8
  src : ℕ
  dst : ℕ
  mtu : ℕ
  id : ℕ
  deriving DecidableEq

namespace Send
variable (d : Send)

/-- The payload of a fragment. -/
def fragPayload : ℕ := (d.mtu - hdrSizeMin) / 8 * 8

/-- The values of `off` in the loop, from one on. -/
def offsFrom : ℕ → ℕ → List ℕ
  | 0, _ => []
  | k + 1, off => if off < d.data.length then off :: offsFrom k (off + d.fragPayload) else []

def hdr : Header := ⟨4, hdrSizeMin, d.id, d.protocol, d.src, d.dst⟩

/-- `ip_output_core`. -/
def core (data : List UInt8) (field : ℕ) : Packet :=
  ⟨d.hdr, (hdrSizeMin + data.length) % 2 ^ 16, field, true, data⟩

/-- The body of the loop. -/
def fragment (off : ℕ) : Packet :=
  let chunk := (d.data.drop off).take d.fragPayload
  d.core chunk ((off / 8 ||| if off + chunk.length < d.data.length then 0x2000 else 0) % 2 ^ 16)

/-- `ip_output`: the packets it hands to the device, if it can. -/
def output : Option (List Packet) :=
  if d.mtu < hdrSizeMin + d.data.length then
    if d.mtu < hdrSizeMin + 8 then none else some ((d.offsFrom d.data.length 0).map d.fragment)
  else some [d.core d.data 0]

end Send

/-! ### Receiving -/

/-- `struct ip_frag_piece`. -/
structure Piece where
  off : ℕ
  data : List UInt8
  deriving DecidableEq

/-- What a datagram is known by. -/
structure Key where
  src : ℕ
  dst : ℕ
  id : ℕ
  protocol : ℕ
  deriving DecidableEq

def Header.key (h : Header) : Key := ⟨h.src, h.dst, h.id, h.protocol⟩

/-- `struct ip_frag`. -/
structure Entry where
  key : Key
  hdr : Header
  /-- `have_first` -/
  first : Bool
  /-- `total_payload` -/
  total : ℕ
  pieces : List Piece
  /-- In microseconds. -/
  stamp : ℕ
  /-- Which datagram the fragment that began the entry is of. Nothing reads it. -/
  origin : ℕ
  deriving DecidableEq

/-- What `memory_alloc` has for the entry, the piece and the datagram. -/
structure Memory where
  entry : Bool
  piece : Bool
  whole : Bool
  deriving DecidableEq

/-- `IP_FRAG_TIMEOUT_SECS`, in microseconds. -/
def fragTimeout : ℕ := 30000000

/-- `IP_FRAG_ENTRIES_MAX` -/
def fragEntriesMax : ℕ := 64

/-- `IP_TOTAL_SIZE_MAX` -/
def totalSizeMax : ℕ := 65535

def Entry.expired (now : ℕ) (e : Entry) : Bool := fragTimeout ≤ now - e.stamp

/-- `ip_frag_reap_expired`. -/
def reapExpired (now : ℕ) (l : List Entry) : List Entry := l.filter fun e => !e.expired now

/-- The first part of `ip_frag_table_alloc`: what has expired goes, and the oldest if the table is full. -/
def makeRoom (now : ℕ) (l : List Entry) : List Entry :=
  let l := reapExpired now l
  if fragEntriesMax ≤ l.length then l.dropLast else l

/-- A write to the entry of the key. -/
def update (k : Key) (f : Entry → Entry) : List Entry → List Entry
  | [] => []
  | e :: l => if e.key = k then f e :: l else e :: update k f l

/-- `ip_frag_table_find`. -/
def tableFind (k : Key) (l : List Entry) : Option Entry := l.find? fun e => e.key = k

namespace Entry

/-- Before the first piece that does not begin earlier. -/
def insert (p : Piece) : List Piece → List Piece
  | [] => [p]
  | q :: l => if q.off < p.off then q :: insert p l else p :: q :: l

/-- `ip_frag_piece_add`. -/
def pieceAdd (f : Entry) (p : Piece) (now : ℕ) : Entry :=
  { f with first := f.first || p.off = 0, pieces := insert p f.pieces, stamp := now }

/-- The loop of `ip_frag_complete`. -/
def covers (total : ℕ) : ℕ → List Piece → Bool
  | _, [] => false
  | cursor, p :: l =>
    if cursor < p.off then false
    else
      let cursor := max cursor (p.off + p.data.length)
      if total ≤ cursor then true else covers total cursor l

/-- `ip_frag_complete`. -/
def complete (f : Entry) : Bool := f.first && f.total ≠ 0 && covers f.total 0 f.pieces

/-- A copy of `ip_frag_build`: where to, from which piece, and up to where. -/
structure Copy where
  start : ℕ
  piece : Piece
  stop : ℕ

/-- The copies, in order. -/
def copies (total : ℕ) : ℕ → List Piece → List Copy
  | _, [] => []
  | filled, p :: l =>
    let s := max p.off filled
    let e := min (p.off + p.data.length) total
    if s < e then ⟨s, p, e⟩ :: copies total e l else copies total filled l

def Copy.bytes (c : Copy) : List UInt8 := (c.piece.data.drop (c.start - c.piece.off)).take (c.stop - c.start)

/-- `ip_frag_build`: what is handed back to `ip_input`. -/
def build (f : Entry) : Packet :=
  let buf := (copies f.total 0 f.pieces).foldl (fun m c => put m c.start c.bytes) fun _ => 0
  ⟨f.hdr, (f.hdr.hlen + f.total) % 2 ^ 16, 0, true, slice buf 0 f.total⟩

end Entry

namespace Packet
variable (p : Packet)

def len : ℕ := p.hdr.hlen + p.body.length

def off : ℕ := p.field % 0x2000 * 8

/-- `plen`: up to the end of what came from the link. -/
def plen : ℕ := p.body.length % 2 ^ 16

def isLast : Bool := p.field / 0x2000 % 2 = 0

/-- The piece it brings. -/
def piece : Piece := ⟨p.off, p.body.take p.plen⟩

/-- What `ip_frag_input` writes to the entry before it adds the piece. -/
def note (f : Entry) : Entry :=
  { f with
    hdr := if p.off = 0 then p.hdr else f.hdr
    total := if p.isLast then (p.off + p.plen) % 2 ^ 16 else f.total }

/-- The checks of `ip_input`. -/
def valid : Bool :=
  hdrSizeMin ≤ p.len && p.hdr.version = 4 && hdrSizeMin ≤ p.hdr.hlen && p.hdr.hlen ≤ p.total && p.total ≤ p.len &&
    p.sumOk

/-- More fragments follow, or some come before. -/
def isFragment : Bool := p.field % 0x4000 ≠ 0

end Packet

/-- The end of `ip_frag_input`, for the entry that has been found or made. -/
def queue (l : List Entry) (p : Packet) (now : ℕ) (mem : Memory) (f : Entry) : List Entry × Option Packet :=
  let k := p.hdr.key
  let f := p.note f
  if mem.piece then
    let f := f.pieceAdd p.piece now
    if f.complete then (l.eraseP fun e => e.key = k, if mem.whole then some f.build else none)
    else (update k (fun _ => f) l, none)
  else (update k (fun _ => f) l, none)

/-- `ip_frag_input`. -/
def fragInput (l : List Entry) (p : Packet) (now origin : ℕ) (mem : Memory) : List Entry × Option Packet :=
  let k := p.hdr.key
  if totalSizeMax - p.hdr.hlen < p.off + p.plen then (l, none)
  else
    match tableFind k l with
    | some f => queue l p now mem { f with stamp := now }
    | none =>
      let l := makeRoom now l
      if mem.entry then
        let f : Entry := ⟨k, ⟨0, 0, 0, 0, 0, 0⟩, false, 0, [], now, origin⟩
        queue (f :: l) p now mem f
      else (l, none)

/-! ### Runs -/

/-- A packet that arrives, of which datagram it is a fragment of if it is of one, or the sweep of the
    timer. -/
inductive Event where
  | arrive (p : Packet) (origin now : ℕ) (mem : Memory)
  | sweep (now : ℕ)

/-- The table, and what has arrived and been handed back so far. -/
structure Host where
  table : List Entry
  seen : List (ℕ × Packet)
  back : List (ℕ × Packet)

/-- The entry that a packet belongs to was begun for this datagram. -/
def Host.begun (s : Host) (k : Key) (origin : ℕ) : ℕ := ((tableFind k s.table).map Entry.origin).getD origin

/-- `ip_input` and the sweep. -/
def Host.step (s : Host) : Event → Option Host
  | .sweep now => some { s with table := reapExpired now s.table }
  | .arrive p origin now mem =>
    let s' := { s with seen := (origin, p) :: s.seen }
    if p.valid && p.isFragment then
      let (l, w) := fragInput s.table p now origin mem
      some { s' with table := l, back := (w.map fun w => (s.begun p.hdr.key origin, w)).toList ++ s.back }
    else some s'

def Host.init : Host := ⟨[], [], []⟩

end EwokOS.Net
