import EwokOS.Schemes.Bytes
import EwokOS.Schemes.Run
import Mathlib.Algebra.Ring.Int.Defs
import Mathlib.Algebra.Ring.Nat

/-! The messages of the system's IPC (`proto.c`).

    A message is a row of items, each behind its length and padded to four bytes:

        | length | bytes .. pad | length | bytes .. pad | ...
        ^ 0                     ^ multiple of 4          ^ size

    It is built in the buffer of the `proto_t`, in memory that grows, or in a buffer that was handed in;
    and it is read by an offset that every read moves on. What an `int` of the code holds is kept as the
    number of 32 bits it is. -/

namespace EwokOS.Libc

open Schemes

/-- `PROTO_BUFFER` -/
def protoBuffer : ℕ := 512

/-- `ALIGN_UP(n, 4)`, in 32 bits. -/
def alignUp (n : ℕ) : ℕ := (n + 3) % 2 ^ 32 / 4 * 4

/-- The `int32_t` of these 32 bits. -/
def toInt32 (u : ℕ) : ℤ := if u < 2 ^ 31 then u else (u : ℤ) - 2 ^ 32

/-- `proto_t`. Of the memory that `data` points to, `cap` bytes may be touched: none, if it is `NULL`. -/
structure Proto where
  mem : ℕ → UInt8
  cap : ℕ
  size : ℕ
  total : ℕ
  offset : ℕ
  /-- `pre_alloc` -/
  pre : Bool

namespace Proto

/-! ### Building -/

/-- `proto_init`. -/
def init (buffer : ℕ → UInt8) : Proto := ⟨buffer, protoBuffer, 0, protoBuffer, 0, false⟩

/-- `proto_init_data`, over a buffer. -/
def initData (data : ℕ → UInt8) (size : ℕ) : Proto := ⟨data, size, size, size, 0, true⟩

/-- `proto_reserve`. -/
def reserve (buffer : ℕ → UInt8) (size : ℕ) (alloc : Option (ℕ → UInt8)) : Proto :=
  if size ≤ protoBuffer then init buffer
  else
    match alloc with
    | none => ⟨buffer, 0, 0, size, 0, false⟩
    | some fresh => ⟨fresh, size, 0, size, 0, false⟩

variable (s : Proto)

/-- The memory of the message is replaced by another, of so many bytes. -/
def grow (fresh : ℕ → UInt8) (room : ℕ) : Proto :=
  { s with mem := put fresh 0 (slice s.mem 0 s.size), cap := room, total := room }

/-- The copies at the end of `proto_add`; nothing, if they go past the end of the memory. -/
def store (item : List UInt8) : Option Proto :=
  if s.size + 4 + item.length ≤ s.cap then
    some { s with
      mem := put (put s.mem s.size (leBytes 4 item.length)) (s.size + 4) item
      size := (s.size + (alignUp item.length + 4)) % 2 ^ 32 }
  else none

/-- The new size that `proto_add` computes. -/
def need (item : List UInt8) : ℕ := (s.size + alignUp item.length + 4) % 2 ^ 32

/-- `proto_add`, where `alloc` says what `malloc` or `realloc` gives. -/
def add (item : List UInt8) (alloc : Option (ℕ → UInt8)) : Option Proto :=
  if s.total < s.need item then
    if s.pre then some s
    else
      match alloc with
      | none => some s
      | some fresh => (s.grow fresh ((s.need item + protoBuffer) % 2 ^ 32)).store item
  else s.store item

/-! ### Reading -/

/-- Nothing is left to be read. -/
def Absent : Prop := s.cap = 0 ∨ s.size ≤ s.offset

instance : Decidable s.Absent := inferInstanceAs (Decidable (_ ∨ _))

/-- The length that stands where the next item begins. -/
def length : ℕ := ofLe (slice s.mem s.offset 4)

/-- `proto_read`: where the item is, or `NULL`, and its size. -/
def read : Proto × Option ℕ × ℤ :=
  if s.Absent then (s, none, 0)
  else
    ({ s with offset := (s.offset + (4 + alignUp s.length)) % 2 ^ 32 },
      if s.length = 0 then none else some (s.offset + 4), toInt32 s.length)

/-- The readers of numbers: so many bytes from where the item is. -/
def readWord (k : ℕ) : Proto × ℕ :=
  match s.read with
  | (t, none, _) => (t, 0)
  | (t, some p, _) => (t, ofLe (slice s.mem p k))

/-- `proto_read_int`. -/
def readInt : Proto × ℕ := s.readWord 4

/-- `proto_read_int64`. -/
def readInt64 : Proto × ℕ := s.readWord 8

/-- `proto_read_addr`, for addresses of so many bytes. -/
def readAddr (aw : ℕ) : Proto × ℕ := s.readWord aw

/-- What is copied by `proto_read_to`, into a buffer of size `n`. Nothing stops a negative size, which `memcpy` takes as
    a `size_t` of `aw` bytes. -/
def readTo (aw n : ℕ) : Proto × List UInt8 :=
  match s.read with
  | (t, none, _) => (t, [])
  | (t, some p, sz) => (t, slice s.mem p ((if (n : ℤ) < sz then (n : ℤ) else sz) % 2 ^ (8 * aw)).toNat)

/-- The string at an address, of which so many bytes are looked at. -/
def cString (mem : ℕ → UInt8) : ℕ → ℕ → List UInt8
  | _, 0 => []
  | p, k + 1 => if mem p = 0 then [] else mem p :: cString mem (p + 1) k

/-- `proto_read_str`, and the string the pointer stands for. -/
def readStr : Proto × List UInt8 :=
  match s.read with
  | (t, none, _) => (t, [])
  | (t, some p, _) => (t, cString s.mem p (s.size - p))

end Proto

/-! ### Items -/

/-- What is added to a message, with addresses of `aw` bytes. -/
inductive Item (aw : ℕ) where
  | raw (bytes : List UInt8)
  | int (v : BitVec 32)
  | int64 (v : BitVec 64)
  | addr (v : BitVec (8 * aw))
  /-- A string has no `NUL` inside. -/
  | str (text : { l : List UInt8 // 0 ∉ l })
  deriving DecidableEq

namespace Item
variable {aw : ℕ}

/-- What the add calls hand on to `proto_add`. -/
def bytes : Item aw → List UInt8
  | .raw l => l
  | .int v => leBytes 4 v.toNat
  | .int64 v => leBytes 8 v.toNat
  | .addr v => leBytes aw v.toNat
  | .str l => l.1 ++ [0]

/-- The read that matches the add, and what it yields. -/
def readBack (s : Proto) : Item aw → Proto × Option (Item aw)
  | .raw _ =>
    match s.read with
    | (t, none, _) => (t, some (.raw []))
    | (t, some p, sz) => (t, some (.raw (slice s.mem p sz.toNat)))
  | .int _ => (s.readInt.1, some (.int (BitVec.ofNat 32 s.readInt.2)))
  | .int64 _ => (s.readInt64.1, some (.int64 (BitVec.ofNat 64 s.readInt64.2)))
  | .addr _ => ((s.readAddr aw).1, some (.addr (BitVec.ofNat (8 * aw) (s.readAddr aw).2)))
  | .str _ => (s.readStr.1, if h : 0 ∉ s.readStr.2 then some (.str ⟨s.readStr.2, h⟩) else none)

/-- Reading back one after the other. -/
def readAll (s : Proto) : List (Item aw) → Proto × List (Option (Item aw))
  | [] => (s, [])
  | i :: l =>
    let (t, v) := i.readBack s
    let (u, vs) := readAll t l
    (u, v :: vs)

end Item

/-- A call of one of the add functions, and what the allocation would give. -/
structure Add (aw : ℕ) where
  item : Item aw
  alloc : Option (ℕ → UInt8)

/-- A run of add calls. -/
def Proto.adds {aw : ℕ} : Proto → List (Add aw) → Option Proto
  | s, [] => some s
  | s, a :: l => (s.add a.item.bytes a.alloc).bind fun t => t.adds l

/-! ### Calls on a received message -/

inductive Call where
  | read
  | readTo (n : ℕ)
  | readInt
  | readStr

namespace Proto
variable (s : Proto)

/-- What the call looks at lies inside the message: the length, and the slice it gives. -/
def Inside (c : Call) : Prop :=
  s.Absent ∨ (s.offset + 4 ≤ s.size ∧ (s.length ≠ 0 →
    match c with
    | .read => 0 ≤ toInt32 s.length ∧ (s.offset : ℤ) + 4 + toInt32 s.length ≤ s.size
    | .readTo n => 0 ≤ min (toInt32 s.length) n ∧ (s.offset : ℤ) + 4 + min (toInt32 s.length) n ≤ s.size
    | .readInt => s.offset + 4 + 4 ≤ s.size
    | .readStr => ∃ a, s.offset + 4 ≤ a ∧ a < s.size ∧ s.mem a = 0))

/-- Every call moves on in the same way. -/
def after : Proto := s.read.1

/-- After so many calls. -/
def skip : Proto → ℕ → Proto
  | s, 0 => s
  | s, k + 1 => skip s.after k

end Proto

end EwokOS.Libc
