import EwokOS.Libc.Codec

/-! Reads and writes of devices (`vdevice.c`, `devcmd.c`).

    A client has its bytes carried in the messages, or in a segment of shared memory that it names:

        dev_read ── fd, node, size, offset, -1, info ──▶ do_read ──▶ [ buffer or malloc ]
                 ◀── rd, bytes ──
        dev_read ── fd, node, size, offset, id, info ──▶ do_read ──▶ [ segment id ]
                 ◀── rd ──

    The server takes the size and the segment from the request as they are, and the client takes the count
    from the reply. Each function is cut where the other side is heard: what the server hands to its driver
    and answers to a message, and what the client makes of an answer. -/

namespace EwokOS.Libc.Transfer

open Schemes Proto

/-- `READ_BUF_SIZE` -/
def readBufSize : ℕ := 32

def shmOn : ℕ := 256
def shmMax : ℕ := 1024 * 256

/-- `MAX_OPEN_FILE_PER_PROC` -/
def maxOpenFile : ℕ := 128

/-- `VFS_ERR_RETRY` -/
def vfsErrRetry : ℤ := -128

/-- `sizeof(fsinfo_t)`, with addresses of so many bytes. -/
def fsinfoSize (aw : ℕ) : ℕ := if aw = 8 then 136 else 112

/-- The `uint32_t` of an `int`. -/
def word (x : ℤ) : ℕ := (x % 2 ^ 32).toNat

/-! ### The server -/

/-- A buffer of so many bytes, and the size that is passed with it. -/
structure Handed where
  room : ℕ
  size : ℤ
  deriving DecidableEq, Repr

def Handed.Fits (h : Handed) : Prop := 0 ≤ h.size ∧ h.size ≤ h.room

/-- What the server runs on, and its driver. `malloc` and `attach` say how many bytes there are at the pointer they
    give; `fetch` is `dev_fetch_file_seeded`. A callback that reads gives its count and the bytes it has put into the
    buffer; one that writes, its count and the file. -/
structure Server where
  malloc : ℕ → Option ℕ
  attach : ℤ → Option ℕ
  fetch : ℕ → ℕ → List UInt8 → Option (List UInt8)
  errno : BitVec 32
  read : Option (ℕ → List UInt8 → ℤ → ℕ → BitVec 32 × List UInt8)
  write : Option (ℕ → List UInt8 → List UInt8 → ℤ → ℕ → BitVec 32 × List UInt8)
  readBlock : Option (ℤ → ℤ → BitVec 32 × List UInt8)

structure ReadReq where
  fd : ℕ
  node : ℕ
  size : ℤ
  offset : ℕ
  shm : ℤ
  /-- What is copied over `seed_info`. -/
  info : List UInt8

/-- The fields of `FS_CMD_READ`, as `do_read` reads them. -/
def readReq (aw : ℕ) (s : Proto) : ReadReq :=
  let (s, fd) := s.readInt
  let (s, node) := s.readInt
  let (s, size) := s.readInt
  let (s, offset) := s.readInt64
  let (s, shm) := s.readInt
  let (_, info) := s.readTo aw (fsinfoSize aw)
  ⟨fd, node, toInt32 size, offset, toInt32 shm, info⟩

structure WriteReq where
  fd : ℕ
  node : ℕ
  offset : ℕ
  shm : ℤ
  info : List UInt8
  /-- The message behind these fields. -/
  rest : Proto

/-- The fields of `FS_CMD_WRITE`, as `do_write` reads them. -/
def writeReq (aw : ℕ) (s : Proto) : WriteReq :=
  let (s, fd) := s.readInt
  let (s, node) := s.readInt
  let (s, offset) := s.readInt64
  let (s, shm) := s.readInt
  let (s, info) := s.readTo aw (fsinfoSize aw)
  ⟨fd, node, offset, toInt32 shm, info, s⟩

structure BlockReq where
  size : ℤ
  index : ℤ
  shm : ℤ

/-- The fields of `FS_CMD_READ_BLOCK`, as `do_read_block` reads them. -/
def blockReq (s : Proto) : BlockReq :=
  let (s, size) := s.readInt
  let (s, index) := s.readInt
  let (_, shm) := s.readInt
  ⟨toInt32 size, toInt32 index, toInt32 shm⟩

/-- What a request comes to: what the driver is handed, the bytes that are there for it, what goes into the reply, and
    the segment. -/
structure Served (aw : ℕ) where
  handed : Option Handed
  data : List UInt8
  out : List (Item aw)
  seg : ℕ → UInt8

/-- The copy over `seed_info` has run to the end of the server's stack: nothing is handed over, or answered. -/
def Served.lost (aw : ℕ) (seg : ℕ → UInt8) : Served aw := ⟨none, [], [], seg⟩

namespace Server
variable (sv : Server) (aw : ℕ)

/-- `shm_cache_get`. -/
def shmCacheGet (id : ℤ) : Option ℕ := if id ≤ 0 then none else sv.attach id

/-- The buffer of `do_read`. -/
def readBuffer (shm size : ℤ) : Option ℕ :=
  if shm = -1 then
    if readBufSize < size then sv.malloc size.toNat else some readBufSize
  else sv.shmCacheGet shm

/-- The buffer of `do_read_block`. -/
def blockBuffer (shm size : ℤ) : Option ℕ :=
  if shm = -1 then sv.malloc (size % 2 ^ (8 * aw)).toNat else sv.attach shm

/-- The buffer of `do_write` and the size that goes with it, and the bytes that are there. -/
def writeBuffer (q : WriteReq) (seg : ℕ → UInt8) : Option (Handed × List UInt8) :=
  if q.shm = -1 then
    match q.rest.read with
    | (_, none, _) => none
    | (_, some p, size) => some (⟨q.rest.cap - p, size⟩, slice q.rest.mem p size.toNat)
  else
    let (_, size) := q.rest.readInt
    (sv.shmCacheGet q.shm).map fun n => (⟨n, toInt32 size⟩, slice seg 0 (toInt32 size).toNat)

/-- `do_read`. What is in the buffer before the driver is called is `old` or the segment. -/
def doRead (old seg : ℕ → UInt8) (s : Proto) : Served aw :=
  let q := readReq aw s
  if fsinfoSize aw < q.info.length then .lost aw seg
  else
    match sv.fetch q.fd q.node q.info, sv.read, sv.readBuffer q.shm q.size with
    | some finfo, some read, some room =>
      let (rd, bytes) := read q.fd finfo q.size q.offset
      let buf := put (if q.shm = -1 then old else seg) 0 bytes
      { handed := some ⟨room, q.size⟩
        data := []
        out := .int rd ::
          (if 0 < rd.toInt then
            if q.shm = -1 then [.raw (slice buf 0 (word (min rd.toInt q.size)))] else []
          else if rd.toInt < 0 then [.int sv.errno] else [])
        seg := if q.shm = -1 then seg else buf }
    | _, _, _ => ⟨none, [], [.int (-1)], seg⟩

/-- `do_write`. -/
def doWrite (seg : ℕ → UInt8) (s : Proto) : Served aw :=
  let q := writeReq aw s
  if fsinfoSize aw < q.info.length then .lost aw seg
  else
    match sv.fetch q.fd q.node q.info, sv.write, sv.writeBuffer q seg with
    | some finfo, some write, some (h, data) =>
      let (wr, finfo) := write q.fd finfo data h.size q.offset
      ⟨some h, data, .int wr :: .raw finfo :: (if wr.toInt < 0 then [.int sv.errno] else []), seg⟩
    | _, _, _ => ⟨none, [], [.int (-1)], seg⟩

/-- `do_read_block`. -/
def doReadBlock (old seg : ℕ → UInt8) (s : Proto) : Served aw :=
  let q := blockReq s
  match sv.readBlock, sv.blockBuffer aw q.shm q.size with
  | some readBlock, some room =>
    let (size, bytes) := readBlock q.size q.index
    let buf := put (if q.shm = -1 then old else seg) 0 bytes
    { handed := some ⟨room, q.size⟩
      data := []
      out := .int size ::
        (if 0 < size.toInt ∧ q.shm = -1 then [.raw (slice buf 0 (word size.toInt))] else [])
      seg := if q.shm = -1 then seg else buf }
  | _, _ => ⟨none, [], [.int (-1)], seg⟩

/-! ### What has to be true of a request -/

/-- The size fits a segment, if it can be attached. -/
def FitsSeg (attached : Option ℕ) (size : ℤ) : Prop := ∀ n, attached = some n → 0 ≤ size ∧ size ≤ n

def ReadFits (s : Proto) : Prop :=
  let q := readReq aw s
  q.info.length ≤ fsinfoSize aw → (sv.fetch q.fd q.node q.info).isSome = true → sv.read.isSome = true →
    if q.shm = -1 then 0 ≤ q.size else FitsSeg (sv.shmCacheGet q.shm) q.size

/-- The item with the bytes has less than 2 GiB and is in the message. -/
def WriteFits (s : Proto) : Prop :=
  let q := writeReq aw s
  q.info.length ≤ fsinfoSize aw → (sv.fetch q.fd q.node q.info).isSome = true → sv.write.isSome = true →
    if q.shm = -1 then
      q.rest.Absent ∨ q.rest.length = 0 ∨
        (q.rest.length < 2 ^ 31 ∧ q.rest.length ≤ q.rest.cap - (q.rest.offset + 4))
    else FitsSeg (sv.shmCacheGet q.shm) (toInt32 q.rest.readInt.2)

def BlockFits (s : Proto) : Prop :=
  let q := blockReq s
  sv.readBlock.isSome = true →
    if q.shm = -1 then 0 ≤ q.size ∨ sv.malloc (q.size % 2 ^ (8 * aw)).toNat = none
    else FitsSeg (sv.attach q.shm) q.size

end Server

/-! ### The client -/

inductive Path where
  | inline
  | shm (id : BitVec 32)

/-- The `shm_id` of a request. -/
def Path.id : Path → BitVec 32
  | .inline => -1
  | .shm id => id

/-- `io` is what `get_io_shm` gives. -/
def ioPath (fd : BitVec 32) (large : Bool) (io : Option (BitVec 32)) : Path :=
  if large = true ∧ 0 ≤ fd.toInt ∧ fd.toInt < maxOpenFile then (io.map Path.shm).getD .inline else .inline

/-- The path of `dev_read`, by the size that it has clamped. -/
def readPath (fd : BitVec 32) (size : ℕ) : Option (BitVec 32) → Path := ioPath fd (decide (shmOn < size))

/-- The path of `dev_write`. -/
def writePath (fd : BitVec 32) (size : ℕ) : Option (BitVec 32) → Path := ioPath fd (decide (shmOn ≤ size))

/-- The file of a request. -/
structure File (aw : ℕ) where
  fd : BitVec 32
  node : BitVec 32
  info : { l : List UInt8 // l.length = fsinfoSize aw }

section
variable {aw : ℕ}

/-- The request of `dev_read`. -/
def readFields (f : File aw) (p : Path) (size : ℕ) (offset : BitVec 64) : List (Item aw) :=
  [.int f.fd, .int f.node, .int (BitVec.ofNat 32 size), .int64 offset, .int p.id, .raw f.info.1]

/-- The end of a write request. -/
def Path.payload (data : List UInt8) : Path → Item aw
  | .inline => .raw data
  | .shm _ => .int (BitVec.ofNat 32 data.length)

/-- The request of `dev_write`, with what it takes from the caller's buffer. -/
def writeFields (f : File aw) (p : Path) (data : List UInt8) (offset : BitVec 64) : List (Item aw) :=
  [.int f.fd, .int f.node, .int64 offset, .int p.id, .raw f.info.1, p.payload data]

end

/-- What a call reports, and the bytes that went into or out of the caller's buffer. -/
structure Done where
  res : ℤ
  copied : List UInt8

def Done.Within (d : Done) (size : ℕ) : Prop := d.copied.length ≤ size ∧ d.res ≤ size

/-- `dev_read`, after `ipc_call`: `none` if that fails. -/
def onRead (aw : ℕ) (p : Path) (seg : ℕ → UInt8) : Option Proto → Done
  | none => ⟨-1, []⟩
  | some out =>
    let (t, rd) := out.readInt
    ⟨toInt32 rd,
      if 0 < toInt32 rd then
        match p with
        | .shm _ => slice seg 0 rd
        | .inline => (t.readTo aw rd).2
      else []⟩

/-- `dev_read_block`, after `ipc_call`. -/
def onReadBlock (seg : ℕ → UInt8) : Option Proto → Done
  | none => ⟨-1, []⟩
  | some out =>
    let rd := toInt32 out.readInt.2
    ⟨if rd = vfsErrRetry then -1 else rd, if 0 < rd then slice seg 0 rd.toNat else []⟩

/-- What `dev_write` takes from the caller's buffer, for the message or for the segment. -/
def taken (buf : List UInt8) (size : ℕ) : List UInt8 := buf.take (min size shmMax)

/-- `dev_write`, after `ipc_call`. Nothing is reported if the copy over the file's info runs over what lies behind it. -/
def onWrite (aw : ℕ) (buf : List UInt8) (size : ℕ) : Option Proto → Option Done
  | none => some ⟨-1, taken buf size⟩
  | some out =>
    let (t, r) := out.readInt
    if fsinfoSize aw < (t.readTo aw (fsinfoSize aw)).2.length then none else some ⟨toInt32 r, taken buf size⟩

/-- The count of a reply; a call that fails is as good as -1. -/
def count : Option Proto → ℤ
  | none => -1
  | some out => toInt32 out.readInt.2

/-! ### What has to be true of a reply -/

/-- No more than `m` bytes of the next item are copied into a buffer of `m` bytes: a length from 2^31 on is negative, and
    what is copied is the `size_t` of it. -/
def Bounded (aw m : ℕ) (s : Proto) : Prop :=
  s.Absent ∨ s.length < 2 ^ 31 ∨ 2 ^ (8 * aw) + s.length ≤ 2 ^ 32 + m

/-- The count is in the caller's size, and the bytes behind it are bounded where they are copied from the message. -/
def ReadAnswered (aw : ℕ) (p : Path) (reply : Option Proto) (size : ℕ) : Prop :=
  count reply ≤ size ∧
    ∀ out, reply = some out → p = .inline → 0 < count reply → Bounded aw size out.readInt.1

/-- The count is in the caller's size, and the info behind it in an `fsinfo_t`. -/
def WriteAnswered (aw : ℕ) (reply : Option Proto) (size : ℕ) : Prop :=
  count reply ≤ size ∧ ∀ out, reply = some out → Bounded aw (fsinfoSize aw) out.readInt.1

/-! ### The driver's buffer -/

section
variable {sv : Server} {aw : ℕ} {old seg : ℕ → UInt8} {s : Proto}

theorem doRead_handed (hinfo : (readReq aw s).info.length ≤ fsinfoSize aw) : (sv.doRead aw old seg s).handed =
    (sv.fetch (readReq aw s).fd (readReq aw s).node (readReq aw s).info).bind fun _ => sv.read.bind fun _ =>
      (sv.readBuffer (readReq aw s).shm (readReq aw s).size).map fun n => ⟨n, (readReq aw s).size⟩ := by
  simp only [Server.doRead, if_neg (Nat.not_lt.mpr hinfo)]
  cases sv.fetch (readReq aw s).fd (readReq aw s).node (readReq aw s).info with
  | none => rfl
  | some finfo =>
    cases sv.read with
    | none => rfl
    | some read => cases sv.readBuffer (readReq aw s).shm (readReq aw s).size <;> rfl

theorem doWrite_handed (hinfo : (writeReq aw s).info.length ≤ fsinfoSize aw) : (sv.doWrite aw seg s).handed =
    (sv.fetch (writeReq aw s).fd (writeReq aw s).node (writeReq aw s).info).bind fun _ => sv.write.bind fun _ =>
      (sv.writeBuffer (writeReq aw s) seg).map Prod.fst := by
  simp only [Server.doWrite, if_neg (Nat.not_lt.mpr hinfo)]
  cases sv.fetch (writeReq aw s).fd (writeReq aw s).node (writeReq aw s).info with
  | none => rfl
  | some finfo =>
    cases sv.write with
    | none => rfl
    | some write => cases sv.writeBuffer (writeReq aw s) seg <;> rfl

theorem doReadBlock_handed : (sv.doReadBlock aw old seg s).handed = sv.readBlock.bind fun _ =>
    (sv.blockBuffer aw (blockReq s).shm (blockReq s).size).map fun n => ⟨n, (blockReq s).size⟩ := by
  simp only [Server.doReadBlock]
  cases sv.readBlock with
  | none => rfl
  | some readBlock => cases sv.blockBuffer aw (blockReq s).shm (blockReq s).size <;> rfl

theorem forall_bind {α β : Type} {o : Option α} {b : Option β} {P : β → Prop} :
    (∀ h, (o.bind fun _ => b) = some h → P h) ↔ (o.isSome = true → ∀ h, b = some h → P h) := by
  cases o <;> simp

/-- A segment is handed over as long as it is. -/
theorem fitsSeg_iff {o : Option ℕ} {size : ℤ} :
    (∀ h, o.map (fun n => (⟨n, size⟩ : Handed)) = some h → h.Fits) ↔ Server.FitsSeg o size := by
  cases o with
  | none => simp [Server.FitsSeg]
  | some n => simp [Server.FitsSeg, Handed.Fits]

theorem readWord_lt (k : ℕ) : (s.readWord k).2 < 256 ^ k := by
  rw [readWord]
  split
  · exact Nat.pos_of_ne_zero (by simp)
  · have h := ofLe_lt (slice s.mem ‹ℕ› k)
    rwa [length_slice] at h

theorem length_lt (s : Proto) : s.length < 2 ^ 32 := by
  have h := ofLe_lt (slice s.mem s.offset 4)
  rw [length_slice] at h
  exact h

theorem toInt32_lt {n : ℕ} (h : n < 2 ^ 32) : toInt32 n < 2 ^ 31 := by
  unfold toInt32
  split <;> omega

theorem readInt_lt (s : Proto) : s.readInt.2 < 2 ^ 32 := by
  have h := readWord_lt (s := s) 4
  rw [readInt]
  omega

theorem readReq_size_lt : (readReq aw s).size < 2 ^ 31 := by
  rw [readReq]
  exact toInt32_lt (readInt_lt _)

theorem blockReq_size_lt : (blockReq s).size < 2 ^ 31 := by
  rw [blockReq]
  exact toInt32_lt (readInt_lt _)

/-- A number of 32 bits that is not negative stays what it is as a `size_t`. -/
theorem sizeT_of_small (haw : 4 ≤ aw) {x : ℤ} (h0 : 0 ≤ x) (hx : x < 2 ^ 32) : x % 2 ^ (8 * aw) = x := by
  have hpow : (2 : ℤ) ^ 32 ≤ 2 ^ (8 * aw) := by
    exact_mod_cast Nat.pow_le_pow_right (by omega : 0 < 2) (by omega : 32 ≤ 8 * aw)
  exact Int.emod_eq_of_lt h0 (by omega)

/-- `malloc` gives as much as is asked for, or nothing. -/
def Server.Allocates (sv : Server) : Prop := ∀ n < 2 ^ 31, ∀ r, sv.malloc n = some r → n ≤ r

theorem read_fits (hm : sv.Allocates) :
    (∀ h, (sv.doRead aw old seg s).handed = some h → h.Fits) ↔ sv.ReadFits aw s := by
  rw [Server.ReadFits]
  by_cases hinfo : fsinfoSize aw < (readReq aw s).info.length
  · have hlost : sv.doRead aw old seg s = .lost aw seg := by simp only [Server.doRead, if_pos hinfo]
    rw [hlost]
    generalize readReq aw s = q at hinfo
    exact iff_of_true (fun h hh => by cases hh) fun hle => absurd hinfo (Nat.not_lt.mpr hle)
  have hle := Nat.not_lt.mp hinfo
  rw [doRead_handed hle, forall_bind, forall_prop_of_true hle]
  refine imp_congr_right fun _ => ?_
  rw [forall_bind]
  refine imp_congr_right fun _ => ?_
  have hsize : (readReq aw s).size < 2 ^ 31 := readReq_size_lt
  generalize readReq aw s = q at hsize ⊢
  rw [Server.readBuffer]
  split
  · split
    · rename_i hbig
      have hpos : (0 : ℤ) ≤ q.size := by
        simp only [readBufSize] at hbig
        omega
      refine ⟨fun _ => hpos, fun _ h hh => ?_⟩
      obtain ⟨r, hr, rfl⟩ := Option.map_eq_some_iff.mp hh
      have := hm _ (by omega) r hr
      exact ⟨hpos, by dsimp only; omega⟩
    · rename_i hsmall
      simp only [Option.map_some, Option.some.injEq, forall_eq', Handed.Fits]
      exact and_iff_left (by omega)
  · exact fitsSeg_iff

theorem block_fits (hm : sv.Allocates) (haw : 4 ≤ aw) :
    (∀ h, (sv.doReadBlock aw old seg s).handed = some h → h.Fits) ↔ sv.BlockFits aw s := by
  rw [doReadBlock_handed, forall_bind, Server.BlockFits]
  refine imp_congr_right fun _ => ?_
  have hsize : (blockReq s).size < 2 ^ 31 := blockReq_size_lt
  generalize blockReq s = q at hsize ⊢
  rw [Server.blockBuffer]
  split
  · constructor
    · intro h
      cases hr : sv.malloc (q.size % 2 ^ (8 * aw)).toNat with
      | none => exact .inr rfl
      | some r => exact .inl (h _ (by rw [hr]; rfl)).1
    · rintro h x hx
      obtain ⟨r, hr, rfl⟩ := Option.map_eq_some_iff.mp hx
      rw [hr] at h
      have hpos := h.resolve_right (by simp)
      rw [sizeT_of_small haw hpos (by omega)] at hr
      have := hm _ (by omega) r hr
      exact ⟨hpos, by dsimp only; omega⟩
  · exact fitsSeg_iff

theorem write_fits : (∀ h, (sv.doWrite aw seg s).handed = some h → h.Fits) ↔ sv.WriteFits aw s := by
  rw [Server.WriteFits]
  by_cases hinfo : fsinfoSize aw < (writeReq aw s).info.length
  · have hlost : sv.doWrite aw seg s = .lost aw seg := by simp only [Server.doWrite, if_pos hinfo]
    rw [hlost]
    generalize writeReq aw s = q at hinfo
    exact iff_of_true (fun h hh => by cases hh) fun hle => absurd hinfo (Nat.not_lt.mpr hle)
  have hle := Nat.not_lt.mp hinfo
  rw [doWrite_handed hle, forall_bind, forall_prop_of_true hle]
  refine imp_congr_right fun _ => ?_
  rw [forall_bind]
  refine imp_congr_right fun _ => ?_
  generalize writeReq aw s = q
  rw [Server.writeBuffer]
  split
  · by_cases hab : q.rest.Absent
    · simp [Proto.read, hab]
    · by_cases h0 : q.rest.length = 0
      · simp [Proto.read, hab, h0]
      · have hlt := length_lt q.rest
        simp only [Proto.read, if_neg hab, if_neg h0, Option.map_some, Option.some.injEq, forall_eq', Handed.Fits]
        rw [or_iff_right hab, or_iff_right h0, toInt32]
        split <;> omega
  · rw [Option.map_map]
    exact fitsSeg_iff

end

/-! ### The caller's buffer -/

section
variable {aw : ℕ} {p : Path} {seg : ℕ → UInt8} {reply : Option Proto} {size : ℕ} {buf : List UInt8}

/-- What is copied into a buffer that is no larger than `m`. -/
theorem length_readTo_le_iff (haw : 4 ≤ aw) (s : Proto) {n m : ℕ} (hn : n < 2 ^ 31) (hm : n ≤ m) :
    (s.readTo aw n).2.length ≤ m ↔ Bounded aw m s := by
  rw [Bounded, readTo]
  by_cases hab : s.Absent
  · simp [Proto.read, hab]
  · by_cases h0 : s.length = 0
    · simp [Proto.read, hab, h0]
    · have hlt := length_lt s
      simp only [Proto.read, if_neg hab, if_neg h0, or_iff_right hab, length_slice]
      by_cases hsmall : s.length < 2 ^ 31
      · -- the size is cut to the room there is
        have hsz : toInt32 s.length = s.length := if_pos hsmall
        refine iff_of_true ?_ (.inl hsmall)
        rw [hsz]
        split
        · rw [sizeT_of_small haw (by omega) (by omega)]
          omega
        · rw [sizeT_of_small haw (by omega) (by omega)]
          omega
      · -- the size is negative
        have hsz : toInt32 s.length = (s.length : ℤ) - 2 ^ 32 := if_neg hsmall
        have hpow : 2 ^ 32 ≤ 2 ^ (8 * aw) := Nat.pow_le_pow_right (by omega) (by omega)
        have hcast : (2 : ℤ) ^ (8 * aw) = (2 ^ (8 * aw) : ℕ) := by push_cast; rfl
        rw [hsz, if_neg (by omega), hcast]
        generalize 2 ^ (8 * aw) = w at hpow
        rw [← Int.add_emod_right, Int.emod_eq_of_lt (by omega) (by omega)]
        omega

theorem onRead_within (haw : 4 ≤ aw) : (onRead aw p seg reply).Within size ↔ ReadAnswered aw p reply size := by
  cases reply with
  | none =>
    simp only [onRead, ReadAnswered, count, Done.Within, List.length_nil]
    exact ⟨fun _ => ⟨by omega, fun _ h => by cases h⟩, fun _ => by omega⟩
  | some out =>
    simp only [onRead, ReadAnswered, count, Done.Within, Option.some.injEq, forall_eq']
    rw [and_comm]
    refine and_congr_right fun hle => ?_
    by_cases hpos : 0 < toInt32 out.readInt.2
    · have hlt := readInt_lt out
      have hrd : (out.readInt.2 : ℤ) = toInt32 out.readInt.2 := by
        unfold toInt32 at hpos ⊢
        split at hpos <;> omega
      have hsmall := toInt32_lt hlt
      rw [if_pos hpos]
      cases p with
      | inline =>
        dsimp only
        rw [length_readTo_le_iff haw _ (by omega) (by omega)]
        exact ⟨fun h _ _ => h, fun h => h rfl hpos⟩
      | shm id =>
        dsimp only
        rw [length_slice]
        exact iff_of_true (by omega) fun h => by cases h
    · rw [if_neg hpos]
      exact iff_of_true (Nat.zero_le _) fun _ h => absurd h hpos

theorem onReadBlock_within : (onReadBlock seg reply).Within size ↔ count reply ≤ size := by
  cases reply with
  | none =>
    simp only [onReadBlock, count, Done.Within, List.length_nil]
    omega
  | some out =>
    simp only [onReadBlock, count, Done.Within]
    generalize toInt32 out.readInt.2 = rd
    have hcopied : rd ≤ size → (if 0 < rd then slice seg 0 rd.toNat else []).length ≤ size := by
      intro hle
      split
      · rw [length_slice]
        omega
      · exact Nat.zero_le _
    by_cases hr : rd = vfsErrRetry
    · rw [if_pos hr]
      unfold vfsErrRetry at hr
      exact ⟨fun _ => by omega, fun h => ⟨hcopied h, by omega⟩⟩
    · rw [if_neg hr]
      exact ⟨fun h => h.2, fun h => ⟨hcopied h, h⟩⟩

theorem fsinfoSize_lt (aw : ℕ) : fsinfoSize aw < 2 ^ 31 := by
  unfold fsinfoSize
  split <;> omega

theorem onWrite_within (haw : 4 ≤ aw) :
    (∃ d, onWrite aw buf size reply = some d ∧ d.Within size) ↔ WriteAnswered aw reply size := by
  have htaken : (taken buf size).length ≤ size := by
    rw [taken, List.length_take]
    omega
  cases reply with
  | none =>
    simp only [onWrite, WriteAnswered, count, Option.some.injEq, exists_eq_left', Done.Within, htaken, true_and]
    exact ⟨fun h => ⟨h, fun _ h => by cases h⟩, fun h => h.1⟩
  | some out =>
    simp only [onWrite, WriteAnswered, count, Option.some.injEq, forall_eq',
      ← length_readTo_le_iff haw _ (fsinfoSize_lt aw) (Nat.le_refl _)]
    split
    · rename_i hrun
      exact iff_of_false (by simp) fun h => absurd h.2 (Nat.not_le.mpr hrun)
    · rename_i hfit
      simp only [Option.some.injEq, exists_eq_left', Done.Within, htaken, true_and]
      exact ⟨fun h => ⟨h, Nat.not_lt.mp hfit⟩, fun h => h.1⟩

end

/-! ### Messages -/

section
variable {aw : ℕ} {s t : Proto} {l : List (Item aw)}

/-- The message that is received when these items were put into one. -/
def send (buffer fresh : ℕ → UInt8) (l : List (Item aw)) : Option Proto :=
  ((init buffer).adds (l.map fun i => ⟨i, some fresh⟩)).map fun t => initData t.mem t.size

/-- These items are left to be read. -/
structure At (s : Proto) (l : List (Item aw)) : Prop where
  rows : Rows s.mem s.offset l s.size
  cap : s.size ≤ s.cap
  small : s.size < 2 ^ 31

theorem add_pre {bytes : List UInt8} {alloc : Option (ℕ → UInt8)} (h : s.add bytes alloc = some t) : t.pre = s.pre := by
  have hstore : ∀ {r : Proto}, r.store bytes = some t → t.pre = r.pre := by
    intro r hr
    simp only [store, Option.ite_none_right_eq_some, Option.some.injEq] at hr
    rw [← hr.2]
  unfold add at h
  split at h
  · split at h
    · rw [Option.some.inj h]
    · split at h
      · rw [Option.some.inj h]
      · have hpre := hstore h
        exact hpre
  · exact hstore h

theorem adds_pre {as : List (Add aw)} (h : s.adds as = some t) : t.pre = s.pre := by
  induction as generalizing s with
  | nil =>
    rw [adds] at h
    cases h
    rfl
  | cons a as ih =>
    rw [adds] at h
    obtain ⟨u, hu, ht⟩ := Option.bind_eq_some_iff.mp h
    rw [ih ht, add_pre hu]

theorem noGap {as : List (Add aw)} (hpre : s.pre = false) (h : ∀ a ∈ as, a.alloc ≠ none) : s.NoGap as := by
  induction as generalizing s with
  | nil => trivial
  | cons a as ih =>
    refine .inr ⟨?_, fun t ht => ih ((add_pre ht).trans hpre) fun b hb => h b (List.mem_cons_of_mem a hb)⟩
    rintro ⟨-, hp | ha⟩
    · rw [hpre] at hp
      cases hp
    · exact h a List.mem_cons_self ha

/-- With memory a message holds all that was added. -/
theorem sent (buffer fresh : ℕ → UInt8) (hl : (l.map fun i => span i.bytes.length).sum + protoBuffer < 2 ^ 31) :
    ∃ t, send buffer fresh l = some t ∧ At t l := by
  have hpre : (init buffer).pre = false := rfl
  have halloc : ∀ a ∈ l.map fun i => (⟨i, some fresh⟩ : Add aw), a.alloc ≠ none := by
    intro a ha
    obtain ⟨i, -, rfl⟩ := List.mem_map.mp ha
    simp
  have hspans : spans (l.map fun i => (⟨i, some fresh⟩ : Add aw)) = (l.map fun i => span i.bytes.length).sum := by
    rw [spans, List.map_map]
    rfl
  have hzero : (init buffer).size = 0 := rfl
  obtain ⟨t, k, ht, hk, href, -, hoff, hready, hrows⟩ := adds_rows (ready_init buffer)
    (by rw [hspans, hzero]; omega) (noGap hpre halloc)
  have hall : (l.map fun i => (⟨i, some fresh⟩ : Add aw)).length ≤ k := by
    by_contra hlt
    obtain ⟨-, hp | hn⟩ := href _ (List.getElem?_eq_getElem (Nat.lt_of_not_le hlt))
    · rw [adds_pre ht, hpre] at hp
      cases hp
    · exact halloc _ (List.getElem_mem _) hn
  rw [List.take_of_length_le hall, List.map_map] at hrows
  have hsum : ∀ (l : List (Item aw)) (o e : ℕ), Rows t.mem o l e → e = o + (l.map fun i => span i.bytes.length).sum := by
    intro l
    induction l with
    | nil => exact fun o e h => h.symm
    | cons i l ih =>
      intro o e h
      rw [ih _ _ h.2.2, List.map_cons, List.sum_cons, Nat.add_assoc]
  have hid : l.map (Add.item ∘ fun i => (⟨i, some fresh⟩ : Add aw)) = l := List.map_id' l
  rw [hid] at hrows
  have hsize := hsum _ _ _ hrows
  rw [hzero] at hsize hrows
  exact ⟨_, by rw [send, ht]; rfl, hrows, Nat.le_refl _, by dsimp only [initData]; omega⟩

theorem toInt32_toNat (v : BitVec 32) : toInt32 v.toNat = v.toInt := by
  have := v.isLt
  rw [BitVec.toInt_eq_toNat_cond, toInt32]
  split <;> split <;> omega

theorem At.read {i : Item aw} (h : At s (i :: l)) : ∃ t, At t l ∧ t.cap = s.cap ∧ t.mem = s.mem ∧
    s.read = (t, if i.bytes.length = 0 then none else some (s.offset + 4), (i.bytes.length : ℤ)) ∧
    slice s.mem (s.offset + 4) i.bytes.length = i.bytes ∧ s.offset + 4 + i.bytes.length ≤ s.cap := by
  obtain ⟨hl, hb, hrest⟩ := h.rows
  have hle := hrest.le
  have hcap := h.cap
  have hsmall := h.small
  obtain ⟨hlo, -⟩ := length_le_span i.bytes.length
  exact ⟨{ s with offset := s.offset + span i.bytes.length }, ⟨hrest, hcap, hsmall⟩, rfl, rfl, read_row (by omega) hcap hl (by omega) (by omega), hb, by omega⟩

theorem At.length_lt {bytes : List UInt8} (h : At s (.raw bytes :: l)) : bytes.length < 2 ^ 31 := by
  obtain ⟨-, -, hrest⟩ := h.rows
  have hle := hrest.le
  have hlo := (length_le_span bytes.length).1
  have hsmall := h.small
  change s.offset + span bytes.length ≤ s.size at hle
  omega

theorem At.readWord {i : Item aw} {k v : ℕ} (h : At s (i :: l)) (hi : i.bytes = leBytes k v) (hk : k ≠ 0)
    (hv : v < 256 ^ k) : ∃ t, s.readWord k = (t, v) ∧ At t l := by
  obtain ⟨t, ht, -, -, hread, hb, -⟩ := h.read
  have hlen : i.bytes.length = k := by rw [hi, length_leBytes]
  rw [hlen, hi] at hb
  refine ⟨t, ?_, ht⟩
  rw [Proto.readWord, hread, if_neg (by omega)]
  dsimp only
  rw [hb, ofLe_leBytes hv]

theorem At.readInt {v : BitVec 32} (h : At s (.int v :: l)) : ∃ t, s.readInt = (t, v.toNat) ∧ At t l := by
  have := v.isLt
  exact h.readWord rfl (by omega) (by omega)

theorem At.readInt64 {v : BitVec 64} (h : At s (.int64 v :: l)) : ∃ t, s.readInt64 = (t, v.toNat) ∧ At t l := by
  have := v.isLt
  exact h.readWord rfl (by omega) (by omega)

theorem slice_take {mem : ℕ → UInt8} {p n k : ℕ} (hk : k ≤ n) : slice mem p k = (slice mem p n).take k := by
  have hsplit : slice mem p (k + (n - k)) = slice mem p k ++ slice mem (p + k) (n - k) := slice_add
  rw [Nat.add_sub_cancel' hk] at hsplit
  rw [hsplit, List.take_left' length_slice]

theorem At.readTo (haw : 4 ≤ aw) {bytes : List UInt8} (h : At s (.raw bytes :: l)) (n : ℕ) :
    ∃ t, s.readTo aw n = (t, bytes.take n) ∧ At t l := by
  obtain ⟨t, ht, -, -, hread, hb, -⟩ := h.read
  have hsmall := h.length_lt
  refine ⟨t, ?_, ht⟩
  rw [Proto.readTo, hread]
  change slice s.mem (s.offset + 4) bytes.length = bytes at hb
  by_cases h0 : bytes.length = 0
  · rw [List.length_eq_zero_iff.mp h0]
    simp [Item.bytes]
  · rw [if_neg (show ¬(Item.raw bytes : Item aw).bytes.length = 0 from h0)]
    dsimp only [Item.bytes]
    refine Prod.ext rfl ?_
    have htake : ∀ k, k ≤ bytes.length → slice s.mem (s.offset + 4) k = bytes.take k := by
      intro k hk
      rw [slice_take hk, hb]
    dsimp only
    split
    · rw [sizeT_of_small haw (by omega) (by omega), Int.toNat_natCast, htake _ (by omega)]
    · rw [sizeT_of_small haw (by omega) (by omega), Int.toNat_natCast, htake _ (by omega),
        List.take_of_length_le (Nat.le_refl _), List.take_of_length_le (by omega)]

/-! ### Both sides -/

/-- What is in the memory that is used: the two messages, the server's buffer and the segment. -/
structure Mem where
  buffer : ℕ → UInt8
  fresh : ℕ → UInt8
  old : ℕ → UInt8
  seg : ℕ → UInt8

variable {sv : Server} {f : File aw} {m m' : Mem} {p : Path} {size : ℕ} {offset : BitVec 64} {id : BitVec 32}

/-- A read on a path, from the request to the caller's buffer. -/
def readOn (sv : Server) (m : Mem) (f : File aw) (size : ℕ) (offset : BitVec 64) (p : Path) : Option Done :=
  (send m.buffer m.fresh (readFields f p size offset)).bind fun s =>
    let r := sv.doRead aw m.old m.seg s
    (send m.buffer m.fresh r.out).map fun out => onRead aw p r.seg (some out)

/-- `dev_read`, of a server that runs this code. -/
def devRead (sv : Server) (m : Mem) (f : File aw) (size : ℕ) (offset : BitVec 64) (io : Option (BitVec 32)) :
    Option Done :=
  readOn sv m f (min size shmMax) offset (readPath f.fd (min size shmMax) io)

/-- The segment, when the client has put its bytes there. -/
def Path.filled (seg : ℕ → UInt8) (data : List UInt8) : Path → ℕ → UInt8
  | .inline => seg
  | .shm _ => put seg 0 data

/-- A write on a path, up to the driver and the reply. -/
def writeOn (sv : Server) (m : Mem) (f : File aw) (data : List UInt8) (offset : BitVec 64) (p : Path) :
    Option (Served aw) :=
  (send m.buffer m.fresh (writeFields f p data offset)).map fun s =>
    sv.doWrite aw (p.filled m.seg data) s

/-- `dev_write`, of a server that runs this code. -/
def devWrite (sv : Server) (m : Mem) (f : File aw) (buf : List UInt8) (size : ℕ) (offset : BitVec 64)
    (io : Option (BitVec 32)) : Option (Served aw) :=
  writeOn sv m f (taken buf size) offset (writePath f.fd (min size shmMax) io)

theorem info_fits (f : File aw) : ¬fsinfoSize aw < f.info.1.length := Nat.not_lt.mpr (Nat.le_of_eq f.info.2)

theorem span_info : span f.info.1.length ≤ 140 := by
  rw [f.info.2, fsinfoSize]
  split <;> decide

theorem readReq_at (haw : 4 ≤ aw) (h : At s (readFields f p size offset)) (hsize : size ≤ shmMax) : readReq aw s =
    ⟨f.fd.toNat, f.node.toNat, size, offset.toNat, p.id.toInt, f.info.1⟩ := by
  obtain ⟨s₁, h₁, h⟩ := h.readInt
  obtain ⟨s₂, h₂, h⟩ := h.readInt
  obtain ⟨s₃, h₃, h⟩ := h.readInt
  obtain ⟨s₄, h₄, h⟩ := h.readInt64
  obtain ⟨s₅, h₅, h⟩ := h.readInt
  obtain ⟨s₆, h₆, -⟩ := h.readTo haw (fsinfoSize aw)
  have hs : toInt32 (BitVec.ofNat 32 size).toNat = size := by
    unfold shmMax at hsize
    rw [BitVec.toNat_ofNat, Nat.mod_eq_of_lt (by omega), toInt32, if_pos (by omega)]
  simp only [readReq, h₁, h₂, h₃, h₄, h₅, h₆]
  rw [hs, toInt32_toNat, List.take_of_length_le (Nat.le_of_eq f.info.2)]

theorem sum_readFields (f : File aw) (p : Path) (size : ℕ) (offset : BitVec 64) : ((readFields f p size offset).map fun i => span i.bytes.length).sum ≤ 184 := by
  have := span_info (f := f)
  simp only [readFields, List.map_cons, List.map_nil, List.sum_cons, List.sum_nil, Item.bytes, length_leBytes]
  have h4 : span 4 = 8 := rfl
  have h8 : span 8 = 12 := rfl
  omega

variable {finfo : List UInt8} {read : ℕ → List UInt8 → ℤ → ℕ → BitVec 32 × List UInt8} {room : ℕ} {rd : BitVec 32}
  {bytes : List UInt8}

/-- The driver gives its count and its bytes. -/
structure Reads (sv : Server) (f : File aw) (size : ℕ) (offset : BitVec 64) (rd : BitVec 32) (bytes : List UInt8) :
    Prop where
  small : size ≤ shmMax
  call : ∃ finfo read, sv.fetch f.fd.toNat f.node.toNat f.info.1 = some finfo ∧ sv.read = some read ∧
    read f.fd.toNat finfo size offset.toNat = (rd, bytes)

theorem toNat_of_pos (h : 0 < rd.toInt) : rd.toNat = rd.toInt.toNat := by
  have := rd.isLt
  rw [BitVec.toInt_eq_toNat_cond] at h ⊢
  split at h <;> omega

/-- In the message the client gets what the driver counted, up to the size. -/
theorem readOn_inline (haw : 4 ≤ aw) (h : Reads sv f size offset rd bytes) (hbuf : sv.readBuffer (-1) size = some room) :
    readOn sv m f size offset .inline = some ⟨rd.toInt,
      if 0 < rd.toInt then slice (put m.old 0 bytes) 0 (min rd.toInt size).toNat else []⟩ := by
  obtain ⟨hsize, finfo, read, hfetch, hread, hcall⟩ := h
  have hmax : size ≤ 2 ^ 18 := hsize
  obtain ⟨s, hs, hat⟩ := sent m.buffer m.fresh (l := readFields f .inline size offset) (by
    have := sum_readFields f .inline size offset
    unfold protoBuffer
    omega)
  have hid : (Path.inline.id).toInt = -1 := by decide
  rw [readOn, hs, Option.bind_some]
  simp only [Server.doRead, readReq_at haw hat hsize, if_neg (info_fits f), hid, hfetch, hread, hbuf, hcall, if_true]
  by_cases hpos : 0 < rd.toInt
  · have hword : word (min rd.toInt size) = (min rd.toInt size).toNat := by
      rw [word, Int.emod_eq_of_lt (by omega) (by omega)]
    have hlen : (slice (put m.old 0 bytes) 0 (min rd.toInt size).toNat).length ≤ 2 ^ 18 := by
      rw [length_slice]
      omega
    rw [if_pos hpos, if_pos hpos, hword]
    obtain ⟨t, ht, hat'⟩ := sent m.buffer m.fresh
      (l := ([.int rd, .raw (slice (put m.old 0 bytes) 0 (min rd.toInt size).toNat)] : List (Item aw))) (by
        have := (length_le_span (slice (put m.old 0 bytes) 0 (min rd.toInt size).toNat).length).2
        simp only [List.map_cons, List.map_nil, List.sum_cons, List.sum_nil, Item.bytes, length_leBytes]
        have h4 : span 4 = 8 := rfl
        unfold protoBuffer
        omega)
    rw [ht, Option.map_some]
    obtain ⟨t', h₁, hat'⟩ := hat'.readInt
    obtain ⟨_, h₂, -⟩ := hat'.readTo haw rd.toNat
    simp only [onRead, h₁, h₂, toInt32_toNat, if_pos hpos]
    rw [List.take_of_length_le]
    rw [length_slice, toNat_of_pos hpos]
    omega
  · rw [if_neg hpos, if_neg hpos]
    obtain ⟨t, ht, hat'⟩ := sent m.buffer m.fresh
      (l := (.int rd :: if rd.toInt < 0 then [.int sv.errno] else [] : List (Item aw))) (by split <;> simp [Item.bytes, span, protoBuffer])
    rw [ht, Option.map_some]
    obtain ⟨t', h₁, -⟩ := hat'.readInt
    simp only [onRead, h₁, toInt32_toNat, if_neg hpos]

/-- Through the segment it gets what the driver counted. -/
theorem readOn_shm (haw : 4 ≤ aw) (h : Reads sv f size offset rd bytes) (hid : id.toInt ≠ -1)
    (hbuf : sv.readBuffer id.toInt size = some room) :
    readOn sv m f size offset (.shm id) = some ⟨rd.toInt,
      if 0 < rd.toInt then slice (put m.seg 0 bytes) 0 rd.toInt.toNat else []⟩ := by
  obtain ⟨hsize, finfo, read, hfetch, hread, hcall⟩ := h
  obtain ⟨s, hs, hat⟩ := sent m.buffer m.fresh (l := readFields f (.shm id) size offset) (by
    have := sum_readFields f (.shm id) size offset
    unfold protoBuffer
    omega)
  have hpid : ((Path.shm id).id).toInt = id.toInt := rfl
  rw [readOn, hs, Option.bind_some]
  simp only [Server.doRead, readReq_at haw hat hsize, if_neg (info_fits f), hpid, hfetch, hread, hbuf, hcall, if_neg hid]
  obtain ⟨t, ht, hat'⟩ := sent m.buffer m.fresh
    (l := (.int rd :: if 0 < rd.toInt then [] else if rd.toInt < 0 then [.int sv.errno] else [] : List (Item aw)))
    (by split_ifs <;> simp [Item.bytes, span, protoBuffer])
  rw [ht, Option.map_some]
  obtain ⟨t', h₁, -⟩ := hat'.readInt
  simp only [onRead, h₁, toInt32_toNat]
  by_cases hpos : 0 < rd.toInt
  · rw [if_pos hpos, if_pos hpos, toNat_of_pos hpos]
  · rw [if_neg hpos, if_neg hpos]

/-- The two paths deliver the same when the driver counts no more than it was asked for and has put there. -/
theorem read_same_iff (haw : 4 ≤ aw) {room' : ℕ} (h : Reads sv f size offset rd bytes) (hin : sv.readBuffer (-1) size = some room)
    (hid : id.toInt ≠ -1) (hshm : sv.readBuffer id.toInt size = some room') :
    (∀ m m', readOn sv m f size offset .inline = readOn sv m' f size offset (.shm id)) ↔
      (0 < rd.toInt → rd.toInt ≤ size ∧ rd.toInt ≤ bytes.length) := by
  simp only [readOn_inline haw h hin, readOn_shm haw h hid hshm, Option.some.injEq, Done.mk.injEq, true_and]
  constructor
  · intro heq hpos
    have heq' := heq ⟨fun _ => 0, fun _ => 0, fun _ => 0, fun _ => 0⟩ ⟨fun _ => 0, fun _ => 0, fun _ => 1, fun _ => 1⟩
    rw [if_pos hpos, if_pos hpos] at heq'
    have hlen := congrArg List.length heq'
    rw [length_slice, length_slice] at hlen
    refine ⟨by omega, ?_⟩
    -- behind what the driver has put there the two buffers differ
    by_contra hlt
    have hget := congrArg (fun l => l.getD bytes.length (0 : UInt8)) heq'
    dsimp only at hget
    rw [getD_slice (by omega), getD_slice (by omega), put_of_ge (by omega), put_of_ge (by omega)] at hget
    exact absurd hget (by decide)
  · intro hle m m'
    by_cases hpos : 0 < rd.toInt
    · obtain ⟨h₁, h₂⟩ := hle hpos
      have hmin : min rd.toInt size = rd.toInt := by omega
      have hk : rd.toInt.toNat ≤ bytes.length := by omega
      rw [if_pos hpos, if_pos hpos, hmin, slice_take hk, slice_take hk, slice_put, slice_put]
    · rw [if_neg hpos, if_neg hpos]

theorem sum_writeFields (f : File aw) (p : Path) (offset : BitVec 64) {data : List UInt8} (hd : data.length ≤ shmMax) :
    ((writeFields f p data offset).map fun i => span i.bytes.length).sum + protoBuffer < 2 ^ 31 := by
  have hinfo := span_info (f := f)
  have hdata := (length_le_span data.length).2
  have h4 : span 4 = 8 := rfl
  have h8 : span 8 = 12 := rfl
  unfold shmMax at hd
  unfold protoBuffer
  cases p <;>
    simp only [writeFields, Path.payload, List.map_cons, List.map_nil, List.sum_cons, List.sum_nil, Item.bytes,
      length_leBytes] <;>
    omega

theorem writeReq_at (haw : 4 ≤ aw) {data : List UInt8} (h : At s (writeFields f p data offset)) :
    ∃ rest, writeReq aw s = ⟨f.fd.toNat, f.node.toNat, offset.toNat, p.id.toInt, f.info.1, rest⟩ ∧
      At rest ([p.payload data] : List (Item aw)) := by
  obtain ⟨s₁, h₁, h⟩ := h.readInt
  obtain ⟨s₂, h₂, h⟩ := h.readInt
  obtain ⟨s₃, h₃, h⟩ := h.readInt64
  obtain ⟨s₄, h₄, h⟩ := h.readInt
  obtain ⟨s₅, h₅, h⟩ := h.readTo haw (fsinfoSize aw)
  refine ⟨s₅, ?_, h⟩
  simp only [writeReq, h₁, h₂, h₃, h₄, h₅]
  rw [toInt32_toNat, List.take_of_length_le (Nat.le_of_eq f.info.2)]

/-- The driver gets the bytes, and their number. -/
structure Gets (sv : Server) (r : Served aw) (f : File aw) (data : List UInt8) (offset : BitVec 64) : Prop where
  size : r.handed.map Handed.size = some data.length
  bytes : r.data = data
  out : ∃ finfo write, sv.fetch f.fd.toNat f.node.toNat f.info.1 = some finfo ∧ sv.write = some write ∧
    let (wr, finfo) := write f.fd.toNat finfo data data.length offset.toNat
    r.out = .int wr :: .raw finfo :: (if wr.toInt < 0 then [.int sv.errno] else [])

theorem writeOn_gets (haw : 4 ≤ aw) {data : List UInt8} (h0 : data ≠ []) (hd : data.length ≤ shmMax)
    (hfetch : (sv.fetch f.fd.toNat f.node.toNat f.info.1).isSome = true) (hwrite : sv.write.isSome = true)
    (hp : ∀ id, p = .shm id → id.toInt ≠ -1 ∧ (sv.shmCacheGet id.toInt).isSome = true) :
    ∃ r, writeOn sv m f data offset p = some r ∧ Gets sv r f data offset := by
  have hlt : data.length < 2 ^ 31 := Nat.lt_of_le_of_lt hd (by decide)
  obtain ⟨s, hs, hat⟩ := sent m.buffer m.fresh (sum_writeFields f p offset hd)
  obtain ⟨rest, hq, hrest⟩ := writeReq_at haw hat
  obtain ⟨finfo, hfetch⟩ := Option.isSome_iff_exists.mp hfetch
  obtain ⟨write, hwrite⟩ := Option.isSome_iff_exists.mp hwrite
  have hlen : data.length ≠ 0 := by simpa using h0
  have hbuf : ∃ room, ∀ seg : ℕ → UInt8, (p = .inline ∨ slice seg 0 data.length = data) →
      sv.writeBuffer ⟨f.fd.toNat, f.node.toNat, offset.toNat, p.id.toInt, f.info.1, rest⟩ seg =
        some (⟨room, data.length⟩, data) := by
    cases p with
    | inline =>
      have hraw : At rest ([.raw data] : List (Item aw)) := hrest
      obtain ⟨t, -, -, -, hread, hb, -⟩ := hraw.read
      refine ⟨rest.cap - (rest.offset + 4), fun seg _ => ?_⟩
      have hid : (Path.inline.id).toInt = -1 := by decide
      change slice rest.mem (rest.offset + 4) data.length = data at hb
      rw [Server.writeBuffer, if_pos hid, hread, if_neg (show ¬(Item.raw data : Item aw).bytes.length = 0 from hlen)]
      simp only [Item.bytes, Int.toNat_natCast, hb]
    | shm id =>
      obtain ⟨hid, hget⟩ := hp id rfl
      obtain ⟨n, hn⟩ := Option.isSome_iff_exists.mp hget
      obtain ⟨t, hread, -⟩ := hrest.readInt
      refine ⟨n, fun seg hseg => ?_⟩
      have hsize : toInt32 (BitVec.ofNat 32 data.length).toNat = data.length := by
        rw [BitVec.toNat_ofNat, Nat.mod_eq_of_lt (Nat.lt_trans hlt (by decide)), toInt32, if_pos hlt]
      have hpid : ((Path.shm id).id).toInt = id.toInt := rfl
      simp only [Server.writeBuffer, hpid, if_neg hid, hread, hn, hsize, Option.map_some, Int.toNat_natCast]
      rw [hseg.resolve_left (by simp)]
  obtain ⟨room, hbuf⟩ := hbuf
  have hdone : sv.writeBuffer (writeReq aw s) (p.filled m.seg data) = some (⟨room, data.length⟩, data) := by
    rw [hq]
    refine hbuf _ ?_
    cases p with
    | inline => exact .inl rfl
    | shm id => exact .inr slice_put
  refine ⟨_, by rw [writeOn, hs]; rfl, ?_⟩
  simp only [Server.doWrite, hdone]
  simp only [hq, if_neg (info_fits f), hfetch, hwrite]
  exact ⟨rfl, rfl, finfo, write, hfetch, hwrite, rfl⟩

theorem ioPath_eq (fd : BitVec 32) (large : Bool) (io : Option (BitVec 32)) :
    ioPath fd large io = .inline ∨ ∃ id, io = some id ∧ ioPath fd large io = .shm id := by
  rw [ioPath]
  split
  · cases io with
    | none => exact .inl rfl
    | some id => exact .inr ⟨id, rfl, rfl⟩
  · exact .inl rfl

/-- What the driver did, as far as it can be delivered. -/
def Honest (size : ℕ) (rd : BitVec 32) (bytes : List UInt8) : Prop :=
  0 < rd.toInt → rd.toInt ≤ size ∧ rd.toInt ≤ bytes.length

/-- The server gets a buffer of its own, and one for each segment that the client may name. -/
structure Buffered (sv : Server) (size : ℕ) (io : Option (BitVec 32)) : Prop where
  own : (sv.readBuffer (-1) size).isSome = true
  segment : ∀ id, io = some id → id.toInt ≠ -1 ∧ (sv.readBuffer id.toInt size).isSome = true

/-- Whatever the threshold selects, the caller gets what the driver has put there. -/
theorem devRead_eq (haw : 4 ≤ aw) {io : Option (BitVec 32)} (h : Reads sv f (min size shmMax) offset rd bytes)
    (hb : Buffered sv (min size shmMax) io) (hd : Honest (min size shmMax) rd bytes) :
    devRead sv m f size offset io = some ⟨rd.toInt, if 0 < rd.toInt then bytes.take rd.toInt.toNat else []⟩ := by
  have hgot : ∀ mem : ℕ → UInt8, 0 < rd.toInt → slice (put mem 0 bytes) 0 rd.toInt.toNat = bytes.take rd.toInt.toNat := by
    intro mem hpos
    have hk : rd.toInt.toNat ≤ bytes.length := by
      have := (hd hpos).2
      omega
    rw [slice_take hk, slice_put]
  rw [devRead]
  obtain hp | ⟨id, hio, hp⟩ := ioPath_eq f.fd (decide (shmOn < min size shmMax)) io
  · obtain ⟨room, hroom⟩ := Option.isSome_iff_exists.mp hb.own
    rw [readPath, hp, readOn_inline haw h hroom]
    by_cases hpos : 0 < rd.toInt
    · rw [if_pos hpos, if_pos hpos, Int.min_eq_left (hd hpos).1, hgot _ hpos]
    · rw [if_neg hpos, if_neg hpos]
  · obtain ⟨hid, hroom⟩ := hb.segment id hio
    obtain ⟨room, hroom⟩ := Option.isSome_iff_exists.mp hroom
    rw [readPath, hp, readOn_shm haw h hid hroom]
    by_cases hpos : 0 < rd.toInt
    · rw [if_pos hpos, if_pos hpos, hgot _ hpos]
    · rw [if_neg hpos, if_neg hpos]

theorem devWrite_gets (haw : 4 ≤ aw) (m : Mem) (offset : BitVec 64) {buf : List UInt8} {io : Option (BitVec 32)} (h0 : taken buf size ≠ [])
    (hfetch : (sv.fetch f.fd.toNat f.node.toNat f.info.1).isSome = true) (hwrite : sv.write.isSome = true)
    (hio : ∀ id, io = some id → id.toInt ≠ -1 ∧ (sv.shmCacheGet id.toInt).isSome = true) :
    ∃ r, devWrite sv m f buf size offset io = some r ∧ Gets sv r f (taken buf size) offset := by
  have hd : (taken buf size).length ≤ shmMax := by
    rw [taken, List.length_take]
    omega
  rw [devWrite]
  obtain hp | ⟨id, hid, hp⟩ := ioPath_eq f.fd (decide (shmOn ≤ min size shmMax)) io
  · rw [writePath, hp]
    exact writeOn_gets haw h0 hd hfetch hwrite fun id hid => by cases hid
  · rw [writePath, hp]
    refine writeOn_gets haw h0 hd hfetch hwrite fun id' hid' => ?_
    injection hid' with hid'
    exact hio id' (hid' ▸ hid)

/-- When a transfer stays in its bounds: for the server by the request, for the client by the reply; and when it does not
    matter which way the bytes go. -/
theorem transfer_iff (aw : ℕ) (sv : Server) (haw : 4 ≤ aw) (hm : sv.Allocates) :
    (∀ (old seg : ℕ → UInt8) (s : Proto),
      ((∀ h, (sv.doRead aw old seg s).handed = some h → h.Fits) ↔ sv.ReadFits aw s) ∧
      ((∀ h, (sv.doWrite aw seg s).handed = some h → h.Fits) ↔ sv.WriteFits aw s) ∧
      ((∀ h, (sv.doReadBlock aw old seg s).handed = some h → h.Fits) ↔ sv.BlockFits aw s)) ∧
    (∀ (p : Path) (seg : ℕ → UInt8) (reply : Option Proto) (buf : List UInt8) (size : ℕ),
      ((onRead aw p seg reply).Within size ↔ ReadAnswered aw p reply size) ∧
      ((onReadBlock seg reply).Within size ↔ count reply ≤ size) ∧
      ((∃ d, onWrite aw buf size reply = some d ∧ d.Within size) ↔ WriteAnswered aw reply size)) ∧
    (∀ (f : File aw) (size : ℕ) (offset : BitVec 64) (rd : BitVec 32) (bytes : List UInt8) (id : BitVec 32),
      Reads sv f (min size shmMax) offset rd bytes → Buffered sv (min size shmMax) (some id) →
      ((∀ m m', readOn sv m f (min size shmMax) offset .inline = readOn sv m' f (min size shmMax) offset (.shm id)) ↔
        Honest (min size shmMax) rd bytes) ∧
      (Honest (min size shmMax) rd bytes → ∀ m m',
        devRead sv m f size offset (some id) = devRead sv m' f size offset none)) ∧
    ∀ (f : File aw) (buf : List UInt8) (size : ℕ) (offset : BitVec 64) (id : BitVec 32) (m m' : Mem),
      taken buf size ≠ [] → (sv.fetch f.fd.toNat f.node.toNat f.info.1).isSome = true → sv.write.isSome = true →
      id.toInt ≠ -1 → (sv.shmCacheGet id.toInt).isSome = true →
      ∃ r r', devWrite sv m f buf size offset (some id) = some r ∧ devWrite sv m' f buf size offset none = some r' ∧
        Gets sv r f (taken buf size) offset ∧ Gets sv r' f (taken buf size) offset := by
  refine ⟨fun old seg s => ⟨read_fits hm, write_fits, block_fits hm haw⟩,
    fun p seg reply buf size => ⟨onRead_within haw, onReadBlock_within, onWrite_within haw⟩, ?_, ?_⟩
  · intro f size offset rd bytes id h hb
    obtain ⟨room, hroom⟩ := Option.isSome_iff_exists.mp hb.own
    obtain ⟨hid, hseg⟩ := hb.segment id rfl
    obtain ⟨room', hroom'⟩ := Option.isSome_iff_exists.mp hseg
    refine ⟨read_same_iff haw h hroom hid hroom', fun hd m m' => ?_⟩
    rw [devRead_eq haw h hb hd, devRead_eq haw h ⟨hb.own, fun _ h => by cases h⟩ hd]
  · intro f buf size offset id m m' h0 hfetch hwrite hid hget
    have hio : ∀ id' : BitVec 32, some id = some id' → id'.toInt ≠ -1 ∧ (sv.shmCacheGet id'.toInt).isSome = true := by
      rintro _ ⟨⟩
      exact ⟨hid, hget⟩
    have hnone : ∀ id' : BitVec 32, none = some id' → id'.toInt ≠ -1 ∧ (sv.shmCacheGet id'.toInt).isSome = true := nofun
    obtain ⟨r, hr, hgets⟩ := devWrite_gets haw m offset h0 hfetch hwrite hio
    obtain ⟨r', hr', hgets'⟩ := devWrite_gets haw m' offset h0 hfetch hwrite hnone
    exact ⟨r, r', hr, hr', hgets, hgets'⟩

end

/-- A server with a segment of 256 KiB and one of 16 bytes, and a driver with three bytes to read. -/
def sampleServer : Server where
  malloc := some
  attach id := if id = 1 then some shmMax else if id = 2 then some 16 else none
  fetch _ _ _ := some []
  errno := 5
  read := some fun _ _ _ _ => (3, [1, 2, 3])
  write := some fun _ finfo data _ _ => (BitVec.ofNat 32 data.length, finfo)
  readBlock := some fun _ _ => (3, [1, 2, 3])

def sampleFile : File 8 := ⟨3, 7, List.replicate 136 0, rfl⟩

theorem sample_allocates : sampleServer.Allocates := fun _ _ _ h => Nat.le_of_eq (Option.some.inj h)

/-- A read of 300 bytes on both paths, and a write of 256. -/
theorem transfer_iff_sample :
    (∀ m m', devRead sampleServer m sampleFile 300 0 (some 1) = devRead sampleServer m' sampleFile 300 0 none) ∧
    ∀ m m', ∃ r r', devWrite sampleServer m sampleFile (List.replicate 256 9) 256 0 (some 1) = some r ∧
      devWrite sampleServer m' sampleFile (List.replicate 256 9) 256 0 none = some r' ∧
      Gets sampleServer r sampleFile (taken (List.replicate 256 9) 256) 0 ∧
      Gets sampleServer r' sampleFile (taken (List.replicate 256 9) 256) 0 := by
  obtain ⟨-, -, hread, hwrite⟩ := transfer_iff 8 sampleServer (by decide) sample_allocates
  refine ⟨?_, fun m m' => hwrite sampleFile _ 256 0 1 m m' (by decide) rfl rfl (by decide) rfl⟩
  refine (hread sampleFile 300 0 3 [1, 2, 3] 1 ⟨by decide, _, _, rfl, rfl, rfl⟩ ⟨rfl, ?_⟩).2 fun _ => by decide
  intro id h
  cases h
  exact ⟨by decide, rfl⟩

/-- A reply that counts 5 and then has an item of the length -2^31 + 1. -/
def negativeReply : Proto := initData (fun a => [4, 0, 0, 0, 5, 0, 0, 0, 1, 0, 0, 128].getD a 0) 12

/-- A negative size goes with the buffer on the stack, and 4096 with a segment of 16 bytes; a reply that counts 2000 is
    copied out of the segment into a buffer of 300; and a negative length makes the copy into one of 10 endless. -/
theorem transfer_unbounded :
    ((send (fun _ => 0) (fun _ => 0) (readFields sampleFile .inline (2 ^ 32 - 5) 0)).map fun s =>
      (sampleServer.doRead 8 (fun _ => 0) (fun _ => 0) s).handed) = some (some ⟨32, -5⟩) ∧
    ((send (fun _ => 0) (fun _ => 0) (readFields sampleFile (.shm 2) 4096 0)).map fun s =>
      (sampleServer.doRead 8 (fun _ => 0) (fun _ => 0) s).handed) = some (some ⟨16, 4096⟩) ∧
    ¬(⟨32, -5⟩ : Handed).Fits ∧ ¬(⟨16, 4096⟩ : Handed).Fits ∧
    ((send (fun _ => 0) (fun _ => 0) ([.int 2000] : List (Item 8))).map fun out =>
      (onRead 8 (readPath sampleFile.fd 300 (some 1)) (fun _ => 0) (some out)).copied.length) = some 2000 ∧
    count (some negativeReply) = 5 ∧
      ¬(onRead 8 (readPath sampleFile.fd 10 (some 1)) (fun _ => 0) (some negativeReply)).Within 10 := by
  refine ⟨by decide +kernel, by decide +kernel, fun h => absurd h.1 (by decide), fun h => absurd h.2 (by decide),
    by decide +kernel, by decide +kernel, fun h => ?_⟩
  have hbounded := ((onRead_within (by decide)).mp h).2 negativeReply rfl rfl (by decide +kernel)
  revert hbounded
  unfold Bounded
  decide +kernel

end EwokOS.Libc.Transfer
