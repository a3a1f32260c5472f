import EwokOS.Schemes.Run
import Mathlib.Algebra.Ring.Int.Defs
import Mathlib.Algebra.Ring.Nat
import Mathlib.Logic.Function.Basic

/-! The ring of a pipe in shared memory (`shm_pipe.c`), with one writer and one reader.

    Positions run freely and are 32-bit numbers with a sign; the place of a byte is its position
    modulo the capacity:

        data   . . r . . . . w . .        readable  w - r
                   |---------|            writable  capacity - (w - r)

    A call looks at the other side's position once, copies with at most two `memcpy`, and stores its own
    position last. Calls of the two sides interleave at any byte. As long as no position passes 2^31 the
    ring is a FIFO; afterwards the remainder of a negative position lies in front of the data. -/

namespace EwokOS.Vfs

open Schemes

/-- The `int32_t` that a number becomes. -/
def wrap (x : ℤ) : ℤ := Int.bmod x (2 ^ 32)

/-- `shm_pipe_t`. -/
structure Ring where
  writePos : ℤ
  readPos : ℤ
  capacity : ℤ
  data : ℤ → UInt8

namespace Ring

/-- `shm_pipe_readable`. -/
def readable (r : Ring) : ℤ := wrap (r.writePos - r.readPos)

/-- `shm_pipe_writable`. -/
def writable (r : Ring) : ℤ := wrap (r.capacity - wrap (r.writePos - r.readPos))

/-- What `shm_pipe_write` returns. -/
def writeSize (r : Ring) (size : ℤ) : ℤ :=
  if r.writable ≤ 0 then 0 else if r.writable < size then r.writable else size

/-- What `shm_pipe_read` returns. -/
def readSize (r : Ring) (size : ℤ) : ℤ :=
  if r.readable ≤ 0 then 0 else if r.readable < size then r.readable else size

/-- `rp % ring->capacity`, with the sign of `rp`. -/
def offset (r : Ring) (pos : ℤ) : ℤ := pos.tmod r.capacity

/-- The bytes up to the end of the data. -/
def first (r : Ring) (pos : ℤ) : ℤ := wrap (r.capacity - r.offset pos)

/-- Where byte `j` of a transfer of `size` bytes lies that starts at `pos`. -/
def place (r : Ring) (pos size j : ℤ) : ℤ :=
  if size ≤ r.first pos ∨ j < r.first pos then r.offset pos + j else j - r.first pos

/-- Bytes `j` to `j + k` of a transfer are copied by one `memcpy`. -/
def Whole (r : Ring) (pos size j k : ℤ) : Prop :=
  size ≤ r.first pos ∨ j + k ≤ r.first pos ∨ r.first pos ≤ j

instance (r : Ring) (pos size j k : ℤ) : Decidable (r.Whole pos size j k) :=
  inferInstanceAs (Decidable (_ ∨ _))

/-- The bytes `i` to `i + k` lie in the data. -/
def covers (r : Ring) (i k : ℤ) : Bool := decide (0 ≤ i) && decide (i + k ≤ r.capacity)

end Ring

/-- How far a call of `shm_pipe_write` has come. -/
inductive Writer where
  | idle
  | copying (buf : ℕ → UInt8) (size done : ℕ)

/-- How far a call of `shm_pipe_read` has come. -/
inductive Reader where
  | idle
  | copying (buf : ℕ → UInt8) (size done : ℕ)

/-- The ring, the two calls, and what has been accepted and returned so far. -/
structure Pipe where
  ring : Ring
  writer : Writer
  reader : Reader
  sent : ℕ → UInt8
  sentLen : ℕ
  rcvd : ℕ → UInt8
  rcvdLen : ℕ
  /-- Every access so far was to the data of the ring. -/
  inside : Bool

inductive PipeOp where
  | write (buf : ℕ → UInt8) (size : ℕ)
  | copyIn (k : ℕ)
  | publish
  | read (size : ℕ)
  | copyOut (k : ℕ)
  | release

/-- `n` bytes of `g` behind `len` bytes of `f`. -/
def appendAt (f : ℕ → UInt8) (len : ℕ) (g : ℕ → UInt8) : ℕ → UInt8 := fun i =>
  if i < len then f i else g (i - len)

namespace Pipe

/-- `shm_pipe_init`. -/
def init (capacity : ℤ) : Pipe :=
  ⟨⟨0, 0, capacity, fun _ => 0⟩, .idle, .idle, fun _ => 0, 0, fun _ => 0, 0, true⟩

/-- `SHM_PIPE_DATA_SIZE`. -/
def dataSize : ℤ := 4096 * 32 - 64

/-- One step of the writer or the reader. -/
def step (p : Pipe) : PipeOp → Option Pipe
  | .write buf size =>
    match p.writer with
    | .idle =>
      if 2 ^ 31 ≤ size then none
      else if p.ring.writeSize size ≤ 0 then some p
      else some { p with writer := .copying buf (p.ring.writeSize size).toNat 0 }
    | .copying .. => none
  | .copyIn k =>
    match p.writer with
    | .idle => none
    | .copying buf size done =>
      let i := p.ring.place p.ring.writePos size done
      if 0 < k ∧ done + k ≤ size ∧ p.ring.Whole p.ring.writePos size done k then
        some { p with
          ring := { p.ring with
            data := fun x => if i ≤ x ∧ x < i + k then buf (done + (x - i).toNat) else p.ring.data x }
          writer := .copying buf size (done + k)
          inside := p.inside && p.ring.covers i k }
      else none
  | .publish =>
    match p.writer with
    | .idle => none
    | .copying buf size done =>
      if done = size then
        some { p with
          ring := { p.ring with writePos := wrap (p.ring.writePos + size) }
          writer := .idle
          sent := appendAt p.sent p.sentLen buf
          sentLen := p.sentLen + size }
      else none
  | .read size =>
    match p.reader with
    | .idle =>
      if 2 ^ 31 ≤ size then none
      else if p.ring.readSize size ≤ 0 then some p
      else some { p with reader := .copying (fun _ => 0) (p.ring.readSize size).toNat 0 }
    | .copying .. => none
  | .copyOut k =>
    match p.reader with
    | .idle => none
    | .copying buf size done =>
      let i := p.ring.place p.ring.readPos size done
      if 0 < k ∧ done + k ≤ size ∧ p.ring.Whole p.ring.readPos size done k then
        some { p with
          reader := .copying (appendAt buf done fun j => p.ring.data (i + j)) size (done + k)
          inside := p.inside && p.ring.covers i k }
      else none
  | .release =>
    match p.reader with
    | .idle => none
    | .copying buf size done =>
      if done = size then
        some { p with
          ring := { p.ring with readPos := wrap (p.ring.readPos + size) }
          reader := .idle
          rcvd := appendAt p.rcvd p.rcvdLen buf
          rcvdLen := p.rcvdLen + size }
      else none

/-- What makes the ring a stream of bytes. -/
structure Fifo (p : Pipe) : Prop where
  order : p.rcvdLen ≤ p.sentLen ∧ ∀ k < p.rcvdLen, p.rcvd k = p.sent k
  bounded : (p.sentLen : ℤ) ≤ p.rcvdLen + p.ring.capacity
  inside : p.inside = true
  rest : p.writer = .idle → p.reader = .idle → p.ring.readable + p.ring.writable = p.ring.capacity
  full : ∀ size : ℤ, 0 < size → p.ring.writeSize size = 0 → (p.sentLen : ℤ) = p.rcvdLen + p.ring.capacity
  empty : ∀ size : ℤ, 0 < size → p.ring.readSize size = 0 → p.sentLen = p.rcvdLen

/-- A call to write that would take the position past 2^31 is not begun. -/
def Short (p : Pipe) : PipeOp → Prop
  | .write _ size => p.ring.writePos + p.ring.writeSize size < 2 ^ 31
  | _ => True

instance (p : Pipe) : DecidablePred (Short p)
  | .write _ _ => inferInstanceAs (Decidable (_ < _))
  | .copyIn _ | .publish | .read _ | .copyOut _ | .release => inferInstanceAs (Decidable True)

/-! ### Places -/

theorem wrap_of_lt {x : ℤ} (h₁ : -2 ^ 31 ≤ x) (h₂ : x < 2 ^ 31) : wrap x = x := by
  refine Int.bmod_eq_of_le ?_ ?_ <;> omega

section
variable {r : Ring} {c a size j k t : ℕ}

theorem offset_eq (hc : r.capacity = c) : r.offset a = (a % c : ℕ) := by
  rw [Ring.offset, hc, ← Int.ofNat_tmod]

theorem first_eq (hc : r.capacity = c) (h0 : 0 < c) (hlt : c < 2 ^ 31) :
    r.first a = ((c - a % c : ℕ) : ℤ) := by
  have hmod : a % c < c := Nat.mod_lt a h0
  rw [Ring.first, offset_eq hc, hc, wrap_of_lt (by omega) (by omega)]
  omega

/-- Byte `j` of a transfer lies where its position says. -/
theorem place_eq (hc : r.capacity = c) (h0 : 0 < c) (hlt : c < 2 ^ 31) (hsize : size ≤ c) (hj : j < size) :
    r.place a size j = ((a + j) % c : ℕ) := by
  have hmod : a % c < c := Nat.mod_lt a h0
  have hsum : (a + j) % c = (a % c + j) % c := (Nat.mod_add_mod a c j).symm
  rw [Ring.place, first_eq hc h0 hlt, offset_eq hc, hsum]
  by_cases hfit : j < c - a % c
  · have hin : (a % c + j) % c = a % c + j := Nat.mod_eq_of_lt (by omega)
    rw [if_pos (.inr (by omega)), hin]
    omega
  · have hsub : (a % c + j) % c = (a % c + j - c) % c := Nat.mod_eq_sub_mod (by omega)
    have hin : (a % c + j - c) % c = a % c + j - c := Nat.mod_eq_of_lt (by omega)
    rw [if_neg (by omega), hsub, hin]
    omega

/-- The bytes of one `memcpy` lie side by side. -/
theorem place_add (h : r.Whole a size j k) (ht : t < k) :
    r.place a size (j + t : ℕ) = r.place a size j + t := by
  rw [Ring.place, Ring.place]
  rcases h with h | h | h
  · rw [if_pos (.inl h), if_pos (.inl h)]
    omega
  · rw [if_pos (.inr (by omega)), if_pos (.inr (by omega))]
    omega
  · by_cases hs : (size : ℤ) ≤ r.first a
    · rw [if_pos (.inl hs), if_pos (.inl hs)]
      omega
    · rw [if_neg (by omega), if_neg (by omega)]
      omega

/-- A `memcpy` stays in the data. -/
theorem covers_place (hc : r.capacity = c) (h0 : 0 < c) (hlt : c < 2 ^ 31) (hsize : size ≤ c)
    (hk : 0 < k) (hjk : j + k ≤ size) (h : r.Whole a size j k) : r.covers (r.place a size j) k = true := by
  have hfirst := place_eq (a := a) hc h0 hlt hsize (show j < size by omega)
  have hlast := place_eq (a := a) hc h0 hlt hsize (show j + (k - 1) < size by omega)
  rw [place_add h (show k - 1 < k by omega)] at hlast
  have hm : (a + (j + (k - 1))) % c < c := Nat.mod_lt _ h0
  rw [Ring.covers, hc, Bool.and_eq_true, decide_eq_true_iff, decide_eq_true_iff]
  omega

end

/-- Positions less than a capacity apart have places of their own. -/
theorem place_inj {c a b : ℕ} (h : a % c = b % c) (hab : a ≤ b) (hlt : b < a + c) : a = b := by
  have hdvd : c ∣ b - a := Nat.dvd_of_mod_eq_zero (Nat.sub_mod_eq_zero_of_mod_eq h.symm)
  have hz : b - a = 0 := Nat.eq_zero_of_dvd_of_lt hdvd (by omega)
  omega

/-! ### The invariant -/

/-- The writer has copied `done` of `size` bytes behind all that was sent. -/
def Filling (c : ℕ) (p : Pipe) : Writer → Prop
  | .idle => True
  | .copying buf size done => done ≤ size ∧ p.sentLen + size ≤ p.rcvdLen + c ∧
    p.sentLen + size < 2 ^ 31 ∧ ∀ j < done, p.ring.data ((p.sentLen + j) % c : ℕ) = buf j

/-- The reader has copied `done` of `size` bytes that were sent and not returned. -/
def Draining (p : Pipe) : Reader → Prop
  | .idle => True
  | .copying buf size done => done ≤ size ∧ p.rcvdLen + size ≤ p.sentLen ∧
    ∀ j < done, buf j = p.sent (p.rcvdLen + j)

/-- Positions count the bytes, and the cells between them hold what was sent. -/
structure Tracks (c : ℕ) (p : Pipe) : Prop where
  cap : p.ring.capacity = c
  wpos : p.ring.writePos = p.sentLen
  rpos : p.ring.readPos = p.rcvdLen
  limit : p.sentLen < 2 ^ 31
  le : p.rcvdLen ≤ p.sentLen
  same : ∀ k < p.rcvdLen, p.rcvd k = p.sent k
  bounded : p.sentLen ≤ p.rcvdLen + c
  inside : p.inside = true
  cells : ∀ k, p.rcvdLen ≤ k → k < p.sentLen → p.ring.data (k % c : ℕ) = p.sent k
  writer : Filling c p p.writer
  reader : Draining p p.reader

section
variable {c : ℕ} {p q : Pipe}

theorem tracks_init (c : ℕ) : Tracks c (init c) :=
  ⟨rfl, rfl, rfl, Nat.two_pow_pos 31, Nat.le_refl 0, nofun, Nat.zero_le _, rfl, nofun, trivial, trivial⟩

theorem Tracks.readable (h : Tracks c p) : p.ring.readable = p.sentLen - p.rcvdLen := by
  have hl := h.limit
  have hle := h.le
  rw [Ring.readable, h.wpos, h.rpos, wrap_of_lt (by omega) (by omega)]

theorem Tracks.writable (h : Tracks c p) (hlt : c < 2 ^ 31) :
    p.ring.writable = c - (p.sentLen - p.rcvdLen) := by
  have hl := h.limit
  have hle := h.le
  have hb := h.bounded
  rw [Ring.writable, h.cap, h.wpos, h.rpos, wrap_of_lt (x := (p.sentLen : ℤ) - p.rcvdLen) (by omega) (by omega),
    wrap_of_lt (by omega) (by omega)]

theorem Tracks.writeSize (h : Tracks c p) (hlt : c < 2 ^ 31) (size : ℤ) :
    p.ring.writeSize size ≤ c - (p.sentLen - p.rcvdLen) ∧
      (0 < size → p.ring.writeSize size = 0 → p.sentLen = p.rcvdLen + c) := by
  have hb := h.bounded
  have hle := h.le
  rw [Ring.writeSize, h.writable hlt]
  split_ifs <;> omega

theorem Tracks.readSize (h : Tracks c p) (size : ℤ) :
    p.ring.readSize size ≤ p.sentLen - p.rcvdLen ∧
      (0 < size → p.ring.readSize size = 0 → p.sentLen = p.rcvdLen) := by
  have hle := h.le
  rw [Ring.readSize, h.readable]
  split_ifs <;> omega

theorem Tracks.fifo (h : Tracks c p) (hlt : c < 2 ^ 31) : Fifo p := by
  refine ⟨⟨h.le, h.same⟩, ?_, h.inside, fun _ _ => ?_, fun size h0 hs => ?_, fun size h0 hs => ?_⟩
  · rw [h.cap]
    exact_mod_cast h.bounded
  · rw [h.readable, h.writable hlt, h.cap]
    omega
  · rw [h.cap]
    exact_mod_cast (h.writeSize hlt size).2 h0 hs
  · exact (h.readSize size).2 h0 hs

/-! ### One step -/

theorem tracks_write {buf : ℕ → UInt8} {size : ℕ} (h : Tracks c p) (hlt : c < 2 ^ 31)
    (hs : Short p (.write buf size)) (hst : p.step (.write buf size) = some q) : Tracks c q := by
  rw [step] at hst
  split at hst
  · split_ifs at hst with h₁ h₂
    · cases hst
      exact h
    · cases hst
      have hspace := (h.writeSize hlt size).1
      have hshort : p.ring.writePos + p.ring.writeSize size < 2 ^ 31 := hs
      rw [h.wpos] at hshort
      have hb := h.bounded
      have hroom : p.sentLen + (p.ring.writeSize size).toNat ≤ p.rcvdLen + c := by omega
      have hlim : p.sentLen + (p.ring.writeSize size).toNat < 2 ^ 31 := by omega
      exact { h with writer := ⟨Nat.zero_le _, hroom, hlim, nofun⟩ }
  · cases hst

theorem tracks_read {size : ℕ} (h : Tracks c p)
    (hst : p.step (.read size) = some q) : Tracks c q := by
  rw [step] at hst
  split at hst
  · split_ifs at hst with h₁ h₂
    · cases hst
      exact h
    · cases hst
      have havail := (h.readSize size).1
      have hle := h.le
      have hin : p.rcvdLen + (p.ring.readSize size).toNat ≤ p.sentLen := by omega
      exact { h with reader := ⟨Nat.zero_le _, hin, nofun⟩ }
  · cases hst

theorem tracks_copyIn {k : ℕ} (h : Tracks c p) (h0 : 0 < c) (hlt : c < 2 ^ 31)
    (hst : p.step (.copyIn k) = some q) : Tracks c q := by
  rw [step] at hst
  split at hst
  · cases hst
  · next buf size done hw =>
    split_ifs at hst with hk
    cases hst
    obtain ⟨hk0, hdone, hwhole⟩ := hk
    obtain ⟨hds, hroom, hlim, hcopied⟩ : Filling c p (.copying buf size done) := hw ▸ h.writer
    have hle := h.le
    have hsize : size ≤ c := by omega
    rw [h.wpos] at hwhole ⊢
    have hstart := place_eq (a := p.sentLen) h.cap h0 hlt hsize (show done < size by omega)
    have hcov := covers_place h.cap h0 hlt hsize hk0 hdone hwhole
    -- a cell is written if its position is one of those copied now
    have hcell : ∀ x, p.rcvdLen ≤ x → x < p.rcvdLen + c → ¬(p.sentLen + done ≤ x ∧ x < p.sentLen + done + k) →
        ¬(p.ring.place p.sentLen size done ≤ (x % c : ℕ) ∧
          ((x % c : ℕ) : ℤ) < p.ring.place p.sentLen size done + k) := by
      rintro x hx₁ hx₂ hx ⟨h₁, h₂⟩
      have ht : (x % c : ℕ) - (p.ring.place p.sentLen size done).toNat < k := by omega
      have hp := place_add hwhole ht
      rw [place_eq h.cap h0 hlt hsize (show done + ((x % c : ℕ) - (p.ring.place p.sentLen size done).toNat) < size by
        omega)] at hp
      have hmod : x % c = (p.sentLen + (done + ((x % c : ℕ) -
        (p.ring.place p.sentLen size done).toNat))) % c := by omega
      rcases Nat.le_total x (p.sentLen + (done + ((x % c : ℕ) -
        (p.ring.place p.sentLen size done).toNat))) with hl | hl
      · have := place_inj hmod hl (by omega)
        omega
      · have := place_inj hmod.symm hl (by omega)
        omega
    refine { h with
      inside := ?_
      cells := fun x (hx₁ : p.rcvdLen ≤ x) (hx₂ : x < p.sentLen) => ?_
      writer := ⟨hdone, hroom, hlim, fun j hj => ?_⟩ }
    · show (p.inside && p.ring.covers _ _) = true
      rw [h.inside, hcov]
      rfl
    · have hb := h.bounded
      have hout := hcell x hx₁ (by omega) (by omega)
      exact (if_neg hout).trans (h.cells x hx₁ hx₂)
    · by_cases hjd : j < done
      · have hout := hcell (p.sentLen + j) (by omega) (by omega) (by omega)
        exact (if_neg hout).trans (hcopied j hjd)
      · have hp := place_add hwhole (show j - done < k by omega)
        rw [show done + (j - done) = j by omega, place_eq h.cap h0 hlt hsize (show j < size by omega)] at hp
        have hto : done + (((p.sentLen + j) % c : ℕ) - p.ring.place p.sentLen size done).toNat = j := by omega
        have hnow : p.ring.place p.sentLen size done ≤ ((p.sentLen + j) % c : ℕ) ∧
            (((p.sentLen + j) % c : ℕ) : ℤ) < p.ring.place p.sentLen size done + k := by omega
        exact (if_pos hnow).trans (congrArg buf hto)

theorem tracks_publish (h : Tracks c p) (hst : p.step .publish = some q) : Tracks c q := by
  rw [step] at hst
  split at hst
  · cases hst
  · next buf size done hw =>
    split_ifs at hst with hd
    cases hst
    obtain ⟨-, hroom, hlim, hcopied⟩ : Filling c p (.copying buf size done) := hw ▸ h.writer
    have hpos : wrap (p.ring.writePos + size) = ((p.sentLen + size : ℕ) : ℤ) := by
      rw [h.wpos, wrap_of_lt (by omega) (by omega)]
      omega
    have hle := h.le
    have hold : ∀ k < p.sentLen, appendAt p.sent p.sentLen buf k = p.sent k := fun k hk => if_pos hk
    refine { h with
      wpos := hpos
      limit := hlim
      le := Nat.le_add_right_of_le hle
      same := fun k (hk : k < p.rcvdLen) => ?_
      bounded := hroom
      cells := fun k (hk₁ : p.rcvdLen ≤ k) (hk₂ : k < p.sentLen + size) => ?_
      writer := trivial
      reader := ?_ }
    · show p.rcvd k = appendAt p.sent p.sentLen buf k
      rw [hold k (by omega)]
      exact h.same k hk
    · show p.ring.data (k % c : ℕ) = appendAt p.sent p.sentLen buf k
      by_cases hk : k < p.sentLen
      · rw [hold k hk]
        exact h.cells k hk₁ hk
      · have hj := hcopied (k - p.sentLen) (by omega)
        rw [show p.sentLen + (k - p.sentLen) = k by omega] at hj
        rw [hj]
        exact (if_neg hk).symm
    · show Draining _ p.reader
      have hr := h.reader
      cases hrd : p.reader with
      | idle => trivial
      | copying rbuf rsize rdone =>
        rw [hrd] at hr
        obtain ⟨h₁, h₂, h₃⟩ := hr
        refine ⟨h₁, Nat.le_add_right_of_le h₂, fun j hj => ?_⟩
        show rbuf j = appendAt p.sent p.sentLen buf (p.rcvdLen + j)
        rw [hold _ (by omega)]
        exact h₃ j hj

theorem tracks_copyOut {k : ℕ} (h : Tracks c p) (h0 : 0 < c) (hlt : c < 2 ^ 31)
    (hst : p.step (.copyOut k) = some q) : Tracks c q := by
  rw [step] at hst
  split at hst
  · cases hst
  · next buf size done hr =>
    split_ifs at hst with hk
    cases hst
    obtain ⟨hk0, hdone, hwhole⟩ := hk
    obtain ⟨-, hin, hgot⟩ : Draining p (.copying buf size done) := hr ▸ h.reader
    have hb := h.bounded
    have hsize : size ≤ c := by omega
    rw [h.rpos] at hwhole ⊢
    have hcov := covers_place h.cap h0 hlt hsize hk0 hdone hwhole
    refine { h with
      inside := ?_
      reader := ⟨hdone, hin, fun j (hj : j < done + k) => ?_⟩ }
    · show (p.inside && p.ring.covers _ _) = true
      rw [h.inside, hcov]
      rfl
    · show appendAt buf done _ j = p.sent (p.rcvdLen + j)
      by_cases hjd : j < done
      · exact (if_pos hjd).trans (hgot j hjd)
      · have hp := place_add hwhole (show j - done < k by omega)
        rw [show done + (j - done) = j by omega, place_eq h.cap h0 hlt hsize (show j < size by omega)] at hp
        have hcell := h.cells (p.rcvdLen + j) (by omega) (by omega)
        rw [hp] at hcell
        exact (if_neg hjd).trans hcell

theorem tracks_release (h : Tracks c p) (hst : p.step .release = some q) : Tracks c q := by
  rw [step] at hst
  split at hst
  · cases hst
  · next buf size done hr =>
    split_ifs at hst with hd
    cases hst
    obtain ⟨-, hin, hgot⟩ : Draining p (.copying buf size done) := hr ▸ h.reader
    have hlim := h.limit
    have hpos : wrap (p.ring.readPos + size) = ((p.rcvdLen + size : ℕ) : ℤ) := by
      rw [h.rpos, wrap_of_lt (by omega) (by omega)]
      omega
    have hb := h.bounded
    refine { h with
      rpos := hpos
      le := hin
      same := fun k (hk : k < p.rcvdLen + size) => ?_
      bounded := ?_
      cells := fun k (hk₁ : p.rcvdLen + size ≤ k) hk₂ => h.cells k (by omega) hk₂
      writer := ?_
      reader := trivial }
    · show appendAt p.rcvd p.rcvdLen buf k = p.sent k
      by_cases hk' : k < p.rcvdLen
      · exact (if_pos hk').trans (h.same k hk')
      · refine (if_neg hk').trans ((hgot (k - p.rcvdLen) (by omega)).trans ?_)
        rw [show p.rcvdLen + (k - p.rcvdLen) = k by omega]
    · show p.sentLen ≤ p.rcvdLen + size + c
      omega
    · show Filling c _ p.writer
      have hw := h.writer
      cases hwr : p.writer with
      | idle => trivial
      | copying wbuf wsize wdone =>
        rw [hwr] at hw
        obtain ⟨h₁, h₂, h₃, h₄⟩ := hw
        refine ⟨h₁, ?_, h₃, h₄⟩
        show p.sentLen + wsize ≤ p.rcvdLen + size + c
        omega

theorem tracks_step {o : PipeOp} (h : Tracks c p) (h0 : 0 < c) (hlt : c < 2 ^ 31) (hs : Short p o)
    (hst : p.step o = some q) : Tracks c q := by
  cases o with
  | write buf size => exact tracks_write h hlt hs hst
  | copyIn k => exact tracks_copyIn h h0 hlt hst
  | publish => exact tracks_publish h hst
  | read size => exact tracks_read h hst
  | copyOut k => exact tracks_copyOut h h0 hlt hst
  | release => exact tracks_release h hst

/-- As long as no call takes the writer's position past 2^31, the ring is a FIFO of bytes. -/
theorem ring_fifo {c : ℕ} (h0 : 0 < c) (hlt : c < 2 ^ 31) {p : Pipe}
    (h : Reach step Short (init c) p) : Fifo p :=
  (h.inv (I := Tracks c) (tracks_init c) fun _ _ _ hi hs hst => tracks_step hi h0 hlt hs hst).fifo hlt

/-- Five bytes go into a ring of eight, and three of them out again. -/
theorem ring_fifo_eight : ∃ p, Reach step Short (init (8 : ℕ)) p ∧ p.sentLen = 5 ∧ p.rcvdLen = 3 ∧ Fifo p := by
  have hrun : ∃ p, runIf step (fun p o => decide (Short p o)) (init (8 : ℕ))
      [.write (fun i => .ofNat i) 5, .copyIn 5, .publish, .read 3, .copyOut 3, .release] = some p ∧
      p.sentLen = 5 ∧ p.rcvdLen = 3 := ⟨_, rfl, rfl, rfl⟩
  obtain ⟨p, hp, hs, hr⟩ := hrun
  have h : Reach step Short (init (8 : ℕ)) p := reach_of_runIf hp fun _ _ => of_decide_eq_true
  exact ⟨p, h, hs, hr, ring_fifo (by decide) (by decide) h⟩

/-! ### Past 2^31 -/

/-- A whole call to write that needs one `memcpy`. -/
theorem pass_write {n : ℕ} (hw : p.writer = .idle) (hn : 0 < n) (hlt : n < 2 ^ 31) (hroom : n ≤ p.ring.writable)
    (hfit : n ≤ p.ring.first p.ring.writePos) :
    ∃ q, Reach step Free p q ∧ q.writer = .idle ∧ q.reader = p.reader ∧
      (∃ d, q.ring = ⟨wrap (p.ring.writePos + n), p.ring.readPos, p.ring.capacity, d⟩) ∧
      q.inside = (p.inside && p.ring.covers (p.ring.offset p.ring.writePos) n) := by
  have hsize : p.ring.writeSize n = n := by
    rw [Ring.writeSize, if_neg (by omega), if_neg (by omega)]
  have hplace : p.ring.place p.ring.writePos n (0 : ℕ) = p.ring.offset p.ring.writePos := by
    rw [Ring.place, if_pos (.inl hfit)]
    omega
  have hbegin : p.step (.write (fun _ => 0) n) = some { p with writer := .copying (fun _ => 0) n 0 } := by
    rw [step, hw]
    dsimp only
    rw [if_neg (by omega), hsize, if_neg (by omega), Int.toNat_natCast]
  obtain ⟨d, hcopy⟩ : ∃ d, step { p with writer := .copying (fun _ => 0) n 0 } (.copyIn n) = some { p with
      ring := { p.ring with data := d }
      writer := .copying (fun _ => 0) n (0 + n)
      inside := p.inside && p.ring.covers (p.ring.offset p.ring.writePos) n } := by
    refine ⟨fun x => if p.ring.offset p.ring.writePos ≤ x ∧ x < p.ring.offset p.ring.writePos + n then 0
      else p.ring.data x, ?_⟩
    rw [step]
    dsimp only
    rw [if_pos ⟨hn, by omega, .inl hfit⟩, hplace]
  have hend : step { p with
      ring := { p.ring with data := d }
      writer := .copying (fun _ => 0) n (0 + n)
      inside := p.inside && p.ring.covers (p.ring.offset p.ring.writePos) n } .publish = some { p with
      ring := { p.ring with data := d, writePos := wrap (p.ring.writePos + n) }
      writer := .idle
      sent := appendAt p.sent p.sentLen fun _ => 0
      sentLen := p.sentLen + n
      inside := p.inside && p.ring.covers (p.ring.offset p.ring.writePos) n } := by
    rw [step]
    dsimp only
    rw [if_pos (Nat.zero_add n)]
  exact ⟨_, .next (.next (.next .start trivial hbegin) trivial hcopy) trivial hend, rfl, rfl, ⟨d, rfl⟩, rfl⟩

/-- A whole call to read that needs one `memcpy`. -/
theorem pass_read {n : ℕ} (hr : p.reader = .idle) (hn : 0 < n) (hlt : n < 2 ^ 31) (havail : n ≤ p.ring.readable)
    (hfit : n ≤ p.ring.first p.ring.readPos) :
    ∃ q, Reach step Free p q ∧ q.reader = .idle ∧ q.writer = p.writer ∧
      q.ring = { p.ring with readPos := wrap (p.ring.readPos + n) } := by
  have hsize : p.ring.readSize n = n := by
    rw [Ring.readSize, if_neg (by omega), if_neg (by omega)]
  have hbegin : p.step (.read n) = some { p with reader := .copying (fun _ => 0) n 0 } := by
    rw [step, hr]
    dsimp only
    rw [if_neg (by omega), hsize, if_neg (by omega), Int.toNat_natCast]
  obtain ⟨b, x, hcopy⟩ : ∃ b x, step { p with reader := .copying (fun _ => 0) n 0 } (.copyOut n) = some { p with
      reader := .copying b n (0 + n)
      inside := x } := by
    refine ⟨appendAt (fun _ => 0) 0 fun j => p.ring.data (p.ring.place p.ring.readPos n (0 : ℕ) + j),
      p.inside && p.ring.covers (p.ring.place p.ring.readPos n (0 : ℕ)) n, ?_⟩
    rw [step]
    dsimp only
    rw [if_pos ⟨hn, by omega, .inl hfit⟩]
  have hend : step { p with
      reader := .copying b n (0 + n)
      inside := x } .release = some { p with
      ring := { p.ring with readPos := wrap (p.ring.readPos + n) }
      reader := .idle
      rcvd := appendAt p.rcvd p.rcvdLen b
      rcvdLen := p.rcvdLen + n
      inside := x } := by
    rw [step]
    dsimp only
    rw [if_pos (Nat.zero_add n)]
  exact ⟨_, .next (.next (.next .start trivial hbegin) trivial hcopy) trivial hend, rfl, rfl, rfl⟩

/-- The ring is filled and emptied `k` times. -/
theorem rounds (c k : ℕ) (h0 : 0 < c) (h : k * c < 2 ^ 31) :
    ∃ p d, Reach step Free (init c) p ∧ p.writer = .idle ∧ p.reader = .idle ∧
      p.ring = ⟨(k * c : ℕ), (k * c : ℕ), c, d⟩ := by
  induction k with
  | zero => exact ⟨init c, _, .start, rfl, rfl, by rw [Nat.zero_mul]; rfl⟩
  | succ k ih =>
    rw [Nat.succ_mul] at h ⊢
    obtain ⟨p, d, hp, hw, hr, hring⟩ := ih (by omega)
    have hmod : (k * c) % c = 0 := Nat.mul_mod_left k c
    have hfirst : ∀ {x y : ℤ} {e : ℤ → UInt8}, (⟨x, y, c, e⟩ : Ring).first (k * c : ℕ) = c := by
      intro x y e
      rw [first_eq rfl h0 (by omega), hmod, Nat.sub_zero]
    have hpos : wrap ((k * c : ℕ) + c) = ((k * c + c : ℕ) : ℤ) := by
      rw [wrap_of_lt (by omega) (by omega)]
      omega
    have hall : p.ring.writable = (c : ℤ) := by
      rw [hring, Ring.writable]
      dsimp only
      rw [Int.sub_self, wrap_of_lt (x := 0) (by omega) (by omega), Int.sub_zero,
        wrap_of_lt (by omega) (by omega)]
    have hroom : (c : ℤ) ≤ p.ring.writable := Int.le_of_eq hall.symm
    obtain ⟨q, hq, hqw, hqr, ⟨e, hqring⟩, -⟩ := pass_write (n := c) hw h0 (by omega) hroom
      (by rw [hring]; exact Int.le_of_eq hfirst.symm)
    rw [hring] at hqring
    dsimp only at hqring
    rw [hpos] at hqring
    have havail : (c : ℤ) ≤ q.ring.readable := by
      rw [hqring, Ring.readable]
      dsimp only
      rw [wrap_of_lt (by omega) (by omega)]
      omega
    obtain ⟨t, ht, htr, htw, htring⟩ := pass_read (n := c) (hqr.trans hr) h0 (by omega) havail
      (by rw [hqring]; exact Int.le_of_eq hfirst.symm)
    refine ⟨t, e, (hp.trans hq).trans ht, htw.trans hqw, htr, ?_⟩
    rw [htring, hqring]
    dsimp only
    rw [hpos]

/-- After 2^31 bytes a write goes in front of the data. -/
theorem ring_overrun : ∃ p, Reach step Free (init dataSize) p ∧ ¬Fifo p := by
  obtain ⟨p, d, hp, hw, -, hring⟩ := rounds 131008 16392 (by decide) (by decide)
  have hroom : ((1000 : ℕ) : ℤ) ≤ p.ring.writable := by
    rw [hring]
    show (1000 : ℤ) ≤ wrap (131008 - wrap (2147483136 - 2147483136))
    decide
  have hfit : ((1000 : ℕ) : ℤ) ≤ p.ring.first p.ring.writePos := by
    rw [hring]
    show (1000 : ℤ) ≤ wrap (131008 - (2147483136 : ℤ).tmod 131008)
    decide
  obtain ⟨q, hq, hqw, -, ⟨e, hqring⟩, -⟩ := pass_write (n := 1000) hw (by decide) (by decide) hroom hfit
  have hneg : q.ring = ⟨-2147483160, 2147483136, 131008, e⟩ := by
    rw [hqring, hring]
    rfl
  -- the remainder of the position is -24
  have hroom' : ((1 : ℕ) : ℤ) ≤ q.ring.writable := by
    rw [hneg]
    show (1 : ℤ) ≤ wrap (131008 - wrap (-2147483160 - 2147483136))
    decide
  have hfit' : ((1 : ℕ) : ℤ) ≤ q.ring.first q.ring.writePos := by
    rw [hneg]
    show (1 : ℤ) ≤ wrap (131008 - (-2147483160 : ℤ).tmod 131008)
    decide
  obtain ⟨t, ht, -, -, -, hin⟩ := pass_write (n := 1) hqw (by decide) (by decide) hroom' hfit'
  refine ⟨t, (hp.trans hq).trans ht, fun hf => ?_⟩
  have hout : q.ring.covers (q.ring.offset q.ring.writePos) (1 : ℕ) = false := by
    rw [hneg]
    rfl
  rw [hf.inside, hout, Bool.and_false] at hin
  cases hin

end

end Pipe

end EwokOS.Vfs
