import EwokOS.Net.Ip
import EwokOS.Schemes.Run
import Mathlib.Algebra.Ring.Int.Defs
import Mathlib.Algebra.Ring.Nat
import Mathlib.Tactic.SplitIfs

/-! Reassembly is the inverse of fragmentation (`ip.c`).

    The cursor of `ip_frag_complete` and the fill mark of `ip_frag_build` move together, so that every byte
    below the end comes from a piece that holds it. The pieces of one datagram agree, and then the payload
    that is built is the one that was cut. -/

namespace EwokOS.Net

open Schemes

/-! ### What is built -/

/-- The byte `b` for the place `a`. -/
def Piece.Has (p : Piece) (a : ℕ) (b : UInt8) : Prop := p.off ≤ a ∧ p.data[a - p.off]? = some b

namespace Entry

/-- Every copy reads inside its piece and writes inside the payload. -/
theorem copies_inside {total filled : ℕ} {l : List Piece} {c : Copy} (h : c ∈ copies total filled l) :
    c.piece ∈ l ∧ c.piece.off ≤ c.start ∧ c.start < c.stop ∧ c.stop ≤ c.piece.off + c.piece.data.length ∧
      c.stop ≤ total := by
  induction l generalizing filled with
  | nil => exact absurd h List.not_mem_nil
  | cons p l ih =>
    rw [copies] at h
    split at h
    case isTrue hlt =>
      rcases List.mem_cons.mp h with rfl | h
      · exact ⟨List.mem_cons_self, by dsimp only; omega, hlt, by dsimp only; omega, by dsimp only; omega⟩
      · exact (ih h).imp_left (List.mem_cons_of_mem p)
    case isFalse => exact (ih h).imp_left (List.mem_cons_of_mem p)

/-- Nothing is copied once everything is filled. -/
theorem copies_full (total : ℕ) (l : List Piece) : copies total total l = [] := by
  induction l with
  | nil => rfl
  | cons p l ih =>
    rw [copies, if_neg (by omega), ih]

def fill (m : ℕ → UInt8) (l : List Copy) : ℕ → UInt8 := l.foldl (fun m c => put m c.start c.bytes) m

/-- A copy writes what its piece has. -/
theorem has_of_copy {m : ℕ → UInt8} {c : Copy} {a : ℕ} (hoff : c.piece.off ≤ c.start) (ha : c.start ≤ a)
    (hstop : a < c.stop) (hin : c.stop ≤ c.piece.off + c.piece.data.length) :
    c.piece.Has a (put m c.start c.bytes a) := by
  refine ⟨by omega, ?_⟩
  have hidx : a - c.piece.off < c.piece.data.length := by omega
  have hget : c.bytes[a - c.start]? = c.piece.data[a - c.piece.off]? := by
    rw [Copy.bytes, List.getElem?_take, if_pos (by omega), List.getElem?_drop]
    congr 1
    omega
  rw [put, if_pos ha, List.getD_eq_getElem?_getD, hget, List.getElem?_eq_getElem hidx, Option.getD_some]

/-- If the cursor comes to the end, every byte behind it is filled from a piece, and what is before it stays. -/
theorem filled_of_covers {total cursor : ℕ} {l : List Piece} {m : ℕ → UInt8} (h : covers total cursor l = true)
    (hc : cursor < total) :
    (∀ a, a < cursor → fill m (copies total cursor l) a = m a) ∧
      ∀ a, cursor ≤ a → a < total → ∃ p ∈ l, p.Has a (fill m (copies total cursor l) a) := by
  induction l generalizing cursor m with
  | nil => exact absurd h (by rw [covers]; exact Bool.false_ne_true)
  | cons p l ih =>
    rw [covers] at h
    split at h
    case isTrue => exact absurd h Bool.false_ne_true
    case isFalse hoff =>
      have hs : max p.off cursor = cursor := by omega
      rw [copies]
      dsimp only at h ⊢
      rw [hs]
      -- The piece reaches beyond the cursor, or it adds nothing.
      by_cases hadd : cursor < min (p.off + p.data.length) total
      case pos =>
        rw [if_pos hadd]
        have hget : ∀ m : ℕ → UInt8, ∀ a, cursor ≤ a → a < min (p.off + p.data.length) total →
            p.Has a (put m cursor (Copy.bytes ⟨cursor, p, min (p.off + p.data.length) total⟩) a) := by
          intro m a ha hb
          exact has_of_copy (c := ⟨cursor, p, min (p.off + p.data.length) total⟩) (by dsimp only; omega) ha hb
            (by dsimp only; omega)
        have hmax : max cursor (p.off + p.data.length) = p.off + p.data.length := by omega
        rw [hmax] at h
        split at h
        case isTrue hend =>
          have he : min (p.off + p.data.length) total = total := by omega
          rw [he] at hget ⊢
          rw [copies_full]
          refine ⟨fun a ha => put_of_lt ha, fun a ha hb => ⟨p, List.mem_cons_self, hget m a ha hb⟩⟩
        case isFalse hend =>
          have he : min (p.off + p.data.length) total = p.off + p.data.length := by omega
          rw [he] at hget hadd ⊢
          obtain ⟨hlow, hhigh⟩ := ih (m := put m cursor (Copy.bytes ⟨cursor, p, p.off + p.data.length⟩)) h (by omega)
          refine ⟨fun a ha => (hlow a (by omega)).trans (put_of_lt ha), fun a ha hb => ?_⟩
          by_cases hin : a < p.off + p.data.length
          · refine ⟨p, List.mem_cons_self, ?_⟩
            have heq : fill m (⟨cursor, p, p.off + p.data.length⟩ :: copies total (p.off + p.data.length) l) a
                = put m cursor (Copy.bytes ⟨cursor, p, p.off + p.data.length⟩) a := hlow a hin
            rw [heq]
            exact hget m a ha hin
          · obtain ⟨q, hq, hv⟩ := hhigh a (by omega) hb
            exact ⟨q, List.mem_cons_of_mem p hq, hv⟩
      case neg =>
        rw [if_neg hadd]
        have hmax : max cursor (p.off + p.data.length) = cursor := by omega
        rw [hmax, if_neg (by omega)] at h
        obtain ⟨hlow, hhigh⟩ := ih (m := m) h hc
        refine ⟨hlow, fun a ha hb => ?_⟩
        obtain ⟨q, hq, hv⟩ := hhigh a ha hb
        exact ⟨q, List.mem_cons_of_mem p hq, hv⟩

/-- The other way round: pieces in order that hold every byte bring the cursor to the end. -/
theorem covers_of_has {total cursor : ℕ} {l : List Piece} (hs : l.Pairwise fun p q => p.off ≤ q.off)
    (hc : cursor < total)
    (h : ∀ a, cursor ≤ a → a < total → ∃ p ∈ l, p.off ≤ a ∧ a < p.off + p.data.length) :
    covers total cursor l = true := by
  induction l generalizing cursor with
  | nil =>
    obtain ⟨p, hp, -⟩ := h cursor (Nat.le_refl cursor) hc
    exact absurd hp List.not_mem_nil
  | cons p l ih =>
    obtain ⟨hhead, htail⟩ := List.pairwise_cons.mp hs
    have hoff : p.off ≤ cursor := by
      obtain ⟨q, hq, hle, -⟩ := h cursor (Nat.le_refl cursor) hc
      rcases List.mem_cons.mp hq with rfl | hq
      · exact hle
      · exact Nat.le_trans (hhead q hq) hle
    rw [covers, if_neg (by omega)]
    dsimp only
    split
    case isTrue => rfl
    case isFalse hend =>
      refine ih htail (by omega) fun a ha hb => ?_
      obtain ⟨q, hq, hv⟩ := h a (by omega) hb
      rcases List.mem_cons.mp hq with rfl | hq
      · omega
      · exact ⟨q, hq, hv⟩

theorem mem_insert {p q : Piece} {l : List Piece} : q ∈ insert p l ↔ q = p ∨ q ∈ l := by
  induction l with
  | nil => rw [insert, List.mem_singleton]; simp
  | cons r l ih =>
    rw [insert]
    split_ifs
    · rw [List.mem_cons, ih, List.mem_cons]
      exact or_left_comm
    · rw [List.mem_cons]

theorem insert_sorted {p : Piece} {l : List Piece} (hs : l.Pairwise fun p q => p.off ≤ q.off) :
    (insert p l).Pairwise fun p q => p.off ≤ q.off := by
  induction l with
  | nil => exact List.pairwise_singleton _ p
  | cons r l ih =>
    obtain ⟨hhead, htail⟩ := List.pairwise_cons.mp hs
    rw [insert]
    split_ifs with hlt
    · refine List.pairwise_cons.mpr ⟨fun q hq => ?_, ih htail⟩
      rcases mem_insert.mp hq with rfl | hq
      · omega
      · exact hhead q hq
    · refine List.pairwise_cons.mpr ⟨fun q hq => ?_, hs⟩
      rcases List.mem_cons.mp hq with rfl | hq
      · omega
      · exact Nat.le_trans (by omega) (hhead q hq)

/-- Every byte of the payload that is built is that of a piece. -/
theorem build_has {f : Entry} (h : f.complete = true) {a : ℕ} {b : UInt8} (hb : f.build.body[a]? = some b) :
    ∃ p ∈ f.pieces, p.Has a b := by
  simp only [complete, Bool.and_eq_true, decide_eq_true_eq] at h
  obtain ⟨⟨-, htot⟩, hcov⟩ := h
  have hlen : a < f.total := by
    have := (List.getElem?_eq_some_iff.mp hb).1
    rwa [build, length_slice] at this
  have hval : f.build.body[a]? = some (fill (fun _ => 0) (copies f.total 0 f.pieces) a) := by
    have hget : (slice (fill (fun _ => 0) (copies f.total 0 f.pieces)) 0 f.total).getD a 0 = _ := getD_slice hlen
    rw [List.getD_eq_getElem?_getD, Nat.zero_add] at hget
    have hex : a < (slice (fill (fun _ => 0) (copies f.total 0 f.pieces)) 0 f.total).length := by rwa [length_slice]
    rw [List.getElem?_eq_getElem hex, Option.getD_some] at hget
    rw [← hget]
    exact List.getElem?_eq_getElem hex
  rw [hval, Option.some.injEq] at hb
  rw [← hb]
  exact (filled_of_covers hcov (by omega)).2 a (Nat.zero_le a) hlen

end Entry

/-! ### What is cut -/

namespace Send
variable {d : Send} {p : Packet}

/-- A payload up to the IP limit, and frames of at least 28 bytes. -/
structure Fits (d : Send) : Prop where
  len : d.data.length ≤ 65515
  mtu : 28 ≤ d.mtu

theorem mem_offsFrom {k off a : ℕ} :
    a ∈ d.offsFrom k off ↔ ∃ j, j < k ∧ a = off + j * d.fragPayload ∧ a < d.data.length := by
  induction k generalizing off with
  | zero =>
    rw [offsFrom]
    exact ⟨fun h => absurd h List.not_mem_nil, fun ⟨j, hj, _⟩ => absurd hj (Nat.not_lt_zero j)⟩
  | succ k ih =>
    rw [offsFrom]
    split_ifs with hoff
    · rw [List.mem_cons, ih]
      refine ⟨?_, ?_⟩
      · rintro (rfl | ⟨j, hj, rfl, hlt⟩)
        · exact ⟨0, Nat.succ_pos k, by omega, hoff⟩
        · exact ⟨j + 1, by omega, by rw [Nat.succ_mul]; omega, hlt⟩
      · rintro ⟨j, hj, rfl, hlt⟩
        cases j with
        | zero => exact Or.inl (by omega)
        | succ j => exact Or.inr ⟨j, by omega, by rw [Nat.succ_mul]; omega, hlt⟩
    · refine ⟨fun h => absurd h List.not_mem_nil, fun ⟨j, _, ha, hlt⟩ => ?_⟩
      omega

/-- A frame carries at least eight bytes, in whole eights. -/
theorem Fits.fragPayload (h : d.Fits) : 8 ≤ d.fragPayload ∧ d.fragPayload % 8 = 0 := by
  have := h.mtu
  unfold Send.fragPayload hdrSizeMin
  omega

/-- The flags and the offset are read back. -/
theorem field_split {off v : ℕ} {P : Prop} [Decidable P] (hoff : off < 65536)
    (hv : v = (off / 8 ||| if P then 0x2000 else 0) % 2 ^ 16) :
    v % 0x2000 = off / 8 ∧ (v / 0x2000 % 2 = 0 ↔ ¬P) ∧ v % 0x4000 = v := by
  have hlt : off / 8 < 2 ^ 13 := by omega
  by_cases hP : P
  · have hor : 0x2000 + off / 8 = off / 8 ||| 0x2000 := by
      rw [Nat.or_comm]
      exact Nat.two_pow_add_eq_or_of_lt (i := 13) hlt 1
    rw [if_pos hP, ← hor] at hv
    refine ⟨by omega, ?_, by omega⟩
    have hodd : v / 0x2000 % 2 ≠ 0 := by omega
    exact ⟨fun h => absurd h hodd, fun h => absurd hP h⟩
  · rw [if_neg hP, Nat.or_zero] at hv
    refine ⟨by omega, ?_, by omega⟩
    have heven : v / 0x2000 % 2 = 0 := by omega
    exact ⟨fun _ => hP, fun _ => heven⟩

/-- `p` is a fragment of `d`, with nothing behind what the header counts. -/
structure Part (d : Send) (p : Packet) : Prop where
  hdr : p.hdr = d.hdr
  big : d.mtu < hdrSizeMin + d.data.length
  body : p.body = (d.data.drop p.off).take d.fragPayload
  place : ∃ j, p.off = j * d.fragPayload
  start : p.off < d.data.length
  last : p.isLast = true ↔ d.data.length ≤ p.off + d.fragPayload
  total : p.total = p.len
  sum : p.sumOk = true
  isFragment : p.isFragment = true

theorem fragment_off (h : d.Fits) {j : ℕ} (hj : j * d.fragPayload < d.data.length) :
    (d.fragment (j * d.fragPayload)).off = j * d.fragPayload := by
  have hlen := h.len
  have hm8 : j * d.fragPayload % 8 = 0 := by
    rw [Nat.mul_mod, h.fragPayload.2, Nat.mul_zero, Nat.zero_mod]
  obtain ⟨hlow, -⟩ := field_split (v := (d.fragment (j * d.fragPayload)).field) (by omega) rfl
  rw [Packet.off, hlow]
  omega

theorem fragment_part (h : d.Fits) (hbig : d.mtu < hdrSizeMin + d.data.length) {j : ℕ}
    (hj : j * d.fragPayload < d.data.length) : d.Part (d.fragment (j * d.fragPayload)) := by
  have hp8 := h.fragPayload.1
  have hlen := h.len
  have hoff := fragment_off h hj
  have hchunk : ((d.data.drop (j * d.fragPayload)).take d.fragPayload).length
      = min d.fragPayload (d.data.length - j * d.fragPayload) := by
    rw [List.length_take, List.length_drop]
  generalize hoffs : j * d.fragPayload = off at *
  obtain ⟨hlow, hflag, hall⟩ := field_split (v := (d.fragment off).field) (by omega) rfl
  rw [hchunk] at hflag
  have hlast : (d.fragment off).isLast = true ↔ d.data.length ≤ off + d.fragPayload := by
    rw [Packet.isLast, decide_eq_true_iff, hflag]
    omega
  refine ⟨rfl, hbig, by rw [hoff]; rfl, ⟨j, by rw [hoff, hoffs]⟩, by rw [hoff]; exact hj, by rw [hoff]; exact hlast, ?_,
    rfl, ?_⟩
  · simp only [fragment, core, Packet.len, hdr, hdrSizeMin] at hchunk ⊢
    omega
  · rw [Packet.isFragment, decide_eq_true_iff, hall]
    -- Either bytes come before, or more come behind.
    intro hzero
    have hfirst : off = 0 := by rw [← hoff, Packet.off, hzero]
    rw [hzero] at hflag
    have hmore := hflag.mp rfl
    have hfit : d.fragPayload + hdrSizeMin ≤ d.mtu := by
      have := h.mtu
      unfold Send.fragPayload hdrSizeMin
      omega
    omega

namespace Part

theorem length_body (h : d.Part p) : p.body.length = min d.fragPayload (d.data.length - p.off) := by
  rw [congrArg List.length h.body, List.length_take, List.length_drop]

theorem valid (h : d.Part p) : p.valid = true := by
  have hl : hdrSizeMin ≤ p.len := by
    rw [Packet.len, h.hdr]
    exact Nat.le_add_right hdrSizeMin _
  simp only [Packet.valid, Bool.and_eq_true, decide_eq_true_eq, h.total, h.sum]
  rw [h.hdr]
  refine ⟨⟨⟨⟨⟨hl, rfl⟩, Nat.le_refl hdrSizeMin⟩, hl⟩, Nat.le_refl _⟩, trivial⟩

variable (hf : d.Fits)
include hf

theorem plen (h : d.Part p) : p.plen = p.body.length := by
  have := h.length_body
  have := hf.len
  rw [Packet.plen]
  omega

theorem piece (h : d.Part p) : p.piece = ⟨p.off, p.body⟩ := by
  rw [Packet.piece, h.plen hf, List.take_length]

theorem inside (h : d.Part p) : p.off + p.plen ≤ d.data.length := by
  have := h.length_body
  have := h.start
  rw [h.plen hf]
  omega

/-- The last fragment names the end. -/
theorem total_of_last (h : d.Part p) (hl : p.isLast = true) : (p.off + p.plen) % 2 ^ 16 = d.data.length := by
  have := h.length_body
  have := h.start
  have := h.last.mp hl
  have := hf.len
  rw [h.plen hf]
  omega

/-- The bytes of the piece are those of the datagram. -/
theorem has (h : d.Part p) {a : ℕ} {b : UInt8} (hb : p.piece.Has a b) : d.data[a]? = some b := by
  rw [h.piece hf] at hb
  obtain ⟨hle, hget⟩ := hb
  dsimp only at hle hget
  rw [h.body, List.getElem?_take] at hget
  split_ifs at hget
  rw [List.getElem?_drop] at hget
  rw [← hget]
  congr 1
  omega

/-- No fragment reaches beyond the IP limit. -/
theorem kept (h : d.Part p) : ¬totalSizeMax - p.hdr.hlen < p.off + p.plen := by
  have := h.inside hf
  have := hf.len
  rw [h.hdr]
  change ¬65535 - 20 < p.off + p.plen
  omega

end Part

/-- `p` is one of the packets of `d`, with whatever the link has put behind it. -/
def Carries (d : Send) (p : Packet) : Prop :=
  ∃ ps, d.output = some ps ∧ ∃ q ∈ ps, ∃ pad, p = { q with body := q.body ++ pad }

/-- The packets of a datagram that is cut. -/
theorem mem_output {ps : List Packet} (h : d.Fits) (hbig : d.mtu < hdrSizeMin + d.data.length)
    (ho : d.output = some ps) :
    p ∈ ps ↔ ∃ j, j * d.fragPayload < d.data.length ∧ p = d.fragment (j * d.fragPayload) := by
  have hm := h.mtu
  have hp8 := h.fragPayload.1
  rw [output, if_pos hbig, if_neg (by unfold hdrSizeMin; omega), Option.some.injEq] at ho
  rw [← ho, List.mem_map]
  refine ⟨?_, ?_⟩
  · rintro ⟨a, ha, rfl⟩
    obtain ⟨j, -, rfl, hlt⟩ := mem_offsFrom.mp ha
    rw [Nat.zero_add] at hlt ⊢
    exact ⟨j, hlt, rfl⟩
  · rintro ⟨j, hlt, rfl⟩
    have hj : j < d.data.length := Nat.lt_of_le_of_lt (Nat.le_mul_of_pos_right j (by omega)) hlt
    exact ⟨_, mem_offsFrom.mpr ⟨j, hj, (Nat.zero_add _).symm, hlt⟩, rfl⟩

/-- A fragment that comes as it was sent is a part. -/
theorem Carries.part (h : d.Fits) (hc : d.Carries p) (hfrag : p.isFragment = true) (hpad : p.len = p.total) :
    d.Part p := by
  obtain ⟨ps, ho, q, hq, pad, rfl⟩ := hc
  by_cases hbig : d.mtu < hdrSizeMin + d.data.length
  · obtain ⟨j, hj, rfl⟩ := (mem_output h hbig ho).mp hq
    have hpart := fragment_part h hbig hj
    have htot := hpart.total
    have hnil : pad = [] := by
      rw [← List.length_eq_zero_iff]
      simp only [Packet.len, List.length_append] at hpad htot
      omega
    rw [hnil, List.append_nil]
    exact hpart
  · rw [output, if_neg hbig, Option.some.injEq] at ho
    rw [← ho, List.mem_singleton] at hq
    rw [hq] at hfrag
    exact absurd hfrag (by simp [Packet.isFragment, core])

/-- Every byte is in the piece of a fragment. -/
theorem exists_part (h : d.Fits) (hbig : d.mtu < hdrSizeMin + d.data.length) {ps : List Packet}
    (ho : d.output = some ps) {a : ℕ} (ha : a < d.data.length) :
    ∃ p ∈ ps, d.Part p ∧ p.off ≤ a ∧ a < p.off + p.body.length := by
  have hp8 := h.fragPayload.1
  have hle : a / d.fragPayload * d.fragPayload ≤ a := Nat.div_mul_le_self a d.fragPayload
  have hlt : a < a / d.fragPayload * d.fragPayload + d.fragPayload := by
    have := Nat.lt_div_mul_add (a := a) (b := d.fragPayload) (by omega)
    omega
  have hpart := fragment_part h hbig (j := a / d.fragPayload) (by omega)
  have hoff : (d.fragment (a / d.fragPayload * d.fragPayload)).off = a / d.fragPayload * d.fragPayload :=
    fragment_off h (by omega)
  refine ⟨_, (mem_output h hbig ho).mpr ⟨a / d.fragPayload, by omega, rfl⟩, hpart, by rw [hoff]; exact hle, ?_⟩
  rw [hpart.length_body, hoff]
  omega

end Send

end EwokOS.Net
