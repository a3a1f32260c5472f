import Mathlib.Tactic.SplitIfs
import EwokOS.Net.TcpFrame
import EwokOS.Schemes.Run
import EwokOS.Schemes.Serial

/-! The peer's bytes come out of a connection as they went in (`tcp.c`).

    With `g` bytes of the stream `S` returned, the buffer holds what comes next, and the stash what is
    further on:

        S    |--- g returned ---|--- remain ---|   hole   |--- stash ---|
        buf                     0            remain     remain + k

    Only the text, the FIN and `tcp_receive` move any of this; everything else leaves the receive side as it
    is. -/

namespace EwokOS.Net

open Schemes

/-! ### Serial numbers -/

section Serial
variable (b : Seq) {x y : ℕ}

theorem seqBefore_eq (hxy : x < y + 2 ^ 31) (hyx : y < x + 2 ^ 31) :
    seqBefore (b + BitVec.ofNat 32 x) (b + BitVec.ofNat 32 y) = decide (x < y) := by
  unfold seqBefore
  by_cases h : x < y
  · rw [toNat_place_sub_of_lt b h (by omega), decide_eq_true h, decide_eq_true (by omega)]
  · rw [toNat_place_sub b (by omega) (by omega), decide_eq_false h, decide_eq_false (by omega)]

theorem seqAfter_eq (hxy : x < y + 2 ^ 31) (hyx : y < x + 2 ^ 31) :
    seqAfter (b + BitVec.ofNat 32 x) (b + BitVec.ofNat 32 y) = decide (y < x) := by
  unfold seqAfter
  by_cases h : y < x
  · rw [toNat_place_sub b (by omega) (by omega), decide_eq_true h, decide_eq_true (by omega : 0 < x - y),
      decide_eq_true (by omega), Bool.and_self]
  · rw [decide_eq_false h]
    by_cases heq : x = y
    · rw [heq, BitVec.sub_self, BitVec.toNat_zero]
      rfl
    · rw [toNat_place_sub_of_lt b (by omega) (by omega), decide_eq_false (by omega : ¬2 ^ 32 - (y - x) < 2 ^ 31),
        Bool.and_false]

end Serial

/-! ### The buffer -/

def RcvSide.remain (r : RcvSide) : ℕ := rcvBufSize - r.wnd

variable {S : List UInt8} {b : Seq} {g n o : ℕ} {r : RcvSide} {p q : Pcb} {env : Env} {seg : Segment}

/-- The bytes of `l` are those of the stream from `o` on. -/
def Agree (S : List UInt8) (o : ℕ) (l : List UInt8) : Prop := ∀ i < l.length, S[o + i]? = l[i]?

theorem Agree.drop {l : List UInt8} (h : Agree S o l) (k : ℕ) : Agree S (o + k) (l.drop k) := by
  intro i hi
  rw [List.length_drop] at hi
  rw [List.getElem?_drop, Nat.add_assoc]
  exact h (k + i) (by omega)

theorem Agree.take {l : List UInt8} (h : Agree S o l) (k : ℕ) : Agree S o (l.take k) := by
  intro i hi
  rw [List.length_take] at hi
  rw [List.getElem?_take, if_pos (by omega)]
  exact h i (by omega)

/-- What a copy to the buffer leaves there. -/
theorem put_agree (m : ℕ → UInt8) {l : List UInt8} (off a : ℕ) (h : Agree S o l) (ha : off ≤ a)
    (hl : a < off + l.length) : S[o + (a - off)]? = some (put m off l a) := by
  rw [h (a - off) (by omega), put, if_pos ha, List.getD_eq_getElem?_getD,
    List.getElem?_eq_getElem (by omega : a - off < l.length), Option.getD_some]

/-- With `g` bytes returned, the buffer holds what comes next, and the stash what is further on. -/
structure Mapped (S : List UInt8) (b : Seq) (g : ℕ) (r : RcvSide) : Prop where
  wnd : r.wnd ≤ rcvBufSize
  nxt : r.nxt = b + BitVec.ofNat 32 (g + r.remain)
  buf : ∀ i < r.remain, S[g + i]? = some (r.buf i)
  stash : r.oooLen ≠ 0 → ∃ k, 0 < k ∧ r.oooSeq = b + BitVec.ofNat 32 (g + r.remain + k) ∧
    k + r.oooLen ≤ r.wnd ∧ ∀ i < r.oooLen, S[g + r.remain + k + i]? = some (r.buf (r.remain + k + i))

/-- Every copy is inside the buffer. -/
def Inside (r : RcvSide) : Prop := ∀ c ∈ r.copies, c.1 + c.2 ≤ rcvBufSize

/-! ### Text -/

/-- A copy beyond a hole, together with what was kept there if they touch. -/
theorem Mapped.keep (off k m : ℕ) {l : List UInt8} {c : List (ℕ × ℕ)} (h : Mapped S b g r) (hoff : 0 < off)
    (hl : Agree S (g + r.remain + off) l) (hk : 0 < k) (hm : k + m ≤ r.wnd)
    (hcover : ∀ a, k ≤ a → a < k + m → (off ≤ a ∧ a < off + l.length) ∨
      S[g + r.remain + a]? = some (r.buf (r.remain + a))) :
    Mapped S b g ⟨r.nxt, r.wnd, put r.buf (r.remain + off) l, b + BitVec.ofNat 32 (g + r.remain + k), m, c⟩ where
  wnd := h.wnd
  nxt := h.nxt
  buf := fun i hi => by
    have hi' : i < r.remain := hi
    dsimp only
    rw [put_of_lt (by omega)]
    exact h.buf i hi'
  stash := fun _ => by
    refine ⟨k, hk, rfl, hm, fun i hi => ?_⟩
    change i < m at hi
    change S[g + r.remain + k + i]? = some (put r.buf (r.remain + off) l (r.remain + k + i))
    by_cases hin : off ≤ k + i ∧ k + i < off + l.length
    · have hget := put_agree r.buf (r.remain + off) (r.remain + k + i) hl (by omega) (by omega)
      rw [← hget]
      congr 1
      omega
    · have hold := (hcover (k + i) (by omega) (by omega)).resolve_left hin
      have hout : put r.buf (r.remain + off) l (r.remain + k + i) = r.buf (r.remain + k + i) := by
        rcases Nat.lt_or_ge (k + i) off with hlt | hge
        · exact put_of_lt (by omega)
        · exact put_of_ge (by omega)
      rw [hout, Nat.add_assoc (g + r.remain), hold, Nat.add_assoc r.remain]

theorem stash_mapped (h : Mapped S b g p.rcv) (hseq : seg.seq = b + BitVec.ofNat 32 o)
    (hg : Agree S o seg.data) (hlt : g + p.rcv.remain < o)
    (hnear : o < g + p.rcv.remain + 2 ^ 31) :
    Mapped S b g (p.stash seg).rcv ∧ (Inside p.rcv → Inside (p.stash seg).rcv) := by
  have hnxt : p.rcvNxt = b + BitVec.ofNat 32 (g + p.rcv.remain) := h.nxt
  have hwnd : p.rcvWnd ≤ rcvBufSize := h.wnd
  have hrem : p.remain = p.rcv.remain := rfl
  have hbuf : p.rcv.remain + p.rcvWnd = rcvBufSize := Nat.sub_add_cancel hwnd
  have hsmall : rcvBufSize < 2 ^ 31 := by decide
  have hoff : (seg.seq - p.rcvNxt).toNat = o - (g + p.rcv.remain) := by
    rw [hseq, hnxt, toNat_place_sub b (by omega) (by omega)]
  unfold Pcb.stash
  dsimp only
  rw [hoff, hrem]
  obtain ⟨off, rfl⟩ := Nat.exists_eq_add_of_lt hlt
  generalize hR : p.rcv.remain = R at *
  have hoff' : g + R + off + 1 - (g + R) = off + 1 := by omega
  rw [hoff']
  by_cases hin : off + 1 < p.rcvWnd
  case neg =>
    rw [if_neg hin]
    exact ⟨h, id⟩
  rw [if_pos hin]
  generalize hkeep : min seg.data.length (p.rcvWnd - (off + 1)) = keep
  have hlen : (seg.data.take keep).length = keep := by rw [List.length_take]; omega
  have hagree : Agree S (g + R + (off + 1)) (seg.data.take keep) := hg.take keep
  have hinside : ∀ (s : Seq) (m : ℕ), Inside p.rcv →
      Inside ({ p with oooSeq := s, oooLen := m }.fill (R + (off + 1)) (seg.data.take keep)).rcv := by
    intro s m hc c hmem
    rcases List.mem_cons.mp hmem with rfl | hmem
    · rw [hlen]
      omega
    · exact hc c hmem
  by_cases hzero : p.oooLen = 0
  · rw [if_pos hzero]
    refine ⟨?_, hinside _ _⟩
    have := h.keep (off + 1) (off + 1) keep (c := (R + (off + 1), (seg.data.take keep).length) :: p.copies)
      (by omega) (by rw [hR]; exact hagree) (by omega) (by change _ ≤ p.rcvWnd; omega)
      (fun a ha hb => Or.inl ⟨ha, by omega⟩)
    rw [hR] at this
    rw [hseq]
    exact this
  rw [if_neg hzero]
  obtain ⟨k₀, hk₀, hos, hfit, hst⟩ := h.stash hzero
  rw [hR] at hos hst
  have hos' : p.oooSeq = b + BitVec.ofNat 32 (g + R + k₀) := hos
  have hfit' : k₀ + p.oooLen ≤ p.rcvWnd := hfit
  have hstop : seg.seq + BitVec.ofNat 32 keep = b + BitVec.ofNat 32 (g + R + off + 1 + keep) := by
    rw [hseq, place_add]
  have hstopped : p.oooSeq + BitVec.ofNat 32 p.oooLen = b + BitVec.ofNat 32 (g + R + k₀ + p.oooLen) := by
    rw [hos', place_add]
  rw [hstop, hstopped, hseq, hos']
  rw [seqAfter_eq b (by omega) (by omega), seqBefore_eq b (by omega) (by omega), seqBefore_eq b (by omega) (by omega),
    seqAfter_eq b (by omega) (by omega)]
  simp only [decide_eq_true_eq, decide_eq_false_iff_not]
  by_cases htouch : ¬g + R + k₀ + p.oooLen < g + R + off + 1 ∧ ¬g + R + off + 1 + keep < g + R + k₀
  case neg =>
    rw [if_neg htouch]
    exact ⟨h, id⟩
  rw [if_pos htouch]
  refine ⟨?_, hinside _ _⟩
  have hstart : (if g + R + off + 1 < g + R + k₀ then b + BitVec.ofNat 32 (g + R + off + 1) else b + BitVec.ofNat 32 (g + R + k₀))
      = b + BitVec.ofNat 32 (g + R + min (off + 1) k₀) := by
    split_ifs
    · rw [Nat.min_eq_left (by omega), Nat.add_assoc (g + R)]
    · rw [Nat.min_eq_right (by omega)]
  have hend : (if g + R + k₀ + p.oooLen < g + R + off + 1 + keep then b + BitVec.ofNat 32 (g + R + off + 1 + keep)
      else b + BitVec.ofNat 32 (g + R + k₀ + p.oooLen)) = b + BitVec.ofNat 32 (g + R + max (off + 1 + keep) (k₀ + p.oooLen)) := by
    split_ifs
    · rw [Nat.max_eq_left (by omega)]
      congr 2
      omega
    · rw [Nat.max_eq_right (by omega), Nat.add_assoc (g + R)]
  rw [hstart, hend, toNat_place_sub b (by omega) (by omega)]
  have := h.keep (off + 1) (min (off + 1) k₀) (g + R + max (off + 1 + keep) (k₀ + p.oooLen) - (g + R + min (off + 1) k₀))
    (c := (R + (off + 1), (seg.data.take keep).length) :: p.copies) (by omega) (by rw [hR]; exact hagree) (by omega)
    (by change _ ≤ p.rcvWnd; omega) ?_
  · rw [hR] at this
    exact this
  · intro a ha hb
    by_cases hnew : off + 1 ≤ a ∧ a < off + 1 + keep
    · exact Or.inl ⟨hnew.1, by omega⟩
    · have hold := hst (a - k₀) (by change _ < p.oooLen; omega)
      have hidx : k₀ + (a - k₀) = a := by omega
      rw [Nat.add_assoc, hidx, Nat.add_assoc R, hidx] at hold
      rw [hR]
      exact Or.inr hold

/-- Bytes that come next are put behind the others. -/
theorem append_mapped {data : List UInt8} (h : Mapped S b g p.rcv) (hg : Agree S (g + p.rcv.remain) data)
    (hle : data.length ≤ p.rcvWnd) :
    (p.append data).rcv.remain = p.rcv.remain + data.length ∧ Mapped S b g { (p.append data).rcv with oooLen := 0 } := by
  have hnxt : p.rcvNxt = b + BitVec.ofNat 32 (g + p.rcv.remain) := h.nxt
  have hwnd : p.rcvWnd ≤ rcvBufSize := h.wnd
  have hr : (p.append data).rcv.remain = p.rcv.remain + data.length := by
    change rcvBufSize - (p.rcvWnd - data.length) = rcvBufSize - p.rcvWnd + data.length
    omega
  refine ⟨hr, ⟨?wnd, ?nxt, ?buf, fun hne => absurd rfl hne⟩⟩
  case wnd =>
    change p.rcvWnd - data.length ≤ rcvBufSize
    omega
  case nxt =>
    change p.rcvNxt + BitVec.ofNat 32 data.length = b + BitVec.ofNat 32 (g + (p.append data).rcv.remain)
    rw [hnxt, hr, place_add, Nat.add_assoc]
  case buf =>
    intro i hi
    replace hi : i < (p.append data).rcv.remain := hi
    rw [hr] at hi
    change _ = some (put p.buf p.rcv.remain data i)
    rcases Nat.lt_or_ge i p.rcv.remain with hlt | hge
    · rw [put_of_lt hlt]
      exact h.buf i hlt
    · rw [← put_agree p.buf _ _ hg hge hi, Nat.add_assoc, Nat.add_sub_cancel' hge]

/-- Where the stash lies in the buffer. The bytes in order may have grown into it. -/
def Stashed (S : List UInt8) (b : Seq) (g : ℕ) (r : RcvSide) : Prop :=
  r.oooLen ≠ 0 → ∃ a, r.oooSeq = b + BitVec.ofNat 32 (g + a) ∧ a + r.oooLen ≤ rcvBufSize ∧
    ∀ i, r.remain ≤ i → a ≤ i → i < a + r.oooLen → S[g + i]? = some (r.buf i)

theorem append_stashed {data : List UInt8} (h : Mapped S b g p.rcv)
    (hr : (p.append data).rcv.remain = p.rcv.remain + data.length) : Stashed S b g (p.append data).rcv := by
  intro hne
  obtain ⟨k, -, hseq, hfit, hbytes⟩ := h.stash hne
  have hwnd : p.rcvWnd ≤ rcvBufSize := h.wnd
  have hfit' : k + p.oooLen ≤ p.rcvWnd := hfit
  refine ⟨p.rcv.remain + k, ?_, ?_, fun i hi hk hlt => ?_⟩
  · rw [← Nat.add_assoc]
    exact hseq
  · change rcvBufSize - p.rcvWnd + k + p.oooLen ≤ rcvBufSize
    omega
  · obtain ⟨j, rfl⟩ := Nat.exists_eq_add_of_le hk
    change _ = some (put p.buf p.rcv.remain data _)
    rw [put_of_ge (hr ▸ hi), ← Nat.add_assoc, ← Nat.add_assoc]
    exact hbytes j (Nat.lt_of_add_lt_add_left hlt)

/-- The stash is taken over once the bytes in order reach it. -/
theorem Mapped.merge (h : Mapped S b g { q.rcv with oooLen := 0 }) (hs : Stashed S b g q.rcv) :
    Mapped S b g q.merge.1.rcv ∧ q.rcv.remain ≤ q.merge.1.rcv.remain := by
  have hnxt : q.rcvNxt = b + BitVec.ofNat 32 (g + q.rcv.remain) := h.nxt
  have hwnd : q.rcvWnd ≤ rcvBufSize := h.wnd
  have hbuf : q.rcv.remain + q.rcvWnd = rcvBufSize := Nat.sub_add_cancel hwnd
  have hsmall : rcvBufSize < 2 ^ 31 := by decide
  unfold Pcb.merge
  dsimp only
  by_cases hzero : q.oooLen = 0
  · rw [if_pos hzero]
    exact ⟨⟨h.wnd, h.nxt, h.buf, fun hne => absurd hzero hne⟩, Nat.le_refl _⟩
  rw [if_neg hzero]
  obtain ⟨a, hseq, hfit, hbytes⟩ := hs hzero
  replace hseq : q.oooSeq = b + BitVec.ofNat 32 (g + a) := hseq
  replace hfit : a + q.oooLen ≤ rcvBufSize := hfit
  replace hbytes : ∀ i, q.rcv.remain ≤ i → a ≤ i → i < a + q.oooLen → S[g + i]? = some (q.buf i) := hbytes
  have hstop : q.oooSeq + BitVec.ofNat 32 q.oooLen = b + BitVec.ofNat 32 (g + (a + q.oooLen)) := by
    rw [hseq, place_add, Nat.add_assoc]
  have hafter : seqAfter (q.oooSeq + BitVec.ofNat 32 q.oooLen) q.rcvNxt = decide (q.rcv.remain < a + q.oooLen) := by
    rw [hstop, hnxt, seqAfter_eq b (by omega) (by omega)]
    exact decide_eq_decide.mpr (by omega)
  have hgap : seqAfter q.oooSeq q.rcvNxt = decide (q.rcv.remain < a) := by
    rw [hseq, hnxt, seqAfter_eq b (by omega) (by omega)]
    exact decide_eq_decide.mpr (by omega)
  rw [hafter, hgap]
  simp only [Bool.not_eq_true', decide_eq_false_iff_not]
  by_cases hcov : ¬q.rcv.remain < a + q.oooLen
  · rw [if_pos hcov]
    exact ⟨h, Nat.le_refl _⟩
  rw [if_neg hcov]
  by_cases hreach : ¬q.rcv.remain < a
  · have hdelta : (q.oooSeq + BitVec.ofNat 32 q.oooLen - q.rcvNxt).toNat = a + q.oooLen - q.rcv.remain := by
      rw [hstop, hnxt, toNat_place_sub b (by omega) (by omega)]
      omega
    have hmr : rcvBufSize - (q.rcvWnd - (a + q.oooLen - q.rcv.remain)) = a + q.oooLen := by omega
    rw [if_pos hreach, hdelta]
    refine ⟨⟨?wnd, ?nxt, ?buf, fun hne => absurd rfl hne⟩, ?grows⟩
    case wnd =>
      change q.rcvWnd - (a + q.oooLen - q.rcv.remain) ≤ rcvBufSize
      omega
    case nxt =>
      change q.rcvNxt + BitVec.ofNat 32 (a + q.oooLen - q.rcv.remain) =
        b + BitVec.ofNat 32 (g + (rcvBufSize - (q.rcvWnd - (a + q.oooLen - q.rcv.remain))))
      rw [hmr, hnxt, place_add]
      congr 2
      omega
    case buf =>
      intro i hi
      change i < rcvBufSize - (q.rcvWnd - (a + q.oooLen - q.rcv.remain)) at hi
      rw [hmr] at hi
      rcases Nat.lt_or_ge i q.rcv.remain with hlt | hge
      · exact h.buf i hlt
      · exact hbytes i hge (by omega) hi
    case grows =>
      change _ ≤ rcvBufSize - (q.rcvWnd - (a + q.oooLen - q.rcv.remain))
      omega
  · rw [if_neg hreach]
    refine ⟨⟨h.wnd, h.nxt, h.buf, fun _ => ⟨a - q.rcv.remain, Nat.sub_pos_of_lt (not_not.mp hreach), ?place, ?fits, fun i hi => ?bytes⟩⟩,
      Nat.le_refl _⟩
    case place =>
      change q.oooSeq = b + BitVec.ofNat 32 (g + q.rcv.remain + (a - q.rcv.remain))
      rw [Nat.add_assoc, Nat.add_sub_cancel' (by omega)]
      exact hseq
    case fits =>
      change a - q.rcv.remain + q.oooLen ≤ q.rcvWnd
      omega
    case bytes =>
      change i < q.oooLen at hi
      have hbyte := hbytes (q.rcv.remain + (a - q.rcv.remain) + i) (by omega) (by omega) (by omega)
      rwa [← Nat.add_assoc, ← Nat.add_assoc] at hbyte

/-- Bytes that come next are put behind the others, and the stash is taken over once they reach it. -/
theorem merge_mapped {data : List UInt8} (h : Mapped S b g p.rcv) (hg : Agree S (g + p.rcv.remain) data)
    (hle : data.length ≤ p.rcvWnd) :
    Mapped S b g (p.append data).merge.1.rcv ∧ (Inside p.rcv → Inside (p.append data).merge.1.rcv) ∧
      g + p.rcv.remain + data.length ≤ g + (p.append data).merge.1.rcv.remain := by
  obtain ⟨hr, hm⟩ := append_mapped h hg hle
  obtain ⟨hmerged, hgrows⟩ := hm.merge (append_stashed h hr)
  refine ⟨hmerged, fun hc c hmem => ?_, by omega⟩
  have hcopies : (p.append data).merge.1.copies = (p.append data).copies := by
    unfold Pcb.merge
    dsimp only
    split_ifs <;> rfl
  replace hmem : c ∈ (p.append data).merge.1.copies := hmem
  rw [hcopies] at hmem
  rcases List.mem_cons.mp hmem with rfl | hmem
  · have hwnd : p.rcvWnd ≤ rcvBufSize := h.wnd
    change rcvBufSize - p.rcvWnd + data.length ≤ rcvBufSize
    omega
  · exact hc c hmem

/-- What is asked of a segment: its bytes are those of the stream at its place, a FIN comes at the end, and it
    is less than half a round away from what is awaited. -/
structure Fits (S : List UInt8) (b : Seq) (n : ℕ) (seg : Segment) (o : ℕ) : Prop where
  seq : seg.seq = b + BitVec.ofNat 32 o
  data : Agree S o seg.data
  size : seg.data.length < 2 ^ 16
  fin : seg.flg.fin = true → o + seg.data.length = S.length
  ahead : o < n + 2 ^ 31
  behind : n < o + 2 ^ 31

theorem takeNext_rcv (p : Pcb) (env : Env) (data : List UInt8) :
    (p.takeNext env data).rcv = if data.length ≠ 0 then (p.append data).merge.1.rcv else p.rcv := by
  unfold Pcb.takeNext
  split
  · exact (Pcb.delayAck_base _ env _).2
  · exact Pcb.outputAck_rcv _ env

/-- The text is put where it belongs. -/
theorem takeText_mapped (env : Env) (h : Mapped S b g p.rcv) (hf : seg.data.length ≠ 0 → Fits S b (g + p.rcv.remain) seg o) :
    Mapped S b g (p.takeText env seg).rcv ∧ (Inside p.rcv → Inside (p.takeText env seg).rcv) ∧
      p.rcv.remain ≤ (p.takeText env seg).rcv.remain := by
  have hgo : seg.data.length ≠ 0 → ∀ t : Pcb,
      t = (if seqAfter seg.seq p.rcvNxt then ((p.stash seg).takeNext env []).wake .readers
        else (p.takeNext env ((p.trim seg).take p.rcvWnd)).wake .readers) →
      Mapped S b g t.rcv ∧ (Inside p.rcv → Inside t.rcv) ∧ p.rcv.remain ≤ t.rcv.remain := by
    intro hne t ht
    have hfit := hf hne
    have hnxt : p.rcvNxt = b + BitVec.ofNat 32 (g + p.rcv.remain) := h.nxt
    have hahead := hfit.ahead
    have hbehind := hfit.behind
    rw [hfit.seq, hnxt, seqAfter_eq b hahead hbehind] at ht
    by_cases hlt : g + p.rcv.remain < o
    · rw [decide_eq_true hlt, if_pos rfl] at ht
      have hrcv : t.rcv = (p.stash seg).rcv := by
        rw [ht]
        exact takeNext_rcv (p.stash seg) env []
      have hrem : (p.stash seg).rcv.remain = p.rcv.remain := by
        have : (p.stash seg).rcvWnd = p.rcvWnd := by
          unfold Pcb.stash
          dsimp only
          split
          · split
            · rfl
            · split <;> rfl
          · rfl
        exact congrArg (rcvBufSize - ·) this
      rw [hrcv, hrem]
      obtain ⟨hm, hin⟩ := stash_mapped h hfit.seq hfit.data hlt hahead
      exact ⟨hm, hin, Nat.le_refl _⟩
    · rw [decide_eq_false hlt, if_neg Bool.false_ne_true] at ht
      have htrim : p.trim seg = seg.data.drop (g + p.rcv.remain - o) := by
        unfold Pcb.trim
        rw [hfit.seq, hnxt, seqBefore_eq b hahead hbehind]
        by_cases hb : o < g + p.rcv.remain
        · rw [decide_eq_true hb, if_pos rfl, toNat_place_sub b (by omega) (by omega)]
        · have hzero : g + p.rcv.remain - o = 0 := by omega
          rw [decide_eq_false hb, if_neg Bool.false_ne_true, hzero, List.drop_zero]
      have hagree : Agree S (g + p.rcv.remain) ((p.trim seg).take p.rcvWnd) := by
        have hd := (hfit.data.drop (g + p.rcv.remain - o)).take p.rcvWnd
        have hidx : o + (g + p.rcv.remain - o) = g + p.rcv.remain := by omega
        rw [hidx] at hd
        rw [htrim]
        exact hd
      have hle : ((p.trim seg).take p.rcvWnd).length ≤ p.rcvWnd := by
        rw [List.length_take]
        omega
      have hrcv : t.rcv = (p.takeNext env ((p.trim seg).take p.rcvWnd)).rcv := by
        rw [ht]
        rfl
      rw [hrcv, takeNext_rcv]
      split
      · obtain ⟨hm, hin, hgrow⟩ := merge_mapped h hagree hle
        exact ⟨hm, hin, by omega⟩
      · exact ⟨h, id, Nat.le_refl _⟩
  unfold Pcb.takeText
  split
  case h_4 => exact ⟨h, id, Nat.le_refl _⟩
  all_goals
    split
    · exact ⟨h, id, Nat.le_refl _⟩
    · rename_i hne
      exact hgo hne _ rfl

/-! ### Reading -/

/-- How much is moved to the front. -/
theorem tail_eq (h : Mapped S b g p.rcv) {len : ℕ} (hle : len ≤ p.rcv.remain) :
    ∃ tail, (if p.oooLen ≠ 0 then p.remain + (p.oooSeq - p.rcvNxt).toNat + p.oooLen - len else p.remain - len) = tail ∧
      p.rcv.remain - len ≤ tail ∧ len + tail ≤ rcvBufSize ∧
      ∀ k, p.oooSeq = b + BitVec.ofNat 32 (g + p.rcv.remain + k) → k + p.oooLen ≤ p.rcvWnd → p.oooLen ≠ 0 →
        tail = p.rcv.remain + k + p.oooLen - len := by
  have hwnd : p.rcvWnd ≤ rcvBufSize := h.wnd
  have hbuf : p.rcv.remain + p.rcvWnd = rcvBufSize := Nat.sub_add_cancel hwnd
  have hsmall : rcvBufSize < 2 ^ 31 := by decide
  have hrem : p.remain = p.rcv.remain := rfl
  have hnxt : p.rcvNxt = b + BitVec.ofNat 32 (g + p.rcv.remain) := h.nxt
  have hgap : ∀ k, p.oooSeq = b + BitVec.ofNat 32 (g + p.rcv.remain + k) → k + p.oooLen ≤ p.rcvWnd →
      (p.oooSeq - p.rcvNxt).toNat = k := by
    intro k hk hfit
    rw [hk, hnxt, toNat_place_sub b (by omega) (by omega)]
    omega
  refine ⟨_, rfl, ?_⟩
  rw [hrem]
  by_cases hzero : p.oooLen = 0
  · rw [if_neg (by rw [not_not]; exact hzero)]
    exact ⟨Nat.le_refl _, by omega, fun _ _ _ hne => absurd hzero hne⟩
  · rw [if_pos hzero]
    obtain ⟨k₀, hk₀, hos, hfit, -⟩ := h.stash hzero
    have hfit' : k₀ + p.oooLen ≤ p.rcvWnd := hfit
    rw [hgap k₀ hos hfit']
    refine ⟨by omega, by omega, fun k hk hkfit _ => ?_⟩
    have hkk : k = k₀ := (hgap k hk hkfit).symm.trans (hgap k₀ hos hfit')
    rw [hkk]

theorem take_rcv (p : Pcb) (env : Env) (len : ℕ) :
    (p.take env len).1.base = p.base ∧ ∃ tail,
      (if p.oooLen ≠ 0 then p.remain + (p.oooSeq - p.rcvNxt).toNat + p.oooLen - len else p.remain - len) = tail ∧
      (p.take env len).1.rcv = ⟨p.rcvNxt, p.rcvWnd + len, fun a => if a < tail then p.buf (a + len) else p.buf a,
        p.oooSeq, p.oooLen, (0, len) :: (len, tail) :: p.copies⟩ := by
  unfold Pcb.take
  dsimp only
  refine ⟨?_, _, rfl, ?_⟩
  · split
    · exact Pcb.outputAck_base _ env
    · rfl
  · split
    · exact Pcb.outputAck_rcv _ env
    · rfl

/-- The bytes at the front go, and everything behind them moves up. -/
theorem take_mapped (env : Env) {len : ℕ} (h : Mapped S b g p.rcv) (hle : len ≤ p.rcv.remain) :
    Mapped S b (g + len) (p.take env len).1.rcv ∧ (Inside p.rcv → Inside (p.take env len).1.rcv) := by
  have hwnd : p.rcvWnd ≤ rcvBufSize := h.wnd
  have hbuf : p.rcv.remain + p.rcvWnd = rcvBufSize := Nat.sub_add_cancel hwnd
  obtain ⟨tail, htail, hlow, hfits, hstash⟩ := tail_eq h hle
  obtain ⟨-, tail', htail', hrcv⟩ := take_rcv p env len
  obtain rfl : tail' = tail := htail'.symm.trans htail
  rw [hrcv]
  have hmr : rcvBufSize - (p.rcvWnd + len) = p.rcv.remain - len := by omega
  refine ⟨⟨?_, ?_, ?_, ?_⟩, ?_⟩
  · change p.rcvWnd + len ≤ rcvBufSize
    omega
  · change p.rcvNxt = b + BitVec.ofNat 32 (g + len + (rcvBufSize - (p.rcvWnd + len)))
    rw [hmr]
    refine h.nxt.trans ?_
    congr 2
    omega
  · intro i hi
    change i < rcvBufSize - (p.rcvWnd + len) at hi
    change S[g + len + i]? = some (if i < tail' then p.buf (i + len) else p.buf i)
    rw [if_pos (by omega), Nat.add_comm i, Nat.add_assoc]
    exact h.buf (len + i) (by omega)
  · intro hne
    change p.oooLen ≠ 0 at hne
    obtain ⟨k, hk, hos, hfit, hst⟩ := h.stash hne
    have htail₀ := hstash k hos hfit hne
    refine ⟨k, hk, ?_, ?_, fun i hi => ?_⟩
    · change p.oooSeq = b + BitVec.ofNat 32 (g + len + (rcvBufSize - (p.rcvWnd + len)) + k)
      refine hos.trans ?_
      congr 2
      omega
    · change k + p.oooLen ≤ p.rcvWnd + len
      have hfit' : k + p.oooLen ≤ p.rcvWnd := hfit
      omega
    · change i < p.oooLen at hi
      change S[g + len + (rcvBufSize - (p.rcvWnd + len)) + k + i]? =
        some (if rcvBufSize - (p.rcvWnd + len) + k + i < tail' then p.buf (rcvBufSize - (p.rcvWnd + len) + k + i + len)
          else p.buf (rcvBufSize - (p.rcvWnd + len) + k + i))
      have hplace : g + len + (rcvBufSize - (p.rcvWnd + len)) + k + i = g + p.rcv.remain + k + i := by omega
      have hcell : rcvBufSize - (p.rcvWnd + len) + k + i + len = p.rcv.remain + k + i := by omega
      rw [if_pos (by omega), hplace, hcell]
      exact hst i hi
  · intro hc c hmem
    rcases List.mem_cons.mp hmem with rfl | hmem
    · change 0 + len ≤ rcvBufSize
      omega
    · rcases List.mem_cons.mp hmem with rfl | hmem
      · exact hfits
      · exact hc c hmem

end EwokOS.Net
