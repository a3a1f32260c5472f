import EwokOS.Ext3.JbdCommit

/-! A transaction in the log, and what lies behind it.

    The scan reads a complete transaction and goes on behind it. What it finds there decides what
    recovery writes:

        T1 | nothing with the next number      the blocks of T1
        T1 | a part of T2, no commit block     the blocks of T1 that this part does not revoke
        T1 | T2                                the blocks of T1 not revoked, then those of T2 -/

namespace EwokOS.Ext3.Jbd

section
variable {j j' : Jbd} {c : Ctx} {log : ℕ → Block} {dev : Dev} {pos n k : ℕ} {seq : Word}
  {l l' : List Block} {t t' : Txn}

/-! ### Positions -/

/-- Positions of one round are told apart by their distance. -/
theorem wrap_inj (h : InLog j pos) {a b : ℕ} (ha : a < j.capacity) (hb : b < j.capacity)
    (he : j.wrap pos a = j.wrap pos b) : a = b := by
  rcases Nat.lt_trichotomy a b with hlt | rfl | hlt
  · have hsplit : b = a + (b - a) := by omega
    rw [hsplit, ← wrap_wrap] at he
    exact absurd he.symm (wrap_ne (wrap_inLog h.capacity_pos pos a) (by omega) (by omega))
  · rfl
  · have hsplit : a = b + (a - b) := by omega
    rw [hsplit, ← wrap_wrap] at he
    exact absurd he (wrap_ne (wrap_inLog h.capacity_pos pos b) (by omega) (by omega))

/-- Every position of the log is at some distance from every other. -/
theorem wrap_reach {p : ℕ} (h : InLog j pos) (hp : InLog j p) : ∃ e < j.capacity, p = j.wrap pos e := by
  have h₁ := h.1
  have h₂ := h.2
  have h₃ := hp.1
  have h₄ := hp.2
  have hc : j.capacity = j.maxlen - j.first := rfl
  rcases Nat.lt_or_ge p pos with hlt | hge
  · refine ⟨p + j.capacity - pos, by omega, ?_⟩
    have hsum : pos - j.first + (p + j.capacity - pos) = (p - j.first) + j.capacity := by omega
    rw [wrap, hsum, Nat.add_mod_right, Nat.mod_eq_of_lt (by omega)]
    omega
  · refine ⟨p - pos, by omega, ?_⟩
    have hsum : pos - j.first + (p - pos) = p - j.first := by omega
    rw [wrap, hsum, Nat.mod_eq_of_lt (by omega)]
    omega

theorem wrap_round (h : InLog j pos) : j.wrap pos j.capacity = pos := by
  have h₁ := h.1
  have h₂ := h.2
  have hc : j.capacity = j.maxlen - j.first := rfl
  rw [wrap, Nat.add_mod_right, Nat.mod_eq_of_lt (by omega)]
  omega

/-! ### A log that is written to -/

theorem logWrites_take (pos : ℕ) (l : List Block) (k : ℕ) :
    (j.logWrites c pos l).take k = j.logWrites c pos (l.take k) := by
  induction l generalizing pos k with
  | nil => rw [logWrites, List.take_nil, List.take_nil, logWrites]
  | cons b l ih =>
    cases k with
    | zero => rfl
    | succ k => rw [logWrites, List.take_succ_cons, List.take_succ_cons, logWrites, ih]

theorem length_logWrites (pos : ℕ) (l : List Block) : (j.logWrites c pos l).length = l.length := by
  induction l generalizing pos with
  | nil => rfl
  | cons b l ih => rw [logWrites, List.length_cons, List.length_cons, ih]

/-- A position that is written to holds one of the blocks. -/
theorem written_mem (h : InLog j pos) (hl : l.length ≤ j.capacity) (hk : k < l.length) :
    logOf c (writeAll dev (j.logWrites c pos l)) (j.wrap pos k) ∈ l := by
  have hh : Holds j (logOf c (writeAll dev (j.logWrites c pos l))) pos l := holds_written h hl
  clear hl
  revert hh
  generalize logOf c (writeAll dev (j.logWrites c pos l)) = log
  intro hh
  induction l generalizing pos k with
  | nil => exact absurd hk (Nat.not_lt_zero k)
  | cons b l ih =>
    cases k with
    | zero =>
      rw [wrap_zero h, hh.1]
      exact List.mem_cons_self
    | succ k =>
      rw [List.length_cons] at hk
      have hmem := ih (wrap_inLog h.capacity_pos pos 1) (k := k) (by omega) hh.2
      rw [wrap_wrap, Nat.add_comm 1 k] at hmem
      exact List.mem_cons_of_mem b hmem

/-- The first of the blocks stands where the writing began. -/
theorem written_head {b : Block} (h : InLog j pos) (hl : (b :: l).length ≤ j.capacity) :
    logOf c (writeAll dev (j.logWrites c pos (b :: l))) pos = b :=
  (holds_written h hl).1

/-- A position that is not written to is as it was. -/
theorem written_other {p : ℕ} (h : InLog j pos) (hp : ∀ k < l.length, p ≠ j.wrap pos k) :
    logOf c (writeAll dev (j.logWrites c pos l)) p = logOf c dev p := by
  refine writeAll_of_ne fun x hx => ?_
  obtain ⟨k, hk, he⟩ := mem_logWrites h hx
  rw [he]
  exact fun heq => hp k hk (c.inj heq).symm

/-- Either way a position holds one of the blocks, or what it held. -/
theorem written_cases {p : ℕ} (h : InLog j pos) (hl : l.length ≤ j.capacity) :
    logOf c (writeAll dev (j.logWrites c pos l)) p ∈ l ∨
      logOf c (writeAll dev (j.logWrites c pos l)) p = logOf c dev p := by
  by_cases hp : ∃ k < l.length, p = j.wrap pos k
  · obtain ⟨k, hk, rfl⟩ := hp
    exact .inl (written_mem h hl hk)
  · exact .inr (written_other h fun k hk he => hp ⟨k, hk, he⟩)

/-- Blocks outside the journal are not written to. -/
theorem written_outside {b : ℕ} (hb : ∀ i, c.map i ≠ b) (h : InLog j pos) :
    writeAll dev (j.logWrites c pos l) b = dev b := by
  refine writeAll_of_ne fun x hx => ?_
  obtain ⟨k, -, he⟩ := mem_logWrites h hx
  rw [he]
  exact hb _

/-- The log agrees on the positions of the blocks. -/
theorem Holds.congr_at {log' : ℕ → Block} (h : Holds j log pos l) (hin : InLog j pos)
    (he : ∀ k < l.length, log' (j.wrap pos k) = log (j.wrap pos k)) : Holds j log' pos l := by
  induction l generalizing pos with
  | nil => trivial
  | cons b l ih =>
    rw [List.length_cons] at he
    refine ⟨?_, ih h.2 (wrap_inLog hin.capacity_pos pos 1) fun k hk => ?_⟩
    · have h0 := he 0 (by omega)
      rw [wrap_zero hin] at h0
      exact h0.trans h.1
    · rw [wrap_wrap, Nat.add_comm]
      exact he (k + 1) (by omega)

/-! ### What is read in the blocks of a transaction -/

/-- The log blocks of a transaction but for the commit block. -/
def bodyBlocks (j : Jbd) (seq : Word) (t : Txn) : List Block :=
  (j.revPieces t).map (revokeBlock seq) ++ (j.blockPieces t).flatMap (descPart seq)

/-- The log blocks of a transaction with number `seq`. -/
def logBlocks (j : Jbd) (seq : Word) (t : Txn) : List Block := j.bodyBlocks seq t ++ [header 2 seq]

theorem txnBlocks_eq_logBlocks : j.txnBlocks t = j.logBlocks j.nextSequence t := by
  rw [txnBlocks_eq, logBlocks, bodyBlocks, List.append_assoc]

theorem length_logBlocks (h : Sized j) (seq : Word) (t : Txn) :
    (j.logBlocks seq t).length = j.txnLogBlocks t := by
  have hlen := length_txnBlocks h t
  rw [txnBlocks_eq, List.length_append, List.length_append, List.length_map,
    length_flatMap_descPart] at hlen
  rw [logBlocks, bodyBlocks, List.length_append, List.length_append, List.length_map,
    length_flatMap_descPart]
  exact (Nat.add_assoc _ _ _).trans hlen

/-- What is read in a block that has a header. -/
theorem record_seq {bs : ℕ} {b : Block} {w : Word} {d : Rec} (h : record bs b w = some d) : b 2 = w := by
  rw [record] at h
  cases hc : checkHeader b with
  | none =>
    rw [hc] at h
    cases h
  | some x =>
    rw [hc] at h
    rw [checkHeader] at hc
    split_ifs at hc
    cases hc
    dsimp only at h
    by_contra hne
    rw [if_pos hne] at h
    cases h

theorem record_escape {bs : ℕ} (data : Block) (w : Word) : record bs (escape data) w = none := by
  have hne : escape data 0 ≠ magic := by
    rw [escape]
    split_ifs with h
    · rw [Function.update_self]
      decide
    · exact h
  rw [record, checkHeader, if_pos hne]

/-- What may be read in the blocks before the commit block. -/
inductive Rec.Body (revokes : List Word) : Rec → Prop
  | revoke {bs : List Word} (h : ∀ b ∈ bs, b ∈ revokes) : Rec.Body revokes (.revoke bs)
  | descriptor (ts : List (Word × Word)) : Rec.Body revokes (.descriptor ts)

theorem record_body (hs : Sized j) {b : Block} (hb : b ∈ j.bodyBlocks seq t) {w : Word} {d : Rec}
    (h : record j.blockSize b w = some d) : w = seq ∧ Rec.Body t.revokes d := by
  obtain ⟨h₁, h₂, hbs⟩ := hs.ample
  obtain ⟨hf, hr, -⟩ := chunks_spec h₁ _ t.revokes (Nat.le_refl _)
  obtain ⟨-, hd, -⟩ := chunks_spec h₂ _ t.blocks (Nat.le_refl _)
  rcases List.mem_append.mp hb with hb | hb
  · obtain ⟨l, hl, rfl⟩ := List.mem_map.mp hb
    obtain rfl : seq = w := record_seq h
    obtain ⟨hne, hle⟩ := hr l hl
    rw [record_revoke hbs hle (List.length_pos_iff.mpr hne), Option.some.injEq] at h
    rw [← h]
    refine ⟨rfl, .revoke fun b hb => ?_⟩
    rw [← hf]
    exact List.mem_flatten.mpr ⟨l, hl, hb⟩
  · obtain ⟨l, hl, hb⟩ := List.mem_flatMap.mp hb
    rcases List.mem_cons.mp hb with rfl | hb
    · obtain rfl : seq = w := record_seq h
      obtain ⟨hne, hle⟩ := hd l hl
      rw [record_desc hne hle, Option.some.injEq] at h
      rw [← h]
      exact ⟨rfl, .descriptor _⟩
    · obtain ⟨x, -, rfl⟩ := List.mem_map.mp hb
      rw [record_escape] at h
      cases h

theorem record_logBlocks (hs : Sized j) {b : Block} (hb : b ∈ j.logBlocks seq t) {w : Word} {d : Rec}
    (h : record j.blockSize b w = some d) : w = seq := by
  rcases List.mem_append.mp hb with hb | hb
  · exact (record_body hs hb h).1
  · rw [List.mem_singleton.mp hb] at h
    exact (record_seq h).symm

/-- The first block of a transaction is a record. -/
theorem logBlocks_cons (hs : Sized j) (seq : Word) (t : Txn) : ∃ b l d, j.logBlocks seq t = b :: l ∧
    record j.blockSize b seq = some d := by
  obtain ⟨h₁, h₂, hbs⟩ := hs.ample
  obtain ⟨-, hr, -⟩ := chunks_spec h₁ _ t.revokes (Nat.le_refl _)
  obtain ⟨-, hd, -⟩ := chunks_spec h₂ _ t.blocks (Nat.le_refl _)
  rw [logBlocks, bodyBlocks]
  cases hrev : j.revPieces t with
  | cons x cs =>
    obtain ⟨hne, hle⟩ := hr x (by rw [revPieces] at hrev; rw [hrev]; exact List.mem_cons_self)
    exact ⟨_, _, _, rfl, record_revoke hbs hle (List.length_pos_iff.mpr hne)⟩
  | nil =>
    cases hblk : j.blockPieces t with
    | cons x cs =>
      obtain ⟨hne, hle⟩ := hd x (by rw [blockPieces] at hblk; rw [hblk]; exact List.mem_cons_self)
      exact ⟨_, _, _, rfl, record_desc hne hle⟩
    | nil => exact ⟨_, _, _, rfl, record_commit j.blockSize⟩

/-! ### The scan -/

/-- The transaction in the log at `pos`, as it is read. -/
def transOf (j : Jbd) (pos : ℕ) (seq : Word) (t : Txn) : Trans :=
  ⟨t.revokes, descTags j (j.past pos ((j.revPieces t).map (revokeBlock seq))) (j.blockPieces t)⟩

/-- A transaction is read, and the scan goes on behind it. -/
theorem records_logBlocks {s : ℕ} (hs : Sized j) (hin : InLog j pos)
    (hh : Holds j log pos (j.logBlocks seq t)) (hn : j.capacity ≤ s + n)
    (hfit : s + j.txnLogBlocks t ≤ j.capacity) :
    ∃ m, chainFrom j ⟨[], []⟩ (records j log n pos seq s) = transOf j pos seq t :: chainFrom j ⟨[], []⟩
        (records j log m (j.wrap pos (j.txnLogBlocks t)) (seq + 1) (s + j.txnLogBlocks t)) ∧
      revokesOf seq (records j log n pos seq s) = (t.revokes.map fun b => (b, seq)) ++
        revokesOf (seq + 1)
          (records j log m (j.wrap pos (j.txnLogBlocks t)) (seq + 1) (s + j.txnLogBlocks t)) ∧
      j.capacity ≤ s + j.txnLogBlocks t + m := by
  obtain ⟨h₁, h₂, hbs⟩ := hs.ample
  obtain ⟨hf, hr, -⟩ := chunks_spec h₁ _ t.revokes (Nat.le_refl _)
  obtain ⟨-, hb, -⟩ := chunks_spec h₂ _ t.blocks (Nat.le_refl _)
  have hlen := length_logBlocks hs seq t
  rw [logBlocks, bodyBlocks, List.length_append, List.length_append, List.length_map,
    List.length_singleton] at hlen
  rw [logBlocks, bodyBlocks, List.append_assoc, holds_append, holds_append] at hh
  obtain ⟨hh₁, hh₂, hh₃⟩ := hh
  have hin' := wrap_inLog hin.capacity_pos pos (j.revPieces t).length
  have hpast : j.past pos ((j.revPieces t).map (revokeBlock seq)) =
      j.wrap pos (j.revPieces t).length := by
    rw [past_eq hin, List.length_map]
  obtain ⟨m, hm, hrev⟩ := records_revokes hbs (j.revPieces t) hr hh₁ hn (by omega)
  obtain ⟨m', hm', hdesc⟩ := records_descs (j.blockPieces t) (by rw [hpast]; exact hin') hb hh₂ hm
    (by omega)
  have hcommit := records_cons (d := .commit) hm' (by omega) (hh₃.1 ▸ record_commit j.blockSize)
  have hplace : j.wrap (j.past (j.past pos ((j.revPieces t).map (revokeBlock seq)))
      ((j.blockPieces t).flatMap (descPart seq))) 1 = j.wrap pos (j.txnLogBlocks t) := by
    rw [hpast, past_eq hin', wrap_wrap, wrap_wrap, ← hlen, Nat.add_assoc]
  have hcount : s + (j.revPieces t).length + ((j.blockPieces t).flatMap (descPart seq)).length + 1 =
      s + j.txnLogBlocks t := by omega
  rw [Rec.after, Rec.span, hplace, hcount] at hcommit
  refine ⟨m' - 1, ?_, ?_, by omega⟩
  · rw [hrev, hdesc, hcommit, chain_revRecs, chain_descRecs, chainFrom, transOf]
    dsimp only
    rw [List.nil_append, List.nil_append, revPieces, hf]
  · rw [hrev, hdesc, hcommit, revokesOf_revRecs, revokesOf_descRecs, revokesOf, revPieces, hf]

/-- Records without a commit record among them make no transaction. -/
theorem records_body {revokes : List Word} {s : ℕ} (hin : InLog j pos)
    (h : ∀ p, InLog j p → ∀ d, record j.blockSize (log p) seq = some d → Rec.Body revokes d) (u : Trans) :
    chainFrom j u (records j log n pos seq s) = [] ∧
      ∀ r ∈ revokesOf seq (records j log n pos seq s), r.1 ∈ revokes ∧ r.2 = seq := by
  induction n generalizing pos s u with
  | zero => exact ⟨rfl, (by intros; contradiction)⟩
  | succ n ih =>
    rw [records]
    split_ifs
    · exact ⟨rfl, (by intros; contradiction)⟩
    · cases hd : record j.blockSize (log pos) seq with
      | none => exact ⟨rfl, (by intros; contradiction)⟩
      | some d =>
        have hin' := wrap_inLog hin.capacity_pos pos d.span
        cases h pos hin d hd with
        | revoke hbs =>
          obtain ⟨hc, hr⟩ := ih hin' (s := s + 1) _
          refine ⟨hc, fun r hmem => ?_⟩
          rcases List.mem_append.mp hmem with hmem | hmem
          · obtain ⟨b, hb, rfl⟩ := List.mem_map.mp hmem
            exact ⟨hbs b hb, rfl⟩
          · exact hr r hmem
        | descriptor ts => exact ih hin' _

/-! ### What recovery writes -/

/-- The blocks a transaction may have. -/
structure Txn.Valid (c : Ctx) (t : Txn) : Prop where
  nonzero : ∀ x ∈ t.blocks, x.1 ≠ 0
  inRange : ∀ x ∈ t.blocks, x.1.toNat < c.fsBlocks
  outside : ∀ x ∈ t.blocks, ∀ i, c.map i ≠ x.1.toNat
  unrevoked : ∀ x ∈ t.blocks, x.1 ∉ t.revokes

/-- A transaction that can be read at `start`. -/
structure Shown (j : Jbd) (log : ℕ → Block) (start : ℕ) (seq : Word) (t : Txn) : Prop where
  place : InLog j start
  fits : j.txnLogBlocks t ≤ j.capacity
  holds : Holds j log start (j.logBlocks seq t)

/-- Nothing complete is read at `pos`, and no revokes but these. -/
def Quiet (j : Jbd) (log : ℕ → Block) (pos : ℕ) (seq : Word) (revokes : List Word) : Prop :=
  ∀ n s, chainFrom j ⟨[], []⟩ (records j log n pos seq s) = [] ∧
    ∀ r ∈ revokesOf seq (records j log n pos seq s), r.1 ∈ revokes

theorem quiet_none (h : record j.blockSize (log pos) seq = none) : Quiet j log pos seq [] := by
  intro n s
  have hnil : records j log n pos seq s = [] := by
    cases n with
    | zero => rfl
    | succ n =>
      rw [records, h]
      exact ite_self _
  rw [hnil]
  exact ⟨rfl, (by intros; contradiction)⟩

theorem quiet_body {revokes : List Word} (hin : InLog j pos)
    (h : ∀ p, InLog j p → ∀ d, record j.blockSize (log p) seq = some d → Rec.Body revokes d) :
    Quiet j log pos seq revokes := by
  intro n s
  obtain ⟨hc, hr⟩ := records_body (n := n) (s := s) hin h ⟨[], []⟩
  exact ⟨hc, fun r hr' => (hr r hr').1⟩

/-- Whether recovery writes a block of transaction `seq`. -/
def keeps (c : Ctx) (revs : List (Word × Word)) (seq b : Word) : Bool :=
  decide (b ≠ 0 ∧ b.toNat < c.fsBlocks) && !revokeTest revs b seq

/-- The blocks of a transaction that recovery writes. -/
theorem transOf_puts {revs : List (Word × Word)} {i : ℕ} (hs : Sized j) (hin : InLog j pos)
    (hh : Holds j log pos (j.logBlocks seq t)) :
    ((transOf j pos seq t).tags.filter (kept c revs seq)).map (Tag.put log i) =
      (t.blocks.filter fun x => keeps c revs seq x.1).map (home i) := by
  obtain ⟨-, h₂, -⟩ := hs.ample
  obtain ⟨hb, -, -⟩ := chunks_spec h₂ _ t.blocks (Nat.le_refl _)
  rw [logBlocks, bodyBlocks, List.append_assoc, holds_append, holds_append] at hh
  have hin' : InLog j (j.past pos ((j.revPieces t).map (revokeBlock seq))) := by
    rw [past_eq hin]
    exact wrap_inLog hin.capacity_pos _ _
  have hputs := descTags_puts (f := keeps c revs seq) (i := i) hin' (j.blockPieces t) hh.2.1
  rw [blockPieces, hb] at hputs
  exact hputs

theorem transOf_outside (hs : Sized j) (hv : t.Valid c) {x : Tag}
    (hx : x ∈ (transOf j pos seq t).tags) (i : ℕ) : c.map i ≠ x.block.toNat := by
  obtain ⟨-, h₂, -⟩ := hs.ample
  obtain ⟨hb, -, -⟩ := chunks_spec h₂ _ t.blocks (Nat.le_refl _)
  obtain ⟨y, hy, he⟩ := mem_descTags _ hx
  rw [blockPieces, hb] at hy
  rw [he]
  exact hv.outside y hy i

theorem keeps_of (hv : t.Valid c) {revs : List (Word × Word)} {x : Word × Block} (hx : x ∈ t.blocks)
    (hr : ∀ r ∈ revs, r.1 = x.1 → r.2 < seq) : keeps c revs seq x.1 = true := by
  have htest : revokeTest revs x.1 seq = false := by
    refine List.any_eq_false.mpr fun r hr' => ?_
    rw [Bool.and_eq_true, beq_iff_eq, decide_eq_true_eq]
    rintro ⟨he, hle⟩
    exact absurd (hr r hr' he) (BitVec.not_lt.mpr hle)
  rw [keeps, decide_eq_true ⟨hv.nonzero x hx, hv.inRange x hx⟩, htest]
  rfl

/-- A transaction with nothing complete behind it: its blocks are written, but for some that are
    revoked there. -/
theorem puts_quiet {start : ℕ} {revokes : List Word} (hs : Sized j) (hf : 0 < j.first)
    (hst : sbStart j.sb = start) (hsq : sbSequence j.sb = seq) (hv : t.Valid c)
    (h : Shown j (logOf c dev) start seq t)
    (hq : Quiet j (logOf c dev) (j.wrap start (j.txnLogBlocks t)) (seq + 1) revokes) :
    Outside c (chain j c dev) ∧ ∃ f : Word → Bool, (∀ x ∈ t.blocks, x.1 ∉ revokes → f x.1 = true) ∧
      (recover j c dev).2.1 = (t.blocks.filter fun x => f x.1).map (home 0) := by
  have h0 : start ≠ 0 := by
    have := h.place.1
    omega
  obtain ⟨m, hchain, hrev, -⟩ := records_logBlocks (n := j.capacity) (s := 0) hs h.place h.holds
    (Nat.le_add_left _ _) (by rw [Nat.zero_add]; exact h.fits)
  obtain ⟨hnil, hrest⟩ := hq m (0 + j.txnLogBlocks t)
  have hone : chain j c dev = [transOf j start seq t] := by
    rw [chain, logRecords, hst, hsq, if_neg h0, hchain, hnil]
  have houts : Outside c (chain j c dev) := by
    rw [hone]
    intro x hx y hy i
    rw [List.mem_singleton.mp hx] at hy
    exact transOf_outside hs hv hy i
  refine ⟨houts, keeps c (found j c dev) seq, fun x hx hr => ?_, ?_⟩
  · refine keeps_of hv hx fun r hmem he => ?_
    rw [found, logRecords, hst, hsq, if_neg h0, hrev, List.mem_reverse] at hmem
    rcases List.mem_append.mp hmem with hmem | hmem
    · obtain ⟨b, hb, rfl⟩ := List.mem_map.mp hmem
      rw [← he] at hr
      exact absurd (he ▸ hb) (hv.unrevoked x hx)
    · exact absurd (he ▸ hrest r hmem) hr
  · rw [recover_puts dev houts, hone, written, written, List.append_nil, hsq,
      transOf_puts hs h.place h.holds]

/-- Two transactions, one behind the other: the blocks of the second are written last. -/
theorem puts_two {start : ℕ} (hs : Sized j) (hf : 0 < j.first) (hst : sbStart j.sb = start)
    (hsq : sbSequence j.sb = seq) (hlt : seq < seq + 1) (hv : t.Valid c) (hv' : t'.Valid c)
    (h : Shown j (logOf c dev) start seq t)
    (h' : Holds j (logOf c dev) (j.wrap start (j.txnLogBlocks t)) (j.logBlocks (seq + 1) t'))
    (hfit : j.txnLogBlocks t + j.txnLogBlocks t' ≤ j.capacity)
    (hq : Quiet j (logOf c dev) (j.wrap start (j.txnLogBlocks t + j.txnLogBlocks t')) (seq + 1 + 1) []) :
    Outside c (chain j c dev) ∧ ∃ f : Word → Bool, (recover j c dev).2.1 =
      (t.blocks.filter fun x => f x.1).map (home 0) ++ t'.blocks.map (home 1) := by
  have h0 : start ≠ 0 := by
    have := h.place.1
    omega
  have hin' := wrap_inLog h.place.capacity_pos start (j.txnLogBlocks t)
  obtain ⟨m, hchain, hrev, hm⟩ := records_logBlocks (n := j.capacity) (s := 0) hs h.place h.holds
    (Nat.le_add_left _ _) (by rw [Nat.zero_add]; exact h.fits)
  obtain ⟨m', hchain', hrev', -⟩ := records_logBlocks (s := 0 + j.txnLogBlocks t) hs hin' h' hm
    (by rw [Nat.zero_add]; exact hfit)
  rw [wrap_wrap] at hchain' hrev'
  obtain ⟨hnil, hrest⟩ := hq m' (0 + j.txnLogBlocks t + j.txnLogBlocks t')
  have htwo : chain j c dev = [transOf j start seq t,
      transOf j (j.wrap start (j.txnLogBlocks t)) (seq + 1) t'] := by
    rw [chain, logRecords, hst, hsq, if_neg h0, hchain, hchain', hnil]
  have houts : Outside c (chain j c dev) := by
    rw [htwo]
    intro x hx y hy i
    rcases List.mem_cons.mp hx with rfl | hx
    · exact transOf_outside hs hv hy i
    · rw [List.mem_singleton.mp hx] at hy
      exact transOf_outside hs hv' hy i
  refine ⟨houts, keeps c (found j c dev) seq, ?_⟩
  have hall : (t'.blocks.filter fun x => keeps c (found j c dev) (seq + 1) x.1) = t'.blocks := by
    refine List.filter_eq_self.mpr fun x hx => keeps_of hv' hx fun r hmem he => ?_
    rw [found, logRecords, hst, hsq, if_neg h0, hrev, hrev', List.mem_reverse] at hmem
    rcases List.mem_append.mp hmem with hmem | hmem
    · obtain ⟨b, -, rfl⟩ := List.mem_map.mp hmem
      exact hlt
    · rcases List.mem_append.mp hmem with hmem | hmem
      · obtain ⟨b, hb, rfl⟩ := List.mem_map.mp hmem
        exact absurd (he ▸ hb) (hv'.unrevoked x hx)
      · exact absurd (hrest r hmem) List.not_mem_nil
  rw [recover_puts dev houts, htwo, written, written, written, List.append_nil, hsq,
    transOf_puts hs h.place h.holds, transOf_puts hs hin' h', hall]

/-- A transaction whose first block is gone: nothing is written. -/
theorem puts_gone {start : ℕ} (hst : sbStart j.sb = start) (hsq : sbSequence j.sb = seq)
    (h : record j.blockSize (dev (c.map start)) seq = none) :
    Outside c (chain j c dev) ∧ (recover j c dev).2.1 = [] := by
  have hnil : chain j c dev = [] := by
    rw [chain, logRecords, hst, hsq]
    split_ifs
    · rfl
    · exact (@quiet_none j (logOf c dev) start seq h j.capacity 0).1
  have houts : Outside c (chain j c dev) := by
    rw [hnil]
    exact (by rintro _ ⟨⟩)
  refine ⟨houts, ?_⟩
  rw [recover_puts dev houts, hnil]
  rfl

end
end EwokOS.Ext3.Jbd
