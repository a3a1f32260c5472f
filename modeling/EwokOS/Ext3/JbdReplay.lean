import EwokOS.Ext3.Jbd

/-! What recovery writes.

    `records` reads the log from `s_start` on, `chain` groups the records into the transactions that
    are closed by a commit record, and `wanted` says which blocks these transactions should write:

        R{7}  D{3,7}  C  |  D{7}  C  |  R{3}  (no commit)        writes 3, then 7
        -----------------    -------     -----------------
          transaction 0         1         no effect at all

    Recovery goes wrong in three ways only (`Heeded`): it hears the revoke records of the transaction
    without a commit record, it compares sequence numbers as unsigned words, so that a revoke record
    changes sides where the sequence passes 2^32, and it writes no block outside the volume. -/

namespace EwokOS.Ext3.Jbd

section
variable {j : Jbd} {c : Ctx} {log : ℕ → Block} {r : Replay} {p : Pass} {n k : ℕ} {t : Tag}

/-! ### The reference -/

/-- A transaction of the log. -/
structure Trans where
  revokes : List Word
  tags : List Tag

/-- The sequence number behind a record. -/
def Rec.after (seq : Word) : Rec → Word
  | .commit => seq + 1
  | _ => seq

/-- The records of the log from `pos` on, with their places. -/
def records (j : Jbd) (log : ℕ → Block) : ℕ → ℕ → Word → ℕ → List (ℕ × Rec)
  | 0, _, _, _ => []
  | n + 1, pos, seq, scanned =>
    if j.capacity ≤ scanned then []
    else
      match record j.blockSize (log pos) seq with
      | none => []
      | some d => (pos, d) :: records j log n (j.wrap pos d.span) (d.after seq) (scanned + d.span)

/-- The transactions that are closed by a commit record; `t` is the one being read. -/
def chainFrom (j : Jbd) (t : Trans) : List (ℕ × Rec) → List Trans
  | [] => []
  | (_, .revoke bs) :: l => chainFrom j { t with revokes := t.revokes ++ bs } l
  | (pos, .descriptor ts) :: l => chainFrom j { t with tags := t.tags ++ placed j pos ts } l
  | (_, .commit) :: l => t :: chainFrom j ⟨[], []⟩ l

/-- The blocks revoked behind the last commit record; `revokes` are those read since the last one. -/
def tornFrom (revokes : List Word) : List (ℕ × Rec) → List Word
  | [] => revokes
  | (_, .revoke bs) :: l => tornFrom (revokes ++ bs) l
  | (_, .descriptor _) :: l => tornFrom revokes l
  | (_, .commit) :: l => tornFrom [] l

/-- The write of a tag of transaction `i`. -/
def Tag.put (log : ℕ → Block) (i : ℕ) (t : Tag) : Put :=
  ⟨i, t.block.toNat, unescape t.flags (log t.logBlock)⟩

/-- Whether none of the transactions revokes the block. -/
def unrevoked (ts : List Trans) (t : Tag) : Bool := ts.all fun x => decide (t.block ∉ x.revokes)

/-- What the transactions should write, the first of them being number `i`. -/
def wanted (log : ℕ → Block) (i : ℕ) : List Trans → List Put
  | [] => []
  | x :: l => (x.tags.filter (unrevoked (x :: l))).map (Tag.put log i) ++ wanted log (i + 1) l

/-- The log as the device holds it. -/
def logOf (c : Ctx) (dev : Dev) : ℕ → Block := fun i => dev (c.map i)

/-- The records of the log of a device. -/
def logRecords (j : Jbd) (c : Ctx) (dev : Dev) : List (ℕ × Rec) :=
  if sbStart j.sb = 0 then []
  else records j (logOf c dev) j.capacity (sbStart j.sb) (sbSequence j.sb) 0

/-- The complete transactions of the log of a device. -/
def chain (j : Jbd) (c : Ctx) (dev : Dev) : List Trans := chainFrom j ⟨[], []⟩ (logRecords j c dev)

/-- The blocks that the transaction without a commit record revokes. -/
def torn (j : Jbd) (c : Ctx) (dev : Dev) : List Word := tornFrom [] (logRecords j c dev)

/-- The sequence numbers pass 2^32 between transaction `i` and transaction `k` of a log whose first
    transaction has number `start`. -/
def Wraps (start : Word) (i k : ℕ) : Prop := (start.toNat + i) / 2 ^ 32 < (start.toNat + k) / 2 ^ 32

instance (start : Word) (i k : ℕ) : Decidable (Wraps start i k) := inferInstanceAs (Decidable (_ < _))

/-- The condition on one tag of transaction `i` of the complete transactions `ts`. -/
structure Heeded (c : Ctx) (start : Word) (ts : List Trans) (torn : List Word) (i : Fin ts.length)
    (t : Tag) : Prop where
  inRange : unrevoked (ts.drop i) t = true → t.block ≠ 0 ∧ t.block.toNat < c.fsBlocks
  notTorn : unrevoked (ts.drop i) t = true → t.block ∈ torn → Wraps start i ts.length
  notEarlier : unrevoked (ts.drop i) t = true → ∀ k < i, t.block ∈ ts[k].revokes → ¬Wraps start k i
  heard : unrevoked (ts.drop i) t = false → t.block = 0 ∨ c.fsBlocks ≤ t.block.toNat ∨
    ∃ k, i ≤ k ∧ t.block ∈ ts[k].revokes ∧ ¬Wraps start i k

/-- The condition on all tags of the complete transactions. -/
def AllHeeded (c : Ctx) (start : Word) (ts : List Trans) (torn : List Word) : Prop :=
  ∀ i : Fin ts.length, ∀ t ∈ ts[i].tags, Heeded c start ts torn i t

/-! ### The code -/

/-- The revoke records, each with its sequence number. -/
def revokesOf (seq : Word) : List (ℕ × Rec) → List (Word × Word)
  | [] => []
  | (_, .revoke bs) :: l => (bs.map fun b => (b, seq)) ++ revokesOf seq l
  | (_, .descriptor _) :: l => revokesOf seq l
  | (_, .commit) :: l => revokesOf (seq + 1) l

/-- Whether recovery writes a tag of transaction `seq`. -/
def kept (c : Ctx) (revs : List (Word × Word)) (seq : Word) (t : Tag) : Bool :=
  decide (t.block ≠ 0 ∧ t.block.toNat < c.fsBlocks) && !revokeTest revs t.block seq

/-- What recovery writes for the transactions. -/
def written (c : Ctx) (log : ℕ → Block) (revs : List (Word × Word)) : Word → ℕ → List Trans → List Put
  | _, _, [] => []
  | seq, i, x :: l =>
    (x.tags.filter (kept c revs seq)).map (Tag.put log i) ++ written c log revs (seq + 1) (i + 1) l

/-- The device after some writes. -/
def puts (dev : Dev) (l : List Put) : Dev := l.foldl (fun d x => Function.update d x.block x.data) dev

/-- No tag names a block of the journal. -/
def Outside (c : Ctx) (ts : List Trans) : Prop := ∀ x ∈ ts, ∀ t ∈ x.tags, ∀ i, c.map i ≠ t.block.toNat

theorem puts_append (dev : Dev) (l l' : List Put) : puts dev (l ++ l') = puts (puts dev l) l' :=
  List.foldl_append ..

/-- A block nothing is written to. -/
theorem puts_of_ne {dev : Dev} {l : List Put} {b : ℕ} (h : ∀ x ∈ l, x.block ≠ b) :
    puts dev l b = dev b := by
  induction l generalizing dev with
  | nil => rfl
  | cons x l ih =>
    rw [puts, List.foldl_cons]
    refine (ih fun y hy => h y (List.mem_cons_of_mem x hy)).trans ?_
    exact Function.update_of_ne (h x List.mem_cons_self).symm _ _

/-! ### The passes -/

theorem scan_full (h : j.capacity ≤ r.scanned) : scan j c p (n + 1) r = r := if_pos h

theorem scan_none (h : ¬j.capacity ≤ r.scanned)
    (hd : record j.blockSize (logOf c r.dev r.next) r.sequence = none) : scan j c p (n + 1) r = r := by
  refine (if_neg h).trans ?_
  rw [logOf] at hd
  rw [hd]

/-- A record that is read while the log is as it was. -/
theorem scan_succ (h : ¬j.capacity ≤ r.scanned) {d : Rec}
    (hd : record j.blockSize (logOf c r.dev r.next) r.sequence = some d) :
    scan j c p (n + 1) r = scan j c p n (advance j (absorb j c p r d) d.span) := by
  refine (if_neg h).trans ?_
  rw [logOf] at hd
  rw [hd]

section
variable {log : ℕ → Block} {pos scanned : ℕ} {seq : Word}

theorem records_full (h : j.capacity ≤ scanned) : records j log (n + 1) pos seq scanned = [] := if_pos h

theorem records_none (h : ¬j.capacity ≤ scanned) (hd : record j.blockSize (log pos) seq = none) :
    records j log (n + 1) pos seq scanned = [] := by
  refine (if_neg h).trans ?_
  rw [hd]

theorem records_succ (h : ¬j.capacity ≤ scanned) {d : Rec} (hd : record j.blockSize (log pos) seq = some d) :
    records j log (n + 1) pos seq scanned =
      (pos, d) :: records j log n (j.wrap pos d.span) (d.after seq) (scanned + d.span) := by
  refine (if_neg h).trans ?_
  rw [hd]

end

/-- The first pass collects the revoke records and does nothing else. -/
theorem scan_revoke (n : ℕ) (r : Replay) :
    (scan j c .revoke n r).revokes =
      (revokesOf r.sequence (records j (logOf c r.dev) n r.next r.sequence r.scanned)).reverse ++
        r.revokes ∧
    (scan j c .revoke n r).dev = r.dev ∧ (scan j c .revoke n r).puts = r.puts ∧
      (scan j c .revoke n r).txns = r.txns := by
  induction n generalizing r with
  | zero => exact ⟨rfl, rfl, rfl, rfl⟩
  | succ n ih =>
    by_cases hc : j.capacity ≤ r.scanned
    · rw [scan_full hc, records_full hc]
      exact ⟨rfl, rfl, rfl, rfl⟩
    · cases hd : record j.blockSize (logOf c r.dev r.next) r.sequence with
      | none =>
        rw [scan_none hc hd, records_none hc hd]
        exact ⟨rfl, rfl, rfl, rfl⟩
      | some d =>
        rw [scan_succ hc hd, records_succ hc hd]
        obtain ⟨h₁, h₂, h₃, h₄⟩ := ih (advance j (absorb j c .revoke r d) d.span)
        cases d with
        | revoke bs =>
          refine ⟨h₁.trans ?_, h₂, h₃, h₄⟩
          rw [revokesOf, List.reverse_append, List.append_assoc]
          rfl
        | descriptor ts => exact ⟨h₁, h₂, h₃, h₄⟩
        | commit => exact ⟨h₁, h₂, h₃, h₄⟩

/-- What one tag does. -/
theorem applyTag_eq (r : Replay) (t : Tag) : applyTag c r t =
    { r with
      dev := puts r.dev ((([t].filter (kept c r.revokes r.sequence))).map (Tag.put (logOf c r.dev) r.txns))
      puts := r.puts ++ ([t].filter (kept c r.revokes r.sequence)).map (Tag.put (logOf c r.dev) r.txns) } := by
  rw [applyTag, List.filter_singleton, kept]
  by_cases h : t.block = 0 ∨ c.fsBlocks ≤ t.block.toNat
  · have hk : decide (t.block ≠ 0 ∧ t.block.toNat < c.fsBlocks) = false := by
      refine decide_eq_false fun hk => ?_
      rcases h with h | h
      · exact hk.1 h
      · omega
    rw [if_pos h, hk]
    simp [puts]
  · rw [not_or, Nat.not_le] at h
    rw [if_neg (by rw [not_or, Nat.not_le]; exact h), decide_eq_true h]
    cases revokeTest r.revokes t.block r.sequence with
    | true => simp [puts]
    | false => simp [puts, Tag.put, logOf]

/-- The log is left alone by writes elsewhere. -/
theorem logOf_puts {dev : Dev} {l : List Put} (h : ∀ x ∈ l, ∀ i, c.map i ≠ x.block) :
    logOf c (puts dev l) = logOf c dev :=
  funext fun i => puts_of_ne fun x hx => (h x hx i).symm

/-- What a commit record does with the pending tags. -/
theorem applyTags_eq (ts : List Tag) (r : Replay) (h : ∀ t ∈ ts, ∀ i, c.map i ≠ t.block.toNat) :
    ts.foldl (applyTag c) r =
    { r with
      dev := puts r.dev ((ts.filter (kept c r.revokes r.sequence)).map (Tag.put (logOf c r.dev) r.txns))
      puts := r.puts ++ (ts.filter (kept c r.revokes r.sequence)).map (Tag.put (logOf c r.dev) r.txns) } := by
  induction ts generalizing r with
  | nil => simp [puts]
  | cons t ts ih =>
    have hlog : ∀ l : List Tag, (∀ x ∈ l, ∀ i, c.map i ≠ x.block.toNat) →
        logOf c (puts r.dev (l.map (Tag.put (logOf c r.dev) r.txns))) = logOf c r.dev := by
      intro l hl
      refine logOf_puts fun x hx => ?_
      obtain ⟨y, hy, rfl⟩ := List.mem_map.mp hx
      exact hl y hy
    rw [List.foldl_cons, applyTag_eq, ih _ fun x hx => h x (List.mem_cons_of_mem t hx)]
    dsimp only
    rw [hlog _ fun x hx => by
      rw [List.mem_singleton.mp (List.mem_of_mem_filter hx)]
      exact h t List.mem_cons_self]
    have hcons : t :: ts = [t] ++ ts := rfl
    rw [hcons, List.filter_append, List.map_append, puts_append, List.append_assoc]

/-- The second pass writes what it keeps of the complete transactions, in their order. -/
theorem scan_replay (n : ℕ) (r : Replay) (rv : List Word)
    (h : Outside c (chainFrom j ⟨rv, r.tags⟩
      (records j (logOf c r.dev) n r.next r.sequence r.scanned))) :
    (scan j c .replay n r).puts = r.puts ++ written c (logOf c r.dev) r.revokes r.sequence r.txns
      (chainFrom j ⟨rv, r.tags⟩ (records j (logOf c r.dev) n r.next r.sequence r.scanned)) ∧
    (scan j c .replay n r).dev = puts r.dev (written c (logOf c r.dev) r.revokes r.sequence r.txns
      (chainFrom j ⟨rv, r.tags⟩ (records j (logOf c r.dev) n r.next r.sequence r.scanned))) := by
  induction n generalizing r rv with
  | zero => exact ⟨(List.append_nil _).symm, rfl⟩
  | succ n ih =>
    by_cases hc : j.capacity ≤ r.scanned
    · rw [scan_full hc, records_full hc]
      exact ⟨(List.append_nil _).symm, rfl⟩
    · cases hd : record j.blockSize (logOf c r.dev r.next) r.sequence with
      | none =>
        rw [scan_none hc hd, records_none hc hd]
        exact ⟨(List.append_nil _).symm, rfl⟩
      | some d =>
        rw [records_succ hc hd] at h ⊢
        rw [scan_succ hc hd]
        cases d with
        | revoke bs => exact ih (advance j r 1) (rv ++ bs) h
        | descriptor ts => exact ih (advance j (absorb j c .replay r (.descriptor ts)) _) rv h
        | commit =>
          rw [chainFrom] at h ⊢
          have htags := applyTags_eq (c := c) r.tags r (h _ List.mem_cons_self)
          obtain ⟨l, hl⟩ : ∃ l, l = (r.tags.filter (kept c r.revokes r.sequence)).map
            (Tag.put (logOf c r.dev) r.txns) := ⟨_, rfl⟩
          have hlog : logOf c (puts r.dev l) = logOf c r.dev := by
            refine logOf_puts fun x hx => ?_
            rw [hl] at hx
            obtain ⟨y, hy, rfl⟩ := List.mem_map.mp hx
            exact h _ List.mem_cons_self y (List.mem_of_mem_filter hy)
          have habs : advance j (absorb j c .replay r .commit) Rec.commit.span =
              ⟨puts r.dev l, j.wrap r.next 1, r.sequence + 1, r.scanned + 1, r.revokes, [],
                r.puts ++ l, r.sequence, r.txns + 1⟩ := by
            rw [absorb, committed, htags, ← hl]
            rfl
          rw [habs]
          have hrest := ih ⟨puts r.dev l, j.wrap r.next 1, r.sequence + 1, r.scanned + 1, r.revokes, [],
            r.puts ++ l, r.sequence, r.txns + 1⟩ [] (by
              dsimp only
              rw [hlog]
              exact fun x hx => h x (List.mem_cons_of_mem _ hx))
          dsimp only at hrest
          rw [hlog] at hrest
          rw [written, ← hl, puts_append, ← List.append_assoc]
          exact hrest

/-! ### The whole of recovery -/

/-- The revoke records the first pass finds. -/
def found (j : Jbd) (c : Ctx) (dev : Dev) : List (Word × Word) :=
  (revokesOf (sbSequence j.sb) (logRecords j c dev)).reverse

/-- The log is as it was when the passes are over, and its transactions are written. -/
theorem replay_spec (dev : Dev) (h0 : sbStart j.sb ≠ 0) (h : Outside c (chain j c dev)) :
    (replay j c dev).puts =
      written c (logOf c dev) (found j c dev) (sbSequence j.sb) 0 (chain j c dev) ∧
    (replay j c dev).dev = puts dev
      (written c (logOf c dev) (found j c dev) (sbSequence j.sb) 0 (chain j c dev)) := by
  rw [found, chain, logRecords, if_neg h0] at *
  obtain ⟨hrev, hdev, hputs, htxns⟩ := scan_revoke (j := j) (c := c) j.capacity
    ⟨dev, sbStart j.sb, sbSequence j.sb, 0, [], [], [], 0, 0⟩
  dsimp only at hrev hdev hputs htxns
  rw [List.append_nil] at hrev
  have hrep := scan_replay (j := j) (c := c) j.capacity
    { doOnePass j c .revoke ⟨dev, 0, 0, 0, [], [], [], 0, 0⟩ with
      next := sbStart j.sb
      sequence := sbSequence j.sb
      scanned := 0
      tags := [] } []
    (by
      dsimp only [doOnePass]
      rw [hdev]
      exact h)
  dsimp only [doOnePass] at hrep
  rw [hrev, hdev, hputs, htxns, List.nil_append] at hrep
  rw [replay, doOnePass, doOnePass]
  dsimp only
  rw [hrev, hdev, hputs, htxns]
  exact hrep

theorem recover_puts (dev : Dev) (h : Outside c (chain j c dev)) :
    (recover j c dev).2.1 = written c (logOf c dev) (found j c dev) (sbSequence j.sb) 0 (chain j c dev) := by
  rw [recover]
  by_cases h0 : sbStart j.sb = 0
  · rw [if_pos h0, chain, logRecords, if_pos h0]
    rfl
  · rw [if_neg h0]
    exact (replay_spec dev h0 h).1

theorem applyTags_scanned (l : List Tag) (r : Replay) : (l.foldl (applyTag c) r).scanned = r.scanned := by
  induction l generalizing r with
  | nil => rfl
  | cons t l ih =>
    rw [List.foldl_cons, ih, applyTag]
    split_ifs
    · rfl
    · rfl
    · rfl

theorem absorb_scanned (r : Replay) (d : Rec) : (absorb j c p r d).scanned = r.scanned := by
  cases p with
  | revoke => cases d <;> rfl
  | replay =>
    cases d with
    | revoke bs => rfl
    | descriptor ts => rfl
    | commit => exact applyTags_scanned r.tags r

theorem span_pos (d : Rec) : 0 < d.span := by
  cases d with
  | revoke bs => exact Nat.one_pos
  | descriptor ts => exact Nat.lt_add_right _ Nat.one_pos
  | commit => exact Nat.one_pos

/-- The scan comes to an end: it never asks for more records than the log has blocks. -/
theorem scan_stops (k : ℕ) (hn : j.capacity ≤ r.scanned + n) :
    scan j c p (n + k) r = scan j c p n r := by
  induction n generalizing r with
  | zero =>
    rw [Nat.zero_add]
    cases k with
    | zero => rfl
    | succ k =>
      rw [Nat.add_zero] at hn
      exact scan_full hn
  | succ n ih =>
    rw [Nat.add_right_comm]
    by_cases hc : j.capacity ≤ r.scanned
    · rw [scan_full hc, scan_full hc]
    · cases hd : record j.blockSize (logOf c r.dev r.next) r.sequence with
      | none => rw [scan_none hc hd, scan_none hc hd]
      | some d =>
        rw [scan_succ hc hd, scan_succ hc hd]
        refine ih ?_
        have hspan := span_pos d
        rw [advance]
        dsimp only
        rw [absorb_scanned]
        omega

/-! ### When recovery does what it should -/

theorem records_length (log : ℕ → Block) (n pos : ℕ) (seq : Word) (scanned : ℕ) :
    (records j log n pos seq scanned).length ≤ n := by
  induction n generalizing pos seq scanned with
  | zero => exact Nat.le_refl 0
  | succ n ih =>
    by_cases hc : j.capacity ≤ scanned
    · rw [records_full hc]
      exact Nat.zero_le _
    · cases hd : record j.blockSize (log pos) seq with
      | none =>
        rw [records_none hc hd]
        exact Nat.zero_le _
      | some d =>
        rw [records_succ hc hd]
        exact Nat.succ_le_succ (ih _ _ _)

theorem chainFrom_length (l : List (ℕ × Rec)) (t : Trans) : (chainFrom j t l).length ≤ l.length := by
  induction l generalizing t with
  | nil => exact Nat.le_refl 0
  | cons d l ih =>
    obtain ⟨pos, d⟩ := d
    cases d with
    | revoke bs => exact Nat.le_succ_of_le (ih _)
    | descriptor ts => exact Nat.le_succ_of_le (ih _)
    | commit => exact Nat.succ_le_succ (ih _)

/-- The log has at least one block for every complete transaction. -/
theorem chain_length (dev : Dev) : (chain j c dev).length ≤ j.capacity := by
  refine Nat.le_trans (chainFrom_length _ _) ?_
  rw [logRecords]
  by_cases h0 : sbStart j.sb = 0
  · rw [if_pos h0]
    exact Nat.zero_le _
  · rw [if_neg h0]
    exact records_length _ _ _ _ _

/-- The revoke records of complete transactions, the first of which has number `seq`. -/
def numbered (seq : Word) : List Trans → List (Word × Word)
  | [] => []
  | x :: l => (x.revokes.map fun b => (b, seq)) ++ numbered (seq + 1) l

theorem add_succ (seq : Word) (n : ℕ) :
    seq + 1 + BitVec.ofNat 32 n = seq + BitVec.ofNat 32 (n + 1) := by
  rw [BitVec.ofNat_add, BitVec.add_assoc, BitVec.add_comm 1]
  rfl

/-- The revoke records of the scan are those of the complete transactions and those of the torn one. -/
theorem revokesOf_eq (l : List (ℕ × Rec)) (t : Trans) (seq : Word) :
    (t.revokes.map fun b => (b, seq)) ++ revokesOf seq l =
      numbered seq (chainFrom j t l) ++
        (tornFrom t.revokes l).map fun b => (b, seq + BitVec.ofNat 32 (chainFrom j t l).length) := by
  induction l generalizing t seq with
  | nil =>
    rw [revokesOf, List.append_nil, chainFrom, numbered, List.nil_append, tornFrom, List.length_nil,
      BitVec.add_zero]
  | cons d l ih =>
    obtain ⟨pos, d⟩ := d
    cases d with
    | revoke bs =>
      rw [revokesOf, chainFrom, tornFrom, ← ih ⟨t.revokes ++ bs, t.tags⟩ seq, List.map_append,
        List.append_assoc]
    | descriptor ts => exact ih ⟨t.revokes, t.tags ++ placed j pos ts⟩ seq
    | commit =>
      have hrest := ih ⟨[], []⟩ (seq + 1)
      rw [List.map_nil, List.nil_append] at hrest
      rw [revokesOf, chainFrom, tornFrom, numbered, List.length_cons, hrest, add_succ, List.append_assoc]

theorem mem_numbered {seq b q : Word} {ts : List Trans} : (b, q) ∈ numbered seq ts ↔
    ∃ k : Fin ts.length, b ∈ ts[k].revokes ∧ q = seq + BitVec.ofNat 32 k := by
  induction ts generalizing seq with
  | nil => exact ⟨fun h => (List.not_mem_nil h).elim, fun ⟨k, _⟩ => k.elim0⟩
  | cons x l ih =>
    have hhead : (b, q) ∈ (x.revokes.map fun b => (b, seq)) ↔ b ∈ x.revokes ∧ q = seq := by
      rw [List.mem_map]
      constructor
      · rintro ⟨b', hb, he⟩
        cases he
        exact ⟨hb, rfl⟩
      · rintro ⟨hb, rfl⟩
        exact ⟨b, hb, rfl⟩
    rw [numbered, List.mem_append, hhead, ih]
    constructor
    · rintro (⟨hb, rfl⟩ | ⟨k, hb, rfl⟩)
      · exact ⟨⟨0, Nat.succ_pos _⟩, hb, (BitVec.add_zero _).symm⟩
      · exact ⟨k.succ, hb, add_succ seq k⟩
    · rintro ⟨⟨k, hk⟩, hb, rfl⟩
      cases k with
      | zero => exact .inl ⟨hb, BitVec.add_zero _⟩
      | succ k => exact .inr ⟨⟨k, Nat.lt_of_succ_lt_succ hk⟩, hb, (add_succ seq k).symm⟩

/-- The revoke records the first pass finds: those of the chain and those of the torn transaction. -/
theorem mem_found (dev : Dev) {b q : Word} : (b, q) ∈ found j c dev ↔
    (∃ k : Fin (chain j c dev).length, b ∈ (chain j c dev)[k].revokes ∧
      q = sbSequence j.sb + BitVec.ofNat 32 k) ∨
    (b ∈ torn j c dev ∧ q = sbSequence j.sb + BitVec.ofNat 32 (chain j c dev).length) := by
  have hsplit := revokesOf_eq (j := j) (logRecords j c dev) ⟨[], []⟩ (sbSequence j.sb)
  rw [List.map_nil, List.nil_append] at hsplit
  rw [found, List.mem_reverse, hsplit, List.mem_append, ← chain, ← torn, mem_numbered]
  refine or_congr_right ?_
  rw [List.mem_map]
  constructor
  · rintro ⟨b', hb, he⟩
    cases he
    exact ⟨hb, rfl⟩
  · rintro ⟨hb, rfl⟩
    exact ⟨b, hb, rfl⟩

/-- A later transaction has the larger number unless the sequence passes 2^32 on the way. -/
theorem le_later {start : Word} {i k : ℕ} (hik : i ≤ k) (hk : k < i + 2 ^ 32) :
    start + BitVec.ofNat 32 i ≤ start + BitVec.ofNat 32 k ↔ ¬Wraps start i k := by
  rw [BitVec.le_def, BitVec.toNat_add, BitVec.toNat_add, BitVec.toNat_ofNat, BitVec.toNat_ofNat, Wraps]
  omega

/-- An earlier transaction has the larger number just where the sequence passes 2^32 on the way. -/
theorem le_earlier {start : Word} {i k : ℕ} (hki : k < i) (hi : i < k + 2 ^ 32) :
    start + BitVec.ofNat 32 i ≤ start + BitVec.ofNat 32 k ↔ Wraps start k i := by
  rw [BitVec.le_def, BitVec.toNat_add, BitVec.toNat_add, BitVec.toNat_ofNat, BitVec.toNat_ofNat, Wraps]
  omega

theorem not_unrevoked {ts : List Trans} {i : Fin ts.length} :
    unrevoked (ts.drop i) t = false ↔ ∃ k, i ≤ k ∧ t.block ∈ ts[k].revokes := by
  rw [unrevoked, List.all_eq_false]
  constructor
  · rintro ⟨x, hx, hb⟩
    obtain ⟨n, hn, rfl⟩ := List.getElem_of_mem hx
    rw [List.length_drop] at hn
    rw [List.getElem_drop] at hb
    exact ⟨⟨i + n, by omega⟩, Nat.le_add_right _ _, by simpa using hb⟩
  · rintro ⟨k, hik, hb⟩
    refine ⟨ts[k], List.mem_iff_getElem.mpr ⟨k - i, ?_, ?_⟩, by simpa using hb⟩
    · rw [List.length_drop]
      omega
    · rw [List.getElem_drop]
      simp only [Nat.add_sub_cancel' (show (i : ℕ) ≤ k from hik)]
      rfl

/-- Which revoke records count for a tag of transaction `i`. -/
theorem tested (dev : Dev) (hcap : j.capacity < 2 ^ 32) (i : Fin (chain j c dev).length) (b : Word) :
    revokeTest (found j c dev) b (sbSequence j.sb + BitVec.ofNat 32 i) = true ↔
      (∃ k, i ≤ k ∧ b ∈ (chain j c dev)[k].revokes ∧ ¬Wraps (sbSequence j.sb) i k) ∨
      (∃ k < i, b ∈ (chain j c dev)[k].revokes ∧ Wraps (sbSequence j.sb) k i) ∨
      (b ∈ torn j c dev ∧ ¬Wraps (sbSequence j.sb) i (chain j c dev).length) := by
  have hlen := Nat.lt_of_le_of_lt (chain_length (j := j) (c := c) dev) hcap
  have hany : revokeTest (found j c dev) b (sbSequence j.sb + BitVec.ofNat 32 i) = true ↔
      ∃ q, (b, q) ∈ found j c dev ∧ sbSequence j.sb + BitVec.ofNat 32 i ≤ q := by
    rw [revokeTest, List.any_eq_true]
    constructor
    · rintro ⟨⟨b', q⟩, hmem, hq⟩
      rw [Bool.and_eq_true, beq_iff_eq, decide_eq_true_eq] at hq
      obtain ⟨rfl, hle⟩ := hq
      exact ⟨q, hmem, hle⟩
    · rintro ⟨q, hmem, hle⟩
      exact ⟨(b, q), hmem, by rw [beq_self_eq_true, Bool.true_and]; exact decide_eq_true hle⟩
  rw [hany]
  constructor
  · rintro ⟨q, hmem, hle⟩
    rcases (mem_found dev).mp hmem with ⟨k, hb, rfl⟩ | ⟨hb, rfl⟩
    · rcases Nat.lt_or_ge k i with hki | hik
      · exact .inr (.inl ⟨k, hki, hb, (le_earlier hki (by omega)).mp hle⟩)
      · exact .inl ⟨k, hik, hb, (le_later hik (by omega)).mp hle⟩
    · exact .inr (.inr ⟨hb, (le_later (Nat.le_of_lt i.isLt) (by omega)).mp hle⟩)
  · rintro (⟨k, hik, hb, hw⟩ | ⟨k, hki, hb, hw⟩ | ⟨hb, hw⟩)
    · exact ⟨_, (mem_found dev).mpr (.inl ⟨k, hb, rfl⟩), (le_later hik (by omega)).mpr hw⟩
    · exact ⟨_, (mem_found dev).mpr (.inl ⟨k, hb, rfl⟩), (le_earlier hki (by omega)).mpr hw⟩
    · exact ⟨_, (mem_found dev).mpr (.inr ⟨hb, rfl⟩),
        (le_later (Nat.le_of_lt i.isLt) (by omega)).mpr hw⟩

/-- The filter of recovery does what it should on a tag just when the tag is heeded. -/
theorem heeded_iff (dev : Dev) (hcap : j.capacity < 2 ^ 32) (i : Fin (chain j c dev).length) :
    Heeded c (sbSequence j.sb) (chain j c dev) (torn j c dev) i t ↔
      kept c (found j c dev) (sbSequence j.sb + BitVec.ofNat 32 i) t =
        unrevoked ((chain j c dev).drop i) t := by
  have hlen := Nat.lt_of_le_of_lt (chain_length (j := j) (c := c) dev) hcap
  rw [kept]
  constructor
  · intro h
    cases hu : unrevoked ((chain j c dev).drop i) t with
    | true =>
      have htest : revokeTest (found j c dev) t.block (sbSequence j.sb + BitVec.ofNat 32 i) = false := by
        rw [← Bool.not_eq_true, tested dev hcap]
        rintro (⟨k, hik, hb, -⟩ | ⟨k, hki, hb, hw⟩ | ⟨hb, hw⟩)
        · exact Bool.false_ne_true ((not_unrevoked.mpr ⟨k, hik, hb⟩).symm.trans hu)
        · exact h.notEarlier hu k hki hb hw
        · exact hw (h.notTorn hu hb)
      rw [decide_eq_true (h.inRange hu), htest]
      rfl
    | false =>
      rcases h.heard hu with hb | hb | hb
      · rw [decide_eq_false fun hk => hk.1 hb]
        rfl
      · rw [decide_eq_false fun hk => absurd hk.2 (Nat.not_lt.mpr hb)]
        rfl
      · rw [(tested dev hcap i t.block).mpr (.inl hb), Bool.not_true, Bool.and_false]
  · intro h
    have htest : unrevoked ((chain j c dev).drop i) t = true →
        revokeTest (found j c dev) t.block (sbSequence j.sb + BitVec.ofNat 32 i) = false := by
      intro hu
      rw [hu, Bool.and_eq_true, Bool.not_eq_true'] at h
      exact h.2
    refine ⟨fun hu => ?inRange, fun hu hb => ?notTorn, fun hu k hki hb hw => ?notEarlier,
      fun hu => ?heard⟩
    case inRange =>
      rw [hu, Bool.and_eq_true, decide_eq_true_eq] at h
      exact h.1
    case notTorn =>
      by_contra hw
      exact Bool.false_ne_true
        ((htest hu).symm.trans ((tested dev hcap i t.block).mpr (.inr (.inr ⟨hb, hw⟩))))
    case notEarlier =>
      exact Bool.false_ne_true
        ((htest hu).symm.trans ((tested dev hcap i t.block).mpr (.inr (.inl ⟨k, hki, hb, hw⟩))))
    case heard =>
      rw [hu, Bool.and_eq_false_iff, decide_eq_false_iff_not, Bool.not_eq_false', not_and_or,
        Nat.not_lt] at h
      obtain ⟨k, hik, hb⟩ := not_unrevoked.mp hu
      rcases h with (h | h) | h
      · exact .inl (not_not.mp h)
      · exact .inr (.inl h)
      · refine .inr (.inr ?_)
        -- where a record from across a wrap counts, the transactions behind it are on this side
        rcases (tested dev hcap i t.block).mp h with h | ⟨k', hki, -, hw⟩ | ⟨-, hw⟩
        · exact h
        · refine ⟨k, hik, hb, fun hw' => ?_⟩
          rw [Wraps] at hw hw'
          omega
        · refine ⟨k, hik, hb, fun hw' => hw ?_⟩
          rw [Wraps] at hw' ⊢
          omega

/-- Where the sequence does not pass 2^32, a log is read right unless a tag that stands names block 0,
    a block outside the volume or one that the torn transaction revokes. -/
theorem heeded_of_unwrapped {start : Word} {ts : List Trans} {torn : List Word}
    (h : start.toNat + ts.length < 2 ^ 32) : AllHeeded c start ts torn ↔
      ∀ i : Fin ts.length, ∀ t ∈ ts[i].tags, unrevoked (ts.drop i) t = true →
        (t.block ≠ 0 ∧ t.block.toNat < c.fsBlocks) ∧ t.block ∉ torn := by
  have hw : ∀ {i k : ℕ}, k ≤ ts.length → ¬Wraps start i k := by
    intro i k hk hw
    rw [Wraps] at hw
    omega
  constructor
  · exact fun ha i t ht hu =>
      ⟨(ha i t ht).inRange hu, fun hb => hw (Nat.le_refl _) ((ha i t ht).notTorn hu hb)⟩
  · intro ha i t ht
    refine ⟨fun hu => (ha i t ht hu).1, fun hu hb => ((ha i t ht hu).2 hb).elim,
      fun _ k _ _ => hw (Nat.le_of_lt i.isLt), fun hu => .inr (.inr ?_)⟩
    obtain ⟨k, hik, hb⟩ := not_unrevoked.mp hu
    exact ⟨k, hik, hb, hw (Nat.le_of_lt k.isLt)⟩

/-- Two selections of tags that go by the block write the same when they agree. -/
theorem put_filter_iff {f g : Tag → Bool} {l : List Tag} {i : ℕ}
    (hf : ∀ t t', t.block = t'.block → f t = f t') (hg : ∀ t t', t.block = t'.block → g t = g t') :
    (l.filter f).map (Tag.put log i) = (l.filter g).map (Tag.put log i) ↔ ∀ t ∈ l, f t = g t := by
  constructor
  · intro h t ht
    -- a write of the one selection is one of the other, for the same block
    have hone : ∀ {f g : Tag → Bool}, (∀ t t', t.block = t'.block → g t = g t') →
        (l.filter f).map (Tag.put log i) = (l.filter g).map (Tag.put log i) → f t = true → g t = true := by
      intro f g hg h hft
      have hmem : t.put log i ∈ (l.filter g).map (Tag.put log i) :=
        h ▸ List.mem_map_of_mem (List.mem_filter.mpr ⟨ht, hft⟩)
      obtain ⟨t', ht', he⟩ := List.mem_map.mp hmem
      have hb : t'.block = t.block := BitVec.eq_of_toNat_eq (congrArg Put.block he)
      rw [← hg t' t hb]
      exact (List.mem_filter.mp ht').2
    exact Bool.eq_iff_iff.mpr ⟨hone hg h, hone hf h.symm⟩
  · exact fun h => by rw [List.filter_congr h]

theorem txn_written {revs : List (Word × Word)} (l : List Trans) {seq : Word} {i : ℕ} {x : Put}
    (h : x ∈ written c log revs seq i l) : i ≤ x.txn := by
  induction l generalizing seq i with
  | nil => cases h
  | cons y l ih =>
    rcases List.mem_append.mp h with h | h
    · obtain ⟨t, -, rfl⟩ := List.mem_map.mp h
      exact Nat.le_refl i
    · exact Nat.le_of_succ_le (ih h)

theorem txn_wanted (l : List Trans) {i : ℕ} {x : Put} (h : x ∈ wanted log i l) : i ≤ x.txn := by
  induction l generalizing i with
  | nil => cases h
  | cons y l ih =>
    rcases List.mem_append.mp h with h | h
    · obtain ⟨t, -, rfl⟩ := List.mem_map.mp h
      exact Nat.le_refl i
    · exact Nat.le_of_succ_le (ih h)

/-- Lists that start with the writes of transaction `i` and go on with later ones. -/
theorem split_txn {i : ℕ} {l l' m m' : List Put} (hl : ∀ x ∈ l, x.txn = i) (hl' : ∀ x ∈ l', x.txn = i)
    (hm : ∀ x ∈ m, i + 1 ≤ x.txn) (hm' : ∀ x ∈ m', i + 1 ≤ x.txn) :
    l ++ m = l' ++ m' ↔ l = l' ∧ m = m' := by
  constructor
  · intro h
    have hpick : ∀ {l m : List Put}, (∀ x ∈ l, x.txn = i) → (∀ x ∈ m, i + 1 ≤ x.txn) →
        (l ++ m).filter (fun x => x.txn == i) = l := by
      intro l m hl hm
      rw [List.filter_append, List.filter_eq_self.mpr fun x hx => by rw [hl x hx, beq_self_eq_true],
        List.filter_eq_nil_iff.mpr fun x hx => by
          rw [beq_iff_eq]
          have := hm x hx
          omega, List.append_nil]
    have he : l = l' := by
      rw [← hpick hl hm, h, hpick hl' hm']
    exact ⟨he, List.append_cancel_left (he ▸ h)⟩
  · rintro ⟨rfl, rfl⟩
    rfl

/-- The writes agree just when the two selections agree on every tag. -/
theorem written_eq_iff {revs : List (Word × Word)} (l : List Trans) {seq : Word} {i : ℕ} :
    written c log revs seq i l = wanted log i l ↔
      ∀ k : Fin l.length, ∀ t ∈ l[k].tags,
        kept c revs (seq + BitVec.ofNat 32 k) t = unrevoked (l.drop k) t := by
  induction l generalizing seq i with
  | nil => exact ⟨fun _ k => k.elim0, fun _ => rfl⟩
  | cons x l ih =>
    have htxn : ∀ {f : Tag → Bool}, ∀ y ∈ (x.tags.filter f).map (Tag.put log i), y.txn = i := by
      intro f y hy
      obtain ⟨t, -, rfl⟩ := List.mem_map.mp hy
      rfl
    rw [written, wanted, split_txn htxn htxn (fun y hy => txn_written l hy)
      (fun y hy => txn_wanted l hy), ih, put_filter_iff]
    · constructor
      · rintro ⟨hhead, htail⟩ ⟨k, hk⟩ t ht
        cases k with
        | zero => exact (congrArg (kept c revs · t) (BitVec.add_zero seq)).trans (hhead t ht)
        | succ k =>
          exact (congrArg (kept c revs · t) (add_succ seq k).symm).trans
            (htail ⟨k, Nat.lt_of_succ_lt_succ hk⟩ t ht)
      · intro h
        refine ⟨fun t ht => ?_, fun k t ht => ?_⟩
        · exact (congrArg (kept c revs · t) (BitVec.add_zero seq)).symm.trans (h ⟨0, Nat.succ_pos _⟩ t ht)
        · exact (congrArg (kept c revs · t) (add_succ seq k)).trans (h k.succ t ht)
    · intro t t' hb
      rw [kept, kept, hb]
    · intro t t' hb
      rw [unrevoked, unrevoked, hb]

/-- What recovery writes is right just when every tag is heeded. -/
theorem puts_iff (dev : Dev) (hcap : j.capacity < 2 ^ 32) (h : Outside c (chain j c dev)) :
    (recover j c dev).2.1 = wanted (logOf c dev) 0 (chain j c dev) ↔
      AllHeeded c (sbSequence j.sb) (chain j c dev) (torn j c dev) := by
  rw [recover_puts dev h, written_eq_iff]
  exact forall_congr' fun i => forall₂_congr fun t _ => (heeded_iff dev hcap i).symm

/-- Recovery ends, and writes exactly what the complete transactions of the log say, in their order,
    if and only if every tag is heeded. A log has less than 2^32 blocks: `jbd_log_capacity` is a
    `uint32_t`. -/
theorem recover_exact (dev : Dev) (hcap : j.capacity < 2 ^ 32) (h : Outside c (chain j c dev)) :
    (∀ p (r : Replay) k, scan j c p (j.capacity + k) { r with scanned := 0 } =
      scan j c p j.capacity { r with scanned := 0 }) ∧
    ((recover j c dev).2.1 = wanted (logOf c dev) 0 (chain j c dev) ↔
      AllHeeded c (sbSequence j.sb) (chain j c dev) (torn j c dev)) :=
  ⟨fun _ _ _ => scan_stops _ (Nat.le_add_left _ _), puts_iff dev hcap h⟩

/-- A log whose sequence numbers do not pass 2^32. -/
theorem recover_unwrapped (dev : Dev) (hcap : j.capacity < 2 ^ 32) (h : Outside c (chain j c dev))
    (hseq : (sbSequence j.sb).toNat + (chain j c dev).length < 2 ^ 32) :
    (recover j c dev).2.1 = wanted (logOf c dev) 0 (chain j c dev) ↔
      ∀ i : Fin (chain j c dev).length, ∀ t ∈ (chain j c dev)[i].tags,
        unrevoked ((chain j c dev).drop i) t = true →
          (t.block ≠ 0 ∧ t.block.toNat < c.fsBlocks) ∧ t.block ∉ torn j c dev :=
  (puts_iff dev hcap h).trans (heeded_of_unwrapped hseq)

end

/-! ### Two logs -/

/-- A journal of 1024 blocks of 1K at block 500. -/
def disk : Ctx := ⟨fun i => 500 + i, 2000, fun _ _ h => Nat.add_left_cancel h⟩

/-- A superblock for a log that starts at `start` with transaction 5. -/
def diskSb (start : ℕ) : Block := fun i =>
  [magic, 4, 0, 1024, 1024, 1, 5, BitVec.ofNat 32 start].getD i 0

/-- A descriptor block with one tag. -/
def oneTag (seq block : Word) : Block := fun i => [magic, 1, seq, block, 10].getD i 0

/-- A revoke block with one entry. -/
def oneRevoke (seq block : Word) : Block := fun i => [magic, 5, seq, 20, block].getD i 0

/-- The device with a superblock and a log, and zeroes elsewhere. -/
def diskOf (log : List Block) : Dev := fun b =>
  if b = 500 then diskSb 1 else log.getD (b - 501) fun _ => 0

/-- A journal as `jbd_load` leaves it. -/
def diskJbd : Jbd := ⟨1024, 1, 1024, 1, 5, diskSb 1⟩

theorem load_disk (log : List Block) : load disk (diskOf log) = .ok (diskJbd, diskOf log) := by
  have hsb : diskOf log (disk.map 0) = diskSb 1 := if_pos rfl
  have hhead : checkHeader (diskSb 1) = some (4, 0) := by decide
  have hfeat : features (diskSb 1) = .ok none := by
    rw [features, if_neg (by decide), if_neg (by decide), if_neg (by decide)]
  have hloaded : loaded (diskSb 1) = .ok diskJbd := by
    simp only [loaded]
    rw [if_neg (by decide), if_neg (by decide)]
    rfl
  simp only [load]
  rw [hsb, hhead]
  dsimp only
  rw [if_neg (by decide), if_neg (by decide), if_neg (by decide), if_neg (by decide), if_pos rfl, hfeat]
  dsimp only
  rw [hloaded]
  rfl

/-- Transaction 5 writes block 3 and revokes block 4, transaction 6 writes block 4 and revokes block 3,
    and the torn transaction 7 revokes a block that is in neither. -/
def goodLog : List Block :=
  [oneRevoke 5 4, oneTag 5 3, fun _ => 77, header 2 5,
    oneRevoke 6 3, oneTag 6 4, fun _ => 78, header 2 6, oneRevoke 7 9]

theorem outside_of_lt {dev : Dev} (h : (chain diskJbd disk dev).all (fun x =>
    x.tags.all fun t => decide (t.block.toNat < 500)) = true) : Outside disk (chain diskJbd disk dev) := by
  intro x hx t ht i
  have hlt := of_decide_eq_true (List.all_eq_true.mp (List.all_eq_true.mp h x hx) t ht)
  show 500 + i ≠ t.block.toNat
  omega

/-- The write of transaction 5 is revoked, that of transaction 6 is not. -/
theorem recover_exact_good :
    (recover diskJbd disk (diskOf goodLog)).2.1.map (fun x => (x.block, x.data 9)) = [(4, 78)] ∧
    (recover diskJbd disk (diskOf goodLog)).2.1 =
      wanted (logOf disk (diskOf goodLog)) 0 (chain diskJbd disk (diskOf goodLog)) := by
  refine ⟨by decide +kernel, ?_⟩
  refine (recover_exact (diskOf goodLog) (by decide) (outside_of_lt (by decide +kernel))).2.mpr ?_
  refine (heeded_of_unwrapped (by decide +kernel)).mpr ?_
  decide +kernel

/-- Transaction 5 writes block 3; transaction 6 revokes it and has no commit record. -/
def tornLog : List Block := [oneTag 5 3, fun _ => 77, header 2 5, oneRevoke 6 3]

/-- The revoke record has an effect: nothing is written. -/
theorem torn_revoke_heard : load disk (diskOf tornLog) = .ok (diskJbd, diskOf tornLog) ∧
    (wanted (logOf disk (diskOf tornLog)) 0 (chain diskJbd disk (diskOf tornLog))).map
      (fun x => (x.block, x.data 9)) = [(3, 77)] ∧
    (recover diskJbd disk (diskOf tornLog)).2.1.length = 0 := by
  exact ⟨load_disk tornLog, by decide +kernel, by decide +kernel⟩

end EwokOS.Ext3.Jbd
