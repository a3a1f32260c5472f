import EwokOS.Net.TcpRcv

/-! The send side of a connection (`tcp.c`): what is in the retransmit queue, and what has gone out.

    Most of the stack leaves the send side as it is, but for bare segments and for copies of what the
    queue holds. What does more:

        tcp_output    a part behind the others        tcp_send, tcp_queue_fin   snd.nxt moves over it
        an ACK        snd.una, and the parts below it go -/

namespace EwokOS.Net

open Schemes

/-- What an entry of the queue keeps for ever. -/
structure Part where
  seq : Seq
  flg : Flags
  data : List UInt8

def QueueEntry.part (e : QueueEntry) : Part := ⟨e.seq, e.flg, e.data⟩

def Out.part (o : Out) : Part := ⟨o.seq, o.flg, o.data⟩

/-- Carries no number of data or FIN. -/
def Part.Bare (x : Part) : Prop := x.data = [] ∧ x.flg.fin = false

structure Snd where
  iss : Seq
  una : Seq
  nxt : Seq
  parts : List Part

namespace Pcb

def snd (p : Pcb) : Snd := ⟨p.iss, p.sndUna, p.sndNxt, p.queue.map QueueEntry.part⟩

/-- The send side is as it was; what went out is bare, or a copy of what the queue holds. -/
structure Idle (p q : Pcb) : Prop where
  snd : q.snd = p.snd
  out : ∃ l, q.out = p.out ++ l ∧ ∀ o ∈ l, o.part.Bare ∨ o.part ∈ p.snd.parts
  mss : p.mss < 2 ^ 16 → q.mss < 2 ^ 16

theorem Idle.mem_out {p q : Pcb} (h : Idle p q) {o : Out} (ho : o ∈ q.out) :
    o ∈ p.out ∨ o.part.Bare ∨ o.part ∈ p.snd.parts := by
  obtain ⟨l, hl, hright⟩ := h.out
  rw [hl] at ho
  exact (List.mem_append.mp ho).imp id (hright o)

theorem Idle.of_eq {p q : Pcb} (hs : q.snd = p.snd) (ho : q.out = p.out) (hm : q.mss = p.mss) : Idle p q where
  snd := hs
  out := ⟨[], ho.trans (List.append_nil _).symm, fun _ h => absurd h List.not_mem_nil⟩
  mss := fun h => by rwa [hm]

theorem Idle.refl (p : Pcb) : Idle p p := .of_eq rfl rfl rfl

theorem Idle.trans {p q r : Pcb} (h : Idle p q) (h' : Idle q r) : Idle p r where
  snd := h'.snd.trans h.snd
  out := by
    obtain ⟨l, hl, hright⟩ := h.out
    obtain ⟨l', hl', hright'⟩ := h'.out
    refine ⟨l ++ l', by rw [hl', hl, List.append_assoc], fun o ho => ?_⟩
    rcases List.mem_append.mp ho with ho | ho
    · exact hright o ho
    · rw [← h.snd]
      exact hright' o ho
  mss := fun hm => h'.mss (h.mss hm)

/-- Updates of other fields do not matter. -/
theorem Idle.after {p q r : Pcb} (h : Idle q r) (hs : q.snd = p.snd) (ho : q.out = p.out) (hm : q.mss = p.mss) :
    Idle p r := Idle.trans (.of_eq hs ho hm) h

variable (p : Pcb) (env : Env) (seg : Segment)

theorem outputSegment_idle {seq ack : Seq} {flg : Flags} {wnd : ℕ} (hf : flg.fin = false) :
    Idle p (p.outputSegment seq ack flg wnd []) where
  snd := rfl
  out := ⟨_, rfl, fun o ho => by
    rw [List.mem_singleton.mp ho]
    exact Or.inl ⟨rfl, hf⟩⟩
  mss := id

theorem outputBare_idle {flg : Flags} (hs : flg.syn = false) (hf : flg.fin = false) : Idle p (p.output env flg []).1 := by
  unfold output
  rw [hs, hf]
  exact p.outputSegment_idle hf

theorem outputAck_idle : Idle p (p.outputAck env) := p.outputBare_idle env rfl rfl

/-- A part has been put behind the others, and sent. -/
structure Queues (p q : Pcb) (x : Part) : Prop where
  room : p.queue.length < retransmitQueueMax
  snd : q.snd = { p.snd with parts := p.snd.parts ++ [x] }
  out : ∃ o, q.out = p.out ++ [o] ∧ o.part = x ∧ o.ack = p.rcvNxt
  mss : q.mss = p.mss

/-- What takes a number is queued, or nothing happens. -/
theorem output_cases (flg : Flags) (data : List UInt8) (h : (flg.syn || flg.fin || data.length ≠ 0) = true) :
    p.output env flg data = (p, .noQueue) ∨
      ((p.output env flg data).2 ≠ .noQueue ∧
        Queues p (p.output env flg data).1 ⟨if flg.syn then p.iss else p.sndNxt, flg, data⟩) := by
  unfold output
  dsimp only
  rw [if_pos h]
  split
  case isFalse => exact Or.inl rfl
  case isTrue hroom =>
    refine Or.inr ⟨?_, of_decide_eq_true (Bool.and_eq_true_iff.mp hroom).1, ?_, ⟨_, rfl, rfl, rfl⟩, rfl⟩
    · dsimp only
      split <;> exact fun h => nomatch h
    · unfold snd
      change Snd.mk _ _ _ (List.map _ (p.queue ++ [_])) = _
      rw [List.map_append]
      rfl

/-- A copy of the head goes out, and only its timer changes. -/
theorem resend_idle {f : Bool → QueueEntry → QueueEntry} (hf : ∀ ok e, (f ok e).part = e.part) :
    Idle p (p.resend env f) := by
  unfold resend
  cases hq : p.queue with
  | nil => exact .refl p
  | cons e rest =>
    refine ⟨?_, ⟨_, rfl, fun o ho => ?_⟩, id⟩
    · change Snd.mk _ _ _ ((f (p.wired env) e).part :: rest.map QueueEntry.part) = p.snd
      rw [hf, snd, hq]
      rfl
    · rw [List.mem_singleton.mp ho, snd, hq]
      exact Or.inr (List.mem_cons_self ..)

theorem retransmitHead_idle : Idle p (p.retransmitHead env) := p.resend_idle env fun _ _ => rfl

theorem ccAck_idle (acked : ℕ) : Idle p (p.ccAck env acked) := by
  unfold ccAck
  dsimp only
  split
  · split
    · exact (retransmitHead_idle _ env).after rfl rfl rfl
    · exact .of_eq rfl rfl rfl
  · split
    · exact .of_eq rfl rfl rfl
    · split <;> exact .of_eq rfl rfl rfl

theorem ccInit_idle : Idle p (p.ccInit env) where
  snd := rfl
  out := ⟨[], (List.append_nil _).symm, fun _ h => absurd h List.not_mem_nil⟩
  mss := fun _ => by
    change (env.mtu.map fun m => (m + 2 ^ 16 - 40) % 2 ^ 16).getD 536 < 2 ^ 16
    cases env.mtu with
    | none =>
      rw [Option.map_none, Option.getD_none]
      omega
    | some m =>
      rw [Option.map_some, Option.getD_some]
      omega

theorem takeWindow_idle : Idle p (p.takeWindow seg) := by
  unfold takeWindow
  split <;> exact .of_eq rfl rfl rfl

theorem ackState_idle : Idle p (p.ackState env seg) := by
  unfold ackState
  split
  · split <;> exact .of_eq rfl rfl rfl
  · split <;> exact .of_eq rfl rfl rfl
  · exact .refl p

theorem establish_idle : Idle p (p.establish env seg) :=
  Idle.trans ((ccInit_idle { p with state := .established } env).after rfl rfl rfl) (.of_eq rfl rfl rfl)

/-! ### Text and FIN -/

theorem delayAck_idle (merged : Bool) : Idle p (p.delayAck env merged) := by
  unfold delayAck
  dsimp only
  split
  · exact (outputAck_idle _ env).after rfl rfl rfl
  · split <;> exact .of_eq rfl rfl rfl

theorem stash_idle : Idle p (p.stash seg) := by
  unfold stash
  dsimp only
  split
  · split
    · exact .of_eq rfl rfl rfl
    · split <;> exact .of_eq rfl rfl rfl
  · exact .refl p

theorem merge_idle : Idle p p.merge.1 := by
  unfold merge
  dsimp only
  split
  · exact .refl p
  · split
    · exact .of_eq rfl rfl rfl
    · split <;> exact .of_eq rfl rfl rfl

theorem takeNext_idle (data : List UInt8) : Idle p (p.takeNext env data) := by
  unfold takeNext
  split
  · exact Idle.trans ((p.append data).merge_idle.after rfl rfl rfl) (delayAck_idle _ env _)
  · exact (outputAck_idle _ env).after rfl rfl rfl

theorem takeText_idle : Idle p (p.takeText env seg) := by
  unfold takeText
  split
  case h_4 => exact .refl p
  all_goals
    split
    · exact .refl p
    · split
      · exact Idle.trans (Idle.trans (p.stash_idle seg) (takeNext_idle _ env _)) (.of_eq rfl rfl rfl)
      · exact Idle.trans (takeNext_idle _ env _) (.of_eq rfl rfl rfl)

theorem finState_idle : Idle p (p.finState env seg) := by
  unfold finState
  split
  case h_3 => split <;> exact .of_eq rfl rfl rfl
  all_goals exact .of_eq rfl rfl rfl

theorem takeFin_idle : Idle p (p.takeFin env seg) := by
  unfold takeFin
  split
  case isFalse => exact .refl p
  case isTrue =>
    split
    case h_4 =>
      dsimp only
      split
      · exact p.outputAck_idle env
      · generalize hq : outputAck _ env = q
        have hidle : Idle p q := by
          rw [← hq]
          exact (outputAck_idle _ env).after rfl rfl rfl
        exact Idle.trans (hidle.trans (finState_idle q env seg)) (.of_eq rfl rfl rfl)
    all_goals exact .refl p

/-! ### The timer and reading -/

theorem emit_idle : Idle p (p.emit env) := by
  unfold emit
  split
  · exact .refl p
  · rename_i e rest hq
    have hparts : ∀ st reason, Idle p { p with queue := retried e :: rest, state := st, closeReason := reason } :=
      fun _ _ => .of_eq (by unfold snd; rw [hq]; rfl) rfl rfl
    dsimp only
    split
    · exact Idle.trans (p.outputSegment_idle rfl) (.of_eq rfl rfl rfl)
    · split
      · split
        · exact hparts _ _
        · refine Idle.trans (hparts p.state p.closeReason) (Idle.trans ?_ (resend_idle _ env fun _ _ => rfl))
          unfold chargeLoss
          split <;> exact .of_eq rfl rfl rfl
      · exact .refl p

theorem probe_idle : Idle p (p.probe env) := by
  unfold probe
  split
  · exact Idle.trans (p.outputSegment_idle rfl) (.of_eq rfl rfl rfl)
  · exact .refl p

theorem flushAck_idle : Idle p (p.flushAck env) := by
  unfold flushAck
  split
  · exact (outputAck_idle _ env).after rfl rfl rfl
  · exact .refl p

theorem persistArm_idle : Idle p (p.persistArm env) := by
  unfold persistArm
  split <;> exact .of_eq rfl rfl rfl

theorem take_idle (len : ℕ) : Idle p (p.take env len).1 := by
  unfold take
  dsimp only
  split
  · exact (outputAck_idle _ env).after rfl rfl rfl
  · exact .of_eq rfl rfl rfl

theorem receive_idle (size : ℕ) : Idle p (p.receive env size).1 := by
  unfold receive
  split
  case h_6 | h_7 | h_8 | h_9 =>
    split
    · exact .refl p
    · exact p.take_idle env _
  all_goals exact .refl p

end Pcb

/-! ### The line of parts -/

/-- How many numbers of data and FIN a part takes. -/
def Part.len (x : Part) : ℕ := x.data.length + x.flg.fin.toNat

def Part.stop (x : Part) : Seq := x.seq + BitVec.ofNat 32 (x.data.length + x.flg.syn.toNat + x.flg.fin.toNat)

/-- A part at the number `a` behind `iss`. The stream `D` begins at 1, and the FIN comes behind it. -/
structure Part.At (D : List UInt8) (iss : Seq) (a : ℕ) (x : Part) : Prop where
  seq : x.seq = iss + BitVec.ofNat 32 a
  syn : x.flg.syn = false
  behind : 1 ≤ a
  data : Agree D (a - 1) x.data
  fin : x.flg.fin = true → a + x.data.length = D.length + 1
  size : x.data.length < 2 ^ 16
  pos : 0 < x.len

/-- Carries for each number what the number stands for. -/
def Part.Right (D : List UInt8) (iss : Seq) (x : Part) : Prop := x.Bare ∨ ∃ a, x.At D iss a

/-- Pieces that follow each other from `a` up to `b`. -/
def Chain (D : List UInt8) (iss : Seq) : ℕ → List Part → ℕ → Prop
  | a, [], b => a = b
  | a, x :: xs, b => x.At D iss a ∧ Chain D iss (a + x.len) xs b

variable {D E : List UInt8} {iss : Seq} {a b A U f : ℕ} {x : Part} {xs : List Part}

theorem Part.At.le_length (h : x.At D iss a) : a + x.data.length ≤ D.length + 1 ∨ x.data = [] := by
  cases hd : x.data with
  | nil => exact Or.inr rfl
  | cons y ys =>
    have hlast := h.data ys.length (by rw [hd, List.length_cons]; omega)
    rw [hd, List.getElem?_eq_getElem (show ys.length < (y :: ys).length by rw [List.length_cons]; omega)] at hlast
    have := (List.getElem?_eq_some_iff.mp hlast).1
    have := h.behind
    rw [List.length_cons]
    exact Or.inl (by omega)

theorem Part.At.grow (h : x.At D iss a) (hf : x.flg.fin = false) : x.At (D ++ E) iss a where
  seq := h.seq
  syn := h.syn
  behind := h.behind
  data := fun i hi => by
    rw [← h.data i hi]
    have hsome := h.data i hi
    rw [List.getElem?_eq_getElem hi] at hsome
    exact List.getElem?_append_left (List.getElem?_eq_some_iff.mp hsome).1
  fin := fun hfin => by
    rw [hf] at hfin
    exact absurd hfin Bool.false_ne_true
  size := h.size
  pos := h.pos

theorem Part.Right.grow (h : x.Right D iss) (hf : x.flg.fin = false) : x.Right (D ++ E) iss :=
  h.imp id fun ⟨a, ha⟩ => ⟨a, ha.grow hf⟩

theorem Part.At.len_le (h : x.At D iss a) : x.len ≤ 2 ^ 16 := by
  have hsize := h.size
  have hfin := Bool.toNat_le x.flg.fin
  unfold Part.len
  omega

theorem Part.At.stop_eq (h : x.At D iss a) : x.stop = iss + BitVec.ofNat 32 (a + x.len) := by
  unfold Part.stop Part.len
  rw [h.seq, h.syn, place_add, Bool.toNat_false, Nat.add_zero]

namespace Chain

theorem append (h : Chain D iss a xs b) (hx : x.At D iss b) : Chain D iss a (xs ++ [x]) (b + x.len) := by
  induction xs generalizing a with
  | nil =>
    cases h
    exact ⟨hx, rfl⟩
  | cons y ys ih => exact ⟨h.1, ih h.2⟩

theorem span (h : Chain D iss a xs b) : a ≤ b ∧ b ≤ a + xs.length * 2 ^ 16 := by
  induction xs generalizing a with
  | nil =>
    cases h
    exact ⟨Nat.le_refl _, Nat.le_add_right _ _⟩
  | cons y ys ih =>
    have hy := h.1.len_le
    have hys := ih h.2
    rw [List.length_cons]
    omega

theorem mem_right (h : Chain D iss a xs b) (hx : x ∈ xs) : ∃ c, x.At D iss c ∧ c + x.len ≤ b := by
  induction xs generalizing a with
  | nil => exact absurd hx List.not_mem_nil
  | cons y ys ih =>
    rcases List.mem_cons.mp hx with rfl | hx
    · exact ⟨a, h.1, (span h.2).1⟩
    · exact ih h.2 hx

/-- While the FIN has no number, there is none. -/
theorem no_fin (h : Chain D iss a xs (1 + D.length)) (hx : x ∈ xs) : x.flg.fin = false := by
  obtain ⟨c, hat, hle⟩ := h.mem_right hx
  by_contra hfin
  rw [Bool.not_eq_false] at hfin
  have hend := hat.fin hfin
  unfold Part.len at hle
  rw [hfin, Bool.toNat_true] at hle
  omega

/-- Nothing comes behind the FIN. -/
theorem fin_last (h : Chain D iss a (x :: xs) b) (hfin : x.flg.fin = true) : xs = [] := by
  have hend := h.1.fin hfin
  cases xs with
  | nil => rfl
  | cons y ys =>
    have hy := h.2.1
    have hlen : x.len = x.data.length + 1 := by
      unfold Part.len
      rw [hfin, Bool.toNat_true]
    rcases hy.le_length with hle | hnil
    · omega
    · have hpos := hy.pos
      unfold Part.len at hpos
      rw [hnil, List.length_nil, Nat.zero_add] at hpos
      have hyfin : y.flg.fin = true := Bool.toNat_eq_one.mp (by have := Bool.toNat_le y.flg.fin; omega)
      have := hy.fin hyfin
      omega

theorem one_fin (h : Chain D iss a xs b) : (xs.filter fun x => x.flg.fin).length ≤ 1 := by
  induction xs generalizing a with
  | nil => exact Nat.zero_le 1
  | cons y ys ih =>
    by_cases hfin : y.flg.fin = true
    · rw [fin_last h hfin]
      exact List.length_filter_le _ [y]
    · rw [List.filter_cons, if_neg hfin]
      exact ih h.2

theorem grow (h : Chain D iss a xs b) (hf : ∀ x ∈ xs, x.flg.fin = false) : Chain (D ++ E) iss a xs b := by
  induction xs generalizing a with
  | nil => exact h
  | cons y ys ih =>
    exact ⟨h.1.grow (hf y (List.mem_cons_self ..)), ih h.2 fun x hx => hf x (List.mem_cons_of_mem _ hx)⟩

/-- What lies below `A` goes. -/
theorem drop (h : Chain D iss a xs b) (ha : a ≤ A) (hb : A ≤ b) (hnear : b < a + 2 ^ 31) :
    ∃ c, c ≤ A ∧ a ≤ c ∧
      Chain D iss c (xs.dropWhile fun x => !seqAfter x.stop (iss + BitVec.ofNat 32 A)) b := by
  induction xs generalizing a with
  | nil => exact ⟨a, ha, Nat.le_refl a, h⟩
  | cons y ys ih =>
    have hspan := (span h.2).1
    have hafter : seqAfter y.stop (iss + BitVec.ofNat 32 A) = decide (A < a + y.len) := by
      rw [h.1.stop_eq]
      exact seqAfter_eq iss (by omega) (by omega)
    by_cases hlt : A < a + y.len
    · rw [List.dropWhile_cons_of_neg (by rw [hafter, decide_eq_true hlt]; decide)]
      exact ⟨a, ha, Nat.le_refl a, h⟩
    · rw [List.dropWhile_cons_of_pos (by rw [hafter, decide_eq_false hlt]; rfl)]
      obtain ⟨c, h1, h2, h3⟩ := ih h.2 (by omega) (by omega)
      exact ⟨c, h1, by omega, h3⟩

end Chain

/-- A SYN in the queue. -/
structure Part.IsSyn (iss : Seq) (x : Part) : Prop where
  seq : x.seq = iss
  syn : x.flg.syn = true
  fin : x.flg.fin = false
  data : x.data = []

theorem Part.IsSyn.stop_eq (h : x.IsSyn iss) : x.stop = iss + BitVec.ofNat 32 1 := by
  unfold Part.stop
  rw [h.seq, h.syn, h.fin, h.data]
  rfl

/-- The numbers up to `snd.nxt` are those of the SYN, the stream, and the FIN if `f` is 1. `U` is where
    `snd.una` is. The queue holds every number of the stream and the FIN from there on. -/
structure Lined (D : List UInt8) (f : ℕ) (v : Snd) (U : ℕ) : Prop where
  una : v.una = v.iss + BitVec.ofNat 32 U
  nxt : v.nxt = v.iss + BitVec.ofNat 32 (1 + D.length + f)
  le : U ≤ 1 + D.length + f
  room : v.parts.length ≤ retransmitQueueMax
  queue : ∃ syns rest s, v.parts = syns ++ rest ∧ (∀ x ∈ syns, x.IsSyn v.iss) ∧ (syns ≠ [] → U = 0) ∧
    1 ≤ s ∧ s ≤ max U 1 ∧ Chain D v.iss s rest (1 + D.length + f)

namespace Lined

variable {v : Snd}

/-- The parts of the queue are less than half a round. -/
theorem span (h : Lined D f v U) {syns rest : List Part} (hv : v.parts = syns ++ rest)
    (hchain : Chain D v.iss a rest b) : b + 2 ^ 30 < a + 2 ^ 31 := by
  have hspan := hchain.span.2
  have hroom := h.room
  rw [hv, List.length_append] at hroom
  unfold retransmitQueueMax at hroom
  omega

/-- So is what is in flight. -/
theorem near (h : Lined D f v U) : 1 + D.length + f < U + 2 ^ 31 := by
  obtain ⟨syns, rest, s, hv, -, -, h1, hs, hchain⟩ := h.queue
  have hspan := h.span hv hchain
  omega

/-- An acknowledgment between `snd.una` and `snd.nxt` is a number in between. -/
theorem between (h : Lined D f v U) {ack : Seq} (hb : seqBetween ack v.una v.nxt = true) :
    ∃ A, U ≤ A ∧ A ≤ 1 + D.length + f ∧ ack = v.iss + BitVec.ofNat 32 A := by
  have hnear := h.near
  have hle := h.le
  unfold seqBetween at hb
  obtain ⟨hlow, hhigh⟩ := Bool.and_eq_true_iff.mp hb
  rw [Bool.not_eq_true'] at hlow hhigh
  have hd : (ack - v.una).toNat < 2 ^ 31 := by
    unfold seqBefore at hlow
    exact Nat.not_le.mp (of_decide_eq_false hlow)
  have hack : ack = v.iss + BitVec.ofNat 32 (U + (ack - v.una).toNat) := by
    rw [← place_add, ← h.una, BitVec.ofNat_toNat, BitVec.setWidth_eq, add_sub_cancel]
  generalize (ack - v.una).toNat = d at hd hack
  refine ⟨U + d, Nat.le_add_right U d, ?_, hack⟩
  rw [hack, h.nxt, seqAfter_eq v.iss (by omega) (by omega)] at hhigh
  have := of_decide_eq_false hhigh
  omega

theorem after_iff (h : Lined D f v U) (hU : U ≤ A) (hA : A ≤ 1 + D.length + f) :
    seqAfter (v.iss + BitVec.ofNat 32 A) v.una = decide (U < A) := by
  have hnear := h.near
  rw [h.una]
  exact seqAfter_eq v.iss (by omega) (by omega)

theorem drop_syns {syns rest : List Part} (hs : ∀ x ∈ syns, x.IsSyn iss) (h1 : 1 ≤ A) (hA : A < 2 ^ 31 ∨ syns = []) :
    (syns ++ rest).dropWhile (fun x => !seqAfter x.stop (iss + BitVec.ofNat 32 A)) =
      rest.dropWhile (fun x => !seqAfter x.stop (iss + BitVec.ofNat 32 A)) := by
  rcases hA with hA | rfl
  · induction syns with
    | nil => rfl
    | cons y ys ih =>
      have hy : seqAfter y.stop (iss + BitVec.ofNat 32 A) = false := by
        rw [(hs y (List.mem_cons_self ..)).stop_eq, seqAfter_eq iss (by omega) (by omega)]
        exact decide_eq_false (by omega)
      rw [List.cons_append, List.dropWhile_cons_of_pos (by rw [hy]; rfl)]
      exact ih fun x hx => hs x (List.mem_cons_of_mem _ hx)
  · rfl

/-- An acknowledgment that moves `snd.una` frees what is below it, the SYN included. -/
theorem cleanup (h : Lined D f v U) (hU : U < A) (hA : A ≤ 1 + D.length + f) :
    Lined D f ⟨v.iss, v.iss + BitVec.ofNat 32 A, v.nxt,
      v.parts.dropWhile fun x => !seqAfter x.stop (v.iss + BitVec.ofNat 32 A)⟩ A := by
  have hnear := h.near
  obtain ⟨syns, rest, s, hv, hsyn, hzero, h1, hs, hchain⟩ := h.queue
  have hsmall : A < 2 ^ 31 ∨ syns = [] := by
    by_cases hnil : syns = []
    · exact Or.inr hnil
    · have := hzero hnil
      exact Or.inl (by omega)
  have hspan := h.span hv hchain
  obtain ⟨c, hc, hsc, hchain'⟩ := hchain.drop (by omega) hA (by omega)
  refine ⟨rfl, h.nxt, hA, ?_, [], _, c, ?_, fun x hx => absurd hx List.not_mem_nil, fun h => absurd rfl h, by omega,
    by omega, hchain'⟩
  · exact Nat.le_trans (List.dropWhile_sublist _).length_le h.room
  · change v.parts.dropWhile _ = _
    rw [hv, drop_syns hsyn (by omega) hsmall]
    rfl

/-- The next part of the line, and `snd.nxt` behind it. -/
theorem push (h : Lined D 0 v U) (hroom : v.parts.length < retransmitQueueMax)
    (hx : x.At (D ++ E) v.iss (1 + D.length)) (hlen : x.len = E.length + f) :
    Lined (D ++ E) f ⟨v.iss, v.una, v.nxt + BitVec.ofNat 32 x.len, v.parts ++ [x]⟩ U := by
  have hle := h.le
  have hend : 1 + (D ++ E).length + f = 1 + D.length + x.len := by
    rw [List.length_append]
    omega
  obtain ⟨syns, rest, s, hv, hsyn, hzero, h1, hs, hchain⟩ := h.queue
  refine ⟨h.una, ?_, by omega, ?_, syns, rest ++ [x], s, ?_, hsyn, hzero, h1, hs, ?_⟩
  · change v.nxt + _ = _
    rw [h.nxt, place_add, hend]
    rfl
  · change (v.parts ++ [x]).length ≤ _
    rw [List.length_append, List.length_singleton]
    exact hroom
  · change v.parts ++ [x] = _
    rw [hv, List.append_assoc]
  · rw [hend]
    exact (hchain.grow fun y hy => hchain.no_fin hy).append hx

end Lined

end EwokOS.Net
