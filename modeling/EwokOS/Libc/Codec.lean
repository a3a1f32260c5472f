import EwokOS.Libc.Proto

/-! Messages read back what was added, and when a received one can be read at all.

    An item that finds no memory is dropped without a word, and the next one may fit again; so a message
    is a prefix of what was added only while nothing is stored behind a gap. And nothing checks a length
    that comes from a peer against the message: what is read stays inside just when the lengths frame the
    message. -/

namespace EwokOS.Libc

open Schemes

/-! ### Building -/

/-- The size of an item in the message. -/
def span (n : ℕ) : ℕ := 4 + (n + 3) / 4 * 4

/-- The size of all of them. -/
def spans {aw : ℕ} (l : List (Add aw)) : ℕ := (l.map fun a => span a.item.bytes.length).sum

namespace Proto
variable {s t : Proto} {aw : ℕ}

/-- The item does not fit and gets no memory. -/
def Refuses (s : Proto) (a : Add aw) : Prop :=
  s.total < s.size + span a.item.bytes.length ∧ (s.pre = true ∨ a.alloc = none)

/-- After the first item that is refused all are. -/
def NoGap : Proto → List (Add aw) → Prop
  | _, [] => True
  | s, a :: l => (s.Refuses a ∧ ∀ b ∈ l, s.Refuses b) ∨
    (¬s.Refuses a ∧ ∀ t, s.add a.item.bytes a.alloc = some t → t.NoGap l)

/-- A message that is being built: its bytes are there, and as many more as `total` says. -/
structure Ready (s : Proto) : Prop where
  fits : s.size ≤ s.total
  room : s.total ≤ s.cap

theorem ready_init (buffer : ℕ → UInt8) : (init buffer).Ready := ⟨Nat.zero_le _, Nat.le_refl _⟩

theorem alignUp_eq {n : ℕ} (h : n + 3 < 2 ^ 32) : alignUp n = (n + 3) / 4 * 4 := by
  unfold alignUp
  rw [Nat.mod_eq_of_lt h]

theorem length_le_span (n : ℕ) : n + 4 ≤ span n ∧ span n ≤ n + 7 := by
  unfold span
  omega

/-- From `s` to `t` the item has been put behind the message. -/
structure Added (s t : Proto) (bytes : List UInt8) : Prop where
  size : t.size = s.size + span bytes.length
  keep : ∀ a, a < s.size → t.mem a = s.mem a
  length : slice t.mem s.size 4 = leBytes 4 bytes.length
  bytes : slice t.mem (s.size + 4) bytes.length = bytes
  offset : t.offset = s.offset
  ready : t.Ready

theorem added_store (item : List UInt8) (hfit : s.size + span item.length ≤ s.total) (h : s.Ready)
    (hbig : s.size + span item.length < 2 ^ 32) : ∃ t, s.store item = some t ∧ Added s t item := by
  obtain ⟨hlo, hhi⟩ := length_le_span item.length
  have hroom := h.room
  have halign : alignUp item.length + 4 = span item.length := by
    rw [alignUp_eq (by omega), span, Nat.add_comm]
  unfold store
  rw [if_pos (by omega), halign, Nat.mod_eq_of_lt hbig]
  refine ⟨_, rfl, rfl, fun a ha => ?_, ?_, ?_, rfl, ⟨?_, ?_⟩⟩
  · show put _ (s.size + 4) _ a = _
    rw [put_of_lt (by omega), put_of_lt ha]
  · rw [slice_put_of_disjoint (.inl (Nat.le_refl _))]
    have hl : slice (put s.mem s.size (leBytes 4 item.length)) s.size (leBytes 4 item.length).length = _ := slice_put
    rw [length_leBytes] at hl
    exact hl
  · exact slice_put
  · exact hfit
  · exact hroom

theorem need_eq {item : List UInt8} (h : s.size + span item.length < 2 ^ 32) :
    s.need item = s.size + span item.length := by
  obtain ⟨hlo, -⟩ := length_le_span item.length
  unfold need
  rw [alignUp_eq (by omega)]
  unfold span at h ⊢
  rw [Nat.mod_eq_of_lt (by omega)]
  omega

/-- An add that is not refused. -/
theorem added_add {a : Add aw} (h : s.Ready) (hbig : s.size + span a.item.bytes.length + protoBuffer < 2 ^ 32)
    (ha : ¬s.Refuses a) : ∃ t, s.add a.item.bytes a.alloc = some t ∧ Added s t a.item.bytes := by
  unfold add
  rw [need_eq (by omega)]
  split
  · rename_i hlt
    have hpre : s.pre = false := by
      cases hp : s.pre with
      | false => rfl
      | true => exact absurd ⟨hlt, .inl hp⟩ ha
    rw [hpre]
    cases halloc : a.alloc with
    | none => exact absurd ⟨hlt, .inr halloc⟩ ha
    | some fresh =>
      dsimp only
      rw [if_neg (by simp), Nat.mod_eq_of_lt (by omega)]
      -- the message is copied into the new memory
      have hcopy : ∀ b, b < s.size → put fresh 0 (slice s.mem 0 s.size) b = s.mem b := fun b hb => put_slice hb
      obtain ⟨t, ht, hadd⟩ := added_store a.item.bytes
        (s := s.grow fresh (s.size + span a.item.bytes.length + protoBuffer)) (Nat.le_add_right _ _)
        ⟨Nat.le_trans (Nat.le_add_right _ _) (Nat.le_add_right _ _), Nat.le_refl _⟩ (by exact Nat.lt_of_le_of_lt (Nat.le_add_right _ _) hbig)
      exact ⟨t, ht, hadd.size, fun b hb => (hadd.keep b hb).trans (hcopy b hb), hadd.length, hadd.bytes, hadd.offset, hadd.ready⟩
  · rename_i hge
    exact added_store _ (by omega) h (by omega)

/-- An add that is refused. -/
theorem add_refused {a : Add aw} (hbig : s.size + span a.item.bytes.length + protoBuffer < 2 ^ 32)
    (ha : s.Refuses a) : s.add a.item.bytes a.alloc = some s := by
  unfold add
  rw [need_eq (by omega), if_pos ha.1]
  rcases ha.2 with hp | halloc
  · rw [if_pos hp]
  · rw [halloc]
    split <;> rfl

/-! ### Reading back -/

/-- From `o` to `e` the message holds these items. -/
def Rows (mem : ℕ → UInt8) : ℕ → List (Item aw) → ℕ → Prop
  | o, [], e => o = e
  | o, i :: l, e => slice mem o 4 = leBytes 4 i.bytes.length ∧
    slice mem (o + 4) i.bytes.length = i.bytes ∧ Rows mem (o + span i.bytes.length) l e

theorem Rows.le {mem : ℕ → UInt8} {l : List (Item aw)} {o e : ℕ} (h : Rows mem o l e) : o ≤ e := by
  induction l generalizing o with
  | nil => exact Nat.le_of_eq h
  | cons i l ih => exact Nat.le_trans (Nat.le_add_right _ _) (ih h.2.2)

/-- What is added is put behind what is there, up to the first item that is refused. -/
theorem adds_rows {l : List (Add aw)} (h : s.Ready) (hbig : s.size + spans l + protoBuffer < 2 ^ 32)
    (hgap : s.NoGap l) : ∃ t k, s.adds l = some t ∧ k ≤ l.length ∧
      (∀ a, l[k]? = some a → t.Refuses a) ∧ (∀ a, a < s.size → t.mem a = s.mem a) ∧ t.offset = s.offset ∧ t.Ready ∧
      Rows t.mem s.size ((l.take k).map Add.item) t.size := by
  induction l generalizing s with
  | nil => exact ⟨s, 0, rfl, Nat.le_refl _, by simp, fun _ _ => rfl, rfl, h, rfl⟩
  | cons a l ih =>
    have hsum : spans (a :: l) = span a.item.bytes.length + spans l := by simp [spans]
    rw [hsum] at hbig
    rcases hgap with ⟨ha, hrest⟩ | ⟨ha, hrest⟩
    · -- nothing is stored any more
      have hall : ∀ l : List (Add aw), (∀ b ∈ l, s.Refuses b) → s.size + spans l + protoBuffer < 2 ^ 32 →
          s.adds l = some s := by
        intro l
        induction l with
        | nil => exact fun _ _ => rfl
        | cons b l ih =>
          intro hl hb
          have hsum : spans (b :: l) = span b.item.bytes.length + spans l := by simp [spans]
          rw [hsum] at hb
          rw [adds, add_refused (by omega) (hl b (by simp))]
          exact ih (fun c hc => hl c (by simp [hc])) (by omega)
      refine ⟨s, 0, hall (a :: l) ?_ (by rw [hsum]; omega), Nat.zero_le _, ?_, fun _ _ => rfl, rfl, h, rfl⟩
      · intro b hb
        rcases List.mem_cons.mp hb with rfl | hb
        · exact ha
        · exact hrest b hb
      · intro b hb
        cases hb
        exact ha
    · obtain ⟨t, ht, hadd⟩ := added_add h (by omega) ha
      obtain ⟨u, k, hu, hk, href, hkeep, hoff, hready, hrows⟩ := ih hadd.ready
        (by rw [hadd.size]; omega) (hrest t ht)
      have hsize := hadd.size
      obtain ⟨hlo, -⟩ := length_le_span a.item.bytes.length
      refine ⟨u, k + 1, ?_, Nat.succ_le_succ hk, ?_, fun b hb => ?_, hoff.trans hadd.offset, hready, ?_, ?_, ?_⟩
      · rw [adds, ht]
        exact hu
      · intro b hb
        rw [List.getElem?_cons_succ] at hb
        exact href b hb
      · rw [hkeep b (by omega), hadd.keep b hb]
      · rw [← hadd.length]
        exact slice_congr fun b _ hb => hkeep b (by omega)
      · refine Eq.trans (slice_congr fun b _ hb => hkeep b (by omega)) hadd.bytes
      · rw [← hsize]
        exact hrows

/-- A read where an item stands. -/
theorem read_row {n : ℕ} (hs : s.offset < s.size) (hcap : s.size ≤ s.cap) (hl : slice s.mem s.offset 4 = leBytes 4 n)
    (hn : n < 2 ^ 31) (hbig : s.offset + span n < 2 ^ 32) :
    s.read = ({ s with offset := s.offset + span n }, if n = 0 then none else some (s.offset + 4), (n : ℤ)) := by
  have hlen : s.length = n := by
    unfold length
    rw [hl, ofLe_leBytes (by omega)]
  have hlive : ¬s.Absent := by
    unfold Absent
    omega
  unfold read
  rw [if_neg hlive, hlen, alignUp_eq (by omega), toInt32, if_pos hn]
  unfold span at hbig ⊢
  rw [Nat.mod_eq_of_lt hbig]

theorem cString_of_slice {mem : ℕ → UInt8} {p k : ℕ} {text : List UInt8}
    (h : slice mem p (text ++ [0]).length = text ++ [0]) (h0 : 0 ∉ text) (hk : text.length < k) :
    cString mem p k = text := by
  induction text generalizing p k with
  | nil =>
    obtain ⟨k, rfl⟩ := Nat.exists_eq_succ_of_ne_zero (Nat.ne_of_gt hk)
    rw [List.nil_append, List.length_singleton, slice, slice] at h
    rw [cString, if_pos (List.cons.inj h).1]
  | cons b text ih =>
    obtain ⟨k, rfl⟩ := Nat.exists_eq_succ_of_ne_zero (Nat.ne_of_gt (Nat.zero_lt_of_lt hk))
    rw [List.cons_append, List.length_cons, slice] at h
    obtain ⟨hb, hrest⟩ := List.cons.inj h
    have hb0 : b ≠ 0 := fun he => h0 (by simp [he])
    rw [cString, hb, if_neg hb0, ih hrest (fun hm => h0 (by simp [hm])) (by simpa using hk)]

/-- The read that matches finds the item. -/
theorem readBack_row {i : Item aw} (hs : s.offset + span i.bytes.length ≤ s.size) (hcap : s.size ≤ s.cap)
    (hl : slice s.mem s.offset 4 = leBytes 4 i.bytes.length)
    (hb : slice s.mem (s.offset + 4) i.bytes.length = i.bytes) (hn : i.bytes.length < 2 ^ 31) (hbig : s.size < 2 ^ 32) :
    i.readBack s = ({ s with offset := s.offset + span i.bytes.length }, some i) := by
  obtain ⟨hlo, -⟩ := length_le_span i.bytes.length
  have hread := read_row (by omega) hcap hl hn (by omega)
  have hword : ∀ k v, i.bytes = leBytes k v → v < 256 ^ k →
      s.readWord k = ({ s with offset := s.offset + span i.bytes.length }, v) := by
    intro k v hi hv
    have hlen : i.bytes.length = k := by rw [hi, length_leBytes]
    unfold readWord
    rw [hread]
    by_cases h0 : i.bytes.length = 0
    · rw [if_pos h0]
      rw [← hlen, h0, Nat.pow_zero] at hv
      simp only [Prod.mk.injEq, true_and]
      omega
    · rw [if_neg h0]
      simp only [Prod.mk.injEq, true_and]
      rw [hlen, hi] at hb
      rw [hb, ofLe_leBytes hv]
  cases i with
  | raw l =>
    unfold Item.readBack
    rw [hread]
    by_cases h0 : (Item.raw l : Item aw).bytes.length = 0
    · rw [if_pos h0]
      have hnil : l = [] := List.length_eq_zero_iff.mp h0
      simp only [hnil]
    · rw [if_neg h0]
      dsimp only
      rw [Int.toNat_natCast, hb]
      rfl
  | int v =>
    have hr := hword 4 v.toNat rfl (by have := v.isLt; omega)
    unfold Item.readBack readInt
    rw [hr]
    simp
  | int64 v =>
    have hr := hword 8 v.toNat rfl (by have := v.isLt; omega)
    unfold Item.readBack readInt64
    rw [hr]
    simp
  | addr v =>
    have hr := hword aw v.toNat rfl (by have := v.isLt; rw [Nat.pow_mul] at this; exact this)
    unfold Item.readBack readAddr
    rw [hr]
    simp
  | str text =>
    have hlen : (Item.str text : Item aw).bytes.length = text.1.length + 1 := by simp [Item.bytes]
    have hstr : s.readStr.1 = { s with offset := s.offset + span (Item.str text : Item aw).bytes.length } ∧
        s.readStr.2 = text.1 := by
      unfold readStr
      rw [hread, if_neg (by omega)]
      refine ⟨rfl, cString_of_slice hb text.2 ?_⟩
      omega
    unfold Item.readBack
    rw [hstr.1]
    simp only [hstr.2, dif_pos text.2]

/-- The items are read back in order, and then nothing is left. -/
theorem readAll_rows {l : List (Item aw)} (h : Rows s.mem s.offset l s.size) (hcap : s.size ≤ s.cap)
    (hn : ∀ i ∈ l, i.bytes.length < 2 ^ 31) (hbig : s.size < 2 ^ 32) :
    Item.readAll s l = ({ s with offset := s.size }, l.map some) := by
  induction l generalizing s with
  | nil =>
    obtain ⟨mem, cap, size, total, offset, pre⟩ := s
    cases h
    rfl
  | cons i l ih =>
    obtain ⟨hl, hb, hrest⟩ := h
    have hback := readBack_row hrest.le hcap hl hb (hn i (by simp)) hbig
    have htail := ih (s := { s with offset := s.offset + span i.bytes.length }) hrest hcap
      (fun j hj => hn j (by simp [hj])) hbig
    rw [Item.readAll, hback]
    dsimp only
    rw [htail]
    rfl

/-! ### Received messages -/

/-- An item that is all there: its length and its bytes, and if it is not empty four of these or the
    padding, and a `NUL` somewhere from its beginning on. -/
structure Record (s : Proto) : Prop where
  head : s.offset + 4 ≤ s.size
  small : s.length < 2 ^ 31
  bytes : s.offset + 4 + s.length ≤ s.size
  word : s.length ≠ 0 → s.offset + 8 ≤ s.size
  text : s.length ≠ 0 → ∃ a, s.offset + 4 ≤ a ∧ a < s.size ∧ s.mem a = 0

/-- The message is a row of items, one behind the other up to its end. -/
inductive Framed : Proto → Prop where
  | done {s : Proto} : s.Absent → Framed s
  | item {s : Proto} : Record s → Framed s.after → Framed s

theorem Record.inside (h : Record s) (c : Call) : s.Inside c := by
  have hpos : toInt32 s.length = s.length := by
    unfold toInt32
    rw [if_pos h.small]
  have hbytes := h.bytes
  refine .inr ⟨h.head, fun h0 => ?_⟩
  cases c with
  | read =>
    dsimp only
    omega
  | readTo n =>
    dsimp only
    omega
  | readInt =>
    have := h.word h0
    dsimp only
    omega
  | readStr => exact h.text h0

/-- What the calls look at, if they stay inside. -/
theorem record_of_inside (hlive : ¬s.Absent) (h : ∀ c, s.Inside c) : Record s := by
  obtain ⟨hhead, hread⟩ := (h .read).resolve_left hlive
  have hsmall : s.length < 2 ^ 31 := by
    by_contra hbig
    have hn := (hread (by omega)).1
    have hlt : s.length < 2 ^ 32 := by
      have := ofLe_lt (slice s.mem s.offset 4)
      rw [length_slice] at this
      exact this
    unfold toInt32 at hn
    rw [if_neg hbig] at hn
    omega
  have hpos : toInt32 s.length = s.length := by
    unfold toInt32
    rw [if_pos hsmall]
  refine ⟨hhead, hsmall, ?_, fun h0 => ?_, fun h0 => ?_⟩
  · by_cases h0 : s.length = 0
    · omega
    · have := (hread h0).2
      omega
  · have := ((h .readInt).resolve_left hlive).2 h0
    dsimp only at this
    omega
  · exact ((h .readStr).resolve_left hlive).2 h0

theorem Framed.absent (h : Framed s) : ∃ k, (s.skip k).Absent := by
  induction h with
  | done ha => exact ⟨0, ha⟩
  | item _ _ ih =>
    obtain ⟨k, hk⟩ := ih
    exact ⟨k + 1, hk⟩

theorem after_of_absent (h : s.Absent) : s.after = s := by
  unfold after read
  rw [if_pos h]

theorem Framed.inside (h : Framed s) (k : ℕ) (c : Call) : (s.skip k).Inside c := by
  induction h generalizing k with
  | @done s ha =>
    have hk : s.skip k = s := by
      induction k with
      | zero => rfl
      | succ k ih => rw [skip, after_of_absent ha, ih]
    rw [hk]
    exact .inl ha
  | item hr _ ih =>
    cases k with
    | zero => exact hr.inside c
    | succ k => exact ih k

/-- Whatever is called, in whatever order, reads stay inside a message and come to its end just when the
    message is a row of items. -/
theorem inside_iff_framed : ((∀ k c, (s.skip k).Inside c) ∧ ∃ k, (s.skip k).Absent) ↔ Framed s := by
  refine ⟨?_, fun h => ⟨h.inside, h.absent⟩⟩
  rintro ⟨hin, k, hk⟩
  induction k generalizing s with
  | zero => exact .done hk
  | succ k ih =>
    by_cases hlive : s.Absent
    · exact .done hlive
    · exact .item (record_of_inside hlive (hin 0)) (ih (fun j => hin (j + 1)) hk)

end Proto

open Proto

/-- A proto that has been initialised empty, reserved with what memory was there, or over a buffer. -/
inductive Started : Proto → Prop where
  | init (buffer : ℕ → UInt8) : Started (.init buffer)
  | reserve (buffer : ℕ → UInt8) (n : ℕ) (alloc : Option (ℕ → UInt8)) : Started (.reserve buffer n alloc)
  | preset (data : ℕ → UInt8) (n : ℕ) : Started (.initData data n)

/-- Add calls whose items, with the buffer, stay below 4 GiB, each below 2 GiB, with nothing stored behind
    an item that found no memory, on a proto whose reserved memory was there. -/
structure Fitting {aw : ℕ} (s : Proto) (l : List (Add aw)) : Prop where
  room : s.total ≤ s.cap
  sum : s.size + spans l + protoBuffer < 2 ^ 32
  each : ∀ a ∈ l, a.item.bytes.length < 2 ^ 31
  gap : s.NoGap l

/-- Messages are read back, up to the first item that found no memory; and a received one is read safely
    just when it is a row of items. -/
theorem proto_codec (aw : ℕ) (s : Proto) (l : List (Add aw)) (mem : ℕ → UInt8) (n : ℕ) : (Started s → Fitting s l →
      ∃ t k, s.adds l = some t ∧ k ≤ l.length ∧ (∀ a, l[k]? = some a → t.Refuses a) ∧
        (∀ a, a < s.size → t.mem a = s.mem a) ∧
        Item.readAll { t with offset := s.size } ((l.take k).map Add.item) =
          ({ t with offset := t.size }, (l.take k).map fun a => some a.item)) ∧
    (((∀ k c, ((initData mem n).skip k).Inside c) ∧ ∃ k, ((initData mem n).skip k).Absent) ↔
      Framed (initData mem n)) := by
  refine ⟨fun hs hl => ?_, inside_iff_framed⟩
  have hfits : s.size ≤ s.total := by
    cases hs with
    | init => exact Nat.zero_le _
    | reserve buffer n alloc =>
      unfold Proto.reserve
      split
      · exact Nat.zero_le _
      · split <;> exact Nat.zero_le _
    | preset => exact Nat.le_refl _
  obtain ⟨t, k, ht, hk, href, hkeep, -, hready, hrows⟩ := adds_rows ⟨hfits, hl.room⟩ hl.sum hl.gap
  refine ⟨t, k, ht, hk, href, hkeep, ?_⟩
  have hall := readAll_rows (s := { t with offset := s.size }) hrows (Nat.le_trans hready.fits hready.room) ?_ ?_
  · rw [hall, List.map_map]
    rfl
  · intro i hi
    obtain ⟨a, ha, rfl⟩ := List.mem_map.mp hi
    exact hl.each a (List.mem_of_mem_take ha)
  · -- the message is not longer than all items are
    have hsize : ∀ (m : List (Add aw)) (o e : ℕ), Rows t.mem o (m.map Add.item) e → e = o + spans m := by
      intro m
      induction m with
      | nil =>
        intro o e h
        exact h.symm
      | cons a m ih =>
        intro o e h
        rw [ih _ _ h.2.2]
        simp [spans, Nat.add_assoc]
    have hsplit : spans l = spans (l.take k) + spans (l.drop k) := by
      rw [spans, spans, spans, ← List.sum_append, ← List.map_append, List.take_append_drop]
    have := hsize _ _ _ hrows
    have := hl.sum
    show t.size < 2 ^ 32
    omega

/-- A number and a string. -/
def someAdds : List (Add 8) := [⟨.int 7, none⟩, ⟨.str ⟨[104, 105], by decide⟩, none⟩]

theorem proto_codec_some : ∃ t, (init fun _ => 0).adds someAdds = some t ∧ t.size = 16 ∧
    (Item.readAll { t with offset := 0 } (someAdds.map Add.item)).2 = someAdds.map fun a => some a.item := by
  have hroom : ∀ s : Proto, s.size ≤ 16 → s.total = 512 → ∀ a ∈ someAdds, ¬s.Refuses a := by
    intro s hs ht a ha hr
    have hlt := hr.1
    have hspan : span a.item.bytes.length ≤ 8 := by
      simp only [someAdds, List.mem_cons, List.not_mem_nil, or_false] at ha
      rcases ha with rfl | rfl <;> decide
    omega
  have hfit : Fitting (init fun _ => 0) someAdds := by
    refine ⟨Nat.le_refl _, by decide, by decide, .inr ⟨hroom _ (Nat.zero_le _) rfl _ (by simp [someAdds]), ?_⟩⟩
    intro t ht
    have hsize : t.size = 8 ∧ t.total = 512 := by
      cases ht
      exact ⟨rfl, rfl⟩
    exact .inr ⟨hroom _ (by omega) hsize.2 _ (by simp [someAdds]), fun _ _ => trivial⟩
  obtain ⟨t, k, ht, hk, href, -, hread⟩ := (proto_codec 8 (init fun _ => 0) someAdds (fun _ => 0) 0).1 (.init _) hfit
  have hall : (init fun _ => 0).adds someAdds = some t → t.size = 16 ∧ t.total = 512 := by
    intro h
    cases h
    exact ⟨rfl, rfl⟩
  obtain ⟨hsize, htotal⟩ := hall ht
  -- neither of the two is refused
  have hk2 : k = 2 := by
    rcases Nat.lt_or_ge k someAdds.length with hlt | hge
    · exact absurd (href _ (List.getElem?_eq_getElem hlt)) (hroom t (Nat.le_of_eq hsize) htotal _ (List.getElem_mem hlt))
    · exact Nat.le_antisymm hk hge
  subst hk2
  exact ⟨t, ht, hsize, congrArg Prod.snd hread⟩

/-- The four bytes of the length -4. -/
def endless : ℕ → UInt8
  | 0 => 0xfc
  | _ => 0xff

/-- A read of a message with the length -4 does not move on; and an item that found no memory is followed
    in the message by one that came after it. -/
theorem reads_without_end : (¬∃ k, ((initData endless 4).skip k).Absent) ∧
    ((init fun _ => 0).adds [⟨.raw (List.replicate 600 1), none⟩, ⟨(.int 7 : Item 8), none⟩]).map
      (fun t => (t.size, slice t.mem 0 8)) = some (8, [4, 0, 0, 0, 7, 0, 0, 0]) := by
  have hstay : (initData endless 4).after = initData endless 4 := rfl
  refine ⟨?_, by decide +kernel⟩
  rintro ⟨k, hk⟩
  have hskip : (initData endless 4).skip k = initData endless 4 := by
    induction k with
    | zero => rfl
    | succ k ih =>
      rw [skip, hstay]
      exact ih (by rw [skip, hstay] at hk; exact hk)
  rw [hskip] at hk
  rcases hk with hk | hk
  · cases hk
  · exact absurd hk (by decide)

end EwokOS.Libc
