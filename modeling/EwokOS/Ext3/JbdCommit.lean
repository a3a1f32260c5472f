import EwokOS.Ext3.JbdReplay

/-! A transaction that is committed is found again.

    What `jbd_commit` writes is read back record by record: the revoke blocks, the descriptors with
    the blocks behind them, the commit block. So the chain of the log is this one transaction, as long
    as no record with the next number happens to lie behind it. -/

namespace EwokOS.Ext3.Jbd

section
variable {j : Jbd} {c : Ctx} {log : ℕ → Block} {dev : Dev} {pos n k : ℕ} {seq : Word} {l l' : List Block}

/-! ### Positions -/

/-- A position of the log. -/
def InLog (j : Jbd) (pos : ℕ) : Prop := j.first ≤ pos ∧ pos < j.maxlen

theorem InLog.capacity_pos (h : InLog j pos) : 0 < j.capacity := by
  have h₁ := h.1
  have h₂ := h.2
  rw [capacity]
  omega

theorem wrap_inLog (h : 0 < j.capacity) (pos k : ℕ) : InLog j (j.wrap pos k) := by
  have hlt := Nat.mod_lt (pos - j.first + k) h
  rw [InLog, wrap]
  rw [capacity] at h hlt ⊢
  omega

theorem wrap_zero (h : InLog j pos) : j.wrap pos 0 = pos := by
  have h₁ := h.1
  have h₂ := h.2
  rw [wrap, Nat.add_zero, Nat.mod_eq_of_lt (by rw [capacity]; omega)]
  omega

theorem wrap_wrap (pos a b : ℕ) : j.wrap (j.wrap pos a) b = j.wrap pos (a + b) := by
  rw [wrap, wrap, wrap, Nat.add_sub_cancel_left, Nat.mod_add_mod, Nat.add_assoc]

/-- Within one round positions are different. -/
theorem wrap_ne (h : InLog j pos) (hk : 0 < k) (hc : k < j.capacity) : j.wrap pos k ≠ pos := by
  have h₁ := h.1
  have h₂ := h.2
  intro he
  rw [wrap] at he
  have hmod : (pos - j.first + k) % j.capacity = pos - j.first := by omega
  have hlt : pos - j.first < j.capacity := by rw [capacity]; omega
  rcases Nat.lt_or_ge (pos - j.first + k) j.capacity with hs | hs
  · rw [Nat.mod_eq_of_lt hs] at hmod
    omega
  · rw [Nat.mod_eq_sub_mod hs, Nat.mod_eq_of_lt (by omega)] at hmod
    omega

/-! ### Writing to the log -/

/-- The log holds these blocks from `pos` on. -/
def Holds (j : Jbd) (log : ℕ → Block) : ℕ → List Block → Prop
  | _, [] => True
  | pos, b :: l => log pos = b ∧ Holds j log (j.wrap pos 1) l

theorem past_eq (h : InLog j pos) (l : List Block) : j.past pos l = j.wrap pos l.length := by
  induction l generalizing pos with
  | nil => exact (wrap_zero h).symm
  | cons b l ih =>
    rw [past, ih (wrap_inLog h.capacity_pos pos 1), wrap_wrap, List.length_cons, Nat.add_comm]

theorem holds_append : Holds j log pos (l ++ l') ↔ Holds j log pos l ∧ Holds j log (j.past pos l) l' := by
  induction l generalizing pos with
  | nil => exact ⟨fun h => ⟨trivial, h⟩, fun h => h.2⟩
  | cons b l ih =>
    rw [List.cons_append, Holds, Holds, past, ih, and_assoc]

theorem mem_logWrites (h : InLog j pos) {x : ℕ × Block} (hx : x ∈ j.logWrites c pos l) :
    ∃ k < l.length, x.1 = c.map (j.wrap pos k) := by
  induction l generalizing pos with
  | nil => cases hx
  | cons b l ih =>
    rcases List.mem_cons.mp hx with rfl | hx
    · exact ⟨0, Nat.succ_pos _, by rw [wrap_zero h]⟩
    · obtain ⟨k, hk, he⟩ := ih (wrap_inLog h.capacity_pos pos 1) hx
      exact ⟨1 + k, by rw [List.length_cons]; omega, by rw [he, wrap_wrap]⟩

theorem writeAll_of_ne {l : List (ℕ × Block)} {b : ℕ} (h : ∀ x ∈ l, x.1 ≠ b) :
    writeAll dev l b = dev b := by
  induction l generalizing dev with
  | nil => rfl
  | cons x l ih =>
    rw [writeAll, List.foldl_cons]
    refine (ih fun y hy => h y (List.mem_cons_of_mem x hy)).trans ?_
    exact Function.update_of_ne (h x List.mem_cons_self).symm _ _

/-- The log holds what was written to it. -/
theorem holds_written (h : InLog j pos) (hl : l.length ≤ j.capacity) :
    Holds j (logOf c (writeAll dev (j.logWrites c pos l))) pos l := by
  induction l generalizing pos dev with
  | nil => trivial
  | cons b l ih =>
    have hin := wrap_inLog h.capacity_pos pos 1
    rw [List.length_cons] at hl
    refine ⟨?_, ih hin (by omega)⟩
    rw [logOf, logWrites, writeAll, List.foldl_cons]
    refine (writeAll_of_ne fun x hx => ?_).trans (Function.update_self ..)
    obtain ⟨k, hk, he⟩ := mem_logWrites hin hx
    rw [he, wrap_wrap]
    exact fun heq => wrap_ne h (by omega) (by omega) (c.inj heq)

/-! ### Reading blocks back -/

/-- The sizes there are. -/
def Sized (j : Jbd) : Prop := j.blockSize = 1024 ∨ j.blockSize = 2048 ∨ j.blockSize = 4096

theorem checkHeader_of {b : Block} {t : ℕ} (h0 : b 0 = magic) (h1 : b 1 = BitVec.ofNat 32 t)
    (h2 : b 2 = seq) (ht : 0 < t ∧ t ≤ 5) : checkHeader b = some (t, seq) := by
  have hn : (b 1).toNat = t := by
    rw [h1, BitVec.toNat_ofNat]
    omega
  rw [checkHeader, if_neg (by rw [h0]; exact fun h => h rfl), hn, if_neg (by omega), h2]

theorem checkHeader_header {t : ℕ} (ht : 0 < t ∧ t ≤ 5) : checkHeader (header t seq) = some (t, seq) :=
  checkHeader_of rfl rfl rfl ht

theorem record_commit (bs : ℕ) : record bs (header 2 seq) seq = some .commit := by
  rw [record, checkHeader_header (by omega)]
  simp

theorem record_revoke {bs : ℕ} {l : List Word} (hbs : bs < 2 ^ 32) (hl : l.length ≤ (bs - 16) / 4)
    (hpos : 0 < l.length) : record bs (revokeBlock seq l) seq = some (.revoke l) := by
  have hcount : (revokeBlock seq l 3).toNat = 16 + l.length * 4 := by
    show (BitVec.ofNat 32 (16 + l.length * 4)).toNat = _
    rw [BitVec.toNat_ofNat]
    omega
  have hhead : checkHeader (revokeBlock seq l) = some (5, seq) := checkHeader_of rfl rfl rfl (by omega)
  rw [record, hhead]
  dsimp only
  rw [if_neg (by simp), if_pos rfl, hcount, if_neg (by omega)]
  congr 2
  have hn : (16 + l.length * 4 - 16) / 4 = l.length := by omega
  rw [hn]
  refine List.ext_getElem (by simp) fun i h₁ h₂ => ?_
  rw [List.getElem_map, List.getElem_range]
  show (if 4 + i < 3 then _ else if 4 + i = 3 then _ else l.getD (4 + i - 4) 0) = _
  rw [if_neg (by omega), if_neg (by omega), Nat.add_sub_cancel_left, List.getD_eq_getElem?_getD,
    List.getElem?_eq_getElem h₂]
  rfl

/-- Every flag says that no uuid follows, and `last` whether it is the last. -/
theorem tagFlags_bits (data : Block) (last : Bool) :
    (tagFlags data last &&& 2 ≠ 0) ∧ (tagFlags data last &&& 8 ≠ 0 ↔ last = true) ∧
      (tagFlags data last &&& 1 ≠ 0 ↔ data 0 = magic) := by
  rw [tagFlags]
  by_cases h : data 0 = magic
  · rw [if_pos h]
    cases last <;> exact ⟨by decide, by decide, fun _ => h, fun _ => by decide⟩
  · rw [if_neg h]
    cases last <;> exact ⟨by decide, by decide, fun h' => absurd h' (by decide), fun h' => absurd h' h⟩

/-- Tags that stand one behind the other are read up to the last. -/
theorem tagsFrom_eq {bs : ℕ} {desc : Block} (l : List (Word × Block)) {n p : ℕ} (hl : l ≠ [])
    (hn : l.length ≤ n) (hbs : 12 + (p + l.length) * 8 ≤ bs)
    (hd : ∀ i < l.length, desc (3 + (p + i) * 2) = ((tagsOf l).getD i (0, 0)).1 ∧
      desc (3 + (p + i) * 2 + 1) = ((tagsOf l).getD i (0, 0)).2) :
    tagsFrom bs desc n (12 + p * 8) = tagsOf l := by
  induction l generalizing n p with
  | nil => exact absurd rfl hl
  | cons x l ih =>
    rw [List.length_cons] at hn hbs
    obtain ⟨n, rfl⟩ : ∃ m, n = m + 1 := ⟨n - 1, by omega⟩
    have h0 := hd 0 (by simp)
    have hdiv : (12 + p * 8) / 4 = 3 + p * 2 := by omega
    have hflags : desc (3 + p * 2 + 1) = tagFlags x.2 l.isEmpty := h0.2
    have hblk : desc (3 + p * 2) = x.1 := h0.1
    obtain ⟨h2, h8, -⟩ := tagFlags_bits x.2 l.isEmpty
    rw [tagsFrom, if_neg (by omega), hdiv, hflags, hblk, tagsOf]
    dsimp only
    congr 1
    cases l with
    | nil =>
      rw [if_pos (h8.mpr rfl)]
      rfl
    | cons y l =>
      rw [if_neg fun h => absurd (h8.mp h) (by simp), if_neg h2]
      have hrest := ih (n := n) (p := p + 1) (by simp) (by omega)
        (by rw [List.length_cons] at hbs ⊢; omega) (fun i hi => by
          have hi' := hd (i + 1) (by rw [List.length_cons]; omega)
          rw [tagsOf] at hi'
          have hp : p + 1 + i = p + (i + 1) := by omega
          rw [hp]
          exact hi')
      have hp : 12 + (p + 1) * 8 = 12 + p * 8 + 8 + 0 := by omega
      rw [hp] at hrest
      exact hrest

theorem length_tagsOf (l : List (Word × Block)) : (tagsOf l).length = l.length := by
  induction l with
  | nil => rfl
  | cons x l ih => rw [tagsOf, List.length_cons, List.length_cons, ih]

theorem record_desc {bs : ℕ} {l : List (Word × Block)} (hl : l ≠ []) (hn : l.length ≤ (bs - 12) / 8) :
    record bs (descBlock seq l) seq = some (.descriptor (tagsOf l)) := by
  have hhead : checkHeader (descBlock seq l) = some (1, seq) := checkHeader_of rfl rfl rfl (by omega)
  have hpos := List.length_pos_iff.mpr hl
  rw [record, hhead]
  dsimp only
  rw [if_neg (by simp), if_neg (by decide), if_pos rfl]
  congr 2
  refine tagsFrom_eq (p := 0) l hl hn (by omega) fun i hi => ⟨?_, ?_⟩
  · rw [descBlock, if_neg (by omega)]
    dsimp only
    have hdiv : (3 + (0 + i) * 2 - 3) / 2 = i := by omega
    rw [hdiv, if_pos (by omega)]
  · rw [descBlock, if_neg (by omega)]
    dsimp only
    have hdiv : (3 + (0 + i) * 2 + 1 - 3) / 2 = i := by omega
    rw [hdiv, if_neg (by omega)]

/-! ### Pieces -/

theorem chunks_spec {α : Type} {n : ℕ} (hn : 0 < n) (k : ℕ) (l : List α) (hk : l.length ≤ k) :
    (chunks n k l).flatten = l ∧ (∀ x ∈ chunks n k l, x ≠ [] ∧ x.length ≤ n) ∧
      (chunks n k l).length = (l.length + n - 1) / n := by
  induction k generalizing l with
  | zero =>
    rw [List.eq_nil_of_length_eq_zero (Nat.le_zero.mp hk)]
    refine ⟨rfl, nofun, ?_⟩
    rw [List.length_nil, Nat.zero_add, Nat.div_eq_of_lt (by omega)]
    rfl
  | succ k ih =>
    rw [chunks]
    cases l with
    | nil =>
      refine ⟨rfl, nofun, ?_⟩
      rw [List.length_nil, Nat.zero_add, Nat.div_eq_of_lt (by omega)]
      rfl
    | cons a l =>
      have hlen : 0 < (a :: l).length := Nat.succ_pos _
      generalize a :: l = l at hlen hk
      have hne : l.isEmpty = false := by
        rw [List.isEmpty_eq_false_iff]
        exact List.length_pos_iff.mp hlen
      obtain ⟨h₁, h₂, h₃⟩ := ih (l.drop n) (by rw [List.length_drop]; omega)
      rw [hne, if_neg (by decide)]
      refine ⟨by rw [List.flatten_cons, h₁, List.take_append_drop], fun x hx => ?_, ?_⟩
      · rcases List.mem_cons.mp hx with rfl | hx
        · refine ⟨?_, List.length_take_le n l⟩
          rw [← List.length_pos_iff, List.length_take]
          omega
        · exact h₂ x hx
      · rw [List.length_cons, h₃, List.length_drop]
        rcases Nat.lt_or_ge n l.length with hlt | hge
        · have h1 : l.length - n + n - 1 = l.length - 1 := by omega
          have h2 : l.length + n - 1 = l.length - 1 + n := by omega
          rw [h1, h2, Nat.add_div_right _ hn]
        · have h1 : l.length - n + n - 1 = n - 1 := by omega
          rw [h1, Nat.div_eq_of_lt (by omega)]
          exact (Nat.div_eq_of_lt_le (by omega) (by omega)).symm

/-! ### The records of a transaction -/

/-- The records of revoke blocks. -/
def revRecs (j : Jbd) : ℕ → List (List Word) → List (ℕ × Rec)
  | _, [] => []
  | pos, l :: cs => (pos, .revoke l) :: revRecs j (j.wrap pos 1) cs

/-- The records of descriptor blocks. -/
def descRecs (j : Jbd) : ℕ → List (List (Word × Block)) → List (ℕ × Rec)
  | _, [] => []
  | pos, l :: cs => (pos, .descriptor (tagsOf l)) :: descRecs j (j.wrap pos (1 + l.length)) cs

/-- A descriptor with the blocks behind it. -/
def descPart (seq : Word) (l : List (Word × Block)) : List Block :=
  descBlock seq l :: l.map fun x => escape x.2

/-- A record at `pos` is read if the scan gets that far. -/
theorem records_cons {s : ℕ} {d : Rec} (hn : j.capacity ≤ s + n) (hsc : s < j.capacity)
    (hd : record j.blockSize (log pos) seq = some d) : records j log n pos seq s =
      (pos, d) :: records j log (n - 1) (j.wrap pos d.span) (d.after seq) (s + d.span) := by
  obtain ⟨n, rfl⟩ : ∃ m, n = m + 1 := ⟨n - 1, by omega⟩
  rw [records, if_neg (by omega), hd]
  rfl

theorem records_revokes (hbs : j.blockSize < 2 ^ 32) (cs : List (List Word)) {s : ℕ}
    (hcs : ∀ l ∈ cs, l ≠ [] ∧ l.length ≤ j.entriesPerRevoke)
    (hh : Holds j log pos (cs.map (revokeBlock seq))) (hn : j.capacity ≤ s + n)
    (hsc : s + cs.length < j.capacity) : ∃ m, j.capacity ≤ s + cs.length + m ∧
      records j log n pos seq s = revRecs j pos cs ++
        records j log m (j.past pos (cs.map (revokeBlock seq))) seq (s + cs.length) := by
  induction cs generalizing pos n s with
  | nil => exact ⟨n, hn, rfl⟩
  | cons l cs ih =>
    rw [List.length_cons] at hsc
    obtain ⟨hl, hrest⟩ := hh
    obtain ⟨hne, hle⟩ := hcs l List.mem_cons_self
    have hrec := records_cons (n := n) hn (by omega)
      (hl ▸ record_revoke hbs hle (List.length_pos_iff.mpr hne))
    obtain ⟨m, hm, hr⟩ := ih (fun x hx => hcs x (List.mem_cons_of_mem l hx)) hrest
      (n := n - 1) (s := s + 1) (by omega) (by omega)
    refine ⟨m, by rw [List.length_cons]; omega, ?_⟩
    have hlen : s + (cs.length + 1) = s + 1 + cs.length := by omega
    rw [hrec, List.length_cons, hlen]
    exact congrArg _ hr

theorem records_descs (cs : List (List (Word × Block))) {s : ℕ} (hpos : InLog j pos)
    (hcs : ∀ l ∈ cs, l ≠ [] ∧ l.length ≤ j.tagsPerDesc)
    (hh : Holds j log pos (cs.flatMap (descPart seq))) (hn : j.capacity ≤ s + n)
    (hsc : s + (cs.flatMap (descPart seq)).length < j.capacity) :
    ∃ m, j.capacity ≤ s + (cs.flatMap (descPart seq)).length + m ∧
      records j log n pos seq s = descRecs j pos cs ++
        records j log m (j.past pos (cs.flatMap (descPart seq))) seq
          (s + (cs.flatMap (descPart seq)).length) := by
  induction cs generalizing pos n s with
  | nil => exact ⟨n, hn, rfl⟩
  | cons l cs ih =>
    have hpart : (descPart seq l).length = 1 + l.length := by
      rw [descPart, List.length_cons, List.length_map, Nat.add_comm]
    rw [List.flatMap_cons, List.length_append, hpart] at hsc
    rw [List.flatMap_cons, holds_append] at hh
    obtain ⟨hl, hrest⟩ := hh
    obtain ⟨hne, hle⟩ := hcs l List.mem_cons_self
    have hrec := records_cons (n := n) hn (by omega) (hl.1 ▸ record_desc hne hle)
    have hspan : (Rec.descriptor (tagsOf l)).span = 1 + l.length := by rw [Rec.span, length_tagsOf]
    have hpast : j.past pos (descPart seq l) = j.wrap pos (1 + l.length) := by rw [past_eq hpos, hpart]
    rw [hpast] at hrest
    obtain ⟨m, hm, hr⟩ := ih (wrap_inLog hpos.capacity_pos pos _)
      (fun x hx => hcs x (List.mem_cons_of_mem l hx)) hrest (n := n - 1) (s := s + (1 + l.length))
      (by omega) (by omega)
    have hlen : s + (1 + l.length + (cs.flatMap (descPart seq)).length) =
        s + (1 + l.length) + (cs.flatMap (descPart seq)).length := by omega
    have hgo : j.past pos (descPart seq l ++ cs.flatMap (descPart seq)) =
        j.past (j.wrap pos (1 + l.length)) (cs.flatMap (descPart seq)) := by
      rw [past_eq hpos, past_eq (wrap_inLog hpos.capacity_pos pos _), wrap_wrap, List.length_append, hpart]
    refine ⟨m, by rw [List.flatMap_cons, List.length_append, hpart]; omega, ?_⟩
    rw [hrec, hspan, List.flatMap_cons, List.length_append, hpart, hlen, hgo]
    exact congrArg _ hr

/-- The tags of descriptor blocks. -/
def descTags (j : Jbd) : ℕ → List (List (Word × Block)) → List Tag
  | _, [] => []
  | pos, l :: cs => placed j pos (tagsOf l) ++ descTags j (j.wrap pos (1 + l.length)) cs

theorem chain_revRecs (cs : List (List Word)) (t : Trans) (rest : List (ℕ × Rec)) :
    chainFrom j t (revRecs j pos cs ++ rest) =
      chainFrom j { t with revokes := t.revokes ++ cs.flatten } rest := by
  induction cs generalizing pos t with
  | nil => rw [List.flatten_nil, List.append_nil]; rfl
  | cons l cs ih =>
    rw [revRecs, List.cons_append, chainFrom, ih, List.flatten_cons, List.append_assoc]

theorem chain_descRecs (cs : List (List (Word × Block))) (t : Trans) (rest : List (ℕ × Rec)) :
    chainFrom j t (descRecs j pos cs ++ rest) =
      chainFrom j { t with tags := t.tags ++ descTags j pos cs } rest := by
  induction cs generalizing pos t with
  | nil => rw [descTags, List.append_nil]; rfl
  | cons l cs ih =>
    rw [descRecs, List.cons_append, chainFrom, ih, descTags, List.append_assoc]

theorem revokesOf_revRecs (cs : List (List Word)) (rest : List (ℕ × Rec)) :
    revokesOf seq (revRecs j pos cs ++ rest) =
      (cs.flatten.map fun b => (b, seq)) ++ revokesOf seq rest := by
  induction cs generalizing pos with
  | nil => rfl
  | cons l cs ih =>
    rw [revRecs, List.cons_append, revokesOf, ih, List.flatten_cons, List.map_append, List.append_assoc]

theorem revokesOf_descRecs (cs : List (List (Word × Block))) (rest : List (ℕ × Rec)) :
    revokesOf seq (descRecs j pos cs ++ rest) = revokesOf seq rest := by
  induction cs generalizing pos with
  | nil => rfl
  | cons l cs ih => rw [descRecs, List.cons_append, revokesOf, ih]

/-! ### What the tags stand for -/

theorem unescape_escape (data : Block) (last : Bool) :
    unescape (tagFlags data last) (escape data) = data := by
  obtain ⟨-, -, h1⟩ := tagFlags_bits data last
  rw [unescape, escape]
  by_cases h : data 0 = magic
  · rw [if_pos (h1.mpr h), if_pos h, Function.update_idem, ← h, Function.update_eq_self]
  · rw [if_neg fun he => h (h1.mp he), if_neg h]

/-- The write a block of a transaction asks for. -/
def home (i : ℕ) (x : Word × Block) : Put := ⟨i, x.1.toNat, x.2⟩

/-- The tags of one descriptor, any selection of them that goes by the block. -/
theorem placed_puts {f : Word → Bool} {i : ℕ} (l : List (Word × Block))
    (hh : Holds j log (j.wrap pos 1) (l.map fun x => escape x.2)) :
    ((placed j pos (tagsOf l)).filter fun t => f t.block).map (Tag.put log i) =
      (l.filter fun x => f x.1).map (home i) := by
  induction l generalizing pos with
  | nil => rfl
  | cons x l ih =>
    obtain ⟨hx, hl⟩ := hh
    have hput : Tag.put log i ⟨x.1, j.wrap pos 1, tagFlags x.2 l.isEmpty⟩ = home i x := by
      rw [Tag.put, home, hx, unescape_escape]
    rw [tagsOf, placed, List.filter_cons, List.filter_cons]
    dsimp only
    split_ifs
    · rw [List.map_cons, List.map_cons, hput, ih hl]
    · exact ih hl

theorem descTags_puts {f : Word → Bool} {i : ℕ} (hpos : InLog j pos) (cs : List (List (Word × Block)))
    (hh : Holds j log pos (cs.flatMap (descPart seq))) :
    ((descTags j pos cs).filter fun t => f t.block).map (Tag.put log i) =
      (cs.flatten.filter fun x => f x.1).map (home i) := by
  induction cs generalizing pos with
  | nil => rfl
  | cons l cs ih =>
    rw [List.flatMap_cons, holds_append] at hh
    obtain ⟨hl, hrest⟩ := hh
    have hpast : j.past pos (descPart seq l) = j.wrap pos (1 + l.length) := by
      rw [past_eq hpos, descPart, List.length_cons, List.length_map, Nat.add_comm]
    rw [hpast] at hrest
    rw [descTags, List.flatten_cons, List.filter_append, List.filter_append, List.map_append,
      List.map_append, placed_puts l hl.2, ih (wrap_inLog hpos.capacity_pos pos _) hrest]

theorem mem_descTags (cs : List (List (Word × Block))) {t : Tag} (ht : t ∈ descTags j pos cs) :
    ∃ x ∈ cs.flatten, t.block = x.1 := by
  have hplaced : ∀ (l : List (Word × Block)) (pos : ℕ), t ∈ placed j pos (tagsOf l) →
      ∃ x ∈ l, t.block = x.1 := by
    intro l
    induction l with
    | nil => nofun
    | cons x l ih =>
      intro pos h
      rcases List.mem_cons.mp h with rfl | h
      · exact ⟨x, List.mem_cons_self, rfl⟩
      · obtain ⟨y, hy, he⟩ := ih _ h
        exact ⟨y, List.mem_cons_of_mem x hy, he⟩
  induction cs generalizing pos with
  | nil => cases ht
  | cons l cs ih =>
    rw [List.flatten_cons]
    rcases List.mem_append.mp ht with h | h
    · obtain ⟨x, hx, he⟩ := hplaced l pos h
      exact ⟨x, List.mem_append_left _ hx, he⟩
    · obtain ⟨x, hx, he⟩ := ih h
      exact ⟨x, List.mem_append_right _ hx, he⟩

/-! ### The superblock -/

/-- What `jbd_load` makes sure of. -/
structure Accepted (j : Jbd) : Prop where
  head : InLog j j.head
  sized : Sized j
  first : 0 < j.first
  magic : j.sb 0 = Jbd.magic
  blocktype : (j.sb 1).toNat = 3 ∨ (j.sb 1).toNat = 4
  blockSize : (j.sb 3).toNat = j.blockSize
  maxlen : (j.sb 4).toNat = j.maxlen
  firstWord : (j.sb 5).toNat = j.first
  long : 1024 ≤ j.maxlen
  plain : (j.sb 1).toNat = 4 → j.sb 10 &&& ~~~(0x3f : Word) = 0 ∧ j.sb 10 &&& 0x22 = 0 ∧
    j.sb 10 &&& 0x18 = 0 ∧ j.sb 9 &&& 1 = 0

theorem Accepted.capacity_pos (h : Accepted j) : 0 < j.capacity := h.head.capacity_pos

/-- The fields of `s_start` and `s_sequence` are the only ones written. -/
theorem publish_of_ne {sb : Block} {start i : ℕ} (h6 : i ≠ 6) (h7 : i ≠ 7) :
    publish sb start seq i = sb i := by
  rw [publish, Function.update_of_ne h6, Function.update_of_ne h7]

theorem sbSequence_publish {sb : Block} {start : ℕ} : sbSequence (publish sb start seq) = seq := by
  rw [sbSequence, publish, Function.update_self]

theorem sbStart_publish {sb : Block} {start : ℕ} (h : start < 2 ^ 32) :
    sbStart (publish sb start seq) = start := by
  rw [sbStart, publish, Function.update_of_ne (by decide), Function.update_self, BitVec.toNat_ofNat]
  exact Nat.mod_eq_of_lt h

/-- Publishing again leaves nothing of what was published before. -/
theorem publish_publish (sb : Block) (a b : ℕ) (q r : Word) :
    publish (publish sb a q) b r = publish sb b r := by
  funext i
  simp only [publish, Function.update_apply]
  split_ifs <;> rfl

/-- A superblock with a new `s_start` and `s_sequence` passes the checks of `jbd_load`. -/
theorem load_publish {start : ℕ} (h : Accepted j) (hdev : dev (c.map 0) = publish j.sb start seq) :
    load c dev = (loaded (publish j.sb start seq)).map fun j' => (j', dev) := by
  obtain ⟨sb, hsb⟩ : ∃ sb, sb = publish j.sb start seq := ⟨_, rfl⟩
  have hkeep : ∀ i, i ≠ 6 → i ≠ 7 → sb i = j.sb i := fun i h6 h7 => by rw [hsb, publish_of_ne h6 h7]
  have hlong := h.long
  have hf := h.first
  have hlt := h.head.1
  have hlt' := h.head.2
  have hw := h.firstWord
  have hm := h.maxlen
  have hb := h.blockSize
  have hhead : checkHeader sb = some ((j.sb 1).toNat, sb 2) := by
    have ht := h.blocktype
    rw [checkHeader, hkeep 0 (by decide) (by decide), hkeep 1 (by decide) (by decide), h.magic,
      if_neg (fun hx => hx rfl), if_neg (by omega)]
  have hfeat : (j.sb 1).toNat = 4 → features sb = .ok none := by
    intro h4
    obtain ⟨p₁, p₂, p₃, p₄⟩ := h.plain h4
    rw [features, hkeep 10 (by decide) (by decide), hkeep 9 (by decide) (by decide),
      if_neg fun hx => hx p₁, if_neg fun hx => hx p₂,
      if_neg fun hx => hx.elim (fun hx => hx p₃) fun hx => hx p₄]
  have hsize : ¬(sb 3 ≠ 1024 ∧ sb 3 ≠ 2048 ∧ sb 3 ≠ 4096) := by
    rw [hkeep 3 (by decide) (by decide)]
    rintro ⟨h₁, h₂, h₃⟩
    rcases h.sized with hz | hz | hz
    · exact h₁ (BitVec.eq_of_toNat_eq (hb.trans hz))
    · exact h₂ (BitVec.eq_of_toNat_eq (hb.trans hz))
    · exact h₃ (BitVec.eq_of_toNat_eq (hb.trans hz))
  simp only [load]
  rw [hdev, ← hsb, hhead]
  dsimp only
  rw [if_neg (by have := h.blocktype; omega), if_neg hsize, hkeep 4 (by decide) (by decide),
    hkeep 5 (by decide) (by decide), if_neg (by omega), if_neg (by omega)]
  by_cases h4 : (j.sb 1).toNat = 4
  · rw [if_pos h4, hfeat h4]
  · rw [if_neg h4]

/-- The fields `jbd_load` copies from such a superblock. -/
theorem loaded_geometry {start : ℕ} (h : Accepted j) :
    (publish j.sb start seq 3).toNat = j.blockSize ∧ (publish j.sb start seq 5).toNat = j.first ∧
      (publish j.sb start seq 4).toNat = j.maxlen := by
  rw [publish_of_ne (by decide) (by decide), publish_of_ne (by decide) (by decide),
    publish_of_ne (by decide) (by decide)]
  exact ⟨h.blockSize, h.firstWord, h.maxlen⟩

/-- A published superblock is loaded again. -/
theorem load_published {start : ℕ} (h : Accepted j) (hs : InLog j start)
    (hdev : dev (c.map 0) = publish j.sb start seq) :
    load c dev = .ok ({ j with head := start, nextSequence := seq, sb := publish j.sb start seq }, dev) := by
  have hs1 := hs.1
  have hs2 := hs.2
  have hf := h.first
  have hstart : sbStart (publish j.sb start seq) = start := by
    have := (j.sb 4).isLt
    have := h.maxlen
    exact sbStart_publish (by omega)
  obtain ⟨g₁, g₂, g₃⟩ := @loaded_geometry j seq start h
  rw [load_publish h hdev]
  simp only [loaded]
  rw [hstart, if_neg (by omega), g₁, g₂, g₃, if_neg (by omega), sbSequence_publish]
  rfl

/-- The superblock of an empty log is loaded again. -/
theorem load_empty (h : Accepted j) (hdev : dev (c.map 0) = publish j.sb 0 seq) :
    load c dev = .ok ({ j with
      head := j.first
      nextSequence := seq + 1
      sb := publish j.sb 0 seq }, dev) := by
  obtain ⟨g₁, g₂, g₃⟩ := @loaded_geometry j seq 0 h
  rw [load_publish h hdev]
  simp only [loaded]
  rw [sbStart_publish (by decide), if_pos rfl, g₁, g₂, g₃, sbSequence_publish]
  rfl

/-- The part of a superblock that `jbd_load` checks before the features. -/
structure Shaped (sb : Block) : Prop where
  magic : sb 0 = Jbd.magic
  blocktype : (sb 1).toNat = 3 ∨ (sb 1).toNat = 4
  size : sb 3 = 1024 ∨ sb 3 = 2048 ∨ sb 3 = 4096
  long : 1024 ≤ (sb 4).toNat
  first : 0 < (sb 5).toNat ∧ (sb 5).toNat < (sb 4).toNat

theorem accepted_of_loaded {sb : Block} (h : Shaped sb)
    (hp : (sb 1).toNat = 4 → sb 10 &&& ~~~(0x3f : Word) = 0 ∧ sb 10 &&& 0x22 = 0 ∧
      sb 10 &&& 0x18 = 0 ∧ sb 9 &&& 1 = 0) (hl : loaded sb = .ok j) : Accepted j := by
  have hsz : (sb 3).toNat = 1024 ∨ (sb 3).toNat = 2048 ∨ (sb 3).toNat = 4096 := by
    rcases h.size with hz | hz | hz
    · exact .inl (by rw [hz]; rfl)
    · exact .inr (.inl (by rw [hz]; rfl))
    · exact .inr (.inr (by rw [hz]; rfl))
  simp only [loaded] at hl
  split_ifs at hl with h0 h1
  · cases hl
    exact ⟨⟨Nat.le_refl _, h.first.2⟩, hsz, h.first.1, h.magic, h.blocktype, rfl, rfl, rfl, h.long, hp⟩
  · cases hl
    exact ⟨⟨Nat.not_lt.mp (not_or.mp h1).1, Nat.not_le.mp (not_or.mp h1).2⟩, hsz, h.first.1, h.magic, h.blocktype, rfl, rfl, rfl, h.long, hp⟩

theorem mask_zero {x a b : Word} (h : x &&& b = 0) : x &&& a &&& b = 0 := by
  rw [BitVec.and_assoc, BitVec.and_comm a b, ← BitVec.and_assoc, h]
  exact BitVec.zero_and

theorem unmask_zero (x a : Word) : x &&& ~~~a &&& a = 0 := by
  rw [BitVec.and_assoc, BitVec.and_comm (~~~a) a, BitVec.and_not_self]
  exact BitVec.and_zero

/-- The feature bits are none of its business. -/
theorem Shaped.update {sb : Block} {a b : Word} (h : Shaped sb) : Shaped (Function.update (Function.update sb 9 a) 10 b) :=
  ⟨h.magic, h.blocktype, h.size, h.long, h.first⟩

theorem accepted_of_map {sb : Block} {dev' : Dev} (h : Shaped sb)
    (hp : (sb 1).toNat = 4 → sb 10 &&& ~~~(0x3f : Word) = 0 ∧ sb 10 &&& 0x22 = 0 ∧
      sb 10 &&& 0x18 = 0 ∧ sb 9 &&& 1 = 0) (hl : ((loaded sb).map fun j => (j, dev)) = .ok (j, dev')) : Accepted j := by
  cases hj : loaded sb with
  | error e =>
    rw [hj] at hl
    cases hl
  | ok j' =>
    rw [hj] at hl
    cases hl
    exact accepted_of_loaded h hp hj

/-- What `jbd_load` returns is accepted. -/
theorem load_accepted {dev' : Dev} (h : load c dev = .ok (j, dev')) : Accepted j := by
  obtain ⟨sb, hsb⟩ : ∃ sb, sb = dev (c.map 0) := ⟨_, rfl⟩
  simp only [load] at h
  rw [← hsb] at h
  cases hh : checkHeader sb with
  | none =>
    rw [hh] at h
    cases h
  | some x =>
    obtain ⟨t, q⟩ := x
    rw [hh] at h
    rw [checkHeader] at hh
    split_ifs at hh with hm ht
    cases hh
    dsimp only at h
    split_ifs at h with h₁ h₂ h₃ h₄ h₅
    all_goals
      have hsize : sb 3 = 1024 ∨ sb 3 = 2048 ∨ sb 3 = 4096 := by tauto
      have hshape : Shaped sb := ⟨not_not.mp hm, by omega, hsize, by omega, by omega⟩
    · -- version 2
      cases hf : features sb with
      | error e =>
        rw [hf] at h
        cases h
      | ok o =>
        rw [hf] at h
        rw [features] at hf
        split_ifs at hf with f₁ f₂ f₃ f₄
        · -- checksums given up
          cases hf
          refine accepted_of_map hshape.update (fun _ => ⟨mask_zero (not_not.mp f₁), mask_zero (not_not.mp f₂), ?_, ?_⟩) h
          · exact unmask_zero _ _
          · exact unmask_zero _ _
        · cases hf
          rw [not_or] at f₃
          exact accepted_of_map hshape (fun _ => ⟨not_not.mp f₁, not_not.mp f₂, not_not.mp f₃.1, not_not.mp f₃.2⟩) h
    · exact accepted_of_map hshape (fun h4 => absurd h4 h₅) h

/-! ### The round trip -/

variable {txn : Txn}

/-- The pieces of a transaction. -/
def revPieces (j : Jbd) (txn : Txn) : List (List Word) :=
  chunks j.entriesPerRevoke txn.revokes.length txn.revokes
def blockPieces (j : Jbd) (txn : Txn) : List (List (Word × Block)) :=
  chunks j.tagsPerDesc txn.blocks.length txn.blocks

theorem Sized.ample (h : Sized j) : 0 < j.entriesPerRevoke ∧ 0 < j.tagsPerDesc ∧ j.blockSize < 2 ^ 32 := by
  rw [entriesPerRevoke, tagsPerDesc]
  rcases h with h | h | h <;> rw [h] <;> decide

theorem txnBlocks_eq : j.txnBlocks txn = (j.revPieces txn).map (revokeBlock j.nextSequence) ++
    ((j.blockPieces txn).flatMap (descPart j.nextSequence) ++ [header 2 j.nextSequence]) := by
  rw [txnBlocks, revPieces, blockPieces, List.append_assoc]
  rfl

theorem length_flatMap_descPart (cs : List (List (Word × Block))) :
    (cs.flatMap (descPart seq)).length = cs.length + cs.flatten.length := by
  induction cs with
  | nil => rfl
  | cons l cs ih =>
    rw [List.flatMap_cons, List.length_append, ih, descPart, List.flatten_cons, List.length_append,
      List.length_cons, List.length_cons, List.length_map]
    omega

theorem length_txnBlocks (h : Sized j) (txn : Txn) : (j.txnBlocks txn).length = j.txnLogBlocks txn := by
  obtain ⟨h₁, h₂, -⟩ := h.ample
  obtain ⟨-, -, hr⟩ := chunks_spec h₁ _ txn.revokes (Nat.le_refl _)
  obtain ⟨hf, -, hb⟩ := chunks_spec h₂ _ txn.blocks (Nat.le_refl _)
  rw [txnBlocks_eq, List.length_append, List.length_append, List.length_map, length_flatMap_descPart,
    revPieces, blockPieces, hr, hf, hb, txnLogBlocks, List.length_singleton]
  omega

/-- What the log is read as when it holds a transaction, and behind it nothing with the next number. -/
theorem records_txn (hs : Sized j) (hin : InLog j j.head) (hfit : j.txnLogBlocks txn ≤ j.capacity)
    (hh : Holds j log j.head (j.txnBlocks txn))
    (hend : j.txnLogBlocks txn = j.capacity ∨
      record j.blockSize (log (j.wrap j.head (j.txnLogBlocks txn))) (j.nextSequence + 1) = none) :
    ∃ p, records j log j.capacity j.head j.nextSequence 0 =
      revRecs j j.head (j.revPieces txn) ++
        (descRecs j (j.past j.head ((j.revPieces txn).map (revokeBlock j.nextSequence)))
          (j.blockPieces txn) ++ [(p, .commit)]) := by
  obtain ⟨h₁, h₂, hbs⟩ := hs.ample
  obtain ⟨-, hr, -⟩ := chunks_spec h₁ _ txn.revokes (Nat.le_refl _)
  obtain ⟨-, hb, -⟩ := chunks_spec h₂ _ txn.blocks (Nat.le_refl _)
  have hlen := length_txnBlocks hs txn
  rw [txnBlocks_eq, List.length_append, List.length_append, List.length_map,
    List.length_singleton] at hlen
  rw [txnBlocks_eq, holds_append, holds_append] at hh
  obtain ⟨hh₁, hh₂, hh₃⟩ := hh
  have hin' := wrap_inLog hin.capacity_pos j.head (j.revPieces txn).length
  have hpast : j.past j.head ((j.revPieces txn).map (revokeBlock j.nextSequence)) =
      j.wrap j.head (j.revPieces txn).length := by
    rw [past_eq hin, List.length_map]
  obtain ⟨m, hm, hrev⟩ := records_revokes hbs (j.revPieces txn) (s := 0) hr hh₁
    (Nat.le_add_left _ _) (by omega)
  obtain ⟨m', hm', hdesc⟩ := records_descs (j.blockPieces txn) (by rw [hpast]; exact hin') hb hh₂ hm
    (by omega)
  have hcommit := records_cons (d := .commit) hm' (by omega) (hh₃.1 ▸ record_commit j.blockSize)
  -- nothing is read behind the commit block
  have hstop : ∀ n p s, p = j.wrap j.head (j.txnLogBlocks txn) → s = j.txnLogBlocks txn →
      records j log n p (j.nextSequence + 1) s = [] := by
    rintro n p s rfl rfl
    cases n with
    | zero => rfl
    | succ n =>
      rw [records]
      rcases hend with he | he
      · rw [if_pos (by omega)]
      · rw [he]
        exact ite_self _
  rw [Rec.after, Rec.span, hstop _ _ _ (by
      rw [hpast, past_eq hin', wrap_wrap, wrap_wrap, ← hlen]) (by omega)] at hcommit
  exact ⟨_, by rw [hrev, hdesc, hcommit]⟩

/-- The chain of the log is the transaction. -/
theorem chain_txn {p : ℕ} : chainFrom j ⟨[], []⟩ (revRecs j j.head (j.revPieces txn) ++
    (descRecs j (j.past j.head ((j.revPieces txn).map (revokeBlock j.nextSequence)))
      (j.blockPieces txn) ++ [(p, .commit)])) =
    [⟨(j.revPieces txn).flatten,
      descTags j (j.past j.head ((j.revPieces txn).map (revokeBlock j.nextSequence)))
        (j.blockPieces txn)⟩] := by
  rw [chain_revRecs, chain_descRecs]
  rfl

theorem revokes_txn {p : ℕ} : revokesOf seq (revRecs j j.head (j.revPieces txn) ++
    (descRecs j (j.past j.head ((j.revPieces txn).map (revokeBlock j.nextSequence)))
      (j.blockPieces txn) ++ [(p, .commit)])) = (j.revPieces txn).flatten.map fun b => (b, seq) := by
  rw [revokesOf_revRecs, revokesOf_descRecs]
  exact List.append_nil _

/-- The log agrees on its own blocks. -/
theorem Holds.congr {log' : ℕ → Block} (h : Holds j log pos l) (hin : InLog j pos)
    (he : ∀ i, InLog j i → log' i = log i) : Holds j log' pos l := by
  induction l generalizing pos with
  | nil => trivial
  | cons b l ih => exact ⟨(he pos hin).trans h.1, ih h.2 (wrap_inLog hin.capacity_pos pos 1)⟩

/-- What recovery writes when the log holds a transaction and the superblock says where. -/
theorem recover_committed (hs : Sized j) (hin : InLog j j.head) (hfirst : 0 < j.first)
    (hfit : j.txnLogBlocks txn ≤ j.capacity) (hstart : sbStart j.sb = j.head)
    (hseq : sbSequence j.sb = j.nextSequence) (hh : Holds j (logOf c dev) j.head (j.txnBlocks txn))
    (hend : j.txnLogBlocks txn = j.capacity ∨ record j.blockSize
      (dev (c.map (j.wrap j.head (j.txnLogBlocks txn)))) (j.nextSequence + 1) = none)
    (hfs : ∀ x ∈ txn.blocks, x.1.toNat < c.fsBlocks) (hout : ∀ x ∈ txn.blocks, ∀ i, c.map i ≠ x.1.toNat) :
    Outside c (chain j c dev) ∧ (recover j c dev).2.1 =
      (txn.blocks.filter fun x => decide (x.1 ≠ 0 ∧ x.1 ∉ txn.revokes)).map (home 0) := by
  obtain ⟨h₁, h₂, -⟩ := hs.ample
  obtain ⟨hr, -, -⟩ := chunks_spec h₁ _ txn.revokes (Nat.le_refl _)
  obtain ⟨hb, -, -⟩ := chunks_spec h₂ _ txn.blocks (Nat.le_refl _)
  obtain ⟨p, hrec⟩ := records_txn hs hin hfit hh hend
  have h0 : j.head ≠ 0 := by
    have := hin.1
    omega
  have hrecs : logRecords j c dev = revRecs j j.head (j.revPieces txn) ++
      (descRecs j (j.past j.head ((j.revPieces txn).map (revokeBlock j.nextSequence)))
        (j.blockPieces txn) ++ [(p, .commit)]) := by
    rw [← hrec, logRecords, hstart, hseq, if_neg h0]
  have hchain : chain j c dev = [⟨txn.revokes,
      descTags j (j.past j.head ((j.revPieces txn).map (revokeBlock j.nextSequence)))
        (j.blockPieces txn)⟩] := by
    rw [chain, hrecs, chain_txn]
    congr 2
  have houts : Outside c (chain j c dev) := by
    rw [hchain]
    intro x hx t ht i
    rw [List.mem_singleton.mp hx] at ht
    obtain ⟨y, hy, he⟩ := mem_descTags _ ht
    rw [blockPieces, hb] at hy
    rw [he]
    exact hout y hy i
  have hfound : found j c dev = (txn.revokes.map fun b => (b, j.nextSequence)).reverse := by
    rw [found, hrecs, hseq, revokes_txn, revPieces, hr]
  have htest : ∀ b, revokeTest (found j c dev) b j.nextSequence = decide (b ∈ txn.revokes) := by
    intro b
    rw [hfound, revokeTest, List.any_reverse, List.any_map, Bool.eq_iff_iff, List.any_eq_true,
      decide_eq_true_eq]
    constructor
    · rintro ⟨x, hx, he⟩
      simp only [Function.comp, Bool.and_eq_true, beq_iff_eq] at he
      exact he.1 ▸ hx
    · intro hb
      exact ⟨b, hb, by simp⟩
  have hkept : ∀ t : Tag, t ∈ descTags j (j.past j.head ((j.revPieces txn).map
      (revokeBlock j.nextSequence))) (j.blockPieces txn) →
      kept c (found j c dev) j.nextSequence t = decide (t.block ≠ 0 ∧ t.block ∉ txn.revokes) := by
    intro t ht
    obtain ⟨y, hy, he⟩ := mem_descTags _ ht
    rw [blockPieces, hb] at hy
    have hlt := hfs y hy
    rw [← he] at hlt
    rw [kept, htest, Bool.eq_iff_iff]
    simp [hlt]
  have hin' := wrap_inLog hin.capacity_pos j.head (j.revPieces txn).length
  have hpast : j.past j.head ((j.revPieces txn).map (revokeBlock j.nextSequence)) =
      j.wrap j.head (j.revPieces txn).length := by
    rw [past_eq hin, List.length_map]
  rw [txnBlocks_eq, holds_append, holds_append] at hh
  refine ⟨houts, ?_⟩
  rw [recover_puts dev houts, hchain, written, written, List.append_nil, hseq, List.filter_congr hkept,
    descTags_puts (f := fun b => decide (b ≠ 0 ∧ b ∉ txn.revokes)) (by rw [hpast]; exact hin') _
      hh.2.1, blockPieces, hb]

/-- Where blocks go does not hang on the superblock. -/
theorem logWrites_sb (sb : Block) (pos : ℕ) (l : List Block) :
    logWrites { j with sb := sb } c pos l = logWrites j c pos l := by
  induction l generalizing pos with
  | nil => rfl
  | cons b l ih => exact congrArg _ (ih _)

/-- A committed transaction is loaded and recovered: the log is empty then, and the home blocks that
    are not revoked are written with what was committed, and no others, if and only if block 0 is not
    one of them. -/
theorem commit_recovers {j' : Jbd} {dev' : Dev} (ha : Accepted j)
    (hne : ¬(txn.blocks.isEmpty ∧ txn.revokes.isEmpty)) (hfs : ∀ x ∈ txn.blocks, x.1.toNat < c.fsBlocks)
    (hout : ∀ x ∈ txn.blocks, ∀ i, c.map i ≠ x.1.toNat)
    (hc : commit j c txn dev = some (j', dev'))
    (hend : j.txnLogBlocks txn = j.capacity ∨ record j.blockSize
      (dev (c.map (j.wrap j.head (j.txnLogBlocks txn)))) (j.nextSequence + 1) = none) :
    ∃ jl, load c dev' = .ok (jl, dev') ∧ sbStart ((recover jl c dev').2.2 (c.map 0)) = 0 ∧
      ((recover jl c dev').2.1 =
          (txn.blocks.filter fun x => decide (x.1 ∉ txn.revokes)).map (home 0) ↔
        ∀ x ∈ txn.blocks, x.1 ∉ txn.revokes → x.1 ≠ 0) := by
  rw [commit, if_neg hne] at hc
  split_ifs at hc with hfit
  obtain ⟨rfl, rfl⟩ := Prod.mk.inj (Option.some.inj hc)
  rw [Nat.not_lt] at hfit
  obtain ⟨jl, hj⟩ : ∃ jl : Jbd, jl = { j with sb := publish j.sb j.head j.nextSequence } := ⟨_, rfl⟩
  obtain ⟨dev', hdev⟩ : ∃ dev', dev' = Function.update (writeAll dev
    (j.logWrites c j.head (j.txnBlocks txn))) (c.map 0) (publish j.sb j.head j.nextSequence) := ⟨_, rfl⟩
  rw [← hdev]
  have hload : load c dev' = .ok (jl, dev') := by
    rw [hj]
    exact load_published ha ha.head (by rw [hdev, Function.update_self])
  have hlog : ∀ i, InLog j i → logOf c dev' i =
      logOf c (writeAll dev (j.logWrites c j.head (j.txnBlocks txn))) i := by
    intro i hi
    rw [hdev]
    refine Function.update_of_ne (fun he => ?_) _ _
    have := c.inj he
    have := hi.1
    have := ha.first
    omega
  have hlen := length_txnBlocks ha.sized txn
  have hin := wrap_inLog ha.capacity_pos j.head (j.txnLogBlocks txn)
  have hend' : j.txnLogBlocks txn = j.capacity ∨ record j.blockSize
      (dev' (c.map (j.wrap j.head (j.txnLogBlocks txn)))) (j.nextSequence + 1) = none := by
    rcases Nat.lt_or_ge (j.txnLogBlocks txn) j.capacity with hlt | hge
    · refine .inr ?_
      have hkeep : writeAll dev (j.logWrites c j.head (j.txnBlocks txn))
          (c.map (j.wrap j.head (j.txnLogBlocks txn))) =
          dev (c.map (j.wrap j.head (j.txnLogBlocks txn))) := by
        refine writeAll_of_ne fun x hx => ?_
        obtain ⟨k, hk, he⟩ := mem_logWrites ha.head hx
        rw [he]
        intro heq
        have hpos := c.inj heq
        have hsplit : j.txnLogBlocks txn = k + (j.txnLogBlocks txn - k) := by omega
        rw [hsplit, ← wrap_wrap] at hpos
        exact wrap_ne (wrap_inLog ha.capacity_pos j.head k) (by omega) (by omega) hpos.symm
      have hsame := hlog _ hin
      rw [logOf, logOf, hkeep] at hsame
      rw [hsame]
      exact hend.resolve_left (by omega)
    · exact .inl (by omega)
  have hholds : Holds jl (logOf c dev') jl.head (jl.txnBlocks txn) := by
    have hw : Holds jl (logOf c (writeAll dev (jl.logWrites c jl.head (jl.txnBlocks txn)))) jl.head
        (jl.txnBlocks txn) := holds_written (by rw [hj]; exact ha.head) (by rw [hj]; exact Nat.le_trans (Nat.le_of_eq hlen) hfit)
    refine hw.congr (by rw [hj]; exact ha.head) fun i hi => ?_
    have hi' : InLog j i := by
      rw [hj] at hi
      exact hi
    rw [hlog i hi', hj]
    exact congrFun (congrArg _ (congrArg _ (logWrites_sb _ _ _).symm)) i
  have hstart : sbStart jl.sb = jl.head := by
    have := (j.sb 4).isLt
    have := ha.maxlen
    have := ha.head.2
    rw [hj]
    exact sbStart_publish (by omega)
  have hseq : sbSequence jl.sb = jl.nextSequence := by
    rw [hj]
    exact sbSequence_publish
  obtain ⟨-, hputs⟩ := recover_committed (j := jl) (by rw [hj]; exact ha.sized) (by rw [hj]; exact ha.head)
    (by rw [hj]; exact ha.first) (by rw [hj]; exact hfit) hstart hseq hholds (by rw [hj]; exact hend')
    hfs hout
  refine ⟨jl, hload, ?_, ?_⟩
  · rw [recover]
    have h0 : ¬sbStart jl.sb = 0 := by
      have := ha.first
      have := ha.head.1
      rw [hstart, hj]
      dsimp only
      omega
    rw [if_neg h0]
    dsimp only
    rw [Function.update_self, sbStart_publish (by decide)]
  · rw [hputs]
    have hinj : Function.Injective (home 0) := by
      intro x y he
      rw [home, home, Put.mk.injEq] at he
      exact Prod.ext (BitVec.eq_of_toNat_eq he.2.1) he.2.2
    rw [(List.map_injective_iff.mpr hinj).eq_iff]
    constructor
    · intro he x hx hr h0
      have hmem : x ∈ txn.blocks.filter fun x => decide (x.1 ≠ 0 ∧ x.1 ∉ txn.revokes) := by
        rw [he]
        exact List.mem_filter.mpr ⟨hx, decide_eq_true hr⟩
      exact (of_decide_eq_true (List.mem_filter.mp hmem).2).1 h0
    · intro h
      refine List.filter_congr fun x hx => ?_
      by_cases hr : x.1 ∈ txn.revokes
      · simp only [hr, not_true_eq_false, and_false]
      · simp only [hr, h x hx hr, not_false_eq_true, ne_eq, and_self]

end

/-! ### Two transactions -/

/-- The superblock of an empty log, on blocks of 4K. -/
def wideSb : Block := fun i => [magic, 4, 0, 4096, 1024, 1, 4].getD i 0

/-- The journal of an empty log, as `jbd_load` leaves it. -/
def wideJbd : Jbd := ⟨4096, 1, 1024, 1, 5, wideSb⟩

/-- A device with an empty log. -/
def wideDev : Dev := fun b => if b = 500 then wideSb else fun _ => 0

theorem wide_accepted : Accepted wideJbd :=
  ⟨⟨by decide, by decide⟩, .inr (.inr rfl), by decide, rfl, .inr rfl, rfl, rfl, rfl, by decide,
    fun _ => by decide⟩

/-- Blocks 7 and 8, the first of which starts with the magic, and the second of which is revoked. -/
def plainTxn : Txn := ⟨[(7, fun _ => magic), (8, fun _ => 1)], [8]⟩

theorem commit_recovers_plain : ∃ j' dev' jl, commit wideJbd disk plainTxn wideDev = some (j', dev') ∧
    load disk dev' = .ok (jl, dev') ∧ (recover jl disk dev').2.1 =
      (plainTxn.blocks.filter fun x => decide (x.1 ∉ plainTxn.revokes)).map (home 0) := by
  obtain ⟨jl, hload, -, hputs⟩ := commit_recovers wide_accepted (by decide) (by decide)
    (by
      have hall : ∀ x ∈ plainTxn.blocks, x.1.toNat < 500 := by decide
      intro x hx i he
      have hlt := hall x hx
      have hmap : disk.map i = 500 + i := rfl
      omega)
    (rfl : commit wideJbd disk plainTxn wideDev = some (_, _)) (.inr (by decide +kernel))
  exact ⟨_, _, jl, rfl, hload, hputs.mpr (by decide)⟩

/-- The block of the superblock of the file system, on blocks of more than 1K. -/
def superTxn : Txn := ⟨[(0, fun _ => 77)], []⟩

/-- It is committed, and recovery does not write it. -/
theorem superblock_not_replayed : ∃ j' dev' jl,
    commit wideJbd disk superTxn wideDev = some (j', dev') ∧ load disk dev' = .ok (jl, dev') ∧
      (recover jl disk dev').2.1.length = 0 := by
  refine ⟨_, _, _, rfl, load_published wide_accepted wide_accepted.head (Function.update_self ..), ?_⟩
  decide +kernel

end EwokOS.Ext3.Jbd
