import EwokOS.Ext3.Dir
import EwokOS.Schemes.Run

/-! A directory is a map from names to inodes.

    Every walk over a tiled block is brought to the form `pre ++ e :: es`, with `e` the entry it ends
    at. Two things can then go wrong: an entry without a name in `pre` hides `e` from the walkers, and a
    dead first entry makes `write_child` take the whole block, whatever lies behind it. -/

namespace EwokOS.Ext3.Directory

open Schemes

section
variable {bs : ℕ} {name : Name} {pre es b : List Entry} {e : Entry} {d : Dir} {c : Child}

/-- How far entries reach. -/
def span (b : List Entry) : ℕ := (b.map Entry.recLen).sum

theorem span_append (b b' : List Entry) : span (b ++ b') = span b + span b' := by
  rw [span, List.map_append, List.sum_append]
  rfl

theorem span_cons (e : Entry) (b : List Entry) : span (e :: b) = e.recLen + span b := by
  rw [span, List.map_cons, List.sum_cons]
  rfl

/-- Entries that have room for their names. -/
def Roomy (b : List Entry) : Prop := ∀ e ∈ b, 12 ≤ e.recLen ∧ needLen e.name.length ≤ e.recLen

theorem span_pos {b : List Entry} (h : Roomy b) (hne : b ≠ []) : 0 < span b := by
  cases b with
  | nil => exact absurd rfl hne
  | cons e b =>
    have h12 := (h e List.mem_cons_self).1
    rw [span_cons]
    omega

/-! ### Walks -/

/-- In a tiled block a walker stops at entries without a name only. -/
theorem stops_tiled (hr : Roomy (pre ++ e :: es)) (hw : span (pre ++ e :: es) = bs) :
    stops bs (span pre) e = decide (e.name = []) := by
  obtain ⟨h12, hneed⟩ := hr e (List.mem_append_right _ List.mem_cons_self)
  rw [span_append, span_cons] at hw
  rw [stops]
  refine decide_eq_decide.mpr ⟨?_, fun h => .inl (by rw [h]; rfl)⟩
  rintro (h | h | h | h)
  · exact List.length_eq_zero_iff.mp h
  · omega
  · omega
  · omega

/-- Whether an entry binds the name. -/
def Binds (name : Name) (e : Entry) : Prop := e.inode ≠ 0 ∧ e.name = name

instance (name : Name) (e : Entry) : Decidable (Binds name e) := inferInstanceAs (Decidable (_ ∧ _))

/-- Nothing is found where nothing binds the name. -/
theorem searchFrom_none (h : ∀ x ∈ es, ¬Binds name x) (pos : ℕ) : searchFrom bs name pos es = none := by
  induction es generalizing pos with
  | nil => rfl
  | cons x es ih =>
    have hx := h x List.mem_cons_self
    rw [searchFrom]
    split_ifs with h₁ h₂
    · rfl
    · exact absurd h₂ hx
    · exact ih (fun y hy => h y (List.mem_cons_of_mem x hy)) _

/-- An entry is found unless it is hidden. -/
theorem searchFrom_eq (l : List Entry) (hr : Roomy (l ++ (pre ++ e :: es)))
    (hw : span (l ++ (pre ++ e :: es)) = bs) (he : Binds name e) (hne : name ≠ [])
    (hpre : ∀ x ∈ pre, ¬Binds name x) :
    searchFrom bs name (span l) (pre ++ e :: es) =
      if ∀ x ∈ pre, x.name ≠ [] then some (e.inode, span l + span pre) else none := by
  induction pre generalizing l with
  | nil =>
    have hstop : stops bs (span l) e = false := by
      rw [stops_tiled hr hw, he.2]
      exact decide_eq_false hne
    rw [List.nil_append, searchFrom, hstop, if_neg (by decide), if_pos ⟨he.1, he.2⟩,
      if_pos fun x hx => absurd hx List.not_mem_nil]
    rfl
  | cons x pre ih =>
    have hx : ¬(x.inode ≠ 0 ∧ x.name = name) := hpre x List.mem_cons_self
    have hsplit : l ++ (x :: pre ++ e :: es) = (l ++ [x]) ++ (pre ++ e :: es) := by
      rw [List.cons_append, List.append_assoc, List.singleton_append]
    have hspan : span (l ++ [x]) = span l + x.recLen := by
      rw [span_append, span_cons]
      rfl
    have hrest := ih (l ++ [x]) (hsplit ▸ hr) (hsplit ▸ hw) fun y hy => hpre y (List.mem_cons_of_mem x hy)
    rw [hspan] at hrest
    rw [List.cons_append] at hr hw
    rw [List.cons_append, searchFrom, stops_tiled hr hw]
    by_cases hxn : x.name = []
    · rw [decide_eq_true hxn, if_pos rfl, if_neg fun h => h x List.mem_cons_self hxn]
    · rw [decide_eq_false hxn, if_neg (by decide), if_neg hx, hrest, span_cons, Nat.add_assoc]
      refine if_congr ?_ rfl rfl
      rw [List.forall_mem_cons]
      exact ⟨fun h => ⟨hxn, h⟩, fun h => h.2⟩

theorem searchIn_none (h : ∀ b ∈ d, ∀ x ∈ b, ¬Binds name x) : searchIn bs name d = none := by
  induction d with
  | nil => rfl
  | cons b d ih =>
    rw [searchIn, searchFrom_none (h b List.mem_cons_self)]
    exact ih fun b' hb' => h b' (List.mem_cons_of_mem b hb')

theorem searchIn_append {d₁ d₂ : Dir} (h : ∀ b ∈ d₁, ∀ x ∈ b, ¬Binds name x) :
    searchIn bs name (d₁ ++ d₂) = searchIn bs name d₂ := by
  induction d₁ with
  | nil => rfl
  | cons b d ih =>
    rw [List.cons_append, searchIn, searchFrom_none (h b List.mem_cons_self)]
    exact ih fun b' hb' => h b' (List.mem_cons_of_mem b hb')

/-! ### Bindings -/

theorem bindings_append (b b' : List Entry) : bindings (b ++ b') = bindings b ++ bindings b' := by
  rw [bindings, List.filter_append, List.map_append]
  rfl

theorem bindings_live (h : e.inode ≠ 0) : bindings [e] = [(e.name, e.inode)] := by
  rw [bindings, List.filter_cons, if_pos (decide_eq_true h)]
  rfl

theorem bindings_dead (h : e.inode = 0) : bindings [e] = [] := by
  rw [bindings, List.filter_cons, if_neg (by rw [decide_eq_true_eq]; exact fun hn => hn h)]
  rfl

theorem bindings_cons (e : Entry) (b : List Entry) : bindings (e :: b) = bindings [e] ++ bindings b :=
  bindings_append [e] b

/-- The length of an entry plays no part. -/
theorem bindings_recLen (e : Entry) (n : ℕ) : bindings [{ e with recLen := n }] = bindings [e] := by
  by_cases h : e.inode = 0
  · rw [bindings_dead h]
    exact bindings_dead h
  · rw [bindings_live h]
    exact bindings_live h

theorem mem_bindings {i : ℕ} : (name, i) ∈ bindings b ↔ ∃ e ∈ b, Binds name e ∧ e.inode = i := by
  rw [bindings, List.mem_map]
  constructor
  · rintro ⟨e, he, heq⟩
    obtain ⟨hmem, hlive⟩ := List.mem_filter.mp he
    cases heq
    exact ⟨e, hmem, ⟨of_decide_eq_true hlive, rfl⟩, rfl⟩
  · rintro ⟨e, hmem, ⟨hlive, rfl⟩, rfl⟩
    exact ⟨e, List.mem_filter.mpr ⟨hmem, decide_eq_true hlive⟩, rfl⟩

/-- The name is bound. -/
def Bound (d : Dir) (name : Name) : Prop := ∃ i, (name, i) ∈ contents d

theorem not_bound (h : ¬Bound d name) : ∀ b ∈ d, ∀ x ∈ b, ¬Binds name x := by
  intro b hb x hx hbind
  exact h ⟨x.inode, List.mem_flatMap.mpr ⟨b, hb, mem_bindings.mpr ⟨x, hx, hbind, rfl⟩⟩⟩

/-- The place of an entry in a directory. -/
structure At (d d₁ d₂ : Dir) (pre : List Entry) (e : Entry) (es : List Entry) : Prop where
  split : d = d₁ ++ (pre ++ e :: es) :: d₂

/-- A binding has a place. -/
theorem at_of_mem {i : ℕ} (h : (name, i) ∈ contents d) :
    ∃ d₁ d₂ pre e es, At d d₁ d₂ pre e es ∧ Binds name e ∧ e.inode = i := by
  obtain ⟨b, hb, hmem⟩ := List.mem_flatMap.mp h
  obtain ⟨e, he, hbind, hi⟩ := mem_bindings.mp hmem
  obtain ⟨d₁, d₂, rfl⟩ := List.append_of_mem hb
  obtain ⟨pre, es, rfl⟩ := List.append_of_mem he
  exact ⟨d₁, d₂, pre, e, es, ⟨rfl⟩, hbind, hi⟩

variable {d₁ d₂ : Dir}

theorem At.contents_eq (h : At d d₁ d₂ pre e es) (hl : e.inode ≠ 0) : contents d =
    contents d₁ ++ (bindings pre ++ (e.name, e.inode) :: bindings es ++ contents d₂) := by
  rw [h.split, contents, List.flatMap_append, List.flatMap_cons, bindings_append, bindings_cons e es,
    bindings_live hl, List.singleton_append]
  rfl

/-- Nothing else binds the name. -/
theorem At.unique (h : At d d₁ d₂ pre e es) (hw : WellFormed bs d) (he : Binds name e) :
    (∀ b ∈ d₁, ∀ x ∈ b, ¬Binds name x) ∧ (∀ x ∈ pre, ¬Binds name x) ∧ (∀ x ∈ es, ¬Binds name x) ∧
      (∀ b ∈ d₂, ∀ x ∈ b, ¬Binds name x) := by
  have hnd := hw.nodup
  rw [h.contents_eq he.1, he.2] at hnd
  have hperm : (contents d₁ ++ (bindings pre ++ (name, e.inode) :: bindings es ++ contents d₂)).Perm
      ((name, e.inode) :: (contents d₁ ++ (bindings pre ++ bindings es ++ contents d₂))) := by
    refine List.Perm.trans ?_ List.perm_middle
    refine List.Perm.append_left _ ?_
    rw [List.append_assoc, List.append_assoc, List.cons_append]
    exact List.perm_middle
  have hnot := ((hperm.map Prod.fst).nodup_iff.mp hnd)
  rw [List.map_cons, List.nodup_cons] at hnot
  have hno : ∀ i, (name, i) ∉ contents d₁ ++ (bindings pre ++ bindings es ++ contents d₂) :=
    fun i hi => hnot.1 (List.mem_map.mpr ⟨_, hi, rfl⟩)
  refine ⟨?_, ?_, ?_, ?_⟩
  · refine not_bound fun ⟨i, hi⟩ => hno i (List.mem_append_left _ hi)
  · intro x hx hb
    refine hno x.inode (List.mem_append_right _ (List.mem_append_left _ (List.mem_append_left _ ?_)))
    exact mem_bindings.mpr ⟨x, hx, hb, rfl⟩
  · intro x hx hb
    refine hno x.inode (List.mem_append_right _ (List.mem_append_left _ (List.mem_append_right _ ?_)))
    exact mem_bindings.mpr ⟨x, hx, hb, rfl⟩
  · refine not_bound fun ⟨i, hi⟩ => hno i (List.mem_append_right _ (List.mem_append_right _ hi))

theorem At.tiled (h : At d d₁ d₂ pre e es) (hw : WellFormed bs d) : Tiled bs (pre ++ e :: es) :=
  hw.tiled _ (h.split ▸ List.mem_append_right _ List.mem_cons_self)

/-- What `ext3_search` makes of a bound name. -/
theorem At.searchIn_eq (h : At d d₁ d₂ pre e es) (hw : WellFormed bs d) (he : Binds name e) :
    searchIn bs name d = if ∀ x ∈ pre, x.name ≠ [] then some (e.inode, span pre) else none := by
  obtain ⟨h₁, h₂, h₃, h₄⟩ := h.unique hw he
  have ht := h.tiled hw
  have hne : name ≠ [] := he.2 ▸ ht.named e (List.mem_append_right _ List.mem_cons_self) he.1
  have hfrom : searchFrom bs name (span []) (pre ++ e :: es) = _ :=
    searchFrom_eq [] ht.long ht.whole he hne h₂
  have h0 : span [] = 0 := rfl
  rw [h0, Nat.zero_add] at hfrom
  rw [h.split, searchIn_append h₁, searchIn, hfrom]
  split_ifs with hseen
  · rfl
  · exact searchIn_none h₄

/-- Whether an entry binds a name that is neither `.` nor `..`. -/
def Other (e : Entry) : Prop := e.inode ≠ 0 ∧ e.name ≠ dot ∧ e.name ≠ dotdot

/-- The walker of `ext3_dir_is_empty` meets an entry that is not hidden. -/
theorem othersFrom_iff (l : List Entry) (ht : Tiled bs (l ++ b)) : othersFrom bs (span l) b = true ↔
    ∃ pre e es, b = pre ++ e :: es ∧ Other e ∧ ∀ x ∈ pre, x.name ≠ [] := by
  induction b generalizing l with
  | nil =>
    refine ⟨fun h => Bool.noConfusion h, ?_⟩
    rintro ⟨pre, e, es, h, -⟩
    exact absurd h.symm (List.append_ne_nil_of_right_ne_nil pre (List.cons_ne_nil e es))
  | cons x b ih =>
    have hsplit : l ++ x :: b = (l ++ [x]) ++ b := by rw [List.append_assoc, List.singleton_append]
    have hspan : span (l ++ [x]) = span l + x.recLen := by
      rw [span_append, span_cons]
      rfl
    have hrest := ih (l ++ [x]) (hsplit ▸ ht)
    rw [hspan] at hrest
    rw [othersFrom, stops_tiled ht.long ht.whole]
    by_cases hxn : x.name = []
    · rw [decide_eq_true hxn, if_pos rfl]
      refine ⟨fun h => absurd h (by decide), ?_⟩
      rintro ⟨pre, e, es, h, ho, hpre⟩
      cases pre with
      | nil =>
        cases h
        exact absurd hxn (ht.named x (List.mem_append_right _ List.mem_cons_self) ho.1)
      | cons y pre =>
        cases h
        exact absurd hxn (hpre x List.mem_cons_self)
    · rw [decide_eq_false hxn, if_neg (by decide)]
      by_cases ho : Other x
      · rw [if_pos ⟨ho.1, ho.2⟩]
        exact ⟨fun _ => ⟨[], x, b, rfl, ho, fun y hy => absurd hy List.not_mem_nil⟩, fun _ => rfl⟩
      · have ho' : ¬(x.inode ≠ 0 ∧ x.name ≠ dot ∧ x.name ≠ dotdot) := ho
        rw [if_neg ho', hrest]
        constructor
        · rintro ⟨pre, e, es, rfl, he, hpre⟩
          exact ⟨x :: pre, e, es, rfl, he, List.forall_mem_cons.mpr ⟨hxn, hpre⟩⟩
        · rintro ⟨pre, e, es, h, he, hpre⟩
          cases pre with
          | nil =>
            cases h
            exact absurd he ho
          | cons y pre =>
            cases h
            exact ⟨pre, e, es, rfl, he, (List.forall_mem_cons.mp hpre).2⟩

/-! ### Writing -/

/-- In entries that fill `used` bytes the walk ends at the last. -/
theorem toLast_eq {used : ℕ} (init : List Entry) (last : Entry) (l : List Entry)
    (hr : Roomy (l ++ (init ++ [last]))) (hw : span (l ++ (init ++ [last])) = used) :
    ∃ x xs, init ++ [last] = x :: xs ∧ toLast used l (span l) x xs = (l ++ init, span (l ++ init), last) := by
  induction init generalizing l with
  | nil => exact ⟨last, [], rfl, by rw [toLast, List.append_nil]⟩
  | cons y init ih =>
    have hsplit : l ++ (y :: init ++ [last]) = (l ++ [y]) ++ (init ++ [last]) := by
      rw [List.cons_append, List.append_assoc, List.singleton_append]
    obtain ⟨x, xs, hx, hgo⟩ := ih (l ++ [y]) (hsplit ▸ hr) (hsplit ▸ hw)
    refine ⟨y, x :: xs, by rw [List.cons_append, hx], ?_⟩
    obtain ⟨h12, hneed⟩ := hr y (List.mem_append_right _ List.mem_cons_self)
    have hrest : 0 < span (x :: xs) := by
      refine span_pos (fun z hz => hr z ?_) (List.cons_ne_nil x xs)
      rw [← hx] at hz
      exact List.mem_append_right _ (List.mem_cons_of_mem y hz)
    have hspan : span (l ++ [y]) = span l + y.recLen := by
      rw [span_append, span_cons]
      rfl
    rw [List.cons_append, hx, span_append, span_cons] at hw
    rw [hspan, List.append_assoc, List.singleton_append] at hgo
    rw [toLast, if_neg (by omega), hgo]

/-- The free space at the end of a block. -/
def room (b : Block) : ℕ :=
  match b.getLast? with
  | none => 0
  | some e => if e.inode = 0 then e.recLen else e.recLen - needLen e.name.length

/-- Whether the first entry of a block is dead. -/
def FirstDead (b : Block) : Prop := ∃ e es, b = e :: es ∧ e.inode = 0

instance decidableFirstDead : ∀ b : Block, Decidable (FirstDead b)
  | [] => isFalse nofun
  | e :: es =>
    if h : e.inode = 0 then isTrue ⟨e, es, rfl, h⟩
    else isFalse fun ⟨_, _, he, h'⟩ => h (by cases he; exact h')

/-- Whether `write_child` puts the entry into this block. -/
def takes (c : Child) (b : Block) : Bool := decide (FirstDead b ∨ needLen c.name.length ≤ room b)

theorem needLen_ge (n : ℕ) : 8 + n ≤ needLen n ∧ needLen n ≤ 11 + n := by
  rw [needLen]
  omega

theorem needLen_pos {n : ℕ} (h : 0 < n) : 12 ≤ needLen n := by
  rw [needLen]
  omega

/-- `write_child` in a block whose first entry is live. -/
theorem writeBlock_live (hn : c.name ≠ []) (hi : c.ino ≠ 0) (ht : Tiled bs b) (hb : b ≠ [])
    (hf : ¬FirstDead b) : (takes c b = false ∧ writeBlock bs c b = none) ∨ (takes c b = true ∧
      ∃ b', writeBlock bs c b = some (b', c.ends (bs - room b)) ∧ Tiled bs b' ∧
        bindings b' = bindings b ++ [(c.name, c.ino)]) := by
  obtain ⟨init, last, rfl⟩ : ∃ init last, b = init ++ [last] :=
    ⟨b.dropLast, b.getLast hb, (List.dropLast_append_getLast hb).symm⟩
  obtain ⟨x, xs, hx, hgo⟩ := toLast_eq init last [] ht.long ht.whole
  rw [List.nil_append] at hgo
  have h0 : span [] = 0 := rfl
  rw [h0] at hgo
  have hlast := ht.long last (List.mem_append_right _ (List.mem_singleton_self last))
  have hspan : span init + last.recLen = bs := by
    have hw := ht.whole
    rw [← span, span_append, span_cons] at hw
    exact hw
  have hlive : x.inode ≠ 0 := fun h => hf ⟨x, xs, hx, h⟩
  have hheal : heal bs (span init) last = last := by
    rw [heal, if_neg (by omega)]
  have hinit : ∀ e ∈ init, e ∈ init ++ [last] := fun e he => List.mem_append_left _ he
  have hc12 := needLen_pos (List.length_pos_iff.mpr hn)
  have hroom : room (init ++ [last]) =
      if last.inode = 0 then last.recLen else last.recLen - needLen last.name.length := by
    rw [room, List.getLast?_concat]
  have htakes : takes c (init ++ [last]) = decide (needLen c.name.length ≤ room (init ++ [last])) :=
    decide_eq_decide.mpr ⟨fun h => h.resolve_left hf, .inr⟩
  rw [htakes, hx, writeBlock, if_neg hlive, hgo, ← hx]
  dsimp only
  rw [hheal]
  by_cases hdead : last.inode = 0
  · -- the last entry is dead and is used again
    rw [if_pos hdead] at hroom
    rw [if_pos hdead, hroom]
    by_cases hfit : needLen c.name.length ≤ last.recLen
    · rw [if_pos hfit]
      refine .inr ⟨decide_eq_true hfit, init ++ [c.entry last.recLen], ?_, ⟨?_, ?_, ?_⟩, ?_⟩
      · have hpos : span init = bs - last.recLen := by omega
        rw [hpos]
      · intro e he
        rcases List.mem_append.mp he with he | he
        · exact ht.long e (hinit e he)
        · rw [List.mem_singleton.mp he]
          exact ⟨hlast.1, hfit⟩
      · intro e he hl
        rcases List.mem_append.mp he with he | he
        · exact ht.named e (hinit e he) hl
        · rw [List.mem_singleton.mp he]
          exact hn
      · rw [← span, span_append, span_cons]
        exact hspan
      · have hi' : (c.entry last.recLen).inode ≠ 0 := hi
        rw [bindings_append, bindings_append, bindings_dead hdead, bindings_live hi', List.append_nil]
        rfl
    · rw [if_neg hfit]
      exact .inl ⟨decide_eq_false hfit, rfl⟩
  · -- the last entry is live and is split
    rw [if_neg hdead] at hroom
    rw [if_neg hdead, hroom]
    by_cases hfit : needLen c.name.length ≤ last.recLen - needLen last.name.length
    · rw [if_pos hfit]
      have hname := ht.named last (List.mem_append_right _ (List.mem_singleton_self last)) hdead
      have hl12 := needLen_pos (List.length_pos_iff.mpr hname)
      refine .inr ⟨decide_eq_true hfit, init ++ [{ last with recLen := needLen last.name.length },
        c.entry (last.recLen - needLen last.name.length)], ?_, ⟨?_, ?_, ?_⟩, ?_⟩
      · have hpos : span init + needLen last.name.length =
            bs - (last.recLen - needLen last.name.length) := by omega
        rw [hpos]
      · intro e he
        rcases List.mem_append.mp he with he | he
        · exact ht.long e (hinit e he)
        · rcases List.mem_cons.mp he with rfl | he
          · exact ⟨hl12, Nat.le_refl _⟩
          · rw [List.mem_singleton.mp he]
            exact ⟨Nat.le_trans hc12 hfit, hfit⟩
      · intro e he hl
        rcases List.mem_append.mp he with he | he
        · exact ht.named e (hinit e he) hl
        · rcases List.mem_cons.mp he with rfl | he
          · exact hname
          · rw [List.mem_singleton.mp he]
            exact hn
      · rw [← span, span_append, span_cons, span_cons]
        show span init + (needLen last.name.length + (last.recLen - needLen last.name.length + 0)) = bs
        omega
      · have hi' : (c.entry (last.recLen - needLen last.name.length)).inode ≠ 0 := hi
        rw [bindings_append, bindings_append, bindings_cons { last with recLen := _ },
          bindings_recLen, bindings_live hi', ← List.append_assoc]
        rfl
    · rw [if_neg hfit]
      exact .inl ⟨decide_eq_false hfit, rfl⟩

theorem Tiled.ne_nil (h : Tiled bs b) (hbs : 0 < bs) : b ≠ [] := by
  rintro rfl
  have hw := h.whole
  rw [List.map_nil, List.sum_nil] at hw
  omega

/-- The three ways of `write_child`: a block of its own, a block with a dead first entry, and the end of
    a block. -/
theorem writeChild_cases (grow : Bool) (hn : c.name ≠ []) (hi : c.ino ≠ 0) (hbs : 0 < bs)
    (ht : ∀ b ∈ d, Tiled bs b) :
    (d.find? (takes c) = none ∧ writeChild bs grow c d =
      if grow then some (d ++ [[c.entry bs]], c.ends 0) else none) ∨
    ∃ d₁ b d₂, d.find? (takes c) = some b ∧ d = d₁ ++ b :: d₂ ∧
      ((FirstDead b ∧ writeChild bs grow c d = some (d₁ ++ [c.entry bs] :: d₂, c.ends 0)) ∨
      (¬FirstDead b ∧ ∃ b', writeChild bs grow c d = some (d₁ ++ b' :: d₂, c.ends (bs - room b)) ∧
        Tiled bs b' ∧ bindings b' = bindings b ++ [(c.name, c.ino)])) := by
  induction d with
  | nil => exact .inl ⟨rfl, rfl⟩
  | cons b d ih =>
    have htb := ht b List.mem_cons_self
    by_cases hf : FirstDead b
    · -- the block is taken as a whole
      refine .inr ⟨[], b, d, ?_, rfl, .inl ⟨hf, ?_⟩⟩
      · have htk : takes c b = true := decide_eq_true (.inl hf)
        rw [List.find?_cons_of_pos htk]
      · obtain ⟨e, es, rfl, he⟩ := hf
        rw [writeChild, writeBlock, if_pos he]
        rfl
    · rcases writeBlock_live hn hi htb (htb.ne_nil hbs) hf with ⟨htk, hwb⟩ | ⟨htk, b', hwb, ht', hb'⟩
      · rw [List.find?_cons_of_neg (by rw [htk]; decide), writeChild, hwb]
        dsimp only
        rcases ih fun x hx => ht x (List.mem_cons_of_mem b hx) with ⟨h₁, h₂⟩ | ⟨d₁, b₁, d₂, h₁, rfl, h₂⟩
        · refine .inl ⟨h₁, ?_⟩
          rw [h₂]
          split_ifs
          · rfl
          · rfl
        · refine .inr ⟨b :: d₁, b₁, d₂, h₁, rfl, ?_⟩
          rcases h₂ with ⟨hf', hwc⟩ | ⟨hf', b', hwc, h₃⟩
          · rw [hwc]
            exact .inl ⟨hf', rfl⟩
          · rw [hwc]
            exact .inr ⟨hf', b', rfl, h₃⟩
      · refine .inr ⟨[], b, d, ?_, rfl, .inr ⟨hf, b', ?_, ht', hb'⟩⟩
        · rw [List.find?_cons_of_pos htk]
        · rw [writeChild, hwb]
          rfl

/-! ### Removing -/

/-- What is left of a block when an entry is removed. -/
def removed (bs : ℕ) (pre : List Entry) (e : Entry) (es : List Entry) : Block :=
  if e.recLen = bs then pre ++ { e with inode := 0 } :: es
  else if pre ≠ [] ∧ span pre + e.recLen = bs then swallow bs (span pre) pre
  else extend bs (bs - e.recLen) (pre ++ es)

theorem rmFrom_none (h : ∀ x ∈ es, ¬Binds name x) (l : List Entry) (pos : ℕ) :
    rmFrom bs name l pos es = none := by
  induction es generalizing l pos with
  | nil => rfl
  | cons x es ih =>
    have hx := h x List.mem_cons_self
    rw [rmFrom]
    by_cases h₁ : stops bs pos x = true
    · rw [if_pos h₁]
    · rw [if_neg h₁, if_neg (show ¬(x.inode ≠ 0 ∧ x.name = name) from hx)]
      exact ih (fun y hy => h y (List.mem_cons_of_mem x hy)) _ _

theorem rmFrom_eq (l : List Entry) (hr : Roomy (l ++ (pre ++ e :: es)))
    (hw : span (l ++ (pre ++ e :: es)) = bs) (he : Binds name e) (hne : name ≠ [])
    (hpre : ∀ x ∈ pre, ¬Binds name x) :
    rmFrom bs name l (span l) (pre ++ e :: es) =
      if ∀ x ∈ pre, x.name ≠ [] then some (removed bs (l ++ pre) e es) else none := by
  induction pre generalizing l with
  | nil =>
    have hstop : stops bs (span l) e = false := by
      rw [stops_tiled hr hw, he.2]
      exact decide_eq_false hne
    rw [List.nil_append, rmFrom, hstop, if_neg (by decide), if_pos ⟨he.1, he.2⟩,
      if_pos fun x hx => absurd hx List.not_mem_nil, List.append_nil, removed]
    split_ifs
    · rfl
    · rfl
    · rfl
  | cons x pre ih =>
    have hx : ¬(x.inode ≠ 0 ∧ x.name = name) := hpre x List.mem_cons_self
    have hsplit : l ++ (x :: pre ++ e :: es) = (l ++ [x]) ++ (pre ++ e :: es) := by
      rw [List.cons_append, List.append_assoc, List.singleton_append]
    have hspan : span (l ++ [x]) = span l + x.recLen := by
      rw [span_append, span_cons]
      rfl
    have hrest := ih (l ++ [x]) (hsplit ▸ hr) (hsplit ▸ hw) fun y hy => hpre y (List.mem_cons_of_mem x hy)
    rw [hspan, List.append_assoc, List.singleton_append] at hrest
    rw [List.cons_append] at hr hw
    rw [List.cons_append, rmFrom, stops_tiled hr hw]
    by_cases hxn : x.name = []
    · rw [decide_eq_true hxn, if_pos rfl, if_neg fun h => h x List.mem_cons_self hxn]
    · rw [decide_eq_false hxn, if_neg (by decide), if_neg hx, hrest]
      refine if_congr ?_ rfl rfl
      rw [List.forall_mem_cons]
      exact ⟨fun h => ⟨hxn, h⟩, fun h => h.2⟩

theorem swallow_eq (bs pos : ℕ) (init : List Entry) (last : Entry) : swallow bs pos (init ++ [last]) =
    init ++ [{ last with recLen := bs - (pos - last.recLen) }] := by
  induction init with
  | nil => rfl
  | cons x init ih =>
    cases init with
    | nil => rfl
    | cons y init => exact congrArg (x :: ·) ih

theorem extend_eq {used : ℕ} {init : List Entry} {last : Entry} (hr : Roomy (init ++ [last]))
    (hw : span (init ++ [last]) = used) :
    extend bs used (init ++ [last]) = init ++ [{ last with recLen := bs - span init }] := by
  obtain ⟨x, xs, hx, hgo⟩ := toLast_eq init last [] hr hw
  have h0 : span [] = 0 := rfl
  rw [List.nil_append, h0] at hgo
  rw [hx, extend, hgo]

/-- A last entry that is made longer. -/
theorem tiled_stretch {init : List Entry} {last : Entry} (hr : Roomy (init ++ [last]))
    (hn : ∀ x ∈ init ++ [last], x.inode ≠ 0 → x.name ≠ []) (hle : span (init ++ [last]) ≤ bs) :
    Tiled bs (init ++ [{ last with recLen := bs - span init }]) ∧
      bindings (init ++ [{ last with recLen := bs - span init }]) = bindings (init ++ [last]) := by
  have hlast := hr last (List.mem_append_right _ (List.mem_singleton_self last))
  rw [span_append, span_cons] at hle
  have h0 : span [] = 0 := rfl
  refine ⟨⟨?_, ?_, ?_⟩, ?_⟩
  · intro x hx
    rcases List.mem_append.mp hx with hx | hx
    · exact hr x (List.mem_append_left _ hx)
    · rw [List.mem_singleton.mp hx]
      dsimp only
      omega
  · intro x hx hl
    rcases List.mem_append.mp hx with hx | hx
    · exact hn x (List.mem_append_left _ hx) hl
    · rw [List.mem_singleton.mp hx] at hl ⊢
      exact hn last (List.mem_append_right _ (List.mem_singleton_self last)) hl
  · rw [← span, span_append, span_cons]
    dsimp only
    omega
  · rw [bindings_append, bindings_append, bindings_recLen]

theorem removed_spec (ht : Tiled bs (pre ++ e :: es)) :
    Tiled bs (removed bs pre e es) ∧ bindings (removed bs pre e es) = bindings pre ++ bindings es := by
  have hw : span pre + (e.recLen + span es) = bs := by
    have hw := ht.whole
    rw [← span, span_append, span_cons] at hw
    exact hw
  have hsub : ∀ x ∈ pre ++ es, x ∈ pre ++ e :: es := by
    intro x hx
    rcases List.mem_append.mp hx with hx | hx
    · exact List.mem_append_left _ hx
    · exact List.mem_append_right _ (List.mem_cons_of_mem e hx)
  have hroomy : Roomy (pre ++ es) := fun x hx => ht.long x (hsub x hx)
  have hnamed : ∀ x ∈ pre ++ es, x.inode ≠ 0 → x.name ≠ [] := fun x hx => ht.named x (hsub x hx)
  have h12 := ht.long e (List.mem_append_right _ List.mem_cons_self)
  rw [removed]
  split_ifs with h₁ h₂
  · -- the only entry of the block
    have hpre : pre = [] := by
      by_contra hne
      have := span_pos (fun x hx => hroomy x (List.mem_append_left _ hx)) hne
      omega
    have hes : es = [] := by
      by_contra hne
      have := span_pos (fun x hx => hroomy x (List.mem_append_right _ hx)) hne
      omega
    subst hpre
    subst hes
    refine ⟨⟨?_, ?_, ?_⟩, ?_⟩
    · intro x hx
      rw [List.nil_append] at hx
      rw [List.mem_singleton.mp hx]
      exact h12
    · intro x hx hl
      rw [List.nil_append] at hx
      rw [List.mem_singleton.mp hx] at hl
      exact absurd rfl hl
    · exact ht.whole
    · exact bindings_dead rfl
  · -- the last of several
    have hes : es = [] := by
      by_contra hne
      have := span_pos (fun x hx => hroomy x (List.mem_append_right _ hx)) hne
      omega
    subst hes
    rw [List.append_nil] at hroomy hnamed
    obtain ⟨init, last, rfl⟩ : ∃ init last, pre = init ++ [last] :=
      ⟨_, _, (List.dropLast_append_getLast h₂.1).symm⟩
    have hspan : bs - (span (init ++ [last]) - last.recLen) = bs - span init := by
      rw [span_append, span_cons]
      have h0 : span [] = 0 := rfl
      omega
    obtain ⟨h₃, h₄⟩ := tiled_stretch hroomy hnamed (show span (init ++ [last]) ≤ bs by omega)
    rw [swallow_eq, hspan]
    exact ⟨h₃, h₄.trans (List.append_nil _).symm⟩
  · -- the entries behind it are moved up
    have hne : pre ++ es ≠ [] := by
      intro hnil
      obtain ⟨rfl, rfl⟩ := List.append_eq_nil_iff.mp hnil
      have h0 : span [] = 0 := rfl
      omega
    obtain ⟨init, last, hil⟩ : ∃ init last, pre ++ es = init ++ [last] :=
      ⟨_, _, (List.dropLast_append_getLast hne).symm⟩
    have hspan : span (pre ++ es) = bs - e.recLen := by
      rw [span_append]
      omega
    rw [hil] at hroomy hnamed hspan
    obtain ⟨h₃, h₄⟩ := tiled_stretch hroomy hnamed (show span (init ++ [last]) ≤ bs by omega)
    rw [hil, extend_eq hroomy hspan]
    refine ⟨h₃, h₄.trans ?_⟩
    rw [← hil, bindings_append]

theorem rmChild_none (h : ∀ b ∈ d, ∀ x ∈ b, ¬Binds name x) : rmChild bs name d = none := by
  induction d with
  | nil => rfl
  | cons b d ih =>
    rw [rmChild, rmFrom_none (h b List.mem_cons_self), ih fun b' hb' => h b' (List.mem_cons_of_mem b hb')]
    rfl

theorem rmChild_append {d₁ d₂ : Dir} (h : ∀ b ∈ d₁, ∀ x ∈ b, ¬Binds name x) :
    rmChild bs name (d₁ ++ d₂) = (rmChild bs name d₂).map (d₁ ++ ·) := by
  induction d₁ with
  | nil =>
    rw [List.nil_append]
    cases rmChild bs name d₂ with
    | none => rfl
    | some x => rfl
  | cons b d ih =>
    rw [List.cons_append, rmChild, rmFrom_none (h b List.mem_cons_self),
      ih fun b' hb' => h b' (List.mem_cons_of_mem b hb')]
    cases rmChild bs name d₂ with
    | none => rfl
    | some x => rfl

/-- What `ext3_rm_child` makes of a bound name. -/
theorem At.rmChild_eq (h : At d d₁ d₂ pre e es) (hw : WellFormed bs d) (he : Binds name e) :
    rmChild bs name d = if ∀ x ∈ pre, x.name ≠ [] then some (d₁ ++ removed bs pre e es :: d₂) else none := by
  obtain ⟨h₁, h₂, -, h₄⟩ := h.unique hw he
  have ht := h.tiled hw
  have hne : name ≠ [] := he.2 ▸ ht.named e (List.mem_append_right _ List.mem_cons_self) he.1
  have hfrom : rmFrom bs name [] (span []) (pre ++ e :: es) = _ :=
    rmFrom_eq [] ht.long ht.whole he hne h₂
  have h0 : span [] = 0 := rfl
  rw [h0, List.nil_append] at hfrom
  rw [h.split, rmChild_append h₁, rmChild, hfrom]
  split_ifs with hseen
  · rfl
  · dsimp only
    rw [rmChild_none h₄]
    rfl

/-! ### The operations and what they should do -/

/-- The requests; `wantDir` says whether `ext3_search` is given a `dirp` to copy the entry to. -/
inductive Op where
  | write (c : Child) (grow : Bool)
  | rm (name : Name)
  | search (name : Name) (wantDir : Bool)
  | isEmpty

/-- The directory after a request; one that fails leaves it as it is. -/
def next (bs : ℕ) (d : Dir) : Op → Dir
  | .write c grow => ((writeChild bs grow c d).map Prod.fst).getD d
  | .rm name => (rmChild bs name d).getD d
  | .search _ _ => d
  | .isEmpty => d

/-- The requests that are made. -/
def Legal (d : Dir) : Op → Prop
  | .write c _ => c.ino ≠ 0 ∧ c.name ≠ [] ∧ c.name.length ≤ 255 ∧ ¬Bound d c.name
  | _ => True

/-- The request does what it does to a map, and stays inside the buffer of the block. -/
def Meets (bs : ℕ) (d : Dir) : Op → Prop
  | .write c grow => (grow = true → writeChild bs grow c d ≠ none) ∧
      ∀ d' n, writeChild bs grow c d = some (d', n) →
        WellFormed bs d' ∧ (contents d').Perm ((c.name, c.ino) :: contents d) ∧ n ≤ maxBlockSize
  | .rm name => (∀ i, (name, i) ∈ contents d → ∃ d', rmChild bs name d = some d' ∧ WellFormed bs d' ∧
      (contents d).Perm ((name, i) :: contents d')) ∧ (¬Bound d name → rmChild bs name d = none)
  | .search name wantDir => (∀ i, (name, i) ∈ contents d → search bs name d = i) ∧
      (¬Bound d name → search bs name d = 0) ∧
        (wantDir = true → ∀ r, searchIn bs name d = some r → r.2 + sizeofDirT ≤ maxBlockSize)
  | .isEmpty => dirIsEmpty bs d = true ↔ ∀ x ∈ contents d, x.1 = dot ∨ x.1 = dotdot

/-- No entry without a name stands before the entry of this name in its block. -/
def Seen (d : Dir) (name : Name) : Prop :=
  ∀ d₁ d₂ pre e es, At d d₁ d₂ pre e es → Binds name e → ∀ x ∈ pre, x.name ≠ []

/-- The condition on a request. -/
def Cond (bs : ℕ) (d : Dir) : Op → Prop
  | .write c _ => ∀ b, d.find? (takes c) = some b →
      (FirstDead b → bindings b = []) ∧ (¬FirstDead b → c.ends (bs - room b) ≤ maxBlockSize)
  | .rm name => Seen d name
  | .search name wantDir => Seen d name ∧ (wantDir = true → ∀ d₁ d₂ pre e es, At d d₁ d₂ pre e es →
      Binds name e → span pre + sizeofDirT ≤ maxBlockSize)
  | .isEmpty => (∃ x ∈ contents d, x.1 ≠ dot ∧ x.1 ≠ dotdot) →
      ∃ d₁ d₂ pre e es, At d d₁ d₂ pre e es ∧ Other e ∧ ∀ x ∈ pre, x.name ≠ []

/-! ### When they do it -/

theorem WellFormed.pos (h : WellFormed bs d) : 1024 ≤ bs ∧ bs ≤ 4096 := by
  rcases h.size with h | h | h
  · omega
  · omega
  · omega

theorem contents_append (d₁ d₂ : Dir) : contents (d₁ ++ d₂) = contents d₁ ++ contents d₂ := by
  rw [contents, List.flatMap_append]
  rfl

theorem contents_cons (b : Block) (d : Dir) : contents (b :: d) = bindings b ++ contents d := by
  rw [contents, List.flatMap_cons]
  rfl

/-- A block of one entry. -/
theorem tiled_entry (hbs : 1024 ≤ bs) (hn : c.name ≠ []) (hl : c.name.length ≤ 255) :
    Tiled bs [c.entry bs] := by
  have hneed := (needLen_ge c.name.length).2
  refine ⟨?_, ?_, ?_⟩
  · intro x hx
    rw [List.mem_singleton.mp hx]
    show 12 ≤ bs ∧ needLen c.name.length ≤ bs
    omega
  · intro x hx _
    rw [List.mem_singleton.mp hx]
    exact hn
  · exact Nat.add_zero bs

/-- A directory with one block replaced. -/
theorem wellFormed_replace {b b' : Block} (hw : WellFormed bs (d₁ ++ b :: d₂)) (ht : Tiled bs b')
    (hnd : ((contents (d₁ ++ b' :: d₂)).map Prod.fst).Nodup) : WellFormed bs (d₁ ++ b' :: d₂) := by
  refine ⟨hw.size, fun x hx => ?_, hnd⟩
  rcases List.mem_append.mp hx with hx | hx
  · exact hw.tiled x (List.mem_append_left _ hx)
  · rcases List.mem_cons.mp hx with rfl | hx
    · exact ht
    · exact hw.tiled x (List.mem_append_right _ (List.mem_cons_of_mem b hx))

theorem nodup_bound {l : List (Name × ℕ)} (hw : WellFormed bs d) (hb : ¬Bound d c.name)
    (hp : l.Perm ((c.name, c.ino) :: contents d)) : (l.map Prod.fst).Nodup := by
  refine (hp.map Prod.fst).nodup_iff.mpr ?_
  rw [List.map_cons, List.nodup_cons]
  refine ⟨fun h => ?_, hw.nodup⟩
  obtain ⟨⟨a, i⟩, hx, rfl⟩ := List.mem_map.mp h
  exact hb ⟨i, hx⟩

theorem meets_write {grow : Bool} (hw : WellFormed bs d) (hl : Legal d (.write c grow)) :
    Meets bs d (.write c grow) ↔ Cond bs d (.write c grow) := by
  obtain ⟨hi, hn, hlen, hb⟩ := hl
  obtain ⟨hbs, hbs'⟩ := hw.pos
  have hends : c.ends 0 ≤ maxBlockSize := by
    rw [Child.ends, maxBlockSize]
    omega
  have hone := tiled_entry hbs hn hlen
  have hi' : (c.entry bs).inode ≠ 0 := hi
  have hbind : bindings [c.entry bs] = [(c.name, c.ino)] := bindings_live hi'
  rcases writeChild_cases grow hn hi (by omega) hw.tiled with ⟨hf, hwc⟩ | ⟨d₁, b, d₂, hf, rfl, hcase⟩
  · -- a block of its own
    have hcond : Cond bs d (.write c grow) := fun b hb' => by
      rw [hf] at hb'
      cases hb'
    refine ⟨fun _ => hcond, fun _ => ⟨fun hg => ?_, fun d' n h => ?_⟩⟩
    · rw [hwc, if_pos hg]
      exact nofun
    · rw [hwc] at h
      split_ifs at h
      cases h
      have hperm : (contents (d ++ [[c.entry bs]])).Perm ((c.name, c.ino) :: contents d) := by
        rw [contents_append, contents_cons, hbind]
        exact List.perm_append_comm
      refine ⟨⟨hw.size, fun x hx => ?_, nodup_bound hw hb hperm⟩, hperm, hends⟩
      rcases List.mem_append.mp hx with hx | hx
      · exact hw.tiled x hx
      · rw [List.mem_singleton.mp hx]
        exact hone
  · rcases hcase with ⟨hfd, hwc⟩ | ⟨hfd, b', hwc, ht', hb'⟩
    · -- a block with a dead first entry
      have hcont : contents (d₁ ++ [c.entry bs] :: d₂) =
          contents d₁ ++ ((c.name, c.ino) :: contents d₂) := by
        rw [contents_append, contents_cons, hbind, List.singleton_append]
      constructor
      · intro hm b₁ hb₁
        rw [hf] at hb₁
        cases hb₁
        refine ⟨fun _ => ?_, fun h => absurd hfd h⟩
        have hlen' := (hm.2 _ _ hwc).2.1.length_eq
        rw [hcont, contents_append, contents_cons, List.length_cons, List.length_append,
          List.length_append, List.length_append, List.length_cons] at hlen'
        exact List.length_eq_zero_iff.mp (by omega)
      · intro hc
        have hnil := (hc b hf).1 hfd
        refine ⟨fun _ => by rw [hwc]; exact nofun, fun d' n h => ?_⟩
        rw [hwc] at h
        cases h
        have hperm : (contents (d₁ ++ [c.entry bs] :: d₂)).Perm
            ((c.name, c.ino) :: contents (d₁ ++ b :: d₂)) := by
          rw [hcont, contents_append, contents_cons, hnil, List.nil_append]
          exact List.perm_middle
        exact ⟨wellFormed_replace hw hone (nodup_bound hw hb hperm), hperm, hends⟩
    · -- the end of a block
      have hperm : (contents (d₁ ++ b' :: d₂)).Perm ((c.name, c.ino) :: contents (d₁ ++ b :: d₂)) := by
        rw [contents_append, contents_cons, hb', contents_append, contents_cons, List.append_assoc,
          List.singleton_append]
        refine List.Perm.trans ?_ List.perm_middle
        exact List.Perm.append_left _ List.perm_middle
      constructor
      · intro hm b₁ hb₁
        rw [hf] at hb₁
        cases hb₁
        exact ⟨fun h => absurd h hfd, fun _ => (hm.2 _ _ hwc).2.2⟩
      · intro hc
        refine ⟨fun _ => by rw [hwc]; exact nofun, fun d' n h => ?_⟩
        rw [hwc] at h
        cases h
        exact ⟨wellFormed_replace hw ht' (nodup_bound hw hb hperm), hperm, (hc b hf).2 hfd⟩

theorem meets_rm (hw : WellFormed bs d) : Meets bs d (.rm name) ↔ Cond bs d (.rm name) := by
  constructor
  · intro hm d₁ d₂ pre e es ha he
    have hmem : (name, e.inode) ∈ contents d := by
      rw [ha.contents_eq he.1, he.2]
      exact List.mem_append_right _ (List.mem_append_left _
        (List.mem_append_right _ List.mem_cons_self))
    obtain ⟨d', hrm, -⟩ := hm.1 e.inode hmem
    by_contra hseen
    rw [ha.rmChild_eq hw he, if_neg hseen] at hrm
    cases hrm
  · intro hc
    refine ⟨fun i hi => ?_, fun hb => rmChild_none (not_bound hb)⟩
    obtain ⟨d₁, d₂, pre, e, es, ha, he, rfl⟩ := at_of_mem hi
    obtain ⟨ht, hbind⟩ := removed_spec (ha.tiled hw)
    have hperm : (contents d).Perm ((name, e.inode) :: contents (d₁ ++ removed bs pre e es :: d₂)) := by
      rw [ha.contents_eq he.1, he.2, contents_append, contents_cons, hbind]
      refine List.Perm.trans ?_ List.perm_middle
      refine List.Perm.append_left _ ?_
      rw [List.append_assoc, List.append_assoc, List.cons_append]
      exact List.perm_middle
    refine ⟨_, (ha.rmChild_eq hw he).trans (if_pos (hc d₁ d₂ pre e es ha he)), ?_, hperm⟩
    have hw' := hw
    rw [ha.split] at hw'
    refine wellFormed_replace hw' ht ?_
    have hnd := (hperm.map Prod.fst).nodup_iff.mp hw.nodup
    rw [List.map_cons, List.nodup_cons] at hnd
    exact hnd.2

theorem meets_search {wantDir : Bool} (hw : WellFormed bs d) :
    Meets bs d (.search name wantDir) ↔ Cond bs d (.search name wantDir) := by
  constructor
  · rintro ⟨h₁, -, h₃⟩
    have hseen : Seen d name := by
      intro d₁ d₂ pre e es ha he
      have hmem : (name, e.inode) ∈ contents d := by
        rw [ha.contents_eq he.1, he.2]
        exact List.mem_append_right _ (List.mem_append_left _
          (List.mem_append_right _ List.mem_cons_self))
      have hs := h₁ e.inode hmem
      by_contra hseen
      rw [search, ha.searchIn_eq hw he, if_neg hseen] at hs
      exact he.1 hs.symm
    refine ⟨hseen, fun hd d₁ d₂ pre e es ha he => ?_⟩
    exact h₃ hd _ ((ha.searchIn_eq hw he).trans (if_pos (hseen d₁ d₂ pre e es ha he)))
  · rintro ⟨hseen, hnear⟩
    refine ⟨fun i hi => ?_, fun hb => ?_, fun hd r hr => ?_⟩
    · obtain ⟨d₁, d₂, pre, e, es, ha, he, rfl⟩ := at_of_mem hi
      rw [search, ha.searchIn_eq hw he, if_pos (hseen d₁ d₂ pre e es ha he)]
      rfl
    · rw [search, searchIn_none (not_bound hb)]
      rfl
    · by_cases hb : Bound d name
      · obtain ⟨i, hi⟩ := hb
        obtain ⟨d₁, d₂, pre, e, es, ha, he, -⟩ := at_of_mem hi
        rw [ha.searchIn_eq hw he, if_pos (hseen d₁ d₂ pre e es ha he)] at hr
        cases hr
        exact hnear hd d₁ d₂ pre e es ha he
      · rw [searchIn_none (not_bound hb)] at hr
        cases hr

theorem meets_isEmpty (hw : WellFormed bs d) : Meets bs d .isEmpty ↔ Cond bs d .isEmpty := by
  have hany : dirIsEmpty bs d = false ↔
      ∃ d₁ d₂ pre e es, At d d₁ d₂ pre e es ∧ Other e ∧ ∀ x ∈ pre, x.name ≠ [] := by
    rw [dirIsEmpty, Bool.not_eq_false', List.any_eq_true]
    constructor
    · rintro ⟨b, hb, ho⟩
      obtain ⟨pre, e, es, rfl, h⟩ := (othersFrom_iff [] (hw.tiled b hb)).mp ho
      obtain ⟨d₁, d₂, rfl⟩ := List.append_of_mem hb
      exact ⟨d₁, d₂, pre, e, es, ⟨rfl⟩, h⟩
    · rintro ⟨d₁, d₂, pre, e, es, ha, h⟩
      exact ⟨_, ha.split ▸ List.mem_append_right _ List.mem_cons_self,
        (othersFrom_iff [] (ha.tiled hw)).mpr ⟨pre, e, es, rfl, h⟩⟩
  have hother : (∃ x ∈ contents d, x.1 ≠ dot ∧ x.1 ≠ dotdot) ↔
      ¬∀ x ∈ contents d, x.1 = dot ∨ x.1 = dotdot := by
    constructor
    · rintro ⟨x, hx, h₁, h₂⟩ hall
      exact (hall x hx).elim h₁ h₂
    · intro h
      by_contra hne
      refine h fun x hx => ?_
      by_contra hx'
      exact hne ⟨x, hx, not_or.mp hx'⟩
  constructor
  · intro hm hex
    rw [hother] at hex
    refine hany.mp (Bool.eq_false_iff.mpr fun he => hex (hm.mp he))
  · intro hc
    refine ⟨fun he => ?_, fun hall => ?_⟩
    · by_contra hne
      have hf := hany.mpr (hc (hother.mpr hne))
      rw [hf] at he
      cases he
    · by_contra hne
      obtain ⟨d₁, d₂, pre, e, es, ha, ho, -⟩ := hany.mp (Bool.eq_false_iff.mpr hne)
      have hmem : (e.name, e.inode) ∈ contents d := by
        rw [ha.contents_eq ho.1]
        exact List.mem_append_right _ (List.mem_append_left _
          (List.mem_append_right _ List.mem_cons_self))
      exact (hall _ hmem).elim ho.2.1 ho.2.2

theorem meets_iff {o : Op} (hw : WellFormed bs d) (hl : Legal d o) : Meets bs d o ↔ Cond bs d o := by
  cases o with
  | write c grow => exact meets_write hw hl
  | rm name => exact meets_rm hw
  | search name wantDir => exact meets_search hw
  | isEmpty => exact meets_isEmpty hw

/-- A request that does what it should leaves a directory. -/
theorem wellFormed_next {o : Op} (hw : WellFormed bs d) (hm : Meets bs d o) : WellFormed bs (next bs d o) := by
  cases o with
  | write c grow =>
    rw [next]
    cases hwc : writeChild bs grow c d with
    | none => exact hw
    | some r => exact (hm.2 r.1 r.2 hwc).1
  | rm name =>
    rw [next]
    by_cases hb : Bound d name
    · obtain ⟨i, hi⟩ := hb
      obtain ⟨d', hrm, hw', -⟩ := hm.1 i hi
      rw [hrm]
      exact hw'
    · rw [hm.2 hb]
      exact hw
  | search name wantDir => exact hw
  | isEmpty => exact hw

/-- In every run of requests that all meet the condition the directory stays well formed, and at every
    point of it each request does what it does to a map if and only if it meets the condition. -/
theorem dir_is_map {d₀ : Dir} (h₀ : WellFormed bs d₀)
    (h : Reach (fun d o => some (next bs d o)) (fun d o => Legal d o ∧ Cond bs d o) d₀ d) :
    WellFormed bs d ∧ ∀ o, Legal d o → (Meets bs d o ↔ Cond bs d o) := by
  have hw : WellFormed bs d := by
    refine h.inv h₀ fun d o d' hd hok hst => ?_
    cases hst
    exact wellFormed_next hd ((meets_iff hd hok.1).mpr hok.2)
  exact ⟨hw, fun o hl => meets_iff hw hl⟩

end

/-! ### Two directories -/

/-- A directory as it is made: `.` and `..`. -/
def freshDir : Dir := [[⟨12, 12, dot, 2⟩, ⟨2, 1012, dotdot, 2⟩]]

/-- The file `a`, inode 13. -/
def fileA : Child := ⟨13, [97], 1⟩

theorem dir_is_map_fresh : WellFormed 1024 (next 1024 freshDir (.write fileA true)) ∧
    Meets 1024 (next 1024 freshDir (.write fileA true)) .isEmpty := by
  have hw : WellFormed 1024 freshDir := by
    refine ⟨.inl rfl, fun b hb => ?_, by decide⟩
    rw [List.mem_singleton.mp hb]
    exact ⟨by decide, by decide, rfl⟩
  have hl : Legal freshDir (.write fileA true) := by
    refine ⟨by decide, by decide, by decide, ?_⟩
    rintro ⟨i, hi⟩
    rcases List.mem_cons.mp hi with h | h
    · cases h
    · cases List.mem_singleton.mp h
  have hc : Cond 1024 freshDir (.write fileA true) := by
    intro b hb
    cases hb
    exact ⟨fun h => absurd h (by decide), fun _ => by decide⟩
  obtain ⟨h₁, h₂⟩ := dir_is_map hw (.next .start ⟨hl, hc⟩ rfl)
  refine ⟨h₁, (h₂ .isEmpty trivial).mpr fun _ => ?_⟩
  exact ⟨[], [], [⟨12, 12, dot, 2⟩, ⟨2, 12, dotdot, 2⟩], ⟨13, 1000, [97], 1⟩, [], ⟨rfl⟩,
    ⟨by decide, by decide, by decide⟩, by decide⟩

/-- A block whose first entry has been deleted, and a file `b` behind it. -/
def holedDir : Dir := [[⟨0, 12, [120], 1⟩, ⟨14, 1012, [98], 1⟩]]

/-- The file `a` takes the whole block, and `b` is lost. -/
theorem write_over_live : WellFormed 1024 holedDir ∧ Legal holedDir (.write fileA true) ∧
    ¬Meets 1024 holedDir (.write fileA true) := by
  refine ⟨⟨.inl rfl, fun b hb => ?_, by decide⟩, ⟨by decide, by decide, by decide, ?_⟩, fun hm => ?_⟩
  · rw [List.mem_singleton.mp hb]
    exact ⟨by decide, by decide, rfl⟩
  · rintro ⟨i, hi⟩
    cases List.mem_singleton.mp hi
  · exact absurd (hm.2 _ _ rfl).2.1.length_eq (by decide)

end EwokOS.Ext3.Directory
