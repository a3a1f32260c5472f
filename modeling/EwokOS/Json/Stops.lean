import EwokOS.Json.Tokens

/-! When the parser of tinyjson comes to an end (`json_parse_factor`).

    A loop of the parser leaves at its bracket and nowhere else. Every round of it reads a value, or stops
    in front of what is none, and then takes a comma if there is one:

        [ 1 2 , , 3 ]      a value or a comma is a round
        [ 1 ; 2 ]          `;` is neither, and every further round finds it again
        [ 1                the end is `JSON_LEX_R_TRUE`, a value, and every further round finds that again

    `Reads` is the language that is left: what is between the brackets are values and commas, and between
    braces also names and colons, in any order. -/

namespace EwokOS.Json

/-- The tokens that are a value by themselves. -/
def Scalar (tk : ℕ) : Prop :=
  tk = lexTrue ∨ tk = lexFalse ∨ tk = lexNull ∨ tk = lexUndefined ∨ tk = lexInt ∨ tk = lexFloat ∨ tk = lexStr

instance (tk : ℕ) : Decidable (Scalar tk) := inferInstanceAs (Decidable (_ ∨ _))

namespace Lex
variable (w : ℕ) (s : Lex)

/-- The state behind the token. -/
def next : Lex := nextToken w s.input

/-- The token begins a value. -/
def Begins : Prop := Scalar s.tk ∨ s.tk = (code '[').toNat ∨ s.tk = (code '{').toNat

instance : Decidable s.Begins := inferInstanceAs (Decidable (_ ∨ _))

/-- Nothing is left, and the token is that of the end. -/
def AtEnd : Prop := s = ⟨lexEof, [], []⟩

/-- What a round of the array loop takes behind its value. -/
def afterItem : Lex := if s.tk = (code ']').toNat then s else chkread w s (code ',').toNat

/-- What a round of the object loop takes behind its value. -/
def afterField : Lex := if s.tk = (code '}').toNat then s else chkread w s (code ',').toNat

/-- The name that a round of the object loop takes. -/
def afterName : Lex := if s.tk = lexStr then s.next w else chkread w s lexId

end Lex

inductive Part where | value | items | fields
  deriving DecidableEq

/-- From one state of the lexer to another there is a value, or the rest of an array or of an object with
    its bracket. -/
inductive Reads (w : ℕ) : Part → Lex → Lex → Prop where
  | scalar {s : Lex} : Scalar s.tk → Reads w .value s (s.next w)
  | arr {s t : Lex} : s.tk = (code '[').toNat → Reads w .items (s.next w) t → Reads w .value s t
  | obj {s t : Lex} : s.tk = (code '{').toNat → Reads w .fields (s.next w) t → Reads w .value s t
  | close {s : Lex} : s.tk = (code ']').toNat → Reads w .items s (s.next w)
  | comma {s t : Lex} : s.tk = (code ',').toNat → Reads w .items (s.next w) t → Reads w .items s t
  | item {s m t : Lex} : Reads w .value s m → Reads w .items m t → Reads w .items s t
  | shut {s : Lex} : s.tk = (code '}').toNat → Reads w .fields s (s.next w)
  | mark {s t : Lex} : s.tk = lexId ∨ s.tk = (code ':').toNat ∨ s.tk = (code ',').toNat →
      Reads w .fields (s.next w) t → Reads w .fields s t
  | field {s m t : Lex} : Reads w .value s m → Reads w .fields m t → Reads w .fields s t

/-- A bracket that comes first is closed. -/
def Closes (w : ℕ) (s : Lex) : Prop :=
  s.tk = (code '[').toNat ∨ s.tk = (code '{').toNat → ∃ t, Reads w .value s t

variable {w n : ℕ} {s t m : Lex} {v : Var}

/-! ### Rounds -/

theorem parseFactor_scalar (h : Scalar s.tk) : ∃ v, parseFactor w (n + 1) s = some (v, s.next w) := by
  rw [parseFactor]
  rcases h with h | h | h | h | h | h | h <;>
    simp [h, lexTrue, lexFalse, lexNull, lexUndefined, lexInt, lexFloat, lexStr, Lex.next]

theorem not_scalar_open : ¬Scalar (code '[').toNat ∧ ¬Scalar (code '{').toNat := by decide

theorem parseFactor_arr (h : s.tk = (code '[').toNat) :
    parseFactor w (n + 1) s = parseItems w n jsonVarNewArray (s.next w) := by
  have hn := not_scalar_open.1
  rw [← h, Scalar] at hn
  simp only [not_or] at hn
  obtain ⟨h1, h2, h3, h4, h5, h6, h7⟩ := hn
  rw [parseFactor]
  simp only [if_neg h1, if_neg h2, if_neg h3, if_neg h4, if_neg h5, if_neg h6, if_neg h7, if_pos h]
  rfl

theorem parseFactor_obj (h : s.tk = (code '{').toNat) :
    parseFactor w (n + 1) s = parseMembers w n [] (s.next w) := by
  have hn := not_scalar_open.2
  rw [← h, Scalar] at hn
  simp only [not_or] at hn
  obtain ⟨h1, h2, h3, h4, h5, h6, h7⟩ := hn
  have h8 : s.tk ≠ (code '[').toNat := by
    rw [h]
    decide
  rw [parseFactor]
  simp only [if_neg h1, if_neg h2, if_neg h3, if_neg h4, if_neg h5, if_neg h6, if_neg h7, if_neg h8, if_pos h]
  rfl

/-- What begins no value is left where it is. -/
theorem parseFactor_stray (h : ¬s.Begins) : parseFactor w (n + 1) s = some (.undef, s) := by
  simp only [Lex.Begins, Scalar, not_or] at h
  obtain ⟨⟨h1, h2, h3, h4, h5, h6, h7⟩, h8, h9⟩ := h
  rw [parseFactor]
  simp only [if_neg h1, if_neg h2, if_neg h3, if_neg h4, if_neg h5, if_neg h6, if_neg h7, if_neg h8, if_neg h9]

theorem parseItems_close (h : s.tk = (code ']').toNat) (arr : Var) :
    parseItems w (n + 1) arr s = some (arr, s.next w) := by
  rw [parseItems, if_pos h]
  rfl

theorem parseItems_round (h : s.tk ≠ (code ']').toNat) (arr : Var) : parseItems w (n + 1) arr s =
    (parseFactor w n s).bind fun r => parseItems w n (jsonVarArrayAdd arr r.1) (r.2.afterItem w) := by
  rw [parseItems, if_neg h]
  rfl

theorem parseMembers_shut (h : s.tk = (code '}').toNat) (ms : List (Bytes × Var)) :
    parseMembers w (n + 1) ms s = some (.obj false ms, s.next w) := by
  rw [parseMembers, if_pos h]
  rfl

theorem parseMembers_round (h : s.tk ≠ (code '}').toNat) (ms : List (Bytes × Var)) :
    parseMembers w (n + 1) ms s = (parseFactor w n (chkread w (s.afterName w) (code ':').toNat)).bind fun r =>
      parseMembers w n (jsonVarAdd ms (strCpy s.str) r.1) (r.2.afterField w) := by
  rw [parseMembers, if_neg h]
  rfl

/-- A token is taken, or not. -/
theorem chkread_cases (s : Lex) (tk : ℕ) : (s.tk = tk ∧ chkread w s tk = s.next w) ∨
    (s.tk ≠ tk ∧ chkread w s tk = s) := by
  by_cases h : s.tk = tk
  · exact .inl ⟨h, if_pos h⟩
  · exact .inr ⟨h, if_neg h⟩

/-! ### What was parsed can be read -/

theorem Reads.begins (h : Reads w .value s t) : s.Begins := by
  cases h with
  | scalar hs => exact .inl hs
  | arr hs => exact .inr (.inl hs)
  | obj hs => exact .inr (.inr hs)

theorem Reads.of_afterItem (h : Reads w .items (s.afterItem w) t) : Reads w .items s t := by
  rw [Lex.afterItem] at h
  split at h
  · exact h
  · rcases chkread_cases s (code ',').toNat with ⟨hs, he⟩ | ⟨-, he⟩ <;> rw [he] at h
    · exact .comma hs h
    · exact h

theorem Reads.of_afterField (h : Reads w .fields (s.afterField w) t) : Reads w .fields s t := by
  rw [Lex.afterField] at h
  split at h
  · exact h
  · rcases chkread_cases s (code ',').toNat with ⟨hs, he⟩ | ⟨-, he⟩ <;> rw [he] at h
    · exact .mark (.inr (.inr hs)) h
    · exact h

theorem Reads.of_colon (h : Reads w .fields (chkread w s (code ':').toNat) t) : Reads w .fields s t := by
  rcases chkread_cases s (code ':').toNat with ⟨hs, he⟩ | ⟨-, he⟩ <;> rw [he] at h
  · exact .mark (.inr (.inl hs)) h
  · exact h

theorem Reads.of_afterName (h : Reads w .fields (s.afterName w) t) : Reads w .fields s t := by
  rw [Lex.afterName] at h
  split at h
  · rename_i hs
    exact .field (.scalar (by simp [Scalar, hs])) h
  · rcases chkread_cases s lexId with ⟨hs, he⟩ | ⟨-, he⟩ <;> rw [he] at h
    · exact .mark (.inl hs) h
    · exact h

/-- By induction on the fuel: each function of the parser reads its part, and `json_parse_factor` may also
    stand before what is no value. -/
theorem reads_of_parse (n : ℕ) :
    (∀ s v t, parseFactor w n s = some (v, t) → Reads w .value s t ∨ (¬s.Begins ∧ t = s)) ∧
    (∀ arr s v t, parseItems w n arr s = some (v, t) → Reads w .items s t) ∧
    (∀ ms s v t, parseMembers w n ms s = some (v, t) → Reads w .fields s t) := by
  induction n with
  | zero =>
    refine ⟨fun s v t h => ?_, fun arr s v t h => ?_, fun ms s v t h => ?_⟩
    · simp [parseFactor] at h
    · simp [parseItems] at h
    · simp [parseMembers] at h
  | succ n ih =>
    obtain ⟨ihf, ihi, ihm⟩ := ih
    refine ⟨fun s v t h => ?_, fun arr s v t h => ?_, fun ms s v t h => ?_⟩
    · by_cases hb : s.Begins
      · rcases hb with hs | hs | hs
        · obtain ⟨v', hv⟩ := parseFactor_scalar (w := w) (n := n) hs
          rw [hv] at h
          obtain ⟨-, rfl⟩ := Prod.mk.inj (Option.some.inj h)
          exact .inl (.scalar hs)
        · rw [parseFactor_arr hs] at h
          exact .inl (.arr hs (ihi _ _ _ _ h))
        · rw [parseFactor_obj hs] at h
          exact .inl (.obj hs (ihm _ _ _ _ h))
      · rw [parseFactor_stray hb] at h
        obtain ⟨-, rfl⟩ := Prod.mk.inj (Option.some.inj h)
        exact .inr ⟨hb, rfl⟩
    · by_cases hc : s.tk = (code ']').toNat
      · rw [parseItems_close hc] at h
        obtain ⟨-, rfl⟩ := Prod.mk.inj (Option.some.inj h)
        exact .close hc
      · rw [parseItems_round hc] at h
        obtain ⟨⟨v', m⟩, hf, hm⟩ := Option.bind_eq_some_iff.mp h
        have hrest := (ihi _ _ _ _ hm).of_afterItem
        rcases ihf _ _ _ hf with hv | ⟨-, rfl⟩
        · exact .item hv hrest
        · exact hrest
    · by_cases hc : s.tk = (code '}').toNat
      · rw [parseMembers_shut hc] at h
        obtain ⟨-, rfl⟩ := Prod.mk.inj (Option.some.inj h)
        exact .shut hc
      · rw [parseMembers_round hc] at h
        obtain ⟨⟨v', m⟩, hf, hm⟩ := Option.bind_eq_some_iff.mp h
        have hrest := (ihm _ _ _ _ hm).of_afterField
        refine Reads.of_afterName (Reads.of_colon ?_)
        rcases ihf _ _ _ hf with hv | ⟨-, rfl⟩
        · exact .field hv hrest
        · exact hrest

/-! ### What can be read is parsed -/

theorem parseFactor_fuel {k : ℕ} (h1 : s.tk ≠ (code '[').toNat) (h2 : s.tk ≠ (code '{').toNat) :
    parseFactor w (n + 1) s = parseFactor w (k + 1) s := by
  rw [parseFactor, parseFactor]
  simp only [if_neg h1, if_neg h2]

/-- More fuel does no harm. -/
theorem parse_succ (n : ℕ) :
    (∀ s r, parseFactor w n s = some r → parseFactor w (n + 1) s = some r) ∧
    (∀ arr s r, parseItems w n arr s = some r → parseItems w (n + 1) arr s = some r) ∧
    (∀ ms s r, parseMembers w n ms s = some r → parseMembers w (n + 1) ms s = some r) := by
  induction n with
  | zero =>
    refine ⟨fun s r h => ?_, fun arr s r h => ?_, fun ms s r h => ?_⟩
    · simp [parseFactor] at h
    · simp [parseItems] at h
    · simp [parseMembers] at h
  | succ n ih =>
    obtain ⟨ihf, ihi, ihm⟩ := ih
    refine ⟨fun s r h => ?_, fun arr s r h => ?_, fun ms s r h => ?_⟩
    · by_cases h1 : s.tk = (code '[').toNat
      · rw [parseFactor_arr h1] at h ⊢
        exact ihi _ _ _ h
      · by_cases h2 : s.tk = (code '{').toNat
        · rw [parseFactor_obj h2] at h ⊢
          exact ihm _ _ _ h
        · rwa [parseFactor_fuel h1 h2]
    · by_cases hc : s.tk = (code ']').toNat
      · rwa [parseItems_close hc] at h ⊢
      · rw [parseItems_round hc] at h ⊢
        obtain ⟨x, hx, hr⟩ := Option.bind_eq_some_iff.mp h
        rw [ihf _ _ hx]
        exact ihi _ _ _ hr
    · by_cases hc : s.tk = (code '}').toNat
      · rwa [parseMembers_shut hc] at h ⊢
      · rw [parseMembers_round hc] at h ⊢
        obtain ⟨x, hx, hr⟩ := Option.bind_eq_some_iff.mp h
        rw [ihf _ _ hx]
        exact ihm _ _ _ hr

theorem parse_mono {k : ℕ} (h : n ≤ k) :
    (∀ s r, parseFactor w n s = some r → parseFactor w k s = some r) ∧
    (∀ arr s r, parseItems w n arr s = some r → parseItems w k arr s = some r) ∧
    (∀ ms s r, parseMembers w n ms s = some r → parseMembers w k ms s = some r) := by
  induction h with
  | refl => exact ⟨fun _ _ => id, fun _ _ _ => id, fun _ _ _ => id⟩
  | @step k _ ih =>
    have hs := parse_succ (w := w) k
    exact ⟨fun s r h => hs.1 s r (ih.1 s r h), fun arr s r h => hs.2.1 arr s r (ih.2.1 arr s r h),
      fun ms s r h => hs.2.2 ms s r (ih.2.2 ms s r h)⟩

/-- The rest of a round of the object loop, from its value on. -/
def inField (w n : ℕ) (ms : List (Bytes × Var)) (id : Bytes) (s : Lex) : Option (Var × Lex) :=
  (parseFactor w n s).bind fun r => parseMembers w n (jsonVarAdd ms id r.1) (r.2.afterField w)

/-- The array loop gets from `s` to `t`, and does so from behind a value. -/
structure ItemsDone (w : ℕ) (s t : Lex) : Prop where
  head : ∀ arr, ∃ n v, parseItems w n arr s = some (v, t)
  after : ∀ arr, ∃ n v, parseItems w n arr (s.afterItem w) = some (v, t)

/-- The object loop gets from `s` to `t`, and does so from each place of its body. -/
structure FieldsDone (w : ℕ) (s t : Lex) : Prop where
  head : ∀ ms, ∃ n v, parseMembers w n ms s = some (v, t)
  colon : ∀ ms id, ∃ n v, inField w n ms id (chkread w s (code ':').toNat) = some (v, t)
  value : ∀ ms id, ∃ n v, inField w n ms id s = some (v, t)
  after : ∀ ms, ∃ n v, parseMembers w n ms (s.afterField w) = some (v, t)

def Done (w : ℕ) : Part → Lex → Lex → Prop
  | .value, s, t => ∃ n v, parseFactor w n s = some (v, t)
  | .items, s, t => ItemsDone w s t
  | .fields, s, t => FieldsDone w s t

theorem stray_done (h : ¬s.Begins) : ∃ n v, parseFactor w n s = some (v, s) := ⟨1, .undef, parseFactor_stray h⟩

theorem items_done (hc : s.tk ≠ (code ']').toNat) (hf : ∃ n v, parseFactor w n s = some (v, m))
    (ha : ∀ arr, ∃ n v, parseItems w n arr (m.afterItem w) = some (v, t)) (arr : Var) :
    ∃ n v, parseItems w n arr s = some (v, t) := by
  obtain ⟨n, v, hf⟩ := hf
  obtain ⟨k, u, hk⟩ := ha (jsonVarArrayAdd arr v)
  refine ⟨max n k + 1, u, ?_⟩
  rw [parseItems_round hc, (parse_mono (Nat.le_max_left n k)).1 _ _ hf]
  exact (parse_mono (Nat.le_max_right n k)).2.1 _ _ _ hk

theorem inField_done (hf : ∃ n v, parseFactor w n s = some (v, m))
    (ha : ∀ ms, ∃ n v, parseMembers w n ms (m.afterField w) = some (v, t)) (ms : List (Bytes × Var)) (id : Bytes) :
    ∃ n v, inField w n ms id s = some (v, t) := by
  obtain ⟨n, v, hf⟩ := hf
  obtain ⟨k, u, hk⟩ := ha (jsonVarAdd ms id v)
  refine ⟨max n k, u, ?_⟩
  rw [inField, (parse_mono (Nat.le_max_left n k)).1 _ _ hf]
  exact (parse_mono (Nat.le_max_right n k)).2.2 _ _ _ hk

theorem fields_done (hc : s.tk ≠ (code '}').toNat)
    (h : ∀ ms id, ∃ n v, inField w n ms id (chkread w (s.afterName w) (code ':').toNat) = some (v, t))
    (ms : List (Bytes × Var)) : ∃ n v, parseMembers w n ms s = some (v, t) := by
  obtain ⟨n, v, hn⟩ := h ms (strCpy s.str)
  refine ⟨n + 1, v, ?_⟩
  rw [parseMembers_round hc]
  exact hn

/-- A token that begins a value is none of the marks. -/
theorem Lex.Begins.ne (h : s.Begins) : s.tk ≠ (code ']').toNat ∧ s.tk ≠ (code '}').toNat ∧
    s.tk ≠ (code ',').toNat ∧ s.tk ≠ (code ':').toNat ∧ s.tk ≠ lexId := by
  rcases h with (h | h | h | h | h | h | h) | h | h <;> rw [h] <;> decide

theorem ItemsDone.comma (h : ItemsDone w (s.next w) t) (hs : s.tk = (code ',').toNat) : ItemsDone w s t := by
  have hc : s.tk ≠ (code ']').toNat := by
    rw [hs]
    decide
  have ha : s.afterItem w = s.next w := by
    rw [Lex.afterItem, if_neg hc, chkread, if_pos hs]
    rfl
  have hafter : ∀ arr, ∃ n v, parseItems w n arr (s.afterItem w) = some (v, t) := by
    rw [ha]
    exact h.head
  exact ⟨items_done hc (stray_done fun hb => hb.ne.2.2.1 hs) hafter, hafter⟩

theorem FieldsDone.mark (h : FieldsDone w (s.next w) t)
    (hs : s.tk = lexId ∨ s.tk = (code ':').toNat ∨ s.tk = (code ',').toNat) : FieldsDone w s t := by
  have hc : s.tk ≠ (code '}').toNat := by
    rcases hs with hs | hs | hs <;> rw [hs] <;> decide
  have hstr : s.tk ≠ lexStr := by
    rcases hs with hs | hs | hs <;> rw [hs] <;> decide
  have hstray : ∃ n v, parseFactor w n s = some (v, s) := by
    refine stray_done fun hb => ?_
    obtain ⟨-, -, h1, h2, h3⟩ := hb.ne
    exact hs.elim h3 fun hs => hs.elim h2 h1
  rcases hs with hs | hs | hs
  · -- a name is taken at the head of the loop
    have hcolon : chkread w s (code ':').toNat = s := if_neg (by rw [hs]; decide)
    have hafter : s.afterField w = s := by
      rw [Lex.afterField, if_neg hc]
      exact if_neg (by rw [hs]; decide)
    have hname : s.afterName w = s.next w := by
      rw [Lex.afterName, if_neg hstr]
      exact if_pos hs
    have hhead := fields_done hc (hname ▸ h.colon)
    have hvalue := inField_done hstray (hafter.symm ▸ hhead)
    exact ⟨hhead, hcolon.symm ▸ hvalue, hvalue, hafter.symm ▸ hhead⟩
  · -- a colon before the value
    have hcolon : chkread w s (code ':').toNat = s.next w := if_pos hs
    have hafter : s.afterField w = s := by
      rw [Lex.afterField, if_neg hc]
      exact if_neg (by rw [hs]; decide)
    have hname : s.afterName w = s := by
      rw [Lex.afterName, if_neg hstr]
      exact if_neg (by rw [hs]; decide)
    have hbefore : ∀ ms id, ∃ n v, inField w n ms id (chkread w s (code ':').toNat) = some (v, t) :=
      hcolon.symm ▸ h.value
    have hhead := fields_done hc (hname.symm ▸ hbefore)
    exact ⟨hhead, hbefore, inField_done hstray (hafter.symm ▸ hhead), hafter.symm ▸ hhead⟩
  · -- a comma behind it
    have hcolon : chkread w s (code ':').toNat = s := if_neg (by rw [hs]; decide)
    have hafter : s.afterField w = s.next w := by
      rw [Lex.afterField, if_neg hc]
      exact if_pos hs
    have hname : s.afterName w = s := by
      rw [Lex.afterName, if_neg hstr]
      exact if_neg (by rw [hs]; decide)
    have hend : ∀ ms, ∃ n v, parseMembers w n ms (s.afterField w) = some (v, t) := hafter.symm ▸ h.head
    have hvalue := inField_done hstray hend
    have hbefore : ∀ ms id, ∃ n v, inField w n ms id (chkread w s (code ':').toNat) = some (v, t) :=
      hcolon.symm ▸ hvalue
    exact ⟨fields_done hc (hname.symm ▸ hbefore), hbefore, hvalue, hend⟩

theorem FieldsDone.field (h : FieldsDone w m t) (hr : Reads w .value s m)
    (hf : ∃ n v, parseFactor w n s = some (v, m)) : FieldsDone w s t := by
  obtain ⟨-, hc, hcomma, hcol, hid⟩ := hr.begins.ne
  have hcolon : chkread w s (code ':').toNat = s := if_neg hcol
  have hafter : s.afterField w = s := by
    rw [Lex.afterField, if_neg hc]
    exact if_neg hcomma
  have hvalue := inField_done hf h.after
  have hbefore : ∀ ms id, ∃ n v, inField w n ms id (chkread w s (code ':').toNat) = some (v, t) :=
    hcolon.symm ▸ hvalue
  have hhead : ∀ ms, ∃ n v, parseMembers w n ms s = some (v, t) := by
    by_cases hstr : s.tk = lexStr
    · -- a string is taken for the name
      have hm : m = s.next w := by
        cases hr with
        | scalar => rfl
        | arr hs =>
          rw [hs] at hstr
          exact absurd hstr (by decide)
        | obj hs =>
          rw [hs] at hstr
          exact absurd hstr (by decide)
      have hname : s.afterName w = m := by
        rw [Lex.afterName, if_pos hstr, hm]
      exact fields_done hc (hname.symm ▸ h.colon)
    · have hname : s.afterName w = s := by
        rw [Lex.afterName, if_neg hstr]
        exact if_neg hid
      exact fields_done hc (hname.symm ▸ hbefore)
  exact ⟨hhead, hbefore, hvalue, hafter.symm ▸ hhead⟩

theorem Reads.done {p : Part} (h : Reads w p s t) : Done w p s t := by
  induction h with
  | scalar hs =>
    obtain ⟨v, hv⟩ := parseFactor_scalar (w := w) (n := 0) hs
    exact ⟨1, v, hv⟩
  | arr hs _ ih =>
    obtain ⟨n, v, hn⟩ := ih.head jsonVarNewArray
    exact ⟨n + 1, v, by rw [parseFactor_arr hs]; exact hn⟩
  | obj hs _ ih =>
    obtain ⟨n, v, hn⟩ := ih.head []
    exact ⟨n + 1, v, by rw [parseFactor_obj hs]; exact hn⟩
  | @close s hs =>
    have hhead : ∀ arr, ∃ n v, parseItems w n arr s = some (v, s.next w) := fun arr =>
      ⟨1, arr, parseItems_close hs arr⟩
    have hafter : s.afterItem w = s := if_pos hs
    exact ⟨hhead, hafter.symm ▸ hhead⟩
  | comma hs _ ih => exact ItemsDone.comma ih hs
  | @item s m t hr _ ihv ih =>
    obtain ⟨hc, -, hcomma, -, -⟩ := hr.begins.ne
    have hafter : s.afterItem w = s := by
      rw [Lex.afterItem, if_neg hc]
      exact if_neg hcomma
    have hhead := items_done hc ihv ih.after
    exact ⟨hhead, hafter.symm ▸ hhead⟩
  | @shut s hs =>
    have hhead : ∀ ms, ∃ n v, parseMembers w n ms s = some (v, s.next w) := fun ms =>
      ⟨1, .obj false ms, parseMembers_shut hs ms⟩
    have hafter : s.afterField w = s := if_pos hs
    have hcolon : chkread w s (code ':').toNat = s := if_neg (by rw [hs]; decide)
    have hend : ∀ ms, ∃ n v, parseMembers w n ms (s.afterField w) = some (v, s.next w) := by
      rw [hafter]
      exact hhead
    have hvalue := inField_done (stray_done fun hb => hb.ne.2.1 hs) hend
    exact ⟨hhead, hcolon.symm ▸ hvalue, hvalue, hend⟩
  | mark hs _ ih => exact FieldsDone.mark ih hs
  | field hr _ ihv ih => exact FieldsDone.field ih hr ihv

/-- The parser gets through from a state of the lexer when a bracket there is closed. -/
theorem parse_iff : (∃ n, (parseFactor w n s).isSome = true) ↔ Closes w s := by
  constructor
  · rintro ⟨n, h⟩ hb
    obtain ⟨⟨v, t⟩, h⟩ := Option.isSome_iff_exists.mp h
    rcases (reads_of_parse n).1 s v t h with hr | ⟨hn, -⟩
    · exact ⟨t, hr⟩
    · exact absurd (.inr hb) hn
  · intro h
    by_cases hb : s.tk = (code '[').toNat ∨ s.tk = (code '{').toNat
    · obtain ⟨t, hr⟩ := h hb
      obtain ⟨n, v, hn⟩ := hr.done
      exact ⟨n, by rw [hn]; rfl⟩
    · by_cases hs : Scalar s.tk
      · obtain ⟨v, hv⟩ := parseFactor_scalar (w := w) (n := 0) hs
        exact ⟨1, by rw [hv]; rfl⟩
      · exact ⟨1, by rw [parseFactor_stray (fun hb' => hb'.elim hs hb)]; rfl⟩

/-! ### What is left -/

namespace Lex

/-- The bytes that are left, counting the token. -/
def left (s : Lex) : ℕ := if s.tk = lexEof ∧ s.str = [] ∧ s.input = [] then 0 else s.input.length + 1

theorem left_le (s : Lex) : s.left ≤ s.input.length + 1 := by
  rw [left]
  split <;> omega

theorem left_of_atEnd (h : s.AtEnd) : s.left = 0 := by
  rw [AtEnd] at h
  simp [left, h]

theorem left_of_not_atEnd (h : ¬s.AtEnd) : s.left = s.input.length + 1 := by
  refine if_neg fun ⟨h1, h2, h3⟩ => h ?_
  cases s
  simp_all [AtEnd]

end Lex

theorem length_dropWhile (p : UInt8 → Bool) (l : Bytes) : (l.dropWhile p).length ≤ l.length :=
  (List.dropWhile_suffix p).length_le

theorem length_skipFrom (n : ℕ) (l : Bytes) : (skipFrom n l).length ≤ l.length := by
  induction n generalizing l with
  | zero => simp [skipFrom]
  | succ n ih =>
    have hwhite := length_dropWhile isWhitespace l
    rw [skipFrom]
    split
    · rename_i c d r hl
      rw [hl] at hwhite
      have hline := length_dropWhile (· ≠ code '\n') (c :: d :: r)
      have hblock := length_dropBlock_le (c :: d :: r)
      split_ifs
      · have hrest := ih (((c :: d :: r).dropWhile (· ≠ code '\n')).drop 1)
        rw [List.length_drop] at hrest
        omega
      · have hrest := ih (dropBlock (c :: d :: r))
        omega
      · exact hwhite
    · exact hwhite

theorem length_eat (p : UInt8 → Bool) (l : Bytes) : (eat p l).2.length ≤ l.length := by
  cases l with
  | nil => simp [eat]
  | cons c l =>
    rw [eat]
    split <;> simp

theorem length_getString (l : Bytes) : (getString l).2.length ≤ l.length := by
  fun_induction getString l with
  | case1 => simp
  | case2 c => simp
  | case3 c _ => simp
  | case4 => simp
  | case5 d l _ ih => simp only [List.length_cons] at ih ⊢; omega
  | case6 c d l _ _ ih => simp only [List.length_cons] at ih ⊢; omega

theorem length_jsEscape (w : ℕ) (c : UInt8) (l : Bytes) : (jsEscape w c l).2.length ≤ l.length := by
  rw [jsEscape]
  split_ifs <;> simp

theorem length_getJsString (n : ℕ) (l : Bytes) : (getJsString w n l).2.length ≤ l.length := by
  induction n generalizing l with
  | zero => simp [getJsString]
  | succ n ih =>
    match l with
    | [] => simp [getJsString]
    | [c] =>
      have hrest := ih []
      simp only [getJsString]
      split_ifs <;> simp_all
    | c :: d :: l =>
      have hesc := length_jsEscape w d l
      have hrest := ih (jsEscape w d l).2
      have hnext := ih (d :: l)
      simp only [List.length_cons] at hnext
      simp only [getJsString, List.length_cons]
      split_ifs
      · simp
      · simp only
        omega
      · simp only
        omega

/-- A number takes its first byte. -/
theorem length_getNumber {c : UInt8} {l : Bytes} (hc : isNumeric c = true) :
    (getNumber (c :: l)).input.length ≤ l.length := by
  have hx : ¬(c = code 'x' ∨ c = code 'X') := by
    rintro (rfl | rfl) <;> revert hc <;> decide
  have hdigits : ((eat (fun c => c = code 'x' ∨ c = code 'X') (eat (· = code '0') (c :: l)).2).2.dropWhile fun d =>
      isNumeric d || ((decide ((eat (fun c => c = code 'x' ∨ c = code 'X') (eat (· = code '0') (c :: l)).2).1 ≠ [])) &&
        isHexadecimal d)).length ≤ l.length := by
    by_cases h0 : c = code '0'
    · have he : (eat (· = code '0') (c :: l)).2 = l := by simp [eat, h0]
      rw [he]
      exact Nat.le_trans (length_dropWhile ..) (length_eat _ l)
    · have he : (eat (· = code '0') (c :: l)).2 = c :: l := by simp [eat, h0]
      have he' : eat (fun c => c = code 'x' ∨ c = code 'X') (c :: l) = ([], c :: l) := by simp [eat, hx]
      rw [he, he', List.dropWhile_cons_of_pos (by simp [hc])]
      exact length_dropWhile ..
  simp only [getNumber]
  generalize (eat (fun c => c = code 'x' ∨ c = code 'X') (eat (· = code '0') (c :: l)).2) = x at hdigits ⊢
  generalize (x.2.dropWhile fun d => isNumeric d || (decide (x.1 ≠ []) && isHexadecimal d)) = r at hdigits ⊢
  have htail : ∀ q : Bytes, q.length ≤ l.length → q.tail.length ≤ l.length := by
    intro q hq
    rw [List.length_tail]
    omega
  -- the text behind the point, then the one behind the exponent
  have hpoint := Nat.le_trans (length_dropWhile isNumeric r.tail) (htail r hdigits)
  have hexp : ∀ q : Bytes, q.length ≤ l.length → ((eat (· = code '-') q.tail).2.dropWhile isNumeric).length ≤ l.length :=
    fun q hq => Nat.le_trans (length_dropWhile ..) (Nat.le_trans (length_eat ..) (htail q hq))
  split <;> split
  · exact hexp _ hpoint
  · exact hpoint
  · exact hexp _ hdigits
  · exact hdigits

/-- The next token takes a byte, where there is one. -/
theorem left_nextToken (w : ℕ) (l : Bytes) : (nextToken w l).left ≤ l.length := by
  have hskip := length_skipFrom (l.length + 1) l
  rw [nextToken]
  refine Nat.le_trans ?_ hskip
  cases skipFrom (l.length + 1) l with
  | nil => simp [getToken, Lex.left]
  | cons c r =>
    refine Nat.le_trans (Lex.left_le _) (Nat.succ_le_succ ?_)
    have hword : ((c :: r).dropWhile fun c => isAlpha c || isNumeric c).length ≤ r.length ∨ isAlpha c = false := by
      by_cases ha : isAlpha c = true
      · rw [List.dropWhile_cons_of_pos (by simp [ha])]
        exact .inl (length_dropWhile ..)
      · exact .inr (by simpa using ha)
    rw [getToken]
    split_ifs with ha hn hs hj
    · exact hword.resolve_right (by simp [ha])
    · exact length_getNumber hn
    · exact length_getString r
    · exact length_getJsString r.length r
    · exact Nat.le_refl _

theorem left_next (h : ¬s.AtEnd) : (s.next w).left < s.left := by
  have hle := left_nextToken w s.input
  rw [Lex.left_of_not_atEnd h, Lex.next]
  omega

/-- Behind the end there is the end. -/
theorem next_of_atEnd (h : s.AtEnd) : s.next w = s := by
  rw [Lex.AtEnd] at h
  subst h
  rfl

theorem left_next_le : (s.next w).left ≤ s.left := by
  by_cases h : s.AtEnd
  · rw [next_of_atEnd h]
  · exact Nat.le_of_lt (left_next h)

theorem left_chkread_le (tk : ℕ) : (chkread w s tk).left ≤ s.left := by
  rcases chkread_cases s tk with ⟨-, he⟩ | ⟨-, he⟩ <;> rw [he]
  exact left_next_le

theorem left_afterItem_le : (s.afterItem w).left ≤ s.left := by
  rw [Lex.afterItem]
  split
  · exact Nat.le_refl _
  · exact left_chkread_le _

theorem left_afterField_le : (s.afterField w).left ≤ s.left := by
  rw [Lex.afterField]
  split
  · exact Nat.le_refl _
  · exact left_chkread_le _

theorem left_afterName_le : (s.afterName w).left ≤ s.left := by
  rw [Lex.afterName]
  split
  · exact left_next_le
  · exact left_chkread_le _

theorem Reads.left_le {p : Part} (h : Reads w p s t) : t.left ≤ s.left := by
  induction h with
  | scalar | close | shut => exact left_next_le
  | arr _ _ ih | obj _ _ ih | comma _ _ ih | mark _ _ ih => exact Nat.le_trans ih left_next_le
  | item _ _ ih ih' | field _ _ ih ih' => exact Nat.le_trans ih' ih

/-- A value takes its first token. -/
theorem Reads.left_lt (h : Reads w .value s t) (hend : ¬s.AtEnd) : t.left < s.left := by
  cases h with
  | scalar => exact left_next hend
  | arr _ hr => exact Nat.lt_of_le_of_lt hr.left_le (left_next hend)
  | obj _ hr => exact Nat.lt_of_le_of_lt hr.left_le (left_next hend)

/-- At the end there is a value, and nothing but a value. -/
theorem Reads.of_atEnd {p : Part} (h : Reads w p s t) (hend : s.AtEnd) : p = .value ∧ t = s := by
  have htk : s.tk = 0 := by
    rw [Lex.AtEnd] at hend
    rw [hend]
    rfl
  induction h with
  | scalar => exact ⟨rfl, next_of_atEnd hend⟩
  | arr hs | obj hs | close hs | comma hs | shut hs =>
    rw [hs] at htk
    exact absurd htk (by decide)
  | mark hs =>
    rcases hs with hs | hs | hs <;> rw [hs] at htk <;> exact absurd htk (by decide)
  | item _ _ ih ih' | field _ _ ih ih' =>
    obtain ⟨-, rfl⟩ := ih hend htk
    exact absurd (ih' hend htk).1 (by decide)

/-! ### Rounds that get on -/

/-- A round of the array loop that comes back has taken something from the input just when it stood before
    a value or a comma. -/
theorem items_round (hc : s.tk ≠ (code ']').toNat) (hf : parseFactor w n s = some (v, m)) :
    (m.afterItem w).left < s.left ↔ ¬s.AtEnd ∧ (s.tk = (code ',').toNat ∨ s.Begins) := by
  rcases (reads_of_parse n).1 s v m hf with hr | ⟨hb, rfl⟩
  · constructor
    · intro hlt
      refine ⟨fun hend => ?_, .inr hr.begins⟩
      rw [Lex.left_of_atEnd hend] at hlt
      omega
    · rintro ⟨hend, -⟩
      exact Nat.lt_of_le_of_lt left_afterItem_le (hr.left_lt hend)
  · rw [Lex.afterItem, if_neg hc]
    rcases chkread_cases m (code ',').toNat with ⟨hs, he⟩ | ⟨hs, he⟩ <;> rw [he]
    · have hend : ¬m.AtEnd := by
        intro hend
        rw [Lex.AtEnd] at hend
        rw [hend] at hs
        exact absurd hs (by decide)
      exact ⟨fun _ => ⟨hend, .inl hs⟩, fun _ => left_next hend⟩
    · refine ⟨fun hlt => absurd hlt (Nat.lt_irrefl _), ?_⟩
      rintro ⟨-, h | h⟩
      · exact absurd h hs
      · exact absurd h hb

/-- What a round of the object loop can take. -/
def Lex.Marks (s : Lex) : Prop :=
  s.tk = lexId ∨ s.tk = (code ':').toNat ∨ s.tk = (code ',').toNat ∨ s.Begins

theorem fields_round (hc : s.tk ≠ (code '}').toNat)
    (hf : parseFactor w n (chkread w (s.afterName w) (code ':').toNat) = some (v, m)) :
    (m.afterField w).left < s.left ↔ ¬s.AtEnd ∧ s.Marks := by
  have hname : (s.afterName w).left ≤ s.left := left_afterName_le
  have hcolon : (chkread w (s.afterName w) (code ':').toNat).left ≤ (s.afterName w).left := left_chkread_le _
  have hvalue : m.left ≤ (chkread w (s.afterName w) (code ':').toNat).left := by
    rcases (reads_of_parse n).1 _ v m hf with hr | ⟨-, rfl⟩
    · exact hr.left_le
    · exact Nat.le_refl _
  have hcomma : (m.afterField w).left ≤ m.left := left_afterField_le
  constructor
  · intro hlt
    refine ⟨fun hend => ?_, ?_⟩
    · rw [Lex.left_of_atEnd hend] at hlt
      omega
    · by_contra hmarks
      simp only [Lex.Marks, not_or] at hmarks
      obtain ⟨hid, hcol, hcom, hb⟩ := hmarks
      have hstr : s.tk ≠ lexStr := fun hs => hb (.inl (by simp [Scalar, hs]))
      have h1 : s.afterName w = s := by
        rw [Lex.afterName, if_neg hstr]
        exact if_neg hid
      have h2 : chkread w (s.afterName w) (code ':').toNat = s := by
        rw [h1]
        exact if_neg hcol
      rw [h2] at hf
      rcases (reads_of_parse n).1 s v m hf with hr | ⟨-, rfl⟩
      · exact hb hr.begins
      · have h3 : m.afterField w = m := by
          rw [Lex.afterField, if_neg hc]
          exact if_neg hcom
        rw [h3] at hlt
        omega
  · rintro ⟨hend, hmarks⟩
    have hnext := left_next (w := w) hend
    by_cases hstr : s.tk = lexStr ∨ s.tk = lexId
    · have h1 : s.afterName w = s.next w := by
        rw [Lex.afterName]
        split
        · rfl
        · exact if_pos (hstr.resolve_left ‹_›)
      rw [h1] at hname hcolon hvalue
      omega
    · rw [not_or] at hstr
      have h1 : s.afterName w = s := by
        rw [Lex.afterName, if_neg hstr.1]
        exact if_neg hstr.2
      rw [h1] at hf hcolon hvalue
      rcases chkread_cases s (code ':').toNat with ⟨-, he⟩ | ⟨hcol, he⟩ <;> rw [he] at hf hvalue
      · omega
      · rcases (reads_of_parse n).1 s v m hf with hr | ⟨hb, rfl⟩
        · have hlt := hr.left_lt hend
          omega
        · rcases hmarks with h | h | h | h
          · exact absurd h hstr.2
          · exact absurd h hcol
          · have h3 : m.afterField w = m.next w := by
              rw [Lex.afterField, if_neg hc]
              exact if_pos h
            rw [h3]
            exact hnext
          · exact absurd h hb

/-- The parser of a text ends when a bracket that comes first is closed, with nothing in between but what
    belongs there. A round of a loop gets on just before such a token. The end of the input is not one:
    it is read as the value `true`, and no loop leaves there. -/
theorem parse_ends (w : ℕ) (s : Bytes) :
    ((∃ fuel, (jsonParseStr w fuel s).isSome = true) ↔ Closes w (nextToken w (lexInput s))) ∧
    (∀ (n : ℕ) (t : Lex) v m, parseFactor w n t = some (v, m) → t.tk ≠ (code ']').toNat →
      ((m.afterItem w).left < t.left ↔ ¬t.AtEnd ∧ (t.tk = (code ',').toNat ∨ t.Begins))) ∧
    (∀ (n : ℕ) (t : Lex) v m, parseFactor w n (chkread w (t.afterName w) (code ':').toNat) = some (v, m) →
      t.tk ≠ (code '}').toNat → ((m.afterField w).left < t.left ↔ ¬t.AtEnd ∧ t.Marks)) ∧
    (nextToken w []).AtEnd ∧ ∀ t : Lex, t.AtEnd → ∀ n, parseFactor w (n + 1) t = some (.int 1, t) ∧
      (∀ arr, parseItems w n arr t = none) ∧ ∀ ms, parseMembers w n ms t = none := by
  refine ⟨?_, fun n t v m hf hc => items_round hc hf, fun n t v m hf hc => fields_round hc hf, rfl,
    fun t hend n => ⟨?_, fun arr => ?_, fun ms => ?_⟩⟩
  · rw [← parse_iff]
    simp only [jsonParseStr, Option.isSome_map]
  · rw [Lex.AtEnd] at hend
    subst hend
    rfl
  · cases h : parseItems w n arr t with
    | none => rfl
    | some r => exact absurd (((reads_of_parse n).2.1 arr t r.1 r.2 h).of_atEnd hend).1 (by decide)
  · cases h : parseMembers w n ms t with
    | none => rfl
    | some r => exact absurd (((reads_of_parse n).2.2 ms t r.1 r.2 h).of_atEnd hend).1 (by decide)

example : (jsonParseStr 64 9 (text ['[', '1', ',', '{', 'a', ':', '2', '}', ']'])).isSome = true := by
  decide +kernel

/-- A bracket alone is parsed for ever, and so is an array with a semicolon. -/
theorem bracket_endless : (¬∃ fuel, (jsonParseStr 64 fuel (text ['['])).isSome = true) ∧
    ¬∃ fuel, (jsonParseStr 64 fuel (text ['[', ';', ']'])).isSome = true := by
  simp only [jsonParseStr, Option.isSome_map]
  rw [parse_iff, parse_iff]
  refine ⟨fun h => ?_, fun h => ?_⟩
  · obtain ⟨t, hr⟩ := h (.inl rfl)
    cases hr with
    | scalar hs => exact absurd hs (by decide)
    | arr _ hr => exact absurd (hr.of_atEnd rfl).1 (by decide)
    | obj hs => exact absurd hs (by decide)
  · obtain ⟨t, hr⟩ := h (.inl rfl)
    cases hr with
    | scalar hs => exact absurd hs (by decide)
    | obj hs => exact absurd hs (by decide)
    | arr _ hr =>
      cases hr with
      | close hs => exact absurd hs (by decide)
      | comma hs => exact absurd hs (by decide)
      | item hr => exact absurd hr.begins (by decide)

end EwokOS.Json
