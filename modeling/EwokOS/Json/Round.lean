import EwokOS.Json.Tokens

/-! What is printed is parsed.

    `Parses v` says that the parser, having read the first token of the text of `v`, returns what is left
    of `v` and has read the token behind it. It is proved along the value; the loops over elements and
    members carry what they have collected. -/

namespace EwokOS.Json

variable {w : ℕ} {l s rest : Bytes} {v : Value}

namespace Value

/-- The text of `v` is parsed, whatever is behind it. -/
def Parses (w : ℕ) (v : Value) : Prop := ∀ level n rest, Ends rest → (toText level v).length < n →
  (nextToken w (toText level v ++ rest)).tk ≠ (code ']').toNat ∧
  parseFactor w n (nextToken w (toText level v ++ rest)) = some (v.cut.toVar, nextToken w rest)

/-! ### Integers -/

theorem length_intDigits (n : ℕ) (v : ℤ) : (intDigits n v).length ≤ n + 1 := by
  induction n generalizing v with
  | zero => exact Nat.zero_le _
  | succ n ih =>
    rw [intDigits]
    split_ifs
    · exact Nat.le_add_left 2 n
    · exact Nat.le_add_left 1 (n + 1)
    · exact Nat.succ_le_succ (ih _)

theorem strFromInt_spec (i : Int32) : ∃ s, strFromInt i = sign i.toInt ++ s ∧ Digits i.toInt s := by
  have hlo := i.le_toInt
  have hhi := i.toInt_lt
  exact intDigits_spec (by omega) (by decide)

theorem strFromInt_short (i : Int32) : strCpy (strFromInt i) = strFromInt i := by
  have hlen := length_intDigits 10 i.toInt
  rw [strCpy, List.take_of_length_le]
  rw [strFromInt, List.length_reverse]
  omega

theorem isNumeric_strFromInt (i : Int32) : ∀ c ∈ strFromInt i, isNumeric c = true := by
  obtain ⟨s, hs, hd⟩ := strFromInt_spec i
  intro c hc
  rw [hs, sign, List.mem_append] at hc
  rcases hc with hc | hc
  · split_ifs at hc
    · rw [List.mem_singleton.mp hc]
      decide
    · cases hc
  · exact (digit_facts c (hd.digit c hc)).2.2.1

theorem strFromInt_ne (i : Int32) : strFromInt i ≠ [] := by
  obtain ⟨s, hs, hd⟩ := strFromInt_spec i
  rw [hs]
  exact List.append_ne_nil_of_right_ne_nil _ hd.ne

theorem nextToken_int (i : Int32) (hr : Ends rest) :
    nextToken w (strFromInt i ++ rest) = ⟨lexInt, strFromInt i, rest⟩ := by
  have hnum := isNumeric_strFromInt i
  have hget := getNumber_eq hnum hr
  obtain ⟨c, t, ht⟩ := List.exists_cons_of_ne_nil (strFromInt_ne i)
  rw [ht] at hnum hget ⊢
  obtain ⟨-, -, halpha, hwhite, hslash⟩ := numeric_facts c (hnum c List.mem_cons_self)
  rw [List.cons_append, nextToken_head hwhite hslash, getToken, if_neg (by rw [halpha]; exact Bool.false_ne_true),
    if_pos (hnum c List.mem_cons_self)]
  exact hget

theorem parseInt_strFromInt (hw : w = 32 ∨ w = 64) {i : Int32} (hi : 0 ≤ i.toInt ∨ w = 64) :
    parseInt w (strFromInt i) = .int i := by
  obtain ⟨s, hs, hd⟩ := strFromInt_spec i
  have hlo := i.le_toInt
  have hhi := i.toInt_lt
  have hx : ¬(code 'x' ∈ strFromInt i ∨ code 'X' ∈ strFromInt i) := by
    rintro (h | h)
    · exact (numeric_facts _ (isNumeric_strFromInt i _ h)).1 rfl
    · exact (numeric_facts _ (isNumeric_strFromInt i _ h)).2.1 rfl
  have hval : strtoll w (strFromInt i) = i.toInt := by
    rw [hs]
    exact strtoll_sign hw hd (by omega) hi
  rw [parseInt, if_neg hx, hval, if_neg (by omega), Int32.ofInt_toInt]

theorem parses_int (hw : w = 32 ∨ w = 64) {i : Int32} (hi : 0 ≤ i.toInt ∨ w = 64) : Parses w (.int i) := by
  intro level n rest hr hn
  obtain ⟨n, rfl⟩ : ∃ m, n = m + 1 := ⟨n - 1, by omega⟩
  rw [toText_int, strFromInt_short, strFromInt_short, nextToken_int i hr]
  have htk : lexInt ≠ (code ']').toNat := by decide
  refine ⟨htk, ?_⟩
  rw [parseFactor, cut, toVar, parseInt_strFromInt hw hi]
  rfl

/-! ### Strings -/

theorem parses_str (hs : Raw s) : Parses w (.str s) := by
  intro level n rest _ hn
  obtain ⟨n, rfl⟩ : ∃ m, n = m + 1 := ⟨n - 1, by omega⟩
  have hraw : Raw (strCpy s) := raw_take hs _
  have htk : lexStr ≠ (code ']').toNat := by decide
  rw [toText_str, nextToken_str hraw]
  refine ⟨htk, ?_⟩
  have htwice : strCpy (strCpy s) = strCpy s := by
    rw [strCpy, strCpy, List.take_take, Nat.min_self]
  rw [parseFactor, cut, toVar, htwice]
  rfl

/-! ### Arrays -/

/-- Texts with `", "` between them. -/
def joined (ts : List Bytes) : Bytes := (ts.intersperse (text [',', ' '])).flatten

theorem joined_cons (t : Bytes) (ts : List Bytes) :
    joined (t :: ts) = t ++ if ts = [] then [] else text [',', ' '] ++ joined ts := by
  cases ts with
  | nil => simp [joined]
  | cons u ts => simp [joined, List.intersperse]

/-- An array while it is built. -/
def arrayOf (items : List (Bytes × Var)) : Var := .obj true [(arrayName, .obj false items)]

theorem jsonVarArrayAdd_arrayOf {items : List (Bytes × Var)} (x : Var) (h : items.length < 100) :
    jsonVarArrayAdd (arrayOf items) x = arrayOf (items ++ [([], x)]) := by
  rw [arrayOf, jsonVarArrayAdd, addElement, if_pos rfl, jsonVarAdd_item (by omega)]
  rfl

/-- The loop over the elements. -/
theorem parseItems_eq {ts : List Value} (hts : ∀ v ∈ ts, Parses w v) (level : ℕ) {items : List (Bytes × Var)}
    (hlen : items.length + ts.length ≤ 100) {n : ℕ} (hpos : 0 < n)
    (hn : ts ≠ [] → (joined (ts.map (toText level))).length + 1 < n) :
    parseItems w n (arrayOf items) (nextToken w (joined (ts.map (toText level)) ++ code ']' :: rest)) =
      some (arrayOf (items ++ ts.map fun v => ([], v.cut.toVar)), nextToken w rest) := by
  induction ts generalizing items n with
  | nil =>
    obtain ⟨n, rfl⟩ : ∃ m, n = m + 1 := ⟨n - 1, by omega⟩
    rw [List.map_nil, joined, List.intersperse_nil, List.flatten_nil, List.nil_append, nextToken_close, parseItems,
      if_pos rfl, List.map_nil, List.append_nil]
  | cons v ts ih =>
    obtain ⟨n, rfl⟩ : ∃ m, n = m + 1 := ⟨n - 1, by omega⟩
    set more := if ts.map (toText level) = [] then [] else text [',', ' '] ++ joined (ts.map (toText level)) with hmore
    have hn := hn (List.cons_ne_nil v ts)
    rw [List.map_cons, joined_cons, ← hmore, List.length_append] at hn
    rw [List.map_cons, joined_cons, ← hmore, List.append_assoc]
    rw [List.length_cons] at hlen
    have hends : Ends (more ++ code ']' :: rest) := by
      rw [hmore]
      split_ifs
      · exact fun c hc => .inr (.inl (Option.some.inj hc).symm)
      · exact fun c hc => .inl (Option.some.inj hc).symm
    obtain ⟨hstart, hparse⟩ := hts v List.mem_cons_self level n _ hends (by omega)
    rw [parseItems, if_neg hstart, hparse, Option.bind_some]
    dsimp only
    rw [jsonVarArrayAdd_arrayOf _ (by omega)]
    -- behind the element there is the end, or a comma and the next one
    have hnext : (if (nextToken w (more ++ code ']' :: rest)).tk = (code ']').toNat then
          nextToken w (more ++ code ']' :: rest)
        else chkread w (nextToken w (more ++ code ']' :: rest)) (code ',').toNat) =
        nextToken w (joined (ts.map (toText level)) ++ code ']' :: rest) := by
      by_cases hnil : ts.map (toText level) = []
      · rw [hmore, if_pos hnil, hnil, List.nil_append, nextToken_close, if_pos rfl, ← nextToken_close]
        rfl
      · have htk : (code ',').toNat ≠ (code ']').toNat := by decide
        have hcomma : more ++ code ']' :: rest =
            code ',' :: code ' ' :: (joined (ts.map (toText level)) ++ code ']' :: rest) := by
          rw [hmore, if_neg hnil]
          rfl
        rw [hcomma, nextToken_comma, if_neg htk, chkread, if_pos rfl, nextToken_white (by decide)]
    have hshort (hne : ts ≠ []) : (joined (ts.map (toText level))).length + 1 < n := by
      have htwo : (text [',', ' ']).length = 2 := rfl
      rw [hmore, if_neg (by simpa using hne), List.length_append] at hn
      omega
    rw [hnext, ih (fun x hx => hts x (List.mem_cons_of_mem v hx))
      (by rw [List.length_append, List.length_singleton]; omega) (by omega) hshort, List.map_cons,
      List.append_assoc, List.singleton_append]

theorem parses_arr {ts : List Value} (hts : ∀ v ∈ ts, Parses w v) : Parses w (.arr ts) := by
  intro level n rest _ hn
  obtain ⟨n, rfl⟩ : ∃ m, n = m + 1 := ⟨n - 1, by omega⟩
  have hitems : commaed (ts.map (toText level)) = joined ((ts.take 100).map (toText level)) := by
    rw [commaed, joined, List.map_take]
  have hlen : (ts.take 100).length ≤ 100 := List.length_take_le 100 ts
  rw [toText_arr, hitems, List.length_append, List.length_cons, List.length_singleton] at hn
  rw [toText_arr, hitems, List.cons_append, List.cons_append, nextToken_bracket, List.append_assoc,
    List.singleton_append]
  have htk : (code '[').toNat ≠ (code ']').toNat := by decide
  refine ⟨htk, ?_⟩
  have hloop : parseItems w n (arrayOf []) (nextToken w (joined ((ts.take 100).map (toText level)) ++ code ']' :: rest)) =
      some (arrayOf ([] ++ (ts.take 100).map fun v => ([], v.cut.toVar)), nextToken w rest) :=
    parseItems_eq (fun v hv => hts v (List.mem_of_mem_take hv)) level (by rwa [List.length_nil, Nat.zero_add])
      (by omega) (fun _ => by omega)
  rw [parseFactor, cut, toVar, cutItems_eq, ← List.map_take, toItems_eq, List.map_map]
  exact hloop

/-! ### Objects -/

/-- The loop over the members. -/
theorem parseMembers_eq {ms kept : List (Bytes × Value)} {tail : Bytes} (hraw : ∀ m ∈ ms, Raw m.1)
    (hms : ∀ m ∈ ms, Parses w m.2) (level : ℕ) (hends : Ends tail)
    (htail : nextToken w tail = ⟨(code '}').toNat, [], rest⟩) {n : ℕ}
    (hn : (memberTexts level false ms).length < n) :
    parseMembers w n (toMembers kept) (nextToken w (memberTexts level false ms ++ tail)) =
      some (.obj false (toMembers (cutMembers kept ms)), nextToken w rest) := by
  induction ms generalizing kept n with
  | nil =>
    obtain ⟨n, rfl⟩ : ∃ m, n = m + 1 := ⟨n - 1, by omega⟩
    rw [memberTexts, toMembers, printMembers, List.nil_append, htail, parseMembers, if_pos rfl, cutMembers]
  | cons m ms ih =>
    have hraw' : ∀ m ∈ ms, Raw m.1 := fun x hx => hraw x (List.mem_cons_of_mem m hx)
    have hms' : ∀ m ∈ ms, Parses w m.2 := fun x hx => hms x (List.mem_cons_of_mem m hx)
    rw [memberTexts_cons] at hn ⊢
    rw [cutMembers]
    by_cases hp : m.1 = prototypeName
    · rw [if_pos hp] at hn ⊢
      rw [if_pos hp]
      exact ih hraw' hms' hn
    · rw [if_neg hp] at hn ⊢
      rw [if_neg hp]
      obtain ⟨n, rfl⟩ : ∃ k, n = k + 1 := ⟨n - 1, by omega⟩
      have htwo : (text [':', ' ']).length = 2 := rfl
      simp only [Bool.false_eq_true, if_false, List.nil_append, List.length_append, List.append_assoc] at hn ⊢
      set more := memberTexts level true ms with hmore
      have hends' : Ends (more ++ tail) := by
        rcases memberTexts_true level ms with ⟨h, -⟩ | h
        · rwa [hmore, h]
        · rw [hmore, h]
          exact fun c hc => .inl (Option.some.inj hc).symm
      obtain ⟨-, hparse⟩ := hms m List.mem_cons_self (level + 1) n _ hends' (by omega)
      have hstr : lexStr ≠ (code '}').toNat := by decide
      have hcolon : text [':', ' '] ++ (toText (level + 1) m.2 ++ (more ++ tail)) =
          code ':' :: code ' ' :: (toText (level + 1) m.2 ++ (more ++ tail)) := rfl
      rw [nextToken_spaces, nextToken_str (hraw m List.mem_cons_self), parseMembers, if_neg hstr, hcolon]
      dsimp only
      rw [if_pos rfl, nextToken_colon, chkread, if_pos rfl, nextToken_white (by decide), hparse, Option.bind_some]
      dsimp only
      -- behind the member there is the end, or a comma and the next one
      have hnext : (if (nextToken w (more ++ tail)).tk = (code '}').toNat then nextToken w (more ++ tail)
          else chkread w (nextToken w (more ++ tail)) (code ',').toNat) =
          nextToken w (memberTexts level false ms ++ tail) := by
        rcases memberTexts_true level ms with ⟨h, hfalse⟩ | h
        · rw [hmore, h, hfalse, List.nil_append, htail, if_pos rfl]
        · have htk : (code ',').toNat ≠ (code '}').toNat := by decide
          have hcomma : more ++ tail = code ',' :: code '\n' :: (memberTexts level false ms ++ tail) := by
            rw [hmore, h]
            rfl
          rw [hcomma, nextToken_comma, if_neg htk, chkread, if_pos rfl, nextToken_white (by decide)]
      have hadd : jsonVarAdd (toMembers kept) (strCpy m.1) m.2.cut.toVar =
          toMembers (jsonVarAdd kept (strCpy m.1) m.2.cut) := by
        rw [toMembers_eq, toMembers_eq, jsonVarAdd_map]
      have hshort : (memberTexts level false ms).length ≤ more.length := by
        rcases memberTexts_true level ms with ⟨h, hfalse⟩ | h
        · rw [hfalse]
          exact Nat.zero_le _
        · rw [hmore, h, List.length_append]
          exact Nat.le_add_left _ _
      rw [hnext, hadd, ih hraw' hms' (by omega)]

theorem parses_obj {ms : List (Bytes × Value)} (hraw : ∀ m ∈ ms, Raw m.1) (hms : ∀ m ∈ ms, Parses w m.2) :
    Parses w (.obj ms) := by
  intro level n rest _ hn
  obtain ⟨n, rfl⟩ : ∃ m, n = m + 1 := ⟨n - 1, by omega⟩
  have htk : (code '{').toNat ≠ (code ']').toNat := by decide
  rw [toText_obj] at hn ⊢
  have hclose : nextToken w (spaces level ++ code '}' :: rest) = ⟨(code '}').toNat, [], rest⟩ := by
    rw [nextToken_spaces, nextToken_end]
  by_cases hnil : ms = []
  · subst hnil
    have hempty : memberTexts level false [] = [] := rfl
    rw [hempty] at hn ⊢
    simp only [List.length_nil, if_true, List.append_nil, List.append_assoc, List.cons_append,
      List.nil_append, nextToken_brace, List.length_append, List.length_cons] at hn ⊢
    obtain ⟨n, rfl⟩ : ∃ m, n = m + 1 := ⟨n - 1, by omega⟩
    refine ⟨htk, ?_⟩
    have hstep : parseFactor w (n + 1 + 1) ⟨(code '{').toNat, [], spaces level ++ code '}' :: rest⟩ =
      parseMembers w (n + 1) [] (nextToken w (spaces level ++ code '}' :: rest)) := by
      rw [parseFactor]
      rfl
    rw [hstep, hclose, parseMembers, if_pos rfl]
    rfl
  · have hlen : ms.length ≠ 0 := by simpa using hnil
    have hopen : text ['{', '\n'] = [code '{', code '\n'] := rfl
    simp only [if_neg hlen, hopen, List.cons_append, List.nil_append, List.append_assoc, nextToken_brace,
      List.length_append, List.length_cons] at hn ⊢
    refine ⟨htk, ?_⟩
    have hends : Ends (code '\n' :: (spaces level ++ code '}' :: rest)) :=
      fun c hc => .inr (.inr (Option.some.inj hc).symm)
    have hloop : parseMembers w n (toMembers []) (nextToken w (memberTexts level false ms ++
        code '\n' :: (spaces level ++ code '}' :: rest))) =
        some (.obj false (toMembers (cutMembers [] ms)), nextToken w rest) :=
      parseMembers_eq hraw hms level hends (by rw [nextToken_white (by decide), hclose]) (by omega)
    have hstep : parseFactor w (n + 1) ⟨(code '{').toNat, [],
        code '\n' :: (memberTexts level false ms ++ code '\n' :: (spaces level ++ code '}' :: rest))⟩ =
      parseMembers w n [] (nextToken w (memberTexts level false ms ++
        code '\n' :: (spaces level ++ code '}' :: rest))) := by
      rw [parseFactor, nextToken_white (by decide)]
      rfl
    rw [hstep, cut, toVar]
    exact hloop

/-! ### Trees -/

theorem Clean.parses (hw : w = 32 ∨ w = 64) (h : Clean w v) : Parses w v := by
  induction h with
  | int hi => exact parses_int hw hi
  | str hs => exact parses_str hs
  | arr _ ih => exact parses_arr ih
  | obj hraw _ ih => exact parses_obj hraw ih

/-- The whole text of a value. -/
theorem Clean.parseStr (hw : w = 32 ∨ w = 64) (h : Clean w v) (hlen : (jsonVarToJsonStr 0 v.toVar).length < 2 ^ 31)
    {fuel : ℕ} (hf : (jsonVarToJsonStr 0 v.toVar).length < fuel) :
    jsonParseStr w fuel (jsonVarToJsonStr 0 v.toVar) = some v.cut.toVar := by
  have hinput : lexInput (jsonVarToJsonStr 0 v.toVar) = jsonVarToJsonStr 0 v.toVar := by
    have hbmod : Int.bmod (jsonVarToJsonStr 0 v.toVar).length (2 ^ 32) = (jsonVarToJsonStr 0 v.toVar).length :=
      Int.bmod_eq_of_le (by omega) (by omega)
    rw [lexInput, hbmod, Int.toNat_natCast, List.take_length]
  obtain ⟨-, hparse⟩ := h.parses hw 0 fuel [] (fun c hc => nomatch hc) hf
  rw [List.append_nil, toText] at hparse
  rw [jsonParseStr, hinput, hparse, Option.map_some]

/-- What is printed is parsed: the tree comes back, up to what the printer and `str_cpy` cut, and whole
    where they cut nothing. -/
theorem parse_print (w fuel : ℕ) (v : Value) (hw : w = 32 ∨ w = 64) (h : Clean w v)
    (hlen : (jsonVarToJsonStr 0 v.toVar).length < 2 ^ 31) (hf : (jsonVarToJsonStr 0 v.toVar).length < fuel) :
    jsonParseStr w fuel (jsonVarToJsonStr 0 v.toVar) = some v.cut.toVar ∧ (Whole v → v.cut = v) :=
  ⟨h.parseStr hw hlen hf, Whole.cut⟩

/-- `{"a": [1, "b"], "c": {}}`. -/
def sample : Value :=
  .obj [(text ['a'], .arr [.int 1, .str (text ['b'])]), (text ['c'], .obj [])]

theorem sample_clean : Clean 32 sample := by
  refine .obj (by decide +kernel) ?_
  simp only [List.mem_cons, List.not_mem_nil, or_false, forall_eq_or_imp, forall_eq]
  refine ⟨.arr ?_, .obj (by simp) (by simp)⟩
  simp only [List.mem_cons, List.not_mem_nil, or_false, forall_eq_or_imp, forall_eq]
  exact ⟨.int (.inl (by decide)), .str (by decide +kernel)⟩

theorem sample_parsed : (jsonVarToJsonStr 0 sample.toVar).length < 50 ∧
    jsonParseStr 32 50 (jsonVarToJsonStr 0 sample.toVar) = some sample.cut.toVar :=
  have hlen : (jsonVarToJsonStr 0 sample.toVar).length < 50 := by decide +kernel
  ⟨hlen, (parse_print 32 50 sample (.inl rfl) sample_clean (by omega) hlen).1⟩

/-- The tree itself comes back. -/
def ComesBack (w : ℕ) (v : Value) : Prop :=
  ∀ fuel, (jsonVarToJsonStr 0 v.toVar).length < fuel →
    jsonParseStr w fuel (jsonVarToJsonStr 0 v.toVar) = some v.toVar

/-- A tree that is cut does not. -/
theorem Clean.not_comesBack (h : Clean 64 v) (hlen : (jsonVarToJsonStr 0 v.toVar).length < 2 ^ 31)
    (hcut : v.cut.toVar ≠ v.toVar) : ¬ComesBack 64 v := by
  intro hback
  have hparse := h.parseStr (.inr rfl) hlen (Nat.lt_succ_self _)
  rw [hback _ (Nat.lt_succ_self _)] at hparse
  exact hcut (Option.some.inj hparse).symm

/-- A number read as a float. -/
def isFloat : Option Var → Bool
  | some (.float _) => true
  | _ => false

/-- An array of 101 elements, a member named `prototype`, a string with a quote and, with a `long` of
    32 bits, a negative number do not come back. -/
theorem not_all_back : (∃ v, Plain v ∧ v = .arr (List.replicate 101 (.int 0)) ∧ ¬ComesBack 64 v) ∧
    (∃ v, Plain v ∧ v = .obj [(prototypeName, .int 0)] ∧ ¬ComesBack 64 v) ∧
    (∃ v, Plain v ∧ v = .str (text ['"']) ∧ ¬ComesBack 64 v) ∧
    ∃ v, Plain v ∧ v = .int (-1) ∧ ¬ComesBack 32 v := by
  refine ⟨⟨_, .arr fun v hv => ?_, rfl, ?_⟩, ⟨_, .obj (by decide) (by decide) ?_, rfl, ?_⟩,
    ⟨_, .str (by decide), rfl, ?_⟩, _, .int, rfl, ?_⟩
  · rw [List.eq_of_mem_replicate hv]
    exact .int
  · refine Clean.not_comesBack (.arr fun v hv => ?_) (by decide +kernel) ?_
    · rw [List.eq_of_mem_replicate hv]
      exact .int (.inl (by decide))
    · simp [cut, toVar, cutItems_eq, toItems_eq]
  · simp [Plain.int]
  · refine Clean.not_comesBack (.obj (by decide +kernel) ?_) (by decide +kernel) ?_
    · simp only [List.mem_singleton, forall_eq]
      exact .int (.inl (by decide))
    · simp [cut, toVar, cutMembers, toMembers]
  · intro hback
    have hparse := hback 10 (by decide)
    have hempty : jsonParseStr 64 10 (jsonVarToJsonStr 0 (toVar (.str (text ['"'])))) = some (.str []) := rfl
    rw [hempty] at hparse
    simp [toVar, text] at hparse
  · intro hback
    have hparse := hback 10 (by decide)
    have hfloat : isFloat (jsonParseStr 32 10 (jsonVarToJsonStr 0 (toVar (.int (-1))))) = true := by decide +kernel
    rw [hparse] at hfloat
    simp [toVar, isFloat] at hfloat

end Value
end EwokOS.Json
