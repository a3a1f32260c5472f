import EwokOS.Json.Value
import Mathlib.Tactic.IntervalCases

/-! The tokens of a printed text.

    Whitespace in front of a token does not matter (`nextToken_white`), a bracket, comma or colon is a
    token of its own, a raw string between quotes is taken as it is (`nextToken_str`), and the digits of
    an integer are read back (`strtoll_strFromInt`) up to what follows a number in a text (`Ends`). -/

namespace EwokOS.Json

variable {w : ℕ} {c : UInt8} {l s rest : Bytes}

/-! ### Whitespace -/

theorem length_dropBlock_le (l : Bytes) : (dropBlock l).length ≤ l.length := by
  induction l with
  | nil => exact Nat.le_refl _
  | cons c l ih =>
    cases l with
    | nil => exact Nat.zero_le _
    | cons d l =>
      rw [dropBlock]
      split_ifs
      · simp only [List.length_cons]
        omega
      · exact ih.trans (Nat.le_succ _)

/-- More fuel than input changes nothing. -/
theorem skipFrom_fuel {n m : ℕ} (hn : l.length < n) (hm : l.length < m) : skipFrom n l = skipFrom m l := by
  induction n generalizing m l with
  | zero => omega
  | succ n ih =>
    obtain ⟨m, rfl⟩ : ∃ k, m = k + 1 := ⟨m - 1, by omega⟩
    have hlen : (l.dropWhile isWhitespace).length ≤ l.length := (List.dropWhile_suffix _).length_le
    rw [skipFrom, skipFrom]
    generalize l.dropWhile isWhitespace = t at hlen
    match t with
    | [] => rfl
    | [c] => rfl
    | c :: d :: t =>
      simp only [List.length_cons] at hlen
      dsimp only
      split_ifs with hline hblock
      · have hdrop : ((d :: t).dropWhile (· ≠ code '\n')).length ≤ (d :: t).length :=
          (List.dropWhile_suffix _).length_le
        have hlt : (((c :: d :: t).dropWhile (· ≠ code '\n')).drop 1).length < l.length := by
          rw [List.dropWhile_cons_of_pos (by rw [hline.1]; decide), List.length_drop]
          simp only [List.length_cons] at hdrop
          omega
        exact ih (by omega) (by omega)
      · have hlt : (dropBlock (c :: d :: t)).length < l.length := by
          have hrest := length_dropBlock_le (d :: t)
          rw [dropBlock, if_neg fun h => absurd (hblock.1.symm.trans h.1) (by decide)]
          simp only [List.length_cons] at hrest
          omega
        exact ih (by omega) (by omega)
      · rfl

/-- Whitespace in front of a token is skipped. -/
theorem nextToken_white (hc : isWhitespace c = true) : nextToken w (c :: l) = nextToken w l := by
  have hone : skipFrom (l.length + 1 + 1) (c :: l) = skipFrom (l.length + 1 + 1) l := by
    rw [skipFrom, skipFrom, List.dropWhile_cons_of_pos hc]
  rw [nextToken, nextToken, List.length_cons, hone]
  exact congrArg _ (skipFrom_fuel (by omega) (by omega))

theorem nextToken_spaces (n : ℕ) : nextToken w (spaces n ++ l) = nextToken w l := by
  rw [spaces]
  induction 2 * n with
  | zero => rfl
  | succ k ih =>
    rw [List.replicate_succ, List.cons_append, nextToken_white (by decide), ih]

/-- A token starts where whitespace ends. -/
theorem nextToken_head (hw : isWhitespace c = false) (hc : c ≠ code '/') :
    nextToken w (c :: l) = getToken w (c :: l) := by
  rw [nextToken, skipFrom, List.dropWhile_cons_of_neg (by rw [hw]; exact Bool.false_ne_true)]
  cases l with
  | nil => rfl
  | cons d l =>
    dsimp only
    rw [if_neg fun h => hc h.1, if_neg fun h => hc h.1]

/-! ### Characters and strings -/

theorem nextToken_bracket : nextToken w (code '[' :: l) = ⟨(code '[').toNat, [], l⟩ :=
  nextToken_head (by decide) (by decide)

theorem nextToken_close : nextToken w (code ']' :: l) = ⟨(code ']').toNat, [], l⟩ :=
  nextToken_head (by decide) (by decide)

theorem nextToken_brace : nextToken w (code '{' :: l) = ⟨(code '{').toNat, [], l⟩ :=
  nextToken_head (by decide) (by decide)

theorem nextToken_end : nextToken w (code '}' :: l) = ⟨(code '}').toNat, [], l⟩ :=
  nextToken_head (by decide) (by decide)

theorem nextToken_comma : nextToken w (code ',' :: l) = ⟨(code ',').toNat, [], l⟩ :=
  nextToken_head (by decide) (by decide)

theorem nextToken_colon : nextToken w (code ':' :: l) = ⟨(code ':').toNat, [], l⟩ :=
  nextToken_head (by decide) (by decide)

/-- A raw string ends at the first quote. -/
theorem getString_raw (hs : Value.Raw s) : getString (s ++ code '"' :: rest) = (s, rest) := by
  induction s with
  | nil => cases rest <;> simp [getString]
  | cons c s ih =>
    obtain ⟨-, hq, hb⟩ := hs c List.mem_cons_self
    have ih := ih fun x hx => hs x (List.mem_cons_of_mem c hx)
    obtain ⟨d, t, ht⟩ : ∃ d t, s ++ code '"' :: rest = d :: t := by cases s <;> exact ⟨_, _, rfl⟩
    rw [ht] at ih
    rw [List.cons_append, ht, getString, if_neg hq, if_neg hb, ih]

theorem nextToken_str (hs : Value.Raw s) : nextToken w (getMStr s ++ rest) = ⟨lexStr, s, rest⟩ := by
  have htoken : nextToken w (getMStr s ++ rest) =
      ⟨lexStr, (getString (s ++ code '"' :: rest)).1, (getString (s ++ code '"' :: rest)).2⟩ := by
    rw [getMStr, List.append_assoc, List.cons_append, nextToken_head (by decide) (by decide)]
    rfl
  rw [htoken, getString_raw hs]

theorem raw_take (hs : Value.Raw s) (n : ℕ) : Value.Raw (s.take n) := fun c hc => hs c (List.mem_of_mem_take hc)

/-! ### Numbers -/

/-- The value of a row of digits. -/
def valueOf (s : Bytes) : ℕ := s.foldl (fun r c => r * 10 + (c - code '0').toNat) 0

def isDigit (c : UInt8) : Bool := code '0' ≤ c ∧ c ≤ code '9'

theorem digit_code (k : ℕ) (hk : k < 10) : isDigit (code '0' + UInt8.ofNat k) = true ∧
    (code '0' + UInt8.ofNat k - code '0').toNat = k := by
  interval_cases k <;> decide

/-- The sign `str_from_int` puts in front. -/
def sign (v : ℤ) : Bytes := if v < 0 then [code '-'] else []

/-- What `str_from_int` writes: a sign, and digits that have the value. -/
structure Digits (v : ℤ) (s : Bytes) : Prop where
  digit : ∀ c ∈ s, isDigit c = true
  ne : s ≠ []
  value : valueOf s = v.natAbs

theorem intDigits_spec {n : ℕ} {v : ℤ} (hn : v.natAbs < 10 ^ n) (hpos : 0 < n) :
    ∃ s, (intDigits n v).reverse = sign v ++ s ∧ Digits v s := by
  induction n generalizing v with
  | zero => omega
  | succ n ih =>
    have hdiv : (v.tdiv 10).natAbs = v.natAbs / 10 := Int.natAbs_tdiv v 10
    have hrem : (v - v.tdiv 10 * 10).natAbs = v.natAbs % 10 := by
      rw [Int.mul_comm, ← Int.tmod_def]
      exact Int.natAbs_tmod v 10
    obtain ⟨hdigit, hval⟩ := digit_code (v.natAbs % 10) (Nat.mod_lt _ (by decide))
    rw [intDigits, hrem]
    set d := code '0' + UInt8.ofNat (v.natAbs % 10)
    split_ifs with h0 hneg
    · refine ⟨[d], by rw [sign, if_pos hneg]; rfl, ?_, by simp, ?_⟩
      · simpa using hdigit
      · simp only [valueOf, List.foldl_cons, List.foldl_nil, hval]
        omega
    · refine ⟨[d], by rw [sign, if_neg hneg]; rfl, ?_, by simp, ?_⟩
      · simpa using hdigit
      · simp only [valueOf, List.foldl_cons, List.foldl_nil, hval]
        omega
    · have hlt : (v.tdiv 10).natAbs < 10 ^ n := by
        rw [hdiv]
        rw [Nat.pow_succ] at hn
        omega
      have hn' : 0 < n := by
        rcases Nat.eq_zero_or_pos n with rfl | h
        · omega
        · exact h
      obtain ⟨s, hs, hd⟩ := ih hlt hn'
      have hsign : sign (v.tdiv 10) = sign v := by
        have hmul := Int.mul_tdiv_add_tmod v 10
        have hmod := Int.natAbs_tmod v 10
        rw [sign, sign]
        exact if_congr (by omega) rfl rfl
      refine ⟨s ++ [d], ?_, fun c hc => ?_, by simp, ?_⟩
      · rw [List.reverse_cons, hs, hsign, List.append_assoc]
      · rcases List.mem_append.mp hc with hc | hc
        · exact hd.digit c hc
        · rw [List.mem_singleton.mp hc]
          exact hdigit
      · have hv := hd.value
        rw [valueOf] at hv ⊢
        rw [List.foldl_append, hv, hdiv, List.foldl_cons, List.foldl_nil, hval]
        omega

/-- What holds of each byte holds of all. -/
theorem forall_byte {p : UInt8 → Prop} (h : ∀ n < 256, p (UInt8.ofNat n)) (c : UInt8) : p c := by
  have hc := h c.toNat c.toNat_lt
  rwa [UInt8.ofNat_toNat] at hc

/-- Digits are what the lexer and `strtoul` take them for. -/
theorem digit_facts (c : UInt8) (hc : isDigit c = true) : digitValue c = some (c - code '0').toNat ∧
    (c - code '0').toNat < 10 ∧ isNumeric c = true ∧ isSpace c = false ∧ c ≠ code '+' ∧ c ≠ code '-' :=
  forall_byte (p := fun c => isDigit c = true → digitValue c = some (c - code '0').toNat ∧
    (c - code '0').toNat < 10 ∧ isNumeric c = true ∧ isSpace c = false ∧ c ≠ code '+' ∧ c ≠ code '-')
    (by decide +kernel) c hc

/-- And so are the characters of a number. -/
theorem numeric_facts (c : UInt8) (hc : isNumeric c = true) : c ≠ code 'x' ∧ c ≠ code 'X' ∧
    isAlpha c = false ∧ isWhitespace c = false ∧ c ≠ code '/' :=
  forall_byte (p := fun c => isNumeric c = true → c ≠ code 'x' ∧ c ≠ code 'X' ∧
    isAlpha c = false ∧ isWhitespace c = false ∧ c ≠ code '/') (by decide +kernel) c hc

theorem digitsFrom_eq {r : ℕ} (hs : ∀ c ∈ s, isDigit c = true) (hr : r < 2 ^ w) :
    digitsFrom w 10 r s = s.foldl (fun r c => r * 10 + (c - code '0').toNat) r % 2 ^ w := by
  have hcong : ∀ (l : Bytes) (x y : ℕ), x % 2 ^ w = y % 2 ^ w →
      l.foldl (fun r c => r * 10 + (c - code '0').toNat) x % 2 ^ w =
        l.foldl (fun r c => r * 10 + (c - code '0').toNat) y % 2 ^ w := by
    intro l
    induction l with
    | nil => exact fun x y h => h
    | cons c l ih =>
      intro x y h
      refine ih _ _ ?_
      rw [Nat.add_mod, Nat.mul_mod, h, ← Nat.mul_mod, ← Nat.add_mod]
  induction s generalizing r with
  | nil => exact (Nat.mod_eq_of_lt hr).symm
  | cons c s ih =>
    obtain ⟨hv, hlt, -⟩ := digit_facts c (hs c List.mem_cons_self)
    rw [digitsFrom, hv]
    dsimp only
    rw [if_neg (Nat.not_le.mpr hlt), ih (fun x hx => hs x (List.mem_cons_of_mem c hx)) (Nat.mod_lt _ (Nat.two_pow_pos w)),
      List.foldl_cons]
    exact hcong s _ _ (Nat.mod_mod ..)

/-- `strtoul` of a printed number. -/
theorem strtoul_sign {v : ℤ} (h : Digits v s) : strtoul w 10 (sign v ++ s) =
    if v < 0 then (2 ^ w - v.natAbs % 2 ^ w) % 2 ^ w else v.natAbs % 2 ^ w := by
  obtain ⟨c, t, rfl⟩ := List.exists_cons_of_ne_nil h.ne
  have hval : digitsFrom w 10 0 (c :: t) = v.natAbs % 2 ^ w := by
    rw [digitsFrom_eq h.digit (Nat.two_pow_pos w), ← h.value, valueOf]
  obtain ⟨-, -, -, hspace, hplus, hminus⟩ := digit_facts c (h.digit c List.mem_cons_self)
  have hhex : dropHex 10 (c :: t) = c :: t := by
    cases t with
    | nil => rfl
    | cons d t => rw [dropHex, if_neg fun hh => absurd hh.1 (by decide)]
  rw [strtoul, sign]
  split_ifs with hneg
  · rw [List.singleton_append, List.dropWhile_cons_of_neg (by decide)]
    dsimp only
    rw [if_pos rfl, if_pos (.inr rfl), hhex, hval]
  · rw [List.nil_append, List.dropWhile_cons_of_neg (by rw [hspace]; exact Bool.false_ne_true)]
    dsimp only
    rw [if_neg hminus, if_neg (by simp [hplus, hminus]), hhex, hval]

/-- Small numbers and their negatives as a `long long`. -/
theorem bmod_small {n : ℕ} (hn : n ≤ 2147483648) : Int.bmod n 18446744073709551616 = n ∧
    Int.bmod ((18446744073709551616 - n) % 18446744073709551616 : ℕ) 18446744073709551616 = -(n : ℤ) := by
  rw [Int.bmod_def, Int.bmod_def]
  constructor <;> split_ifs <;> omega

/-- An integer is read back, a negative one by a `long` of 64 bits. -/
theorem strtoll_sign (hw : w = 32 ∨ w = 64) {v : ℤ} (h : Digits v s) (hv : v.natAbs ≤ 2147483648)
    (hneg : 0 ≤ v ∨ w = 64) : strtoll w (sign v ++ s) = v := by
  have hlt : v.natAbs < 2 ^ w := by
    have hpow : 2 ^ 32 ≤ 2 ^ w := Nat.pow_le_pow_right (by decide) (by omega)
    omega
  obtain ⟨hpos, hmin⟩ := bmod_small hv
  unfold strtoll
  rw [strtoul_sign h, Nat.mod_eq_of_lt hlt]
  split_ifs with hv0
  · obtain rfl : w = 64 := hneg.resolve_left (by omega)
    exact hmin.trans (by omega)
  · exact hpos.trans (by omega)

/-- What follows a value in a text. -/
def Ends (rest : Bytes) : Prop := ∀ c ∈ rest.head?, c = code ',' ∨ c = code ']' ∨ c = code '\n'

theorem ends_facts (hr : Ends rest) (p : UInt8 → Bool)
    (hp : p (code ',') = false ∧ p (code ']') = false ∧ p (code '\n') = false) :
    rest.takeWhile p = [] ∧ rest.dropWhile p = rest ∧ eat p rest = ([], rest) := by
  cases rest with
  | nil => exact ⟨rfl, rfl, rfl⟩
  | cons c t =>
    have hc : p c = false := by
      rcases hr c rfl with rfl | rfl | rfl
      · exact hp.1
      · exact hp.2.1
      · exact hp.2.2
    refine ⟨List.takeWhile_cons_of_neg (by simp [hc]), List.dropWhile_cons_of_neg (by simp [hc]), ?_⟩
    rw [eat, hc]
    rfl

theorem getNumber_eq (hs : ∀ c ∈ s, isNumeric c = true) (hr : Ends rest) :
    getNumber (s ++ rest) = ⟨lexInt, s, rest⟩ := by
  have hdot : (rest.head? == some (code '.')) = false ∧ (rest.head? == some (code 'e')) = false ∧
      (rest.head? == some (code 'E')) = false := by
    cases rest with
    | nil => decide
    | cons c t => rcases hr c rfl with rfl | rfl | rfl <;> exact ⟨rfl, rfl, rfl⟩
  obtain ⟨zero, t, hz, rfl⟩ : ∃ z t, eat (· = code '0') (s ++ rest) = (z, t ++ rest) ∧ s = z ++ t := by
    cases s with
    | nil => exact ⟨[], [], (ends_facts hr _ (by decide)).2.2, rfl⟩
    | cons c s =>
      rw [List.cons_append, eat]
      split_ifs
      · exact ⟨[c], s, rfl, rfl⟩
      · exact ⟨[], c :: s, rfl, rfl⟩
  have hx : eat (fun c => c = code 'x' ∨ c = code 'X') (t ++ rest) = ([], t ++ rest) := by
    cases t with
    | nil => exact (ends_facts hr _ (by decide)).2.2
    | cons c t =>
      obtain ⟨h₁, h₂, -⟩ := numeric_facts c (hs c (by simp))
      rw [List.cons_append, eat, if_neg (by simp [h₁, h₂])]
  have ht : ∀ c ∈ t, isNumeric c = true := fun c hc => hs c (List.mem_append_right zero hc)
  obtain ⟨htake, hdrop, -⟩ := ends_facts hr isNumeric (by decide)
  rw [getNumber, hz]
  dsimp only
  rw [hx]
  simp only [ne_eq, not_true_eq_false, decide_false, Bool.false_and, Bool.or_false, Bool.not_false, Bool.true_and,
    List.takeWhile_append_of_pos ht, List.dropWhile_append_of_pos ht, htake, hdrop, hdot, Bool.or_self,
    Bool.false_eq_true, if_false, List.append_nil]

end EwokOS.Json
