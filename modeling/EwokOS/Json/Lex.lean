import EwokOS.Json.Var

/-! The lexer and the parser of tinyjson (`tinyjson.c`), and the numbers of `compat.c`.

    The lexer is what is left of the input from `curr_ch` on, with the last token; it reads one token
    ahead of the parser:

        [ 1 2 , " a " ]
              ▲ ▲
            tk  input          tk is the token before what is left

    Past the end `curr_ch` is 0, and nothing more is taken. The token codes are those of the source:
    `JSON_LEX_R_TRUE` and `JSON_LEX_EOF` are both 0. The loops of the parser stop at a bracket and not at
    the end of the input, so the parser takes fuel. -/

namespace EwokOS.Json

/-! ### Numbers -/

/-- `is_space`. -/
def isSpace (c : UInt8) : Bool := c ∈ text [' ', '\t', '\n', '\r'] ∨ c = 12 ∨ c = 11

/-- `digit_value`; -1 is `none`. -/
def digitValue (c : UInt8) : Option ℕ :=
  if code '0' ≤ c ∧ c ≤ code '9' then some (c - code '0').toNat
  else if code 'a' ≤ c ∧ c ≤ code 'z' then some ((c - code 'a').toNat + 10)
  else if code 'A' ≤ c ∧ c ≤ code 'Z' then some ((c - code 'A').toNat + 10)
  else none

/-- The loop of `strtoul`, for an `unsigned long` of `w` bits. -/
def digitsFrom (w base : ℕ) : ℕ → Bytes → ℕ
  | r, [] => r
  | r, c :: l =>
    match digitValue c with
    | none => r
    | some v => if base ≤ v then r else digitsFrom w base ((r * base + v) % 2 ^ w) l

/-- `0x` in front of a number in base 16. -/
def dropHex (base : ℕ) : Bytes → Bytes
  | a :: x :: l => if base = 16 ∧ a = code '0' ∧ (x = code 'x' ∨ x = code 'X') then l else a :: x :: l
  | l => l

/-- `strtoul`, for the bases 8, 10 and 16. -/
def strtoul (w base : ℕ) (s : Bytes) : ℕ :=
  match s.dropWhile isSpace with
  | [] => 0
  | c :: l =>
    let neg := c = code '-'
    let r := digitsFrom w base 0 (dropHex base (if c = code '+' ∨ c = code '-' then l else c :: l))
    if neg then (2 ^ w - r) % 2 ^ w else r

/-- `strtoll` is `strtoul`, as a `long long`. -/
def strtoll (w : ℕ) (s : Bytes) : ℤ := Int.bmod (strtoul w 10 s) (2 ^ 64)

/-! ### Characters -/

/-- `json_is_whitespace`. -/
def isWhitespace (c : UInt8) : Bool := c ∈ text [' ', '\t', '\n', '\r']

/-- `json_is_numeric`. -/
def isNumeric (c : UInt8) : Bool := code '0' ≤ c ∧ c ≤ code '9' ∨ c = code '-'

/-- `json_is_hexadecimal`. -/
def isHexadecimal (c : UInt8) : Bool :=
  code '0' ≤ c ∧ c ≤ code '9' ∨ code 'a' ≤ c ∧ c ≤ code 'f' ∨ code 'A' ≤ c ∧ c ≤ code 'F'

/-- `json_is_alpha`. -/
def isAlpha (c : UInt8) : Bool :=
  code 'a' ≤ c ∧ c ≤ code 'z' ∨ code 'A' ≤ c ∧ c ≤ code 'Z' ∨ c = code '_'

/-! ### Tokens -/

/-- The codes of tokens that are no characters. -/
def lexEof : ℕ := 0
def lexId : ℕ := 256
def lexInt : ℕ := 257
def lexFloat : ℕ := 258
def lexStr : ℕ := 259
def lexTrue : ℕ := 0
def lexFalse : ℕ := 1
def lexNull : ℕ := 2
def lexUndefined : ℕ := 3

/-- `json_lex_t`: the last token, its text and what is left of the input. -/
structure Lex where
  tk : ℕ
  str : Bytes
  input : Bytes

/-- `json_lex_skip_comments_block` once it is in the comment. -/
def dropBlock : Bytes → Bytes
  | c :: d :: l => if c = code '*' ∧ d = code '/' then l else dropBlock (d :: l)
  | _ => []

/-- Whitespace and comments before a token, no more than `n` comments. -/
def skipFrom : ℕ → Bytes → Bytes
  | 0, l => l
  | n + 1, l =>
    match l.dropWhile isWhitespace with
    | c :: d :: l =>
      if c = code '/' ∧ d = code '/' then skipFrom n (((c :: d :: l).dropWhile (· ≠ code '\n')).drop 1)
      else if c = code '/' ∧ d = code '*' then skipFrom n (dropBlock (c :: d :: l))
      else c :: d :: l
    | l => l

/-- The first byte, if it is one of `p`, and the rest. -/
def eat (p : UInt8 → Bool) : Bytes → Bytes × Bytes
  | [] => ([], [])
  | c :: l => if p c then ([c], l) else ([], c :: l)

/-- A number: its token, its text and the rest. -/
def getNumber (l : Bytes) : Lex :=
  let (zero, l) := eat (· = code '0') l
  let (x, l) := eat (fun c => c = code 'x' ∨ c = code 'X') l
  let isHex := x ≠ []
  let digit := fun c => isNumeric c || (isHex && isHexadecimal c)
  let whole := zero ++ x ++ l.takeWhile digit
  let l := l.dropWhile digit
  let frac := !isHex && l.head? == some (code '.') && (l.tail.head?.map isNumeric).getD false
  let (tk, str, l) := if frac then
      (lexFloat, whole ++ l.take 1 ++ l.tail.takeWhile isNumeric, l.tail.dropWhile isNumeric)
    else (lexInt, whole, l)
  if !isHex && (l.head? == some (code 'e') || l.head? == some (code 'E')) then
    let (minus, r) := eat (· = code '-') l.tail
    ⟨lexFloat, str ++ l.take 1 ++ minus ++ r.takeWhile isNumeric, r.dropWhile isNumeric⟩
  else ⟨tk, str, l⟩

/-- What an escaped character stands for. -/
def unescape (c : UInt8) : UInt8 :=
  if c = code 'n' then code '\n' else if c = code 'r' then code '\r'
  else if c = code 't' then code '\t' else c

/-- The text of a string in double quotes, and what is behind it. -/
def getString : Bytes → Bytes × Bytes
  | [] => ([], [])
  | [c] => if c = code '"' ∨ c = code '\\' then ([], []) else ([c], [])
  | c :: d :: l =>
    if c = code '"' then ([], d :: l)
    else if c = code '\\' then (unescape d :: (getString l).1, (getString l).2)
    else (c :: (getString (d :: l)).1, (getString (d :: l)).2)

/-- What an escaped character of a string in single quotes stands for, and the rest: `strtoul` reads a
    buffer that holds what `curr_ch` was, 0 past the end. -/
def jsEscape (w : ℕ) (c : UInt8) (l : Bytes) : Bytes × Bytes :=
  let numeral := fun base s => (strtoul w base (s.takeWhile (· ≠ 0))) % 256
  let put := fun v : ℕ => if v = 0 then [] else [UInt8.ofNat v]
  if c = code 'n' then ([code '\n'], l) else if c = code 'a' then ([7], l)
  else if c = code 'r' then ([code '\r'], l) else if c = code 't' then ([code '\t'], l)
  else if c = code 'x' then (put (numeral 16 [l.headD 0, (l.drop 1).headD 0]), l.drop 2)
  else if code '0' ≤ c ∧ c ≤ code '7' then
    (put (numeral 8 [c, l.headD 0, (l.drop 1).headD 0]), l.drop 2)
  else ([c], l)

/-- `json_lex_js_get_js_str`, in no more than `n` rounds. -/
def getJsString (w : ℕ) : ℕ → Bytes → Bytes × Bytes
  | 0, l => ([], l)
  | _ + 1, [] => ([], [])
  | n + 1, c :: l =>
    if c = code '\'' then ([], l)
    else if c = code '\\' then
      match l with
      | [] => ([], [])
      | d :: l =>
        let (s, l) := jsEscape w d l
        (s ++ (getJsString w n l).1, (getJsString w n l).2)
    else (c :: (getJsString w n l).1, (getJsString w n l).2)

/-- `json_lex_js_get_reserved_word`. -/
def reservedWord (s : Bytes) : ℕ :=
  if s = text ['t', 'r', 'u', 'e'] then lexTrue
  else if s = text ['f', 'a', 'l', 's', 'e'] then lexFalse
  else if s = text ['n', 'u', 'l', 'l'] then lexNull
  else if s = text ['u', 'n', 'd', 'e', 'f', 'i', 'n', 'e', 'd'] then lexUndefined
  else lexId

/-- `json_lex_get_basic_token` and what `json_lex_js_get_next_token` does around it. -/
def getToken (w : ℕ) : Bytes → Lex
  | [] => ⟨lexEof, [], []⟩
  | c :: l =>
    if isAlpha c then
      let id := fun c => isAlpha c || isNumeric c
      ⟨reservedWord ((c :: l).takeWhile id), (c :: l).takeWhile id, (c :: l).dropWhile id⟩
    else if isNumeric c then getNumber (c :: l)
    else if c = code '"' then ⟨lexStr, (getString l).1, (getString l).2⟩
    else if c = code '\'' then ⟨lexStr, (getJsString w l.length l).1, (getJsString w l.length l).2⟩
    else ⟨c.toNat, [], l⟩

/-- `json_lex_js_get_next_token`. -/
def nextToken (w : ℕ) (l : Bytes) : Lex := getToken w (skipFrom (l.length + 1) l)

/-- `json_lex_js_chkread`. -/
def chkread (w : ℕ) (s : Lex) (tk : ℕ) : Lex := if s.tk = tk then nextToken w s.input else s

/-! ### The parser -/

/-- A number that is no float: hexadecimal when there is an `x` in it, else an `int` where it fits. -/
def parseInt (w : ℕ) (s : Bytes) : Var :=
  if code 'x' ∈ s ∨ code 'X' ∈ s then .int (Int32.ofNat (strtoul w 16 s))
  else if strtoll w s < -2147483648 ∨ 2147483647 < strtoll w s then .float s
  else .int (Int32.ofInt (strtoll w s))

mutual

/-- `json_parse_factor`. -/
def parseFactor (w : ℕ) : ℕ → Lex → Option (Var × Lex)
  | 0, _ => none
  | n + 1, s =>
    let next := nextToken w s.input
    if s.tk = lexTrue then some (.int 1, next)
    else if s.tk = lexFalse then some (.int 0, next)
    else if s.tk = lexNull then some (.undef, next)
    else if s.tk = lexUndefined then some (.undef, next)
    else if s.tk = lexInt then some (parseInt w s.str, next)
    else if s.tk = lexFloat then some (.float s.str, next)
    else if s.tk = lexStr then some (.str (strCpy s.str), next)
    else if s.tk = (code '[').toNat then parseItems w n jsonVarNewArray next
    else if s.tk = (code '{').toNat then parseMembers w n [] next
    else some (.undef, s)

/-- The elements of an array. -/
def parseItems (w : ℕ) : ℕ → Var → Lex → Option (Var × Lex)
  | 0, _, _ => none
  | n + 1, arr, s =>
    if s.tk = (code ']').toNat then some (arr, nextToken w s.input)
    else (parseFactor w n s).bind fun (v, s) =>
      parseItems w n (jsonVarArrayAdd arr v)
        (if s.tk = (code ']').toNat then s else chkread w s (code ',').toNat)

/-- The members of an object. -/
def parseMembers (w : ℕ) : ℕ → List (Bytes × Var) → Lex → Option (Var × Lex)
  | 0, _, _ => none
  | n + 1, ms, s =>
    if s.tk = (code '}').toNat then some (.obj false ms, nextToken w s.input)
    else
      let id := strCpy s.str
      let s := if s.tk = lexStr then nextToken w s.input else chkread w s lexId
      (parseFactor w n (chkread w s (code ':').toNat)).bind fun (v, s) =>
        parseMembers w n (jsonVarAdd ms id v)
          (if s.tk = (code '}').toNat then s else chkread w s (code ',').toNat)

end

/-- What `json_lex_init` takes of a text: its length is an `int`. -/
def lexInput (s : Bytes) : Bytes := s.take (Int.bmod s.length (2 ^ 32)).toNat

/-- `json_parse_str`, where it comes to an end within the fuel. -/
def jsonParseStr (w fuel : ℕ) (s : Bytes) : Option Var :=
  (parseFactor w fuel (nextToken w (lexInput s))).map Prod.fst

end EwokOS.Json
