import Mathlib.Algebra.Ring.Int.Defs
import Mathlib.Algebra.Ring.Nat
import Mathlib.Data.List.Basic

/-! Values of tinyjson and their text (`tinyjson.c`, with `str_t` of `mstr.c`).

    A variable is a scalar or an object with named children. An array is an object marked as one, with
    a hidden child that holds the elements under empty names:

        [1, 2]   =   obj (array)
                      └─ _ARRAY_ = obj
                                    ├─ "" = 1
                                    └─ "" = 2

    The printer remembers the objects it has printed, by address; in a tree none comes twice, so that
    list is left out. Texts are the bytes of a C string, without the NUL at the end. -/

namespace EwokOS.Json

abbrev Bytes := List UInt8

/-- A character constant. -/
def code (c : Char) : UInt8 := c.toUInt8

/-- A string constant. -/
def text (l : List Char) : Bytes := l.map code

/-- `json_var_t`. A float is kept as the text it was read from. -/
inductive Var where
  | undef
  | null
  | bool (v : Bool)
  | int (v : Int32)
  | float (v : Bytes)
  | str (v : Bytes)
  | obj (isArray : Bool) (children : List (Bytes × Var))

/-- The name of the hidden child. -/
def arrayName : Bytes := text ['_', 'A', 'R', 'R', 'A', 'Y', '_']

/-- The member the printer leaves out. -/
def prototypeName : Bytes := text ['p', 'r', 'o', 't', 'o', 't', 'y', 'p', 'e']

/-! ### Children -/

section
variable {α : Type}

/-- `json_array_add`: the size has 16 bits, and a list that fills them up is lost. -/
def jsonArrayAdd (l : List α) (x : α) : List α :=
  if (l.length + 1) % 2 ^ 16 = 0 then [] else l ++ [x]

/-- `json_var_find_raw` and `json_node_replace`: the first child of that name. -/
def replaceNode (name : Bytes) (v : α) : List (Bytes × α) → Option (List (Bytes × α))
  | [] => none
  | (n, w) :: l => if n = name then some ((n, v) :: l) else (replaceNode name v l).map ((n, w) :: ·)

/-- `json_var_add`: a child without a name is always a new one. -/
def jsonVarAdd (l : List (Bytes × α)) (name : Bytes) (v : α) : List (Bytes × α) :=
  match if name = [] then none else replaceNode name v l with
  | some l' => l'
  | none => jsonArrayAdd l (name, v)

end

/-- `json_var_new_array`. -/
def jsonVarNewArray : Var := .obj true [(arrayName, .obj false [])]

/-- The elements of the first child named `_ARRAY_` change; without one nothing does. -/
def addElement (v : Var) : List (Bytes × Var) → List (Bytes × Var)
  | [] => []
  | (n, w) :: l =>
    if n = arrayName then
      match w with
      | .obj a items => (n, .obj a (jsonVarAdd items [] v)) :: l
      | w => (n, w) :: l
    else (n, w) :: addElement v l

/-- `json_var_array_add`. -/
def jsonVarArrayAdd (arr v : Var) : Var :=
  match arr with
  | .obj a cs => .obj a (addElement v cs)
  | w => w

/-! ### Text -/

/-- `str_cpy`: no more than `0xFFFF` bytes. -/
def strCpy (s : Bytes) : Bytes := s.take 0xFFFF

/-- The characters `str_from_int` puts down, the last digit first. -/
def intDigits : ℕ → ℤ → Bytes
  | 0, _ => []
  | n + 1, v =>
    let q := v.tdiv 10
    (code '0' + UInt8.ofNat (v - q * 10).natAbs) ::
      if q = 0 then (if v < 0 then [code '-'] else []) else intDigits n q

/-- `str_from_int` in base 10. An `int` has no more than ten digits. -/
def strFromInt (i : Int32) : Bytes := (intDigits 10 i.toInt).reverse

/-- `json_var_to_str` of what is no object; without `M_FLOAT`, `str_from_float` is `"0.0"`. -/
def jsonVarToStr : Var → Bytes
  | .int i => strCpy (strFromInt i)
  | .float _ => text ['0', '.', '0']
  | .str s => strCpy s
  | .bool v => if v then text ['t', 'r', 'u', 'e'] else text ['f', 'a', 'l', 's', 'e']
  | .null => text ['n', 'u', 'l', 'l']
  | .obj .. => []
  | .undef => text ['u', 'n', 'd', 'e', 'f', 'i', 'n', 'e', 'd']

/-- `get_m_str`. -/
def getMStr (s : Bytes) : Bytes := code '"' :: s ++ [code '"']

/-- `get_parsable_str`. -/
def getParsableStr (v : Var) : Bytes :=
  match v with
  | .str _ => getMStr (jsonVarToStr v)
  | .undef | .null | .bool _ | .int _ | .float _ | .obj .. => strCpy (jsonVarToStr v)

/-- Two spaces for each level. -/
def spaces (n : ℕ) : Bytes := List.replicate (2 * n) (code ' ')

/-- The texts of the elements an array prints, with `", "` between them. -/
def commaed (l : List Bytes) : Bytes := (l.take 100).intersperse (text [',', ' ']) |>.flatten

mutual

/-- `json_var_to_json_str`. -/
def jsonVarToJsonStr (level : ℕ) : Var → Bytes
  | .obj true cs => code '[' :: printArray level cs ++ [code ']']
  | .obj false cs =>
    (if cs.length = 0 then [code '{'] else text ['{', '\n']) ++ printMembers level false cs ++
      (if cs.length = 0 then [] else [code '\n']) ++ spaces level ++ [code '}']
  | .undef => getParsableStr .undef
  | .null => getParsableStr .null
  | .bool v => getParsableStr (.bool v)
  | .int v => getParsableStr (.int v)
  | .float v => getParsableStr (.float v)
  | .str v => getParsableStr (.str v)

/-- The elements of an array: the children of its first child named `_ARRAY_`. -/
def printArray (level : ℕ) : List (Bytes × Var) → Bytes
  | [] => []
  | (n, .obj _ items) :: l => if n = arrayName then commaed (printItems level items) else printArray level l
  | (n, _) :: l => if n = arrayName then [] else printArray level l

def printItems (level : ℕ) : List (Bytes × Var) → List Bytes
  | [] => []
  | (_, v) :: l => jsonVarToJsonStr level v :: printItems level l

/-- The members of an object; `had` is whether one has been printed. -/
def printMembers (level : ℕ) (had : Bool) : List (Bytes × Var) → Bytes
  | [] => []
  | (n, v) :: l =>
    if n = prototypeName then printMembers level had l
    else (if had then text [',', '\n'] else []) ++ spaces (level + 1) ++ getMStr n ++ text [':', ' '] ++
      jsonVarToJsonStr (level + 1) v ++ printMembers level true l

end

end EwokOS.Json
