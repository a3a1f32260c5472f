import EwokOS.Json.Lex

/-! Value trees, and what is left of one that is printed.

    A `Value` is what a program builds: integers, strings, arrays, objects. `toVar` is how tinyjson keeps
    it. The printer shows the first 100 elements of an array and leaves out members named `prototype`,
    and `str_cpy` cuts strings and names: `cut` is the tree that is left. -/

namespace EwokOS.Json

inductive Value where
  | int (i : Int32)
  | str (s : Bytes)
  | arr (l : List Value)
  | obj (ms : List (Bytes × Value))

namespace Value

mutual

def toVar : Value → Var
  | .int i => .int i
  | .str s => .str s
  | .arr l => .obj true [(arrayName, .obj false (toItems l))]
  | .obj ms => .obj false (toMembers ms)

def toItems : List Value → List (Bytes × Var)
  | [] => []
  | v :: l => ([], v.toVar) :: toItems l

def toMembers : List (Bytes × Value) → List (Bytes × Var)
  | [] => []
  | (n, v) :: l => (n, v.toVar) :: toMembers l

end

mutual

/-- What is left of a tree in its text. -/
def cut : Value → Value
  | .int i => .int i
  | .str s => .str (strCpy s)
  | .arr l => .arr ((cutItems l).take 100)
  | .obj ms => .obj (cutMembers [] ms)

def cutItems : List Value → List Value
  | [] => []
  | v :: l => v.cut :: cutItems l

/-- Members that get the same name through cutting are one. -/
def cutMembers (kept : List (Bytes × Value)) : List (Bytes × Value) → List (Bytes × Value)
  | [] => kept
  | (n, v) :: l =>
    if n = prototypeName then cutMembers kept l else cutMembers (jsonVarAdd kept (strCpy n) v.cut) l

end

/-- The text of a value. -/
def toText (level : ℕ) (v : Value) : Bytes := jsonVarToJsonStr level v.toVar

/-- A string that the lexer takes as it is: neither NUL nor what it takes as the end or as an escape. -/
def Raw (s : Bytes) : Prop := ∀ c ∈ s, c ≠ 0 ∧ c ≠ code '"' ∧ c ≠ code '\\'

instance (s : Bytes) : Decidable (Raw s) := inferInstanceAs (Decidable (∀ c ∈ s, _))

/-- What a C program can build: no NUL in a string or name, and the names of an object are distinct. -/
inductive Plain : Value → Prop where
  | int {i : Int32} : Plain (.int i)
  | str {s : Bytes} : 0 ∉ s → Plain (.str s)
  | arr {l : List Value} : (∀ v ∈ l, Plain v) → Plain (.arr l)
  | obj {ms : List (Bytes × Value)} : (∀ m ∈ ms, 0 ∉ m.1) → (ms.map Prod.fst).Nodup → (∀ m ∈ ms, Plain m.2) →
      Plain (.obj ms)

/-- Strings and names are raw, and with a `long` of 32 bits no integer is negative. -/
inductive Clean (w : ℕ) : Value → Prop where
  | int {i : Int32} : 0 ≤ i.toInt ∨ w = 64 → Clean w (.int i)
  | str {s : Bytes} : Raw s → Clean w (.str s)
  | arr {l : List Value} : (∀ v ∈ l, Clean w v) → Clean w (.arr l)
  | obj {ms : List (Bytes × Value)} : (∀ m ∈ ms, Raw m.1) → (∀ m ∈ ms, Clean w m.2) → Clean w (.obj ms)

/-- Nothing is cut: short arrays, short strings and names, no member named `prototype`. Names are
    distinct, and an object has as many members as it can have. -/
inductive Whole : Value → Prop where
  | int {i : Int32} : Whole (.int i)
  | str {s : Bytes} : s.length ≤ 0xFFFF → Whole (.str s)
  | arr {l : List Value} : l.length ≤ 100 → (∀ v ∈ l, Whole v) → Whole (.arr l)
  | obj {ms : List (Bytes × Value)} : ms.length < 2 ^ 16 → (ms.map Prod.fst).Nodup →
      (∀ m ∈ ms, m.1.length ≤ 0xFFFF ∧ m.1 ≠ prototypeName) → (∀ m ∈ ms, Whole m.2) → Whole (.obj ms)

/-! ### Children -/

theorem toItems_cons (v : Value) (l : List Value) : toItems (v :: l) = ([], v.toVar) :: toItems l := rfl

theorem toMembers_cons (m : Bytes × Value) (ms : List (Bytes × Value)) :
    toMembers (m :: ms) = (m.1, m.2.toVar) :: toMembers ms := rfl

theorem cutItems_cons (v : Value) (l : List Value) : cutItems (v :: l) = v.cut :: cutItems l := rfl

theorem toItems_eq (l : List Value) : toItems l = l.map fun v => ([], v.toVar) := by
  induction l with
  | nil => rfl
  | cons v l ih => rw [toItems_cons, ih, List.map_cons]

theorem toMembers_eq (ms : List (Bytes × Value)) : toMembers ms = ms.map fun m => (m.1, m.2.toVar) := by
  induction ms with
  | nil => rfl
  | cons m ms ih => rw [toMembers_cons, ih, List.map_cons]

theorem cutItems_eq (l : List Value) : cutItems l = l.map cut := by
  induction l with
  | nil => rfl
  | cons v l ih => rw [cutItems_cons, ih, List.map_cons]

section
variable {α β : Type} {f : α → β} {l : List (Bytes × α)} {n : Bytes} {v : α}

theorem replaceNode_map : replaceNode n (f v) (l.map fun m => (m.1, f m.2)) =
    (replaceNode n v l).map (List.map fun m => (m.1, f m.2)) := by
  induction l with
  | nil => rfl
  | cons m l ih =>
    rw [List.map_cons, replaceNode, replaceNode, ih]
    split_ifs
    · rfl
    · rw [Option.map_map, Option.map_map]
      rfl

theorem jsonVarAdd_map : jsonVarAdd (l.map fun m => (m.1, f m.2)) n (f v) =
    (jsonVarAdd l n v).map fun m => (m.1, f m.2) := by
  rw [jsonVarAdd, jsonVarAdd, replaceNode_map]
  split_ifs
  · simp only [jsonArrayAdd, List.length_map]
    split_ifs
    · rfl
    · rw [List.map_append, List.map_singleton]
  · cases replaceNode n v l with
    | some l' => rfl
    | none =>
      simp only [Option.map_none, jsonArrayAdd, List.length_map]
      split_ifs
      · rfl
      · rw [List.map_append, List.map_singleton]

theorem replaceNode_none (h : n ∉ l.map Prod.fst) : replaceNode n v l = none := by
  induction l with
  | nil => rfl
  | cons m l ih =>
    rw [List.map_cons, List.mem_cons, not_or] at h
    rw [replaceNode, if_neg (Ne.symm h.1), ih h.2, Option.map_none]

/-- A new name goes to the end. -/
theorem jsonVarAdd_new (h : n ∉ l.map Prod.fst) (hl : l.length + 1 < 2 ^ 16) :
    jsonVarAdd l n v = l ++ [(n, v)] := by
  have hmod : (l.length + 1) % 2 ^ 16 ≠ 0 := by omega
  rw [jsonVarAdd, replaceNode_none h, ite_self]
  exact if_neg hmod

/-- And so does an element of an array. -/
theorem jsonVarAdd_item (hl : l.length + 1 < 2 ^ 16) : jsonVarAdd l [] v = l ++ [([], v)] := by
  have hmod : (l.length + 1) % 2 ^ 16 ≠ 0 := by omega
  rw [jsonVarAdd, if_pos rfl]
  exact if_neg hmod

end

/-! ### Trees that are left whole -/

theorem cutMembers_whole {kept ms : List (Bytes × Value)} (hlen : (kept ++ ms).length < 2 ^ 16)
    (hnodup : ((kept ++ ms).map Prod.fst).Nodup)
    (hm : ∀ m ∈ ms, m.1.length ≤ 0xFFFF ∧ m.1 ≠ prototypeName) (hcut : ∀ m ∈ ms, m.2.cut = m.2) :
    cutMembers kept ms = kept ++ ms := by
  induction ms generalizing kept with
  | nil => rw [cutMembers, List.append_nil]
  | cons m ms ih =>
    obtain ⟨hn, hp⟩ := hm m List.mem_cons_self
    have hnew : m.1 ∉ kept.map Prod.fst := by
      rw [List.map_append, List.map_cons] at hnodup
      exact fun hin => (List.nodup_append.mp hnodup).2.2 _ hin _ List.mem_cons_self rfl
    rw [List.append_cons] at hlen hnodup
    rw [cutMembers, if_neg hp, strCpy, List.take_of_length_le hn, hcut m List.mem_cons_self,
      jsonVarAdd_new hnew (by simp only [List.length_append, List.length_singleton] at hlen; omega),
      ih hlen hnodup (fun x hx => hm x (List.mem_cons_of_mem m hx)) (fun x hx => hcut x (List.mem_cons_of_mem m hx)),
      ← List.append_cons]

theorem Whole.cut {v : Value} (h : Whole v) : v.cut = v := by
  induction h with
  | int => rw [Value.cut]
  | str hs => rw [Value.cut, strCpy, List.take_of_length_le hs]
  | arr hl _ ih =>
    rw [Value.cut, cutItems_eq, List.map_congr_left ih, List.map_id', List.take_of_length_le hl]
  | obj hlen hnodup hm _ ih =>
    rw [Value.cut, cutMembers_whole (by simpa using hlen) (by simpa using hnodup) hm ih, List.nil_append]

/-! ### Text -/

theorem toText_int (level : ℕ) (i : Int32) : toText level (.int i) = strCpy (strCpy (strFromInt i)) := rfl

theorem toText_str (level : ℕ) (s : Bytes) : toText level (.str s) = getMStr (strCpy s) := rfl

theorem printItems_cons (level : ℕ) (m : Bytes × Var) (l : List (Bytes × Var)) :
    printItems level (m :: l) = jsonVarToJsonStr level m.2 :: printItems level l := rfl

theorem printItems_eq (level : ℕ) (l : List Value) : printItems level (toItems l) = l.map (toText level) := by
  induction l with
  | nil => rfl
  | cons v l ih => rw [toItems_cons, printItems_cons, ih, List.map_cons, toText]

theorem toText_arr (level : ℕ) (l : List Value) :
    toText level (.arr l) = code '[' :: commaed (l.map (toText level)) ++ [code ']'] := by
  rw [← printItems_eq]
  exact congrArg (fun x => code '[' :: x ++ [code ']']) (if_pos rfl)

/-- The members of an object. -/
def memberTexts (level : ℕ) (had : Bool) (ms : List (Bytes × Value)) : Bytes :=
  printMembers level had (toMembers ms)

theorem toText_obj (level : ℕ) (ms : List (Bytes × Value)) : toText level (.obj ms) =
    (if ms.length = 0 then [code '{'] else text ['{', '\n']) ++ memberTexts level false ms ++
      (if ms.length = 0 then [] else [code '\n']) ++ spaces level ++ [code '}'] := by
  have hlen : (toMembers ms).length = ms.length := by rw [toMembers_eq, List.length_map]
  rw [← hlen]
  rfl

theorem memberTexts_cons (level : ℕ) (had : Bool) (n : Bytes) (v : Value) (ms : List (Bytes × Value)) :
    memberTexts level had ((n, v) :: ms) = if n = prototypeName then memberTexts level had ms
      else (if had then text [',', '\n'] else []) ++ spaces (level + 1) ++ getMStr n ++ text [':', ' '] ++
        toText (level + 1) v ++ memberTexts level true ms := rfl

/-- Behind a member there is a comma, or no more members. -/
theorem memberTexts_true (level : ℕ) (ms : List (Bytes × Value)) :
    memberTexts level true ms = [] ∧ memberTexts level false ms = [] ∨
      memberTexts level true ms = text [',', '\n'] ++ memberTexts level false ms := by
  induction ms with
  | nil => exact .inl ⟨rfl, rfl⟩
  | cons m ms ih =>
    rw [memberTexts_cons, memberTexts_cons]
    by_cases hp : m.1 = prototypeName
    · rwa [if_pos hp, if_pos hp]
    · rw [if_neg hp, if_neg hp, if_pos rfl, if_neg Bool.false_ne_true]
      exact .inr (by simp only [List.nil_append, List.append_assoc])

end Value
end EwokOS.Json
