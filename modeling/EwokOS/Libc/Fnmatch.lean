import Mathlib.Data.List.TakeWhile

/-! Patterns of file names (`fnmatch.c`).

    The matcher walks the pattern and the string together; at a `*` it tries the rest of the pattern at one place
    of the string after the other:

        pattern   l i b * . s o
        string    l i b c . s o
                        └─▶ . s o  against  c . s o,  . s o,  s o, ...

    What a pattern stands for is said by rules, one a construct, without an order of trials (`Matches`), and the
    matcher finds just that, but for patterns that escape a slash, which match nothing with `FNM_PATHNAME`
    (`fnmatch_iff`). Characters are bytes. -/

namespace EwokOS.Libc.Fnm

def slash : UInt8 := 47
def dot : UInt8 := 46
def backslash : UInt8 := 92
def quest : UInt8 := 63
def star : UInt8 := 42
def lbracket : UInt8 := 91
def rbracket : UInt8 := 93
def bang : UInt8 := 33
def caret : UInt8 := 94
def dash : UInt8 := 45

/-- `FNM_PATHNAME`, `FNM_NOESCAPE` and `FNM_PERIOD`. -/
structure Flags where
  pathname : Bool
  noescape : Bool
  period : Bool

/-- The order of `char`, which is signed where the compiler has it so (x86_64) and unsigned elsewhere (aarch64). -/
def charLe (signed : Bool) (a b : UInt8) : Bool := if signed then a.toBitVec.sle b.toBitVec else a.toBitVec.ule b.toBitVec

/-- The loop of `fnm_bracket`: whether `c` was listed, and what is behind the `]`. -/
def bracketLoop (signed : Bool) (c : UInt8) : Bool → List UInt8 → Option (Bool × List UInt8)
  | _, [] => none
  | m, [lo] => if lo = rbracket then some (m, []) else none
  | m, [lo, d] => if lo = rbracket then some (m, [d]) else bracketLoop signed c (m || c == lo) [d]
  | m, lo :: d :: hi :: p =>
    if lo = rbracket then some (m, d :: hi :: p)
    else if d = dash ∧ hi ≠ rbracket then bracketLoop signed c (m || (charLe signed lo c && charLe signed c hi)) p
    else bracketLoop signed c (m || c == lo) (d :: hi :: p)

/-- `!` or `^` at the beginning of a bracket expression. -/
def negated : List UInt8 → Bool × List UInt8
  | [] => (false, [])
  | x :: p => if x = bang ∨ x = caret then (true, p) else (false, x :: p)

/-- `fnm_bracket`, behind the `[`: what is left of the pattern when `c` matches. -/
def fnmBracket (signed : Bool) (fl : Flags) (c : UInt8) (period : Bool) (p : List UInt8) : Option (List UInt8) :=
  if fl.pathname && c == slash then none
  else if period && c == dot then none
  else (bracketLoop signed c false (negated p).2).bind fun o => if o.1 = (negated p).1 then none else some o.2

/-! ### Bracket expressions -/

/-- What a bracket expression lists. -/
inductive Item where
  | one (lo : UInt8)
  | range (lo hi : UInt8)

def Item.has (signed : Bool) (c : UInt8) : Item → Bool
  | one lo => c == lo
  | range lo hi => charLe signed lo c && charLe signed c hi

/-- A text lists items up to its `]`: a `-` between two characters is a range, unless the second is the `]`. -/
inductive Lists : List UInt8 → List Item → List UInt8 → Prop where
  | close (p : List UInt8) : Lists (rbracket :: p) [] p
  | range {lo hi : UInt8} {p r : List UInt8} {l : List Item} (hlo : lo ≠ rbracket) (hhi : hi ≠ rbracket)
      (h : Lists p l r) : Lists (lo :: dash :: hi :: p) (.range lo hi :: l) r
  | one {lo : UInt8} {p r : List UInt8} {l : List Item} (hlo : lo ≠ rbracket)
      (hp : ∀ hi q, p = dash :: hi :: q → hi = rbracket) (h : Lists p l r) : Lists (lo :: p) (.one lo :: l) r

/-- `c` is of the bracket expression `p`, behind which `r` is. -/
def InSet (signed : Bool) (c : UInt8) (p r : List UInt8) : Prop :=
  ∃ l, Lists (negated p).2 l r ∧ l.any (Item.has signed c) = !(negated p).1

variable {signed : Bool} {fl : Flags} {c pc : UInt8} {p r s : List UInt8} {leading : Bool}

theorem bracketLoop_lists {l : List Item} (h : Lists p l r) (m : Bool) :
    bracketLoop signed c m p = some (m || l.any (Item.has signed c), r) := by
  induction h generalizing m with
  | close p =>
    rcases p with _ | ⟨d, _ | ⟨hi, p⟩⟩ <;> rw [bracketLoop, if_pos rfl, List.any_nil, Bool.or_false]
  | range hlo hhi h ih =>
    rw [bracketLoop, if_neg hlo, if_pos ⟨rfl, hhi⟩, ih, List.any_cons, Bool.or_assoc]
    rfl
  | @one lo p r l hlo hp h ih =>
    rcases p with _ | ⟨d, _ | ⟨hi, p⟩⟩
    · cases h
    · rw [bracketLoop, if_neg hlo, ih, List.any_cons, Bool.or_assoc]
      rfl
    · have hd : ¬(d = dash ∧ hi ≠ rbracket) := fun hd => hd.2 (hp hi p (by rw [hd.1]))
      rw [bracketLoop, if_neg hlo, if_neg hd, ih, List.any_cons, Bool.or_assoc]
      rfl

theorem lists_of_loop {m : Bool} {o : Bool × List UInt8} (h : bracketLoop signed c m p = some o) :
    ∃ l, Lists p l o.2 ∧ o.1 = (m || l.any (Item.has signed c)) := by
  induction m, p using bracketLoop.induct signed c with
  | case1 m => cases h
  | case2 m =>
    rw [bracketLoop, if_pos rfl] at h
    cases h
    exact ⟨[], .close [], (Bool.or_false m).symm⟩
  | case3 m lo hlo =>
    rw [bracketLoop, if_neg hlo] at h
    cases h
  | case4 m d =>
    rw [bracketLoop, if_pos rfl] at h
    cases h
    exact ⟨[], .close [d], (Bool.or_false m).symm⟩
  | case5 m lo d hlo ih =>
    rw [bracketLoop, if_neg hlo] at h
    obtain ⟨l, hl, ho⟩ := ih h
    refine ⟨.one lo :: l, .one hlo (fun hi q he => ?_) hl, ?_⟩
    · cases he
    · rw [ho, List.any_cons, Bool.or_assoc]
      rfl
  | case6 m d hi p =>
    rw [bracketLoop, if_pos rfl] at h
    cases h
    exact ⟨[], .close _, (Bool.or_false m).symm⟩
  | case7 m lo d hi p hlo hd ih =>
    rw [bracketLoop, if_neg hlo, if_pos hd] at h
    obtain ⟨l, hl, ho⟩ := ih h
    obtain ⟨rfl, hhi⟩ := hd
    refine ⟨.range lo hi :: l, .range hlo hhi hl, ?_⟩
    rw [ho, List.any_cons, Bool.or_assoc]
    rfl
  | case8 m lo d hi p hlo hd ih =>
    rw [bracketLoop, if_neg hlo, if_neg hd] at h
    obtain ⟨l, hl, ho⟩ := ih h
    refine ⟨.one lo :: l, .one hlo (fun hi' q he => ?_) hl, ?_⟩
    · cases he
      by_contra hne
      exact hd ⟨rfl, hne⟩
    · rw [ho, List.any_cons, Bool.or_assoc]
      rfl

/-- A character that a wildcard may stand for. -/
theorem may_iff {x : Bool} {d : UInt8} : (!(x && c == d)) = true ↔ (x = true → c ≠ d) := by
  cases x <;> simp

theorem fnmBracket_iff {period : Bool} : fnmBracket signed fl c period p = some r ↔
    (fl.pathname = true → c ≠ slash) ∧ (period = true → c ≠ dot) ∧ InSet signed c p r := by
  unfold fnmBracket
  constructor
  · intro h
    split_ifs at h with hc hp
    obtain ⟨o, ho, hr⟩ := Option.bind_eq_some_iff.mp h
    split_ifs at hr with hneg
    cases hr
    obtain ⟨l, hl, hm⟩ := lists_of_loop ho
    rw [Bool.false_or] at hm
    exact ⟨may_iff.mp (by rw [Bool.not_eq_true', Bool.eq_false_iff]; exact hc),
      may_iff.mp (by rw [Bool.not_eq_true', Bool.eq_false_iff]; exact hp),
      l, hl, hm ▸ Bool.eq_not.mpr hneg⟩
  · rintro ⟨hc, hp, l, hl, hm⟩
    have hc' : ¬(fl.pathname && c == slash) = true := by
      rw [Bool.not_eq_true, ← Bool.not_eq_true']
      exact may_iff.mpr hc
    have hp' : ¬(period && c == dot) = true := by
      rw [Bool.not_eq_true, ← Bool.not_eq_true']
      exact may_iff.mpr hp
    rw [if_neg hc', if_neg hp', bracketLoop_lists hl, Option.bind_some, if_neg]
    rw [Bool.false_or]
    exact Bool.eq_not.mp hm

theorem Lists.suffix {l : List Item} (h : Lists p l r) : r <:+ p := by
  induction h with
  | close p => exact List.suffix_cons _ p
  | range hlo hhi h ih => exact ih.trans (List.suffix_append [_, _, _] _)
  | one hlo hp h ih => exact ih.trans (List.suffix_cons _ _)

theorem negated_suffix (p : List UInt8) : (negated p).2 <:+ p := by
  cases p with
  | nil => exact List.suffix_refl _
  | cons x p =>
    rw [negated]
    split_ifs
    · exact List.suffix_cons x p
    · exact List.suffix_refl _

theorem fnmBracket_suffix {period : Bool} (h : fnmBracket signed fl c period p = some r) : r <:+ p := by
  obtain ⟨-, -, l, hl, -⟩ := fnmBracket_iff.mp h
  exact hl.suffix.trans (negated_suffix p)

/-! ### The matcher -/

/-- The trials of a `*` with more pattern behind it. -/
def starLoop (fl : Flags) (f : List UInt8 → Bool) : List UInt8 → Bool
  | [] => f []
  | c :: s => f (c :: s) || (!(fl.pathname && c == slash) && starLoop fl f s)

/-- `fnm_match`. -/
def fnmMatch (signed : Bool) (fl : Flags) (p s : List UInt8) (leading : Bool) : Bool :=
  match p, s with
  | [], s => s.isEmpty
  | pc :: p, s =>
    if pc = star then
      -- a row of stars is one star
      if (p.dropWhile (· == star)).isEmpty then !(fl.pathname && s.contains slash)
      else starLoop fl (fun s => fnmMatch signed fl (p.dropWhile (· == star)) s false) s
    else
      match s with
      | [] => false
      | c :: s =>
        if pc = backslash ∧ fl.noescape = false ∧ p.isEmpty = false then
          decide (p.head? = some c) && (!(fl.pathname && c == slash) && fnmMatch signed fl p.tail s false)
        else if pc = backslash then c == backslash && fnmMatch signed fl p s false
        else if pc = quest then
          !(fl.pathname && c == slash) && (!(fl.period && leading && c == dot) && fnmMatch signed fl p s false)
        else if pc = lbracket then
          match _h : fnmBracket signed fl c (fl.period && leading) p with
          | none => false
          | some r => fnmMatch signed fl r s false
        else c == pc && fnmMatch signed fl p s (fl.pathname && pc == slash)
termination_by p.length
decreasing_by
  · exact Nat.lt_succ_of_le (List.length_dropWhile_le _ _)
  · exact Nat.lt_succ_of_le (by rw [List.length_tail]; omega)
  · exact Nat.lt_succ_self _
  · exact Nat.lt_succ_self _
  · exact Nat.lt_succ_of_le (fnmBracket_suffix _h).length_le
  · exact Nat.lt_succ_self _

/-- `fnmatch`. -/
def fnmatch (signed : Bool) (pattern string : List UInt8) (fl : Flags) : Bool := fnmMatch signed fl pattern string true

/-! ### What patterns stand for -/

/-- The strings a pattern stands for; `leading` says that a period now is at the beginning of a name. -/
inductive Matches (signed : Bool) (fl : Flags) : List UInt8 → Bool → List UInt8 → Prop where
  | nil (leading : Bool) : Matches signed fl [] leading []
  | many {p a t s : List UInt8} (leading : Bool) (hs : s = a ++ t) (ha : fl.pathname = true → slash ∉ a)
      (h : Matches signed fl p false t) : Matches signed fl (star :: p) leading s
  | escaped {c : UInt8} {p s : List UInt8} (leading : Bool) (he : fl.noescape = false) (h : Matches signed fl p false s) :
      Matches signed fl (backslash :: c :: p) leading (c :: s)
  | bare {p s : List UInt8} (leading : Bool) (he : fl.noescape = true ∨ p = []) (h : Matches signed fl p false s) :
      Matches signed fl (backslash :: p) leading (backslash :: s)
  | any {c : UInt8} {p s : List UInt8} (leading : Bool) (hc : fl.pathname = true → c ≠ slash)
      (hp : (fl.period && leading) = true → c ≠ dot) (h : Matches signed fl p false s) : Matches signed fl (quest :: p) leading (c :: s)
  | set {c : UInt8} {p r s : List UInt8} (leading : Bool) (hc : fl.pathname = true → c ≠ slash)
      (hp : (fl.period && leading) = true → c ≠ dot) (hin : InSet signed c p r) (h : Matches signed fl r false s) :
      Matches signed fl (lbracket :: p) leading (c :: s)
  | plain {c : UInt8} {p s : List UInt8} (leading : Bool) (hc : c ≠ star ∧ c ≠ backslash ∧ c ≠ quest ∧ c ≠ lbracket)
      (h : Matches signed fl p (fl.pathname && c == slash) s) : Matches signed fl (c :: p) leading (c :: s)

/-- No slash is escaped; what stands in brackets is passed over. -/
inductive NoEscapedSlash (noescape : Bool) : List UInt8 → Prop where
  | nil : NoEscapedSlash noescape []
  | escaped {c : UInt8} {p : List UInt8} (he : noescape = false) (hc : c ≠ slash) (h : NoEscapedSlash noescape p) :
      NoEscapedSlash noescape (backslash :: c :: p)
  | set {p : List UInt8} (h : ∀ l r, Lists (negated p).2 l r → NoEscapedSlash noescape r) :
      NoEscapedSlash noescape (lbracket :: p)
  | other {pc : UInt8} {p : List UInt8} (hset : pc ≠ lbracket) (hesc : pc = backslash → noescape = true ∨ p = [])
      (h : NoEscapedSlash noescape p) : NoEscapedSlash noescape (pc :: p)

/-- The patterns that the matcher takes as they are meant. -/
def Meant (fl : Flags) (p : List UInt8) : Prop := fl.pathname = true → NoEscapedSlash fl.noescape p

theorem meant_nil : Meant fl [] := fun _ => .nil

theorem meant_escaped (he : fl.noescape = false) :
    Meant fl (backslash :: c :: p) ↔ (fl.pathname = true → c ≠ slash) ∧ Meant fl p := by
  constructor
  · intro h
    refine forall_and.mp fun hp => ?_
    cases h hp with
    | escaped _ hc h => exact ⟨hc, h⟩
    | other _ hesc => exact ((hesc rfl).elim (fun hy => Bool.false_ne_true (he.symm.trans hy)) (List.cons_ne_nil _ _)).elim
  · rintro ⟨hc, h⟩ hp
    exact .escaped he (hc hp) (h hp)

theorem meant_other (hset : pc ≠ lbracket) (hesc : pc = backslash → fl.noescape = true ∨ p = []) :
    Meant fl (pc :: p) ↔ Meant fl p := by
  refine forall_congr' fun hp => ⟨fun h => ?_, fun h => .other hset hesc h⟩
  cases h with
  | escaped he _ h =>
    exact ((hesc rfl).elim (fun hy => Bool.false_ne_true (he.symm.trans hy)) (List.cons_ne_nil _ _)).elim
  | set => exact absurd rfl hset
  | other _ _ h => exact h

theorem Lists.unique {l l' : List Item} {r' : List UInt8} (h : Lists p l r) (h' : Lists p l' r') : r = r' := by
  have hloop := @bracketLoop_lists false 0 p r l h false
  rw [bracketLoop_lists h', Option.some.injEq, Prod.mk.injEq] at hloop
  exact hloop.2.symm

theorem meant_set (hin : InSet signed c p r) : Meant fl (lbracket :: p) ↔ Meant fl r := by
  obtain ⟨l, hl, -⟩ := hin
  refine forall_congr' fun _ => ⟨fun h => ?_, fun h => .set fun l' r' hl' => ?_⟩
  · cases h with
    | set h => exact h l r hl
    | other hset => exact absurd rfl hset
  · rwa [← hl.unique hl']

theorem meant_stars : Meant fl (star :: p) ↔ Meant fl (p.dropWhile (· == star)) := by
  have hstar : ∀ q, Meant fl (star :: q) ↔ Meant fl q := fun q => meant_other (by decide) fun h => absurd h (by decide)
  rw [hstar]
  induction p with
  | nil => rfl
  | cons x p ih =>
    by_cases hx : x = star
    · subst hx
      rw [List.dropWhile_cons_of_pos (by decide)]
      exact (hstar p).trans ih
    · rw [List.dropWhile_cons_of_neg (by simpa using hx)]

/-! ### Stars -/

theorem starLoop_iff {f : List UInt8 → Bool} : starLoop fl f s = true ↔
    ∃ a t, s = a ++ t ∧ (fl.pathname = true → slash ∉ a) ∧ f t = true := by
  induction s with
  | nil =>
    rw [starLoop]
    constructor
    · intro h
      exact ⟨[], [], rfl, fun _ => List.not_mem_nil, h⟩
    · rintro ⟨a, t, hs, -, h⟩
      obtain ⟨-, rfl⟩ := List.append_eq_nil_iff.mp hs.symm
      exact h
  | cons c s ih =>
    rw [starLoop, Bool.or_eq_true, Bool.and_eq_true, ih, may_iff]
    constructor
    · rintro (h | ⟨hc, a, t, rfl, ha, h⟩)
      · exact ⟨[], c :: s, rfl, fun _ => List.not_mem_nil, h⟩
      · refine ⟨c :: a, t, rfl, fun hp hm => ?_, h⟩
        rcases List.mem_cons.mp hm with he | hm
        · exact hc hp he.symm
        · exact ha hp hm
    · rintro ⟨a, t, hs, ha, h⟩
      cases a with
      | nil =>
        rw [List.nil_append] at hs
        exact .inl (hs ▸ h)
      | cons x a =>
        rw [List.cons_append, List.cons.injEq] at hs
        obtain ⟨rfl, rfl⟩ := hs
        exact .inr ⟨fun hp he => ha hp (he ▸ List.mem_cons_self), a, t, rfl,
          fun hp hm => ha hp (List.mem_cons_of_mem _ hm), h⟩

theorem Matches.of_star (h : Matches signed fl (pc :: p) leading s) (hpc : pc = star) :
    ∃ a t, s = a ++ t ∧ (fl.pathname = true → slash ∉ a) ∧ Matches signed fl p false t := by
  cases h with
  | many leading hs ha h => exact ⟨_, _, hs, ha, h⟩
  | escaped => exact absurd hpc (by decide)
  | bare => exact absurd hpc (by decide)
  | any => exact absurd hpc (by decide)
  | set => exact absurd hpc (by decide)
  | plain leading hc => exact absurd hpc hc.1

/-- A row of stars is one star. -/
theorem matches_stars : Matches signed fl (star :: p) leading s ↔ Matches signed fl (star :: p.dropWhile (· == star)) leading s := by
  induction p generalizing leading s with
  | nil => rfl
  | cons x p ih =>
    by_cases hx : x = star
    · subst hx
      rw [List.dropWhile_cons_of_pos (by decide), ← ih]
      constructor
      · intro h
        obtain ⟨a, t, rfl, ha, h⟩ := h.of_star rfl
        obtain ⟨a', t, rfl, ha', h⟩ := h.of_star rfl
        exact .many leading (List.append_assoc ..).symm
          (fun hp hm => (List.mem_append.mp hm).elim (ha hp) (ha' hp)) h
      · intro h
        obtain ⟨a, t, rfl, ha, h⟩ := h.of_star rfl
        exact .many leading (List.nil_append _).symm (fun _ => List.not_mem_nil) (.many false rfl ha h)
    · rw [List.dropWhile_cons_of_neg (by simpa using hx)]

theorem fnmMatch_star : fnmMatch signed fl (star :: p) s leading =
    if (p.dropWhile (· == star)).isEmpty then !(fl.pathname && s.contains slash)
    else starLoop fl (fun s => fnmMatch signed fl (p.dropWhile (· == star)) s false) s := by
  cases s with
  | nil => rw [fnmMatch, if_pos rfl]
  | cons c s => rw [fnmMatch, if_pos rfl]

theorem star_iff (ih : ∀ t, fnmMatch signed fl (p.dropWhile (· == star)) t false = true ↔
      Matches signed fl (p.dropWhile (· == star)) false t ∧ Meant fl (p.dropWhile (· == star))) :
    fnmMatch signed fl (star :: p) s leading = true ↔ Matches signed fl (star :: p) leading s ∧ Meant fl (star :: p) := by
  rw [fnmMatch_star, matches_stars, meant_stars]
  split_ifs with hq
  · -- a star at the end takes all
    rw [List.isEmpty_iff.mp hq]
    have hall : (!(fl.pathname && s.contains slash)) = true ↔ (fl.pathname = true → slash ∉ s) := by
      cases fl.pathname <;> simp
    rw [hall]
    constructor
    · intro h
      exact ⟨.many leading (List.append_nil s).symm h (.nil false), meant_nil⟩
    · rintro ⟨h, -⟩
      obtain ⟨a, t, rfl, ha, h⟩ := h.of_star rfl
      cases h
      rwa [List.append_nil]
  · rw [starLoop_iff]
    constructor
    · rintro ⟨a, t, hs, ha, h⟩
      obtain ⟨hm, hmeant⟩ := (ih t).mp h
      exact ⟨.many leading hs ha hm, hmeant⟩
    · rintro ⟨h, hmeant⟩
      obtain ⟨a, t, hs, ha, h⟩ := h.of_star rfl
      exact ⟨a, t, hs, ha, (ih t).mpr ⟨h, hmeant⟩⟩

/-! ### The matcher finds just these -/

theorem fnmMatch_cons (hpc : pc ≠ star) : fnmMatch signed fl (pc :: p) (c :: s) leading =
    if pc = backslash ∧ fl.noescape = false ∧ p.isEmpty = false then
      decide (p.head? = some c) && (!(fl.pathname && c == slash) && fnmMatch signed fl p.tail s false)
    else if pc = backslash then c == backslash && fnmMatch signed fl p s false
    else if pc = quest then
      !(fl.pathname && c == slash) && (!(fl.period && leading && c == dot) && fnmMatch signed fl p s false)
    else if pc = lbracket then (fnmBracket signed fl c (fl.period && leading) p).elim false fun r => fnmMatch signed fl r s false
    else c == pc && fnmMatch signed fl p s (fl.pathname && pc == slash) := by
  rw [fnmMatch, if_neg hpc]
  split_ifs
  · rfl
  · rfl
  · rfl
  · split
    · rename_i hb
      rw [hb]
      rfl
    · rename_i hb
      rw [hb]
      rfl
  · rfl

theorem fnmMatch_out (hpc : pc ≠ star) : fnmMatch signed fl (pc :: p) [] leading = false := by
  rw [fnmMatch, if_neg hpc]

theorem fnmMatch_iff : fnmMatch signed fl p s leading = true ↔ Matches signed fl p leading s ∧ Meant fl p := by
  induction hn : p.length using Nat.strong_induction_on generalizing p s leading with
  | _ n ih =>
    subst hn
    cases p with
    | nil =>
      rw [fnmMatch, List.isEmpty_iff, and_iff_left meant_nil]
      constructor
      · rintro rfl
        exact .nil leading
      · intro h
        cases h
        rfl
    | cons pc p =>
      have hle : ∀ q s leading, q.length ≤ p.length →
          (fnmMatch signed fl q s leading = true ↔ Matches signed fl q leading s ∧ Meant fl q) :=
        fun q s leading hq => ih q.length (Nat.lt_succ_of_le hq) rfl
      by_cases hstar : pc = star
      · subst hstar
        exact star_iff fun t => hle _ t false (List.length_dropWhile_le _ _)
      constructor
      · intro h
        cases s with
        | nil =>
          rw [fnmMatch_out hstar] at h
          cases h
        | cons c s =>
          rw [fnmMatch_cons hstar] at h
          split_ifs at h with hesc hback hquest hset
          · -- an escaped character
            obtain ⟨rfl, he, hne⟩ := hesc
            obtain ⟨x, p, rfl⟩ := List.exists_cons_of_ne_nil (List.isEmpty_eq_false_iff.mp hne)
            rw [Bool.and_eq_true, Bool.and_eq_true, decide_eq_true_iff, may_iff] at h
            obtain ⟨hx, hc, hm⟩ := h
            cases hx
            obtain ⟨hm, hmeant⟩ := (hle p s false (Nat.le_succ _)).mp hm
            exact ⟨.escaped leading he hm, (meant_escaped he).mpr ⟨hc, hmeant⟩⟩
          · -- a backslash that escapes nothing
            subst hback
            rw [Bool.and_eq_true, beq_iff_eq] at h
            obtain ⟨rfl, hm⟩ := h
            have he : fl.noescape = true ∨ p = [] := by
              by_contra hboth
              rw [not_or, Bool.not_eq_true] at hboth
              exact hesc ⟨rfl, hboth.1, List.isEmpty_eq_false_iff.mpr hboth.2⟩
            obtain ⟨hm, hmeant⟩ := (hle p s false (Nat.le_refl _)).mp hm
            exact ⟨.bare leading he hm, (meant_other (by decide) fun _ => he).mpr hmeant⟩
          · subst hquest
            rw [Bool.and_eq_true, Bool.and_eq_true, may_iff, may_iff] at h
            obtain ⟨hc, hp, hm⟩ := h
            obtain ⟨hm, hmeant⟩ := (hle p s false (Nat.le_refl _)).mp hm
            exact ⟨.any leading hc hp hm, (meant_other (by decide) fun h => absurd h (by decide)).mpr hmeant⟩
          · -- a bracket expression
            subst hset
            cases hb : fnmBracket signed fl c (fl.period && leading) p with
            | none =>
              rw [hb] at h
              cases h
            | some r =>
              rw [hb] at h
              obtain ⟨hc, hp, hin⟩ := fnmBracket_iff.mp hb
              obtain ⟨hm, hmeant⟩ := (hle r s false (fnmBracket_suffix hb).length_le).mp h
              exact ⟨.set leading hc hp hin hm, (meant_set hin).mpr hmeant⟩
          · rw [Bool.and_eq_true, beq_iff_eq] at h
            obtain ⟨rfl, hm⟩ := h
            obtain ⟨hm, hmeant⟩ := (hle p s _ (Nat.le_refl _)).mp hm
            exact ⟨.plain leading ⟨hstar, hback, hquest, hset⟩ hm, (meant_other hset fun h => absurd h hback).mpr hmeant⟩
      · rintro ⟨h, hmeant⟩
        cases h with
        | many => exact absurd rfl hstar
        | escaped leading he h =>
          obtain ⟨hc, hmeant⟩ := (meant_escaped he).mp hmeant
          rw [fnmMatch_cons hstar, if_pos ⟨rfl, he, rfl⟩, Bool.and_eq_true, Bool.and_eq_true,
            decide_eq_true_iff, may_iff]
          exact ⟨rfl, hc, (hle _ _ false (Nat.le_succ _)).mpr ⟨h, hmeant⟩⟩
        | bare leading he h =>
          rw [meant_other (by decide) fun _ => he] at hmeant
          rw [fnmMatch_cons hstar, if_neg, if_pos rfl, Bool.and_eq_true, beq_iff_eq]
          · exact ⟨rfl, (hle _ _ false (Nat.le_refl _)).mpr ⟨h, hmeant⟩⟩
          · rintro ⟨-, hn, hp⟩
            exact he.elim (fun hy => Bool.false_ne_true (hn.symm.trans hy)) (List.isEmpty_eq_false_iff.mp hp)
        | any leading hc hp h =>
          rw [meant_other (by decide) fun h => absurd h (by decide)] at hmeant
          rw [fnmMatch_cons hstar, if_neg fun hb => absurd hb.1 (by decide), if_neg (by decide), if_pos rfl, Bool.and_eq_true,
            Bool.and_eq_true, may_iff, may_iff]
          exact ⟨hc, hp, (hle _ _ false (Nat.le_refl _)).mpr ⟨h, hmeant⟩⟩
        | set leading hc hp hin h =>
          have hb := fnmBracket_iff.mpr ⟨hc, hp, hin⟩
          rw [meant_set hin] at hmeant
          rw [fnmMatch_cons hstar, if_neg fun hb => absurd hb.1 (by decide), if_neg (by decide), if_neg (by decide), if_pos rfl, hb]
          exact (hle _ _ false (fnmBracket_suffix hb).length_le).mpr ⟨h, hmeant⟩
        | plain leading hc h =>
          rw [meant_other hc.2.2.2 fun h => absurd h hc.2.1] at hmeant
          rw [fnmMatch_cons hstar, if_neg fun hb => hc.2.1 hb.1, if_neg hc.2.1, if_neg hc.2.2.1, if_neg hc.2.2.2,
            Bool.and_eq_true, beq_iff_eq]
          exact ⟨rfl, (hle _ _ _ (Nat.le_refl _)).mpr ⟨h, hmeant⟩⟩

/-- `fnmatch` accepts the strings its pattern stands for, and no others; and with `FNM_PATHNAME` a pattern that escapes a
    slash is accepted for no string at all. -/
theorem fnmatch_iff (signed : Bool) (pattern string : List UInt8) (fl : Flags) : fnmatch signed pattern string fl = true ↔
    Matches signed fl pattern true string ∧ (fl.pathname = true → NoEscapedSlash fl.noescape pattern) := fnmMatch_iff

/-! ### Depth -/

/-- Only a slash of the pattern takes a slash. -/
theorem Matches.count_le (h : Matches signed fl p leading s) (hp : fl.pathname = true) : s.count slash ≤ p.count slash := by
  have hcons : ∀ (x : UInt8) (l : List UInt8), l.count slash ≤ (x :: l).count slash := fun x l => List.count_le_count_cons
  induction h with
  | nil leading => exact Nat.le_refl _
  | many leading hs ha h ih =>
    rw [hs, List.count_append, List.count_eq_zero_of_not_mem (ha hp), Nat.zero_add]
    exact ih.trans (hcons _ _)
  | escaped leading he h ih =>
    refine Nat.le_trans ?_ (hcons _ _)
    rw [List.count_cons, List.count_cons]
    exact Nat.add_le_add_right ih _
  | bare leading he h ih =>
    rw [List.count_cons_of_ne (by decide)]
    exact ih.trans (hcons _ _)
  | any leading hc hd h ih =>
    rw [List.count_cons_of_ne (hc hp)]
    exact ih.trans (hcons _ _)
  | set leading hc hd hin h ih =>
    obtain ⟨l, hl, -⟩ := hin
    rw [List.count_cons_of_ne (hc hp)]
    exact ih.trans (((hl.suffix.trans (negated_suffix _)).count_le _).trans (hcons _ _))
  | plain leading hc h ih =>
    rw [List.count_cons, List.count_cons]
    exact Nat.add_le_add_right ih _

/-- With `FNM_PATHNAME` a path is never accepted that is deeper than its pattern. -/
theorem fnmatch_depth (signed : Bool) (pattern string : List UInt8) (fl : Flags) (hp : fl.pathname = true)
    (h : fnmatch signed pattern string fl = true) : string.count slash ≤ pattern.count slash :=
  (fnmMatch_iff.mp h).1.count_le hp

/-- `*/b` accepts `a/b`. -/
theorem fnmatch_depth_one : fnmatch true [42, 47, 98] [97, 47, 98] ⟨true, false, false⟩ = true ∧
    List.count slash [97, 47, 98] ≤ List.count slash [42, 47, 98] := by
  have hmatch : Matches true ⟨true, false, false⟩ [42, 47, 98] true [97, 47, 98] :=
    .many (a := [97]) true rfl (fun _ => by decide) (.plain false (by decide) (.plain _ (by decide) (.nil _)))
  have hmeant : Meant ⟨true, false, false⟩ [42, 47, 98] := fun _ =>
    .other (by decide) (by decide) (.other (by decide) (by decide) (.other (by decide) (by decide) .nil))
  have h := fnmMatch_iff.mpr ⟨hmatch, hmeant⟩
  exact ⟨h, fnmatch_depth true _ _ _ rfl h⟩

end EwokOS.Libc.Fnm
