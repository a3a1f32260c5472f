import EwokOS.Schemes.Descend
import EwokOS.Vfs.Path
import EwokOS.Vfs.Refuse

/-! The loop of `vfs_resolve_path` over the characters of a path, and the path of a node (`vfsd_fullname`).

    The loop runs an index `i` along the path and keeps in `j` where the component began:

        / u s r / . . / / b i n        a component ends at '/' or at the end of the path
          j     i

    What it comes to is the walk over the components: the empty ones and the dots do nothing, two dots go to
    the father, any other goes to the first kid of that name. An empty path resolves to nothing, where an
    empty walk would stay at the root; and the path of a node is cut to the size of the buffer. -/

namespace EwokOS.Vfs

open Schemes

namespace Vfsd
variable (s : Vfsd)

/-- The loop of `vfs_resolve_path`: the return value and `*node_id_out`. Reading past the last character is
    reading the `NUL`. -/
def resolveFrom (name : List Char) : ℕ → ℕ → ℕ → ℕ → Bool × ℕ
  | 0, _, _, _ => (false, 0)
  | k + 1, i, j, cur =>
    match name[i]? with
    | none =>
      if i = j then (true, cur)
      else (true, (s.enter cur ((name.drop j).take (i - j))).getD 0)
    | some ch =>
      if ch ≠ '/' then resolveFrom name k (i + 1) j cur
      else if i = j then resolveFrom name k (i + 1) (i + 1) cur
      else
        let kid := (s.enter cur ((name.drop j).take (i - j))).getD 0
        if kid = 0 then (false, 0) else resolveFrom name k (i + 1) (i + 1) kid

/-- `vfs_resolve_path`, character by character. -/
def resolveChars : List Char → Bool × ℕ
  | [] => (false, 0)
  | '/' :: name =>
    let cur := s.topFrom (s.count + 1) s.root
    if name = [] then (true, cur) else s.resolveFrom name fullNameMax 0 0 cur
  | name => s.resolveFrom name fullNameMax 0 0 s.root

/-- The loop of `vfsd_fullname`. -/
def fullnameFrom : ℕ → ℕ → List Char → List Char
  | 0, _, s₁ => s₁
  | k + 1, n, s₁ =>
    match s.node n with
    | none => s₁
    | some x =>
      fullnameFrom k x.father
        (if s₁ = [] then x.info.name else x.info.name ++ if x.info.name.head? = some '/' then s₁ else '/' :: s₁)

/-- `vfsd_fullname`, into a buffer of the size. -/
def fullname (n outSz : ℕ) : List Char := (s.fullnameFrom (s.count + 1) n []).take (outSz - 1)

end Vfsd

open Vfsd

/-! ### The walk over the components -/

/-- The components of a path that make it go somewhere. -/
def components (name : List Char) : List (List Char) := (name.splitOn '/').filter fun c => c ≠ [] ∧ c ≠ ['.']

/-- One step of the walk: to the father, at the root nowhere, or to the kid of that name. -/
def stepTo (K : ℕ → List ℕ) (s : Vfsd) (cur : ℕ) (comp : List Char) : Option ℕ :=
  if comp = ['.', '.'] then some ((up s cur).getD cur) else (K cur).find? (named s comp)

def walkTo (K : ℕ → List ℕ) (s : Vfsd) : ℕ → List (List Char) → Option ℕ
  | cur, [] => some cur
  | cur, comp :: l => (stepTo K s cur comp).bind fun kid => walkTo K s kid l

section
variable {K : ℕ → List ℕ} {s : Vfsd} {n cur : ℕ} {x : Node} (h : Forest K s)
include h

theorem Forest.alive_ne (hx : s.node n = some x) : n ≠ 0 := by
  rintro rfl
  rw [h.null] at hx
  cases hx

/-- A component that is not a dot is entered by a step of the walk. -/
theorem Forest.enter_eq (hx : s.node cur = some x) {comp : List Char} (hs : '/' ∉ comp) (hdot : comp ≠ ['.']) :
    s.enter cur comp = stepTo K s cur comp := by
  rw [enter, hx]
  dsimp only
  rw [if_neg hdot, stepTo]
  split
  · simp only [up, hx]
    split <;> rfl
  · refine Option.ext fun c => ?_
    rw [h.findKidRaw_eq]
    exact and_iff_right hs

theorem Forest.step_alive (hx : s.node cur = some x) {comp : List Char} (hk : stepTo K s cur comp = some n) :
    ∃ y, s.node n = some y := by
  unfold stepTo at hk
  split at hk
  · cases hk
    by_cases hf : x.father = 0
    · simp only [up, hx, if_pos hf]
      exact ⟨x, hx⟩
    · rw [up_eq hx hf]
      exact h.father cur x hx hf
  · obtain ⟨y, hy, -⟩ := h.kid cur n (List.mem_of_find?_eq_some hk)
    exact ⟨y, hy⟩

/-- The walk over all the components of a path is the walk over those that go somewhere. -/
theorem Forest.walk_eq (hx : s.node cur = some x) {l : List (List Char)} (hl : ∀ comp ∈ l, '/' ∉ comp) :
    s.walk cur l = walkTo K s cur (l.filter fun c => c ≠ [] ∧ c ≠ ['.']) := by
  induction l generalizing cur x with
  | nil => rfl
  | cons comp l ih =>
    have hl' : ∀ c ∈ l, '/' ∉ c := fun c hc => hl c (List.mem_cons_of_mem comp hc)
    rw [walk, List.filter_cons]
    by_cases hnil : comp = []
    · rw [if_pos hnil, if_neg (by simp [hnil])]
      exact ih hx hl'
    · rw [if_neg hnil]
      by_cases hdot : comp = ['.']
      · rw [if_neg (by simp [hdot]), hdot]
        have hstay : s.enter cur ['.'] = some cur := by
          rw [enter, hx]
          exact if_pos rfl
        rw [hstay, Option.bind_some]
        exact ih hx hl'
      · rw [if_pos (by simp [hnil, hdot]), walkTo, h.enter_eq hx (hl comp List.mem_cons_self) hdot]
        cases hk : stepTo K s cur comp with
        | none => rfl
        | some kid =>
          obtain ⟨y, hy⟩ := h.step_alive hx hk
          rw [Option.bind_some, Option.bind_some]
          exact ih hy hl'

end

theorem not_mem_of_mem_splitOn {name comp : List Char} (h : comp ∈ name.splitOn '/') : '/' ∉ comp := by
  induction name generalizing comp with
  | nil =>
    rw [List.splitOn_nil, List.mem_singleton] at h
    simp [h]
  | cons c name ih =>
    rw [List.splitOn_cons_eq_if_modifyHead] at h
    split at h
    · rcases List.mem_cons.mp h with rfl | h
      · simp
      · exact ih h
    · rename_i hc
      cases hl : name.splitOn '/' with
      | nil => simp [hl] at h
      | cons d l =>
        rw [hl, List.modifyHead_cons] at h
        rcases List.mem_cons.mp h with rfl | h
        · have hd : '/' ∉ d := ih (by rw [hl]; exact List.mem_cons_self)
          have hne : '/' ≠ c := fun he => hc (by simp [← he])
          simp [hd, hne]
        · exact ih (by rw [hl]; exact List.mem_cons_of_mem d h)

/-! ### The loop is the walk -/

section
variable {K : ℕ → List ℕ} {s : Vfsd} {n cur : ℕ} {x : Node} (h : Forest K s)
include h

theorem Forest.enter_alive (hx : s.node cur = some x) {comp : List Char} (hk : s.enter cur comp = some n) :
    ∃ y, s.node n = some y := by
  rw [enter, hx] at hk
  dsimp only at hk
  split at hk
  · cases hk
    exact ⟨x, hx⟩
  · split at hk
    · cases hk
      split
      · exact ⟨x, hx⟩
      · rename_i hf
        exact h.father cur x hx hf
    · obtain ⟨y, hy, -⟩ := h.found hk
      exact ⟨y, hy⟩

/-- The loop in the middle of a component: what it has of it, from `j` to `i`, goes before what is to come. -/
theorem Forest.resolveFrom_eq (name : List Char) {k i j : ℕ} (hx : s.node cur = some x) (hji : j ≤ i)
    (hi : i ≤ name.length) (hk : name.length < i + k) :
    s.resolveFrom name k i j cur = (true, n) ∧ n ≠ 0 ↔
      s.walk cur (((name.drop i).splitOn '/').modifyHead ((name.drop j).take (i - j) ++ ·)) = some n := by
  induction k generalizing i j cur x with
  | zero => omega
  | succ k ih =>
    cases hch : name[i]? with
    | none =>
      have hend : i = name.length := Nat.le_antisymm hi (List.getElem?_eq_none_iff.mp hch)
      rw [resolveFrom, hch, hend, List.drop_length, List.splitOn_nil, List.modifyHead_cons, List.append_nil]
      dsimp only
      by_cases hij : name.length = j
      · rw [if_pos hij, hij, Nat.sub_self, List.take_zero, walk, if_pos rfl, walk]
        simp only [Prod.mk.injEq, true_and, Option.some.injEq]
        refine ⟨fun he => he.1, ?_⟩
        rintro rfl
        exact ⟨rfl, h.alive_ne hx⟩
      · rw [if_neg hij]
        have hne : (name.drop j).take (name.length - j) ≠ [] := by
          intro hnil
          have hlen := congrArg List.length hnil
          rw [List.length_take, List.length_drop, List.length_nil] at hlen
          omega
        rw [walk, if_neg hne]
        simp only [Prod.mk.injEq, true_and, walk]
        cases hkid : s.enter cur ((name.drop j).take (name.length - j)) with
        | none => simpa using fun he : 0 = n => he.symm
        | some kid =>
          obtain ⟨y, hy⟩ := h.enter_alive hx hkid
          simp only [Option.getD_some, Option.bind_some, Option.some.injEq]
          refine ⟨fun he => he.1, ?_⟩
          rintro rfl
          exact ⟨rfl, h.alive_ne hy⟩
    | some ch =>
      have hlt : i < name.length := (List.getElem?_eq_some_iff.mp hch).1
      have hdrop : name.drop i = ch :: name.drop (i + 1) := by
        rw [List.drop_eq_getElem_cons hlt, (List.getElem?_eq_some_iff.mp hch).2]
      have hnil : ∀ a : ℕ, ((name.drop a).splitOn '/').modifyHead ((name.drop a).take (a - a) ++ ·) =
          (name.drop a).splitOn '/' := by
        intro a
        rw [Nat.sub_self, List.take_zero]
        cases (name.drop a).splitOn '/' <;> rfl
      rw [resolveFrom, hch, hdrop, List.splitOn_cons_eq_if_modifyHead]
      dsimp only
      by_cases hs : ch = '/'
      · rw [if_neg (not_not.mpr hs), if_pos (beq_iff_eq.mpr hs), List.modifyHead_cons, List.append_nil, walk]
        by_cases hij : i = j
        · rw [if_pos hij, if_pos (by rw [hij, Nat.sub_self, List.take_zero])]
          rw [ih hx (Nat.le_refl (i + 1)) hlt (by omega), hnil]
        · have hne : (name.drop j).take (i - j) ≠ [] := by
            intro hnil
            have hlen := congrArg List.length hnil
            rw [List.length_take, List.length_drop, List.length_nil] at hlen
            omega
          rw [if_neg hij, if_neg hne]
          cases hkid : s.enter cur ((name.drop j).take (i - j)) with
          | none => simp
          | some kid =>
            obtain ⟨y, hy⟩ := h.enter_alive hx hkid
            rw [Option.getD_some, if_neg (h.alive_ne hy), Option.bind_some]
            rw [ih hy (Nat.le_refl (i + 1)) hlt (by omega), hnil]
      · rw [if_pos hs, if_neg (mt beq_iff_eq.mp hs), ih hx (Nat.le_succ_of_le hji) hlt (by omega)]
        have hpiece : (name.drop j).take (i + 1 - j) = (name.drop j).take (i - j) ++ [ch] := by
          rw [Nat.succ_sub hji, List.take_add_one, List.getElem?_drop, Nat.add_sub_cancel' hji, hch]
          rfl
        rw [hpiece, List.modifyHead_modifyHead]
        have hfun : (fun l => (name.drop j).take (i - j) ++ [ch] ++ l) =
            (fun l => (name.drop j).take (i - j) ++ l) ∘ (ch :: ·) := by
          funext l
          simp
        rw [hfun]

end

/-- What has not been found has no id. -/
theorem resolveFrom_false (s : Vfsd) (name : List Char) {k i j cur : ℕ}
    (hr : (s.resolveFrom name k i j cur).1 = false) : (s.resolveFrom name k i j cur).2 = 0 := by
  induction k generalizing i j cur with
  | zero => rfl
  | succ k ih =>
    rw [resolveFrom] at hr ⊢
    split at hr
    · split at hr <;> cases hr
    · dsimp only at hr ⊢
      split at hr
      · rename_i hs
        rw [if_pos hs]
        exact ih hr
      · rename_i hs
        rw [if_neg hs]
        split at hr
        · rename_i hij
          rw [if_pos hij]
          exact ih hr
        · rename_i hij
          rw [if_neg hij]
          split at hr
          · rename_i hkid
            rw [if_pos hkid]
          · rename_i hkid
            rw [if_neg hkid]
            exact ih hr

section
variable {K : ℕ → List ℕ} {s : Vfsd} {n : ℕ} {x : Node} (h : Forest K s) (hx : s.node s.root = some x)
  (hf : x.father = 0)

theorem topFrom_root (hx : s.node s.root = some x) (hf : x.father = 0) : s.topFrom (s.count + 1) s.root = s.root := by
  rw [topFrom, hx]
  exact if_pos hf

include h hx hf

theorem Forest.resolveChars_iff {name : List Char} (hne : name ≠ []) (hlen : name.length < fullNameMax) :
    s.resolveChars name = (true, n) ∧ n ≠ 0 ↔ walkTo K s s.root (components name) = some n := by
  have hloop : ∀ name : List Char, name.length < fullNameMax →
      (s.resolveFrom name fullNameMax 0 0 s.root = (true, n) ∧ n ≠ 0 ↔
        walkTo K s s.root (components name) = some n) := by
    intro name hlen
    have hcomp : s.walk s.root (name.splitOn '/') = walkTo K s s.root (components name) :=
      h.walk_eq hx fun _ hc => not_mem_of_mem_splitOn hc
    rw [h.resolveFrom_eq name hx (Nat.le_refl 0) (Nat.zero_le _) (by omega), ← hcomp]
    have hid : ((name.drop 0).splitOn '/').modifyHead ((name.drop 0).take (0 - 0) ++ ·) = name.splitOn '/' := by
      rw [List.drop_zero, List.take_zero]
      cases name.splitOn '/' <;> rfl
    rw [hid]
  cases name with
  | nil => exact absurd rfl hne
  | cons c rest =>
    by_cases hc : c = '/'
    · subst hc
      have hcomp : components ('/' :: rest) = components rest := by
        simp [components, List.splitOn_cons_eq_if_modifyHead]
      rw [List.length_cons] at hlen
      rw [hcomp, resolveChars, topFrom_root hx hf]
      split
      · rename_i hnil
        rw [hnil]
        simp only [components, List.splitOn_nil]
        rw [List.filter_cons_of_neg (by simp), List.filter_nil, walkTo]
        simp only [Prod.mk.injEq, true_and, Option.some.injEq]
        refine ⟨fun he => he.1, ?_⟩
        rintro rfl
        exact ⟨rfl, h.alive_ne hx⟩
      · exact hloop rest (by omega)
    · have he : s.resolveChars (c :: rest) = s.resolveFrom (c :: rest) fullNameMax 0 0 s.root := by
        unfold resolveChars
        split
        · rename_i hnil
          cases hnil
        · rename_i hcons
          cases hcons
          exact absurd rfl hc
        · rfl
      rw [he]
      exact hloop (c :: rest) hlen

theorem Forest.resolveChars_none {name : List Char} (hne : name ≠ []) (hlen : name.length < fullNameMax) :
    (s.resolveChars name).2 = 0 ↔ walkTo K s s.root (components name) = none := by
  have hiff := fun n => h.resolveChars_iff (n := n) hx hf hne hlen
  constructor
  · intro h0
    cases hw : walkTo K s s.root (components name) with
    | none => rfl
    | some m =>
      obtain ⟨hm, hm0⟩ := (hiff m).mpr hw
      rw [hm] at h0
      exact absurd h0 hm0
  · intro hw
    by_contra h0
    have hfalse : (s.resolveChars name).1 = false → (s.resolveChars name).2 = 0 := by
      unfold resolveChars
      split
      · exact fun _ => rfl
      · dsimp only
        split
        · exact fun hb => (by cases hb)
        · exact resolveFrom_false s _
      · exact resolveFrom_false s _
    have htrue : (s.resolveChars name).1 = true := by
      cases hb : (s.resolveChars name).1 with
      | true => rfl
      | false => exact absurd (hfalse hb) h0
    have := (hiff (s.resolveChars name).2).mp ⟨Prod.ext htrue rfl, h0⟩
    rw [hw] at this
    cases this

/-- The loop comes to what the walk of the other modules comes to. -/
theorem Forest.resolveChars_resolvePath {name : List Char} (hlen : name.length < fullNameMax) :
    s.resolveChars name = (true, n) ∧ n ≠ 0 ↔ s.resolvePath name = some n := by
  have hwalk : ∀ name : List Char, s.walk s.root (name.splitOn '/') = walkTo K s s.root (components name) :=
    fun name => h.walk_eq hx fun _ hc => not_mem_of_mem_splitOn hc
  by_cases hne : name = []
  · subst hne
    simp [resolveChars, resolvePath]
  rw [h.resolveChars_iff hx hf hne hlen, ← hwalk]
  unfold resolvePath
  split
  · exact absurd rfl hne
  · rename_i rest
    rw [List.length_cons] at hlen
    rw [if_neg (by omega), topFrom_root hx hf, List.splitOn_cons_eq_if_modifyHead, if_pos (by simp), walk, if_pos rfl]
  · rw [if_neg (by omega)]

end

/-! ### The path of a node -/

/-- The names on the way from `a` down to a node. -/
inductive Line (K : ℕ → List ℕ) (s : Vfsd) (a : ℕ) : List (List Char) → ℕ → Prop where
  | top : Line K s a [] a
  | step {l : List (List Char)} {f c : ℕ} {y : Node} :
      Line K s a l f → c ∈ K f → s.node c = some y → Line K s a (l ++ [y.info.name]) c

/-- A name by which a path can find the node `c` among the kids of `f`. -/
structure Proper (K : ℕ → List ℕ) (s : Vfsd) (f c : ℕ) (name : List Char) : Prop where
  nonempty : name ≠ []
  slash : '/' ∉ name
  dot : name ≠ ['.']
  dots : name ≠ ['.', '.']
  unique : ∀ d z, d ∈ K f → s.node d = some z → z.info.name = name → d = c

/-- Names joined by `/`, the last of them by what comes after. -/
def joined (l : List (List Char)) (s₁ : List Char) : List Char :=
  l.foldr (fun name s₁ => if s₁ = [] then name else name ++ '/' :: s₁) s₁

section
variable {K : ℕ → List ℕ} {s : Vfsd} {a n : ℕ} {l : List (List Char)}

theorem joined_eq (hl : ∀ c ∈ l, c ≠ []) (hne : l ≠ []) : joined l [] = ['/'].intercalate l := by
  induction l with
  | nil => exact absurd rfl hne
  | cons c l ih =>
    have hl' : ∀ c ∈ l, c ≠ [] := fun d hd => hl d (List.mem_cons_of_mem c hd)
    cases l with
    | nil => simp [joined]
    | cons d l =>
      have htail := ih hl' (List.cons_ne_nil d l)
      have hjoin : joined (c :: d :: l) [] =
          if joined (d :: l) [] = [] then c else c ++ '/' :: joined (d :: l) [] := rfl
      have hd : d ≠ [] := hl' d List.mem_cons_self
      have hnil : joined (d :: l) [] ≠ [] := by
        rw [htail]
        cases l <;> simp [List.intercalate_cons_cons, hd]
      rw [hjoin, if_neg hnil, htail, List.intercalate_cons_cons]
      simp

/-- A way down goes on. -/
theorem Line.extend {d f : ℕ} (hd : Way K (fun _ => True) f d n) (h : Trees K s) :
    ∀ l, Line K s a l f → ∃ l, Line K s a l n := by
  induction hd with
  | self => exact fun l hl => ⟨l, hl⟩
  | kid _ hc _ ih =>
    intro l hl
    obtain ⟨y, hy, -⟩ := h.kid _ _ hc
    exact ih _ (.step hl hc hy)

theorem Trees.line (h : Trees K s) (hb : Below K a n) : ∃ l, Line K s a l n := by
  obtain ⟨d, hd⟩ := hb
  exact Line.extend hd h [] .top

/-- The way is not longer than there are nodes. -/
theorem Line.length_lt (h : Line K s a l n) (hK : Trees K s) {x : Node} (hx : s.node a = some x) :
    l.length < s.count := by
  have hdistinct : ∃ m : List ℕ, m.Nodup ∧ m.length = l.length + 1 ∧
      ∀ b ∈ m, (∃ y, s.node b = some y) ∧ Under (up s) n b := by
    induction h with
    | top => exact ⟨[a], List.nodup_singleton a, rfl, fun b hb => by
        cases List.mem_singleton.mp hb
        exact ⟨⟨x, hx⟩, .self a⟩⟩
    | @step l f c y _ hc hy ih =>
      obtain ⟨m, hnd, hlen, hm⟩ := ih
      have hup := hK.kid_up hc
      refine ⟨c :: m, List.nodup_cons.mpr ⟨fun hcm => ?_, hnd⟩, by simp [hlen], fun b hb => ?_⟩
      · exact (hK.ends c).not_under f hup (hm c hcm).2
      · rcases List.mem_cons.mp hb with rfl | hb
        · exact ⟨⟨y, hy⟩, .self b⟩
        · exact ⟨(hm b hb).1, .go hup (hm b hb).2⟩
  obtain ⟨m, hnd, hlen, hm⟩ := hdistinct
  obtain ⟨all, -, hall, hcount⟩ := hK.count
  have hle := (List.subperm_of_subset hnd fun b hb => by
    obtain ⟨y, hy⟩ := (hm b hb).1
    exact (hall b).mpr (by rw [hy]; rfl)).length_le
  omega

/-- On the way down all names are proper. -/
def ProperTo (K : ℕ → List ℕ) (s : Vfsd) (n : ℕ) : Prop :=
  ∀ f c y, c ∈ K f → Below K c n → s.node c = some y → Proper K s f c y.info.name

theorem ProperTo.father {f c : ℕ} (h : ProperTo K s c) (hc : c ∈ K f) : ProperTo K s f :=
  fun f' c' y hc' hb => h f' c' y hc' (hb.trans (Below.kid hc (.self c)))

theorem Line.proper (h : Line K s a l n) (hp : ProperTo K s n) :
    ∀ c ∈ l, c ≠ [] ∧ '/' ∉ c ∧ c ≠ ['.'] ∧ c ≠ ['.', '.'] := by
  induction h with
  | top => exact fun c hc => (by cases hc)
  | @step l f c y _ hc hy ih =>
    intro d hd
    rcases List.mem_append.mp hd with hd | hd
    · exact ih (hp.father hc) d hd
    · cases List.mem_singleton.mp hd
      have hpc := hp f c y hc (.self c) hy
      exact ⟨hpc.nonempty, hpc.slash, hpc.dot, hpc.dots⟩

theorem walkTo_append {l₁ l₂ : List (List Char)} {cur : ℕ} :
    walkTo K s cur (l₁ ++ l₂) = (walkTo K s cur l₁).bind fun m => walkTo K s m l₂ := by
  induction l₁ generalizing cur with
  | nil => rfl
  | cons c l ih =>
    rw [List.cons_append, walkTo, walkTo, Option.bind_assoc]
    exact congrArg _ (funext fun kid => ih)

/-- The walk along the names leads there. -/
theorem Line.walkTo (h : Line K s a l n) (hp : ProperTo K s n) : Vfs.walkTo K s a l = some n := by
  induction h with
  | top => rfl
  | @step l f c y _ hc hy ih =>
    have hpc := hp f c y hc (.self c) hy
    have hfind : (K f).find? (named s y.info.name) = some c := by
      cases hd : (K f).find? (named s y.info.name) with
      | none => exact absurd ((named_iff hy).mpr rfl) (List.find?_eq_none.mp hd c hc)
      | some d =>
        have hnamed := List.find?_some hd
        cases hz : s.node d with
        | none => simp [named, hz] at hnamed
        | some z => rw [hpc.unique d z (List.mem_of_find?_eq_some hd) hz ((named_iff hz).mp hnamed)]
    rw [walkTo_append, ih (hp.father hc), Option.bind_some, Vfs.walkTo, stepTo, if_neg hpc.dots, hfind]
    rfl

/-- The loop up from `n` puts the names before what it has. -/
theorem Line.fullnameFrom (h : Line K s a l n) (hK : Trees K s) (hp : ProperTo K s n) (k : ℕ) (s₁ : List Char) :
    s.fullnameFrom (k + l.length) n s₁ = s.fullnameFrom k a (joined l s₁) := by
  induction h generalizing s₁ with
  | top => rfl
  | @step l f c y _ hc hy ih =>
    have hpc := hp f c y hc (.self c) hy
    have hfa : y.father = f := by
      obtain ⟨z, hz, hf⟩ := hK.kid f c hc
      rw [hy] at hz
      cases hz
      exact hf
    have hhead : y.info.name.head? ≠ some '/' := fun he => hpc.slash (List.mem_of_head? he)
    rw [List.length_append, List.length_singleton, ← Nat.add_assoc, Vfsd.fullnameFrom, hy]
    dsimp only
    rw [hfa, if_neg hhead, ih (hp.father hc), joined, joined, List.foldr_append]
    rfl

end

/-! ### Paths and nodes -/

section
variable {K : ℕ → List ℕ} {s : Vfsd} {n : ℕ} {x : Node}

/-- The whole path of a node, before it is cut. -/
def wholeName (s : Vfsd) (n : ℕ) : List Char := s.fullnameFrom (s.count + 1) n []

theorem Line.wholeName_eq {l : List (List Char)} (hl : Line K s s.root l n) (h : Forest K s)
    (hx : s.node s.root = some x) (hf : x.father = 0) (hn : x.info.name = ['/']) (hp : ProperTo K s n) :
    wholeName s n = '/' :: joined l [] := by
  have hlen := hl.length_lt h.trees hx
  obtain ⟨k, hk⟩ : ∃ k, s.count + 1 = k + 1 + 1 + l.length := ⟨s.count - l.length - 1, by omega⟩
  rw [wholeName, hk, hl.fullnameFrom h.trees hp, Vfsd.fullnameFrom, hx]
  dsimp only
  rw [hf, hn, Vfsd.fullnameFrom, h.null]
  dsimp only
  split
  · rename_i hnil
    rw [hnil]
  · rfl

/-- The path of a node leads back to it, when the buffer holds all of it. -/
theorem Forest.resolve_fullname (h : Forest K s) (hx : s.node s.root = some x) (hf : x.father = 0)
    (hn : x.info.name = ['/']) (hb : Below K s.root n) (hp : ProperTo K s n)
    (hfit : (wholeName s n).length < fullNameMax) :
    s.resolveChars (s.fullname n fullNameMax) = (true, n) := by
  obtain ⟨l, hl⟩ := h.trees.line hb
  have hwhole := hl.wholeName_eq h hx hf hn hp
  have hcut : s.fullname n fullNameMax = wholeName s n := List.take_of_length_le (by
    have : fullNameMax = 512 := rfl
    change (wholeName s n).length ≤ _
    omega)
  rw [hcut]
  refine ((h.resolveChars_iff hx hf (by simp [hwhole]) hfit).mpr ?_).1
  have hproper := hl.proper hp
  have hcomp : components (wholeName s n) = l := by
    rw [hwhole]
    have hsplit : components ('/' :: joined l []) = components (joined l []) := by
      simp [components, List.splitOn_cons_eq_if_modifyHead]
    rw [hsplit]
    by_cases hnil : l = []
    · subst hnil
      simp [components, joined]
    · rw [joined_eq (fun c hc => (hproper c hc).1) hnil, components,
        List.splitOn_intercalate '/' (fun c hc => (hproper c hc).2.1) hnil]
      refine List.filter_eq_self.mpr fun c hc => ?_
      simp [(hproper c hc).1, (hproper c hc).2.2.1]
  rw [hcomp]
  exact hl.walkTo hp

/-- A path that is not empty and fits the buffer resolves to where the walk over its components leads, and to
    nothing when a step of the walk has no such kid; and the path of a node resolves to the node, when it fits
    the buffer and the names on the way to the node are proper ones. -/
theorem path_resolution (h : Forest K s) (hx : s.node s.root = some x) (hf : x.father = 0) :
    (∀ (name : List Char) (n : ℕ), name ≠ [] → name.length < fullNameMax →
      (s.resolveChars name = (true, n) ∧ n ≠ 0 ↔ walkTo K s s.root (components name) = some n) ∧
      ((s.resolveChars name).2 = 0 ↔ walkTo K s s.root (components name) = none)) ∧
    (x.info.name = ['/'] → ∀ n, Below K s.root n → ProperTo K s n → (wholeName s n).length < fullNameMax →
      s.resolveChars (s.fullname n fullNameMax) = (true, n)) := by
  refine ⟨fun name n hne hlen => ⟨h.resolveChars_iff hx hf hne hlen, h.resolveChars_none hx hf hne hlen⟩, ?_⟩
  exact fun hn n hb hp hfit => h.resolve_fullname hx hf hn hb hp hfit

end

/-! ### A deep tree -/

/-- Ten nodes below each other, all but the root with a name as long as names can be. -/
def deep : Vfsd where
  node n :=
    if n = 0 ∨ 10 < n then none
    else some { Node.fresh ⟨if n = 1 then ['/'] else List.replicate 63 'a', ⟨false, .dir⟩, 0, 0, 0o755, 0, 0, true⟩ with
      father := n - 1
      first := if n < 10 then n + 1 else 0
      last := if n < 10 then n + 1 else 0
      kids := if n < 10 then 1 else 0 }
  count := 10
  next := 11
  root := 1
  mnt _ := none
  slot _ := ⟨0, .unused⟩
  fd _ _ := none
  wait _ _ := ⟨0, 0⟩
  task _ := ⟨0, false, 0, none⟩
  max := 8
  reap := []

def deepKids (n : ℕ) : List ℕ := if n = 0 ∨ 10 ≤ n then [] else [n + 1]

theorem deep_node {n : ℕ} {x : Node} (hx : deep.node n = some x) :
    0 < n ∧ n ≤ 10 ∧ x.father = n - 1 ∧ x.first = (deepKids n).headD 0 ∧ x.last = (deepKids n).headD 0 ∧
      x.kids = (deepKids n).length ∧ x.next = 0 ∧ x.prev = 0 ∧ x.loose = false ∧
      x.info.name = if n = 1 then ['/'] else List.replicate 63 'a' := by
  simp only [deep] at hx
  split at hx
  · cases hx
  · rename_i hn
    cases hx
    refine ⟨by omega, by omega, rfl, ?_, ?_, ?_, rfl, rfl, rfl, rfl⟩
    all_goals
      simp only [deepKids]
      split_ifs <;> first | rfl | omega

theorem deep_some {n : ℕ} (h0 : 0 < n) (hn : n ≤ 10) : ∃ x, deep.node n = some x := by
  simp only [deep]
  exact ⟨_, if_neg (by omega)⟩

theorem mem_deepKids {n c : ℕ} : c ∈ deepKids n ↔ 0 < n ∧ n < 10 ∧ c = n + 1 := by
  unfold deepKids
  split
  · simp
    omega
  · simp
    omega

theorem deep_forest : Forest deepKids deep := by
  have hends : ∀ n, n ≤ 10 → Ends (up deep) n := by
    intro n
    induction n with
    | zero => exact fun _ => .top rfl
    | succ n ih =>
      intro hn
      obtain ⟨x, hx⟩ := deep_some (Nat.succ_pos n) hn
      have hfa : x.father = n := (deep_node hx).2.2.1
      by_cases h0 : n = 0
      · exact .top (by simp only [up, hx, hfa, if_pos h0])
      · have hup : up deep (n + 1) = some n := by
          rw [up_eq hx (by rw [hfa]; exact h0), hfa]
        exact .go hup (ih (by omega))
  refine ⟨rfl, ?_, ?_, ?_, ?_, ?_, ?_, ?_, ?_, ?_, ?_, ⟨_, rfl⟩, ⟨List.range' 1 10, List.nodup_range', fun n => ?_, rfl⟩⟩
  · intro n hn
    by_contra hne
    obtain ⟨c, hc⟩ := List.exists_mem_of_ne_nil _ hne
    obtain ⟨h0, h10, -⟩ := mem_deepKids.mp hc
    obtain ⟨x, hx⟩ := deep_some h0 (Nat.le_of_lt h10)
    rw [hn] at hx
    cases hx
  · intro n
    unfold deepKids
    split
    · trivial
    · obtain ⟨x, hx⟩ := deep_some (Nat.succ_pos n) (show n + 1 ≤ 10 by omega)
      obtain ⟨-, -, -, -, -, -, hnext, hprev, -⟩ := deep_node hx
      simp [Linked, nextOf, prevOf, hx, hnext, hprev]
  · intro n x hx
    obtain ⟨-, -, -, hfirst, hlast, hkids, -⟩ := deep_node hx
    refine ⟨hfirst, hlast.trans ?_, hkids⟩
    unfold deepKids
    split <;> rfl
  · intro n
    unfold deepKids
    split <;> simp
  · intro n c hc
    obtain ⟨h0, h10, rfl⟩ := mem_deepKids.mp hc
    obtain ⟨x, hx⟩ := deep_some (Nat.succ_pos n) (show n + 1 ≤ 10 by omega)
    obtain ⟨-, -, hfa, -, -, -, -, -, hl, -⟩ := deep_node hx
    exact ⟨x, hx, hfa, hl⟩
  · intro n x hx hf _
    obtain ⟨h0, h10, hfa, -⟩ := deep_node hx
    exact mem_deepKids.mpr (by omega)
  · intro n x hx _
    obtain ⟨-, -, -, -, -, -, hnext, hprev, -⟩ := deep_node hx
    exact ⟨hnext, hprev⟩
  · intro n x hx hf
    obtain ⟨h0, h10, hfa, -⟩ := deep_node hx
    exact deep_some (by omega) (by omega)
  · intro n x hx hl
    obtain ⟨-, -, -, -, -, -, -, -, hl', -⟩ := deep_node hx
    rw [hl'] at hl
    cases hl
  · intro n
    by_cases hn : n ≤ 10
    · exact hends n hn
    · refine .top ?_
      have : deep.node n = none := if_pos (by omega)
      simp only [up, this]
  · rw [List.mem_range'_1]
    constructor
    · rintro ⟨h1, h2⟩
      obtain ⟨x, hx⟩ := deep_some h1 (by omega)
      rw [hx]
      rfl
    · intro hs
      obtain ⟨x, hx⟩ := Option.isSome_iff_exists.mp hs
      obtain ⟨h0, h10, -⟩ := deep_node hx
      omega

theorem deep_below {n : ℕ} (d : ℕ) (h0 : 0 < n) (hd : n + d ≤ 10) : Below deepKids n (n + d) := by
  induction d generalizing n with
  | zero => exact .self n
  | succ d ih =>
    have hb := ih (Nat.succ_pos n) (show n + 1 + d ≤ 10 by omega)
    rw [show n + 1 + d = n + (d + 1) by omega] at hb
    exact hb.kid (mem_deepKids.mpr (by omega))

theorem deep_proper (n : ℕ) : ProperTo deepKids deep n := by
  intro f c y hc _ hy
  obtain ⟨h0, h10, rfl⟩ := mem_deepKids.mp hc
  have hname : y.info.name = List.replicate 63 'a' := by
    obtain ⟨-, -, -, -, -, -, -, -, -, hname⟩ := deep_node hy
    rw [hname, if_neg (by omega)]
  rw [hname]
  exact ⟨by decide, by decide, by decide, by decide, fun d z hd _ _ => (mem_deepKids.mp hd).2.2⟩

theorem path_resolution_deep :
    deep.resolveChars ['/', '.', '.', '/', '/', '.'] = (true, 1) ∧ deep.resolveChars (deep.fullname 3 fullNameMax) = (true, 3) := by
  have h := path_resolution deep_forest (x := _) rfl rfl
  refine ⟨((h.1 _ 1 (by decide) (by decide)).1.mpr (by decide)).1, ?_⟩
  have hlen : (wholeName deep 3).length = 128 := rfl
  exact h.2 rfl 3 (deep_below 2 (by decide) (by decide)) (deep_proper 3) (by rw [hlen]; decide)

/-- The path of the node at the bottom is cut inside the eighth of its nine names. -/
theorem deep_cut : deep.resolveChars (deep.fullname 10 fullNameMax) ≠ (true, 10) := by
  intro hback
  have hlen : (deep.fullname 10 fullNameMax).length = 511 := by decide +kernel
  have hne : deep.fullname 10 fullNameMax ≠ [] := List.ne_nil_of_length_pos (by omega)
  have hwalk := (deep_forest.resolveChars_iff (x := _) rfl rfl hne (by rw [hlen]; decide)).mp ⟨hback, by decide⟩
  exact absurd hwalk (by decide +kernel)

/-- An empty path resolves to nothing though an empty walk stays at the root, and the path of a node ten levels
    down, cut to the size of the buffer, does not lead back to it. -/
theorem path_resolution_fails : ∃ (K : ℕ → List ℕ) (s : Vfsd) (x : Node), Forest K s ∧ s.node s.root = some x ∧
    x.father = 0 ∧ x.info.name = ['/'] ∧
    ((s.resolveChars []).2 = 0 ∧ walkTo K s s.root (components []) = some s.root) ∧
    ∃ n, Below K s.root n ∧ ProperTo K s n ∧ s.resolveChars (s.fullname n fullNameMax) ≠ (true, n) := by
  refine ⟨deepKids, deep, _, deep_forest, rfl, rfl, rfl, ⟨rfl, rfl⟩, 10, ?_, deep_proper 10, ?_⟩
  · exact deep_below 9 (by decide) (by decide)
  · exact deep_cut

end EwokOS.Vfs
