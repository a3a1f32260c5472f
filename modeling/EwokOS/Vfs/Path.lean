import EwokOS.Vfs.Rules

/-! What a path resolves to (`vfs_resolve_path`).

    The walk goes from the root down the lists of kids and takes the first kid of each name; so what has
    been put at the end of a list, or been taken out before the kid, does not matter to it. The nodes it
    passes are those above the one it comes to:

        /a/b         root --"a"--> 4 --"b"--> 9          9, 4 and the root are the line of 9 -/

namespace EwokOS.Vfs

open Schemes

/-- `FS_FULL_NAME_MAX` -/
def fullNameMax : ℕ := 512

namespace Vfsd
variable (s : Vfsd)

/-- Up to a node without a father. -/
def topFrom : ℕ → ℕ → ℕ
  | 0, n => n
  | k + 1, n =>
    match s.node n with
    | none => n
    | some x => if x.father = 0 then n else topFrom k x.father

/-- One component of a path. -/
def enter (cur : ℕ) (comp : List Char) : Option ℕ :=
  match s.node cur with
  | none => none
  | some x =>
    if comp = ['.'] then some cur
    else if comp = ['.', '.'] then some (if x.father = 0 then cur else x.father)
    else s.findKidRaw cur comp

/-- The loop over the components; empty ones are skipped. -/
def walk : ℕ → List (List Char) → Option ℕ
  | cur, [] => some cur
  | cur, comp :: l => if comp = [] then walk cur l else (s.enter cur comp).bind fun kid => walk kid l

/-- `vfs_resolve_path`. -/
def resolvePath : List Char → Option ℕ
  | [] => none
  | '/' :: name =>
    if fullNameMax ≤ name.length then none else s.walk (s.topFrom (s.count + 1) s.root) (name.splitOn '/')
  | name => if fullNameMax ≤ name.length then none else s.walk s.root (name.splitOn '/')

theorem resolvePath_root (name : List Char) : s.resolvePath ('/' :: name) = if fullNameMax ≤ name.length then none
    else s.walk (s.topFrom (s.count + 1) s.root) (name.splitOn '/') := rfl

end Vfsd

open Vfsd

/-- Neither `.` nor `..` is a component. -/
def Plain (comps : List (List Char)) : Prop := ∀ c ∈ comps, c ≠ ['.'] ∧ c ≠ ['.', '.']

/-! ### Kids by name -/

section
variable {K K' : ℕ → List ℕ} {s t : Vfsd} {n : ℕ}

/-- Whether a node goes by the name. -/
def named (s : Vfsd) (name : List Char) (c : ℕ) : Bool := (s.node c).any fun x => x.info.name = name

theorem named_iff {name : List Char} {c : ℕ} {x : Node} (hx : s.node c = some x) :
    named s name c = true ↔ x.info.name = name := by
  simp [named, hx]

theorem findFrom_eq (hnull : s.node 0 = none) (name : List Char) {l : List ℕ} {p k : ℕ}
    (hl : Linked (nextOf s) (prevOf s) p l 0) (hlive : ∀ c ∈ l, ∃ x, s.node c = some x) (hk : l.length < k) :
    s.findFrom name k (l.headD 0) = l.find? (named s name) := by
  induction l generalizing p k with
  | nil =>
    obtain ⟨k, rfl⟩ := Nat.exists_eq_succ_of_ne_zero (Nat.ne_of_gt hk)
    simp only [List.headD_nil, findFrom, hnull, List.find?_nil]
  | cons c l ih =>
    obtain ⟨k, rfl⟩ := Nat.exists_eq_succ_of_ne_zero (Nat.ne_of_gt (Nat.zero_lt_of_lt hk))
    obtain ⟨x, hx⟩ := hlive c (by simp)
    obtain ⟨-, hnext, hrest⟩ := hl
    simp only [nextOf, hx, Option.elim] at hnext
    rw [List.length_cons] at hk
    rw [List.headD_cons, findFrom, hx, List.find?_cons]
    dsimp only
    split
    · rename_i hn
      rw [(named_iff hx).mpr hn]
    · rename_i hn
      rw [Bool.eq_false_iff.mpr fun h => hn ((named_iff hx).mp h), hnext]
      exact ih hrest (fun d hd => hlive d (by simp [hd])) (by omega)

theorem findKidRaw_frame (hn : t.node = s.node) (hc : t.count = s.count) (f : ℕ) (name : List Char) :
    t.findKidRaw f name = s.findKidRaw f name := by
  have hfrom : ∀ k c, t.findFrom name k c = s.findFrom name k c := by
    intro k
    induction k with
    | zero => exact fun c => rfl
    | succ k ih =>
      intro c
      simp only [findFrom, hn, ih]
  simp only [findKidRaw, hn, hc, hfrom]

/-- `vfs_find_kid_raw` finds the first of the kids. -/
theorem Forest.findKidRaw_eq (h : Forest K s) {f c : ℕ} {name : List Char} :
    s.findKidRaw f name = some c ↔ '/' ∉ name ∧ (K f).find? (named s name) = some c := by
  unfold findKidRaw
  split
  · rename_i hf
    rw [h.dead f hf]
    simp
  rename_i x hx
  split
  · rename_i hs
    simp [hs]
  · rename_i hs
    rw [(h.head f x hx).1, findFrom_eq h.null name (h.linked f) ?_ (Nat.lt_succ_of_le (h.length_le f))]
    · simp [hs]
    · intro d hd
      obtain ⟨y, hy, -⟩ := h.kid f d hd
      exact ⟨y, hy⟩

/-- Who is found is a kid of that name. -/
theorem Forest.found (h : Forest K s) {f c : ℕ} {name : List Char} (hc : s.findKidRaw f name = some c) :
    ∃ x, s.node c = some x ∧ x.info.name = name ∧ x.father = f ∧ x.loose = false ∧ up s c = some f := by
  obtain ⟨-, hfind⟩ := h.findKidRaw_eq.mp hc
  obtain ⟨x, hx, hf, hl⟩ := h.kid f c (List.mem_of_find?_eq_some hfind)
  refine ⟨x, hx, (named_iff hx).mp (List.find?_some hfind), hf, hl, ?_⟩
  have hf0 : f ≠ 0 := by
    rintro rfl
    rw [h.dead 0 h.null] at hfind
    cases hfind
  rw [up_eq hx (by rw [hf]; exact hf0), hf]

/-- A kid is still found when it has kept its name and its place, and no kid before it has taken its
    name. -/
theorem Forest.find_kept (h : Forest K s) (h' : Forest K' t) {f c : ℕ} {name : List Char} {y : Node}
    (hc : s.findKidRaw f name = some c) (htrim : Trim (K f) (K' f)) (hy : t.node c = some y)
    (hname : y.info.name = name) (hfa : y.father = f) (hlo : y.loose = false)
    (hsame : ∀ d x z, d ∈ K f → s.node d = some x → t.node d = some z → z.info.name = name → x.info.name = name) :
    t.findKidRaw f name = some c := by
  obtain ⟨hs, hfind⟩ := h.findKidRaw_eq.mp hc
  have hf0 : y.father ≠ 0 := by
    rw [hfa]
    rintro rfl
    rw [h.dead 0 h.null] at hfind
    cases hfind
  have hmem : c ∈ K' f := hfa ▸ h'.mem c y hy hf0 hlo
  refine h'.findKidRaw_eq.mpr ⟨hs, htrim.find? (h.nodup f) hmem hfind ((named_iff hy).mpr hname) fun d hd hd' hq => ?_⟩
  obtain ⟨x, hx, -⟩ := h.kid f d hd
  obtain ⟨z, hz, -⟩ := h'.kid f d hd'
  exact (named_iff hx).mpr (hsame d x z hd hx hz ((named_iff hz).mp hq))

/-! ### The walk -/

/-- The walk comes to a node below the one it starts at. -/
theorem Forest.under_of_walk (h : Forest K s) {cur : ℕ} {comps : List (List Char)} (hp : Plain comps)
    (hw : s.walk cur comps = some n) : Under (up s) n cur := by
  induction comps generalizing cur with
  | nil =>
    cases hw
    exact .self _
  | cons comp l ih =>
    have hpl : Plain l := fun c hc => hp c (by simp [hc])
    unfold walk at hw
    split at hw
    · exact ih hpl hw
    · obtain ⟨c, hc, hw⟩ := Option.bind_eq_some_iff.mp hw
      unfold enter at hc
      split at hc
      · cases hc
      obtain ⟨hdot, hdots⟩ := hp comp (by simp)
      rw [if_neg hdot, if_neg hdots] at hc
      obtain ⟨x, -, -, -, -, hup⟩ := h.found hc
      exact (ih hpl hw).trans (.go hup (.self cur))

/-- The walk to `n` is the same while its line and the kids found on it are. -/
theorem Forest.walk_kept (h : Forest K s) {cur : ℕ} {comps : List (List Char)} (hp : Plain comps)
    (hlive : ∀ a x, Under (up s) n a → s.node a = some x → ∃ y, t.node a = some y)
    (hfind : ∀ f c name, Under (up s) n c → s.findKidRaw f name = some c → t.findKidRaw f name = some c)
    (hw : s.walk cur comps = some n) : t.walk cur comps = some n := by
  induction comps generalizing cur with
  | nil => exact hw
  | cons comp l ih =>
    have hpl : Plain l := fun c hc => hp c (by simp [hc])
    have hund := h.under_of_walk hp hw
    unfold walk at hw ⊢
    split at hw
    · rename_i he
      rw [if_pos he]
      exact ih hpl hw
    · rename_i he
      rw [if_neg he]
      obtain ⟨c, hc, hw⟩ := Option.bind_eq_some_iff.mp hw
      unfold enter at hc
      split at hc
      · cases hc
      rename_i x hx
      obtain ⟨y, hy⟩ := hlive cur x hund hx
      obtain ⟨hdot, hdots⟩ := hp comp (by simp)
      rw [if_neg hdot, if_neg hdots] at hc
      have hc' := hfind cur c comp (h.under_of_walk hpl hw) hc
      rw [enter, hy]
      dsimp only
      rw [if_neg hdot, if_neg hdots, hc']
      exact ih hpl hw

end

end EwokOS.Vfs
