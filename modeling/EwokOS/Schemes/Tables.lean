import Mathlib.Data.List.Induction
import Mathlib.Data.List.Nodup
import Mathlib.Logic.Function.Basic

/-! Tables whose entries lead to further tables (page tables, tries), and how they are given back.

    A path of indices is followed from a root. When every table is found by one path only, an entry that is
    written is on one path, and what it does to the others is said once and for all:

        r ─i─▶ t ─j─▶ u        walk m r [i, j] = some u

    Nothing moves as long as the entries on the way stay (`walk_off`), a new table behind an empty entry is
    found by its own path only (`walk_link`), and a loop over the indices gives each table back once
    (`release_spec`). -/

namespace EwokOS.Schemes.Tables

universe u v w
variable {τ : Type u} {ι : Type v} {ε : Type w} (link : ε → Option τ)

/-- The table a path of indices leads to. -/
def walk (m : τ → ι → ε) : τ → List ι → Option τ
  | t, [] => some t
  | t, i :: p => (link (m t i)).bind fun u => walk m u p

variable {link} {m m' : τ → ι → ε} {t u : τ} {i j : ι} {p q : List ι}

theorem walk_append : walk link m t (p ++ q) = (walk link m t p).bind fun u => walk link m u q := by
  induction p generalizing t with
  | nil => rfl
  | cons i p ih =>
    rw [List.cons_append, walk, walk, Option.bind_assoc]
    exact Option.bind_congr fun u _ => ih

theorem walk_concat : walk link m t (p ++ [i]) = (walk link m t p).bind fun u => link (m u i) := by
  rw [walk_append]
  refine Option.bind_congr fun u _ => ?_
  rw [walk]
  exact Option.bind_fun_some _

/-! ### What is found -/

/-- The roots in use, and the paths that count: with a path, its beginnings count. -/
structure Scope (τ : Type u) (ι : Type v) where
  root : τ → Prop
  path : List ι → Prop
  closed : ∀ p i, path (p ++ [i]) → path p

variable (S : Scope τ ι)

def Found (link : ε → Option τ) (m : τ → ι → ε) (t : τ) : Prop :=
  ∃ r p, S.root r ∧ S.path p ∧ walk link m r p = some t

/-- A table is found by one path from one root. -/
def Once (link : ε → Option τ) (m : τ → ι → ε) : Prop :=
  ∀ r p r' p' t, S.root r → S.root r' → S.path p → S.path p' → walk link m r p = some t →
    walk link m r' p' = some t → r = r' ∧ p = p'

variable {S} {r r' : τ} {p' : List ι}

/-- Only the entries on the way count. -/
theorem walk_off (h : ∀ r q i u, S.root r → S.path (q ++ [i]) → walk link m r q = some u → link (m' u i) = link (m u i))
    (hr : S.root r) (hp : S.path p) : walk link m' r p = walk link m r p := by
  induction p using List.reverseRecOn with
  | nil => rfl
  | append_singleton p i ih =>
    rw [walk_concat, walk_concat, ih (S.closed p i hp)]
    exact Option.bind_congr fun u hu => h r p i u hr hp hu

theorem Once.off (h : Once S link m) (hw : ∀ r p, S.root r → S.path p → walk link m' r p = walk link m r p) :
    Once S link m' := by
  intro r p r' p' t hr hr' hp hp' ht ht'
  rw [hw r p hr hp] at ht
  rw [hw r' p' hr' hp'] at ht'
  exact h r p r' p' t hr hr' hp hp' ht ht'

theorem found_off (hw : ∀ r p, S.root r → S.path p → walk link m' r p = walk link m r p) :
    Found S link m' t ↔ Found S link m t := by
  refine exists_congr fun r => exists_congr fun p => and_congr_right fun hr => and_congr_right fun hp => ?_
  rw [hw r p hr hp]

section
variable [DecidableEq τ] [DecidableEq ι]

/-- An empty entry of `t`, found by `q`, is made to lead to a table `u` of empty entries. -/
theorem walk_link (hone : Once S link m) (hr : S.root r) (hq : S.path (q ++ [i])) (ht : walk link m r q = some t)
    (hempty : link (m t i) = none) (hu : ¬Found S link m u) (hslot : link (m' t i) = some u)
    (hnew : ∀ j, link (m' u j) = none) (hother : ∀ v j, v ≠ u → (v, j) ≠ (t, i) → link (m' v j) = link (m v j))
    (hr' : S.root r') (hp : S.path p) :
    walk link m' r' p = if r' = r ∧ p = q ++ [i] then some u else walk link m r' p := by
  induction p using List.reverseRecOn with
  | nil =>
    rw [if_neg fun hc => absurd hc.2.symm (List.append_ne_nil_of_right_ne_nil q (List.cons_ne_nil i []))]
    rfl
  | append_singleton p j ih =>
    have hp' := S.closed p j hp
    rw [walk_concat, walk_concat, ih hp']
    by_cases hc : r' = r ∧ p = q ++ [i]
    · -- below the new table there is nothing
      obtain ⟨rfl, rfl⟩ := hc
      have hlen : ¬(r' = r' ∧ q ++ [i] ++ [j] = q ++ [i]) := by
        rintro ⟨-, hl⟩
        have := congrArg List.length hl
        rw [List.length_append, List.length_singleton] at this
        omega
      rw [if_pos ⟨rfl, rfl⟩, if_neg hlen, Option.bind_some, hnew, walk_concat, ht, Option.bind_some, hempty]
      rfl
    · rw [if_neg hc]
      cases hv : walk link m r' p with
      | none =>
        rw [if_neg]
        · rfl
        · rintro ⟨rfl, hl⟩
          obtain ⟨rfl, -⟩ := List.append_inj' hl rfl
          rw [ht] at hv
          cases hv
      | some v =>
        rw [Option.bind_some, Option.bind_some]
        by_cases hvi : (v, j) = (t, i)
        · obtain ⟨rfl, rfl⟩ := Prod.mk.injEq .. ▸ hvi
          obtain ⟨rfl, rfl⟩ := hone r' p r q v hr' hr hp' (S.closed q j hq) hv ht
          rw [if_pos ⟨rfl, rfl⟩, hslot]
        · have hne : v ≠ u := fun he => hu ⟨r', p, hr', hp', he ▸ hv⟩
          rw [hother v j hne hvi, if_neg]
          rintro ⟨rfl, hl⟩
          obtain ⟨rfl, hj⟩ := List.append_inj' hl rfl
          rw [ht] at hv
          cases hv
          exact hvi (Prod.ext rfl (List.singleton_inj.mp hj))

theorem once_link (hone : Once S link m) (hu : ¬Found S link m u)
    (hw : ∀ r' p, S.root r' → S.path p → walk link m' r' p = if r' = r ∧ p = q then some u else walk link m r' p) :
    Once S link m' := by
  intro r₁ p₁ r₂ p₂ t h₁ h₂ hp₁ hp₂ ht₁ ht₂
  rw [hw r₁ p₁ h₁ hp₁] at ht₁
  rw [hw r₂ p₂ h₂ hp₂] at ht₂
  split_ifs at ht₁ with hc₁ <;> split_ifs at ht₂ with hc₂
  · exact ⟨hc₁.1.trans hc₂.1.symm, hc₁.2.trans hc₂.2.symm⟩
  · cases ht₁
    exact absurd ⟨r₂, p₂, h₂, hp₂, ht₂⟩ hu
  · cases ht₂
    exact absurd ⟨r₁, p₁, h₁, hp₁, ht₁⟩ hu
  · exact hone r₁ p₁ r₂ p₂ t h₁ h₂ hp₁ hp₂ ht₁ ht₂

theorem found_link (hr : S.root r) (hq : S.path q) (hnone : walk link m r q = none)
    (hw : ∀ r' p, S.root r' → S.path p → walk link m' r' p = if r' = r ∧ p = q then some u else walk link m r' p) :
    Found S link m' t ↔ t = u ∨ Found S link m t := by
  constructor
  · rintro ⟨r', p, hr', hp, ht⟩
    rw [hw r' p hr' hp] at ht
    split_ifs at ht with hc
    · exact .inl (Option.some.inj ht).symm
    · exact .inr ⟨r', p, hr', hp, ht⟩
  · rintro (rfl | ⟨r', p, hr', hp, ht⟩)
    · exact ⟨r, q, hr, hq, by rw [hw r q hr hq, if_pos ⟨rfl, rfl⟩]⟩
    · refine ⟨r', p, hr', hp, ?_⟩
      rw [hw r' p hr' hp, if_neg]
      · exact ht
      · rintro ⟨rfl, rfl⟩
        rw [hnone] at ht
        cases ht

end

/-! ### Giving back -/

section
variable (link) (is : List ι) (m : τ → ι → ε)

/-- The tables up to `n` levels below `t`, then `t` itself, in the order of a loop over the indices. -/
def below : ℕ → τ → List τ
  | 0, t => [t]
  | n + 1, t => (is.flatMap fun i => (link (m t i)).elim [] (below n)) ++ [t]

/-- The tables strictly below `t`. -/
def under (is : List ι) (n : ℕ) (t : τ) (js : List ι) : List τ :=
  js.flatMap fun i => (link (m t i)).elim [] (below link is m n)

end

variable {is js : List ι} {n : ℕ}

theorem below_succ : below link is m (n + 1) t = under link m is n t is ++ [t] := rfl

theorem mem_under : u ∈ under link m is n t js ↔ ∃ i ∈ js, ∃ x, link (m t i) = some x ∧ u ∈ below link is m n x := by
  rw [under, List.mem_flatMap]
  refine exists_congr fun i => and_congr_right fun _ => ?_
  cases link (m t i) with
  | none => simp
  | some x => simp

theorem mem_below : u ∈ below link is m n t ↔ ∃ p, p.length ≤ n ∧ (∀ i ∈ p, i ∈ is) ∧ walk link m t p = some u := by
  induction n generalizing t with
  | zero =>
    rw [below, List.mem_singleton]
    constructor
    · rintro rfl
      exact ⟨[], Nat.le_refl 0, by simp, rfl⟩
    · rintro ⟨p, hlen, -, hp⟩
      rw [List.eq_nil_of_length_eq_zero (Nat.le_zero.mp hlen)] at hp
      exact (Option.some.inj hp).symm
  | succ n ih =>
    rw [below_succ, List.mem_append, List.mem_singleton, mem_under]
    constructor
    · rintro (⟨i, hi, x, hx, hu⟩ | rfl)
      · obtain ⟨p, hlen, hp, hw⟩ := ih.mp hu
        refine ⟨i :: p, Nat.succ_le_succ hlen, List.forall_mem_cons.mpr ⟨hi, hp⟩, ?_⟩
        rw [walk, hx, Option.bind_some, hw]
      · exact ⟨[], Nat.zero_le _, by simp, rfl⟩
    · rintro ⟨p, hlen, hp, hw⟩
      cases p with
      | nil => exact .inr (Option.some.inj hw).symm
      | cons i p =>
        rw [walk] at hw
        obtain ⟨x, hx, hw⟩ := Option.bind_eq_some_iff.mp hw
        obtain ⟨hi, hp⟩ := List.forall_mem_cons.mp hp
        exact .inl ⟨i, hi, x, hx, ih.mpr ⟨p, Nat.le_of_succ_le_succ hlen, hp, hw⟩⟩

/-- Paths over `is`, up to a length, that find different tables. -/
def Straight (link : ε → Option τ) (is : List ι) (m : τ → ι → ε) (n : ℕ) (t : τ) : Prop :=
  ∀ p p' u, p.length ≤ n → p'.length ≤ n → (∀ i ∈ p, i ∈ is) → (∀ i ∈ p', i ∈ is) → walk link m t p = some u →
    walk link m t p' = some u → p = p'

theorem Straight.kid (h : Straight link is m (n + 1) t) (hi : i ∈ is) (hx : link (m t i) = some u) :
    Straight link is m n u := by
  intro p p' v hlen hlen' hp hp' hw hw'
  have hcons : ∀ q, walk link m t (i :: q) = walk link m u q := by
    intro q
    rw [walk, hx, Option.bind_some]
  have he := h (i :: p) (i :: p') v (Nat.succ_le_succ hlen) (Nat.succ_le_succ hlen') (List.forall_mem_cons.mpr ⟨hi, hp⟩)
    (List.forall_mem_cons.mpr ⟨hi, hp'⟩) ((hcons p).trans hw) ((hcons p').trans hw')
  exact (List.cons.inj he).2

theorem nodup_under (hnd : js.Nodup) (hb : ∀ i ∈ js, ∀ x, link (m t i) = some x → (below link is m n x).Nodup)
    (hd : ∀ i ∈ js, ∀ j ∈ js, ∀ x y u, link (m t i) = some x → link (m t j) = some y → u ∈ below link is m n x →
      u ∈ below link is m n y → i = j) : (under link m is n t js).Nodup := by
  refine List.nodup_flatMap.mpr ⟨fun i hi => ?_, ?_⟩
  · cases hx : link (m t i) with
    | none => exact List.nodup_nil
    | some x => exact hb i hi x hx
  · refine hnd.imp_of_mem fun {i j} hi hj hne => ?_
    intro u hu hu'
    dsimp only at hu hu'
    cases hx : link (m t i) with
    | none =>
      rw [hx] at hu
      cases hu
    | some x =>
      cases hy : link (m t j) with
      | none =>
        rw [hy] at hu'
        cases hu'
      | some y =>
        rw [hx] at hu
        rw [hy] at hu'
        exact hne (hd i hi j hj x y u hx hy hu hu')

theorem Straight.nodup (hnd : is.Nodup) (h : Straight link is m n t) : (below link is m n t).Nodup := by
  induction n generalizing t with
  | zero => exact List.nodup_singleton t
  | succ n ih =>
    rw [below_succ]
    refine List.nodup_append.mpr ⟨nodup_under hnd (fun i hi x hx => ih (h.kid hi hx)) ?_, List.nodup_singleton t, ?_⟩
    · intro i hi j hj x y u hx hy hu hu'
      obtain ⟨p, hlen, hp, hw⟩ := mem_below.mp hu
      obtain ⟨p', hlen', hp', hw'⟩ := mem_below.mp hu'
      have he := h (i :: p) (j :: p') u (Nat.succ_le_succ hlen) (Nat.succ_le_succ hlen')
        (List.forall_mem_cons.mpr ⟨hi, hp⟩) (List.forall_mem_cons.mpr ⟨hj, hp'⟩)
        (by rw [walk, hx, Option.bind_some, hw]) (by rw [walk, hy, Option.bind_some, hw'])
      exact (List.cons.inj he).1
    · rintro a ha b hb rfl
      cases List.mem_singleton.mp hb
      obtain ⟨i, hi, x, hx, hu⟩ := mem_under.mp ha
      obtain ⟨p, hlen, hp, hw⟩ := mem_below.mp hu
      have he := h (i :: p) [] t (Nat.succ_le_succ hlen) (Nat.zero_le _) (List.forall_mem_cons.mpr ⟨hi, hp⟩) (by simp)
        (by rw [walk, hx, Option.bind_some, hw]) rfl
      cases he

theorem below_congr (h : ∀ u ∈ below link is m n t, m' u = m u) : below link is m' n t = below link is m n t := by
  induction n generalizing t with
  | zero => rfl
  | succ n ih =>
    rw [below_succ, below_succ]
    have ht : m' t = m t := h t (List.mem_append_right _ (List.mem_singleton_self t))
    refine congrArg (· ++ [t]) (List.flatMap_congr fun i hi => ?_)
    rw [ht]
    cases hx : link (m t i) with
    | none => rfl
    | some x => exact ih fun u hu => h u (List.mem_append_left _ (mem_under.mpr ⟨i, hi, x, hx, hu⟩))

/-! A loop over the indices gives back what is below each entry, then the table itself. -/

section
variable {σ : Type w} (link) (mem : σ → τ → ι → ε) (give : σ → τ → σ) (is : List ι)

def release : ℕ → σ → τ → σ
  | 0, s, t => give s t
  | n + 1, s, t => give (is.foldl (fun s i => (link (mem s t i)).elim s (release n s)) s) t

/-- The loop without the table. -/
def releaseUnder (n : ℕ) (js : List ι) (s : σ) (t : τ) : σ :=
  js.foldl (fun s i => (link (mem s t i)).elim s (release link mem give is n s)) s

variable {link mem give is} {free : σ → List τ} {s : σ}

/-- Giving back `l` from `s` leads to `s'`: the pages are free, and the memory of the others stays. -/
structure Gives (mem : σ → τ → ι → ε) (free : σ → List τ) (s : σ) (l : List τ) (s' : σ) : Prop where
  free : free s' = l.reverse ++ free s
  stay : ∀ u, u ∉ l → mem s' u = mem s u

theorem Gives.trans {l l' : List τ} {s' s'' : σ} (h : Gives mem free s l s') (h' : Gives mem free s' l' s'') :
    Gives mem free s (l ++ l') s'' := by
  refine ⟨?_, fun u hu => ?_⟩
  · rw [h'.free, h.free, List.reverse_append, List.append_assoc]
  · rw [List.mem_append, not_or] at hu
    exact (h'.stay u hu.2).trans (h.stay u hu.1)

theorem releaseUnder_spec {n : ℕ} (hstep : ∀ s t, (below link is (mem s) n t).Nodup →
      Gives mem free s (below link is (mem s) n t) (release link mem give is n s t))
    (hm : ∀ u ∈ under link m is n t js, mem s u = m u) (ht : mem s t = m t) (hnd : (under link m is n t js).Nodup)
    (hout : t ∉ under link m is n t js) :
    Gives mem free s (under link m is n t js) (releaseUnder link mem give is n js s t) := by
  induction js generalizing s with
  | nil => exact ⟨rfl, fun _ _ => rfl⟩
  | cons i js ih =>
    have hsplit : under link m is n t (i :: js) = (link (m t i)).elim [] (below link is m n) ++ under link m is n t js :=
      List.flatMap_cons
    have hgo : releaseUnder link mem give is n (i :: js) s t =
        releaseUnder link mem give is n js ((link (mem s t i)).elim s (release link mem give is n s)) t := rfl
    rw [hsplit] at hm hnd hout ⊢
    rw [hgo, ht]
    cases hx : link (m t i) with
    | none =>
      rw [hx] at hm hnd hout
      exact ih hm ht hnd hout
    | some x =>
      rw [hx] at hm hnd hout
      change ∀ u ∈ below link is m n x ++ under link m is n t js, mem s u = m u at hm
      change (below link is m n x ++ under link m is n t js).Nodup at hnd
      change t ∉ below link is m n x ++ under link m is n t js at hout
      obtain ⟨hnx, hnjs, hdis⟩ := List.nodup_append.mp hnd
      rw [List.mem_append, not_or] at hout
      have hsame : below link is (mem s) n x = below link is m n x :=
        below_congr fun u hu => hm u (List.mem_append_left _ hu)
      have hg := hstep s x (hsame ▸ hnx)
      rw [hsame] at hg
      refine hg.trans (ih (fun u hu => ?_) ((hg.stay t hout.1).trans ht) hnjs hout.2)
      exact (hg.stay u fun hx => hdis u hx u hu rfl).trans (hm u (List.mem_append_right _ hu))

/-- Every table of the tree is given back once, and nothing else is touched. -/
theorem release_spec (hfree : ∀ s t, free (give s t) = t :: free s) (hstay : ∀ s t u, u ≠ t → mem (give s t) u = mem s u)
    (n : ℕ) (s : σ) (t : τ) (hnd : (below link is (mem s) n t).Nodup) :
    Gives mem free s (below link is (mem s) n t) (release link mem give is n s t) := by
  have hgive : ∀ s t, Gives mem free s [t] (give s t) := fun s t =>
    ⟨hfree s t, fun u hu => hstay s t u fun he => hu (List.mem_singleton.mpr he)⟩
  induction n generalizing s t with
  | zero => exact hgive s t
  | succ n ih =>
    rw [below_succ] at hnd ⊢
    obtain ⟨hnd, -, hdis⟩ := List.nodup_append.mp hnd
    refine (releaseUnder_spec ih (fun _ _ => rfl) rfl hnd fun ht => ?_).trans (hgive _ t)
    exact hdis t ht t (List.mem_singleton_self t) rfl

end

end EwokOS.Schemes.Tables
