import Mathlib.Data.List.Basic

/-! Doubly linked lists in memory, for any type of addresses.

    `Linked next prev p l n` says that the nodes `l` hang together by their own fields: the first one
    points back to `p`, the last one on to `n`, and neighbours point at each other.

        p ◀─ a ⇄ c ⇄ d ─▶ n            l = [a, c, d]

    Writes are described by what they do to `next` and `prev` on the nodes of the list, so a proof
    about a splice says which two fields changed and that the others did not. -/

namespace EwokOS.Schemes

universe u
variable {α : Type u}

def Linked (next prev : α → α) : α → List α → α → Prop
  | _, [], _ => True
  | p, a :: l, n => prev a = p ∧ next a = l.headD n ∧ Linked next prev a l n

variable {next prev next' prev' : α → α} {p n a c : α} {l l₁ l₂ : List α}

theorem headD_append : (l₁ ++ l₂).headD n = l₁.headD (l₂.headD n) := by
  cases l₁ <;> rfl

theorem getLastD_append_cons : (l₁ ++ a :: l₂).getLastD p = l₂.getLastD a := by
  induction l₁ generalizing p with
  | nil => rw [List.nil_append, List.getLastD_cons]
  | cons c l ih => rw [List.cons_append, List.getLastD_cons, ih]

theorem linked_append : Linked next prev p (l₁ ++ l₂) n ↔
    Linked next prev p l₁ (l₂.headD n) ∧ Linked next prev (l₁.getLastD p) l₂ n := by
  induction l₁ generalizing p with
  | nil => exact ⟨fun h => ⟨trivial, h⟩, fun h => h.2⟩
  | cons a l ih =>
    rw [List.cons_append, Linked, Linked, ih, headD_append, List.getLastD_cons]
    simp only [and_assoc]

/-- Only the fields of the nodes count. -/
theorem Linked.congr (h : Linked next prev p l n) (hn : ∀ x ∈ l, next' x = next x)
    (hp : ∀ x ∈ l, prev' x = prev x) : Linked next' prev' p l n := by
  induction l generalizing p with
  | nil => trivial
  | cons a l ih =>
    refine ⟨(hp a List.mem_cons_self).trans h.1, (hn a List.mem_cons_self).trans h.2.1, ?_⟩
    exact ih h.2.2 (fun x hx => hn x (List.mem_cons_of_mem a hx))
      fun x hx => hp x (List.mem_cons_of_mem a hx)

/-- What comes before the first node is changed. -/
theorem Linked.rebase {q : α} (h : Linked next prev p l n)
    (hn : ∀ x ∈ l, next' x = next x) (hh : ∀ x ∈ l.head?, prev' x = q)
    (hp : ∀ x ∈ l.tail, prev' x = prev x) : Linked next' prev' q l n := by
  cases l with
  | nil => trivial
  | cons a l =>
    obtain ⟨-, hnext, hrest⟩ := h
    refine ⟨hh a rfl, (hn a List.mem_cons_self).trans hnext, ?_⟩
    exact hrest.congr (fun x hx => hn x (List.mem_cons_of_mem a hx)) hp

/-! ### Splices -/

theorem head_ne_of_mem_tail (hnd : l.Nodup) {x : α} (hx : x ∈ l.tail) : x ≠ l.headD n := by
  cases l with
  | nil => cases hx
  | cons a l =>
    rintro rfl
    exact (List.nodup_cons.mp hnd).1 hx

/-- What follows a node comes after all that is before it. -/
theorem head_apart (hnd : (l₁ ++ a :: c :: l₂).Nodup) (hout : l₂ = [] → n ∉ l₁ ++ [a]) :
    ∀ x ∈ l₁ ++ [a], x ≠ l₂.headD n := by
  rintro x hx rfl
  cases l₂ with
  | nil => exact hout rfl hx
  | cons d l =>
    have hnd' : ((l₁ ++ [a]) ++ c :: d :: l).Nodup := by simpa using hnd
    exact (List.nodup_append.mp hnd').2.2 _ hx _ (List.mem_cons_of_mem c List.mem_cons_self) rfl

/-- A node is put in after `a`. -/
theorem Linked.insert (h : Linked next prev p (l₁ ++ a :: l₂) n)
    (hnd : (l₁ ++ a :: c :: l₂).Nodup) (hna : next' a = c) (hnc : next' c = l₂.headD n)
    (hn : ∀ x, x ≠ a → x ≠ c → next' x = next x) (hpc : prev' c = a)
    (hph : ∀ x ∈ l₂.head?, prev' x = c) (hp : ∀ x, x ≠ c → x ≠ l₂.headD n → prev' x = prev x)
    (hout : l₂ = [] → n ∉ l₁ ++ [a]) : Linked next' prev' p (l₁ ++ a :: c :: l₂) n := by
  obtain ⟨h₁, ha, -, h₂⟩ := linked_append.mp h
  obtain ⟨hnd₁, hnd₂, hdis⟩ := List.nodup_append.mp hnd
  obtain ⟨hacl, hcl⟩ := List.nodup_cons.mp hnd₂
  obtain ⟨hc, hl₂⟩ := List.nodup_cons.mp hcl
  have hac : a ≠ c := fun he => hacl (he ▸ List.mem_cons_self)
  have hhead := head_apart hnd hout
  refine linked_append.mpr ⟨h₁.congr (fun x hx => hn x ?_ ?_) fun x hx => hp x ?_ ?_, ?_⟩
  · exact fun he => hdis x hx a List.mem_cons_self he
  · exact fun he => hdis x hx c (List.mem_cons_of_mem a List.mem_cons_self) he
  · exact fun he => hdis x hx c (List.mem_cons_of_mem a List.mem_cons_self) he
  · exact hhead x (List.mem_append_left _ hx)
  · refine ⟨(hp a hac (hhead a (List.mem_append_right _ List.mem_cons_self))).trans ha, hna, hpc, hnc, ?_⟩
    refine h₂.rebase (fun x hx => hn x ?_ ?_) hph fun x hx => hp x ?_ ?_
    · exact fun he => hacl (he ▸ List.mem_cons_of_mem c hx)
    · exact fun he => hc (he ▸ hx)
    · exact fun he => hc (he ▸ List.mem_of_mem_tail hx)
    · exact head_ne_of_mem_tail hl₂ hx

/-- The node after `a` is taken out. -/
theorem Linked.remove (h : Linked next prev p (l₁ ++ a :: c :: l₂) n)
    (hnd : (l₁ ++ a :: c :: l₂).Nodup) (hna : next' a = l₂.headD n)
    (hn : ∀ x, x ≠ a → next' x = next x) (hph : ∀ x ∈ l₂.head?, prev' x = a)
    (hp : ∀ x, x ≠ l₂.headD n → prev' x = prev x)
    (hout : l₂ = [] → n ∉ l₁ ++ [a]) : Linked next' prev' p (l₁ ++ a :: l₂) n := by
  obtain ⟨h₁, ha, -, -, -, h₂⟩ := linked_append.mp h
  obtain ⟨hnd₁, hnd₂, hdis⟩ := List.nodup_append.mp hnd
  obtain ⟨hacl, hcl⟩ := List.nodup_cons.mp hnd₂
  obtain ⟨hc, hl₂⟩ := List.nodup_cons.mp hcl
  have hhead := head_apart hnd hout
  refine linked_append.mpr ⟨h₁.congr (fun x hx => hn x ?_) fun x hx => hp x ?_, ?_⟩
  · exact fun he => hdis x hx a List.mem_cons_self he
  · exact hhead x (List.mem_append_left _ hx)
  · refine ⟨(hp a (hhead a (List.mem_append_right _ List.mem_cons_self))).trans ha, hna, ?_⟩
    refine h₂.rebase (fun x hx => hn x ?_) hph fun x hx => hp x (head_ne_of_mem_tail hl₂ hx)
    exact fun he => hacl (he ▸ List.mem_cons_of_mem c hx)

/-! ### Lists between two equal ends -/

section
variable [DecidableEq α]

/-- A node is taken out, the first one too; `p` stands for the ends. -/
theorem Linked.cut (h : Linked next prev p (l₁ ++ c :: l₂) p) (hnd : (l₁ ++ c :: l₂).Nodup)
    (hout : p ∉ l₁ ++ c :: l₂) (hn : ∀ x ∈ l₁ ++ l₂, next' x = if x = l₁.getLastD p then l₂.headD p else next x)
    (hp : ∀ x ∈ l₁ ++ l₂, prev' x = if x = l₂.headD p then l₁.getLastD p else prev x) :
    Linked next' prev' p (l₁ ++ l₂) p := by
  obtain ⟨h₁, -, -, h₂⟩ := linked_append.mp h
  obtain ⟨hnd₁, hnd₂, hdis⟩ := List.nodup_append.mp hnd
  obtain ⟨hc, hl₂⟩ := List.nodup_cons.mp hnd₂
  have hp₁ : ∀ x ∈ l₁, x ≠ p := fun x hx he => hout (he ▸ List.mem_append_left _ hx)
  have hp₂ : ∀ x ∈ l₂, x ≠ p := fun x hx he =>
    hout (he ▸ List.mem_append_right _ (List.mem_cons_of_mem c hx))
  have hsep : ∀ x ∈ l₁, ∀ y ∈ l₂, x ≠ y := fun x hx y hy =>
    hdis x hx y (List.mem_cons_of_mem c hy)
  have hhead : ∀ x ∈ l₁, x ≠ l₂.headD p := by
    intro x hx
    cases l₂ with
    | nil => exact hp₁ x hx
    | cons d l => exact hsep x hx d List.mem_cons_self
  have hlast : ∀ x ∈ l₂, x ≠ l₁.getLastD p := by
    intro x hx he
    rcases List.eq_nil_or_concat l₁ with rfl | ⟨l, d, rfl⟩
    · exact hp₂ x hx he
    · rw [List.concat_eq_append, getLastD_append_cons] at he
      exact hsep d (by simp) x hx (by simpa using he.symm)
  refine linked_append.mpr ⟨?_, ?_⟩
  · -- the nodes before: only the last one points elsewhere
    rcases List.eq_nil_or_concat l₁ with rfl | ⟨l, d, rfl⟩
    · trivial
    · rw [List.concat_eq_append] at *
      have hgl : (l ++ [d]).getLastD p = d := by rw [getLastD_append_cons]; rfl
      rw [hgl] at hn
      obtain ⟨ha, hb, -, -⟩ := linked_append.mp h₁
      have hdl : d ∉ l := fun hd => (List.nodup_append.mp hnd₁).2.2 d hd d List.mem_cons_self rfl
      refine linked_append.mpr ⟨ha.congr (fun x hx => ?_) fun x hx => ?_, ?_, ?_, trivial⟩
      · rw [hn x (by simp [hx]), if_neg fun he : x = d => hdl (he ▸ hx)]
      · rw [hp x (by simp [hx]), if_neg (hhead x (List.mem_append_left _ hx))]
      · rw [hp d (by simp), if_neg (hhead d (by simp))]
        exact hb
      · rw [hn d (by simp), if_pos rfl]
        rfl
  · refine h₂.rebase (fun x hx => ?_) (fun x hx => ?_) fun x hx => ?_
    · rw [hn x (List.mem_append_right _ hx), if_neg (hlast x hx)]
    · cases l₂ with
      | nil => cases hx
      | cons d l =>
        cases hx
        rw [hp _ (List.mem_append_right _ List.mem_cons_self)]
        exact if_pos rfl
    · rw [hp x (List.mem_append_right _ (List.mem_of_mem_tail hx)), if_neg (head_ne_of_mem_tail hl₂ hx)]

/-- A node is put at the end. -/
theorem Linked.snoc (h : Linked next prev p l p) (hnd : (l ++ [c]).Nodup) (hnc : next' c = p)
    (hpc : prev' c = l.getLastD p) (hn : ∀ x ∈ l, next' x = if x = l.getLastD p then c else next x)
    (hp : ∀ x ∈ l, prev' x = prev x) : Linked next' prev' p (l ++ [c]) p := by
  refine linked_append.mpr ⟨?_, hpc, hnc, trivial⟩
  rcases List.eq_nil_or_concat l with rfl | ⟨l, d, rfl⟩
  · trivial
  · rw [List.concat_eq_append] at *
    have hgl : (l ++ [d]).getLastD p = d := by rw [getLastD_append_cons]; rfl
    rw [hgl] at hn
    obtain ⟨ha, hb, -, -⟩ := linked_append.mp h
    have hdl : d ∉ l := fun hd =>
      (List.nodup_append.mp (List.nodup_append.mp hnd).1).2.2 d hd d List.mem_cons_self rfl
    refine linked_append.mpr ⟨ha.congr (fun x hx => ?_) fun x hx => ?_, ?_, ?_, trivial⟩
    · rw [hn x (by simp [hx]), if_neg fun he : x = d => hdl (he ▸ hx)]
    · exact hp x (by simp [hx])
    · rw [hp d (by simp)]
      exact hb
    · rw [hn d (by simp), if_pos rfl]
      rfl

end

/-! ### What is left of a list -/

/-- From `l` to `l'` some nodes have been taken out, and others put at the end. -/
def Trim (l l' : List α) : Prop := ∃ k e, l' = k ++ e ∧ k.Sublist l ∧ ∀ x ∈ e, x ∉ l

theorem Trim.of_sublist {l' : List α} (h : l'.Sublist l) : Trim l l' :=
  ⟨l', [], (List.append_nil l').symm, h, by rintro x ⟨⟩⟩

theorem Trim.refl (l : List α) : Trim l l := .of_sublist (List.Sublist.refl l)

theorem Trim.snoc {k : List α} (h : k.Sublist l) (hc : c ∉ l) : Trim l (k ++ [c]) :=
  ⟨k, [c], rfl, h, fun _ hx => List.mem_singleton.mp hx ▸ hc⟩

theorem find?_of_sublist {k : List α} {q : α → Bool} (h : k.Sublist l) (hnd : l.Nodup) (ha : a ∈ k)
    (hq : l.find? q = some a) : k.find? q = some a := by
  induction h with
  | slnil => cases ha
  | @cons k l b h ih =>
    have hab : b ≠ a := fun he => (List.nodup_cons.mp hnd).1 (he ▸ h.subset ha)
    rw [List.find?_cons] at hq
    split at hq
    · exact absurd (Option.some.inj hq) hab
    · exact ih (List.nodup_cons.mp hnd).2 ha hq
  | @cons_cons k l b h ih =>
    rw [List.find?_cons] at hq ⊢
    split at hq
    · exact hq
    · rename_i hb
      refine ih (List.nodup_cons.mp hnd).2 ((List.mem_cons.mp ha).resolve_left ?_) hq
      rintro rfl
      have hqa := List.find?_some hq
      rw [hb] at hqa
      cases hqa

/-- The first node of a kind is still the first one, if it has stayed and nothing before it has become of
    that kind. -/
theorem Trim.find? {l' : List α} {q q' : α → Bool} (h : Trim l l') (hnd : l.Nodup) (ha : a ∈ l')
    (hq : l.find? q = some a) (hqa : q' a = true) (hsame : ∀ x ∈ l, x ∈ l' → q' x = true → q x = true) :
    l'.find? q' = some a := by
  obtain ⟨k, e, rfl, hk, he⟩ := h
  have hak : a ∈ k :=
    (List.mem_append.mp ha).resolve_right fun hae => he a hae (List.mem_of_find?_eq_some hq)
  obtain ⟨-, as, bs, rfl, has⟩ := List.find?_eq_some_iff_append.mp (find?_of_sublist hk hnd hak hq)
  refine List.find?_eq_some_iff_append.mpr ⟨hqa, as, bs ++ e, by simp, fun x hx => ?_⟩
  have hxk : x ∈ as ++ a :: bs := List.mem_append_left _ hx
  cases hqx : q' x with
  | false => rfl
  | true =>
    have hqx := hsame x (hk.subset hxk) (List.mem_append_left _ hxk) hqx
    exact absurd (has x hx) (by simp [hqx])

end EwokOS.Schemes
