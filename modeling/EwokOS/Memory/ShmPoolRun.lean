import EwokOS.Memory.ShmPool

/-! The slab stays tiled, and runs that are handed out are left alone.

    Freeing walks the table once. What it still has to look at is part of the invariant (`Near`): the
    free neighbours of the freed run are among the entries to come. One pass is enough because a free
    neighbour has no free neighbour of its own. -/

namespace EwokOS.Memory.ShmPool

open Schemes (cover lies cover_set cover_append_singleton apart_of_cover Apart)

variable {b : Build} {sl : Slab b} {t t' : List Run} {i j k n p : ℕ} {r q : Run}

/-! ### Entries -/

theorem get_eq (h : i < t.length) : t[i]? = some (get t i) := by
  rw [get, List.getD_eq_getElem?_getD, List.getElem?_eq_getElem h]
  rfl

theorem get_mem (h : i < t.length) : get t i ∈ t := List.mem_of_getElem? (get_eq h)

theorem exists_get (h : r ∈ t) : ∃ i < t.length, get t i = r := by
  obtain ⟨i, hi, hr⟩ := List.mem_iff_getElem.mp h
  refine ⟨i, hi, ?_⟩
  have he := get_eq hi
  rw [List.getElem?_eq_getElem hi, hr] at he
  exact (Option.some.inj he).symm

theorem get_set (h : i < t.length) : get (t.set i r) k = if k = i then r else get t k := by
  rw [get, get, List.getD_eq_getElem?_getD, List.getD_eq_getElem?_getD, List.getElem?_set]
  split_ifs with h₁ h₂ h₂
  · rfl
  · exact absurd h₁.symm h₂
  · exact absurd h₂.symm h₁
  · rfl

/-- An entry past the table is an empty one. -/
theorem get_past (h : t.length ≤ i) : get t i = ⟨0, 0, false⟩ := by
  rw [get, List.getD_eq_getElem?_getD, List.getElem?_eq_none h]
  rfl

/-- What an entry covers. -/
theorem lies_run (a : ℕ) (r : Run) : lies Run.paddr (bytes b) a r = true ↔
    r.paddr ≠ 0 ∧ r.paddr ≤ a ∧ a < r.paddr + r.pages * b.page := by
  rw [lies, bytes, decide_eq_true_eq]
  split_ifs with h
  · simp only [h]
    omega
  · exact ⟨fun hr => ⟨h, hr⟩, fun hr => hr.2⟩

theorem lies_empty (a : ℕ) (h : r.paddr = 0) : lies Run.paddr (bytes b) a r = false := by
  rw [← Bool.not_eq_true, lies_run]
  exact fun hr => hr.1 h

/-- A run and what is cut off it cover what the whole did. -/
theorem lies_split (a x n k : ℕ) {u u' u'' : Bool} (hx : x ≠ 0) :
    (lies Run.paddr (bytes b) a ⟨x, n, u⟩).toNat +
      (lies Run.paddr (bytes b) a ⟨x + n * b.page, k, u'⟩).toNat =
      (lies Run.paddr (bytes b) a ⟨x, n + k, u''⟩).toNat := by
  have hne : x + n * b.page ≠ 0 := by omega
  have hsum : (n + k) * b.page = n * b.page + k * b.page := Nat.add_mul ..
  simp only [lies, bytes, hx, hne, if_false, hsum]
  by_cases h₁ : x ≤ a
  · by_cases h₂ : a < x + n * b.page
    · have h₃ : ¬x + n * b.page ≤ a := by omega
      have h₄ : a < x + (n * b.page + k * b.page) := by omega
      simp [h₁, h₂, h₃, h₄]
    · have h₃ : x + n * b.page ≤ a := by omega
      simp [h₁, h₂, h₃, Nat.add_assoc]
  · have h₃ : ¬x + n * b.page ≤ a := by omega
    simp [h₁, h₃]

namespace Good

/-- Entries at different places are apart. -/
theorem apart (h : Good b sl t) (hi : i < t.length) (hj : j < t.length) (hij : i ≠ j)
    (hr : (get t i).paddr ≠ 0) (hq : (get t j).paddr ≠ 0) :
    Apart ((get t i).paddr, (get t i).pages * b.page) ((get t j).paddr, (get t j).pages * b.page) := by
  have hone : ∀ a, cover Run.paddr (bytes b) t a ≤ 1 := by
    intro a
    rw [h.tiled]
    split_ifs <;> omega
  have hb : ∀ {r : Run}, r.paddr ≠ 0 → bytes b r = r.pages * b.page := fun hr => if_neg hr
  have hpos : ∀ {i}, i < t.length → (get t i).paddr ≠ 0 → 0 < bytes b (get t i) := fun hi hr => by
    rw [hb hr]
    exact Nat.mul_pos (h.pos _ (get_mem hi) hr) Build.page_pos
  have hap := apart_of_cover hone (get_eq hi) (get_eq hj) hij (hpos hi hr) (hpos hj hq)
  rwa [hb hr, hb hq] at hap

/-- An address belongs to one run. -/
theorem unique (h : Good b sl t) (hi : i < t.length) (hj : j < t.length)
    (hr : (get t i).paddr ≠ 0) (he : (get t i).paddr = (get t j).paddr) : i = j := by
  by_contra hij
  have hq : (get t j).paddr ≠ 0 := he ▸ hr
  have hpi := Nat.mul_pos (h.pos _ (get_mem hi) hr) (@Build.page_pos b)
  have hpj := Nat.mul_pos (h.pos _ (get_mem hj) hq) (@Build.page_pos b)
  rcases h.apart hi hj hij hr hq with hap | hap
  · simp only at hap
    omega
  · simp only at hap
    omega

/-- A run lies inside the slab. -/
theorem inside (h : Good b sl t) (hr : r ∈ t) (h0 : r.paddr ≠ 0) :
    sl.base ≤ r.paddr ∧ r.paddr + r.pages * b.page ≤ sl.base + sl.pages * b.page := by
  obtain ⟨i, hi, rfl⟩ := exists_get hr
  have hpos := Nat.mul_pos (h.pos _ hr h0) (@Build.page_pos b)
  have hin : ∀ a, (get t i).paddr ≤ a → a < (get t i).paddr + (get t i).pages * b.page →
      sl.base ≤ a ∧ a < sl.base + sl.pages * b.page := by
    intro a hlo hhi
    by_contra hout
    have hc := Schemes.cover_pos (get_eq hi) ((lies_run a (get t i)).mpr ⟨h0, hlo, hhi⟩)
    rw [h.tiled, if_neg hout] at hc
    omega
  have hfirst := hin _ le_rfl (by omega)
  have hlast := hin ((get t i).paddr + (get t i).pages * b.page - 1) (by omega) (by omega)
  omega

end Good

/-! ### Allocation -/

theorem best_spec (h : best t n = some i) : i < t.length ∧ fits t n i = true := by
  unfold best at h
  refine List.foldlRecOn (motive := fun o => ∀ k, o = some k → k < t.length ∧ fits t n k = true) _ _
    (by intros; contradiction) (fun o ho j hj k hk => ?_) i h
  split_ifs at hk with hf
  · exact ho k hk
  · rw [Bool.not_eq_false] at hf
    cases o with
    | none =>
      cases hk
      exact ⟨List.mem_range.mp hj, hf⟩
    | some m =>
      simp only at hk
      split_ifs at hk
      · cases hk
        exact ⟨List.mem_range.mp hj, hf⟩
      · exact ho k hk

theorem slot_spec (h : slot t = some j) :
    (j < t.length ∧ (get t j).paddr = 0) ∨ (j = t.length ∧ t.length < poolMax) := by
  rw [slot] at h
  split at h
  · rename_i m hm
    cases h
    have hzero := List.find?_some hm
    rw [decide_eq_true_eq] at hzero
    exact .inl ⟨List.mem_range.mp (List.mem_of_find?_eq_some hm), hzero⟩
  · split_ifs at h with hfull
    cases h
    exact .inr ⟨rfl, by omega⟩

/-- A run is put where the table has room. -/
theorem put_spec (hj : slot t = some j) (hsize : t.length ≤ poolMax) :
    t.length ≤ (put t j r).length ∧ (put t j r).length ≤ poolMax ∧
      (∀ k, get (put t j r) k = if k = j then r else get t k) ∧
      ∀ a, cover Run.paddr (bytes b) (put t j r) a =
        cover Run.paddr (bytes b) t a + (lies Run.paddr (bytes b) a r).toNat := by
  rcases slot_spec hj with ⟨hlt, h0⟩ | ⟨rfl, hlt⟩
  · simp only [put, if_pos hlt, List.length_set]
    refine ⟨le_rfl, hsize, fun k => get_set hlt, fun a => ?_⟩
    have hc := @cover_set _ Run.paddr (bytes b) t _ r a j (get_eq hlt)
    rw [lies_empty a h0] at hc
    exact hc
  · simp only [put, if_neg (Nat.lt_irrefl _), List.length_append, List.length_singleton]
    refine ⟨Nat.le_succ _, hlt, fun k => ?_, fun a => cover_append_singleton⟩
    rcases Nat.lt_trichotomy k t.length with hk | rfl | hk
    · rw [if_neg hk.ne, get, get, List.getD_eq_getElem?_getD, List.getD_eq_getElem?_getD,
        List.getElem?_append_left hk]
    · rw [if_pos rfl, get, List.getD_eq_getElem?_getD, List.getElem?_append_right le_rfl, Nat.sub_self]
      rfl
    · have hpast : (t ++ [r]).length ≤ k := by
        rw [List.length_append, List.length_singleton]
        omega
      rw [if_neg hk.ne', get_past hpast, get_past hk.le]

/-- What `shm_pool_alloc` does to the table. -/
structure Took (b : Build) (sl : Slab b) (t t' : List Run) (p n : ℕ) : Prop where
  good : Good b sl t'
  run : ∃ r ∈ t', r.paddr = p ∧ r.used = true ∧ n ≤ r.pages
  kept : ∀ r ∈ t, r.paddr ≠ 0 → r.used = true → r ∈ t'
  fresh : ∀ r ∈ t, r.paddr = p → r.used = false

/-- The whole run is handed out. -/
theorem took_whole (h : Good b sl t) (hi : i < t.length) (hf : fits t n i = true) :
    Took b sl t (t.set i { get t i with used := true }) (get t i).paddr n := by
  rw [fits, decide_eq_true_eq] at hf
  obtain ⟨h0, hu, hn⟩ := hf
  have hmem : ∀ x ∈ t.set i { get t i with used := true },
      x = { get t i with used := true } ∨ x ∈ t := fun x hx => (List.mem_or_eq_of_mem_set hx).symm
  have hself : ({ get t i with used := true } : Run) ∈ t.set i { get t i with used := true } :=
    List.mem_set hi _
  refine ⟨⟨fun a => ?_, fun x hx hx0 => ?_, fun x hx y hy hx0 hy0 hxu hyu => ?_, ?_⟩, ?_, ?_, ?_⟩
  · have hc := @cover_set _ Run.paddr (bytes b) t _ { get t i with used := true } a i (get_eq hi)
    have hsame : lies Run.paddr (bytes b) a { get t i with used := true } =
        lies Run.paddr (bytes b) a (get t i) := rfl
    rw [← h.tiled a]
    rw [hsame] at hc
    omega
  · rcases hmem x hx with rfl | hx
    · exact h.pos (get t i) (get_mem hi) h0
    · exact h.pos x hx hx0
  · rcases hmem x hx with rfl | hx
    · cases hxu
    · rcases hmem y hy with rfl | hy
      · cases hyu
      · exact h.sparse x hx y hy hx0 hy0 hxu hyu
  · rw [List.length_set]
    exact h.size
  · exact ⟨_, hself, rfl, rfl, hn⟩
  · intro x hx _ hxu
    obtain ⟨k, hk, rfl⟩ := exists_get hx
    have hki : k ≠ i := fun he => by rw [he, hu] at hxu; cases hxu
    have hk' : k < (t.set i { get t i with used := true }).length := by rwa [List.length_set]
    have hm := get_mem hk'
    rwa [get_set hi, if_neg hki] at hm
  · intro x hx hxp
    obtain ⟨k, hk, rfl⟩ := exists_get hx
    rw [h.unique hk hi (hxp ▸ h0) hxp]
    exact hu

/-- The run is cut and its front handed out. -/
theorem took_front (h : Good b sl t) (hi : i < t.length) (hf : fits t n i = true) (h1 : 0 < n)
    (hlt : n < (get t i).pages) (hj : slot t = some j) :
    Took b sl t ((put t j ⟨(get t i).paddr + n * b.page, (get t i).pages - n, false⟩).set i
      ⟨(get t i).paddr, n, true⟩) (get t i).paddr n := by
  rw [fits, decide_eq_true_eq] at hf
  obtain ⟨h0, hu, hn⟩ := hf
  obtain ⟨hlen, hmax, hget, hcover⟩ := @put_spec b t j
    ⟨(get t i).paddr + n * b.page, (get t i).pages - n, false⟩ hj h.size
  obtain ⟨t₁, ht₁⟩ : ∃ t₁, t₁ = put t j ⟨(get t i).paddr + n * b.page, (get t i).pages - n, false⟩ :=
    ⟨_, rfl⟩
  rw [← ht₁] at hlen hmax hget hcover ⊢
  have hji : i ≠ j := by
    rintro rfl
    rcases slot_spec hj with ⟨-, hz⟩ | ⟨he, -⟩
    · exact h0 hz
    · omega
  have hi₁ : i < t₁.length := by omega
  have hget' : ∀ k, get (t₁.set i ⟨(get t i).paddr, n, true⟩) k = if k = i then
      ⟨(get t i).paddr, n, true⟩ else if k = j then
      ⟨(get t i).paddr + n * b.page, (get t i).pages - n, false⟩ else get t k := by
    intro k
    rw [get_set hi₁, hget]
  have hmul : (get t i).pages * b.page = n * b.page + ((get t i).pages - n) * b.page := by
    rw [← Nat.add_mul]
    congr 1
    omega
  -- the free entries are the old ones but for `i`, and the rest of `i`
  have hfree : ∀ x ∈ t₁.set i ⟨(get t i).paddr, n, true⟩, x.paddr ≠ 0 → x.used = false →
      x = ⟨(get t i).paddr + n * b.page, (get t i).pages - n, false⟩ ∨
      ∃ k < t.length, k ≠ i ∧ x = get t k := by
    intro x hx hx0 hxu
    obtain ⟨k, hk, rfl⟩ := exists_get hx
    rw [hget'] at hx0 hxu ⊢
    split_ifs at hx0 hxu with hki hkj
    · rw [if_neg hki, if_pos hkj]
      exact .inl rfl
    · rw [if_neg hki, if_neg hkj]
      refine .inr ⟨k, ?_, hki, rfl⟩
      by_contra hpast
      rw [get_past (by omega)] at hx0
      exact hx0 rfl
  refine ⟨⟨fun a => ?_, fun x hx hx0 => ?_, fun x hx y hy hx0 hy0 hxu hyu => ?_, ?_⟩, ?_, ?_, ?_⟩
  · have hold : get t₁ i = get t i := by rw [hget, if_neg hji]
    have hc := @cover_set _ Run.paddr (bytes b) t₁ _ ⟨(get t i).paddr, n, true⟩ a i (get_eq hi₁)
    have hs := @lies_split b a (get t i).paddr n ((get t i).pages - n) true false (get t i).used h0
    rw [show n + ((get t i).pages - n) = (get t i).pages by omega] at hs
    rw [hold, hcover] at hc
    rw [← h.tiled a]
    change _ + _ = (lies Run.paddr (bytes b) a (get t i)).toNat at hs
    omega
  · obtain ⟨k, hk, rfl⟩ := exists_get hx
    rw [hget'] at hx0 ⊢
    split_ifs at hx0 ⊢ with hki hkj
    · exact h1
    · exact Nat.sub_pos_of_lt hlt
    · refine h.pos _ (get_mem ?_) hx0
      by_contra hpast
      rw [get_past (by omega)] at hx0
      exact hx0 rfl
  · rcases hfree x hx hx0 hxu with rfl | ⟨k, hk, hki, rfl⟩ <;>
      rcases hfree y hy hy0 hyu with rfl | ⟨m, hm, hmi, rfl⟩
    · have := Nat.mul_pos (Nat.sub_pos_of_lt hlt) (@Build.page_pos b)
      simp only
      omega
    · have hs := h.sparse _ (get_mem hi) _ (get_mem hm) h0 hy0 hu hyu
      simp only
      omega
    · -- a free run that ends where the rest begins would overlap the run
      have hap := h.apart hk hi hki hx0 h0
      have hpos := Nat.mul_pos (h.pos _ (get_mem hk) hx0) (@Build.page_pos b)
      have hnpos := Nat.mul_pos h1 (@Build.page_pos b)
      have hrest := Nat.mul_pos (Nat.sub_pos_of_lt hlt) (@Build.page_pos b)
      intro he
      simp only at he
      rcases hap with hap | hap
      · simp only at hap
        omega
      · simp only at hap
        omega
    · exact h.sparse _ (get_mem hk) _ (get_mem hm) hx0 hy0 hxu hyu
  · rw [List.length_set]
    exact hmax
  · exact ⟨_, List.mem_set hi₁ _, rfl, rfl, le_rfl⟩
  · intro x hx hx0 hxu
    obtain ⟨k, hk, rfl⟩ := exists_get hx
    have hki : k ≠ i := fun he => by rw [he, hu] at hxu; cases hxu
    have hkj : k ≠ j := by
      rintro rfl
      rcases slot_spec hj with ⟨-, hz⟩ | ⟨he, -⟩
      · exact hx0 hz
      · omega
    have hk' : k < (t₁.set i ⟨(get t i).paddr, n, true⟩).length := by
      rw [List.length_set]
      omega
    have hm := get_mem hk'
    rwa [hget', if_neg hki, if_neg hkj] at hm
  · intro x hx hxp
    obtain ⟨k, hk, rfl⟩ := exists_get hx
    rw [h.unique hk hi (hxp ▸ h0) hxp]
    exact hu

/-- `shm_pool_alloc`. -/
theorem alloc_spec (h : Good b sl t) (h1 : 0 < n) :
    ((alloc b t n).1 = 0 ∧ (alloc b t n).2 = t) ∨
    ((alloc b t n).1 ≠ 0 ∧ Took b sl t (alloc b t n).2 (alloc b t n).1 n) := by
  rw [alloc]
  cases hb : best t n with
  | none => exact .inl ⟨rfl, rfl⟩
  | some i =>
    obtain ⟨hi, hf⟩ := best_spec hb
    have h0 : (get t i).paddr ≠ 0 := by
      rw [fits, decide_eq_true_eq] at hf
      exact hf.1
    dsimp only
    split_ifs with hlt
    · cases hj : slot t with
      | none => exact .inr ⟨h0, took_whole h hi hf⟩
      | some j => exact .inr ⟨h0, took_front h hi hf h1 hlt hj⟩
    · exact .inr ⟨h0, took_whole h hi hf⟩

/-! ### Freeing -/

/-- The table while the free run `i` is being joined with its neighbours; those still to be looked at
    are among `js`. -/
structure Near (b : Build) (sl : Slab b) (i : ℕ) (js : List ℕ) (t : List Run) : Prop where
  tiled : ∀ a, cover Run.paddr (bytes b) t a =
    if sl.base ≤ a ∧ a < sl.base + sl.pages * b.page then 1 else 0
  pos : ∀ k < t.length, (get t k).paddr ≠ 0 → 0 < (get t k).pages
  lt : i < t.length
  live : (get t i).paddr ≠ 0
  free : (get t i).used = false
  sparse : ∀ k < t.length, ∀ m < t.length, k ≠ i → m ≠ i → (get t k).paddr ≠ 0 →
    (get t m).paddr ≠ 0 → (get t k).used = false → (get t m).used = false →
    (get t k).paddr + (get t k).pages * b.page ≠ (get t m).paddr
  done : ∀ k < t.length, k ≠ i → k ∉ js → (get t k).paddr ≠ 0 → (get t k).used = false →
    (get t i).paddr + (get t i).pages * b.page ≠ (get t k).paddr ∧
    (get t k).paddr + (get t k).pages * b.page ≠ (get t i).paddr
  size : t.length ≤ poolMax

/-- An entry that is no free neighbour is passed over. -/
theorem Near.skip {js : List ℕ} (h : Near b sl i (j :: js) t)
    (hno : (get t j).paddr ≠ 0 → (get t j).used = false → j ≠ i →
      (get t i).paddr + (get t i).pages * b.page ≠ (get t j).paddr ∧
      (get t j).paddr + (get t j).pages * b.page ≠ (get t i).paddr) : Near b sl i js t := by
  refine ⟨h.tiled, h.pos, h.lt, h.live, h.free, h.sparse, fun k hk hki hkj h0 hu => ?_, h.size⟩
  rcases eq_or_ne k j with rfl | hne
  · exact hno h0 hu hki
  · refine h.done k hk hki (fun hin => ?_) h0 hu
    rcases List.mem_cons.mp hin with he | hin
    · exact hne he
    · exact hkj hin

/-- A free neighbour on either side is taken in: the run is `r` now and entry `j` is empty. -/
theorem Near.join {js : List ℕ} (h : Near b sl i (j :: js) t) (hj : j < t.length) (hji : j ≠ i)
    (h0 : (get t j).paddr ≠ 0) (hu : (get t j).used = false) (hru : r.used = false)
    (hrp : r.pages = (get t i).pages + (get t j).pages)
    (hside : (get t i).paddr + (get t i).pages * b.page = (get t j).paddr ∧
        r.paddr = (get t i).paddr ∨
      (get t j).paddr + (get t j).pages * b.page = (get t i).paddr ∧ r.paddr = (get t j).paddr) :
    Near b sl i js ((t.set i r).set j ⟨0, (get t j).pages, (get t j).used⟩) := by
  have hj' : j < (t.set i r).length := by rwa [List.length_set]
  have hget : ∀ k, get ((t.set i r).set j ⟨0, (get t j).pages, (get t j).used⟩) k =
      if k = j then ⟨0, (get t j).pages, (get t j).used⟩ else if k = i then r else get t k := by
    intro k
    rw [get_set hj', get_set h.lt]
  have hlen : ((t.set i r).set j ⟨0, (get t j).pages, (get t j).used⟩).length = t.length := by
    rw [List.length_set, List.length_set]
  have hcov : ∀ a, (lies Run.paddr (bytes b) a r).toNat =
      (lies Run.paddr (bytes b) a (get t i)).toNat +
        (lies Run.paddr (bytes b) a (get t j)).toNat := by
    intro a
    rcases hside with ⟨hadj, hbase⟩ | ⟨hadj, hbase⟩
    · have hs := @lies_split b a (get t i).paddr (get t i).pages (get t j).pages
        (get t i).used (get t j).used r.used h.live
      rw [hadj, ← hrp, ← hbase] at hs
      rw [← hs, hbase]
    · have hs := @lies_split b a (get t j).paddr (get t j).pages (get t i).pages
        (get t j).used (get t i).used r.used h0
      rw [hadj, Nat.add_comm (get t j).pages, ← hrp, ← hbase] at hs
      rw [← hs, hbase]
      exact Nat.add_comm ..
  have hself : get ((t.set i r).set j ⟨0, (get t j).pages, (get t j).used⟩) i = r := by
    rw [hget, if_neg hji.symm, if_pos rfl]
  have hother : ∀ k, k ≠ i → (get ((t.set i r).set j ⟨0, (get t j).pages, (get t j).used⟩) k).paddr ≠ 0 →
      k ≠ j ∧ get ((t.set i r).set j ⟨0, (get t j).pages, (get t j).used⟩) k = get t k := by
    intro k hki hk0
    rw [hget] at hk0 ⊢
    split_ifs at hk0 with hkj
    · exact absurd rfl hk0
    · rw [if_neg hkj, if_neg hki]
      exact ⟨hkj, rfl⟩
  have hmul : r.pages * b.page = (get t i).pages * b.page + (get t j).pages * b.page := by
    rw [hrp, Nat.add_mul]
  refine ⟨fun a => ?_, fun k hk hk0 => ?_, ?_, ?_, ?_, ?_, ?_, ?_⟩
  · have hc₁ := @cover_set _ Run.paddr (bytes b) t _ r a i (get_eq h.lt)
    have hc₂ := @cover_set _ Run.paddr (bytes b) (t.set i r) _ ⟨0, (get t j).pages, (get t j).used⟩ a j
      (get_eq hj')
    rw [get_set h.lt, if_neg hji, lies_empty a (show (⟨0, (get t j).pages, (get t j).used⟩ : Run).paddr = 0
      from rfl)] at hc₂
    have hc := hcov a
    rw [← h.tiled a]
    simp only [Bool.toNat_false] at hc₂
    omega
  · rw [hlen] at hk
    rcases eq_or_ne k i with rfl | hki
    · rw [hself, hrp]
      have := h.pos k hk h.live
      omega
    · obtain ⟨-, he⟩ := hother k hki hk0
      rw [he] at hk0 ⊢
      exact h.pos k hk hk0
  · rw [hlen]
    exact h.lt
  · rw [hself]
    rcases hside with ⟨-, hbase⟩ | ⟨-, hbase⟩
    · rw [hbase]; exact h.live
    · rw [hbase]; exact h0
  · rw [hself]
    exact hru
  · intro k hk m hm hki hmi hk0 hm0 hku hmu
    rw [hlen] at hk hm
    obtain ⟨-, hek⟩ := hother k hki hk0
    obtain ⟨-, hem⟩ := hother m hmi hm0
    rw [hek] at hk0 hku ⊢
    rw [hem] at hm0 hmu ⊢
    exact h.sparse k hk m hm hki hmi hk0 hm0 hku hmu
  · intro k hk hki hkjs hk0 hku
    rw [hlen] at hk
    obtain ⟨hkj, hek⟩ := hother k hki hk0
    rw [hself]
    rw [hek] at hk0 hku ⊢
    have hout : k ∉ j :: js := fun hin => (List.mem_cons.mp hin).elim hkj hkjs
    have hdone := h.done k hk hki hout hk0 hku
    -- past the neighbour comes no other free run
    have hright := h.sparse j hj k hk hji hki h0 hk0 hu hku
    have hleft := h.sparse k hk j hj hki hji hk0 h0 hku hu
    rcases hside with ⟨hadj, hbase⟩ | ⟨hadj, hbase⟩
    · exact ⟨by omega, by omega⟩
    · exact ⟨by omega, by omega⟩
  · rw [hlen]
    exact h.size

/-- One entry is looked at. -/
theorem Near.mergeAt {js : List ℕ} (h : Near b sl i (j :: js) t) (hj : j < t.length) :
    Near b sl i js (mergeAt b i t j) ∧ (mergeAt b i t j).length = t.length ∧
      ∀ k, k ≠ i → (get t k).used = true → get (mergeAt b i t j) k = get t k := by
  have hkeep : ∀ r : Run, (get t j).used = false →
      ((t.set i r).set j ⟨0, (get t j).pages, (get t j).used⟩).length = t.length ∧
      ∀ k, k ≠ i → (get t k).used = true →
        get ((t.set i r).set j ⟨0, (get t j).pages, (get t j).used⟩) k = get t k := by
    intro r hu
    refine ⟨by rw [List.length_set, List.length_set], fun k hki hku => ?_⟩
    have hkj : k ≠ j := fun he => by rw [he, hu] at hku; cases hku
    rw [get_set (by rwa [List.length_set]), if_neg hkj, get_set h.lt, if_neg hki]
  simp only [ShmPool.mergeAt]
  split_ifs with hskip hr hl
  · refine ⟨h.skip fun h0 hu hji => ?_, rfl, fun _ _ _ => rfl⟩
    rcases hskip with he | he | he
    · exact absurd he hji
    · exact absurd he h0
    · rw [hu] at he
      cases he
  · rw [not_or, not_or, Bool.not_eq_true] at hskip
    obtain ⟨hji, h0, hu⟩ := hskip
    exact ⟨h.join hj hji h0 hu h.free rfl (.inl ⟨hr, rfl⟩), hkeep _ hu⟩
  · rw [not_or, not_or, Bool.not_eq_true] at hskip
    obtain ⟨hji, h0, hu⟩ := hskip
    exact ⟨h.join hj hji h0 hu h.free rfl (.inr ⟨hl, rfl⟩), hkeep _ hu⟩
  · exact ⟨h.skip fun _ _ _ => ⟨hr, hl⟩, rfl, fun _ _ _ => rfl⟩

theorem Near.foldl {js : List ℕ} (h : Near b sl i js t) (hjs : ∀ j ∈ js, j < t.length) :
    Near b sl i [] (js.foldl (ShmPool.mergeAt b i) t) ∧
      (js.foldl (ShmPool.mergeAt b i) t).length = t.length ∧
      ∀ k, k ≠ i → (get t k).used = true →
        get (js.foldl (ShmPool.mergeAt b i) t) k = get t k := by
  induction js generalizing t with
  | nil => exact ⟨h, rfl, fun _ _ _ => rfl⟩
  | cons j js ih =>
    obtain ⟨hn, hlen, hkeep⟩ := h.mergeAt (hjs j List.mem_cons_self)
    obtain ⟨hn', hlen', hkeep'⟩ := ih hn fun m hm => by
      rw [hlen]
      exact hjs m (List.mem_cons_of_mem j hm)
    refine ⟨hn', hlen'.trans hlen, fun k hki hku => ?_⟩
    have hk := hkeep k hki hku
    exact (hkeep' k hki (hk.symm ▸ hku)).trans hk

/-- When all entries have been looked at, the table is in order again. -/
theorem Near.good (h : Near b sl i [] t) : Good b sl t := by
  refine ⟨h.tiled, fun r hr h0 => ?_, fun r hr q hq hr0 hq0 hru hqu => ?_, h.size⟩
  · obtain ⟨k, hk, rfl⟩ := exists_get hr
    exact h.pos k hk h0
  · obtain ⟨k, hk, rfl⟩ := exists_get hr
    obtain ⟨m, hm, rfl⟩ := exists_get hq
    rcases eq_or_ne k i with rfl | hki
    · rcases eq_or_ne m k with rfl | hmk
      · have := Nat.mul_pos (h.pos m hm hr0) (@Build.page_pos b)
        omega
      · exact (h.done m hm hmk List.not_mem_nil hq0 hqu).1
    · rcases eq_or_ne m i with rfl | hmi
      · exact (h.done k hk hki List.not_mem_nil hr0 hru).2
      · exact h.sparse k hk m hm hki hmi hr0 hq0 hru hqu

/-- `shm_pool_free` of a run that is handed out; the other runs that are handed out stay. -/
theorem free_spec (h : Good b sl t) (hr : r ∈ t) (hu : r.used = true) (h0 : r.paddr ≠ 0) :
    Good b sl (free b t r.paddr) ∧
      ∀ q ∈ t, q.paddr ≠ 0 → q.used = true → q.paddr ≠ r.paddr → q ∈ free b t r.paddr := by
  obtain ⟨m, hm, rfl⟩ := exists_get hr
  cases hf : (List.range t.length).find? fun i =>
      (get t i).paddr = (get t m).paddr ∧ (get t i).used = true with
  | none =>
    rw [List.find?_eq_none] at hf
    have := hf m (List.mem_range.mpr hm)
    simp only [hu, and_self, decide_true, not_true_eq_false] at this
  | some i =>
    have hi : i < t.length := List.mem_range.mp (List.mem_of_find?_eq_some hf)
    have hsome := List.find?_some hf
    rw [decide_eq_true_eq] at hsome
    obtain ⟨hpi, hui⟩ := hsome
    obtain rfl := h.unique hi hm (hpi ▸ h0) hpi
    have hget : ∀ k, get (t.set i { get t i with used := false }) k =
        if k = i then { get t i with used := false } else get t k := fun k => get_set hi
    have hnear : Near b sl i (List.range t.length) (t.set i { get t i with used := false }) := by
      refine ⟨fun a => ?_, fun k hk hk0 => ?_, ?_, ?_, ?_, fun k hk n hn hki hni => ?_,
        fun k hk _ hkr => ?_, ?_⟩
      · have hc := @cover_set _ Run.paddr (bytes b) t _ { get t i with used := false } a i (get_eq hi)
        have hsame : lies Run.paddr (bytes b) a { get t i with used := false } =
            lies Run.paddr (bytes b) a (get t i) := rfl
        rw [← h.tiled a]
        rw [hsame] at hc
        omega
      · rw [List.length_set] at hk
        rw [hget] at hk0 ⊢
        split_ifs at hk0 ⊢
        · exact h.pos (get t i) (get_mem hi) h0
        · exact h.pos _ (get_mem hk) hk0
      · rwa [List.length_set]
      · rw [hget, if_pos rfl]
        exact h0
      · rw [hget, if_pos rfl]
      · rw [List.length_set] at hk hn
        rw [hget, hget, if_neg hki, if_neg hni]
        exact fun hk0 hn0 hku hnu => h.sparse _ (get_mem hk) _ (get_mem hn) hk0 hn0 hku hnu
      · rw [List.length_set] at hk
        exact absurd (List.mem_range.mpr hk) hkr
      · rw [List.length_set]
        exact h.size
    obtain ⟨hn, hlen, hkeep⟩ := hnear.foldl fun j hj => by
      rw [List.length_set]
      exact List.mem_range.mp hj
    simp only [free, hf]
    refine ⟨hn.good, fun q hq hq0 hqu hne => ?_⟩
    obtain ⟨k, hk, rfl⟩ := exists_get hq
    have hki : k ≠ i := fun he => hne (by rw [he])
    have hold : get (t.set i { get t i with used := false }) k = get t k := by rw [hget, if_neg hki]
    have hk' : k < ((List.range t.length).foldl (ShmPool.mergeAt b i)
        (t.set i { get t i with used := false })).length := by
      rw [hlen, List.length_set]
      exact hk
    have hmem := get_mem hk'
    rwa [hkeep k hki (by rw [hold]; exact hqu), hold] at hmem

end EwokOS.Memory.ShmPool
