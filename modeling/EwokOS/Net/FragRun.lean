import EwokOS.Net.Frag

/-! Runs of the fragment table (`ip.c`).

    Fragments of many datagrams arrive in any order and more than once. An entry is begun for one datagram and
    keeps to it as long as no fragment of another one comes under the same key:

        arrive p   key free     new entry of p's datagram
                   key taken    the entry must be of p's datagram

    `ip_output` does not see to that, since the id of a datagram that is cut is never set. Nor does
    `ip_input` see to it that a fragment ends where its header says. -/

namespace EwokOS.Net

open Schemes

variable {D : ℕ → Send} {d : Send} {p : Packet} {l l' : List Entry} {e f g : Entry} {k k' : Key} {now j : ℕ}
  {mem : Memory} {w : Option Packet}

/-! ### The table -/

theorem mem_update (h : e ∈ update k (fun _ => g) l) : e = g ∨ e ∈ l := by
  induction l with
  | nil => exact absurd h List.not_mem_nil
  | cons x l ih =>
    rw [update] at h
    split at h
    · rcases List.mem_cons.mp h with h | h
      · exact Or.inl h
      · exact Or.inr (List.mem_cons_of_mem x h)
    · rcases List.mem_cons.mp h with rfl | h
      · exact Or.inr List.mem_cons_self
      · exact (ih h).imp_right (List.mem_cons_of_mem x)

theorem mem_makeRoom (h : e ∈ makeRoom now l) : e ∈ l := by
  rw [makeRoom] at h
  split at h
  · exact List.mem_of_mem_filter (List.dropLast_subset _ h)
  · exact List.mem_of_mem_filter h

theorem tableFind_some (h : tableFind k l = some e) : e ∈ l ∧ e.key = k := by
  have hp := List.find?_some (p := fun e : Entry => e.key = k) h
  exact ⟨List.mem_of_find?_eq_some h, of_decide_eq_true hp⟩

theorem tableFind_cons : tableFind k (e :: l) = if e.key = k then some e else tableFind k l := by
  rw [tableFind, List.find?_cons]
  by_cases h : e.key = k
  · rw [if_pos h, decide_eq_true h]
  · rw [if_neg h, decide_eq_false h]
    rfl

theorem tableFind_update (h : tableFind k l = some f) (hg : g.key = k) :
    tableFind k (update k (fun _ => g) l) = some g := by
  induction l with
  | nil => exact absurd h (by simp [tableFind])
  | cons x l ih =>
    rw [update]
    rw [tableFind_cons] at h
    by_cases hx : x.key = k
    · rw [if_pos hx, tableFind_cons, if_pos hg]
    · rw [if_neg hx] at h
      rw [if_neg hx, tableFind_cons, if_neg hx, ih h]

theorem tableFind_update_ne (hk : k' ≠ k) (hg : g.key = k) :
    tableFind k' (update k (fun _ => g) l) = tableFind k' l := by
  induction l with
  | nil => rfl
  | cons x l ih =>
    rw [update]
    by_cases hx : x.key = k
    · rw [if_pos hx, tableFind_cons, tableFind_cons, hg, hx, if_neg hk.symm, if_neg hk.symm]
    · rw [if_neg hx, tableFind_cons, tableFind_cons, ih]

theorem tableFind_eraseP_ne (hk : k' ≠ k) : tableFind k' (l.eraseP fun e => e.key = k) = tableFind k' l := by
  induction l with
  | nil => rfl
  | cons x l ih =>
    rw [List.eraseP_cons]
    by_cases hx : x.key = k
    · rw [decide_eq_true hx, cond_true, tableFind_cons, hx, if_neg hk.symm]
    · rw [decide_eq_false hx, cond_false, tableFind_cons, tableFind_cons, ih]

/-! ### What one fragment does -/

/-- The entry of a key that has none. -/
def freshEntry (k : Key) (now origin : ℕ) : Entry := ⟨k, ⟨0, 0, 0, 0, 0, 0⟩, false, 0, [], now, origin⟩

/-- The entry after the fragment has been added. -/
def added (p : Packet) (now : ℕ) (f : Entry) : Entry := (p.note f).pieceAdd p.piece now

/-- The entry a fragment is put to, and the table it is in. -/
inductive Chosen (l : List Entry) (p : Packet) (now origin : ℕ) : List Entry → Entry → Prop where
  | found {f : Entry} : tableFind p.hdr.key l = some f → Chosen l p now origin l { f with stamp := now }
  | made : tableFind p.hdr.key l = none →
      Chosen l p now origin (freshEntry p.hdr.key now origin :: makeRoom now l) (freshEntry p.hdr.key now origin)

theorem fragInput_cases (h : fragInput l p now j mem = (l', w)) :
    (w = none ∧ ∀ e ∈ l', e ∈ l) ∨ ∃ l₀ f, Chosen l p now j l₀ f ∧ queue l₀ p now mem f = (l', w) := by
  unfold fragInput at h
  dsimp only at h
  split at h
  · cases h
    exact Or.inl ⟨rfl, fun e he => he⟩
  · split at h
    case h_1 f hf => exact Or.inr ⟨l, _, .found hf, h⟩
    case h_2 hf =>
      split at h
      · exact Or.inr ⟨_, _, .made hf, h⟩
      · cases h
        exact Or.inl ⟨rfl, fun e he => mem_makeRoom he⟩

theorem queue_cases (h : queue l p now mem f = (l', w)) :
    (mem.piece = false ∧ w = none ∧ l' = update p.hdr.key (fun _ => p.note f) l) ∨
    ((added p now f).complete = false ∧ w = none ∧ l' = update p.hdr.key (fun _ => added p now f) l) ∨
    ((added p now f).complete = true ∧ (mem.whole = false ∧ w = none ∨ w = some (added p now f).build) ∧
      l' = l.eraseP fun e => e.key = p.hdr.key) := by
  unfold queue at h
  dsimp only at h
  split at h
  case isTrue =>
    split at h
    case isTrue hc =>
      cases h
      refine Or.inr (Or.inr ⟨hc, ?_, rfl⟩)
      cases mem.whole
      · exact Or.inl ⟨rfl, rfl⟩
      · exact Or.inr rfl
    case isFalse hc =>
      cases h
      exact Or.inr (Or.inl ⟨Bool.eq_false_iff.mpr hc, rfl, rfl⟩)
  case isFalse hpc =>
    cases h
    exact Or.inl ⟨Bool.eq_false_iff.mpr hpc, rfl, rfl⟩

/-- What holds of every entry, and of the one the fragment is put to, is kept, and what is handed back is
    built from that one. -/
theorem fragInput_keeps {P Q : Entry → Prop} (h : fragInput l p now j mem = (l', w)) (hl : ∀ e ∈ l, P e)
    (hfound : ∀ f, tableFind p.hdr.key l = some f → Q { f with stamp := now })
    (hmade : Q (freshEntry p.hdr.key now j)) (hfresh : P (freshEntry p.hdr.key now j))
    (hnote : mem.piece = false → ∀ f, Q f → P (p.note f))
    (hadd : ∀ f, Q f → (added p now f).complete = false → P (added p now f)) :
    (∀ e ∈ l', P e) ∧
      ∀ b, w = some b → ∃ f, Q f ∧ (added p now f).complete = true ∧ b = (added p now f).build := by
  rcases fragInput_cases h with ⟨rfl, hsub⟩ | ⟨l₀, f, hch, hq⟩
  · exact ⟨fun e he => hl e (hsub e he), fun b hb => absurd hb (Option.some_ne_none b).symm⟩
  have hQ : Q f ∧ ∀ e ∈ l₀, P e := by
    cases hch with
    | found hf => exact ⟨hfound _ hf, hl⟩
    | made _ =>
      refine ⟨hmade, fun e he => ?_⟩
      rcases List.mem_cons.mp he with rfl | he
      · exact hfresh
      · exact hl e (mem_makeRoom he)
  obtain ⟨hQ, hl₀⟩ := hQ
  have hup : ∀ g, P g → ∀ e ∈ update p.hdr.key (fun _ => g) l₀, P e := fun g hg e he =>
    (mem_update he).elim (fun h => h ▸ hg) (hl₀ e)
  rcases queue_cases hq with ⟨hpc, rfl, rfl⟩ | ⟨hc, rfl, rfl⟩ | ⟨hc, hw, rfl⟩
  · exact ⟨hup _ (hnote hpc f hQ), fun b hb => absurd hb (Option.some_ne_none b).symm⟩
  · exact ⟨hup _ (hadd f hQ hc), fun b hb => absurd hb (Option.some_ne_none b).symm⟩
  · refine ⟨fun e he => hl₀ e (List.mem_of_mem_eraseP he), fun b hb => ⟨f, hQ, hc, ?_⟩⟩
    rcases hw with ⟨-, rfl⟩ | rfl
    · cases hb
    · cases hb
      rfl

/-! ### One datagram -/

/-- What an entry begun for `d` holds is of `d`. -/
structure Of (d : Send) (e : Entry) : Prop where
  key : e.key = d.hdr.key
  hdr : e.first = true → e.hdr = d.hdr
  total : e.total = 0 ∨ e.total = d.data.length
  has : ∀ q ∈ e.pieces, ∀ a b, q.Has a b → d.data[a]? = some b

theorem Of.fresh (hk : k = d.hdr.key) : Of d (freshEntry k now j) where
  key := hk
  hdr := fun h => absurd h Bool.false_ne_true
  total := Or.inl rfl
  has := fun _ hq => absurd hq List.not_mem_nil

theorem Of.note (hf : d.Fits) (hp : d.Part p) (h : Of d f) : Of d (p.note f) where
  key := h.key
  hdr := by
    intro hfirst
    rw [Packet.note]
    dsimp only
    split_ifs
    · exact hp.hdr
    · exact h.hdr hfirst
  total := by
    rw [Packet.note]
    dsimp only
    split_ifs with hlast
    · exact Or.inr (hp.total_of_last hf hlast)
    · exact h.total
  has := h.has

theorem Of.added (now : ℕ) (hf : d.Fits) (hp : d.Part p) (h : Of d f) : Of d (added p now f) where
  key := h.key
  hdr := by
    intro hfirst
    simp only [Net.added, Packet.note, Entry.pieceAdd, Bool.or_eq_true, decide_eq_true_eq] at hfirst ⊢
    by_cases hoff : p.off = 0
    · rw [if_pos hoff]
      exact hp.hdr
    · rw [if_neg hoff]
      exact h.hdr (hfirst.resolve_right hoff)
  total := (h.note hf hp).total
  has := by
    intro q hq a b hb
    rcases Entry.mem_insert.mp hq with rfl | hq
    · exact hp.has hf hb
    · exact h.has q hq a b hb

/-- An entry that is complete gives the datagram back, as it would have been sent in one. -/
theorem Of.build (h : Of d e) (hc : e.complete = true) : e.build = d.core d.data 0 := by
  have hc' := hc
  simp only [Entry.complete, Bool.and_eq_true, decide_eq_true_eq] at hc'
  obtain ⟨⟨hfirst, htot⟩, -⟩ := hc'
  have htotal := h.total.resolve_left htot
  have hlen : e.build.body.length = d.data.length := by rw [Entry.build, length_slice, htotal]
  have hbody : e.build.body = d.data := by
    refine List.ext_getElem? fun a => ?_
    by_cases ha : a < d.data.length
    · obtain ⟨q, hq, hb⟩ := Entry.build_has hc (List.getElem?_eq_getElem (by omega : a < e.build.body.length))
      rw [h.has q hq a _ hb, List.getElem?_eq_getElem]
    · rw [List.getElem?_eq_none (by omega), List.getElem?_eq_none (by omega)]
  have hhdr : e.build.hdr = d.hdr := h.hdr hfirst
  have htot' : e.build.total = (hdrSizeMin + d.data.length) % 2 ^ 16 := by
    change (e.hdr.hlen + e.total) % 2 ^ 16 = _
    rw [h.hdr hfirst, htotal]
    rfl
  rw [Send.core, ← hhdr, ← htot', ← hbody]
  rfl

/-! ### Runs -/

/-- The packets of `D` arrive, with whatever the link puts behind them. -/
def Sent (D : ℕ → Send) : Event → Prop
  | .arrive p j _ _ => (D j).Carries p
  | .sweep _ => True

/-- A fragment ends where its header says, and meets no entry of another datagram. -/
def Apart (s : Host) : Event → Prop
  | .arrive p j _ _ =>
    p.isFragment = true → p.len = p.total ∧ ∀ f, tableFind p.hdr.key s.table = some f → f.origin = j
  | .sweep _ => True

/-- Nothing in the table is too old, and there is memory and room for one more. -/
def Roomy (s : Host) : Event → Prop
  | .arrive p _ now mem =>
    mem = ⟨true, true, true⟩ ∧ (∀ e ∈ s.table, e.expired now = false) ∧
      (tableFind p.hdr.key s.table = none → s.table.length < fragEntriesMax)
  | .sweep now => ∀ e ∈ s.table, e.expired now = false

/-- Every entry is of one datagram, and whatever has been handed back is one. -/
structure Sound (D : ℕ → Send) (s : Host) : Prop where
  table : ∀ e ∈ s.table, Of (D e.origin) e
  back : ∀ x ∈ s.back, x.2 = (D x.1).core (D x.1).data 0

theorem Host.begun_of {s : Host} (h : ∀ f, tableFind p.hdr.key s.table = some f → f.origin = j) :
    s.begun p.hdr.key j = j := by
  unfold Host.begun
  cases hf : tableFind p.hdr.key s.table with
  | none => rfl
  | some f => exact h f hf

/-- The two things that can happen to a packet. -/
theorem Host.arrive_cases {s t : Host} (h : s.step (.arrive p j now mem) = some t) :
    ((p.valid && p.isFragment) = false ∧ t = { s with seen := (j, p) :: s.seen }) ∨
    ((p.valid && p.isFragment) = true ∧ ∃ l w, fragInput s.table p now j mem = (l, w) ∧
      t = ⟨l, (j, p) :: s.seen, (w.map fun w => (s.begun p.hdr.key j, w)).toList ++ s.back⟩) := by
  simp only [Host.step] at h
  split at h
  case isTrue hc =>
    cases h
    exact Or.inr ⟨hc, _, _, rfl, rfl⟩
  case isFalse hc =>
    cases h
    exact Or.inl ⟨Bool.eq_false_iff.mpr hc, rfl⟩

theorem mem_back {o : ℕ} {b : List (ℕ × Packet)} {x : ℕ × Packet}
    (h : x ∈ (w.map fun w => (o, w)).toList ++ b) : (w = some x.2 ∧ x.1 = o) ∨ x ∈ b := by
  rcases List.mem_append.mp h with h | h
  · rw [Option.mem_toList, Option.map_eq_some_iff] at h
    obtain ⟨v, rfl, rfl⟩ := h
    exact Or.inl ⟨rfl, rfl⟩
  · exact Or.inr h

theorem Sound.step {s t : Host} {e : Event} (hD : ∀ j, (D j).Fits) (h : Sound D s) (hsent : Sent D e)
    (hap : Apart s e) (hst : s.step e = some t) : Sound D t := by
  cases e with
  | sweep now =>
    cases hst
    exact ⟨fun e he => h.table e (List.mem_of_mem_filter he), h.back⟩
  | arrive p j now mem =>
    rcases Host.arrive_cases hst with ⟨-, rfl⟩ | ⟨hv, l, w, hin, rfl⟩
    · exact ⟨h.table, h.back⟩
    rw [Bool.and_eq_true] at hv
    obtain ⟨hpad, hown⟩ := hap hv.2
    have hpart := Send.Carries.part (hD j) hsent hv.2 hpad
    have hkeep := fragInput_keeps (P := fun e => Of (D e.origin) e) (Q := fun e => e.origin = j ∧ Of (D j) e) hin h.table
      (fun f hf => ⟨hown f hf, by
        have := h.table f (tableFind_some hf).1
        rw [hown f hf] at this
        exact ⟨this.key, this.hdr, this.total, this.has⟩⟩)
      ⟨rfl, .fresh (congrArg Header.key hpart.hdr)⟩ (.fresh (congrArg Header.key hpart.hdr))
      (fun _ f hf => by
        have := hf.2.note (hD j) hpart
        rw [← hf.1] at this
        exact this)
      (fun f hf _ => by
        have := hf.2.added now (hD j) hpart
        rw [← hf.1] at this
        exact this)
    refine ⟨hkeep.1, fun x hx => ?_⟩
    rcases mem_back hx with ⟨hw, hx1⟩ | hx
    · obtain ⟨f, hf, hc, hb⟩ := hkeep.2 x.2 hw
      rw [hb, hx1, Host.begun_of hown]
      exact (hf.2.added now (hD j) hpart).build hc
    · exact h.back x hx

/-! ### Nothing is lost -/

/-- The entry has what the fragment brought. -/
structure Took (e : Entry) (p : Packet) : Prop where
  piece : p.piece ∈ e.pieces
  first : p.off = 0 → e.first = true
  last : p.isLast = true → e.total ≠ 0

theorem added_total_ne (hf : d.Fits) (hp : d.Part p) (h : p.isLast = true) : (added p now f).total ≠ 0 := by
  have htot : (added p now f).total = (p.off + p.plen) % 2 ^ 16 := if_pos h
  have hstart := hp.start
  rw [htot, hp.total_of_last hf h]
  omega

theorem Took.self (hf : d.Fits) (hp : d.Part p) : Took (added p now f) p where
  piece := Entry.mem_insert.mpr (Or.inl rfl)
  first := fun h => by
    simp only [added, Packet.note, Entry.pieceAdd, Bool.or_eq_true, decide_eq_true_eq]
    exact Or.inr h
  last := added_total_ne hf hp

theorem Took.added {q : Packet} (hf : d.Fits) (hp : d.Part p) (h : Took f q) : Took (added p now f) q where
  piece := Entry.mem_insert.mpr (Or.inr h.piece)
  first := fun hq => by
    simp only [Net.added, Packet.note, Entry.pieceAdd, Bool.or_eq_true, decide_eq_true_eq]
    exact Or.inl (h.first hq)
  last := fun hq => by
    by_cases hl : p.isLast = true
    · exact added_total_ne hf hp hl
    · have htot : (Net.added p now f).total = f.total := if_neg hl
      rw [htot]
      exact h.last hq

/-- What every entry has, while it waits: the pieces are in order, and something is missing. -/
def Waiting (e : Entry) : Prop := (e.pieces.Pairwise fun p q => p.off ≤ q.off) ∧ e.complete = false

/-- As long as a datagram has not been handed back, its entry has every fragment that has arrived. -/
structure Tracks (D : ℕ → Send) (s : Host) : Prop where
  sound : Sound D s
  waiting : ∀ e ∈ s.table, Waiting e
  took : ∀ x ∈ s.seen, x.2.isFragment = true → (∃ w, (x.1, w) ∈ s.back) ∨
    ((D x.1).Part x.2 ∧ ∃ e, tableFind x.2.hdr.key s.table = some e ∧ e.origin = x.1 ∧ Took e x.2)

theorem makeRoom_eq (hx : ∀ e ∈ l, e.expired now = false) (hl : l.length < fragEntriesMax) : makeRoom now l = l := by
  have hreap : reapExpired now l = l := List.filter_eq_self.mpr fun e he => by rw [hx e he]; rfl
  rw [makeRoom, hreap]
  exact if_neg (by omega)

/-- What a fragment finds or makes does not touch the other keys. -/
theorem Chosen.frame {l₀ : List Entry} (h : Chosen l p now j l₀ f)
    (hroom : tableFind p.hdr.key l = none → makeRoom now l = l) :
    f.key = p.hdr.key ∧ (∃ e, tableFind p.hdr.key l₀ = some e) ∧
      ∀ k, k ≠ p.hdr.key → tableFind k l₀ = tableFind k l := by
  cases h with
  | found hf => exact ⟨(tableFind_some hf).2, ⟨_, hf⟩, fun _ _ => rfl⟩
  | made hf =>
    refine ⟨rfl, ⟨freshEntry p.hdr.key now j, ?_⟩, fun k hk => ?_⟩
    · rw [tableFind_cons]
      exact if_pos rfl
    · rw [tableFind_cons, hroom hf]
      exact if_neg hk.symm

theorem Tracks.arrive {s : Host} (hD : ∀ j, (D j).Fits) (h : Tracks D s) (hpart : (D j).Part p)
    (hown : ∀ f, tableFind p.hdr.key s.table = some f → f.origin = j)
    (hroom : tableFind p.hdr.key s.table = none → makeRoom now s.table = s.table)
    (hin : fragInput s.table p now j ⟨true, true, true⟩ = (l', w)) :
    ∀ x ∈ (j, p) :: s.seen, x.2.isFragment = true →
      (∃ v, (x.1, v) ∈ (w.map fun w => (s.begun p.hdr.key j, w)).toList ++ s.back) ∨
      ((D x.1).Part x.2 ∧ ∃ e, tableFind x.2.hdr.key l' = some e ∧ e.origin = x.1 ∧ Took e x.2) := by
  obtain ⟨l₀, f, hch, hq⟩ : ∃ l₀ f, Chosen s.table p now j l₀ f ∧ queue l₀ p now ⟨true, true, true⟩ f = (l', w) := by
    unfold fragInput at hin
    dsimp only at hin
    rw [if_neg (hpart.kept (hD j))] at hin
    split at hin
    case h_1 f hf => exact ⟨_, _, .found hf, hin⟩
    case h_2 hf =>
      rw [if_pos rfl] at hin
      exact ⟨_, _, .made hf, hin⟩
  obtain ⟨hkey, ⟨e₀, he₀⟩, hframe⟩ := hch.frame hroom
  have horigin : f.origin = j := by
    cases hch with
    | @found g hf => exact hown g hf
    | made => rfl
  -- What was under the key of the packet belongs to the same datagram, and has become the entry.
  have hsame : ∀ (x : ℕ × Packet) e, x.2.hdr.key = p.hdr.key → tableFind x.2.hdr.key s.table = some e → e.origin = x.1 →
      Took e x.2 → x.1 = j ∧ Took f x.2 := by
    intro x e hk hfe ho ht
    rw [hk] at hfe
    refine ⟨ho.symm.trans (hown e hfe), ?_⟩
    cases hch with
    | found hf =>
      rw [hf, Option.some.injEq] at hfe
      rw [hfe]
      exact ⟨ht.piece, ht.first, ht.last⟩
    | made hf => exact absurd (hf.symm.trans hfe) (Option.some_ne_none e).symm
  intro x hx hfrag
  rcases queue_cases hq with ⟨hpc, -⟩ | ⟨hc, rfl, rfl⟩ | ⟨hc, hw, rfl⟩
  · exact absurd hpc (by decide)
  · have hfind : tableFind p.hdr.key (update p.hdr.key (fun _ => added p now f) l₀) = some (added p now f) :=
      tableFind_update he₀ hkey
    rcases List.mem_cons.mp hx with rfl | hx
    · exact Or.inr ⟨hpart, _, hfind, horigin, .self (hD j) hpart⟩
    · rcases h.took x hx hfrag with hdone | ⟨hxp, e, hfe, ho, ht⟩
      · exact Or.inl hdone
      · refine Or.inr ⟨hxp, ?_⟩
        by_cases hk : x.2.hdr.key = p.hdr.key
        · obtain ⟨hxj, htf⟩ := hsame x e hk hfe ho ht
          rw [hk]
          exact ⟨_, hfind, horigin.trans hxj.symm, htf.added (hD j) hpart⟩
        · rw [tableFind_update_ne (g := added p now f) hk hkey, hframe _ hk]
          exact ⟨e, hfe, ho, ht⟩
  · obtain rfl : w = some (added p now f).build := hw.resolve_left fun h => absurd h.1 (by decide)
    have hback : (j, (added p now f).build) ∈
        ((some (added p now f).build).map fun w => (s.begun p.hdr.key j, w)).toList ++ s.back := by
      rw [Host.begun_of hown]
      exact List.mem_cons_self
    rcases List.mem_cons.mp hx with rfl | hx
    · exact Or.inl ⟨_, hback⟩
    · rcases h.took x hx hfrag with ⟨v, hv⟩ | ⟨hxp, e, hfe, ho, ht⟩
      · exact Or.inl ⟨v, List.mem_append_right _ hv⟩
      · by_cases hk : x.2.hdr.key = p.hdr.key
        · obtain ⟨hxj, -⟩ := hsame x e hk hfe ho ht
          rw [hxj]
          exact Or.inl ⟨_, hback⟩
        · refine Or.inr ⟨hxp, ?_⟩
          rw [tableFind_eraseP_ne hk, hframe _ hk]
          exact ⟨e, hfe, ho, ht⟩

theorem Tracks.step {s t : Host} {e : Event} (hD : ∀ j, (D j).Fits) (h : Tracks D s) (hsent : Sent D e)
    (hap : Apart s e) (hroom : Roomy s e) (hst : s.step e = some t) : Tracks D t := by
  have hsound := h.sound.step hD hsent hap hst
  cases e with
  | sweep now =>
    cases hst
    have hreap : reapExpired now s.table = s.table := List.filter_eq_self.mpr fun e he => by rw [hroom e he]; rfl
    refine ⟨hsound, fun e he => h.waiting e (List.mem_of_mem_filter he), ?_⟩
    dsimp only
    rw [hreap]
    exact h.took
  | arrive p j now mem =>
    obtain ⟨rfl, hold, hlen⟩ := hroom
    rcases Host.arrive_cases hst with ⟨hv, rfl⟩ | ⟨hv, l, w, hin, rfl⟩
    · refine ⟨hsound, h.waiting, fun x hx hfrag => ?_⟩
      rcases List.mem_cons.mp hx with rfl | hx
      · have hpart := Send.Carries.part (hD j) hsent hfrag (hap hfrag).1
        rw [hpart.valid, hpart.isFragment] at hv
        exact absurd hv (by decide)
      · exact h.took x hx hfrag
    · rw [Bool.and_eq_true] at hv
      obtain ⟨hpad, hown⟩ := hap hv.2
      have hpart := Send.Carries.part (hD j) hsent hv.2 hpad
      refine ⟨hsound, ?_, h.arrive hD hpart hown (fun hn => makeRoom_eq hold (hlen hn)) hin⟩
      exact (fragInput_keeps (P := Waiting) (Q := fun f => f.pieces.Pairwise fun p q => p.off ≤ q.off) hin h.waiting
        (fun f hf => (h.waiting f (tableFind_some hf).1).1) List.Pairwise.nil ⟨List.Pairwise.nil, rfl⟩
        (fun hpc => absurd hpc (by decide)) fun f hf hc => ⟨Entry.insert_sorted hf, hc⟩).1

/-- A datagram all of whose fragments have arrived has been handed back. -/
theorem Tracks.handed {s : Host} (hD : ∀ j, (D j).Fits) (h : Tracks D s) {ps : List Packet}
    (hbig : (D j).mtu < hdrSizeMin + (D j).data.length) (ho : (D j).output = some ps)
    (hall : ∀ p ∈ ps, (j, p) ∈ s.seen) : ∃ w, (j, w) ∈ s.back := by
  by_contra hno
  have hpos : 0 < (D j).data.length := by
    have := (hD j).mtu
    unfold hdrSizeMin at hbig
    omega
  -- Every fragment is in the entry of the key, and there is only one.
  have htook : ∀ p ∈ ps, (D j).Part p → ∃ e, tableFind (D j).hdr.key s.table = some e ∧ e.origin = j ∧ Took e p := by
    intro p hp hpart
    have := ((h.took (j, p) (hall p hp) hpart.isFragment).resolve_left hno).2
    rwa [hpart.hdr] at this
  obtain ⟨p₀, hp₀, hpart₀, hle₀, -⟩ := Send.exists_part (hD j) hbig ho hpos
  obtain ⟨e, hfe, hoe, ht₀⟩ := htook p₀ hp₀ hpart₀
  have htook' : ∀ p ∈ ps, (D j).Part p → Took e p := by
    intro p hp hpart
    obtain ⟨e', hfe', -, ht⟩ := htook p hp hpart
    rw [hfe, Option.some.injEq] at hfe'
    rwa [← hfe'] at ht
  obtain ⟨p₁, hp₁, hpart₁, hle₁, hlt₁⟩ := Send.exists_part (hD j) hbig ho (a := (D j).data.length - 1) (by omega)
  have hlast : p₁.isLast = true := by
    have := hpart₁.length_body
    exact hpart₁.last.mpr (by omega)
  have hof := h.sound.table e (tableFind_some hfe).1
  rw [hoe] at hof
  have htotne : e.total ≠ 0 := (htook' p₁ hp₁ hpart₁).last hlast
  have htotal : e.total = (D j).data.length := hof.total.resolve_left htotne
  have hcov : Entry.covers e.total 0 e.pieces = true := by
    refine Entry.covers_of_has (h.waiting e (tableFind_some hfe).1).1 (by omega) fun a _ ha => ?_
    rw [htotal] at ha
    obtain ⟨p, hp, hpart, hle, hlt⟩ := Send.exists_part (hD j) hbig ho ha
    refine ⟨p.piece, (htook' p hp hpart).piece, ?_⟩
    rw [hpart.piece (hD j)]
    exact ⟨hle, hlt⟩
  have hcomp : e.complete = true := by
    simp only [Entry.complete, Bool.and_eq_true, decide_eq_true_eq]
    exact ⟨⟨ht₀.first (by omega), htotne⟩, hcov⟩
  rw [(h.waiting e (tableFind_some hfe).1).2] at hcomp
  exact Bool.false_ne_true hcomp

/-! ### Any packets -/

variable {seen seen' : List (ℕ × Packet)}

/-- The header and the pieces of an entry are those of packets of its key. -/
structure Came (seen : List (ℕ × Packet)) (e : Entry) : Prop where
  hdr : e.first = true → e.hdr.key = e.key
  piece : ∀ q ∈ e.pieces, ∃ x ∈ seen, x.2.hdr.key = e.key ∧ q = x.2.piece

theorem Came.mono (h : Came seen e) (hsub : ∀ x ∈ seen, x ∈ seen') : Came seen' e where
  hdr := h.hdr
  piece := fun q hq => by
    obtain ⟨x, hx, hv⟩ := h.piece q hq
    exact ⟨x, hsub x hx, hv⟩

theorem Came.fresh : Came seen (freshEntry k now j) where
  hdr := fun h => absurd h Bool.false_ne_true
  piece := fun _ hq => absurd hq List.not_mem_nil

theorem Came.note (hk : f.key = p.hdr.key) (h : Came seen f) : Came seen (p.note f) where
  hdr := by
    intro hfirst
    rw [Packet.note]
    dsimp only
    split_ifs
    · exact hk.symm
    · exact h.hdr hfirst
  piece := h.piece

theorem Came.added (hk : f.key = p.hdr.key) (hp : (j, p) ∈ seen) (h : Came seen f) : Came seen (added p now f) where
  hdr := by
    intro hfirst
    simp only [Net.added, Packet.note, Entry.pieceAdd, Bool.or_eq_true, decide_eq_true_eq] at hfirst ⊢
    by_cases hoff : p.off = 0
    · rw [if_pos hoff, hk]
    · rw [if_neg hoff]
      exact h.hdr (hfirst.resolve_right hoff)
  piece := by
    intro q hq
    rcases Entry.mem_insert.mp hq with rfl | hq
    · exact ⟨(j, p), hp, hk.symm, rfl⟩
    · exact h.piece q hq

/-- A byte of a packet that is handed back has been received in a packet of the same key. -/
def Received (seen : List (ℕ × Packet)) (w : Packet) : Prop :=
  ∀ a b, w.body[a]? = some b →
    ∃ x ∈ seen, x.2.hdr.key = w.hdr.key ∧ x.2.off ≤ a ∧ x.2.body[a - x.2.off]? = some b

theorem Received.mono {w : Packet} (h : Received seen w) (hsub : ∀ x ∈ seen, x ∈ seen') : Received seen' w := by
  intro a b hb
  obtain ⟨x, hx, hv⟩ := h a b hb
  exact ⟨x, hsub x hx, hv⟩

theorem Came.build (h : Came seen e) (hc : e.complete = true) : Received seen e.build := by
  intro a b hb
  have hfirst : e.first = true := by
    simp only [Entry.complete, Bool.and_eq_true] at hc
    exact hc.1.1
  obtain ⟨q, hq, hle, hget⟩ := Entry.build_has hc hb
  obtain ⟨x, hx, hk, rfl⟩ := h.piece q hq
  refine ⟨x, hx, hk.trans (h.hdr hfirst).symm, hle, ?_⟩
  rw [Packet.piece, List.getElem?_take] at hget
  split_ifs at hget
  exact hget

structure Traced (s : Host) : Prop where
  table : ∀ e ∈ s.table, Came s.seen e
  back : ∀ x ∈ s.back, Received s.seen x.2

theorem Traced.step {s t : Host} {e : Event} (h : Traced s) (hst : s.step e = some t) : Traced t := by
  cases e with
  | sweep now =>
    cases hst
    exact ⟨fun e he => h.table e (List.mem_of_mem_filter he), h.back⟩
  | arrive p j now mem =>
    have hsub : ∀ x ∈ s.seen, x ∈ (j, p) :: s.seen := fun x hx => List.mem_cons_of_mem (j, p) hx
    have hself : (j, p) ∈ (j, p) :: s.seen := List.mem_cons_self
    have htable : ∀ e ∈ s.table, Came ((j, p) :: s.seen) e := fun e he => (h.table e he).mono hsub
    rcases Host.arrive_cases hst with ⟨-, rfl⟩ | ⟨-, l, w, hin, rfl⟩
    · exact ⟨htable, fun x hx => (h.back x hx).mono hsub⟩
    have hkeep := fragInput_keeps (P := Came ((j, p) :: s.seen))
      (Q := fun f => f.key = p.hdr.key ∧ Came ((j, p) :: s.seen) f) hin htable
      (fun f hf => ⟨(tableFind_some hf).2, (htable f (tableFind_some hf).1).hdr, (htable f (tableFind_some hf).1).piece⟩)
      ⟨rfl, .fresh⟩ .fresh (fun _ f hf => hf.2.note hf.1) (fun f hf _ => hf.2.added hf.1 hself)
    refine ⟨hkeep.1, fun x hx => ?_⟩
    rcases mem_back hx with ⟨hw, -⟩ | hx
    · obtain ⟨f, hf, hc, hb⟩ := hkeep.2 x.2 hw
      rw [hb]
      exact (hf.2.added hf.1 hself).build hc
    · exact (h.back x hx).mono hsub

/-! ### The whole -/

/-- What is handed back is a datagram as it was sent, and nothing that has arrived is lost, as long as every
    fragment ends where its header says and meets only the entry of its own datagram. Whatever arrives,
    nothing is copied from or to outside, and every byte that is handed back has been received. -/
theorem reassembly (D : ℕ → Send) (hD : ∀ j, (D j).Fits) :
    (∀ s, Reach Host.step (fun s e => Sent D e ∧ Apart s e) .init s →
      ∀ x ∈ s.back, x.2 = (D x.1).core (D x.1).data 0) ∧
    (∀ s, Reach Host.step (fun s e => Sent D e ∧ Apart s e ∧ Roomy s e) .init s →
      ∀ j ps, (D j).mtu < hdrSizeMin + (D j).data.length → (D j).output = some ps →
        (∀ p ∈ ps, (j, p) ∈ s.seen) → ∃ w, (j, w) ∈ s.back) ∧
    (∀ s, Reach Host.step Free .init s → ∀ x ∈ s.back, Received s.seen x.2) ∧
    ∀ (e : Entry) (c : Entry.Copy), c ∈ Entry.copies e.total 0 e.pieces → c.piece ∈ e.pieces ∧
      c.piece.off ≤ c.start ∧ c.start < c.stop ∧ c.stop ≤ c.piece.off + c.piece.data.length ∧ c.stop ≤ e.total := by
  have hinit : Sound D .init :=
    ⟨fun _ he => absurd he List.not_mem_nil, fun _ hx => absurd hx List.not_mem_nil⟩
  refine ⟨fun s hs => ?_, fun s hs j ps hbig ho hall => ?_, fun s hs => ?_, fun e c hc => Entry.copies_inside hc⟩
  · exact (hs.inv (I := Sound D) hinit fun s e t h hok hst => h.step hD hok.1 hok.2 hst).back
  · have htracks : Tracks D s := by
      refine hs.inv (I := Tracks D) ⟨hinit, fun _ he => absurd he List.not_mem_nil, fun _ hx => absurd hx List.not_mem_nil⟩
        fun s e t h hok hst => h.step hD hok.1 hok.2.1 hok.2.2 hst
    exact htracks.handed hD hbig ho hall
  · have htraced : Traced s := by
      refine hs.inv (I := Traced) ⟨fun _ he => absurd he List.not_mem_nil, fun _ hx => absurd hx List.not_mem_nil⟩
        fun s e t h _ hst => h.step hst
    exact htraced.back

/-- Sixteen bytes, cut in two. -/
def pair (b : UInt8) (id : ℕ) : Send := ⟨17, List.replicate 16 b, 1, 2, 28, id⟩

theorem pair_fits (b : UInt8) (id : ℕ) : (pair b id).Fits := ⟨by simp [pair], Nat.le_refl 28⟩

/-- A half of it arrives, with padding. -/
def half (b : UInt8) (id j off : ℕ) (pad : List UInt8) : Event :=
  let q := (pair b id).fragment off
  .arrive { q with body := q.body ++ pad } j 0 ⟨true, true, true⟩

theorem sent_half {D : ℕ → Send} {b : UInt8} {id j off : ℕ} (pad : List UInt8) (hD : D j = pair b id)
    (h : off = 0 ∨ off = 8) : Sent D (half b id j off pad) := by
  have hout : (pair b id).output = some [(pair b id).fragment 0, (pair b id).fragment 8] := by
    have hlen : (pair b id).data.length = 16 := List.length_replicate
    rw [Send.output, hlen]
    simp [pair, hdrSizeMin, Send.offsFrom, Send.fragPayload]
  change (D j).Carries _
  rw [hD]
  refine ⟨_, hout, (pair b id).fragment off, ?_, pad, rfl⟩
  rcases h with rfl | rfl
  · exact List.mem_cons_self
  · exact List.mem_cons_of_mem _ List.mem_cons_self

/-- Nothing is too old at the time zero. -/
theorem roomy_half {s : Host} {b : UInt8} {id j off : ℕ} {pad : List UInt8} (h : s.table.length < fragEntriesMax) :
    Roomy s (half b id j off pad) :=
  ⟨rfl, fun e _ => decide_eq_false (by rw [Nat.zero_sub]; decide), fun _ => h⟩

/-- The state after one more event. -/
def Host.after (s : Host) (e : Event) : Host := (s.step e).getD s

theorem reach_after {ok : Host → Event → Prop} {s₀ s : Host} {e : Event} (h : Reach Host.step ok s₀ s) (hok : ok s e) :
    Reach Host.step ok s₀ (s.after e) := by
  refine .next h hok ?_
  cases e with
  | sweep now => rfl
  | arrive p j now mem =>
    simp only [Host.after, Host.step]
    split <;> rfl

theorem reassembly_pair : ∃ s, Reach Host.step (fun s e => Sent (pair 1) e ∧ Apart s e ∧ Roomy s e) .init s ∧
    (∃ w, (0, w) ∈ s.back) ∧ ∀ x ∈ s.back, x.2.body = List.replicate 16 1 := by
  have hrun : Reach Host.step (fun s e => Sent (pair 1) e ∧ Apart s e ∧ Roomy s e) .init
      ((Host.init.after (half 1 0 0 8 [])).after (half 1 0 0 0 [])) := by
    refine reach_after (reach_after .start ⟨sent_half [] rfl (Or.inr rfl), ?_, roomy_half (by decide)⟩)
      ⟨sent_half [] rfl (Or.inl rfl), ?_, roomy_half (by decide)⟩
    · exact fun _ => ⟨rfl, fun f hf => absurd hf (Option.some_ne_none f).symm⟩
    · refine fun _ => ⟨rfl, fun f hf => ?_⟩
      cases hf
      rfl
  have hall := reassembly (pair 1) (pair_fits 1)
  refine ⟨_, hrun, ?_, fun x hx => ?_⟩
  · exact hall.2.1 _ hrun 0 _ (by decide) rfl (by decide +kernel)
  · rw [hall.1 _ (hrun.mono fun _ _ h => ⟨h.1, h.2.1⟩) x hx]
    rfl

/-- Two datagrams of one id are mixed, and padding gets into the payload. -/
theorem reassembly_mixes :
    (∃ D : ℕ → Send, (∀ j, (D j).Fits) ∧ ∃ s, Reach Host.step (fun s e => Sent D e ∧ Roomy s e) .init s ∧
      ∃ x ∈ s.back, ∀ j, x.2.body ≠ (D j).data) ∧
    ∃ D : ℕ → Send, (∀ j, (D j).Fits) ∧ (∀ i j, (D i).id = (D j).id → i = j) ∧
      ∃ s, Reach Host.step (fun s e => Sent D e ∧ Roomy s e) .init s ∧ ∃ x ∈ s.back, ∀ j, x.2.body ≠ (D j).data := by
  refine ⟨⟨fun j => pair (UInt8.ofNat j) 7, fun j => pair_fits _ 7, ?_⟩, pair 1, pair_fits 1, fun i j h => h, ?_⟩
  · have hrun : Reach Host.step (fun s e => Sent (fun j => pair (UInt8.ofNat j) 7) e ∧ Roomy s e) .init
        ((Host.init.after (half 0 7 0 0 [])).after (half 1 7 1 8 [])) := by
      exact reach_after (reach_after .start ⟨sent_half [] rfl (Or.inl rfl), roomy_half (by decide)⟩)
        ⟨sent_half [] rfl (Or.inr rfl), roomy_half (by decide)⟩
    refine ⟨_, hrun, _, List.mem_cons_self, fun j h => ?_⟩
    have h0 : (0 : UInt8) = UInt8.ofNat j := Option.some.inj (congrArg (fun l => l[0]?) h)
    have h1 : (1 : UInt8) = UInt8.ofNat j := Option.some.inj (congrArg (fun l => l[8]?) h)
    exact absurd (h0.trans h1.symm) (by decide)
  · have hrun : Reach Host.step (fun s e => Sent (pair 1) e ∧ Roomy s e) .init
        ((Host.init.after (half 1 0 0 0 [])).after (half 1 0 0 8 [0, 0])) := by
      exact reach_after (reach_after .start ⟨sent_half [] rfl (Or.inl rfl), roomy_half (by decide)⟩)
        ⟨sent_half [0, 0] rfl (Or.inr rfl), roomy_half (by decide)⟩
    refine ⟨_, hrun, _, List.mem_cons_self, fun j h => ?_⟩
    have hlen : 18 = (pair 1 j).data.length := congrArg List.length h
    rw [pair, List.length_replicate] at hlen
    exact absurd hlen (by decide)

end EwokOS.Net
