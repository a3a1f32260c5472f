import EwokOS.Memory.PageTableRun

/-! What the page tables of a machine say, over all its runs.

    The tables of the lower half are a map from process spaces and page numbers to entries. Each call does to that
    map what it is meant to do, and nothing else (`translation_faithful`):

        tables ──mapPages──▶ tables
          │ spaces             │ spaces
          ▼                    ▼
         maps  ──Spec──────▶  maps

    And no page is lost or in two places: free, held by the rest of the kernel, or a table of one space
    (`tables_conserved`). -/

namespace EwokOS.Memory.Mmu

open Schemes Tables

/-- What the process spaces have at their pages, whether a page is left, and what the last call returned. -/
structure Spaces where
  live : List ℕ
  map : Maps
  dry : Bool
  ret : Bool

/-- Nothing is mapped in a space that is not in use, and of the upper half nothing is said. -/
def Machine.spaces (b : Build) (s : Machine) : Spaces :=
  ⟨s.live, fun r v => if r ∈ s.live ∧ v < userPages b then look b s.tables r v else none, s.tables.free.isEmpty, s.ret⟩

namespace Spaces
variable {b : Build} (w : Board b)

/-- The pages are mapped; or those before the one no table could be made for. -/
def Fill (m m' : Spaces) (ok : Bool) (r v n : ℕ) (f : ℕ → Option Entry) : Prop :=
  (ok = true ∧ m'.map = m.map.set r v n f) ∨ (ok = false ∧ m'.dry = true ∧ ∃ k < n, m'.map = m.map.set r v k f)

/-- What the calls are for. -/
def Spec (m m' : Spaces) : Op → Prop
  | .newVm vm => m'.live = vm :: m.live ∧ ∃ ok, m.Fill m' ok vm (w.dmaBase / b.page)
      (pageCount b w.dmaBase (w.dmaBase + w.dmaSize))
      (runEntry b (alignDown w.dmaBase b.page) (alignDown w.dmaBase b.page) 0 5)
  | .mapPages vm va pstart pend permissions attr => m'.live = m.live ∧
      m.Fill m' m'.ret vm (va / b.page) (pageCount b pstart pend)
        (runEntry b (alignDown va b.page) (alignDown pstart b.page) permissions attr)
  | .unmapPages vm va pages => m'.live = m.live ∧
      m'.map = m.map.set vm (va / b.page) (Tables.unmapCount b pages) fun _ => none
  | .protect vm va size prot => m'.live = m.live ∧
      ((∃ n, Allowed b m.map vm va size prot n ∧ m'.ret = true ∧ m'.map = m.map.set vm (va / b.page) n fun k =>
          (m.map vm (va / b.page + k)).map fun e => dlEntry prot e.address) ∨
        (∀ n, ¬Allowed b m.map vm va size prot n) ∧ m'.ret = false ∧ m'.map = m.map)
  | .freeVm vm => m'.live = m.live.erase vm ∧ m'.map = fun r v => if r = vm then none else m.map r v
  | .take => m'.live = m.live ∧ m'.map = m.map
  | .give _ => m'.live = m.live ∧ m'.map = m.map
  | .store _ _ _ => m'.live = m.live ∧ m'.map = m.map

end Spaces

variable {b : Build} {w : Board b} {s s' : Machine} {op : Op} {r v n : ℕ} {f : ℕ → Option Entry}

/-! ### From the tables to the maps -/

theorem map_live (hr : r ∈ s.live) (hv : v < userPages b) : (s.spaces b).map r v = look b s.tables r v := if_pos ⟨hr, hv⟩

theorem map_out (h : ¬(r ∈ s.live ∧ v < userPages b)) : (s.spaces b).map r v = none := if_neg h

/-- The tables of a space in use say it all. -/
theorem map_eq {m : Maps} (hlive : s'.live = s.live) (hs : Says b s.live s'.tables m)
    (hout : ∀ r v, ¬(r ∈ s.live ∧ v < userPages b) → m r v = none) : (s'.spaces b).map = m := by
  funext r v
  by_cases hc : r ∈ s.live ∧ v < userPages b
  · rw [map_live (hlive ▸ hc.1) hc.2, hs r hc.1 v hc.2]
  · rw [map_out (by rwa [hlive]), hout r v hc]

theorem map_set (s s' : Machine) (hlive : s'.live = s.live) (hr : r ∈ s.live) (hv : v + n ≤ userPages b)
    (hs : Says b s.live s'.tables (Maps.set (look b s.tables) r v n f)) :
    (s'.spaces b).map = (s.spaces b).map.set r v n f := by
  refine map_eq hlive (hs.set_congr fun r hr v hv => (map_live hr hv).symm) fun r' v' hc => ?_
  rw [Maps.set, if_neg, map_out hc]
  rintro ⟨rfl, h1, h2⟩
  exact hc ⟨hr, by omega⟩

theorem map_same (hlive : s'.live = s.live) (hs : Same b s.live s.tables s'.tables) : (s'.spaces b).map = (s.spaces b).map :=
  map_eq hlive (fun r hr v hv => (hs r hr v hv).trans (map_live hr hv).symm) fun _ _ hc => map_out hc

theorem fill {taken : List ℕ} {ok : Bool} (s s' : Machine) (hlive : s'.live = s.live) (hr : r ∈ s.live)
    (hv : v + n ≤ userPages b) (h : Filled w s.tables s'.tables s.live taken ok r v n f) :
    (s.spaces b).Fill (s'.spaces b) ok r v n f := by
  cases ok with
  | true => exact .inl ⟨rfl, map_set s s' hlive hr hv (h.done rfl)⟩
  | false =>
    obtain ⟨hfree, k, hk, hs⟩ := h.out rfl
    refine .inr ⟨rfl, ?_, k, hk, map_set s s' hlive hr (by omega) hs⟩
    change s'.tables.free.isEmpty = true
    rw [hfree]
    rfl

/-! ### Frames -/

theorem Fits.set {m : Maps} (h : Fits b m) (hf : ∀ k e, f k = some e → e.address < 2 ^ (48 - b.pageShift)) :
    Fits b (m.set r v n f) := by
  intro r' v' e he
  unfold Maps.set at he
  split_ifs at he with hc
  · exact hf _ e he
  · exact h r' v' e he

theorem fits_runEntry (va pa permissions attr k : ℕ) (e : Entry) (he : runEntry b va pa permissions attr k = some e) :
    e.address < 2 ^ (48 - b.pageShift) := by
  cases he
  have hlt : (pa + b.page * k) / 2 ^ b.pageShift % 2 ^ (48 - b.pageShift) < 2 ^ (48 - b.pageShift) :=
    Nat.mod_lt _ (Nat.two_pow_pos _)
  unfold pageEntry Entry.setFlags
  split_ifs <;> exact hlt

theorem Spaces.Fill.fits {m m' : Spaces} {ok : Bool} {va pa permissions attr : ℕ} (h : Fits b m.map)
    (hs : m.Fill m' ok r v n (runEntry b va pa permissions attr)) : Fits b m'.map := by
  rcases hs with ⟨-, hm⟩ | ⟨-, -, k, -, hm⟩
  · rw [hm]
    exact h.set (fits_runEntry va pa permissions attr)
  · rw [hm]
    exact h.set (fits_runEntry va pa permissions attr)

theorem Spaces.Spec.fits {m m' : Spaces} (h : Fits b m.map) (hs : m.Spec w m' op) : Fits b m'.map := by
  cases op with
  | newVm vm =>
    obtain ⟨-, ok, hf⟩ := hs
    exact hf.fits h
  | mapPages vm va pstart pend permissions attr => exact hs.2.fits h
  | unmapPages vm va pages =>
    rw [hs.2]
    exact h.set fun k e he => absurd he (Option.some_ne_none e).symm
  | protect vm va size prot =>
    rcases hs.2 with ⟨n, -, -, hm⟩ | ⟨-, -, hm⟩
    · rw [hm]
      refine h.set fun k e he => ?_
      obtain ⟨e', he', rfl⟩ := Option.map_eq_some_iff.mp he
      exact h vm _ e' he'
    · rw [hm]
      exact h
  | freeVm vm =>
    intro r v e he
    rw [hs.2] at he
    dsimp only at he
    split_ifs at he
    exact h r v e he
  | take => exact hs.2 ▸ h
  | give p => exact hs.2 ▸ h
  | store t i e => exact hs.2 ▸ h

theorem Spaces.Spec.live {m m' : Spaces} (hs : m.Spec w m' op) (hr : r ∈ m.live) (hop : ∀ vm, op = .freeVm vm → vm ≠ r) :
    r ∈ m'.live := by
  cases op with
  | newVm vm => exact hs.1 ▸ List.mem_cons_of_mem vm hr
  | mapPages vm va pstart pend permissions attr => exact hs.1 ▸ hr
  | unmapPages vm va pages => exact hs.1 ▸ hr
  | protect vm va size prot => exact hs.1 ▸ hr
  | freeVm vm => exact hs.1 ▸ (List.mem_erase_of_ne (hop vm rfl).symm).mpr hr
  | take => exact hs.1 ▸ hr
  | give p => exact hs.1 ▸ hr
  | store t i e => exact hs.1 ▸ hr

/-! ### Steps -/

/-- What holds of every machine. -/
structure Good (w : Board b) (s : Machine) : Prop where
  sound : Sound w s.tables s.live s.taken
  fits : Fits b (s.spaces b).map
  kernel : w.kernelVm ∈ s.live

theorem pages_low (va : ℕ) {n : ℕ} (h : alignDown va b.page + b.page * n ≤ kernelBase) :
    alignDown va b.page / b.page = va / b.page ∧ va / b.page + n ≤ userPages b := by
  have hpos := Build.page_pos (b := b)
  refine ⟨Nat.mul_div_cancel _ hpos, ?_⟩
  rw [userPages, Nat.le_div_iff_mul_le hpos, Nat.add_mul, Nat.mul_comm n]
  exact h

theorem Sound.mapPages {t : Tables} {live taken : List ℕ} {va pstart pend : ℕ}
    (h : Sound w t live taken) (permissions attr : ℕ) (hr : r ∈ live) (hlow : alignDown va b.page + b.page * pageCount b pstart pend ≤ kernelBase) :
    Filled w t (t.mapPages b r va pstart pend permissions attr).2 live taken
      (t.mapPages b r va pstart pend permissions attr).1 r (va / b.page) (pageCount b pstart pend)
      (runEntry b (alignDown va b.page) (alignDown pstart b.page) permissions attr) := by
  obtain ⟨hva, hlow⟩ := pages_low va hlow
  have := h.mapLoop (alignDown pstart b.page) permissions attr hr (hva.symm ▸ hlow)
  rw [hva] at this
  exact this

/-- The window of the DMA pool is of the lower half. -/
theorem dma_window (w : Board b) : (w.dmaBase + w.dmaSize) % b.top = w.dmaBase + w.dmaSize ∧
    alignDown w.dmaBase b.page + b.page * pageCount b w.dmaBase (w.dmaBase + w.dmaSize) ≤ kernelBase := by
  have htop : b.top = 2 ^ 64 := by rw [Build.top, w.wide]
  have hlow := w.dma_low
  have hpos := Build.page_pos (b := b)
  have hdvd : b.page ∣ kernelBase := by
    rcases b.shift_mem with h | h | h <;> rw [Build.page, h] <;> decide
  have hpage : b.page ≤ 2 ^ 16 := by
    rcases b.shift_mem with h | h | h <;> rw [Build.page, h] <;> decide
  have hbase : kernelBase = 2 ^ 38 := by decide
  refine ⟨Nat.mod_eq_of_lt (by omega), ?_⟩
  rw [pageCount, Build.alignUp_eq (by omega)]
  have hup : roundUp (w.dmaBase + w.dmaSize) b.page ≤ kernelBase := by
    obtain ⟨k, hk⟩ := hdvd
    rw [roundUp, hk, Nat.mul_comm b.page k]
    refine Nat.mul_le_mul_right _ (Nat.le_of_lt_succ ((Nat.div_lt_iff_lt_mul hpos).mpr ?_))
    rw [Nat.succ_mul, Nat.mul_comm k, ← hk]
    omega
  have hdown := (alignDown_le w.dmaBase b.page).trans ((Nat.le_add_right _ w.dmaSize).trans (le_roundUp hpos))
  have hsub : b.page ∣ roundUp (w.dmaBase + w.dmaSize) b.page - alignDown w.dmaBase b.page :=
    Nat.dvd_sub (Nat.dvd_mul_left ..) (dvd_alignDown w.dmaBase b.page)
  rw [Nat.mul_div_cancel' hsub]
  omega

/-- A directory before the window is mapped. -/
def blank (b : Build) (t : Tables) (kernelVm vm : ℕ) : Tables :=
  { t with mem := Function.update (t.clear vm).mem vm fun i =>
      if pageRootIndex b kernelBase ≤ i then (t.clear vm).mem kernelVm i else (t.clear vm).mem vm i }

theorem blank_mem (t : Tables) (kernelVm vm : ℕ) :
    (∀ i < kernelRoot b, (blank b t kernelVm vm).mem vm i = Entry.zero) ∧
      ∀ x, x ≠ vm → (blank b t kernelVm vm).mem x = t.mem x := by
  refine ⟨fun i hi => ?_, fun x hx => ?_⟩
  · have hlt : ¬pageRootIndex b kernelBase ≤ i := Nat.not_le.mpr hi
    simp [blank, clear, hlt]
  · simp [blank, clear, Function.update_of_ne hx]

theorem Good.newVm {vm : ℕ} (hg : Good w s) (h : Machine.step w s (.newVm vm) = some s') :
    Sound w s'.tables s'.live s'.taken ∧ (s.spaces b).Spec w (s'.spaces b) (.newVm vm) := by
  rw [Machine.step] at h
  split_ifs at h with hc
  cases h
  rw [not_or] at hc
  obtain ⟨hmod, hlow⟩ := dma_window w
  obtain ⟨hzero, hother⟩ := blank_mem s.tables w.kernelVm vm (b := b)
  obtain ⟨hs, hlook⟩ := hg.sound.root (blank b s.tables w.kernelVm vm) hc.1 hc.2 hzero hother rfl
  have hf := hs.mapPages 0 5 List.mem_cons_self hlow
  have hgo : s.tables.archSetProcVm b w.kernelVm w.dmaBase w.dmaSize vm =
      ((blank b s.tables w.kernelVm vm).mapPages b vm w.dmaBase w.dmaBase (w.dmaBase + w.dmaSize) 0 5).2 := by
    rw [archSetProcVm, hmod]
    rfl
  rw [hgo]
  generalize blank b s.tables w.kernelVm vm = t at hs hlook hf
  refine ⟨hf.sound, rfl, (t.mapPages b vm w.dmaBase w.dmaBase (w.dmaBase + w.dmaSize) 0 5).1, ?_⟩
  -- seen from the new space, its directory was empty
  have hfill := fill ⟨t, vm :: s.live, s.taken, s.ret⟩
    ⟨(t.mapPages b vm w.dmaBase w.dmaBase (w.dmaBase + w.dmaSize) 0 5).2, vm :: s.live, s.taken, s.ret⟩ rfl
    List.mem_cons_self (pages_low w.dmaBase hlow).2 hf
  have hmap : ((⟨t, vm :: s.live, s.taken, s.ret⟩ : Machine).spaces b).map = (s.spaces b).map := by
    funext r v
    by_cases hc' : r ∈ s.live ∧ v < userPages b
    · rw [map_live (List.mem_cons_of_mem vm hc'.1) hc'.2, map_live hc'.1 hc'.2]
      exact (hlook v hc'.2).2 r hc'.1
    · rw [map_out hc']
      by_cases hv : r = vm ∧ v < userPages b
      · rw [map_live (hv.1 ▸ List.mem_cons_self) hv.2, hv.1]
        exact (hlook v hv.2).1
      · refine map_out fun hd => ?_
        rcases List.mem_cons.mp hd.1 with he | hr
        · exact hv ⟨he, hd.2⟩
        · exact hc' ⟨hr, hd.2⟩
  unfold Spaces.Fill at hfill
  rw [hmap] at hfill
  exact hfill

theorem Good.mapPages {vm va pstart pend permissions attr : ℕ} (hg : Good w s)
    (hlow : Machine.Low (b := b) (.mapPages vm va pstart pend permissions attr))
    (h : Machine.step w s (.mapPages vm va pstart pend permissions attr) = some s') :
    Sound w s'.tables s'.live s'.taken ∧ (s.spaces b).Spec w (s'.spaces b) (.mapPages vm va pstart pend permissions attr) := by
  rw [Machine.step] at h
  split_ifs at h with hr
  cases h
  have hf := hg.sound.mapPages permissions attr hr hlow
  exact ⟨hf.sound, rfl, fill s _ rfl hr (pages_low va hlow).2 hf⟩

theorem Good.unmapPages {vm va pages : ℕ} (hg : Good w s) (hlow : Machine.Low (b := b) (.unmapPages vm va pages))
    (h : Machine.step w s (.unmapPages vm va pages) = some s') :
    Sound w s'.tables s'.live s'.taken ∧ (s.spaces b).Spec w (s'.spaces b) (.unmapPages vm va pages) := by
  rw [Machine.step] at h
  split_ifs at h with hr
  cases h
  have hv : va / b.page + Tables.unmapCount b pages ≤ userPages b := by
    refine (pages_low va (n := Tables.unmapCount b pages) ?_).2
    exact (Nat.add_le_add_right (alignDown_le va b.page) _).trans hlow
  obtain ⟨hs, htold⟩ := hg.sound.unmapPages hr hv
  exact ⟨hs, rfl, map_set s _ rfl hr hv htold⟩

theorem allowed_congr {m m' : Maps} {va size prot : ℕ}
    (hm : ∀ v < userPages b, m r v = m' r v) : Allowed b m r va size prot n ↔ Allowed b m' r va size prot n := by
  refine and_congr_right fun _ => and_congr_right fun hn => forall_congr' fun k => imp_congr_right fun hk => ?_
  obtain ⟨-, hlow, -⟩ := dlPages_low hn
  rw [Framed, Framed, hm _ (by omega)]

theorem Good.protect {vm va size prot : ℕ} (hg : Good w s) (h : Machine.step w s (.protect vm va size prot) = some s') :
    Sound w s'.tables s'.live s'.taken ∧ (s.spaces b).Spec w (s'.spaces b) (.protect vm va size prot) := by
  rw [Machine.step] at h
  split_ifs at h with hr
  cases h
  have hallow : ∀ n, Allowed b (look b s.tables) vm va size prot n ↔ Allowed b (s.spaces b).map vm va size prot n := fun n =>
    allowed_congr fun v hv => (map_live hr hv).symm
  rcases dlWindowProtect_eq (b := b) s.tables vm va size prot with ⟨n, hn, hgo⟩ | ⟨hn, hgo⟩
  · rw [hgo]
    obtain ⟨hva, hlow, -⟩ := dlPages_low hn.2.1
    have hpage : ∀ k < n, look b s.tables vm (va / b.page + k) =
          some ((look b s.tables vm (va / b.page + k)).getD Entry.zero) ∧
        ((look b s.tables vm (va / b.page + k)).getD Entry.zero).address < 2 ^ (48 - b.pageShift) := by
      intro k hk
      obtain ⟨e, he, -⟩ := hn.2.2 k hk
      have hfit := hg.fits vm (va / b.page + k) e ((map_live hr (by omega)).trans he)
      rw [he]
      exact ⟨rfl, hfit⟩
    obtain ⟨hs, htold⟩ := hg.sound.protectLoop prot hr hlow hva hpage
    refine ⟨hs, rfl, .inl ⟨n, (hallow n).mp hn, rfl, ?_⟩⟩
    have hset := map_set s ⟨((List.range n).map fun k => va + b.page * k).foldl
      (fun s v => Tables.protectPage b vm prot s v) s.tables, s.live, s.taken, true⟩ rfl hr hlow htold
    refine hset.trans ?_
    funext r' v'
    rw [Maps.set, Maps.set]
    split_ifs with hc
    · have hk : v' - va / b.page < n := by omega
      rw [map_live hr (by omega), (hpage _ hk).1]
      rfl
    · rfl
  · rw [hgo]
    exact ⟨hg.sound, rfl, .inr ⟨fun n hc => hn n ((hallow n).mpr hc), rfl, rfl⟩⟩

theorem Good.freeVm {vm : ℕ} (hg : Good w s) (h : Machine.step w s (.freeVm vm) = some s') :
    Sound w s'.tables s'.live s'.taken ∧ (s.spaces b).Spec w (s'.spaces b) (.freeVm vm) := by
  rw [Machine.step] at h
  split_ifs at h with hr
  cases h
  obtain ⟨hs, -, -, hsame⟩ := hg.sound.freePageTables hr.1
  refine ⟨hs, rfl, ?_⟩
  have hmem : ∀ {r}, r ∈ s.live.erase vm ↔ r ≠ vm ∧ r ∈ s.live := hg.sound.nodup.mem_erase_iff
  funext r v
  by_cases hc : r ∈ s.live.erase vm ∧ v < userPages b
  · rw [map_live hc.1 hc.2, if_neg (hmem.mp hc.1).1, map_live (hmem.mp hc.1).2 hc.2]
    exact hsame r hc.1 v hc.2
  · rw [map_out hc]
    split_ifs with hrv
    · rfl
    · exact (map_out fun hd => hc ⟨hmem.mpr ⟨hrv, hd.1⟩, hd.2⟩).symm

theorem Good.take (hg : Good w s) (h : Machine.step w s .take = some s') :
    Sound w s'.tables s'.live s'.taken ∧ (s.spaces b).Spec w (s'.spaces b) .take := by
  rw [Machine.step] at h
  obtain ⟨o, ho, rfl⟩ := Option.map_eq_some_iff.mp h
  cases hf : s.tables.free with
  | nil =>
    rw [kallocPage, hf] at ho
    cases ho
  | cons p l =>
    rw [kallocPage, hf] at ho
    cases ho
    refine ⟨hg.sound.off (fun _ _ _ _ => rfl) ?_, rfl, rfl⟩
    rw [hf]
    exact List.perm_middle

theorem Good.give {p : ℕ} (hg : Good w s) (h : Machine.step w s (.give p) = some s') :
    Sound w s'.tables s'.live s'.taken ∧ (s.spaces b).Spec w (s'.spaces b) (.give p) := by
  rw [Machine.step] at h
  split_ifs at h with hp
  cases h
  obtain ⟨hw, hsame⟩ := hg.sound.still (s.tables.kfreePage w.scrap p) fun x j hx _ => by
    rw [kfreePage_stay]
    rintro rfl
    exact (hg.sound.idle x (List.mem_append_right _ hp)).2 hx
  refine ⟨hg.sound.off hw ?_, rfl, map_same rfl hsame⟩
  exact List.perm_middle.symm.trans (List.Perm.append_left _ (List.perm_cons_erase hp).symm)

theorem Good.store {t i : ℕ} {e : Entry} (hg : Good w s) (h : Machine.step w s (.store t i e) = some s') :
    Sound w s'.tables s'.live s'.taken ∧ (s.spaces b).Spec w (s'.spaces b) (.store t i e) := by
  rw [Machine.step] at h
  split_ifs at h with hc
  cases h
  obtain ⟨hw, hsame⟩ := hg.sound.still (s.tables.write t i e) fun x j hx hroot => by
    refine write_other s.tables e fun he => ?_
    rw [Prod.mk.injEq] at he
    rw [he.1] at hx hroot
    rcases hc with ht | ⟨ht, hlive⟩
    · exact (hg.sound.idle t (List.mem_append_right _ ht)).2 hx
    · have hin := (hg.sound.found_mem hx).resolve_right ht
      rcases hlive with hlive | hi
      · exact hlive hin
      · have := hroot hin
        rw [he.2, kernelRoot] at this
        omega
  exact ⟨hg.sound.off hw (.refl _), rfl, map_same rfl hsame⟩

theorem Good.step (hg : Good w s) (hlow : Machine.Low (b := b) op) (h : Machine.step w s op = some s') :
    Good w s' ∧ (s.spaces b).Spec w (s'.spaces b) op := by
  have hall : Sound w s'.tables s'.live s'.taken ∧ (s.spaces b).Spec w (s'.spaces b) op := by
    cases op with
    | newVm vm => exact hg.newVm h
    | mapPages vm va pstart pend permissions attr => exact hg.mapPages hlow h
    | unmapPages vm va pages => exact hg.unmapPages hlow h
    | protect vm va size prot => exact hg.protect h
    | freeVm vm => exact hg.freeVm h
    | take => exact hg.take h
    | give p => exact hg.give h
    | store t i e => exact hg.store h
  refine ⟨⟨hall.1, hall.2.fits hg.fits, hall.2.live hg.kernel fun vm hop hvm => ?_⟩, hall.2⟩
  rw [hop, Machine.step] at h
  split_ifs at h with hc
  exact hc.2 hvm

/-! ### Runs -/

theorem Machine.Boot.map_none (h : Machine.Boot w s) (r v : ℕ) : (s.spaces b).map r v = none := by
  obtain ⟨hlive, -, -, hzero⟩ := h
  by_cases hc : r ∈ s.live ∧ v < userPages b
  · rw [map_live hc.1 hc.2]
    rw [hlive, List.mem_singleton] at hc
    have hlow := low_pathOf (b := b) hc.2
    have hlen := length_pathOf (b := b) v
    unfold look
    cases hp : pathOf b v with
    | nil =>
      rw [hp, List.length_nil] at hlen
      exact absurd hlen depth_pos.ne
    | cons i p =>
      rw [hp] at hlow
      rw [walk, hc.1, hzero i (low_cons.mp hlow).1]
      rfl
  · exact map_out hc

theorem Machine.Boot.good (h : Machine.Boot w s) : Good w s := by
  have h' := h
  obtain ⟨hlive, htaken, hfree, hzero⟩ := h
  have hnone : ∀ t, ¬Found (scope b []) Entry.link s.tables.mem t := by
    rintro t ⟨r, p, hr, -, -⟩
    cases hr
  have h0 : Sound w s.tables [] [] := by
    refine ⟨fun r p r' p' t hr => (List.not_mem_nil hr).elim, ?_, fun t ht => ?_, fun t ht hnot => ?_,
      fun r p t hr => (List.not_mem_nil hr).elim, fun r hr => (List.not_mem_nil hr).elim, List.nodup_nil⟩
    · rw [hfree, List.append_nil]
      exact w.nodup
    · rw [hfree, List.append_nil] at ht
      exact ⟨ht, hnone t⟩
    · rw [hfree, List.append_nil] at hnot
      exact absurd ht hnot
  obtain ⟨hs, -⟩ := h0.root s.tables List.not_mem_nil w.apart hzero (fun _ _ => rfl) rfl
  refine ⟨by rw [hlive, htaken]; exact hs, fun r v e he => ?_, hlive ▸ List.mem_cons_self⟩
  rw [h'.map_none] at he
  cases he

theorem good_of_reach {s₀ : Machine} (h0 : Machine.Boot w s₀)
    (h : Reach (Machine.step w) (fun _ op => Machine.Low (b := b) op) s₀ s) : Good w s :=
  h.inv (I := Good w) h0.good fun _ _ _ hg hlow hst => (hg.step hlow hst).1

/-- In every run, each call does to the maps of the spaces what it is for, and an address of the lower half is
    resolved by its page in the map. -/
theorem translation_faithful {s₀ : Machine} (h0 : Machine.Boot w s₀)
    (h : Reach (Machine.step w) (fun _ op => Machine.Low (b := b) op) s₀ s) (hlow : Machine.Low (b := b) op)
    (hstep : Machine.step w s op = some s') : (s.spaces b).Spec w (s'.spaces b) op ∧
      ∀ r ∈ s'.live, ∀ va, va / b.page < userPages b → s'.tables.resolvePhyAddress b r va =
        ((s'.spaces b).map r (va / b.page)).elim 0 fun e => e.address * b.page + va % b.page := by
  refine ⟨((good_of_reach h0 h).step hlow hstep).2, fun r hr va hv => ?_⟩
  rw [resolvePhyAddress_eq, map_live hr hv]
  cases look b s'.tables r (va / b.page) with
  | none => rfl
  | some e =>
    have hlt : va % 2 ^ b.pageShift < 2 ^ b.pageShift := Nat.mod_lt _ (Nat.two_pow_pos _)
    change e.address * 2 ^ b.pageShift ||| va % 2 ^ b.pageShift = _
    rw [Nat.mul_comm e.address, ← Nat.two_pow_add_eq_or_of_lt hlt, Nat.mul_comm _ e.address]
    rfl

/-- A board with six pages of 4K, and its machine at boot. -/
def sampleBuild : Build := ⟨12, 64, shift_4k, bits_64⟩

def sampleBoard : Board sampleBuild :=
  ⟨7, 0x1000, 0x2000, [1, 2, 3, 4, 5, 6], fun _ => Entry.zero, rfl, by decide, by decide, by decide, by decide⟩

def sampleMachine : Machine := ⟨⟨fun _ _ => Entry.zero, [1, 2, 3, 4, 5, 6]⟩, [7], [], true⟩

theorem sampleMachine_boot : Machine.Boot sampleBoard sampleMachine := ⟨rfl, rfl, rfl, fun _ _ => rfl⟩

theorem translation_faithful_two : ∃ s s', Machine.step sampleBoard sampleMachine (.newVm 9) = some s ∧
    Machine.step sampleBoard s (.mapPages 9 0x400000 0x7000 0x9000 1 0) = some s' ∧ s'.ret = true ∧
    (s.spaces sampleBuild).Spec sampleBoard (s'.spaces sampleBuild) (.mapPages 9 0x400000 0x7000 0x9000 1 0) := by
  refine ⟨_, _, rfl, rfl, by decide +kernel, (translation_faithful sampleMachine_boot (.next (o := .newVm 9) .start trivial rfl) ?_ rfl).1⟩
  change alignDown 0x400000 sampleBuild.page + sampleBuild.page * pageCount sampleBuild 0x7000 0x9000 ≤ kernelBase
  decide +kernel

/-- In every run the pages of the pool are the free ones, those the rest of the kernel holds, and the tables of the
    spaces in use, each once; and a space that goes gives back its tables and no other page. -/
theorem tables_conserved {s₀ : Machine} (h0 : Machine.Boot w s₀)
    (h : Reach (Machine.step w) (fun _ op => Machine.Low (b := b) op) s₀ s) :
    (s.tables.free ++ s.taken ++ s.live.flatMap (tablesOf b s.tables)).Perm w.pages ∧
      ∀ vm s', Machine.step w s (.freeVm vm) = some s' → s'.taken = s.taken ∧
        s'.tables.free = (tablesOf b s.tables vm).reverse ++ s.tables.free ∧
        ∀ r ∈ s'.live, tablesOf b s'.tables r = tablesOf b s.tables r := by
  have hg := good_of_reach h0 h
  have hs := hg.sound
  refine ⟨?_, fun vm s' hst => ?_⟩
  · have hnd : (s.live.flatMap (tablesOf b s.tables)).Nodup := by
      refine List.nodup_flatMap.mpr ⟨fun r hr => hs.tablesOf_nodup hr, ?_⟩
      refine hs.nodup.imp_of_mem fun {r r'} hr hr' hne t ht ht' => ?_
      obtain ⟨p, -, hp, hx⟩ := mem_tablesOf.mp ht
      obtain ⟨p', -, hp', hx'⟩ := mem_tablesOf.mp ht'
      exact hne (hs.once r p r' p' t hr hr' hp hp' hx hx').1
    have hmem : ∀ t, t ∈ s.live.flatMap (tablesOf b s.tables) ↔
        t ∈ w.pages ∧ Found (scope b s.live) Entry.link s.tables.mem t := by
      intro t
      rw [List.mem_flatMap]
      constructor
      · rintro ⟨r, hr, ht⟩
        obtain ⟨p, hne, hp, hx⟩ := mem_tablesOf.mp ht
        exact ⟨hs.inside r p t hr hp hne hx, r, p, hr, hp, hx⟩
      · rintro ⟨hpage, r, p, hr, hp, hx⟩
        refine ⟨r, hr, mem_tablesOf.mpr ⟨p, ?_, hp, hx⟩⟩
        rintro rfl
        rw [walk, Option.some.injEq] at hx
        exact hs.roots r hr (hx ▸ hpage)
    refine (List.perm_ext_iff_of_nodup (List.nodup_append.mpr ⟨hs.spare, hnd, ?_⟩) w.nodup).mpr fun t => ?_
    · rintro t ht u hu rfl
      exact (hs.idle t ht).2 ((hmem t).mp hu).2
    · rw [List.mem_append, hmem]
      constructor
      · rintro (ht | ht)
        · exact (hs.idle t ht).1
        · exact ht.1
      · intro ht
        by_cases hf : t ∈ s.tables.free ++ s.taken
        · exact .inl hf
        · exact .inr ⟨ht, hs.cover t ht hf⟩
  · rw [Machine.step] at hst
    split_ifs at hst with hc
    cases hst
    obtain ⟨-, hfree, hkeep, -⟩ := hs.freePageTables hc.1
    refine ⟨rfl, hfree, fun r hr => ?_⟩
    obtain ⟨hne, hr⟩ := hs.nodup.mem_erase_iff.mp hr
    exact hkeep r hr hne

theorem tables_conserved_two : ∃ s, Machine.step sampleBoard sampleMachine (.newVm 9) = some s ∧
    s.live.flatMap (tablesOf sampleBuild s.tables) = [2, 1] ∧
    (s.tables.free ++ s.taken ++ s.live.flatMap (tablesOf sampleBuild s.tables)).Perm [1, 2, 3, 4, 5, 6] := by
  refine ⟨_, rfl, by decide +kernel, (tables_conserved sampleMachine_boot (.next (o := .newVm 9) .start trivial rfl)).1⟩

end EwokOS.Memory.Mmu
