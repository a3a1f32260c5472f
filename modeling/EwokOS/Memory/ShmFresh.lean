import EwokOS.Memory.ShmRun

/-! What a new segment reads as.

    Two histories that differ in what was written, and in nothing else, lead to states that differ in
    what the frames hold (`Alike`): no call looks at memory. A creating call then hands out the same
    segment in both, and it reads as zeroes in both if its pages are mapped by the call itself

        contiguous, or behind the tail        zeroed, then mapped
        a free scattered block                as it was left

    so the histories can be told apart only through a scattered block that is used again. -/

namespace EwokOS.Memory.Shm

open Schemes (Reach Free runOps runIf)

section
variable {b : Build} {L : Layout b} {s s' t t' : Shm} {pre post : List Seg} {g : Seg} {r : Req} {e : Env}
  {n id : ℕ}

/-! ### Histories -/

/-- The call without the bytes it writes. -/
def Op.erase : Op → Op
  | .write id k _ => .write id k 0
  | o => o

/-- The states differ in memory only. -/
def Alike (s t : Shm) : Prop := ∃ m, t = { s with mem := m }

/-- The same answer, and states that differ in memory only. -/
def AlikeRes (x y : Option ℕ × Shm) : Prop := x.1 = y.1 ∧ Alike x.2 y.2

theorem alike_foldl {f : Shm → ℕ → Shm} (hf : ∀ {s t} k, Alike s t → Alike (f s k) (f t k))
    (ks : List ℕ) (h : Alike s t) : Alike (ks.foldl f s) (ks.foldl f t) := by
  induction ks generalizing s t with
  | nil => exact h
  | cons k ks ih => exact ih (hf k h)

theorem Alike.mapOne (h : Alike s t) (v f : ℕ) (ok : Bool) : Alike (s.mapOne v f ok) (t.mapOne v f ok) := by
  obtain ⟨m, rfl⟩ := h
  exact ⟨Function.update m f 0, rfl⟩

theorem Alike.mapPages (h : Alike s t) (addr n : ℕ) (e : Env) :
    (Shm.mapPages (b := b) s addr n e).1 = (Shm.mapPages (b := b) t addr n e).1 ∧
      Alike (Shm.mapPages (b := b) s addr n e).2 (Shm.mapPages (b := b) t addr n e).2 := by
  refine ⟨by rw [mapPages_ok, mapPages_ok], ?_⟩
  have hmap := alike_foldl (f := fun s k => s.mapOne (addr + k * b.page) (e.frame k) (e.maps k))
    (fun k h => h.mapOne ..) (List.range (min n e.room)) h
  simp only [Shm.mapPages]
  split_ifs
  · exact hmap
  · refine alike_foldl (f := fun s k =>
      { s with vm := Function.update s.vm (addr + k * b.page) none }) (fun k h => ?_) _ hmap
    obtain ⟨m, rfl⟩ := h
    exact ⟨m, rfl⟩

theorem Alike.mapped (h : Alike s t) :
    (s.mapped (b := b) r e g).1 = (t.mapped (b := b) r e g).1 ∧
      Alike (s.mapped (b := b) r e g).2 (t.mapped (b := b) r e g).2 := by
  rw [Shm.mapped, Shm.mapped]
  split_ifs
  · exact ⟨rfl, alike_foldl (f := fun s k =>
      s.mapOne (g.addr + k * b.page) (r.paddr + k * b.page) (e.maps k)) (fun k h => h.mapOne ..) _ h⟩
  · exact h.mapPages ..
  · exact ⟨rfl, h⟩

theorem Alike.finish (h : Alike s t) :
    AlikeRes (s.finish (b := b) r e pre g post) (t.finish (b := b) r e pre g post) := by
  obtain ⟨hok, m, hm⟩ := h.mapped (b := b) (r := r) (e := e) (g := g)
  simp only [Shm.finish]
  rw [← hok, hm]
  cases (s.mapped (b := b) r e g).1 with
  | false =>
    rw [if_pos rfl, if_pos rfl]
    exact ⟨rfl, m, rfl⟩
  | true =>
    have ht : ¬true = false := by decide
    rw [if_neg ht, if_neg ht]
    exact ⟨rfl, m, rfl⟩

theorem Alike.place (h : Alike s t) : AlikeRes (s.place L r e) (t.place L r e) := by
  have hfin := fun pre g post => @Alike.finish b s t pre post g r e h
  obtain ⟨m, rfl⟩ := h
  rw [Shm.place, Shm.place]
  cases cut (fun g => !g.used && decide (r.pages ≤ g.pages) && g.contig == r.contig) s.segs with
  | some c => exact hfin ..
  | none =>
    have htail : tailOf { s with mem := m } r.contig = s.tailOf r.contig := rfl
    dsimp only
    rw [htail]
    by_cases hfull : winTop L r.contig ≤ (s.tailOf r.contig + r.size) % b.top ∨ e.new = false
    · rw [if_pos hfull, if_pos hfull]
      exact ⟨rfl, m, rfl⟩
    · rw [if_neg hfull, if_neg hfull]
      exact hfin ..

theorem Alike.shmGet (h : Alike s t) (key size flag : ℕ) (e : Env) :
    AlikeRes (s.shmGet L key size flag e) (t.shmGet L key size flag e) := by
  have halloc : ∀ flag contig, AlikeRes (s.shmAlloc L key size flag contig e)
      (t.shmAlloc L key size flag contig e) := by
    intro flag contig
    obtain ⟨m, rfl⟩ := h
    cases contig with
    | false => exact Alike.place ⟨m, rfl⟩
    | true =>
      simp only [shmAlloc, if_true]
      split_ifs
      · exact ⟨rfl, m, rfl⟩
      · exact Alike.place ⟨m, rfl⟩
  obtain ⟨m, rfl⟩ := h
  rw [Shm.shmGet, Shm.shmGet]
  have hitem : itemByKey { s with mem := m } key = s.itemByKey key := rfl
  rw [hitem]
  rcases eq_or_ne key 0 with h0 | h0
  · rw [if_pos h0, if_pos h0]
    exact halloc ..
  · rw [if_neg h0, if_neg h0]
    cases s.itemByKey key with
    | some g => exact ⟨rfl, m, rfl⟩
    | none =>
      dsimp only
      cases flag.testBit 9 with
      | false => exact ⟨rfl, m, rfl⟩
      | true => exact halloc ..

theorem Alike.procMap (h : Alike s t) (sp id : ℕ) (access ok : Bool) :
    Alike (s.procMap sp id access ok).2 (t.procMap sp id access ok).2 := by
  obtain ⟨m, rfl⟩ := h
  have hid : byId { s with mem := m } id = s.byId id := rfl
  rw [Shm.procMap, Shm.procMap, hid]
  dsimp only
  rcases s.byId id with - | ⟨pre, g, post⟩
  · exact ⟨m, rfl⟩
  · rcases s.spaces[sp]? with - | x
    · exact ⟨m, rfl⟩
    · dsimp only
      rcases x.findIdx? (· == 0) with - | k
      · dsimp only
        split_ifs
        · exact ⟨m, rfl⟩
        · exact ⟨m, rfl⟩
        · exact ⟨m, rfl⟩
      · dsimp only
        split_ifs
        · exact ⟨m, rfl⟩
        · exact ⟨m, rfl⟩
        · exact ⟨m, rfl⟩
        · exact ⟨m, rfl⟩

theorem Alike.procUnmapIt (h : Alike s t) (sp : ℕ) (freeIt : Bool) :
    Alike (s.procUnmapIt (b := b) sp freeIt pre g post)
      (t.procUnmapIt (b := b) sp freeIt pre g post) := by
  obtain ⟨m, rfl⟩ := h
  rw [Shm.procUnmapIt, Shm.procUnmapIt]
  dsimp only
  rcases s.spaces[sp]? with - | x
  · exact ⟨m, rfl⟩
  · dsimp only
    rcases x.findIdx? (· == g.id) with - | k
    · exact ⟨m, rfl⟩
    · dsimp only
      split_ifs
      · exact ⟨m, rfl⟩
      · exact ⟨m, rfl⟩

/-- No call looks at memory. -/
theorem Alike.step {o o' : Op} (h : Alike s t) (ho : o.erase = o'.erase)
    (hs : Shm.step L s o = some s') (ht : Shm.step L t o' = some t') : Alike s' t' := by
  have hm := h
  obtain ⟨m, rfl⟩ := hm
  cases o with
  | write id k bytes =>
    cases o' <;> cases ho
    have hid : byId { s with mem := m } id = s.byId id := rfl
    rw [Shm.step] at hs ht
    rw [hid] at ht
    rcases hc : s.byId id with - | ⟨pre, g, post⟩
    · rw [hc] at hs
      cases hs
    · rw [hc] at hs ht
      dsimp only at hs ht
      split_ifs at hs ht
      cases hs
      cases ht
      exact ⟨_, rfl⟩
  | get key size flag e =>
    cases o' <;> cases ho
    cases hs
    cases ht
    exact (h.shmGet ..).2
  | procMap sp id access ok =>
    cases o' <;> cases ho
    cases hs
    cases ht
    exact h.procMap ..
  | procUnmap sp addr =>
    cases o' <;> cases ho
    cases hs
    cases ht
    have hid : byAddr { s with mem := m } addr = s.byAddr addr := rfl
    rw [Shm.procUnmap, Shm.procUnmap, hid]
    rcases s.byAddr addr with - | ⟨pre, g, post⟩
    · exact h
    · exact h.procUnmapIt ..
  | procUnmapById sp id freeIt =>
    cases o' <;> cases ho
    cases hs
    cases ht
    have hid : byId { s with mem := m } id = s.byId id := rfl
    rw [Shm.procUnmapById, Shm.procUnmapById, hid]
    rcases s.byId id with - | ⟨pre, g, post⟩
    · exact h
    · exact h.procUnmapIt ..
  | rmid id =>
    cases o' <;> cases ho
    cases hs
    cases ht
    have hid : byId { s with mem := m } id = s.byId id := rfl
    rw [ctrlRmid, ctrlRmid, hid]
    rcases s.byId id with - | ⟨pre, g, post⟩
    · exact h
    · dsimp only
      split_ifs
      · exact ⟨m, rfl⟩
      · exact h
  | releaseOrphans pid =>
    cases o' <;> cases ho
    cases hs
    cases ht
    rw [releaseOrphans, releaseOrphans]
    split_ifs
    · exact h
    · exact ⟨m, rfl⟩
  | setOwner id pid =>
    cases o' <;> cases ho
    cases hs
    cases ht
    have hid : byId { s with mem := m } id = s.byId id := rfl
    rw [setOwner, setOwner, hid]
    rcases s.byId id with - | ⟨pre, g, post⟩
    · exact h
    · exact ⟨m, rfl⟩
  | spawn =>
    cases o' <;> cases ho
    cases hs
    cases ht
    exact ⟨m, rfl⟩

/-- Histories that differ only in what was written lead to states that differ in memory only. -/
theorem Alike.run {os os' : List Op} (h : Alike s t) (ho : os.map Op.erase = os'.map Op.erase)
    (hs : runOps (Shm.step L) s os = some s') (ht : runOps (Shm.step L) t os' = some t') :
    Alike s' t' := by
  induction os generalizing s t os' with
  | nil =>
    rw [List.map_nil, eq_comm, List.map_eq_nil_iff] at ho
    subst ho
    cases hs
    cases ht
    exact h
  | cons o os ih =>
    obtain ⟨o', os', rfl, ho', hos⟩ := List.map_eq_cons_iff.mp ho.symm
    simp only [runOps, runIf, if_true] at hs ht
    obtain ⟨u, hu, hs⟩ := Option.bind_eq_some_iff.mp hs
    obtain ⟨v, hv, ht⟩ := Option.bind_eq_some_iff.mp ht
    exact ih (h.step ho'.symm hu hv) hos.symm hs ht

/-! ### Zeroing -/

/-- Pages that are zeroed and mapped one after the other. -/
theorem map_zero (frame : ℕ → ℕ) (addr n : ℕ) (hm : ∀ k < n, e.maps k = true) (s : Shm) :
    ∀ k < n, ((List.range n).foldl (fun s k => s.mapOne (addr + k * b.page) (frame k) (e.maps k)) s).read
      (addr + k * b.page) = 0 := by
  -- the page is mapped to its frame, and whatever is written to a frame is zero
  have hfold : ∀ k < n,
      ((List.range n).foldl (fun s k => s.mapOne (addr + k * b.page) (frame k) (e.maps k)) s).vm
        (addr + k * b.page) = some (frame k) ∧
      ((List.range n).foldl (fun s k => s.mapOne (addr + k * b.page) (frame k) (e.maps k)) s).mem
        (frame k) = 0 := by
    induction n with
    | zero => nofun
    | succ n ih =>
      intro k hk
      rw [List.range_succ, List.foldl_append, List.foldl_cons, List.foldl_nil, mapOne,
        hm n (Nat.lt_succ_self n)]
      dsimp only
      rw [if_pos rfl]
      rcases Nat.lt_succ_iff_lt_or_eq.mp hk with hlt | rfl
      · obtain ⟨hvm, hmem⟩ := ih (fun j hj => hm j (hj.trans (Nat.lt_succ_self n))) k hlt
        have hne : addr + k * b.page ≠ addr + n * b.page := by
          intro he
          exact hlt.ne (Nat.eq_of_mul_eq_mul_right Build.page_pos (Nat.add_left_cancel he))
        rw [Function.update_of_ne hne, Function.update_apply]
        refine ⟨hvm, ?_⟩
        split_ifs
        · rfl
        · exact hmem
      · rw [Function.update_self, Function.update_self]
        exact ⟨rfl, rfl⟩
  intro k hk
  rw [read, (hfold k hk).1]
  exact (hfold k hk).2

/-- A segment that is handed out and reads as zeroes. -/
def Blank (b : Build) (id : ℕ) (s : Shm) : Prop :=
  ∃ g ∈ live s.segs, g.id = id ∧ ∀ k < g.pages, s.read (g.addr + k * b.page) = 0

/-- A block whose pages are mapped now reads as zeroes. -/
theorem finish_blank (hnew : r.contig = true ∨ g.pages = 0) (hm : ∀ k < r.pages, e.maps k = true)
    (hid : (s.finish (b := b) r e pre g post).1 = some id) :
    Blank b id (s.finish (b := b) r e pre g post).2 := by
  have hzero : (s.mapped (b := b) r e g).1 = true →
      ∀ k < r.pages, (s.mapped (b := b) r e g).2.read (g.addr + k * b.page) = 0 := by
    rw [mapped]
    split_ifs with hc h0
    · exact fun _ => map_zero (fun k => r.paddr + k * b.page) g.addr r.pages hm s
    · intro hok
      rw [mapPages_ok, decide_eq_true_eq] at hok
      simp only [mapPages]
      rw [if_pos hok, Nat.min_eq_left hok]
      exact map_zero e.frame g.addr r.pages hm s
    · exact absurd hnew (not_or.mpr ⟨hc, h0⟩)
  simp only [finish] at hid ⊢
  by_cases hok : (s.mapped (b := b) r e g).1 = false
  · rw [if_pos hok] at hid
    cases hid
  · rw [if_neg hok] at hid ⊢
    cases hid
    rw [Bool.not_eq_false] at hok
    refine ⟨_, mem_live.mpr ⟨List.mem_append_right _ List.mem_cons_self, rfl⟩, rfl, ?_⟩
    dsimp only
    rw [if_pos hnew.symm]
    exact hzero hok

theorem place_blank (hnew : r.contig = true ∨ s.served r.pages r.contig = none)
    (hm : ∀ k < r.pages, e.maps k = true) (hid : (s.place L r e).1 = some id) :
    Blank b id (s.place L r e).2 := by
  rw [served] at hnew
  rw [place] at hid ⊢
  cases hc : cut (fun g => !g.used && decide (r.pages ≤ g.pages) && g.contig == r.contig) s.segs with
  | some c =>
    rw [hc] at hid hnew
    exact finish_blank (hnew.imp (fun h => h) (by intros; contradiction)) hm hid
  | none =>
    rw [hc] at hid
    dsimp only at hid ⊢
    split_ifs at hid ⊢ with hfull
    · exact finish_blank (.inr rfl) hm hid

/-- Whether the pages of a new segment are mapped by the call that creates it: it is contiguous or no
    free scattered block is large enough; and `map_page` finds its tables. -/
def Zeroes (b : Build) (s : Shm) (key size flag : ℕ) (e : Env) : Prop :=
  ((key ≠ 0 ∧ flag.testBit 24 = true) ∨ s.served (pagesFor b (rounded b size)) false = none) ∧
    ∀ k < pagesFor b (rounded b size), e.maps k = true

theorem get_blank {key size flag : ℕ} (hc : Creates s key flag) (hz : Zeroes b s key size flag e)
    (hid : (s.shmGet L key size flag e).1 = some id) : Blank b id (s.shmGet L key size flag e).2 := by
  have halloc : ∀ flag' contig, (contig = true ∨
      s.served (pagesFor b (rounded b size)) false = none) →
      (s.shmAlloc L key size flag' contig e).1 = some id →
      Blank b id (s.shmAlloc L key size flag' contig e).2 := by
    intro flag' contig hnew hid
    simp only [shmAlloc] at hid ⊢
    split_ifs at hid ⊢ with hk h0
    · exact place_blank (.inl rfl) hz.2 hid
    · exact place_blank (.inr (hnew.resolve_left hk)) hz.2 hid
  rw [shmGet] at hid ⊢
  rcases eq_or_ne key 0 with h0 | h0
  · rw [if_pos h0] at hid ⊢
    exact halloc _ _ (.inr (hz.1.resolve_left fun hk => hk.1 h0)) hid
  · obtain ⟨hitem, hbit⟩ := hc.resolve_left h0
    rw [if_neg h0, hitem] at hid ⊢
    dsimp only at hid ⊢
    rw [hbit, if_neg (by decide)] at hid ⊢
    exact halloc _ _ (hz.1.imp And.right fun h => h) hid

/-- After two histories that differ only in what was written a creating call whose pages are mapped by
    itself hands out the same segment, and it reads as zeroes in both. -/
theorem new_segment_blank {os os' : List Op} {mem mem' : ℕ → ℕ} {key size flag : ℕ}
    (ho : os.map Op.erase = os'.map Op.erase) (hs : runOps (Shm.step L) (L.boot mem) os = some s)
    (ht : runOps (Shm.step L) (L.boot mem') os' = some t) (hc : Creates s key flag)
    (hz : Zeroes b s key size flag e) (hid : (s.shmGet L key size flag e).1 = some id) :
    (t.shmGet L key size flag e).1 = some id ∧
      (t.shmGet L key size flag e).2.segs = (s.shmGet L key size flag e).2.segs ∧
      Blank b id (s.shmGet L key size flag e).2 ∧ Blank b id (t.shmGet L key size flag e).2 := by
  have halike : Alike s t := Alike.run ⟨mem', rfl⟩ ho hs ht
  obtain ⟨hres, m, hm⟩ := halike.shmGet (L := L) key size flag e
  have hid' : (t.shmGet L key size flag e).1 = some id := hres.symm.trans hid
  refine ⟨hid', by rw [hm], get_blank hc hz hid, ?_⟩
  obtain ⟨u, rfl⟩ := halike
  exact get_blank hc hz hid'

end

/-- A segment is created with `flag`, attached, written to and detached, which frees it. -/
def past (flag bytes : ℕ) : List Op :=
  [.spawn, .get 5 0x2000 flag ample, .procMap 0 1 true true, .write 1 1 bytes,
    .procUnmapById 0 1 true]

theorem past_erase (flag x y : ℕ) : (past flag x).map Op.erase = (past flag y).map Op.erase := rfl

/-- Two pages of the slab are written, freed and handed out again. -/
theorem new_segment_blank_slab : ∃ s t : Shm,
    runOps (Shm.step plain) (plain.boot fun _ => 9) (past 0o100001666 42) = some s ∧
    runOps (Shm.step plain) (plain.boot fun _ => 9) (past 0o100001666 43) = some t ∧
    Blank board 2 (s.shmGet plain 6 0x2000 0o100001666 ample).2 ∧
    Blank board 2 (t.shmGet plain 6 0x2000 0o100001666 ample).2 := by
  have hrun : (runOps (Shm.step plain) (plain.boot fun _ => 9) (past 0o100001666 42)).map
      (fun s => (decide (Creates s 6 0o100001666), (s.shmGet plain 6 0x2000 0o100001666 ample).1)) =
      some (true, some 2) := by decide +kernel
  have hrun' : (runOps (Shm.step plain) (plain.boot fun _ => 9) (past 0o100001666 43)).isSome = true := by
    decide +kernel
  obtain ⟨s, hs, hres⟩ := Option.map_eq_some_iff.mp hrun
  obtain ⟨t, ht⟩ := Option.isSome_iff_exists.mp hrun'
  rw [Prod.mk.injEq, decide_eq_true_eq] at hres
  have hz : Zeroes board s 6 0x2000 0o100001666 ample :=
    ⟨.inl ⟨by decide, by decide⟩, fun _ _ => rfl⟩
  exact ⟨s, t, hs, ht, (new_segment_blank (past_erase _ 42 43) hs ht hres.1 hz hres.2).2.2⟩

/-- A freed scattered segment is handed out again with what was written to it. -/
theorem old_bytes_read : ∃ s t : Shm,
    runOps (Shm.step plain) (plain.boot fun _ => 9) (past 0o1666 42) = some s ∧
    runOps (Shm.step plain) (plain.boot fun _ => 9) (past 0o1666 43) = some t ∧
    Creates s 6 0o1666 ∧ (s.shmGet plain 6 0x2000 0o1666 ample).1 = some 2 ∧
    (s.shmGet plain 6 0x2000 0o1666 ample).2.segs =
      [⟨2, 6, 0x40000000, 2, true, 0o666, 7, 0, false, 0⟩] ∧
    (s.shmGet plain 6 0x2000 0o1666 ample).2.read 0x40001000 = 42 ∧
    (t.shmGet plain 6 0x2000 0o1666 ample).2.read 0x40001000 = 43 := by
  have hrun : (runOps (Shm.step plain) (plain.boot fun _ => 9) (past 0o1666 42)).map (fun s =>
      (decide (Creates s 6 0o1666), (s.shmGet plain 6 0x2000 0o1666 ample).1,
        (s.shmGet plain 6 0x2000 0o1666 ample).2.segs,
        (s.shmGet plain 6 0x2000 0o1666 ample).2.read 0x40001000)) =
      some (true, some 2, [⟨2, 6, 0x40000000, 2, true, 0o666, 7, 0, false, 0⟩], 42) := by
    decide +kernel
  have hrun' : (runOps (Shm.step plain) (plain.boot fun _ => 9) (past 0o1666 43)).map
      (fun t => (t.shmGet plain 6 0x2000 0o1666 ample).2.read 0x40001000) = some 43 := by
    decide +kernel
  obtain ⟨s, hs, hres⟩ := Option.map_eq_some_iff.mp hrun
  obtain ⟨t, ht, hread⟩ := Option.map_eq_some_iff.mp hrun'
  simp only [Prod.mk.injEq, decide_eq_true_eq] at hres
  exact ⟨s, t, hs, ht, hres.1, hres.2.1, hres.2.2.1, hres.2.2.2, hread⟩

end EwokOS.Memory.Shm
