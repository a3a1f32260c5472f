import EwokOS.Memory.ShmBlocks

/-! Shared memory segments never alias, as long as no size comes to nothing.

    Every call keeps `Inv`. What it asks of a creating call (`Fit`) are the corners that `shm_alloc`
    does not check: a size that rounds to no page, an address that wraps, an id counter at its end, a
    block of the contiguous window that cannot be cut for want of a header, and a private key with
    `IPC_CONTIG`, which is dropped. -/

namespace EwokOS.Memory.Shm

open Schemes (Tiles Apart Reach Free runIf runOps reach_of_runIf reach_of_runOps tiles_dvd)

section
variable {b : Build} {L : Layout b} {s s' : Shm} {pre post l : List Seg} {g : Seg} {r : Req} {e : Env}
  {n : ℕ}

/-- What holds between calls. -/
structure Inv (L : Layout b) (s : Shm) : Prop where
  pool : ShmPool.Good b L.slab s.pool
  window : Window L s.segs s.tailOf
  bound : s.contigTail ≤ L.base ∧ s.tail ≤ L.base + L.winSize
  live : Live s.idCounter s.pool s.spaces (live s.segs)
  idle : Idle s.segs
  idc : 0 < s.idCounter ∧ s.idCounter < 2 ^ 31
  listed : ∀ l ∈ s.spaces, ∀ id ∈ l, id < s.idCounter
  once : ∀ l ∈ s.spaces, ∀ id, id ≠ 0 → l.count id ≤ 1

/-! ### Mapping -/

/-- `s'` is `s` but for page table and memory. -/
structure Touch (s s' : Shm) : Prop where
  segs : s'.segs = s.segs
  tail : s'.tail = s.tail
  contigTail : s'.contigTail = s.contigTail
  idCounter : s'.idCounter = s.idCounter
  pool : s'.pool = s.pool
  spaces : s'.spaces = s.spaces

theorem Touch.refl (s : Shm) : Touch s s := ⟨rfl, rfl, rfl, rfl, rfl, rfl⟩

theorem Touch.trans {u : Shm} (h : Touch s s') (h' : Touch s' u) : Touch s u :=
  ⟨h'.segs.trans h.segs, h'.tail.trans h.tail, h'.contigTail.trans h.contigTail,
    h'.idCounter.trans h.idCounter, h'.pool.trans h.pool, h'.spaces.trans h.spaces⟩

theorem touch_foldl {f : Shm → ℕ → Shm} (hf : ∀ s k, Touch s (f s k)) (ks : List ℕ) (s : Shm) :
    Touch s (ks.foldl f s) := by
  induction ks generalizing s with
  | nil => exact .refl s
  | cons k ks ih => exact (hf s k).trans (ih _)

theorem touch_mapPages (addr n : ℕ) (e : Env) : Touch s (mapPages (b := b) s addr n e).2 := by
  have hmap := touch_foldl (f := fun s k => s.mapOne (addr + k * b.page) (e.frame k) (e.maps k))
    (fun _ _ => ⟨rfl, rfl, rfl, rfl, rfl, rfl⟩) (List.range (min n e.room)) s
  simp only [mapPages]
  split_ifs
  · exact hmap
  · exact hmap.trans (touch_foldl
      (f := fun s k => { s with vm := Function.update s.vm (addr + k * b.page) none })
      (fun _ _ => ⟨rfl, rfl, rfl, rfl, rfl, rfl⟩) _ _)

theorem mapPages_ok (addr n : ℕ) (e : Env) :
    (mapPages (b := b) s addr n e).1 = decide (n ≤ e.room) := by
  simp only [mapPages]
  split_ifs with h
  · exact (decide_eq_true h).symm
  · exact (decide_eq_false h).symm

theorem touch_mapPagesContig (addr paddr n : ℕ) (e : Env) :
    Touch s (mapPagesContig (b := b) s addr paddr n e) :=
  touch_foldl (f := fun s k => s.mapOne (addr + k * b.page) (paddr + k * b.page) (e.maps k))
    (fun _ _ => ⟨rfl, rfl, rfl, rfl, rfl, rfl⟩) _ s

/-- The block as it is handed out. -/
def granted (r : Req) (e : Env) (id : ℕ) (g : Seg) : Seg :=
  { g with
    used := true
    key := r.key
    id := id
    pages := if g.pages = 0 ∨ r.contig = true then r.pages else g.pages
    contig := r.contig
    phyBase := r.paddr
    owner := e.pid
    flag := r.flag }

/-- `shm_alloc` succeeds once it has its block, but for the pages of a new scattered one. -/
theorem finish_ok (hok : r.contig = true ∨ g.pages ≠ 0 ∨ r.pages ≤ e.room) :
    ∃ u, Touch s u ∧ s.finish (b := b) r e pre g post = (some s.idCounter, { u with
      segs := pre ++ granted r e s.idCounter g :: post
      tail := if r.contig = false ∧ g.addr = s.tail then bump b s.tail r.pages else s.tail
      contigTail := if r.contig = true ∧ g.addr = s.contigTail then bump b s.contigTail r.pages
        else s.contigTail
      idCounter := (s.idCounter + 1) % 2 ^ 32 }) := by
  have hfin : (s.mapped (b := b) r e g).1 = true ∧ Touch s (s.mapped (b := b) r e g).2 := by
    rw [mapped]
    split_ifs with hc h0
    · exact ⟨rfl, touch_mapPagesContig ..⟩
    · refine ⟨?_, touch_mapPages ..⟩
      rw [mapPages_ok, decide_eq_true_eq]
      rcases hok with h | h | h
      · exact absurd h hc
      · exact absurd h0 h
      · exact h
    · exact ⟨rfl, .refl s⟩
  refine ⟨_, hfin.2, ?_⟩
  simp only [finish]
  rw [if_neg (by rw [hfin.1]; decide), hfin.2.idCounter, hfin.2.tail, hfin.2.contigTail]
  rfl

/-- A new scattered block whose pages cannot be had stays behind without any. -/
theorem finish_fail (hc : r.contig = false) (h0 : g.pages = 0) (hroom : e.room < r.pages) :
    ∃ u, Touch s u ∧ s.finish (b := b) r e pre g post =
      (none, { u with segs := pre ++ g :: post }) := by
  refine ⟨_, touch_mapPages (b := b) g.addr r.pages e, ?_⟩
  have hm : s.mapped (b := b) r e g = s.mapPages (b := b) g.addr r.pages e := by
    rw [mapped, if_neg (by rw [hc]; decide), if_pos h0]
  simp only [finish]
  rw [hm, if_pos (by rw [mapPages_ok, decide_eq_false]; omega)]

/-! ### Creating -/

/-- The pages of a size hold it. -/
theorem le_pages (size : ℕ) : size ≤ pagesFor b size * b.page := by
  have hdiv := Nat.div_add_mod size b.page
  have hlt := Nat.mod_lt size (@Build.page_pos b)
  rw [pagesFor, Nat.add_mul, Nat.mul_comm]
  split_ifs
  · omega
  · omega

/-- They are no more than it takes. -/
theorem pages_lt (size : ℕ) : pagesFor b size * b.page < size + b.page := by
  have hdiv := Nat.div_add_mod size b.page
  have hpos := @Build.page_pos b
  rw [pagesFor, Nat.add_mul, Nat.mul_comm]
  split_ifs
  · omega
  · omega

theorem pagesFor_pos {size : ℕ} (h : 0 < size) : 0 < pagesFor b size := by
  refine Nat.pos_of_ne_zero fun h0 => ?_
  have hle := @le_pages b size
  rw [h0, Nat.zero_mul] at hle
  omega

/-- Whole pages fit between page boundaries where the bytes do. -/
theorem pages_fit {x y size : ℕ} (hx : b.page ∣ x) (hy : b.page ∣ y) (h : x + size < y) :
    x + pagesFor b size * b.page ≤ y := by
  have hlt := @pages_lt b size
  obtain ⟨i, rfl⟩ := hx
  obtain ⟨j, rfl⟩ := hy
  have hsum : b.page * (i + pagesFor b size) < b.page * (j + 1) := by
    rw [Nat.mul_add, Nat.mul_add, Nat.mul_comm b.page (pagesFor b size)]
    omega
  have hle : i + pagesFor b size ≤ j := Nat.le_of_lt_succ (Nat.lt_of_mul_lt_mul_left hsum)
  calc b.page * i + pagesFor b size * b.page = b.page * (i + pagesFor b size) := by
        rw [Nat.mul_add, Nat.mul_comm (pagesFor b size)]
    _ ≤ b.page * j := Nat.mul_le_mul_left _ hle

/-- What a request brings once it has its physical run. -/
structure Ready (s : Shm) (r : Req) : Prop where
  pos : 0 < r.pages
  backed : r.contig = true →
    ∃ q ∈ s.pool, q.paddr = r.paddr ∧ q.paddr ≠ 0 ∧ q.used = true ∧ r.pages ≤ q.pages
  fresh : r.contig = true → ∀ g ∈ Shm.live s.segs, g.contig = true → g.phyBase ≠ r.paddr

theorem tails_dvd (h : Inv L s) (k : Bool) : b.page ∣ s.tailOf k := by
  refine tiles_dvd (h.window k) ?_ fun g _ => Nat.dvd_mul_left ..
  rw [winBase]
  split_ifs
  · exact L.contig_dvd
  · exact L.base_dvd

/-- A block is handed out: the other segments stay, the windows are tiled up to `t`. -/
theorem Inv.grant {u : Shm} {t : Bool → ℕ} (h : Inv L s) (hr : Ready s r) (hu : Touch s u)
    (hidc : s.idCounter + 1 < 2 ^ 31) (hg : g.refs = 0)
    (hw : Window L (pre ++ granted r e s.idCounter g :: post) t)
    (hb : t true ≤ L.base ∧ t false ≤ L.base + L.winSize)
    (hlive : Shm.live (pre ++ post) = Shm.live s.segs) (hidle : Idle (pre ++ post)) :
    Inv L { u with
      segs := pre ++ granted r e s.idCounter g :: post
      tail := t false
      contigTail := t true
      idCounter := (s.idCounter + 1) % 2 ^ 32 } := by
  have hcount : (s.idCounter + 1) % 2 ^ 32 = s.idCounter + 1 := Nat.mod_eq_of_lt (by omega)
  have hpages : (r.contig = true → (granted r e s.idCounter g).pages = r.pages) ∧
      0 < (granted r e s.idCounter g).pages := by
    rw [granted]
    dsimp only
    split_ifs with hz
    · exact ⟨fun _ => rfl, hr.pos⟩
    · rw [not_or] at hz
      exact ⟨fun hc => absurd hc hz.2, Nat.pos_of_ne_zero hz.1⟩
  have hsegs : Live (s.idCounter + 1) s.pool s.spaces
      (granted r e s.idCounter g :: Shm.live s.segs) := by
    refine h.live.cons rfl h.idc.1 hpages.2 (fun hc => ?_) (fun hc => hr.fresh hc) hg h.listed
    obtain ⟨q, hq, hqp, hq0, hqu, hqn⟩ := hr.backed hc
    exact ⟨q, hq, hqp, hq0, hqu, (hpages.1 hc).trans_le hqn⟩
  refine ⟨?_, ?_, hb, ?_, ?_, ?_, ?_, ?_⟩
  · exact hu.pool ▸ h.pool
  · intro k
    cases k with
    | false => exact hw false
    | true => exact hw true
  · rw [hcount, hu.pool, hu.spaces]
    refine hsegs.perm ?_
    rw [← hlive, live_append, live_append, live_cons]
    exact List.perm_middle
  · intro x hx hxu
    rcases List.mem_append.mp hx with hx | hx
    · exact hidle x (List.mem_append_left _ hx) hxu
    · rcases List.mem_cons.mp hx with rfl | hx
      · cases hxu
      · exact hidle x (List.mem_append_right _ hx) hxu
  · rw [hcount]
    exact ⟨Nat.succ_pos _, hidc⟩
  · rw [hcount, hu.spaces]
    exact fun l hl id hid => (h.listed l hl id hid).trans (Nat.lt_succ_self _)
  · rw [hu.spaces]
    exact h.once

/-- What `shm_alloc` may come to: the state is kept, and the segment is of the kind asked for. -/
def Created (L : Layout b) (contig : Bool) (res : Option ℕ × Shm) : Prop :=
  Inv L res.2 ∧ ∀ id, res.1 = some id → ∃ g ∈ Shm.live res.2.segs, g.id = id ∧ g.contig = contig

theorem created_none (h : Inv L s) (k : Bool) : Created L k (none, s) := ⟨h, nofun⟩

/-- A free block serves the request. -/
theorem Inv.reuse (h : Inv L s) (hr : Ready s r) (hidc : s.idCounter + 1 < 2 ^ 31)
    (hsegs : s.segs = pre ++ g :: post) (hu : g.used = false) (hn : r.pages ≤ g.pages)
    (hk : g.contig = r.contig) (hnew : r.contig = true → r.pages < g.pages → e.new = true) :
    Created L r.contig
      (s.finish (b := b) r e pre (split b r e g).1 ((split b r e g).2 ++ post)) := by
  have hpos := hr.pos
  have hpage := @Build.page_pos b
  -- the tail of its kind is past it
  have htail : g.addr ≠ s.tailOf r.contig := by
    have hin := (h.window r.contig).inside (n := g) (List.mem_filter.mpr ⟨hsegs ▸ by simp, by simp [hk]⟩)
    have hb : 0 < bytes b g := Nat.mul_pos (by omega) hpage
    omega
  obtain ⟨g', rest, hsplit⟩ : ∃ g' rest, split b r e g = (g', rest) := ⟨_, _, rfl⟩
  rw [hsplit]
  -- what is cut off is free, and granted block and rest cover the block
  have hcut : g'.addr = g.addr ∧ g'.refs = g.refs ∧ g'.pages ≠ 0 ∧
      (∀ x ∈ rest, x.contig = g.contig ∧ x.used = false ∧ x.refs = 0) ∧
      Tiles Seg.addr (bytes b) g.addr (granted r e s.idCounter g' :: rest) (g.addr + bytes b g) := by
    rw [split] at hsplit
    split_ifs at hsplit with hlt
    · cases hsplit
      refine ⟨rfl, rfl, hpos.ne', by simp [blank], rfl, ?_⟩
      have hpages : (granted r e s.idCounter { g with pages := r.pages }).pages = r.pages := by
        rw [granted]
        exact ite_self _
      refine ⟨by rw [bytes, hpages], ?_⟩
      rw [Tiles, bytes, bytes, bytes, hpages, Nat.add_assoc, ← Nat.add_mul]
      dsimp only
      congr 2
      omega
    · cases hsplit
      refine ⟨rfl, rfl, by omega, (by intros; contradiction), rfl, ?_⟩
      have hpages : (granted r e s.idCounter g).pages = g.pages := by
        rw [granted]
        dsimp only
        split_ifs with hz
        · rcases hz with hz | hz
          · omega
          · by_contra hne
            exact hlt ⟨by omega, hnew hz (by omega)⟩
        · rfl
      rw [Tiles, bytes, bytes, hpages]
  obtain ⟨haddr, hrefs, hne, hrest, htiles⟩ := hcut
  obtain ⟨u, htouch, hfin⟩ := @finish_ok b s pre (rest ++ post) g' r e (.inr (.inl hne))
  have hgr : g.refs = 0 := h.idle g (hsegs ▸ by simp) hu
  have hinv := @Inv.grant b L s pre (rest ++ post) g' r e u s.tailOf h hr htouch hidc
    (hrefs.trans hgr) ?_ h.bound ?_ ?_
  · rw [hfin]
    refine ⟨?_, ?_⟩
    · convert hinv using 2
      · refine if_neg fun hc => htail ?_
        rw [← haddr, hc.2, hc.1]
        rfl
      · refine if_neg fun hc => htail ?_
        rw [← haddr, hc.2, hc.1]
        rfl
    · rintro id hid
      cases hid
      exact ⟨granted r e s.idCounter g', mem_live.mpr ⟨by simp, rfl⟩, rfl, rfl⟩
  · have hw := h.window
    rw [hsegs] at hw
    refine hw.replace (l := granted r e s.idCounter g' :: rest) (fun x hx => ?_) htiles
    rcases List.mem_cons.mp hx with rfl | hx
    · exact hk.symm
    · exact (hrest x hx).1
  · have hnil : Shm.live rest = [] :=
      List.filter_eq_nil_iff.mpr fun x hx => by rw [(hrest x hx).2.1]; decide
    rw [hsegs, live_append, live_append, live_append, live_cons, hu, hnil]
    rfl
  · intro x hx hxu
    rw [← List.append_assoc, List.mem_append, List.mem_append] at hx
    rcases hx with (hx | hx) | hx
    · exact h.idle x (hsegs ▸ List.mem_append_left _ hx) hxu
    · exact (hrest x hx).2.2
    · exact h.idle x (hsegs ▸ List.mem_append_right _ (List.mem_cons_of_mem g hx)) hxu

/-- What the tail of a window stays below. -/
def limit (L : Layout b) (contig : Bool) : ℕ := if contig then L.base else L.base + L.winSize

theorem bump_eq {x : ℕ} (h : x + n * b.page < b.top) (hn : n * b.page < 2 ^ 32) :
    bump b x n = x + n * b.page := by
  rw [bump, Nat.mod_eq_of_lt hn, Nat.mod_eq_of_lt h]

/-- A block behind the tail serves the request. -/
theorem Inv.extend (h : Inv L s) (hr : Ready s r) (hidc : s.idCounter + 1 < 2 ^ 31)
    (hend : s.tailOf r.contig + r.pages * b.page ≤ limit L r.contig)
    (hsmall : r.pages * b.page < 2 ^ 32) (hroom : r.contig = true ∨ r.pages ≤ e.room) :
    Created L r.contig
      (s.finish (b := b) r e s.segs { blank with addr := s.tailOf r.contig } []) := by
  have hlim : limit L r.contig < b.top := by
    have := L.lt
    rw [limit]
    split_ifs <;> omega
  have hbump := @bump_eq b r.pages (s.tailOf r.contig) (by omega) hsmall
  obtain ⟨u, htouch, hfin⟩ := @finish_ok b s s.segs [] { blank with addr := s.tailOf r.contig } r e
    (hroom.imp id .inr)
  have hw := h.window.append (g := granted r e s.idCounter { blank with addr := s.tailOf r.contig }) rfl
  have hinv := @Inv.grant b L s s.segs [] _ r e u _ h hr htouch hidc rfl hw ?_
    (by rw [List.append_nil]) (by rw [List.append_nil]; exact h.idle)
  · rw [hfin]
    refine ⟨?_, ?_⟩
    · convert hinv using 2
      · cases hc : r.contig with
        | false =>
          rw [hc] at hbump
          simpa [granted, hc, bytes, blank, tailOf] using hbump
        | true => simp [granted, hc, tailOf]
      · cases hc : r.contig with
        | false => simp [granted, hc, tailOf]
        | true =>
          rw [hc] at hbump
          simpa [granted, hc, bytes, blank, tailOf] using hbump
    · rintro id hid
      cases hid
      exact ⟨_, mem_live.mpr ⟨List.mem_append_right _ List.mem_cons_self, rfl⟩, rfl, rfl⟩
  · have hb := h.bound
    have hbytes : bytes b (granted r e s.idCounter { blank with addr := s.tailOf r.contig }) =
        r.pages * b.page := by simp [bytes, granted, blank]
    rw [hbytes]
    cases hc : r.contig with
    | false =>
      rw [hc] at hend
      simp only [granted, hc]
      exact ⟨hb.1, by simpa [limit] using hend⟩
    | true =>
      rw [hc] at hend
      simp only [granted, hc]
      exact ⟨by simpa [limit] using hend, hb.2⟩

/-- A block without pages is left behind. -/
theorem Inv.starved (h : Inv L s) (hc : r.contig = false) (hroom : e.room < r.pages) :
    Created L r.contig
      (s.finish (b := b) r e s.segs { blank with addr := s.tailOf r.contig } []) := by
  obtain ⟨u, htouch, hfin⟩ := @finish_fail b s s.segs []
    { blank with addr := s.tailOf r.contig } r e hc rfl hroom
  rw [hfin]
  refine created_none ⟨?_, ?_, ?_, ?_, ?_, ?_, ?_, ?_⟩ _
  · exact htouch.pool ▸ h.pool
  · have hw := h.window.append (g := { blank with addr := s.tailOf r.contig }) (by rw [hc]; rfl)
    intro k
    have hk := hw k
    simp only [blank, bytes, Nat.zero_mul, Nat.add_zero, Function.update_eq_self] at hk
    have htail : tailOf { u with segs := s.segs ++ [{ blank with addr := s.tailOf r.contig }] } k =
        s.tailOf k := by
      simp only [tailOf, htouch.tail, htouch.contigTail]
    rw [htail]
    exact hk
  · rw [htouch.contigTail, htouch.tail]
    exact h.bound
  · rw [htouch.idCounter, htouch.pool, htouch.spaces, live_append]
    exact (List.append_nil (Shm.live s.segs)).symm ▸ h.live
  · intro x hx hxu
    rcases List.mem_append.mp hx with hx | hx
    · exact h.idle x hx hxu
    · rw [List.mem_singleton.mp hx]
      rfl
  · rw [htouch.idCounter]
    exact h.idc
  · rw [htouch.idCounter, htouch.spaces]
    exact h.listed
  · rw [htouch.spaces]
    exact h.once

/-- The free block a request is served from, if any. -/
def served (s : Shm) (n : ℕ) (contig : Bool) : Option (List Seg × Seg × List Seg) :=
  cut (fun g => !g.used && decide (n ≤ g.pages) && g.contig == contig) s.segs

/-- What `place` asks for: a block of the contiguous window is cut if it is larger than the request,
    and the end of a new scattered one is an address. -/
def Placeable (b : Build) (s : Shm) (size n : ℕ) (contig : Bool) (e : Env) : Prop :=
  (∀ c ∈ s.served n contig, contig = true → n < c.2.1.pages → e.new = true) ∧
  (s.served n contig = none →
    contig = true ∨ s.tail + size < b.top ∨ e.room < n ∨ e.new = false)

instance (size n : ℕ) (contig : Bool) (e : Env) : Decidable (Placeable b s size n contig e) :=
  inferInstanceAs (Decidable (_ ∧ _))

/-- Giving the run of a request back. -/
theorem Inv.giveBack (h : Inv L s) (hr : Ready s r) (hc : r.contig = true) :
    Inv L { s with pool := ShmPool.free b s.pool r.paddr } := by
  obtain ⟨q, hq, hqp, hq0, hqu, -⟩ := hr.backed hc
  obtain ⟨hgood, hkept⟩ := ShmPool.free_spec h.pool hq hqu hq0
  rw [hqp] at hgood hkept
  refine ⟨hgood, h.window, h.bound, ?_, h.idle, h.idc, h.listed, h.once⟩
  refine h.live.repool fun g hg hgc => ?_
  obtain ⟨x, hx, hxp, hx0, hxu, hxn⟩ := h.live.backed g hg hgc
  refine ⟨x, hkept x hx hx0 hxu ?_, hxp, hx0, hxu, hxn⟩
  rw [hxp]
  exact hr.fresh hc g hg hgc

theorem Inv.place (h : Inv L s) (hr : Ready s r) (hidc : s.idCounter + 1 < 2 ^ 31)
    (hn : r.pages = pagesFor b r.size) (hp : Placeable b s r.size r.pages r.contig e) :
    Created L r.contig (s.place L r e) := by
  rw [Shm.place]
  rw [Placeable, served] at hp
  cases hc : cut (fun g => !g.used && decide (r.pages ≤ g.pages) && g.contig == r.contig) s.segs with
  | some c =>
    obtain ⟨pre, g, post⟩ := c
    have hp := hp.1 _ hc
    obtain ⟨hsegs, hg⟩ := cut_some hc
    simp only [Bool.and_eq_true, Bool.not_eq_true', decide_eq_true_eq, beq_iff_eq] at hg
    exact h.reuse hr hidc hsegs hg.1.1 hg.1.2 hg.2 hp
  | none =>
    have hp := hp.2 hc
    dsimp only
    split_ifs with hfull hcont
    · exact created_none (h.giveBack hr hcont) _
    · exact created_none h _
    · rw [not_or, Nat.not_le, Bool.not_eq_false] at hfull
      have hpages := @le_pages b r.size
      rw [← hn] at hpages
      cases hk : r.contig with
      | true =>
        -- the run of the slab bounds the size
        obtain ⟨q, hq, -, hq0, -, hqn⟩ := hr.backed hk
        have hin := (h.pool.inside hq hq0).2
        have hbase := (h.pool.inside hq hq0).1
        have hmul := Nat.mul_le_mul_right b.page hqn
        have hslab : L.slab.pages * b.page ≤ L.slabSize := by
          rw [L.pages]
          exact Nat.div_mul_le_self ..
        have hsm := L.slab_small
        have hsl := L.slab_lt
        have hap := L.apart
        have hbd := h.bound
        have htl : s.tailOf true = s.contigTail := rfl
        have hwt : winTop L true = L.contigBase + L.slabSize := rfl
        rw [hk, hwt, Nat.mod_eq_of_lt (by omega)] at hfull
        have hfit := pages_fit (tails_dvd h true) L.base_dvd
          (show s.tailOf true + r.size < L.base by omega)
        rw [← hk]
        refine h.extend hr hidc ?_ (by omega) (.inl hk)
        rw [hk, hn]
        exact hfit
      | false =>
        by_cases hroom : r.pages ≤ e.room
        · have hlt : s.tail + r.size < b.top := by
            rcases hp with hp | hp | hp | hp
            · rw [hk] at hp
              cases hp
            · exact hp
            · omega
            · rw [hfull.2] at hp
              cases hp
          have htl : s.tailOf false = s.tail := rfl
          have hwt : winTop L false = L.base + L.winSize := rfl
          rw [hk, hwt, htl, Nat.mod_eq_of_lt hlt] at hfull
          have hfit := pages_fit (tails_dvd h false) (Nat.dvd_add L.base_dvd L.win_dvd) hfull.1
          have hbase := (h.window false).le
          have hwb : winBase L false = L.base := rfl
          have hws := L.win_small
          rw [← hn] at hfit
          rw [← hk]
          refine h.extend hr hidc ?_ (by omega) (.inr hroom)
          rw [hk]
          exact hfit
        · rw [← hk]
          exact h.starved hk (by omega)

/-- `size` as `shm_alloc` rounds it. -/
def rounded (b : Build) (size : ℕ) : ℕ := b.alignUp size 32 % 2 ^ 32

/-- What `shm_alloc` asks for, unless the slab has no run for it. -/
def Sized (b : Build) (s : Shm) (size : ℕ) (contig : Bool) (e : Env) : Prop :=
  (contig = true ∧ ShmPool.best s.pool (pagesFor b (rounded b size)) = none) ∨
  (0 < rounded b size ∧ s.idCounter + 1 < 2 ^ 31 ∧
    Placeable b s (rounded b size) (pagesFor b (rounded b size)) contig e)

instance (size : ℕ) (contig : Bool) (e : Env) : Decidable (Sized b s size contig e) :=
  inferInstanceAs (Decidable (_ ∨ _))

theorem Inv.alloc {key size flag : ℕ} {contig : Bool} (h : Inv L s) (hs : Sized b s size contig e) :
    Created L contig (s.shmAlloc L key size flag contig e) := by
  simp only [shmAlloc]
  split_ifs with hc h0
  · exact created_none h _
  · subst hc
    rcases hs with ⟨-, hnone⟩ | ⟨hpos, hidc, hp⟩
    · rw [ShmPool.alloc, rounded] at *
      rw [hnone] at h0
      exact absurd rfl h0
    · rcases ShmPool.alloc_spec h.pool (pagesFor_pos (b := b) hpos) with ⟨hz, -⟩ | ⟨hz, htook⟩
      · exact absurd hz h0
      · obtain ⟨q, hq, hqp, hqu, hqn⟩ := htook.run
        have hinv : Inv L { s with pool := (ShmPool.alloc b s.pool (pagesFor b (rounded b size))).2 } := by
          refine ⟨htook.good, h.window, h.bound, ?_, h.idle, h.idc, h.listed, h.once⟩
          refine h.live.repool fun g hg hgc => ?_
          obtain ⟨x, hx, hxp, hx0, hxu, hxn⟩ := h.live.backed g hg hgc
          exact ⟨x, htook.kept x hx hx0 hxu, hxp, hx0, hxu, hxn⟩
        refine @Inv.place b L _ ⟨key, rounded b size, pagesFor b (rounded b size), flag, true, _⟩ e hinv
          ⟨pagesFor_pos hpos, fun _ => ⟨q, hq, hqp, by rwa [hqp], hqu, hqn⟩, fun _ g hg hgc he => ?_⟩
          hidc rfl hp
        -- a run that backs a segment is not free
        obtain ⟨x, hx, hxp, -, hxu, -⟩ := h.live.backed g hg hgc
        rw [htook.fresh x hx (hxp.trans he)] at hxu
        cases hxu
  · rw [Bool.not_eq_true] at hc
    subst hc
    rcases hs with ⟨hc, -⟩ | ⟨hpos, hidc, hp⟩
    · cases hc
    · exact @Inv.place b L s ⟨key, rounded b size, pagesFor b (rounded b size), flag, false, 0⟩ e h
        ⟨pagesFor_pos hpos, (by intros; contradiction), (by intros; contradiction)⟩ hidc rfl hp

/-- Whether `shm_get` goes on to create a segment. -/
def Creates (s : Shm) (key flag : ℕ) : Prop :=
  key = 0 ∨ (s.itemByKey key = none ∧ flag.testBit 9 = true)

instance (key flag : ℕ) : Decidable (Creates s key flag) := inferInstanceAs (Decidable (_ ∨ _))

/-- What a creating `shm_get` asks for. -/
def Fits (b : Build) (s : Shm) (key size flag : ℕ) (e : Env) : Prop :=
  Creates s key flag → (key = 0 → flag.testBit 24 = false) ∧ Sized b s size (flag.testBit 24) e

theorem Inv.get {key size flag : ℕ} (h : Inv L s) (hf : Fits b s key size flag e) :
    Inv L (s.shmGet L key size flag e).2 ∧ (Creates s key flag →
      Created L (flag.testBit 24) (s.shmGet L key size flag e)) := by
  rw [shmGet]
  rcases eq_or_ne key 0 with h0 | h0
  · rw [if_pos h0]
    obtain ⟨hc, hs⟩ := hf (.inl h0)
    rw [hc h0] at hs ⊢
    have hcr := @Inv.alloc b L s e key size 0o666 false h hs
    exact ⟨hcr.1, fun _ => hcr⟩
  · rw [if_neg h0]
    cases hi : s.itemByKey key with
    | some g =>
      refine ⟨h, fun hc => ?_⟩
      rcases hc with hc | ⟨hc, -⟩
      · exact absurd hc h0
      · rw [hi] at hc
        cases hc
    | none =>
      dsimp only
      split_ifs with h9
      · refine ⟨h, fun hc => ?_⟩
        rcases hc with hc | ⟨-, hc⟩
        · exact absurd hc h0
        · rw [h9] at hc
          cases hc
      · have hcr := @Inv.alloc b L s e key size (flag &&& 0o666) _ h
          (hf (.inr ⟨hi, (Bool.not_eq_false _).mp h9⟩)).2
        exact ⟨hcr.1, fun _ => hcr⟩

/-! ### Attaching -/

theorem count_swap {l : List ℕ} {k v w : ℕ} (hk : l[k]? = some v) (x : ℕ) :
    (l.set k w).count x + (v == x).toNat = l.count x + (w == x).toNat := Schemes.countP_swap hk

/-- An entry of a space is overwritten: what else it lists stays. -/
theorem mem_swap {l : List ℕ} {k v w x : ℕ} (hk : l[k]? = some v) (hv : x ≠ v) (hw : x ≠ w) :
    x ∈ l.set k w ↔ x ∈ l := by
  have hc := @count_swap l k v w hk x
  rw [beq_false_of_ne hv.symm, beq_false_of_ne hw.symm] at hc
  rw [← List.count_pos_iff, ← List.count_pos_iff]
  simp only [Bool.toNat_false] at hc
  omega

/-- A segment changes owner or references, and the spaces with it. -/
theorem Inv.rewrite {spaces : List (List ℕ)} (h : Inv L s) (g' : Seg)
    (hsegs : s.segs = pre ++ g :: post) (hu : g.used = true)
    (hg : g'.id = g.id ∧ g'.addr = g.addr ∧ g'.pages = g.pages ∧ g'.used = g.used ∧
      g'.contig = g.contig ∧ g'.phyBase = g.phyBase)
    (hrefs : g'.refs = (spaces.countP fun x => decide (g.id ∈ x) : ℕ))
    (hother : ∀ id, id ≠ 0 → id ≠ g.id → (spaces.countP fun x => decide (id ∈ x)) =
      s.spaces.countP fun x => decide (id ∈ x))
    (hlisted : ∀ l ∈ spaces, ∀ id ∈ l, id < s.idCounter)
    (honce : ∀ l ∈ spaces, ∀ id, id ≠ 0 → l.count id ≤ 1) :
    Inv L { s with segs := pre ++ g' :: post, spaces := spaces } := by
  obtain ⟨hid, haddr, hpages, hused, hcontig, hphys⟩ := hg
  have hw := h.window
  have hl := h.live
  rw [hsegs] at hw hl
  have hperm : (g :: Shm.live (pre ++ post)).Perm (Shm.live (pre ++ g :: post)) := by
    rw [live_append, live_append, live_cons, hu]
    exact List.perm_middle.symm
  have hl := hl.perm hperm
  obtain ⟨hnew, -⟩ := List.nodup_cons.mp hl.ids
  refine ⟨h.pool, ?_, h.bound, ?_, ?_, h.idc, hlisted, honce⟩
  · refine hw.replace (l := [g']) (fun x hx => ?_) ⟨haddr, ?_⟩
    · rw [List.mem_singleton.mp hx, hcontig]
    · rw [Tiles, bytes, bytes, hpages]
  · have hlive : Live s.idCounter s.pool spaces (g' :: Shm.live (pre ++ post)) := by
      refine ⟨fun x hx => ?_, ?_, fun x hx => ?_, fun x hx hxc => ?_, ?_, fun x hx => ?_⟩
      · rcases List.mem_cons.mp hx with rfl | hx
        · exact hpages ▸ hl.pos g List.mem_cons_self
        · exact hl.tail.pos x hx
      · rw [List.map_cons, hid]
        exact hl.ids
      · rcases List.mem_cons.mp hx with rfl | hx
        · exact hid ▸ hl.idLt g List.mem_cons_self
        · exact hl.tail.idLt x hx
      · rcases List.mem_cons.mp hx with rfl | hx
        · obtain ⟨q, hq, hqp, hq0, hqu, hqn⟩ := hl.backed g List.mem_cons_self (hcontig ▸ hxc)
          exact ⟨q, hq, hqp.trans hphys.symm, hq0, hqu, hpages ▸ hqn⟩
        · exact hl.tail.backed x hx hxc
      · have hp := hl.phys
        rw [List.filter_cons] at hp ⊢
        rw [hcontig]
        split_ifs at hp ⊢
        · rw [List.map_cons, hphys]
          exact hp
        · exact hp
      · rcases List.mem_cons.mp hx with rfl | hx
        · rw [hrefs, hid]
        · rw [hl.tail.refs x hx, hother x.id (hl.tail.idLt x hx).1.ne' fun he => hnew ?_]
          exact he ▸ List.mem_map_of_mem hx
    refine hlive.perm ?_
    show (Shm.live (pre ++ g' :: post)).Perm _
    rw [live_append, live_append, live_cons, hused, hu]
    exact List.perm_middle
  · intro x hx hxu
    rcases List.mem_append.mp hx with hx | hx
    · exact h.idle x (hsegs ▸ List.mem_append_left _ hx) hxu
    · rcases List.mem_cons.mp hx with rfl | hx
      · rw [hused, hu] at hxu
        cases hxu
      · exact h.idle x (hsegs ▸ List.mem_append_right _ (List.mem_cons_of_mem g hx)) hxu

/-- An entry of one space is overwritten: the other ids are listed as often as before. -/
theorem countP_spaces {spaces : List (List ℕ)} {x : List ℕ} {sp k v w id : ℕ}
    (hsp : spaces[sp]? = some x) (hk : x[k]? = some v) (hv : id ≠ v) (hw : id ≠ w) :
    ((spaces.set sp (x.set k w)).countP fun y => decide (id ∈ y)) =
      spaces.countP fun y => decide (id ∈ y) := by
  have hc := @Schemes.countP_swap _ spaces x (x.set k w) sp (fun y => decide (id ∈ y)) hsp
  rw [decide_eq_decide.mpr (mem_swap hk hv hw)] at hc
  omega

theorem Inv.listed_set {x : List ℕ} {sp k w : ℕ} (h : Inv L s) (hsp : s.spaces[sp]? = some x)
    (hw : w < s.idCounter) : ∀ l ∈ s.spaces.set sp (x.set k w), ∀ id ∈ l, id < s.idCounter := by
  intro l hl id hid
  rcases List.mem_or_eq_of_mem_set hl with hl | rfl
  · exact h.listed l hl id hid
  · rcases List.mem_or_eq_of_mem_set hid with hid | rfl
    · exact h.listed x (List.mem_of_getElem? hsp) id hid
    · exact hw

theorem Inv.once_set {x : List ℕ} {sp k v w : ℕ} (h : Inv L s) (hsp : s.spaces[sp]? = some x)
    (hk : x[k]? = some v) (hw : w = 0 ∨ w ∉ x) :
    ∀ l ∈ s.spaces.set sp (x.set k w), ∀ id, id ≠ 0 → l.count id ≤ 1 := by
  intro l hl id hid
  rcases List.mem_or_eq_of_mem_set hl with hl | rfl
  · exact h.once l hl id hid
  · have hc := @count_swap x k v w hk id
    have hone := h.once x (List.mem_of_getElem? hsp) id hid
    rcases eq_or_ne w id with rfl | hne
    · have hz := List.count_eq_zero.mpr (hw.resolve_left hid)
      have hle := Bool.toNat_le (w == w)
      omega
    · rw [beq_false_of_ne hne, Bool.toNat_false] at hc
      omega

theorem findIdx_some {x : List ℕ} {v k : ℕ} (hk : x.findIdx? (· == v) = some k) :
    x[k]? = some v := by
  obtain ⟨hlt, he, -⟩ := List.findIdx?_eq_some_iff_getElem.mp hk
  rw [List.getElem?_eq_getElem hlt, eq_of_beq he]

theorem byId_some {id : ℕ} (hc : s.byId id = some (pre, g, post)) :
    s.segs = pre ++ g :: post ∧ g.used = true ∧ g.id = id := by
  obtain ⟨hsegs, hg⟩ := cut_some hc
  rw [Bool.and_eq_true, beq_iff_eq] at hg
  exact ⟨hsegs, hg⟩

theorem Inv.mem_live (h : s.segs = pre ++ g :: post) (hu : g.used = true) : g ∈ Shm.live s.segs :=
  Shm.mem_live.mpr ⟨h ▸ by simp, hu⟩

theorem Inv.procMap {sp id : ℕ} {access ok : Bool} (h : Inv L s) :
    Inv L (s.procMap sp id access ok).2 := by
  rw [Shm.procMap]
  split
  · rename_i pre g post x hid hsp
    obtain ⟨hsegs, hu, rfl⟩ := byId_some hid
    have hm := Inv.mem_live hsegs hu
    cases hk : x.findIdx? (· == 0) with
    | none =>
      dsimp only
      split_ifs
      · exact h
      · exact h
      · exact h
    | some k =>
      dsimp only
      split_ifs with hacc hin hok
      · exact h
      · exact h
      · exact h
      · have hk := findIdx_some hk
        refine h.rewrite _ hsegs hu ⟨rfl, rfl, rfl, rfl, rfl, rfl⟩ ?_
          (fun id h0 hne => countP_spaces hsp hk h0 hne) (h.listed_set hsp (h.live.idLt g hm).2)
          (h.once_set hsp hk (.inr hin))
        have hc := @Schemes.countP_swap _ s.spaces x (x.set k g.id) sp
          (fun y => decide (g.id ∈ y)) hsp
        have hlt : k < x.length := (List.getElem?_eq_some_iff.mp hk).1
        rw [decide_eq_false hin, decide_eq_true (List.mem_set hlt g.id)] at hc
        simp only [Bool.toNat_false, Bool.toNat_true] at hc
        have hrefs := h.live.refs g hm
        dsimp only
        omega
  · exact h

/-- `free_item` of a segment nobody has attached. -/
theorem Inv.freeItem (h : Inv L s) (hsegs : s.segs = pre ++ g :: post) (hu : g.used = true)
    (hr : g.refs = 0) : Inv L (s.freeItem (b := b) pre g post) := by
  have hw := h.window
  have hl := h.live
  rw [hsegs] at hw hl
  have hidle : Idle (pre ++ post) := by
    intro x hx hxu
    refine h.idle x ?_ hxu
    rw [hsegs]
    rcases List.mem_append.mp hx with hx | hx
    · exact List.mem_append_left _ hx
    · exact List.mem_append_right _ (List.mem_cons_of_mem g hx)
  obtain ⟨hwin, hlive, hid⟩ := mergeFree_spec hw hidle hr
  have hperm : (g :: (Shm.live pre ++ Shm.live post)).Perm (Shm.live (pre ++ g :: post)) := by
    rw [live_append, live_cons, hu]
    exact List.perm_middle.symm
  obtain ⟨hl', hp'⟩ := (hl.perm hperm).freed h.pool
  refine ⟨hp', hwin, h.bound, ?_, hid, h.idc, h.listed, h.once⟩
  rw [Shm.freeItem]
  dsimp only
  rw [hlive]
  exact hl'

theorem Inv.procUnmapIt {sp : ℕ} {freeIt : Bool} (h : Inv L s) (hsegs : s.segs = pre ++ g :: post)
    (hu : g.used = true) : Inv L (s.procUnmapIt (b := b) sp freeIt pre g post) := by
  rw [Shm.procUnmapIt]
  have hm := Inv.mem_live hsegs hu
  have h0 := (h.live.idLt g hm).1.ne'
  split
  · exact h
  · rename_i x hsp
    split
    · exact h
    · rename_i k hk
      have hk := findIdx_some hk
      have hx := List.mem_of_getElem? hsp
      have hrefs := h.live.refs g hm
      -- the space listed it once, so it does not any more
      have hout : g.id ∉ x.set k 0 := by
        have hc := @count_swap x k g.id 0 hk g.id
        have hone := h.once x hx g.id h0
        rw [beq_self_eq_true, beq_false_of_ne h0.symm, Bool.toNat_true, Bool.toNat_false] at hc
        rw [← List.count_eq_zero]
        omega
      have hc := @Schemes.countP_swap _ s.spaces x (x.set k 0) sp (fun y => decide (g.id ∈ y)) hsp
      rw [decide_eq_false hout, decide_eq_true (List.mem_of_getElem? hk)] at hc
      simp only [Bool.toNat_false, Bool.toNat_true] at hc
      have hinv := h.rewrite { g with refs := g.refs - 1 } hsegs hu
        ⟨rfl, rfl, rfl, rfl, rfl, rfl⟩ (by dsimp only; omega)
        (fun id hid hne => countP_spaces hsp hk hne hid) (h.listed_set hsp (w := 0) h.idc.1)
        (h.once_set hsp hk (.inl rfl))
      dsimp only
      split_ifs with hf
      · have hfree := Inv.freeItem hinv rfl hu (by dsimp only at hf ⊢; omega)
        exact hfree
      · exact hinv

/-- The walk of `shm_release_orphans`. -/
theorem Inv.reapFrom {pid : ℤ} (n : ℕ) (pre : List Seg) {post : List Seg} {pool : List Run}
    (h : Inv L { s with segs := pre ++ post, pool := pool }) :
    Inv L { s with
      segs := (Shm.reapFrom b pid n pre post pool).1
      pool := (Shm.reapFrom b pid n pre post pool).2 } := by
  induction n generalizing pre post pool with
  | zero => exact h
  | succ n ih =>
    cases post with
    | nil =>
      rw [List.append_nil] at h
      exact h
    | cons g post =>
      rw [Shm.reapFrom]
      split_ifs with hg
      · have hm : g ∈ Shm.live (pre ++ g :: post) := Shm.mem_live.mpr ⟨by simp, hg.1⟩
        have hrefs : g.refs = 0 := by
          have := h.live.refs g hm
          omega
        exact ih _ (Inv.freeItem h rfl hg.1 hrefs)
      · refine ih _ ?_
        rw [List.append_assoc]
        exact h

/-! ### Runs -/

/-- What a call asks for. -/
def Fit (b : Build) (s : Shm) : Op → Prop
  | .get key size flag e => Fits b s (key % 2 ^ 32) (size % 2 ^ 32) (flag % 2 ^ 32) e
  | _ => True

instance : DecidablePred (Fit b s)
  | .get .. => inferInstanceAs (Decidable (_ → _))
  | .procMap .. | .procUnmap .. | .procUnmapById .. | .rmid _ | .releaseOrphans _ | .setOwner .. |
    .spawn | .write .. => inferInstanceAs (Decidable True)

/-- An address space is added. -/
theorem Inv.spawn (h : Inv L s) : Inv L { s with spaces := s.spaces ++ [List.replicate shmMax 0] } := by
  have hzero : ∀ id, id ∈ List.replicate shmMax 0 → id = 0 := fun id hid => List.eq_of_mem_replicate hid
  refine ⟨h.pool, h.window, h.bound, ?_, h.idle, h.idc, fun l hl id hid => ?_, fun l hl id hid => ?_⟩
  · refine ⟨h.live.pos, h.live.ids, h.live.idLt, h.live.backed, h.live.phys, fun g hg => ?_⟩
    have hout : ¬g.id ∈ List.replicate shmMax 0 := fun hid => (h.live.idLt g hg).1.ne' (hzero _ hid)
    rw [List.countP_append, List.countP_singleton, decide_eq_false hout, h.live.refs g hg]
    rfl
  · rcases List.mem_append.mp hl with hl | hl
    · exact h.listed l hl id hid
    · rw [List.mem_singleton.mp hl] at hid
      rw [hzero id hid]
      exact h.idc.1
  · rcases List.mem_append.mp hl with hl | hl
    · exact h.once l hl id hid
    · rw [List.mem_singleton.mp hl, List.count_eq_zero.mpr fun hin => hid (hzero id hin)]
      exact Nat.zero_le 1

theorem Inv.step {o : Op} (h : Inv L s) (hok : Fit b s o) (hst : Shm.step L s o = some s') :
    Inv L s' := by
  cases o with
  | get key size flag e =>
    cases hst
    exact (h.get hok).1
  | procMap sp id access ok =>
    cases hst
    exact h.procMap
  | procUnmap sp addr =>
    cases hst
    rw [Shm.procUnmap]
    split
    · exact h
    · rename_i hc
      obtain ⟨hsegs, hg⟩ := cut_some hc
      rw [Bool.and_eq_true] at hg
      exact h.procUnmapIt hsegs hg.1
  | procUnmapById sp id freeIt =>
    cases hst
    rw [Shm.procUnmapById]
    split
    · exact h
    · rename_i hc
      obtain ⟨hsegs, hu, -⟩ := byId_some hc
      exact h.procUnmapIt hsegs hu
  | rmid id =>
    cases hst
    rw [Shm.ctrlRmid]
    split
    · exact h
    · rename_i hc
      obtain ⟨hsegs, hu, -⟩ := byId_some hc
      split_ifs with hr
      · have hrefs := h.live.refs _ (Inv.mem_live hsegs hu)
        exact h.freeItem hsegs hu (by omega)
      · exact h
  | releaseOrphans pid =>
    cases hst
    rw [Shm.releaseOrphans]
    split_ifs
    · exact h
    · exact Inv.reapFrom _ [] h
  | setOwner id pid =>
    cases hst
    rw [Shm.setOwner]
    split
    · exact h
    · rename_i hc
      obtain ⟨hsegs, hu, -⟩ := byId_some hc
      have hrefs := h.live.refs _ (Inv.mem_live hsegs hu)
      exact h.rewrite _ hsegs hu ⟨rfl, rfl, rfl, rfl, rfl, rfl⟩ hrefs (fun _ _ _ => rfl) h.listed h.once
  | spawn =>
    cases hst
    exact h.spawn
  | write id k bytes =>
    rw [Shm.step] at hst
    split at hst
    · cases hst
    · split_ifs at hst
      cases hst
      exact ⟨h.pool, h.window, h.bound, h.live, h.idle, h.idc, h.listed, h.once⟩

theorem Inv.boot (mem : ℕ → ℕ) : Inv L (L.boot mem) := by
  refine ⟨?_, ?_, ⟨?_, Nat.le_add_right _ _⟩,
    ⟨(by intros; contradiction), .nil, (by intros; contradiction), (by intros; contradiction), .nil,
      (by intros; contradiction)⟩,
    (by rintro _ ⟨⟩), (by decide : 0 < 1 ∧ 1 < 2 ^ 31), (by intros; contradiction), (by intros; contradiction)⟩
  · rw [Layout.boot]
    dsimp only
    split_ifs with h0
    · have hpos : 0 < L.slab.pages := by
        rw [L.pages]
        exact Nat.div_pos (L.page_le.resolve_left h0.ne') Build.page_pos
      refine ⟨fun a => ?_, fun r hr _ => ?_, fun r hr q hq hr0 _ _ _ he => ?_, (by decide : 1 ≤ 128)⟩
      · have hb : L.slab.base ≠ 0 := L.slab.pos.ne'
        rw [Schemes.cover, List.countP_singleton]
        simp only [ShmPool.lies_run]
        exact if_congr (and_iff_right hb) rfl rfl
      · rw [List.mem_singleton.mp hr]
        exact hpos
      · rw [List.mem_singleton.mp hr, List.mem_singleton.mp hq] at he
        dsimp only at he
        have := Nat.mul_pos hpos (@Build.page_pos b)
        omega
    · refine ⟨fun a => ?_, (by intros; contradiction), (by intros; contradiction), by decide⟩
      have hz : L.slab.pages = 0 := by
        rw [L.pages, Nat.eq_zero_of_not_pos h0, Nat.zero_div]
      rw [hz, if_neg (by omega)]
      rfl
  · intro k
    cases k with
    | false => rfl
    | true => rfl
  · exact (Nat.le_add_right _ _).trans L.apart

/-! ### Segments never alias -/

/-- What is promised of a state. -/
structure Sound (L : Layout b) (s : Shm) : Prop where
  apart : (Shm.live s.segs).Pairwise fun g h =>
    Apart (g.addr, bytes b g) (h.addr, bytes b h) ∧ g.addr ≠ h.addr
  runs : ((Shm.live s.segs).filter Seg.contig).Pairwise fun g h =>
    Apart (g.phyBase, bytes b g) (h.phyBase, bytes b h)
  inside : ∀ g ∈ Shm.live s.segs, g.contig = true →
    L.slab.base ≤ g.phyBase ∧ g.phyBase + bytes b g ≤ L.slab.base + L.slab.pages * b.page
  pool : ShmPool.Good b L.slab s.pool
  window : Window L s.segs s.tailOf
  refs : ∀ g ∈ Shm.live s.segs, g.refs = (s.spaces.countP fun x => decide (g.id ∈ x) : ℕ)

/-- A list is related throughout when its kinds are, and each with the other. -/
theorem pairwise_of_kinds {R : Seg → Seg → Prop} (h : ∀ k, (kind k l).Pairwise R)
    (hne : ∀ g ∈ l, ∀ x ∈ l, g.contig ≠ x.contig → R g x) : l.Pairwise R := by
  induction l with
  | nil => exact .nil
  | cons g l ih =>
    refine .cons (fun x hx => ?_) (ih (fun k => ?_) fun x hx y hy =>
      hne x (List.mem_cons_of_mem g hx) y (List.mem_cons_of_mem g hy))
    · rcases eq_or_ne g.contig x.contig with he | he
      · have hg := h g.contig
        rw [kind_cons, if_pos rfl] at hg
        exact (List.pairwise_cons.mp hg).1 x (List.mem_filter.mpr ⟨hx, by rw [he, beq_self_eq_true]⟩)
      · exact hne g List.mem_cons_self x (List.mem_cons_of_mem g hx) he
    · have hk := h k
      rw [kind_cons] at hk
      split_ifs at hk
      · exact (List.pairwise_cons.mp hk).2
      · exact hk

theorem Inv.segs_apart (h : Inv L s) : s.segs.Pairwise fun g x =>
    Apart (g.addr, bytes b g) (x.addr, bytes b x) := by
  refine pairwise_of_kinds (fun k => (h.window k).apart.imp fun hle => .inl hle) ?_
  intro g hg x hx hne
  have hbd := h.bound.1
  have hin : ∀ y ∈ s.segs, if y.contig then y.addr + bytes b y ≤ L.base else L.base ≤ y.addr := by
    intro y hy
    have hw := (h.window y.contig).inside (List.mem_filter.mpr ⟨hy, beq_self_eq_true _⟩)
    split_ifs with hc
    · rw [hc] at hw
      exact hw.2.trans hbd
    · rw [Bool.eq_false_iff.mpr hc] at hw
      exact hw.1
  have hing := hin g hg
  have hinx := hin x hx
  cases hgc : g.contig with
  | false =>
    have hxc : x.contig = true := by
      rw [hgc] at hne
      exact Bool.eq_true_of_not_eq_false fun he => hne he.symm
    rw [hgc] at hing
    rw [hxc] at hinx
    exact .inr (hinx.trans hing)
  | true =>
    have hxc : x.contig = false := by
      rw [hgc] at hne
      exact Bool.eq_false_of_not_eq_true fun he => hne he.symm
    rw [hgc] at hing
    rw [hxc] at hinx
    exact .inl (hing.trans hinx)

/-- Where a segment of the slab lies. -/
theorem Inv.run (h : Inv L s) (hg : g ∈ Shm.live s.segs) (hc : g.contig = true) :
    ∃ i < s.pool.length, (ShmPool.get s.pool i).paddr = g.phyBase ∧ g.phyBase ≠ 0 ∧
      bytes b g ≤ (ShmPool.get s.pool i).pages * b.page := by
  obtain ⟨q, hq, hqp, hq0, -, hqn⟩ := h.live.backed g hg hc
  obtain ⟨i, hi, rfl⟩ := ShmPool.exists_get hq
  exact ⟨i, hi, hqp, hqp ▸ hq0, Nat.mul_le_mul_right _ hqn⟩

theorem Inv.sound (h : Inv L s) : Sound L s := by
  refine ⟨?_, ?_, fun g hg hc => ?_, h.pool, h.window, h.live.refs⟩
  · refine (h.segs_apart.sublist List.filter_sublist).imp_of_mem fun {g x} hg hx hap => ⟨hap, ?_⟩
    have hgp := Nat.mul_pos (h.live.pos g hg) (@Build.page_pos b)
    have hxp := Nat.mul_pos (h.live.pos x hx) (@Build.page_pos b)
    intro he
    simp only [Apart, bytes] at hap
    omega
  · refine (List.pairwise_map.mp h.live.phys).imp_of_mem fun {g x} hg hx hne => ?_
    obtain ⟨hg, hgc⟩ := List.mem_filter.mp hg
    obtain ⟨hx, hxc⟩ := List.mem_filter.mp hx
    obtain ⟨i, hi, hip, hi0, hin⟩ := h.run hg hgc
    obtain ⟨j, hj, hjp, hj0, hjn⟩ := h.run hx hxc
    have hij : i ≠ j := by
      rintro rfl
      exact hne (hip.symm.trans hjp)
    have hap := h.pool.apart hi hj hij (hip ▸ hi0) (hjp ▸ hj0)
    rw [hip, hjp] at hap
    exact hap.mono ⟨le_rfl, Nat.add_le_add_left hin _⟩ ⟨le_rfl, Nat.add_le_add_left hjn _⟩
  · obtain ⟨i, hi, hip, hi0, hin⟩ := h.run hg hc
    have hins := h.pool.inside (ShmPool.get_mem hi) (hip ▸ hi0)
    rw [hip] at hins
    exact ⟨hins.1, (Nat.add_le_add_left hin _).trans hins.2⟩

/-- In every run whose calls are fit segments never alias, and a segment created next is contiguous
    exactly when that was asked for. -/
theorem segments_apart {mem : ℕ → ℕ} (hr : Reach (Shm.step L) (Fit b) (L.boot mem) s) :
    Sound L s ∧ ∀ key size flag e, Fits b s key size flag e → Creates s key flag →
      ∀ id, (s.shmGet L key size flag e).1 = some id →
        ∃ g ∈ Shm.live (s.shmGet L key size flag e).2.segs, g.id = id ∧ g.contig = flag.testBit 24 := by
  have h : Inv L s := hr.inv (Inv.boot mem) fun _ _ _ hi hok hst => hi.step hok hst
  exact ⟨h.sound, fun key size flag e hf hc => ((h.get hf).2 hc).2⟩

end

/-- 4K pages and 64 bits. -/
def board : Build := ⟨12, 64, shift_4k, bits_64⟩

/-- A window of 128M at 1G and a slab of 16 pages. -/
def plain : Layout board :=
  ⟨0x40000000, 0x20000000, 0x8000000, 0x10000, ⟨0x100000, 16, by decide⟩, by decide, by decide,
    by decide, by decide, by decide, by decide, by decide, by decide, by decide, by decide⟩

/-- Memory to be had, and frames from 0x200 on. -/
def ample : Env := ⟨7, true, 1000, fun k => 0x200 + k, fun _ => true⟩

/-- A segment of each kind is created and attached; the scattered one is detached and its block cut
    for a smaller one. -/
def session : List Op :=
  [.spawn, .get 5 0x3000 0o1666 ample, .get 6 0x2000 0o100001666 ample, .procMap 0 1 true true,
    .procMap 0 2 true true, .procUnmap 0 0x40000000, .get 7 0x1000 0o1666 ample]

theorem segments_apart_session : ∃ s : Shm, s.segs.map (fun g => (g.id, g.addr, g.pages, g.used)) =
    [(3, 0x40000000, 1, true), (0, 0x40001000, 2, false), (2, 0x20000000, 2, true)] ∧
      Sound plain s := by
  have hrun : (runIf (Shm.step plain) (fun s o => decide (Fit board s o)) (plain.boot fun _ => 9)
      session).map (fun s => s.segs.map fun g => (g.id, g.addr, g.pages, g.used)) =
      some [(3, 0x40000000, 1, true), (0, 0x40001000, 2, false), (2, 0x20000000, 2, true)] := by
    decide +kernel
  obtain ⟨s, hs, hsegs⟩ := Option.map_eq_some_iff.mp hrun
  exact ⟨s, hsegs, (segments_apart (reach_of_runIf hs fun _ _ => of_decide_eq_true)).1⟩

/-- Two segments of no bytes have one address. -/
theorem empty_segments_alias : ∃ s, Reach (Shm.step plain) Free (plain.boot fun _ => 9) s ∧
    ∃ g h, s.segs = [g, h] ∧ g.used = true ∧ h.used = true ∧ g.id ≠ h.id ∧ g.addr = h.addr := by
  have hrun : (runOps (Shm.step plain) (plain.boot fun _ => 9)
      [.get 5 0 0o1666 ample, .get 6 0 0o1666 ample]).map (fun s => s.segs) =
      some [⟨1, 5, 0x40000000, 0, true, 0o666, 7, 0, false, 0⟩,
        ⟨2, 6, 0x40000000, 0, true, 0o666, 7, 0, false, 0⟩] := by decide +kernel
  obtain ⟨s, hs, hsegs⟩ := Option.map_eq_some_iff.mp hrun
  exact ⟨s, reach_of_runOps hs, _, _, hsegs, rfl, rfl, by decide, rfl⟩

end EwokOS.Memory.Shm
