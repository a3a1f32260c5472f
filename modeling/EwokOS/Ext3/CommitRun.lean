import EwokOS.Ext3.Commit
import EwokOS.Schemes.Run
import Mathlib.Data.List.Nodup

/-! What a crash leaves can be mounted.

    Between commits a file system is in one of four phases, by what the log on the device says:

        idle      nothing is replayed; the homes hold what was published last
        pending   the last transaction is replayed; its homes may not be written yet
        settled   the last transaction is replayed, onto homes that hold it already
        stuck     behind the last transaction lies a part of the next, whose commit failed

    A commit that fails in the log goes from pending to stuck, one that fails later goes to pending
    or to settled, from any phase; only from stuck none is allowed. -/

namespace EwokOS.Ext3

open Jbd Schemes

section
variable {c : Ctx} {s : Sys} {fs fs' : Fs} {j j' : Jbd} {dev : Dev} {log : ℕ → Block} {start k : ℕ}
  {q : Word} {t : Txn} {w : Contents} {l : List Block}

/-! ### Journals with the same log -/

/-- Two journals with the same geometry. -/
structure SameLog (j j' : Jbd) : Prop where
  blockSize : j'.blockSize = j.blockSize
  first : j'.first = j.first
  maxlen : j'.maxlen = j.maxlen

theorem SameLog.capacity (h : SameLog j j') : j'.capacity = j.capacity := by
  rw [Jbd.capacity, Jbd.capacity, h.first, h.maxlen]

theorem SameLog.wrap (h : SameLog j j') (a b : ℕ) : j'.wrap a b = j.wrap a b := by
  rw [Jbd.wrap, Jbd.wrap, h.capacity, h.first]

theorem SameLog.inLog (h : SameLog j j') {p : ℕ} : InLog j' p ↔ InLog j p := by
  rw [InLog, InLog, h.first, h.maxlen]

theorem SameLog.txnLogBlocks (h : SameLog j j') (t : Txn) : j'.txnLogBlocks t = j.txnLogBlocks t := by
  rw [Jbd.txnLogBlocks, Jbd.txnLogBlocks, entriesPerRevoke, entriesPerRevoke, tagsPerDesc, tagsPerDesc,
    h.blockSize]

theorem SameLog.logBlocks (h : SameLog j j') (q : Word) (t : Txn) : j'.logBlocks q t = j.logBlocks q t := by
  rw [Jbd.logBlocks, Jbd.logBlocks, bodyBlocks, bodyBlocks, revPieces, revPieces, blockPieces,
    blockPieces, entriesPerRevoke, entriesPerRevoke, tagsPerDesc, tagsPerDesc, h.blockSize]

theorem SameLog.holds (h : SameLog j j') {pos : ℕ} (hh : Holds j log pos l) : Holds j' log pos l := by
  induction l generalizing pos with
  | nil => trivial
  | cons b l ih =>
    refine ⟨hh.1, ?_⟩
    rw [h.wrap]
    exact ih hh.2

theorem SameLog.shown (h : SameLog j j') (hs : Shown j log start q t) : Shown j' log start q t := by
  refine ⟨h.inLog.mpr hs.place, ?_, ?_⟩
  · rw [h.txnLogBlocks, h.capacity]
    exact hs.fits
  · rw [h.logBlocks]
    exact h.holds hs.holds

theorem sameLog_reload (j : Jbd) (a : ℕ) (q : Word) : SameLog j (reload j a q) := ⟨rfl, rfl, rfl⟩

/-- A superblock that is published is accepted again. -/
theorem SameLog.accepted (h : SameLog j j') (ha : Accepted j) {a : ℕ} (hsb : j'.sb = publish j.sb a q)
    (hh : InLog j j'.head) : Accepted j' := by
  have hk : ∀ i, i ≠ 6 → i ≠ 7 → j'.sb i = j.sb i := fun i h6 h7 => by rw [hsb, publish_of_ne h6 h7]
  have hmax := h.maxlen
  refine ⟨h.inLog.mpr hh, ?_, ?_, ?_, ?_, ?_, ?_, ?_, ?_, ?_⟩
  · rw [Sized, h.blockSize]
    exact ha.sized
  · rw [h.first]
    exact ha.first
  · rw [hk 0 (by decide) (by decide)]
    exact ha.magic
  · rw [hk 1 (by decide) (by decide)]
    exact ha.blocktype
  · rw [hk 3 (by decide) (by decide), h.blockSize]
    exact ha.blockSize
  · rw [hk 4 (by decide) (by decide), hmax]
    exact ha.maxlen
  · rw [hk 5 (by decide) (by decide), h.first]
    exact ha.firstWord
  · rw [hmax]
    exact ha.long
  · rw [hk 1 (by decide) (by decide), hk 9 (by decide) (by decide), hk 10 (by decide) (by decide)]
    exact ha.plain

/-! ### Contents and the blocks that make them up -/

/-- The device holds these contents once the blocks `l` are written to their homes. -/
def Covers (l : List (Word × Block)) (w : Contents) (dev : Dev) : Prop :=
  ∀ b v, w b = some v → (∀ x ∈ l, x.1 = b → x.2 = v) ∧ (dev b.toNat = v ∨ ∃ x ∈ l, x.1 = b)

/-- The writes of blocks to their homes. -/
def homes (l : List (Word × Block)) : List (ℕ × Block) := l.map fun x => (x.1.toNat, x.2)

theorem mem_homes {l : List (Word × Block)} {y : ℕ × Block} (h : y ∈ homes l) {b : Word}
    (hb : y.1 = b.toNat) : (b, y.2) ∈ l := by
  obtain ⟨x, hx, rfl⟩ := List.mem_map.mp h
  have he : x.1 = b := BitVec.eq_of_toNat_eq hb
  rw [← he]
  exact hx

theorem Covers.agrees {l : List (Word × Block)} (h : Covers l w dev) : Agrees w (writeAll dev (homes l)) := by
  intro b v hb
  obtain ⟨h₁, h₂⟩ := h b v hb
  refine writeAll_eq (fun y hy he => h₁ _ (mem_homes hy he) rfl) (h₂.imp_right ?_)
  rintro ⟨x, hx, rfl⟩
  exact ⟨_, List.mem_map_of_mem hx, rfl⟩

/-- Some of the blocks may have been written already. -/
theorem Covers.take {l : List (Word × Block)} (h : Covers l w dev) (k : ℕ) :
    Covers l w (writeAll dev ((homes l).take k)) := by
  intro b v hb
  obtain ⟨h₁, h₂⟩ := h b v hb
  refine ⟨h₁, ?_⟩
  by_cases hx : ∃ x ∈ l, x.1 = b
  · exact .inr hx
  · refine .inl ?_
    rw [writeAll_of_ne fun y hy he => hx ⟨_, mem_homes (List.mem_of_mem_take hy) he, rfl⟩]
    exact h₂.resolve_right hx

/-- Other writes that leave the contents alone. -/
theorem Covers.congr {l : List (Word × Block)} {dev' : Dev} (h : Covers l w dev)
    (hd : ∀ b v, w b = some v → dev' b.toNat = dev b.toNat) : Covers l w dev' := by
  intro b v hb
  rw [hd b v hb]
  exact h b v hb

theorem puts_home (dev : Dev) (l : List (Word × Block)) (i : ℕ) :
    puts dev (l.map (home i)) = writeAll dev (homes l) := by
  rw [puts_eq, List.map_map]
  rfl

/-! ### Phases -/

/-- What is true of the cache and the log in every phase. -/
structure Base (c : Ctx) (s : Sys) : Prop where
  accepted : Accepted s.fs.j
  old : ∀ p, InLog s.fs.j p → ∀ w d, record s.fs.j.blockSize (s.fs.dev (c.map p)) w = some d →
    w.toNat ≤ s.fs.j.nextSequence.toNat
  valid : s.fs.txn.Valid c
  nodup : s.fs.revokes.Nodup
  cached : ∀ x ∈ s.fs.cache, s.now x.1 = some x.2
  home : ∀ b x, s.now b = some x → b ∉ s.fs.cached → s.fs.dev b.toNat = x
  clear : Clear c s.now ∧ Clear c s.pub ∧ Clear c s.tried

/-- Nothing is replayed. -/
structure Idle (c : Ctx) (s : Sys) : Prop where
  agrees : Agrees s.pub s.fs.dev
  log : EmptyLog c s.fs.j s.fs.dev ∨ ∃ start q, s.fs.dev (c.map 0) = publish s.fs.j.sb start q ∧
    InLog s.fs.j start ∧ q.toNat < s.fs.j.nextSequence.toNat ∧
      record s.fs.j.blockSize (s.fs.dev (c.map start)) q = none

/-- The last transaction is there to be replayed. -/
structure Showing (c : Ctx) (s : Sys) (start : ℕ) (q : Word) : Prop where
  points : s.fs.dev (c.map 0) = publish s.fs.j.sb start q
  next : s.fs.j.nextSequence = q + 1
  lt : q.toNat < s.fs.j.nextSequence.toNat
  shown : Shown s.fs.j (logOf c s.fs.dev) start q s.last
  valid : s.last.Valid c

/-- The last transaction has to be replayed, and the next goes behind it. -/
structure Pending (c : Ctx) (s : Sys) (start : ℕ) : Prop where
  head : s.fs.j.head = s.fs.j.wrap start (s.fs.j.txnLogBlocks s.last)
  fresh : ∀ p, InLog s.fs.j p →
    record s.fs.j.blockSize (s.fs.dev (c.map p)) s.fs.j.nextSequence = none
  covers : Covers s.last.blocks s.pub s.fs.dev
  apart : ∀ b v, s.now b = some v → b ∉ s.fs.cached → ∀ x ∈ s.last.blocks, x.1 ≠ b

/-- The last transaction is on its homes. -/
structure Settled (c : Ctx) (s : Sys) (start : ℕ) : Prop where
  homes : ∀ x ∈ s.last.blocks, s.fs.dev x.1.toNat = x.2
  agrees : Agrees s.pub s.fs.dev
  behind : record s.fs.j.blockSize (s.fs.dev
    (c.map (s.fs.j.wrap start (s.fs.j.txnLogBlocks s.last)))) s.fs.j.nextSequence = none
  fresh : s.fs.j.head = s.fs.j.wrap start (s.fs.j.txnLogBlocks s.last) → ∀ p, InLog s.fs.j p →
    record s.fs.j.blockSize (s.fs.dev (c.map p)) s.fs.j.nextSequence = none

/-- A part of the next transaction lies behind the last. -/
structure Stuck (c : Ctx) (s : Sys) (start : ℕ) : Prop where
  behind : record s.fs.j.blockSize (s.fs.dev
    (c.map (s.fs.j.wrap start (s.fs.j.txnLogBlocks s.last)))) s.fs.j.nextSequence ≠ none
  recovers : Recovers c s.pub s.fs.dev ∨ Recovers c s.tried s.fs.dev

/-- The invariant. -/
structure Inv (c : Ctx) (s : Sys) : Prop where
  base : Base c s
  phase : Idle c s ∨ ∃ start q, Showing c s start q ∧
    (Pending c s start ∨ Settled c s start ∨ Stuck c s start)

/-! ### What a mount makes of the phases -/

theorem sbStart_points (ha : Accepted j) (hs : InLog j start) : sbStart (publish j.sb start q) = start := by
  have h₁ := (j.sb 4).isLt
  have h₂ := ha.maxlen
  have h₃ := hs.2
  exact sbStart_publish (by omega)

/-- One transaction, with nothing complete behind it. -/
theorem recovers_quiet {revokes : List Word} (ha : Accepted j) (hw : Clear c w)
    (hsb : dev (c.map 0) = publish j.sb start q) (hs : Shown j (logOf c dev) start q t)
    (hv : t.Valid c)
    (hq : Quiet (reload j start q) (logOf c dev) (j.wrap start (j.txnLogBlocks t)) (q + 1) revokes)
    (h : ∀ l, (∀ x ∈ l, x ∈ t.blocks) → (∀ x ∈ t.blocks, x.1 ∉ revokes → x ∈ l) →
      Agrees w (writeAll dev (homes l))) : Recovers c w dev := by
  obtain ⟨ho, f, hf, hputs⟩ := puts_quiet (j := reload j start q) ha.sized ha.first
    (sbStart_points ha hs.place) sbSequence_publish hv ((sameLog_reload j start q).shown hs) hq
  refine recovers_live ha hs.place hw hsb ho ?_
  rw [hputs, puts_home]
  exact h _ (fun x hx => List.mem_of_mem_filter hx)
    fun x hx hr => List.mem_filter.mpr ⟨hx, hf x hx hr⟩

/-- Two transactions, one behind the other. -/
theorem recovers_two {t' : Txn} (ha : Accepted j) (hw : Clear c w)
    (hsb : dev (c.map 0) = publish j.sb start q) (hs : Shown j (logOf c dev) start q t)
    (hv : t.Valid c) (hv' : t'.Valid c) (hlt : q < q + 1)
    (hs' : Holds j (logOf c dev) (j.wrap start (j.txnLogBlocks t)) (j.logBlocks (q + 1) t'))
    (hfit : j.txnLogBlocks t + j.txnLogBlocks t' ≤ j.capacity)
    (hq : Quiet (reload j start q) (logOf c dev)
      (j.wrap start (j.txnLogBlocks t + j.txnLogBlocks t')) (q + 1 + 1) [])
    (h : ∀ l, (∀ x ∈ l, x ∈ t.blocks) → Covers t'.blocks w (writeAll dev (homes l))) :
    Recovers c w dev := by
  obtain ⟨ho, f, hputs⟩ := puts_two (j := reload j start q) ha.sized ha.first
    (sbStart_points ha hs.place) sbSequence_publish hlt hv hv' ((sameLog_reload j start q).shown hs)
    ((sameLog_reload j start q).holds hs') hfit hq
  refine recovers_live ha hs.place hw hsb ho ?_
  rw [hputs, puts_append, puts_home, puts_home]
  exact (h _ fun x hx => List.mem_of_mem_filter hx).agrees

theorem Idle.recovers (hb : Base c s) (h : Idle c s) : Recovers c s.pub s.fs.dev := by
  rcases h.log with he | ⟨start, q, hsb, hin, -, hnone⟩
  · exact recovers_empty hb.accepted he h.agrees
  · obtain ⟨ho, hputs⟩ := puts_gone (j := reload s.fs.j start q) (sbStart_points hb.accepted hin)
      sbSequence_publish hnone
    refine recovers_live hb.accepted hin hb.clear.2.1 hsb ho ?_
    rw [hputs]
    exact h.agrees

theorem Pending.recovers (hb : Base c s) (hs : Showing c s start q) (h : Pending c s start) :
    Recovers c s.pub s.fs.dev := by
  have hin := wrap_inLog hb.accepted.capacity_pos start (s.fs.j.txnLogBlocks s.last)
  refine recovers_quiet hb.accepted hb.clear.2.1 hs.points hs.shown hs.valid
    (quiet_none (hs.next ▸ h.fresh _ hin)) fun l hl hl' b v hv => ?_
  obtain ⟨h₁, h₂⟩ := h.covers b v hv
  refine writeAll_eq (fun y hy he => h₁ _ (hl _ (mem_homes hy he)) rfl) (h₂.imp_right ?_)
  rintro ⟨x, hx, rfl⟩
  exact ⟨_, List.mem_map_of_mem (hl' x hx List.not_mem_nil), rfl⟩

/-- Writing blocks of a transaction that is on its homes changes nothing. -/
theorem Settled.covers (h : Settled c s start) {l : List (Word × Block)}
    (hl : ∀ x ∈ l, x ∈ s.last.blocks) : Covers l s.pub s.fs.dev := by
  intro b v hv
  have hd := h.agrees b v hv
  refine ⟨?_, .inl hd⟩
  rintro x hx rfl
  rw [← hd, h.homes x (hl x hx)]

theorem Settled.recovers (hb : Base c s) (hs : Showing c s start q) (h : Settled c s start) :
    Recovers c s.pub s.fs.dev :=
  recovers_quiet hb.accepted hb.clear.2.1 hs.points hs.shown hs.valid
    (quiet_none (hs.next ▸ h.behind)) fun _ hl _ => (h.covers hl).agrees

/-- In every phase the device can be mounted, with the contents of the last commit that was published
    or of the last one that was begun. -/
theorem Inv.recovers (h : Inv c s) : Recovers c s.pub s.fs.dev ∨ Recovers c s.tried s.fs.dev := by
  rcases h.phase with hi | ⟨start, q, hs, hp | hp | hp⟩
  · exact .inl (hi.recovers h.base)
  · exact .inl (hp.recovers h.base hs)
  · exact .inl (hp.recovers h.base hs)
  · exact hp.recovers

/-! ### Writing and freeing metadata -/

theorem mem_cached {x : Word × Block} (h : x ∈ fs.cache) : x.1 ∈ fs.cached := List.mem_map_of_mem h

theorem mem_cacheSet {b : Word} {data : Block} {x : Word × Block}
    (h : x ∈ (fs.cacheSet b data).cache) : x = (b, data) ∨ (x ∈ fs.cache ∧ x.1 ≠ b) := by
  rw [Fs.cacheSet] at h
  dsimp only at h
  split_ifs at h with hb
  · obtain ⟨y, hy, rfl⟩ := List.mem_map.mp h
    split_ifs with he
    · exact .inl rfl
    · exact .inr ⟨hy, he⟩
  · rcases List.mem_cons.mp h with h | h
    · exact .inl h
    · exact .inr ⟨h, fun he => hb (he ▸ mem_cached h)⟩

theorem cached_cacheSet {b a : Word} {data : Block} :
    a ∈ (fs.cacheSet b data).cached ↔ a = b ∨ a ∈ fs.cached := by
  rw [Fs.cached, Fs.cacheSet]
  dsimp only
  split_ifs with hb
  · have hkeys : (fs.cache.map fun x => if x.1 = b then (b, data) else x).map Prod.fst = fs.cached := by
      rw [List.map_map, Fs.cached]
      refine List.map_congr_left fun x _ => ?_
      dsimp only [Function.comp]
      split_ifs with he
      · exact he.symm
      · rfl
    rw [hkeys]
    constructor
    · exact .inr
    · rintro (rfl | h)
      · exact hb
      · exact h
  · rw [List.map_cons, List.mem_cons]
    rfl

theorem mem_cacheDrop {b : Word} {x : Word × Block} (h : x ∈ (fs.cacheDrop b).cache) :
    x ∈ fs.cache ∧ x.1 ≠ b := by
  rw [Fs.cacheDrop] at h
  by_cases hb : b ∈ fs.cached
  · rw [if_pos hb] at h
    obtain ⟨h₁, h₂⟩ := List.mem_filter.mp h
    exact ⟨h₁, of_decide_eq_true h₂⟩
  · rw [if_neg hb] at h
    exact ⟨h, fun he => hb (he ▸ mem_cached h)⟩

theorem cached_cacheDrop {b a : Word} (ha : a ≠ b) : a ∈ (fs.cacheDrop b).cached ↔ a ∈ fs.cached := by
  rw [Fs.cacheDrop]
  by_cases hb : b ∈ fs.cached
  · rw [if_pos hb, Fs.cached, Fs.cached, List.mem_map, List.mem_map]
    constructor
    · rintro ⟨x, hx, he⟩
      exact ⟨x, List.mem_of_mem_filter hx, he⟩
    · rintro ⟨x, hx, he⟩
      exact ⟨x, List.mem_filter.mpr ⟨hx, decide_eq_true (he ▸ ha)⟩, he⟩
  · rw [if_neg hb]

/-- What is revoked when a block is freed, and only once. -/
theorem revokes_cacheDrop {b : Word} (h : fs.revokes.Nodup) : (fs.cacheDrop b).revokes.Nodup ∧
    ∀ a ∈ (fs.cacheDrop b).revokes, a ∈ fs.revokes ∨ a = b := by
  rw [Fs.cacheDrop]
  split_ifs with hb hr
  · exact ⟨h, fun a ha => .inl ha⟩
  · refine ⟨List.nodup_append.mpr ⟨h, List.nodup_singleton b, ?_⟩, fun a ha => ?_⟩
    · rintro a ha _ hb' rfl
      rw [List.mem_singleton] at hb'
      exact hr (hb' ▸ ha)
    · rcases List.mem_append.mp ha with ha | ha
      · exact .inl ha
      · exact .inr (List.mem_singleton.mp ha)
  · exact ⟨h, fun a ha => .inl ha⟩

/-- The phases do not hang on the cache, but for what it lacks while a transaction is pending. -/
theorem Inv.congr {s' : Sys} (h : Inv c s) (hb : Base c s') (hd : s'.fs.dev = s.fs.dev)
    (hj : s'.fs.j = s.fs.j) (hp : s'.pub = s.pub) (ht : s'.tried = s.tried) (hl : s'.last = s.last)
    (hn : ∀ b v, s'.now b = some v → b ∉ s'.fs.cached → s.now b = some v ∧ b ∉ s.fs.cached) :
    Inv c s' := by
  refine ⟨hb, ?_⟩
  rcases h.phase with ⟨h₁, h₂⟩ | ⟨start, q, ⟨g₁, g₂, g₃, g₄, g₅⟩, hcase⟩
  · left
    rw [← hd, ← hp, ← hj] at *
    exact ⟨h₁, h₂⟩
  · right
    refine ⟨start, q, ?_, ?_⟩
    · rw [← hd, ← hj, ← hl] at *
      exact ⟨g₁, g₂, g₃, g₄, g₅⟩
    · rcases hcase with ⟨p₁, p₂, p₃, p₄⟩ | ⟨p₁, p₂, p₃, p₄⟩ | ⟨p₁, p₂⟩
      · refine .inl ⟨?_, ?_, ?_, fun b v hv hc x hx => ?_⟩
        · rw [hj, hl]
          exact p₁
        · rw [hj, hd]
          exact p₂
        · rw [hl, hp, hd]
          exact p₃
        · rw [hl] at hx
          obtain ⟨hv', hc'⟩ := hn b v hv hc
          exact p₄ b v hv' hc' x hx
      · refine .inr (.inl ?_)
        rw [← hd, ← hj, ← hl, ← hp] at *
        exact ⟨p₁, p₂, p₃, p₄⟩
      · refine .inr (.inr ?_)
        rw [← hd, ← hj, ← hl, ← hp, ← ht] at *
        exact ⟨p₁, p₂⟩

theorem Inv.set {b : Word} {data : Block} (h : Inv c s) (hc : Careful c s (.set b data)) :
    Inv c (step c s (.set b data)) := by
  obtain ⟨hb, hd⟩ : Base c s ∧ s.fs.txn.Valid c := ⟨h.base, h.base.valid⟩
  -- what is true of the new block and of every cached block is true of the cache
  have hall : ∀ {P : Word × Block → Prop}, P (b, data) → (∀ x ∈ s.fs.cache, P x) →
      ∀ x ∈ (s.fs.cacheSet b data).cache, P x := by
    intro P h₀ h₁ x hx
    rcases mem_cacheSet hx with rfl | ⟨hx, -⟩
    · exact h₀
    · exact h₁ x hx
  have hnow : ∀ a v, Function.update s.now b (some data) a = some v →
      a ∉ (s.fs.cacheSet b data).cached → s.now a = some v ∧ a ∉ s.fs.cached := by
    intro a v hv ha
    rw [cached_cacheSet, not_or] at ha
    rw [Function.update_of_ne ha.1] at hv
    exact ⟨hv, ha.2⟩
  have hbase : Base c (step c s (.set b data)) := by
    refine ⟨hb.accepted, hb.old, ⟨?_, ?_, ?_, ?_⟩, hb.nodup.erase b, ?_, ?_, ?_⟩
    · exact hall hc.1 hd.nonzero
    · exact hall hc.2.1 hd.inRange
    · exact hall hc.2.2 hd.outside
    · intro x hx hr
      have hr' := (hb.nodup.mem_erase_iff).mp hr
      rcases mem_cacheSet hx with rfl | ⟨hx, -⟩
      · exact hr'.1 rfl
      · exact hd.unrevoked x hx hr'.2
    · intro x hx
      rcases mem_cacheSet hx with rfl | ⟨hx, hne⟩
      · exact Function.update_self ..
      · exact (Function.update_of_ne hne _ _).trans (hb.cached x hx)
    · intro a v hv ha
      obtain ⟨hv', ha'⟩ := hnow a v hv ha
      exact hb.home a v hv' ha'
    · refine ⟨fun a v hv i => ?_, hb.clear.2⟩
      by_cases ha : a = b
      · rw [ha]
        exact hc.2.2 i
      · exact hb.clear.1 a v ((Function.update_of_ne ha _ _).symm.trans hv) i
  exact h.congr hbase rfl rfl rfl rfl rfl hnow

theorem Inv.drop {b : Word} (h : Inv c s) : Inv c (step c s (.drop b)) := by
  obtain ⟨hb, hd⟩ : Base c s ∧ s.fs.txn.Valid c := ⟨h.base, h.base.valid⟩
  obtain ⟨hnd, hrev⟩ := revokes_cacheDrop (b := b) hb.nodup
  have hne : ∀ a v, Function.update s.now b none a = some v → a ≠ b ∧ s.now a = some v := by
    intro a v hv
    by_cases ha : a = b
    · rw [ha, Function.update_self] at hv
      cases hv
    · rw [Function.update_of_ne ha] at hv
      exact ⟨ha, hv⟩
  have hnow : ∀ a v, Function.update s.now b none a = some v → a ∉ (s.fs.cacheDrop b).cached →
      s.now a = some v ∧ a ∉ s.fs.cached := by
    intro a v hv ha
    obtain ⟨hab, hv'⟩ := hne a v hv
    exact ⟨hv', fun hc => ha ((cached_cacheDrop hab).mpr hc)⟩
  have hdev : (s.fs.cacheDrop b).dev = s.fs.dev ∧ (s.fs.cacheDrop b).j = s.fs.j := by
    rw [Fs.cacheDrop]
    split_ifs <;> exact ⟨rfl, rfl⟩
  have hbase : Base c (step c s (.drop b)) := by
    refine ⟨?_, ?_, ⟨?_, ?_, ?_, ?_⟩, hnd, ?_, ?_, ?_⟩
    · show Accepted (s.fs.cacheDrop b).j
      rw [hdev.2]
      exact hb.accepted
    · show ∀ p, InLog (s.fs.cacheDrop b).j p → ∀ w d, record (s.fs.cacheDrop b).j.blockSize
        ((s.fs.cacheDrop b).dev (c.map p)) w = some d → w.toNat ≤ (s.fs.cacheDrop b).j.nextSequence.toNat
      rw [hdev.1, hdev.2]
      exact hb.old
    · exact fun x hx => hd.nonzero x (mem_cacheDrop hx).1
    · exact fun x hx => hd.inRange x (mem_cacheDrop hx).1
    · exact fun x hx => hd.outside x (mem_cacheDrop hx).1
    · intro x hx hr
      obtain ⟨hx', hxb⟩ := mem_cacheDrop hx
      rcases hrev x.1 hr with hr | hr
      · exact hd.unrevoked x hx' hr
      · exact hxb hr
    · intro x hx
      obtain ⟨hx', hxb⟩ := mem_cacheDrop hx
      exact (Function.update_of_ne hxb _ _).trans (hb.cached x hx')
    · intro a v hv ha
      obtain ⟨hv', ha'⟩ := hnow a v hv ha
      show (s.fs.cacheDrop b).dev a.toNat = v
      rw [hdev.1]
      exact hb.home a v hv' ha'
    · exact ⟨fun a v hv => hb.clear.1 a v (hne a v hv).2, hb.clear.2⟩
  exact h.congr hbase hdev.1 hdev.2 rfl rfl rfl hnow

/-! ### A commit that fails before it is published -/

/-- Where the next transaction may go without touching the last but at its first block. -/
theorem hit_or_clear {head e m n : ℕ} (hin : InLog j start) (hhead : head = j.wrap start e)
    (he : e < j.capacity) (hap : e = 0 ∨ n ≤ e) : (∃ i < m, start = j.wrap head i) ∨
      ((∀ a < n, ∀ i < m, j.wrap start a ≠ j.wrap head i) ∧ (m = 0 ∨ (n ≤ e ∧ e + m ≤ j.capacity))) := by
  rcases Nat.eq_zero_or_pos m with rfl | hm
  · exact .inr ⟨fun a _ i hi => absurd hi (Nat.not_lt_zero i), .inl rfl⟩
  · rcases hap with rfl | hap
    · exact .inl ⟨0, hm, by rw [hhead, wrap_wrap, wrap_zero hin]⟩
    · rcases Nat.lt_or_ge j.capacity (e + m) with hlt | hge
      · refine .inl ⟨j.capacity - e, by omega, ?_⟩
        rw [hhead, wrap_wrap, Nat.add_sub_cancel' (by omega), wrap_round hin]
      · refine .inr ⟨fun a ha i hi heq => ?_, .inr ⟨hap, hge⟩⟩
        rw [hhead, wrap_wrap] at heq
        have := wrap_inj hin (by omega) (by omega) heq
        omega

/-- Some blocks have been written to the log, and nothing else has been done but perhaps to change the
    superblock in memory. -/
structure Logged (c : Ctx) (fs fs' : Fs) (l : List Block) : Prop where
  dev : fs'.dev = writeAll fs.dev (fs.j.logWrites c fs.j.head l)
  same : SameLog fs.j fs'.j
  head : fs'.j.head = fs.j.head
  next : fs'.j.nextSequence = fs.j.nextSequence
  sb : ∀ a q, publish fs'.j.sb a q = publish fs.j.sb a q
  accepted : Accepted fs'.j
  cache : fs'.cache = fs.cache
  revokes : fs'.revokes = fs.revokes

theorem length_logged (h : Accepted fs.j) : (fs.logged c).length = fs.j.txnLogBlocks fs.txn := by
  rw [Fs.logged, length_logWrites, length_txnBlocks h.sized]

theorem logged_jbdCommit (ha : Accepted fs.j) (hk : k ≤ (fs.logged c).length) :
    Logged c fs (fs.jbdCommit c k) ((fs.j.txnBlocks fs.txn).take k) := by
  rw [Fs.jbdCommit]
  split_ifs with h₁ h₂
  · refine ⟨?_, ⟨rfl, rfl, rfl⟩, rfl, rfl, fun _ _ => rfl, ha, rfl, rfl⟩
    rw [← logWrites_take]
    rfl
  · refine ⟨?_, ⟨rfl, rfl, rfl⟩, rfl, rfl, fun a q => publish_publish .., ?_, rfl, rfl⟩
    · rw [← logWrites_take]
      show writeAll fs.dev (fs.logged c) = writeAll fs.dev ((fs.logged c).take k)
      rw [List.take_of_length_le (Nat.le_of_eq h₂.symm)]
    · exact SameLog.accepted (j := fs.j) ⟨rfl, rfl, rfl⟩ ha rfl ha.head
  · omega

section
variable (hb : Base c s) (hl : Logged c s.fs fs' l) (hsub : ∀ b ∈ l, b ∈ s.fs.j.txnBlocks s.fs.txn)
  (hlen : l.length ≤ s.fs.j.capacity)
include hb hl

/-- Nothing outside the log is changed. -/
theorem Logged.outside {b : ℕ} (h : ∀ i, c.map i ≠ b) : fs'.dev b = s.fs.dev b := by
  rw [hl.dev]
  exact written_outside h hb.accepted.head

theorem Logged.superblock : fs'.dev (c.map 0) = s.fs.dev (c.map 0) := by
  rw [hl.dev]
  refine written_other hb.accepted.head fun i _ he => ?_
  have h₁ := (wrap_inLog hb.accepted.capacity_pos s.fs.j.head i).1
  have h₂ := hb.accepted.first
  omega

theorem Logged.agrees (hw : Clear c w) (h : Agrees w s.fs.dev) : Agrees w fs'.dev := by
  intro b v hv
  rw [hl.outside hb (hw b v hv)]
  exact h b v hv

/-- The last transaction is still there if none of its blocks was written to. -/
theorem Showing.logged (h : Showing c s start q)
    (hne : ∀ a < s.fs.j.txnLogBlocks s.last, ∀ i < l.length,
      s.fs.j.wrap start a ≠ s.fs.j.wrap s.fs.j.head i) :
    Showing c { s with fs := fs', tried := s.now } start q := by
  refine ⟨(hl.superblock hb).trans (h.points.trans (hl.sb start q).symm), ?_, ?_, ?_, h.valid⟩
  · exact hl.next.trans h.next
  · dsimp only
    rw [hl.next]
    exact h.lt
  · refine hl.same.shown ⟨h.shown.place, h.shown.fits, ?_⟩
    refine h.shown.holds.congr_at h.shown.place fun a ha => ?_
    rw [length_logBlocks hb.accepted.sized] at ha
    dsimp only
    rw [hl.dev]
    exact written_other hb.accepted.head (hne a ha)

include hsub hlen

/-- A block of the log is one that was written, with the number of the transaction, or an old one. -/
theorem Logged.record_cases (p : ℕ) {w : Word} {d : Rec}
    (h : record s.fs.j.blockSize (fs'.dev (c.map p)) w = some d) :
    (fs'.dev (c.map p) ∈ l ∧ w = s.fs.j.nextSequence) ∨
      record s.fs.j.blockSize (s.fs.dev (c.map p)) w = some d := by
  have hcase : logOf c fs'.dev p ∈ l ∨ logOf c fs'.dev p = logOf c s.fs.dev p := by
    rw [hl.dev]
    exact written_cases hb.accepted.head hlen
  rcases hcase with hmem | hsame
  · have hmem' := hsub _ hmem
    rw [txnBlocks_eq_logBlocks] at hmem'
    exact .inl ⟨hmem, record_logBlocks hb.accepted.sized hmem' h⟩
  · rw [logOf, logOf] at hsame
    exact .inr (hsame ▸ h)

theorem Base.logged : Base c { s with fs := fs', tried := s.now } := by
  refine ⟨hl.accepted, ?_, ?_, ?_, ?_, ?_, hb.clear.1, hb.clear.2.1, hb.clear.1⟩
  · intro p hp w d h
    dsimp only at hp h ⊢
    rw [hl.next]
    rw [hl.same.blockSize] at h
    rcases hl.record_cases hb hsub hlen p h with ⟨-, he⟩ | h
    · exact Nat.le_of_eq (congrArg BitVec.toNat he)
    · exact hb.old p (hl.same.inLog.mp hp) w d h
  · have htxn : fs'.txn = s.fs.txn := by rw [Fs.txn, Fs.txn, hl.cache, hl.revokes]
    rw [htxn]
    exact hb.valid
  · rw [hl.revokes]
    exact hb.nodup
  · rw [hl.cache]
    exact hb.cached
  · intro b v hv hc
    rw [Fs.cached, hl.cache] at hc
    exact (hl.outside hb (hb.clear.1 b v hv)).trans (hb.home b v hv hc)

theorem Idle.logged (h : Idle c s) : Idle c { s with fs := fs', tried := s.now } := by
  refine ⟨hl.agrees hb hb.clear.2.1 h.agrees, ?_⟩
  rcases h.log with ⟨q, hq⟩ | ⟨start, q, hsb, hin, hlt, hnone⟩
  · exact .inl ⟨q, (hl.superblock hb).trans (hq.trans (hl.sb 0 q).symm)⟩
  · refine .inr ⟨start, q, (hl.superblock hb).trans (hsb.trans (hl.sb start q).symm),
      hl.same.inLog.mpr hin, ?_, ?_⟩
    · dsimp only
      rw [hl.next]
      exact hlt
    · rw [Option.eq_none_iff_forall_ne_some]
      intro d hd
      dsimp only at hd
      rw [hl.same.blockSize] at hd
      rcases hl.record_cases hb hsub hlen start hd with ⟨-, rfl⟩ | hd
      · exact absurd hlt (Nat.lt_irrefl _)
      · rw [hnone] at hd
        cases hd

/-- A part of the next transaction, behind the last. -/
theorem stuck_of (h : Showing c s start q)
    (h' : Showing c { s with fs := fs', tried := s.now } start q)
    (hhead : s.fs.j.head = s.fs.j.wrap start (s.fs.j.txnLogBlocks s.last))
    (hpre : ∃ k ≤ (s.fs.j.txnBlocks s.fs.txn).length, 0 < k ∧ l = (s.fs.j.txnBlocks s.fs.txn).take k)
    (hfit : s.fs.j.txnLogBlocks s.last + l.length ≤ s.fs.j.capacity)
    (hnum : s.fs.j.nextSequence.toNat + 1 < 2 ^ 32)
    (hfresh : ∀ p, InLog s.fs.j p →
      record s.fs.j.blockSize (s.fs.dev (c.map p)) s.fs.j.nextSequence = none)
    (hpub : ∀ l', (∀ x ∈ l', x ∈ s.last.blocks) →
      (∀ x ∈ s.last.blocks, x.1 ∉ s.fs.revokes → x ∈ l') → Agrees s.pub (writeAll fs'.dev (homes l')))
    (hnow : ∀ b v, s.now b = some v → b ∉ s.fs.cached → ∀ x ∈ s.last.blocks, x.1 = b → x.2 = v) :
    Stuck c { s with fs := fs', tried := s.now } start := by
  have hb' := hb.logged hl hsub hlen
  have hcap := hb.accepted.capacity_pos
  obtain ⟨k, hk, hk0, hlk⟩ := hpre
  rw [txnBlocks_eq_logBlocks] at hk hlk
  obtain ⟨b, l', d, hcons, hrec⟩ := logBlocks_cons hb.accepted.sized s.fs.j.nextSequence s.fs.txn
  have hlog : logOf c fs'.dev = logOf c (writeAll s.fs.dev (s.fs.j.logWrites c s.fs.j.head l)) := by
    rw [hl.dev]
  refine ⟨?_, ?_⟩
  · -- the first block of the part lies behind the last transaction
    obtain ⟨k, rfl⟩ : ∃ i, k = i + 1 := ⟨k - 1, by omega⟩
    rw [hcons, List.take_succ_cons] at hlk
    have hfirst : fs'.dev (c.map s.fs.j.head) = b := by
      have hw : logOf c (writeAll s.fs.dev (s.fs.j.logWrites c s.fs.j.head (b :: l'.take k)))
          s.fs.j.head = b := written_head hb.accepted.head (hlk ▸ hlen)
      rw [← hlk, ← hlog] at hw
      exact hw
    dsimp only
    rw [hl.same.blockSize, hl.same.txnLogBlocks, hl.same.wrap, hl.next, ← hhead, hfirst, hrec]
    exact nofun
  · dsimp only
    have hrecord : ∀ p, InLog s.fs.j p → ∀ d,
        record s.fs.j.blockSize (fs'.dev (c.map p)) s.fs.j.nextSequence = some d → fs'.dev (c.map p) ∈ l := by
      intro p hp d hd
      rcases hl.record_cases hb hsub hlen p hd with ⟨hmem, -⟩ | hd
      · exact hmem
      · rw [hfresh p hp] at hd
        cases hd
    have hins : InLog fs'.j (fs'.j.wrap start (fs'.j.txnLogBlocks s.last)) :=
      wrap_inLog hl.accepted.capacity_pos _ _
    rcases Nat.lt_or_ge k (s.fs.j.logBlocks s.fs.j.nextSequence s.fs.txn).length with hlt | hge
    · -- without its commit block
      refine .inl (recovers_quiet hl.accepted hb.clear.2.1 h'.points h'.shown h'.valid
        (quiet_body hins ?_) hpub)
      intro p hp d hd
      have hd' : record s.fs.j.blockSize (fs'.dev (c.map p)) s.fs.j.nextSequence = some d := by
        rw [h.next, ← hl.same.blockSize]
        exact hd
      have hmem := hrecord p (hl.same.inLog.mp hp) d hd'
      rw [hlk, logBlocks, List.take_append_of_le_length (by
        rw [logBlocks, List.length_append, List.length_singleton] at hlt
        omega)] at hmem
      exact (record_body hb.accepted.sized (List.mem_of_mem_take hmem) hd').2
    · -- with it
      have hall : l = s.fs.j.logBlocks s.fs.j.nextSequence s.fs.txn := by
        rw [hlk, List.take_of_length_le hge]
      have hwhole : l.length = s.fs.j.txnLogBlocks s.fs.txn := by
        rw [hall, length_logBlocks hb.accepted.sized]
      have hadd : (s.fs.j.nextSequence + 1).toNat = s.fs.j.nextSequence.toNat + 1 := by
        rw [BitVec.toNat_add]
        exact Nat.mod_eq_of_lt hnum
      refine .inr (recovers_two hl.accepted hb.clear.1 h'.points h'.shown h'.valid hb.valid
        ?_ ?_ ?_ (quiet_body (wrap_inLog hl.accepted.capacity_pos _ _) ?_) fun l' hl' => ?_)
      · rw [← h.next]
        exact h.lt
      · rw [hl.same.wrap, hl.same.txnLogBlocks, hl.same.logBlocks, ← h.next, ← hhead, hlog, hall]
        exact hl.same.holds (holds_written hb.accepted.head (hall ▸ hlen))
      · rw [hl.same.txnLogBlocks, hl.same.txnLogBlocks, hl.same.capacity, ← hwhole]
        exact hfit
      · intro p hp d hd
        have hle := hb'.old p hp _ d hd
        dsimp only at hle
        rw [hl.next, ← h.next, hadd] at hle
        omega
      · intro b v hv
        refine ⟨fun x hx he => ?_, ?_⟩
        · have hx' := hb.cached x hx
          rw [he, hv] at hx'
          exact (Option.some.inj hx').symm
        · by_cases hc : b ∈ s.fs.cached
          · obtain ⟨x, hx, he⟩ := List.mem_map.mp hc
            exact .inr ⟨x, hx, he⟩
          · refine .inl (writeAll_eq (fun y hy he => ?_) (.inl ?_))
            · exact hnow b v hv hc _ (hl' _ (mem_homes hy he)) rfl
            · exact (hl.outside hb (hb.clear.1 b v hv)).trans (hb.home b v hv hc)

theorem Settled.logged (h : Showing c s start q) (hp : Settled c s start)
    (hpre : ∃ k ≤ (s.fs.j.txnBlocks s.fs.txn).length, 0 < k ∧ l = (s.fs.j.txnBlocks s.fs.txn).take k)
    (hnum : s.fs.j.nextSequence.toNat + 1 < 2 ^ 32)
    (hap : ∀ k, 0 < k → k < s.fs.j.txnLogBlocks s.last → s.fs.j.head ≠ s.fs.j.wrap start k) :
    Inv c { s with fs := fs', tried := s.now } := by
  have hb' := hb.logged hl hsub hlen
  obtain ⟨e, he, hhead⟩ := wrap_reach h.shown.place hb.accepted.head
  have hap' : e = 0 ∨ s.fs.j.txnLogBlocks s.last ≤ e := by
    rcases Nat.eq_zero_or_pos e with h0 | h0
    · exact .inl h0
    · rcases Nat.lt_or_ge e (s.fs.j.txnLogBlocks s.last) with hlt | hge
      · exact absurd hhead (hap e h0 hlt)
      · exact .inr hge
  refine ⟨hb', ?_⟩
  rcases hit_or_clear (m := l.length) h.shown.place hhead he hap' with ⟨i, hi, hhit⟩ | ⟨hclear, hroom⟩
  · -- the first block of the last transaction has been written to
    refine .inl ⟨hl.agrees hb hb.clear.2.1 hp.agrees, .inr ⟨start, q,
      (hl.superblock hb).trans (h.points.trans (hl.sb start q).symm), hl.same.inLog.mpr h.shown.place, ?_, ?_⟩⟩
    · dsimp only
      rw [hl.next]
      exact h.lt
    · have hmem : fs'.dev (c.map start) ∈ l := by
        have hw : logOf c (writeAll s.fs.dev (s.fs.j.logWrites c s.fs.j.head l))
            (s.fs.j.wrap s.fs.j.head i) ∈ l := written_mem hb.accepted.head hlen hi
        rw [← hl.dev, ← hhit] at hw
        exact hw
      have hmem' := hsub _ hmem
      rw [txnBlocks_eq_logBlocks] at hmem'
      rw [Option.eq_none_iff_forall_ne_some]
      intro d hd
      dsimp only at hd
      rw [hl.same.blockSize] at hd
      have hlt := h.lt
      rw [record_logBlocks hb.accepted.sized hmem' hd] at hlt
      exact Nat.lt_irrefl _ hlt
  · have hshow := h.logged hb hl hclear
    have hhomes : ∀ x ∈ s.last.blocks, fs'.dev x.1.toNat = x.2 := by
      intro x hx
      rw [hl.outside hb (h.valid.outside x hx)]
      exact hp.homes x hx
    have hagrees := hl.agrees hb hb.clear.2.1 hp.agrees
    refine .inr ⟨start, q, hshow, ?_⟩
    obtain ⟨hle, hroom⟩ := hroom.resolve_left (by
      obtain ⟨k, hk, hk0, hlk⟩ := hpre
      rw [hlk, List.length_take]
      omega)
    rcases Nat.lt_or_ge (s.fs.j.txnLogBlocks s.last) e with hlt | hge
    · -- the writing began further on
      have hne : s.fs.j.head ≠ s.fs.j.wrap start (s.fs.j.txnLogBlocks s.last) := by
        intro heq
        rw [hhead] at heq
        have := wrap_inj h.shown.place he (by omega) heq
        omega
      refine .inr (.inl ⟨hhomes, hagrees, ?_, fun hh => ?_⟩)
      · dsimp only
        rw [hl.same.blockSize, hl.same.wrap, hl.same.txnLogBlocks, hl.next, hl.dev]
        have hother : logOf c (writeAll s.fs.dev (s.fs.j.logWrites c s.fs.j.head l))
            (s.fs.j.wrap start (s.fs.j.txnLogBlocks s.last)) =
            logOf c s.fs.dev (s.fs.j.wrap start (s.fs.j.txnLogBlocks s.last)) := by
          refine written_other hb.accepted.head fun i hi heq => ?_
          rw [hhead, wrap_wrap] at heq
          have := wrap_inj h.shown.place (by omega) (by omega) heq
          omega
        rw [logOf, logOf] at hother
        rw [hother]
        exact hp.behind
      · dsimp only at hh
        rw [hl.head, hl.same.wrap, hl.same.txnLogBlocks] at hh
        exact absurd hh hne
    · have heq : e = s.fs.j.txnLogBlocks s.last := by omega
      rw [heq] at hhead hroom
      refine .inr (.inr (stuck_of hb hl hsub hlen h hshow hhead hpre hroom hnum (hp.fresh hhead) ?_ ?_))
      · intro l' hl' _ b v hv
        have hd := hagrees b v hv
        refine writeAll_eq (fun y hy he => ?_) (.inl hd)
        have hx := hhomes _ (hl' _ (mem_homes hy he))
        dsimp only at hx
        rw [← hx]
        exact hd
      · intro b v hv hc x hx he
        rw [← hp.homes x hx, he]
        exact hb.home b v hv hc

theorem Pending.logged (h : Showing c s start q) (hp : Pending c s start)
    (hpre : ∃ k ≤ (s.fs.j.txnBlocks s.fs.txn).length, 0 < k ∧ l = (s.fs.j.txnBlocks s.fs.txn).take k)
    (hnum : s.fs.j.nextSequence.toNat + 1 < 2 ^ 32)
    (hfit : s.fs.j.txnLogBlocks s.last + l.length ≤ s.fs.j.capacity)
    (hrev : ∀ x ∈ s.last.blocks, x.1 ∉ s.fs.revokes) :
    Inv c { s with fs := fs', tried := s.now } := by
  have hshow := h.logged hb hl fun a ha i hi heq => by
    rw [hp.head, wrap_wrap] at heq
    have := wrap_inj h.shown.place (by omega) (by omega) heq
    omega
  refine ⟨hb.logged hl hsub hlen, .inr ⟨start, q, hshow, .inr (.inr ?_)⟩⟩
  refine stuck_of hb hl hsub hlen h hshow hp.head hpre hfit hnum hp.fresh ?_ ?_
  · intro l' hl' hall b v hv
    obtain ⟨h₁, h₂⟩ := hp.covers b v hv
    refine writeAll_eq (fun y hy he => h₁ _ (hl' _ (mem_homes hy he)) rfl) ?_
    rw [hl.outside hb (hb.clear.2.1 b v hv)]
    refine h₂.imp_right ?_
    rintro ⟨x, hx, rfl⟩
    exact ⟨_, List.mem_map_of_mem (hall x hx (hrev x hx)), rfl⟩
  · intro b v hv hc x hx he
    exact absurd he (hp.apart b v hv hc x hx)

end

/-- A pending transaction that is on its homes is settled. -/
theorem Pending.settled (hb : Base c s) (hp : Pending c s start)
    (h : ∀ x ∈ s.last.blocks, s.fs.dev x.1.toNat = x.2) : Settled c s start := by
  refine ⟨h, fun b v hv => ?_, hp.fresh _ (wrap_inLog hb.accepted.capacity_pos _ _), fun _ => hp.fresh⟩
  obtain ⟨h₁, h₂⟩ := hp.covers b v hv
  rcases h₂ with h₂ | ⟨x, hx, rfl⟩
  · exact h₂
  · rw [h x hx]
    exact h₁ x hx rfl

/-! ### A commit that is published -/

/-- What the cache holds and what the homes hold make up the contents. -/
theorem Base.covers (hb : Base c s) : Covers s.fs.cache s.now s.fs.dev := by
  intro b v hv
  refine ⟨fun x hx he => ?_, ?_⟩
  · have hx' := hb.cached x hx
    rw [he, hv] at hx'
    exact (Option.some.inj hx').symm
  · by_cases hc : b ∈ s.fs.cached
    · obtain ⟨x, hx, he⟩ := List.mem_map.mp hc
      exact .inr ⟨x, hx, he⟩
    · exact .inl (hb.home b v hv hc)

/-- The state once the superblock of a commit has reached the device. -/
def publishedAs (s : Sys) (fs : Fs) : Sys :=
  { s with fs := fs, tried := s.now, pub := s.now, last := s.fs.txn }

theorem Inv.published (hb : Base c s) (hfit : ¬s.fs.j.capacity < s.fs.j.txnLogBlocks s.fs.txn)
    (hnum : s.fs.j.nextSequence.toNat + 1 < 2 ^ 32) (hk : (s.fs.logged c).length < k) :
    Base c (publishedAs s (s.fs.jbdCommit c k)) ∧
      Showing c (publishedAs s (s.fs.jbdCommit c k)) s.fs.j.head s.fs.j.nextSequence ∧
        Pending c (publishedAs s (s.fs.jbdCommit c k)) s.fs.j.head := by
  have ha := hb.accepted
  have hlen : (s.fs.j.txnBlocks s.fs.txn).length ≤ s.fs.j.capacity := by
    rw [length_txnBlocks ha.sized]
    omega
  have hadd : (s.fs.j.nextSequence + 1).toNat = s.fs.j.nextSequence.toNat + 1 := by
    rw [BitVec.toNat_add]
    exact Nat.mod_eq_of_lt hnum
  obtain ⟨fs', hfs⟩ : ∃ fs', fs' = s.fs.jbdCommit c k := ⟨_, rfl⟩
  rw [← hfs]
  rw [Fs.jbdCommit, if_neg (by omega), if_neg (by omega)] at hfs
  have hdev : fs'.dev = Function.update (writeAll s.fs.dev (s.fs.logged c)) (c.map 0) s.fs.published := by
    rw [hfs]
  have hcache : fs'.cache = s.fs.cache := by rw [hfs]
  have hrevokes : fs'.revokes = s.fs.revokes := by rw [hfs]
  have hsame : SameLog s.fs.j fs'.j := by
    rw [hfs]
    exact ⟨rfl, rfl, rfl⟩
  have hnext : fs'.j.nextSequence = s.fs.j.nextSequence + 1 := by rw [hfs]
  have hhead : fs'.j.head = s.fs.j.wrap s.fs.j.head (s.fs.j.txnLogBlocks s.fs.txn) := by
    rw [hfs, ← length_txnBlocks ha.sized, ← past_eq ha.head]
  have hsb : fs'.j.sb = publish s.fs.j.sb s.fs.j.head s.fs.j.nextSequence := by
    rw [hfs]
    rfl
  have hacc : Accepted fs'.j :=
    hsame.accepted ha hsb (hhead ▸ wrap_inLog ha.capacity_pos _ _)
  -- the log holds what was written, and old blocks elsewhere
  have hlog : ∀ p, InLog s.fs.j p → fs'.dev (c.map p) = writeAll s.fs.dev (s.fs.logged c) (c.map p) := by
    intro p hp
    rw [hdev]
    refine Function.update_of_ne (fun he => ?_) _ _
    have h₁ := c.inj he
    have h₂ := hp.1
    have h₃ := ha.first
    omega
  have hout : ∀ b, (∀ i, c.map i ≠ b) → fs'.dev b = s.fs.dev b := by
    intro b h
    rw [hdev, Function.update_of_ne (h 0).symm]
    exact written_outside h ha.head
  have hold : ∀ p, InLog fs'.j p → ∀ w d, record fs'.j.blockSize (fs'.dev (c.map p)) w = some d →
      w.toNat ≤ s.fs.j.nextSequence.toNat := by
    intro p hp w d hd
    have hp' := hsame.inLog.mp hp
    rw [hlog p hp', hsame.blockSize] at hd
    have hcase : logOf c (writeAll s.fs.dev (s.fs.logged c)) p ∈ s.fs.j.txnBlocks s.fs.txn ∨
        logOf c (writeAll s.fs.dev (s.fs.logged c)) p = logOf c s.fs.dev p := written_cases ha.head hlen
    rcases hcase with hmem | heq
    · rw [txnBlocks_eq_logBlocks] at hmem
      exact Nat.le_of_eq (congrArg BitVec.toNat (record_logBlocks ha.sized hmem hd))
    · rw [logOf, logOf] at heq
      rw [heq] at hd
      exact hb.old p hp' w d hd
  refine ⟨⟨hacc, ?_, ?_, ?_, ?_, ?_, hb.clear.1, hb.clear.1, hb.clear.1⟩, ⟨?_, hnext, ?_, ?_, hb.valid⟩,
    ⟨?_, ?_, ?_, ?_⟩⟩
  · intro p hp w d hd
    have hle := hold p hp w d hd
    show w.toNat ≤ fs'.j.nextSequence.toNat
    rw [hnext, hadd]
    omega
  · show Txn.Valid c fs'.txn
    rw [Fs.txn, hcache, hrevokes]
    exact hb.valid
  · show fs'.revokes.Nodup
    rw [hrevokes]
    exact hb.nodup
  · show ∀ x ∈ fs'.cache, _
    rw [hcache]
    exact hb.cached
  · intro b v hv hc
    have hc' : b ∉ s.fs.cached := by
      rw [Fs.cached, ← hcache]
      exact hc
    exact (hout _ (hb.clear.1 b v hv)).trans (hb.home b v hv hc')
  · show fs'.dev (c.map 0) = publish fs'.j.sb _ _
    rw [hdev, Function.update_self, hsb, publish_publish]
    rfl
  · show s.fs.j.nextSequence.toNat < fs'.j.nextSequence.toNat
    rw [hnext, hadd]
    exact Nat.lt_succ_self _
  · refine hsame.shown ⟨ha.head, Nat.not_lt.mp hfit, ?_⟩
    rw [← txnBlocks_eq_logBlocks]
    have hw : Holds s.fs.j (logOf c (writeAll s.fs.dev (s.fs.logged c))) s.fs.j.head
        (s.fs.j.txnBlocks s.fs.txn) := holds_written ha.head hlen
    exact hw.congr ha.head fun p hp => hlog p hp
  · show fs'.j.head = fs'.j.wrap s.fs.j.head (fs'.j.txnLogBlocks s.fs.txn)
    rw [hhead, hsame.wrap, hsame.txnLogBlocks]
  · intro p hp
    rw [Option.eq_none_iff_forall_ne_some]
    intro d hd
    have hle := hold p hp _ d hd
    have hn : (publishedAs s fs').fs.j.nextSequence.toNat = s.fs.j.nextSequence.toNat + 1 := by
      rw [← hadd, ← hnext]
      rfl
    omega
  · exact hb.covers.congr fun b v hv => hout _ (hb.clear.1 b v hv)
  · intro b v _ hc x hx he
    refine hc ?_
    show b ∈ fs'.cached
    rw [Fs.cached, hcache, ← he]
    exact mem_cached hx

/-- Home blocks are not in the log. -/
theorem log_homes {l : List (Word × Block)} (h : ∀ x ∈ l, ∀ i, c.map i ≠ x.1.toNat) (dev : Dev) (k i : ℕ) :
    writeAll dev ((homes l).take k) (c.map i) = dev (c.map i) := by
  refine writeAll_of_ne fun y hy => ?_
  obtain ⟨x, hx, rfl⟩ := List.mem_map.mp (List.mem_of_mem_take hy)
  exact (h x hx i).symm

/-- Some of the home blocks of the pending transaction are written. -/
theorem Inv.homes (hb : Base c s) (hs : Showing c s start q) (hp : Pending c s start)
    (hlast : s.last = s.fs.txn) (k : ℕ) :
    Base c { s with fs := { s.fs with dev := writeAll s.fs.dev (s.fs.homeWrites.take k) } } ∧
      Showing c { s with fs := { s.fs with dev := writeAll s.fs.dev (s.fs.homeWrites.take k) } } start q ∧
        Pending c { s with fs := { s.fs with dev := writeAll s.fs.dev (s.fs.homeWrites.take k) } } start := by
  have hlog := log_homes hb.valid.outside s.fs.dev k
  have hlog' : ∀ p, writeAll s.fs.dev (s.fs.homeWrites.take k) (c.map p) = s.fs.dev (c.map p) := hlog
  refine ⟨⟨hb.accepted, ?_, hb.valid, hb.nodup, hb.cached, ?_, hb.clear⟩, ⟨?_, hs.next, hs.lt, ?_, hs.valid⟩,
    ⟨hp.head, ?_, ?_, hp.apart⟩⟩
  · intro p hp w d hd
    dsimp only at hd
    rw [hlog'] at hd
    exact hb.old p hp w d hd
  · intro b v hv hc
    refine Eq.trans (writeAll_of_ne fun y hy he => hc ?_) (hb.home b v hv hc)
    have hmem : (b, y.2) ∈ s.fs.cache := mem_homes (List.mem_of_mem_take hy) he
    exact mem_cached hmem
  · exact (hlog' 0).trans hs.points
  · exact ⟨hs.shown.place, hs.shown.fits, hs.shown.holds.congr hs.shown.place fun p _ => hlog' p⟩
  · intro p hin
    dsimp only
    rw [hlog']
    exact hp.fresh p hin
  · have hcov := hp.covers
    rw [hlast] at hcov
    dsimp only
    rw [hlast]
    exact hcov.take k

theorem Inv.checkpoint (hb : Base c s) (hs : Showing c s start q) (hp : Pending c s start)
    (hlast : s.last = s.fs.txn) (hpub : s.pub = s.now) (hsb : sbStart s.fs.j.sb ≠ 0) (k : ℕ) :
    Inv c { s with fs := (s.fs.checkpoint c k).1 } := by
  rw [Fs.checkpoint]
  by_cases h₁ : k < s.fs.homeWrites.length
  · rw [if_pos h₁]
    obtain ⟨hb', hs', hp'⟩ := Inv.homes hb hs hp hlast k
    exact ⟨hb', .inr ⟨start, q, hs', .inl hp'⟩⟩
  · -- all home blocks are written
    rw [if_neg h₁]
    dsimp only
    rw [if_neg hsb]
    obtain ⟨hb', hs', hp'⟩ := Inv.homes hb hs hp hlast s.fs.homeWrites.length
    rw [List.take_length] at hb' hs' hp'
    have hagrees : Agrees s.now (writeAll s.fs.dev s.fs.homeWrites) := hb.covers.agrees
    have hin : InLog s.fs.j s.fs.j.first := by
      have h₂ := hb.accepted.head.1
      have h₃ := hb.accepted.head.2
      exact ⟨Nat.le_refl _, by omega⟩
    obtain ⟨j', hj⟩ : ∃ j', j' = { s.fs.j with head := s.fs.j.first, sb := s.fs.emptied } := ⟨_, rfl⟩
    have hsame : SameLog s.fs.j j' := by
      rw [hj]
      exact ⟨rfl, rfl, rfl⟩
    have hsb' : j'.sb = publish s.fs.j.sb 0 (s.fs.j.nextSequence - 1) := by
      rw [hj]
      rfl
    have hnext : j'.nextSequence = s.fs.j.nextSequence := by rw [hj]
    have hacc : Accepted j' := hsame.accepted hb.accepted hsb' (by rw [hj]; exact hin)
    have hpublish : ∀ a r, publish j'.sb a r = publish s.fs.j.sb a r := by
      intro a r
      rw [hsb', publish_publish]
    have hold : ∀ p, InLog j' p → ∀ w d, record j'.blockSize
        (writeAll s.fs.dev s.fs.homeWrites (c.map p)) w = some d → w.toNat ≤ j'.nextSequence.toNat := by
      intro p hp w d hd
      rw [hsame.blockSize] at hd
      rw [hnext]
      exact hb'.old p (hsame.inLog.mp hp) w d hd
    rw [← hj]
    by_cases h₂ : k = s.fs.homeWrites.length
    · -- the superblock is not
      rw [if_pos h₂]
      refine ⟨⟨hacc, hold, hb.valid, hb.nodup, hb.cached, hb'.home, hb.clear⟩, .inr ⟨start, q,
        ⟨hs'.points.trans (hpublish start q).symm, hnext.trans hs.next, ?_, hsame.shown hs'.shown, hs.valid⟩,
        .inr (.inl ⟨?_, ?_, ?_, ?_⟩)⟩⟩
      · show q.toNat < j'.nextSequence.toNat
        rw [hnext]
        exact hs.lt
      · intro x hx
        have hx' : x ∈ s.fs.cache := by
          rw [show s.fs.cache = s.last.blocks from hlast ▸ rfl]
          exact hx
        exact hagrees x.1 x.2 (hb.cached x hx')
      · show Agrees s.pub _
        rw [hpub]
        exact hagrees
      · dsimp only
        rw [hsame.blockSize, hsame.wrap, hsame.txnLogBlocks, hnext]
        exact hp'.fresh _ (wrap_inLog hb.accepted.capacity_pos _ _)
      · intro _ p hin'
        dsimp only
        rw [hsame.blockSize, hnext]
        exact hp'.fresh p (hsame.inLog.mp hin')
    · rw [if_neg h₂]
      have hne : ∀ p, InLog j' p → c.map p ≠ c.map 0 := by
        intro p hp he
        have h₄ := c.inj he
        have h₅ := hp.1
        have h₆ := hacc.first
        omega
      refine ⟨⟨hacc, ?_, ⟨nofun, nofun, nofun, nofun⟩, List.nodup_nil, nofun, ?_, hb.clear⟩,
        .inl ⟨?_, .inl ⟨s.fs.j.nextSequence - 1, ?_⟩⟩⟩
      · intro p hp w d hd
        dsimp only at hd
        rw [Function.update_of_ne (hne p hp)] at hd
        exact hold p hp w d hd
      · intro b v hv _
        exact hagrees.update_map hb.clear.1 0 _ b v hv
      · show Agrees s.pub _
        rw [hpub]
        exact hagrees.update_map hb.clear.1 0 _
      · exact (Function.update_self ..).trans (hpublish 0 _).symm

/-! ### Runs -/

theorem Showing.live (hb : Base c s) (h : Showing c s start q) : s.fs.Live c := by
  have hstart : sbStart (s.fs.dev (c.map 0)) = start := by
    rw [h.points]
    exact sbStart_points hb.accepted h.shown.place
  have hseq : sbSequence (s.fs.dev (c.map 0)) = q := by
    rw [h.points]
    exact sbSequence_publish
  obtain ⟨b, l, d, hcons, hrec⟩ := logBlocks_cons hb.accepted.sized q s.last
  have hh := h.shown.holds
  rw [hcons] at hh
  refine ⟨?_, ?_⟩
  · have h₁ := h.shown.place.1
    have h₂ := hb.accepted.first
    rw [hstart]
    omega
  · have hfirst : s.fs.dev (c.map start) = b := hh.1
    rw [hstart, hseq, hfirst, hrec]
    exact nofun

/-- A commit that does nothing, or is refused, leaves the phase as it is. -/
theorem Inv.stays (h : Inv c s) (hns : ∀ start q, Showing c s start q → ¬Stuck c s start) :
    Inv c { s with tried := s.now } := by
  obtain ⟨hb, hp⟩ := h
  refine ⟨⟨hb.accepted, hb.old, hb.valid, hb.nodup, hb.cached, hb.home, hb.clear.1, hb.clear.2.1, hb.clear.1⟩, ?_⟩
  rcases hp with hi | ⟨start, q, hs, hp | hp | hp⟩
  · exact .inl ⟨hi.agrees, hi.log⟩
  · exact .inr ⟨start, q, ⟨hs.points, hs.next, hs.lt, hs.shown, hs.valid⟩,
      .inl ⟨hp.head, hp.fresh, hp.covers, hp.apart⟩⟩
  · exact .inr ⟨start, q, ⟨hs.points, hs.next, hs.lt, hs.shown, hs.valid⟩,
      .inr (.inl ⟨hp.homes, hp.agrees, hp.behind, hp.fresh⟩)⟩
  · exact absurd hp (hns start q hs)

/-- With nothing in the cache the contents are those that were published, or are on their homes. -/
theorem Inv.same (h : Inv c s) (hnil : s.fs.cache = [])
    (hns : ∀ start q, Showing c s start q → ¬Stuck c s start) :
    Inv c { s with tried := s.now, pub := s.now } := by
  obtain ⟨hb, hp⟩ := h
  have hagrees : Agrees s.now s.fs.dev := by
    intro b v hv
    refine hb.home b v hv ?_
    rw [Fs.cached, hnil]
    exact List.not_mem_nil
  refine ⟨⟨hb.accepted, hb.old, hb.valid, hb.nodup, hb.cached, hb.home, hb.clear.1, hb.clear.1, hb.clear.1⟩, ?_⟩
  rcases hp with hi | ⟨start, q, hs, hp | hp | hp⟩
  · exact .inl ⟨hagrees, hi.log⟩
  · refine .inr ⟨start, q, ⟨hs.points, hs.next, hs.lt, hs.shown, hs.valid⟩,
      .inl ⟨hp.head, hp.fresh, fun b v hv => ⟨fun x hx he => ?_, .inl (hagrees b v hv)⟩, hp.apart⟩⟩
    refine absurd he (hp.apart b v hv ?_ x hx)
    rw [Fs.cached, hnil]
    exact List.not_mem_nil
  · exact .inr ⟨start, q, ⟨hs.points, hs.next, hs.lt, hs.shown, hs.valid⟩,
      .inr (.inl ⟨hp.homes, hagrees, hp.behind, hp.fresh⟩)⟩
  · exact absurd hp (hns start q hs)

theorem Inv.commit (h : Inv c s) (hc : Careful c s (.commit k)) : Inv c (step c s (.commit k)) := by
  obtain ⟨hnum, hheed⟩ := hc
  have hb := h.base
  have hstart : ∀ {start q}, Showing c s start q → sbStart (s.fs.dev (c.map 0)) = start := by
    intro start q hs
    rw [hs.points]
    exact sbStart_points hb.accepted hs.shown.place
  have hns : ∀ start q, Showing c s start q → ¬Stuck c s start := by
    intro start q hs hstuck
    have hfresh := (hheed (hs.live hb)).fresh
    rw [hstart hs] at hfresh
    exact hstuck.behind hfresh
  have hlen := length_logged (c := c) hb.accepted
  rw [step, Fs.commit]
  by_cases hne : s.fs.cache.isEmpty ∧ s.fs.revokes.isEmpty
  · -- nothing to do
    have hr : s.fs.Reaches c k := .inl hne
    rw [if_pos hne, if_pos hr, if_neg fun hx => hx.1 hne]
    exact h.same (List.isEmpty_iff.mp hne.1) hns
  · rw [if_neg hne]
    by_cases hfit : s.fs.j.capacity < s.fs.j.txnLogBlocks s.fs.txn
    · -- too much for the log
      have hr : ¬s.fs.Reaches c k := fun hx => hx.elim hne fun hx => hx.1 hfit
      rw [if_pos hfit, if_neg hr, if_neg fun hx => hr hx.2]
      exact h.stays hns
    · rw [if_neg hfit]
      by_cases hk : k ≤ (s.fs.logged c).length
      · -- the log is written up to `k`
        have hr : ¬s.fs.Reaches c k := fun hx => hx.elim hne fun hx => absurd hx.2 (Nat.not_lt.mpr hk)
        rw [if_pos hk, if_neg hr, if_neg fun hx => hr hx.2]
        dsimp only
        rcases Nat.eq_zero_or_pos k with rfl | hk0
        · have hsame : s.fs.jbdCommit c 0 = s.fs := by
            rw [Fs.jbdCommit, if_pos (by rw [hlen, Jbd.txnLogBlocks]; exact Nat.succ_pos _)]
            rfl
          rw [hsame]
          exact h.stays hns
        · have hl := logged_jbdCommit hb.accepted hk
          have hsub : ∀ b ∈ (s.fs.j.txnBlocks s.fs.txn).take k, b ∈ s.fs.j.txnBlocks s.fs.txn :=
            fun b hb => List.mem_of_mem_take hb
          have hfull := length_txnBlocks hb.accepted.sized s.fs.txn
          have htake : ((s.fs.j.txnBlocks s.fs.txn).take k).length ≤ s.fs.j.txnLogBlocks s.fs.txn := by
            rw [List.length_take, hfull]
            exact Nat.min_le_right _ _
          have hcap : ((s.fs.j.txnBlocks s.fs.txn).take k).length ≤ s.fs.j.capacity := by omega
          have hpre : ∃ i ≤ (s.fs.j.txnBlocks s.fs.txn).length, 0 < i ∧
              (s.fs.j.txnBlocks s.fs.txn).take k = (s.fs.j.txnBlocks s.fs.txn).take i :=
            ⟨k, by omega, hk0, rfl⟩
          rcases h.phase with hi | ⟨start, q, hs, hp⟩
          · exact ⟨hb.logged hl hsub hcap, .inl (hi.logged hb hl hsub hcap)⟩
          · obtain ⟨hap, hwhole, -⟩ := hheed (hs.live hb)
            rw [hstart hs] at hap
            rcases hp with hp | hp | hp
            · rcases hwhole with hw | ⟨hroom, hrev⟩
              · exact (hp.settled hb hw).logged hb hl hsub hcap hs hpre hnum hap
              · exact hp.logged hb hl hsub hcap hs hpre hnum (by omega) hrev
            · exact hp.logged hb hl hsub hcap hs hpre hnum hap
            · exact absurd hp (hns start q hs)
      · -- the transaction is published
        have hr : s.fs.Reaches c k := .inr ⟨hfit, Nat.not_le.mp hk⟩
        rw [if_neg hk, if_pos hr, if_pos ⟨hne, hr⟩]
        obtain ⟨hb', hs', hp'⟩ := Inv.published hb hfit hnum (Nat.not_le.mp hk)
        have hjb : (s.fs.jbdCommit c k).txn = s.fs.txn ∧ (s.fs.jbdCommit c k).j.sb = s.fs.published := by
          rw [Fs.jbdCommit, if_neg (by omega), if_neg (by omega)]
          exact ⟨rfl, rfl⟩
        refine Inv.checkpoint hb' hs' hp' hjb.1.symm rfl ?_ (k - (s.fs.logged c).length - 1)
        show sbStart (s.fs.jbdCommit c k).j.sb ≠ 0
        have hin := hb.accepted.head
        have hin' := hin.1
        have hpos := hb.accepted.first
        rw [hjb.2, Fs.published, sbStart_points hb.accepted hin]
        omega

theorem Mint.inv (h : Mint c s) : Inv c s := by
  have hnil : ∀ x : Word × Block, x ∉ s.fs.cache := by
    intro x
    rw [h.cache]
    exact List.not_mem_nil
  refine ⟨⟨h.accepted, h.old, ⟨?_, ?_, ?_, ?_⟩, ?_, ?_, ?_, h.clear, ?_, ?_⟩, .inl ⟨?_, .inl h.empty⟩⟩
  · exact fun x hx => absurd hx (hnil x)
  · exact fun x hx => absurd hx (hnil x)
  · exact fun x hx => absurd hx (hnil x)
  · exact fun x hx => absurd hx (hnil x)
  · rw [h.revokes]
    exact List.nodup_nil
  · exact fun x hx => absurd hx (hnil x)
  · exact fun b v hv _ => h.agrees b v hv
  · rw [h.pub]
    exact h.clear
  · rw [h.tried]
    exact h.clear
  · rw [h.pub]
    exact h.agrees

theorem Inv.step {o : Op} (h : Inv c s) (hc : Careful c s o) : Inv c (step c s o) := by
  cases o with
  | set b data => exact h.set hc
  | drop b => exact h.drop
  | commit k => exact h.commit hc

/-- A commit that returns success has reached the device. -/
theorem reaches_of_success (h : (s.fs.commit c k).2 = true) : s.fs.Reaches c k := by
  rw [Fs.commit] at h
  by_cases hne : s.fs.cache.isEmpty ∧ s.fs.revokes.isEmpty
  · exact .inl hne
  · rw [if_neg hne] at h
    by_cases hfit : s.fs.j.capacity < s.fs.j.txnLogBlocks s.fs.txn
    · rw [if_pos hfit] at h
      cases h
    · rw [if_neg hfit] at h
      by_cases hk : k ≤ (s.fs.logged c).length
      · rw [if_pos hk] at h
        cases h
      · exact .inr ⟨hfit, Nat.not_le.mp hk⟩

/-- In every run from a mount whose steps all meet the condition, whatever writes fail: the device can
    be mounted at every point, also if the mount is cut short and tried again, and the metadata blocks
    then all have the contents of the last commit that was published, or all have those of the last
    that was begun; and right after a commit that returned success they have the contents it had. -/
theorem commits_survive {s₀ : Sys} (h₀ : Mint c s₀)
    (h : Reach (fun s o => some (step c s o)) (Careful c) s₀ s) :
    (Recovers c s.pub s.fs.dev ∨ Recovers c s.tried s.fs.dev) ∧
      ∀ k, Careful c s (.commit k) → (s.fs.commit c k).2 = true →
        Recovers c s.now (s.fs.commit c k).1.dev := by
  have hinv : Inv c s := by
    refine h.inv h₀.inv fun s o t hs hok hst => ?_
    cases hst
    exact hs.step hok
  refine ⟨hinv.recovers, fun k hc hok => ?_⟩
  have hnext := (hinv.commit hc).recovers
  rw [step, if_pos (reaches_of_success hok)] at hnext
  exact hnext.elim id id

end

/-! ### Two runs -/

/-- A file system with an empty log and no metadata yet. -/
def mintSys : Sys := ⟨⟨wideDev, wideJbd, [], []⟩, fun _ => none, fun _ => none, fun _ => none, ⟨[], []⟩⟩

theorem mint_mintSys : Mint disk mintSys := by
  refine ⟨wide_accepted, ⟨4, ?_⟩, ?_, rfl, rfl, rfl, rfl, nofun, nofun⟩
  · show wideSb = Function.update (Function.update wideSb 7 (wideSb 7)) 6 (wideSb 6)
    rw [Function.update_eq_self, Function.update_eq_self]
  · intro p hp w d hd
    have hzero : mintSys.fs.dev (disk.map p) = fun _ => 0 := by
      have hne : ¬500 + p = 500 := by
        have hfirst : 1 ≤ p := hp.1
        omega
      exact if_neg hne
    rw [hzero] at hd
    cases hd

/-- A commit of block 7 whose home write fails, block 8, and a commit that succeeds. -/
def retryOps : List Op := [.set 7 (fun _ => 77), .commit 4, .set 8 (fun _ => 88), .commit 100]

/-- The state before the last step. -/
def retrySys : Sys := (retryOps.take 3).foldl (step disk) mintSys

theorem retry_careful : Careful disk retrySys (.commit 100) := by
  refine ⟨by decide +kernel, fun _ => ⟨?_, .inr ⟨by decide +kernel, by decide +kernel⟩, by decide +kernel⟩⟩
  have hlen : retrySys.fs.j.txnLogBlocks retrySys.last = 3 := by decide +kernel
  have hall : ∀ k < 3, 0 < k → retrySys.fs.j.head ≠
      retrySys.fs.j.wrap (sbStart (retrySys.fs.dev (disk.map 0))) k := by decide +kernel
  exact fun k h0 hk => hall k (hlen ▸ hk) h0

theorem commits_survive_retry :
    Reach (fun s o => some (step disk s o)) (Careful disk) mintSys retrySys ∧
      Recovers disk retrySys.now (retrySys.fs.commit disk 100).1.dev := by
  have hout : ∀ b, b < 500 → ∀ i, disk.map i ≠ b := by
    intro b hb i he
    have hmap : disk.map i = 500 + i := rfl
    omega
  have hreach : Reach (fun s o => some (step disk s o)) (Careful disk) mintSys retrySys := by
    refine .next (o := .set 8 fun _ => 88) (.next (o := .commit 4) (.next (o := .set 7 fun _ => 77) .start
      ?_ rfl) ?_ rfl) ?_ rfl
    · exact ⟨by decide, by decide, hout 7 (by decide)⟩
    · exact ⟨by decide +kernel, fun hlive => absurd hlive.1 (by decide +kernel)⟩
    · exact ⟨by decide, by decide, hout 8 (by decide)⟩
  exact ⟨hreach, (commits_survive mint_mintSys hreach).2 100 retry_careful (by decide +kernel)⟩

/-- A commit of block 7 whose home write fails; block 7 is freed and block 8 written, and the machine
    stops when the next commit has written its revoke block. -/
def lostOps : List Op := [.set 7 (fun _ => 77), .commit 4, .drop 7, .set 8 (fun _ => 88), .commit 1]

/-- Block 7 has neither the contents of the first commit nor is block 8 written. -/
theorem pending_lost : ∃ s dev', runOps (fun s o => some (step disk s o)) mintSys lostOps = some s ∧
    s.pub 7 = some (fun _ => 77) ∧ s.tried 8 = some (fun _ => 88) ∧ Mounted disk s.fs.dev dev' ∧
      dev' 7 ≠ (fun _ => 77) ∧ dev' 8 ≠ (fun _ => 88) := by
  refine ⟨_, _, rfl, rfl, rfl, .done (load_published wide_accepted wide_accepted.head rfl), ?_, ?_⟩
  · exact fun h => absurd (congrFun h 0) (by decide +kernel)
  · exact fun h => absurd (congrFun h 0) (by decide +kernel)

end EwokOS.Ext3
