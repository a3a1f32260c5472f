import EwokOS.Schemes.Run
import EwokOS.Ext3.Cache
import EwokOS.Ext3.CommitRun

/-! The metadata buffers are coherent as long as no buffer is left with a label that its bytes do not
    belong to. -/

namespace EwokOS.Ext3

open Jbd Schemes

/-! ### A block below the buffers -/

/-- Below the buffers, block `b` holds `v`: in the cache, or on the device if it is not cached. -/
structure Fs.Has (fs : Fs) (b : Word) (v : Block) : Prop where
  pending : ∀ d, (b, d) ∈ fs.cache → d = v
  device : b ∈ fs.cached ∨ fs.dev b.toNat = v

section
variable {c : Ctx} {fs : Fs} {b a : Word} {v d : Block} {k : ℕ}

theorem mem_cached_iff : b ∈ fs.cached ↔ ∃ d, (b, d) ∈ fs.cache := by
  rw [Fs.cached, List.mem_map]
  constructor
  · rintro ⟨x, hx, rfl⟩
    exact ⟨x.2, hx⟩
  · rintro ⟨d, hd⟩
    exact ⟨_, hd, rfl⟩

theorem Fs.Has.cacheSet_self : (fs.cacheSet b d).Has b d := by
  refine ⟨fun x hx => ?_, .inl (cached_cacheSet.mpr (.inl rfl))⟩
  rcases mem_cacheSet hx with he | ⟨-, hne⟩
  · exact congrArg Prod.snd he
  · exact absurd rfl hne

theorem Fs.Has.cacheSet_of_ne (h : fs.Has a v) (hne : a ≠ b) : (fs.cacheSet b d).Has a v := by
  refine ⟨fun x hx => ?_, h.device.imp_left fun ha => cached_cacheSet.mpr (.inr ha)⟩
  rcases mem_cacheSet hx with he | ⟨hx, -⟩
  · exact absurd (congrArg Prod.fst he) hne
  · exact h.pending x hx

theorem Fs.Has.cacheDrop_of_ne (h : fs.Has a v) (hne : a ≠ b) : (fs.cacheDrop b).Has a v := by
  refine ⟨fun x hx => h.pending x (mem_cacheDrop hx).1, ?_⟩
  have hdev : (fs.cacheDrop b).dev = fs.dev := by
    rw [Fs.cacheDrop]
    split_ifs <;> rfl
  rw [hdev, cached_cacheDrop hne]
  exact h.device

/-- A list of writes leaves a block alone, or leaves one of its blocks there. -/
theorem writeAll_cases (dev : Dev) (l : List (ℕ × Block)) (n : ℕ) :
    (writeAll dev l n = dev n ∧ ∀ x ∈ l, x.1 ≠ n) ∨ (n, writeAll dev l n) ∈ l := by
  induction l generalizing dev with
  | nil => exact .inl ⟨rfl, nofun⟩
  | cons y l ih =>
    show (writeAll (Function.update dev y.1 y.2) l n = dev n ∧ _) ∨ _
    rcases ih (Function.update dev y.1 y.2) with ⟨he, hne⟩ | hmem
    · by_cases hy : y.1 = n
      · refine .inr ?_
        have hval : writeAll (Function.update dev y.1 y.2) l n = y.2 := by
          rw [he, ← hy, Function.update_self]
        show (n, writeAll (Function.update dev y.1 y.2) l n) ∈ y :: l
        rw [hval, ← hy]
        exact List.mem_cons_self
      · refine .inl ⟨by rw [he, Function.update_of_ne (Ne.symm hy)], fun x hx => ?_⟩
        rcases List.mem_cons.mp hx with rfl | hx
        · exact hy
        · exact hne x hx
    · exact .inr (List.mem_cons_of_mem y hmem)

theorem map_of_logWrites {j : Jbd} {l : List Block} {pos : ℕ} {x : ℕ × Block}
    (hx : x ∈ j.logWrites c pos l) : ∃ i, x.1 = c.map i := by
  induction l generalizing pos with
  | nil => cases hx
  | cons y l ih =>
    rcases List.mem_cons.mp hx with rfl | hx
    · exact ⟨pos, rfl⟩
    · exact ih hx

/-- Writing the log touches nothing outside of it. -/
theorem jbdCommit_outside (fs : Fs) {n : ℕ} (hb : ∀ i, c.map i ≠ n) (k : ℕ) :
    (fs.jbdCommit c k).dev n = fs.dev n ∧ (fs.jbdCommit c k).cache = fs.cache := by
  have hlog : ∀ l : List (ℕ × Block), (∀ x ∈ l, x ∈ fs.logged c) → writeAll fs.dev l n = fs.dev n := by
    intro l hl
    refine writeAll_of_ne fun x hx he => ?_
    obtain ⟨i, hi⟩ := map_of_logWrites (hl x hx)
    exact hb i (hi.symm.trans he)
  rw [Fs.jbdCommit]
  split_ifs
  · exact ⟨hlog _ fun x hx => List.mem_of_mem_take hx, rfl⟩
  · exact ⟨hlog _ fun x hx => hx, rfl⟩
  · refine ⟨?_, rfl⟩
    dsimp only
    rw [Function.update_of_ne (hb 0).symm]
    exact hlog _ fun x hx => hx

/-- What the home writes leave in a block. -/
theorem homeWrites_cases (l : List (ℕ × Block)) (hl : ∀ x ∈ l, x ∈ fs.homeWrites) :
    writeAll fs.dev l b.toNat = fs.dev b.toNat ∨ (b, writeAll fs.dev l b.toNat) ∈ fs.cache := by
  rcases writeAll_cases fs.dev l b.toNat with ⟨he, -⟩ | hmem
  · exact .inl he
  · exact .inr (mem_homes (hl _ hmem) rfl)

/-- After a commit the cache is as before, or empty and its blocks are on the device. Either way a block
    outside the journal is as it was on the device, or as it was in the cache. -/
theorem commit_cases (fs : Fs) (hb : ∀ i, c.map i ≠ b.toNat) (k : ℕ) :
    ((fs.commit c k).1.dev b.toNat = fs.dev b.toNat ∨ (b, (fs.commit c k).1.dev b.toNat) ∈ fs.cache) ∧
      ((fs.commit c k).1.cache = fs.cache ∨ ((fs.commit c k).1.cache = [] ∧
        (b ∈ fs.cached → (b, (fs.commit c k).1.dev b.toNat) ∈ fs.cache))) := by
  rw [Fs.commit]
  split_ifs with h₁ h₂ h₃
  · exact ⟨.inl rfl, .inl rfl⟩
  · exact ⟨.inl rfl, .inl rfl⟩
  · obtain ⟨hdev, hcache⟩ := jbdCommit_outside fs hb k
    exact ⟨.inl hdev, .inl hcache⟩
  · obtain ⟨hdev, hcache⟩ := jbdCommit_outside fs hb k
    set fs' := fs.jbdCommit c k
    have hall : ∀ l, (∀ x ∈ l, x ∈ fs'.homeWrites) → writeAll fs'.dev l b.toNat = fs.dev b.toNat ∨
        (b, writeAll fs'.dev l b.toNat) ∈ fs.cache := by
      intro l hl
      rw [← hdev, ← hcache]
      exact homeWrites_cases l hl
    have hhome : b ∈ fs.cached → (b, writeAll fs'.dev fs'.homeWrites b.toNat) ∈ fs.cache := by
      intro hmem
      obtain ⟨d, hd⟩ := mem_cached_iff.mp hmem
      rw [← hcache] at hd ⊢
      rcases writeAll_cases fs'.dev fs'.homeWrites b.toNat with ⟨-, hne⟩ | hin
      · exact absurd rfl (hne _ (List.mem_map_of_mem hd))
      · exact mem_homes hin rfl
    rw [Fs.checkpoint]
    dsimp only
    split_ifs
    · exact ⟨hall _ fun x hx => List.mem_of_mem_take hx, .inl hcache⟩
    · exact ⟨hall _ fun x hx => hx, .inr ⟨rfl, hhome⟩⟩
    · exact ⟨hall _ fun x hx => hx, .inl hcache⟩
    · dsimp only
      rw [Function.update_of_ne (hb 0).symm]
      exact ⟨hall _ fun x hx => hx, .inr ⟨rfl, hhome⟩⟩

theorem cache_commit (fs : Fs) (k : ℕ) :
    (fs.commit c k).1.cache = fs.cache ∨ (fs.commit c k).1.cache = [] := by
  have hjbd : (fs.jbdCommit c k).cache = fs.cache := by
    rw [Fs.jbdCommit]
    split_ifs <;> rfl
  rw [Fs.commit, Fs.checkpoint]
  dsimp only
  split_ifs
  · exact .inl rfl
  · exact .inl rfl
  · exact .inl hjbd
  · exact .inl hjbd
  · exact .inr rfl
  · exact .inl hjbd
  · exact .inr rfl

theorem mem_of_commit {x : Word × Block} (hx : x ∈ (fs.commit c k).1.cache) : x ∈ fs.cache := by
  rcases cache_commit fs k with he | he
  · exact he ▸ hx
  · rw [he] at hx
    cases hx

/-- A commit changes nothing for who reads through the cache. -/
theorem Fs.Has.commit (h : fs.Has b v) (hb : ∀ i, c.map i ≠ b.toNat) : (fs.commit c k).1.Has b v := by
  obtain ⟨hdev, hcache⟩ := commit_cases fs hb k
  refine ⟨fun d hd => h.pending d (mem_of_commit hd), ?_⟩
  by_cases hmem : b ∈ fs.cached
  · rcases hcache with he | ⟨-, hon⟩
    · exact .inl (by rw [Fs.cached, he]; exact hmem)
    · exact .inr (h.pending _ (hon hmem))
  · rcases hdev with he | hin
    · exact .inr (he.trans (h.device.resolve_left hmem))
    · exact absurd (mem_cached hin) hmem

end

namespace Meta

/-! ### The invariant -/

/-- No operation is needed to bring buffer `w` down. -/
def Settled (s : Meta) (w : Which) : Prop := (s.slot w).dirty = false ∧ ¬(w = .indirect ∧ s.blank)

/-- A labelled buffer holds the last write to its block; below it every block that no unsettled buffer
    stands for holds its last write; and nothing lies below that the block has not held. -/
structure Coherent (c : Ctx) (R : Word → Option Role) (s : Meta) : Prop where
  direct : s.journaled = false → s.fs.cache = []
  apart : ∀ b, R b ≠ none → b ≠ 0 ∧ ∀ i, c.map i ≠ b.toNat
  known : ∀ b ∈ s.fs.cached, R b ≠ none
  label : ∀ w, (s.slot w).label ≠ 0 → R (s.slot w).label = some (.slot w)
  data : ∀ w, (s.slot w).label ≠ 0 → (s.slot w).data = s.logical (s.slot w).label
  below : ∀ b, R b ≠ none → (∀ w, (s.slot w).label = b → s.Settled w) → s.fs.Has b (s.logical b)
  own : s.OwnContents R
  now : ∀ b, R b ≠ none → s.past b (s.logical b)

/-- What flushing, committing and writing back leave as it is. -/
structure Keeps (R : Word → Option Role) (s t : Meta) : Prop where
  role : t.role = s.role
  blank : t.blank = s.blank
  label : ∀ w, (t.slot w).label = (s.slot w).label
  data : ∀ w, (t.slot w).data = (s.slot w).data
  dirty : ∀ w, (t.slot w).dirty = true → (s.slot w).dirty = true
  logical : ∀ b, R b ≠ some .plain → t.logical b = s.logical b

section
variable {c : Ctx} {R : Word → Option Role} {s t u : Meta} {b : Word} {d : Block} {w : Which} {io : Io}

theorem Keeps.refl (s : Meta) : Keeps R s s :=
  ⟨rfl, rfl, fun _ => rfl, fun _ => rfl, fun _ h => h, fun _ _ => rfl⟩

theorem Keeps.trans (h : Keeps R s t) (h' : Keeps R t u) : Keeps R s u where
  role := h'.role.trans h.role
  blank := h'.blank.trans h.blank
  label w := (h'.label w).trans (h.label w)
  data w := (h'.data w).trans (h.data w)
  dirty w hd := h.dirty w (h'.dirty w hd)
  logical b hb := (h'.logical b hb).trans (h.logical b hb)

theorem slot_setSlot_self (s : Meta) (w : Which) (x : Slot) : (s.setSlot w x).slot w = x :=
  Function.update_self ..

/-- A block that goes through buffer `w` is in no other. -/
theorem Coherent.which (h : Coherent c R s) {w w' : Which} (hb : R b = some (.slot w))
    (hl : (s.slot w').label = b) : w' = w := by
  have hne : (s.slot w').label ≠ 0 := by
    rw [hl]
    exact (h.apart b (by rw [hb]; nofun)).1
  have hr := h.label w' hne
  rw [hl, hb] at hr
  cases hr
  rfl

/-! ### One write below -/

theorem store_keeps : Keeps R s (s.store b d) := by
  rw [store]
  split_ifs <;> exact ⟨rfl, rfl, fun _ => rfl, fun _ => rfl, fun _ h => h, fun _ _ => rfl⟩

theorem cached_store {a : Word} (h : a ∈ (s.store b d).fs.cached) : a = b ∨ a ∈ s.fs.cached := by
  rw [store] at h
  split_ifs at h
  · exact cached_cacheSet.mp h
  · exact .inr h

theorem Coherent.has_store_self (h : Coherent c R s) : (s.store b d).fs.Has b d := by
  rw [store]
  split_ifs with hj
  · exact Fs.Has.cacheSet_self
  · refine ⟨fun x hx => ?_, .inr (Function.update_self ..)⟩
    rw [h.direct (by simpa using hj)] at hx
    cases hx

theorem has_store_of_ne {a : Word} {v : Block} (h : s.fs.Has a v) (hne : a ≠ b) :
    (s.store b d).fs.Has a v := by
  rw [store]
  split_ifs with hj
  · exact h.cacheSet_of_ne hne
  · refine ⟨h.pending, h.device.imp_right fun he => ?_⟩
    have hnat : a.toNat ≠ b.toNat := fun he => hne (BitVec.eq_of_toNat_eq he)
    exact (Function.update_of_ne hnat ..).trans he

/-- What lies below for a block is what lay there, or what was written. -/
theorem own_store {a : Word} {P : Block → Prop} (hdev : P (s.fs.dev a.toNat))
    (hcache : ∀ x, (a, x) ∈ s.fs.cache → P x) (hd : a = b → P d) :
    P ((s.store b d).fs.dev a.toNat) ∧ ∀ x, (a, x) ∈ (s.store b d).fs.cache → P x := by
  rw [store]
  split_ifs with hj
  · refine ⟨hdev, fun x hx => ?_⟩
    rcases mem_cacheSet hx with he | ⟨hx, -⟩
    · obtain ⟨rfl, rfl⟩ := Prod.mk.inj he
      exact hd rfl
    · exact hcache x hx
  · refine ⟨?_, hcache⟩
    dsimp only
    by_cases he : a = b
    · rw [he, Function.update_self]
      exact hd he
    · rw [Function.update_of_ne fun hn => he (BitVec.eq_of_toNat_eq hn)]
      exact hdev

theorem direct_store (h : s.journaled = false → s.fs.cache = []) :
    (s.store b d).journaled = false → (s.store b d).fs.cache = [] := by
  rw [store]
  split_ifs with hj
  · intro hf
    exact absurd hj (by rw [hf]; nofun)
  · exact h

theorem store_eq (s : Meta) (b : Word) (d : Block) :
    s.store b d = { s with fs := (s.store b d).fs } := by
  rw [store]
  split_ifs <;> rfl

/-- Only what lies below is changed, and not for who reads it. -/
theorem Coherent.of_fs (h : Coherent c R s) {fs : Fs} (hdir : s.journaled = false → fs.cache = [])
    (hknown : ∀ b ∈ fs.cached, R b ≠ none)
    (hhas : ∀ b, R b ≠ none → s.fs.Has b (s.logical b) → fs.Has b (s.logical b))
    (hown : ({ s with fs := fs } : Meta).OwnContents R) : Coherent c R { s with fs := fs } where
  direct := hdir
  apart := h.apart
  known := hknown
  label := h.label
  data := h.data
  below b hb hw := hhas b hb (h.below b hb hw)
  own := hown
  now := h.now

/-- Its last write is written to a block once more. -/
theorem Coherent.store (h : Coherent c R s) (hb : R b ≠ none) (hd : d = s.logical b) :
    Coherent c R (s.store b d) := by
  rw [store_eq]
  refine h.of_fs ?_ (fun a ha => ?_) (fun a ha hhas => ?_) (fun a ha => ?_)
  · intro hj
    refine direct_store h.direct ?_
    rw [store_eq]
    exact hj
  · rcases cached_store ha with rfl | ha
    · exact hb
    · exact h.known a ha
  · by_cases he : a = b
    · rw [he, ← hd]
      exact h.has_store_self
    · exact has_store_of_ne hhas he
  · refine own_store (h.own a ha).1 (h.own a ha).2 ?_
    rintro rfl
    rw [hd]
    exact h.now a hb

theorem past_note {a : Word} {x : Block} (h : s.past a x) : (s.note b d).past a x := by
  show Function.update s.past b (fun x => s.past b x ∨ x = d) a x
  by_cases he : a = b
  · subst he
    rw [Function.update_self]
    exact .inl h
  · rw [Function.update_of_ne he]
    exact h

theorem past_note_self : (s.note b d).past b d := by
  show Function.update s.past b (fun x => s.past b x ∨ x = d) b d
  rw [Function.update_self]
  exact .inr rfl

theorem now_note (h : ∀ b, R b ≠ none → s.past b (s.logical b)) {a : Word} (ha : R a ≠ none) :
    (s.note b d).past a ((s.note b d).logical a) := by
  show (s.note b d).past a (Function.update s.logical b d a)
  by_cases he : a = b
  · rw [he, Function.update_self]
    exact past_note_self
  · rw [Function.update_of_ne he]
    exact past_note (h a ha)

/-- A block that goes through no buffer is written. -/
theorem Coherent.put (h : Coherent c R s) (hb : R b = some .plain) :
    Coherent c R ((s.store b d).note b d) := by
  have hne : R b ≠ none := by
    rw [hb]
    nofun
  have hslot : ∀ w, (s.slot w).label ≠ 0 → (s.slot w).label ≠ b := by
    intro w hw he
    have hr := h.label w hw
    rw [he, hb] at hr
    cases hr
  rw [store_eq]
  refine ⟨?_, h.apart, fun a ha => ?_, h.label, fun w hw => ?_, fun a ha hw => ?_, fun a ha => ?_,
    fun a ha => ?_⟩
  · intro hj
    refine direct_store h.direct ?_
    rw [store_eq]
    exact hj
  · rcases cached_store ha with rfl | ha
    · exact hne
    · exact h.known a ha
  · exact (h.data w hw).trans (Function.update_of_ne (hslot w hw) ..).symm
  · show (s.store b d).fs.Has a (Function.update s.logical b d a)
    by_cases he : a = b
    · rw [he, Function.update_self]
      exact h.has_store_self
    · rw [Function.update_of_ne he]
      exact has_store_of_ne (h.below a ha hw) he
  · refine own_store (past_note (h.own a ha).1) (fun x hx => past_note ((h.own a ha).2 x hx)) ?_
    rintro rfl
    exact past_note_self
  · exact now_note h.now ha

theorem put_keeps (hb : R b = some .plain) : Keeps R s ((s.store b d).note b d) := by
  rw [store_eq]
  refine ⟨rfl, rfl, fun _ => rfl, fun _ => rfl, fun _ h => h, fun a ha => ?_⟩
  have hne : a ≠ b := by
    rintro rfl
    exact ha hb
  exact Function.update_of_ne hne ..

/-- Buffer `w` is given other contents, or to another block. -/
theorem Coherent.setSlot (h : Coherent c R s) (x : Slot) (bl : Bool) (hbl : w ≠ .indirect → bl = s.blank)
    (hx : x.label ≠ 0 → R x.label = some (.slot w) ∧ x.data = s.logical x.label)
    (hold : ∀ b, R b ≠ none → (s.slot w).label = b → x.label ≠ b → s.fs.Has b (s.logical b))
    (hnew : x.label ≠ 0 → x.dirty = false → ¬(w = .indirect ∧ bl) →
      s.fs.Has x.label (s.logical x.label)) :
    Coherent c R { s.setSlot w x with blank := bl } := by
  have hself : (Function.update s.slot w x) w = x := Function.update_self ..
  refine ⟨h.direct, h.apart, h.known, fun w' hw => ?_, fun w' hw => ?_, fun b hb hw => ?_, h.own, h.now⟩
  · change (Function.update s.slot w x w').label ≠ 0 at hw
    show R (Function.update s.slot w x w').label = _
    by_cases he : w' = w
    · subst he
      rw [hself] at hw ⊢
      exact (hx hw).1
    · rw [Function.update_of_ne he] at hw ⊢
      exact h.label w' hw
  · change (Function.update s.slot w x w').label ≠ 0 at hw
    show (Function.update s.slot w x w').data = s.logical (Function.update s.slot w x w').label
    by_cases he : w' = w
    · subst he
      rw [hself] at hw ⊢
      exact (hx hw).2
    · rw [Function.update_of_ne he] at hw ⊢
      exact h.data w' hw
  · show s.fs.Has b (s.logical b)
    have hsettled : ∀ w', (Function.update s.slot w x w').label = b →
        (Function.update s.slot w x w').dirty = false ∧ ¬(w' = .indirect ∧ bl) := hw
    by_cases hxb : x.label = b
    · have hne : x.label ≠ 0 := by
        rw [hxb]
        exact (h.apart b hb).1
      obtain ⟨hd, hi⟩ := hsettled w (by rw [hself]; exact hxb)
      rw [hself] at hd
      rw [← hxb]
      exact hnew hne hd hi
    · by_cases hlb : (s.slot w).label = b
      · exact hold b hb hlb hxb
      · refine h.below b hb fun w' hw' => ?_
        have hne : w' ≠ w := by
          rintro rfl
          exact hlb hw'
        obtain ⟨hd, hi⟩ := hsettled w' (by rw [Function.update_of_ne hne]; exact hw')
        rw [Function.update_of_ne hne] at hd
        refine ⟨hd, ?_⟩
        rintro ⟨rfl, hb'⟩
        exact hi ⟨rfl, by rw [hbl (Ne.symm hne)]; exact hb'⟩

/-- The dirty flag is cleared once the block below is what the buffer holds. -/
theorem Coherent.settle (h : Coherent c R s)
    (hhas : (s.slot w).label ≠ 0 → s.fs.Has (s.slot w).label (s.slot w).data) :
    Coherent c R (s.setSlot w { s.slot w with dirty := false }) := by
  refine h.setSlot _ s.blank (fun _ => rfl) (fun hne => ⟨h.label w hne, h.data w hne⟩)
    (fun b _ hl hne => absurd hl hne) (fun hne _ _ => ?_)
  rw [← h.data w hne]
  exact hhas hne

theorem settle_keeps : Keeps R s (s.setSlot w { s.slot w with dirty := false }) := by
  have hslot : ∀ w', (s.setSlot w { s.slot w with dirty := false }).slot w' = s.slot w' ∨
      (w' = w ∧ (s.setSlot w { s.slot w with dirty := false }).slot w' =
        { s.slot w with dirty := false }) := by
    intro w'
    by_cases he : w' = w
    · exact .inr ⟨he, he ▸ Function.update_self ..⟩
    · exact .inl (Function.update_of_ne he ..)
  refine ⟨rfl, rfl, fun w' => ?_, fun w' => ?_, fun w' hd => ?_, fun _ _ => rfl⟩
  · rcases hslot w' with he | ⟨rfl, he⟩ <;> rw [he]
  · rcases hslot w' with he | ⟨rfl, he⟩ <;> rw [he]
  · rcases hslot w' with he | ⟨rfl, he⟩
    · exact he ▸ hd
    · rw [he] at hd
      cases hd

/-! ### Commits -/

theorem Coherent.putBack (h : Coherent c R s) : Coherent c R (putBack w s) ∧ Keeps R s (putBack w s) := by
  rw [Meta.putBack]
  split_ifs with hw
  · have hst : Coherent c R (s.store (s.slot w).label (s.slot w).data) := by
      refine h.store ?_ (h.data w hw.1)
      rw [h.label w hw.1]
      nofun
    have hslot : (s.store (s.slot w).label (s.slot w).data).slot = s.slot := by
      rw [store_eq]
    have hset := hst.settle (w := w) fun _ => by
      rw [hslot]
      exact h.has_store_self
    have hkeeps : Keeps R s _ :=
      store_keeps.trans (settle_keeps (s := s.store (s.slot w).label (s.slot w).data) (w := w))
    rw [hslot] at hset hkeeps
    exact ⟨hset, hkeeps⟩
  · exact ⟨h, .refl s⟩

theorem Coherent.flushes (h : Coherent c R s) (hp : Plain R io) {f : Meta → Meta} (hf : f ∈ flushes io) :
    Coherent c R (f s) ∧ Keeps R s (f s) := by
  rcases List.mem_append.mp hf with hf | hf
  · simp only [List.mem_cons, List.not_mem_nil, or_false] at hf
    rcases hf with rfl | rfl | rfl
    · exact h.putBack
    · exact h.putBack
    · exact h.putBack
  · obtain ⟨x, hx, rfl⟩ := List.mem_map.mp hf
    exact ⟨h.put (hp x hx), put_keeps (hp x hx)⟩

theorem Coherent.fold (h : Coherent c R s) (hp : Plain R io) {l : List (Meta → Meta)}
    (hl : ∀ f ∈ l, f ∈ Meta.flushes io) :
    Coherent c R (l.foldl (fun s f => f s) s) ∧ Keeps R s (l.foldl (fun s f => f s) s) := by
  induction l generalizing s with
  | nil => exact ⟨h, .refl s⟩
  | cons f l ih =>
    obtain ⟨h₁, hk⟩ := h.flushes hp (hl f List.mem_cons_self)
    obtain ⟨h₂, hk'⟩ := ih h₁ fun g hg => hl g (List.mem_cons_of_mem f hg)
    exact ⟨h₂, hk.trans hk'⟩

theorem Coherent.flushMeta (h : Coherent c R s) (hp : Plain R io) :
    Coherent c R (s.flushMeta io).1 ∧ Keeps R s (s.flushMeta io).1 :=
  h.fold hp fun _ hf => List.mem_of_mem_take hf

/-- The journal is committed. -/
theorem Coherent.fsCommit (h : Coherent c R s) (k : ℕ) :
    Coherent c R { s with fs := (s.fs.commit c k).1 } := by
  refine h.of_fs (fun hj => ?_) (fun b hb => ?_) (fun b hb hhas => hhas.commit (h.apart b hb).2)
    (fun b hb => ?_)
  · have hnil := h.direct hj
    rcases cache_commit s.fs k with he | he
    · exact he.trans hnil
    · exact he
  · obtain ⟨d, hd⟩ := mem_cached_iff.mp hb
    rcases cache_commit s.fs k with he | he
    · exact h.known b (mem_cached (he ▸ hd))
    · rw [he] at hd
      cases hd
  · have hout := (h.apart b hb).2
    refine ⟨?_, fun d hd => (h.own b hb).2 d (mem_of_commit hd)⟩
    rcases (commit_cases s.fs hout k).1 with he | hin
    · show s.past b ((s.fs.commit c k).1.dev b.toNat)
      rw [he]
      exact (h.own b hb).1
    · exact (h.own b hb).2 _ hin

theorem Coherent.commit (h : Coherent c R s) (hp : Plain R io) :
    Coherent c R (s.commit c io).1 ∧ Keeps R s (s.commit c io).1 := by
  obtain ⟨h₁, hk⟩ := h.flushMeta hp
  rw [Meta.commit]
  dsimp only
  split_ifs
  · exact ⟨h₁.fsCommit io.k, hk.trans ⟨rfl, rfl, fun _ => rfl, fun _ => rfl, fun _ h => h, fun _ _ => rfl⟩⟩
  · exact ⟨h₁, hk⟩

/-- A metadata write is made in a state that a commit may have been made in before. -/
theorem Coherent.writeMetaBlk (h : Coherent c R s) (hp : Plain R io) (b : Word) (d : Block) :
    ∃ u, Coherent c R u ∧ Keeps R s u ∧
      (s.writeMetaBlk c b d io = (u.store b d, true) ∨ s.writeMetaBlk c b d io = (u, false)) := by
  rw [Meta.writeMetaBlk]
  obtain ⟨h₁, hk⟩ := h.commit hp
  split_ifs
  · exact ⟨_, h₁, hk, .inl rfl⟩
  · exact ⟨_, h₁, hk, .inr rfl⟩
  · exact ⟨s, h, .refl s, .inl rfl⟩
  · exact ⟨s, h, .refl s, .inl rfl⟩
  · exact ⟨s, h, .refl s, .inr rfl⟩

/-! ### The buffers -/

theorem Coherent.clean (h : Coherent c R s) (hp : Plain R io) (w : Which) :
    Coherent c R (s.clean c w io).1 ∧ Keeps R s (s.clean c w io).1 ∧ ((s.clean c w io).2 = true →
      (s.slot w).label ≠ 0 → ((s.clean c w io).1.slot w).dirty = false) := by
  rw [Meta.clean]
  split_ifs with hw
  · obtain ⟨u, hu, hk, he | he⟩ := h.writeMetaBlk hp (s.slot w).label (s.slot w).data
    · rw [he]
      dsimp only
      rw [if_pos rfl]
      have hrole : R (s.slot w).label = some (.slot w) := h.label w hw.1
      have hst : Coherent c R (u.store (s.slot w).label (s.slot w).data) := by
        refine hu.store ?_ ?_
        · rw [hrole]
          nofun
        · rw [hk.logical _ (by rw [hrole]; nofun)]
          exact h.data w hw.1
      have hslot : (u.store (s.slot w).label (s.slot w).data).slot = u.slot := by
        rw [store_eq]
      refine ⟨hst.settle fun _ => ?_, (hk.trans store_keeps).trans settle_keeps, fun _ _ => ?_⟩
      · rw [hslot, hk.label w, hk.data w]
        exact hu.has_store_self
      · exact congrArg Slot.dirty (slot_setSlot_self _ w _)
    · rw [he]
      dsimp only
      rw [if_neg (by nofun)]
      exact ⟨hu, hk, nofun⟩
  · refine ⟨h, .refl s, fun _ hne => ?_⟩
    by_contra hd
    exact hw ⟨hne, by simpa using hd⟩

theorem readBlk_eq {v : Block} (h : s.fs.Has b v) {ok : Bool} (hr : s.readBlk b ok = some d) :
    d = v := by
  rw [readBlk] at hr
  split at hr
  · next x hx =>
    cases hr
    obtain ⟨l, l', he, -⟩ := List.lookup_eq_some_iff.mp hx
    refine h.pending d ?_
    rw [he]
    exact List.mem_append_right l List.mem_cons_self
  · next hnone =>
    split_ifs at hr
    cases hr
    refine h.device.resolve_left fun hb => ?_
    obtain ⟨x, hx⟩ := mem_cached_iff.mp hb
    rw [List.lookup_eq_none_iff] at hnone
    simpa using hnone _ hx

/-- A block that its buffer does not stand for holds its last write below. -/
theorem Coherent.has_of_ne (h : Coherent c R s) (hb : R b = some (.slot w))
    (hl : (s.slot w).label ≠ b) : s.fs.Has b (s.logical b) := by
  refine h.below b (by rw [hb]; nofun) fun w' hw' => ?_
  rw [h.which hb hw'] at hw'
  exact absurd hw' hl

theorem Coherent.has_label (h : Coherent c R s) (hs : (s.slot w).label ≠ 0 → s.Settled w) (b : Word)
    (hb : R b ≠ none) (hl : (s.slot w).label = b) : s.fs.Has b (s.logical b) := by
  have hne : (s.slot w).label ≠ 0 := by
    rw [hl]
    exact (h.apart b hb).1
  refine h.below b hb fun w' hw' => ?_
  have hw : w' = w := h.which (hl ▸ h.label w hne) hw'
  rw [hw]
  exact hs hne

theorem Coherent.refill (h : Coherent c R s) (hb : R b = some (.slot w)) (hl : (s.slot w).label ≠ b)
    (hs : (s.slot w).label ≠ 0 → s.Settled w)
    (hio : io.read = true ∨ (s.slot w).label = 0 ∨ io.junk = (s.slot w).data) :
    Coherent c R (s.refill w b io).1 := by
  have hhas := h.has_of_ne hb hl
  rw [Meta.refill]
  split
  · next d hd =>
    have hval : d = s.logical b := readBlk_eq hhas hd
    refine h.setSlot _ _ (fun hw => if_neg hw) (fun _ => ⟨hb, hval⟩)
      (fun a ha hla _ => h.has_label hs a ha hla) (fun _ _ _ => hhas)
  · next hnone =>
    -- the read has failed: the bytes may have changed, the label has not
    have hread : io.read ≠ true := by
      intro hr
      rw [readBlk, hr] at hnone
      split at hnone <;> cases hnone
    refine h.setSlot _ s.blank (fun _ => rfl) (fun hne => ⟨h.label w hne, ?_⟩)
      (fun a _ hla hne => absurd hla hne) (fun hne _ _ => h.has_label hs _ ?_ rfl)
    · rw [(hio.resolve_left hread).resolve_left hne]
      exact h.data w hne
    · rw [h.label w hne]
      nofun

theorem refill_eq (hr : (s.refill w b io).2 = true) (h : s.fs.Has b d) :
    ((s.refill w b io).1.slot w).label = b ∧ ((s.refill w b io).1.slot w).data = d := by
  rw [Meta.refill] at hr ⊢
  split at hr
  · next x hx =>
    have hslot := slot_setSlot_self s w { s.slot w with label := b, data := x }
    exact ⟨congrArg Slot.label hslot, (congrArg Slot.data hslot).trans (readBlk_eq h hx)⟩
  · cases hr

theorem refill_role : (s.refill w b io).1.role = s.role := by
  rw [Meta.refill]
  split <;> rfl

/-- What is in the buffer when one of the accessors succeeds. -/
theorem Coherent.get_data (h : Coherent c R s) (hp : Plain R io) (hb : R b = some (.slot w))
    (hg : (s.get c w b io).2 = true) :
    ((s.get c w b io).1.slot w).label = b ∧ ((s.get c w b io).1.slot w).data = s.logical b := by
  have hb0 : b ≠ 0 := (h.apart b (by rw [hb]; nofun)).1
  rw [Meta.get, if_neg (fun hi => hb0 hi.2)] at hg ⊢
  by_cases hl : (s.slot w).label = b
  · rw [if_pos hl]
    refine ⟨hl, ?_⟩
    rw [h.data w (by rw [hl]; exact hb0), hl]
  · rw [if_neg hl] at hg ⊢
    obtain ⟨h₁, hk, -⟩ := h.clean hp w
    dsimp only at hg ⊢
    by_cases hc : (s.clean c w io).2 = true
    · rw [if_pos hc] at hg ⊢
      have hval : (s.clean c w io).1.logical b = s.logical b := hk.logical b (by rw [hb]; nofun)
      rw [← hval]
      exact refill_eq hg (h₁.has_of_ne hb (by rw [hk.label w]; exact hl))
    · rw [if_neg hc] at hg
      exact absurd hg hc

theorem Coherent.get (h : Coherent c R s) (hp : Plain R io) (hb : R b = some (.slot w))
    (hr : s.Retargets w b io) : Coherent c R (s.get c w b io).1 ∧ (s.get c w b io).1.role = s.role := by
  rw [Meta.get]
  split_ifs with hi hl
  · exact ⟨h, rfl⟩
  · exact ⟨h, rfl⟩
  · obtain ⟨hio, hbl⟩ := hr.resolve_left hl
    obtain ⟨h₁, hk, hd⟩ := h.clean hp w
    dsimp only
    split_ifs with hc
    · refine ⟨h₁.refill hb ?_ (fun hne => ⟨hd hc ?_, ?_⟩) ?_, ?_⟩
      · rw [hk.label w]
        exact hl
      · rw [← hk.label w]
        exact hne
      · rw [hk.blank]
        exact hbl
      · rw [hk.label w, hk.data w]
        exact hio
      · rw [refill_role, hk.role]
    · exact ⟨h₁, hk.role⟩

/-- A block is written through its buffer, which is then no more what lies below. -/
theorem Coherent.alter (h : Coherent c R s) (x : Slot) (bl : Bool) (hbl : w ≠ .indirect → bl = s.blank)
    (hl : x.label = b) (hb : R b = some (.slot w)) (hun : x.dirty = true ∨ (w = .indirect ∧ bl = true))
    (hold : ∀ a, R a ≠ none → (s.slot w).label = a → b ≠ a → s.fs.Has a (s.logical a)) :
    Coherent c R ((({ s with blank := bl } : Meta).setSlot w x).note b x.data) := by
  subst hl
  have hself : (Function.update s.slot w x) w = x := Function.update_self ..
  refine ⟨h.direct, h.apart, h.known, fun w' hw => ?_, fun w' hw => ?_, fun a ha hw => ?_,
    fun a ha => ⟨past_note (h.own a ha).1, fun y hy => past_note ((h.own a ha).2 y hy)⟩,
    fun a ha => now_note h.now ha⟩
  · change (Function.update s.slot w x w').label ≠ 0 at hw
    show R (Function.update s.slot w x w').label = _
    by_cases he : w' = w
    · subst he
      rw [hself]
      exact hb
    · rw [Function.update_of_ne he] at hw ⊢
      exact h.label w' hw
  · change (Function.update s.slot w x w').label ≠ 0 at hw
    show (Function.update s.slot w x w').data =
      Function.update s.logical x.label x.data (Function.update s.slot w x w').label
    by_cases he : w' = w
    · subst he
      rw [hself, Function.update_self]
    · rw [Function.update_of_ne he] at hw ⊢
      rw [Function.update_of_ne fun hl => he (h.which hb hl)]
      exact h.data w' hw
  · have hsettled : ∀ w', (Function.update s.slot w x w').label = a →
        (Function.update s.slot w x w').dirty = false ∧ ¬(w' = .indirect ∧ bl) := hw
    show s.fs.Has a (Function.update s.logical x.label x.data a)
    by_cases hxa : x.label = a
    · obtain ⟨hd, hi⟩ := hsettled w (by rw [hself]; exact hxa)
      rw [hself] at hd
      rcases hun with hx | hx
      · rw [hd] at hx
        cases hx
      · exact absurd hx hi
    · rw [Function.update_of_ne (Ne.symm hxa)]
      by_cases hla : (s.slot w).label = a
      · exact hold a ha hla hxa
      · refine h.below a ha fun w' hw' => ?_
        have hne : w' ≠ w := by
          rintro rfl
          exact hla hw'
        obtain ⟨hd, hi⟩ := hsettled w' (by rw [Function.update_of_ne hne]; exact hw')
        rw [Function.update_of_ne hne] at hd
        refine ⟨hd, ?_⟩
        rintro ⟨rfl, hb'⟩
        exact hi ⟨rfl, by rw [hbl (Ne.symm hne)]; exact hb'⟩

theorem Coherent.update (h : Coherent c R s) (hp : Plain R io) (hb : R b = some (.slot w))
    (hr : s.Retargets w b io) (f : Block → Block) :
    Coherent c R (s.update c w b f io).1 ∧ (s.update c w b f io).1.role = s.role := by
  obtain ⟨h₁, hrole⟩ := h.get hp hb hr
  rw [Meta.update]
  dsimp only
  by_cases hg : (s.get c w b io).2 = true
  · rw [if_pos hg]
    have hl := (h.get_data hp hb hg).1
    have hdata : ((s.get c w b io).1.slot w).data = (s.get c w b io).1.logical b := by
      rw [h₁.data w (by rw [hl]; exact (h.apart b (by rw [hb]; nofun)).1), hl]
    refine ⟨?_, hrole⟩
    rw [← hdata]
    exact h₁.alter _ _ (fun hw => if_neg hw) hl hb (.inl rfl) fun a _ hla hne =>
      absurd (hl.symm.trans hla) hne
  · rw [if_neg hg]
    exact ⟨h₁, hrole⟩

theorem Coherent.fresh (h : Coherent c R s) (hp : Plain R io) (hb : R b = some (.slot .indirect))
    (hc : (s.slot .indirect).label = b ∨ ¬s.blank) :
    Coherent c R (s.fresh c b io).1 ∧ (s.fresh c b io).1.role = s.role := by
  rw [Meta.fresh]
  split_ifs with hl
  · refine ⟨?_, rfl⟩
    exact h.alter _ true (fun hw => absurd rfl hw) hl hb (.inr ⟨rfl, rfl⟩) fun a _ hla hne =>
      absurd (hl.symm.trans hla) hne
  · obtain ⟨h₁, hk, hd⟩ := h.clean hp .indirect
    dsimp only
    split_ifs with hcl
    · refine ⟨h₁.alter ⟨b, false, zeroes⟩ true (fun hw => absurd rfl hw) rfl hb (.inr ⟨rfl, rfl⟩) fun a ha hla _ => h₁.has_label (fun hne => ⟨hd hcl ?_, ?_⟩) a ha hla, hk.role⟩
      · rw [← hk.label]
        exact hne
      · rw [hk.blank]
        exact fun hi => hc.resolve_left hl hi.2
    · exact ⟨h₁, hk.role⟩

/-! ### Freeing a block -/

theorem cacheDrop_dev {fs : Fs} : (fs.cacheDrop b).dev = fs.dev := by
  rw [Fs.cacheDrop]
  split_ifs <;> rfl

/-- The indirect buffer is given up. -/
theorem Coherent.reset (h : Coherent c R s)
    (hold : ∀ a, R a ≠ none → (s.slot .indirect).label = a → s.fs.Has a (s.logical a)) :
    Coherent c R { s.setSlot .indirect ⟨0, false, zeroes⟩ with blank := false } :=
  h.setSlot _ false (fun hw => absurd rfl hw) (fun hne => absurd rfl hne)
    (fun a ha hla _ => hold a ha hla) (fun hne => absurd rfl hne)

theorem drop_eq (t : Meta) (h : b ∉ t.fs.cached) : { t with fs := t.fs.cacheDrop b } = t := by
  rw [Fs.cacheDrop, if_neg h]

/-- A block of which nothing is pending can be forgotten without being freed. -/
theorem Coherent.forget_clean (h : Coherent c R s) (hn : ¬s.Pends b) : Coherent c R (s.forget b) := by
  have hb : b ∉ s.fs.cached := fun hb => hn (.inl hb)
  by_cases hl : (s.slot .indirect).label = b
  · have he : s.forget b = { s.setSlot .indirect ⟨0, false, zeroes⟩ with blank := false } := by
      rw [Meta.forget, if_pos hl]
      exact drop_eq _ hb
    rw [he]
    refine h.reset (h.has_label fun _ => ⟨?_, ?_⟩)
    · by_contra hd
      exact hn (.inr ⟨hl, .inl (by simpa using hd)⟩)
    · exact fun hi => hn (.inr ⟨hl, .inr hi.2⟩)
  · have he : s.forget b = s := by
      rw [Meta.forget, if_neg hl]
      exact drop_eq _ hb
    rw [he]
    exact h

/-- A block that is not in use any more is dropped from the cache, after it was dropped from its
    buffer. -/
theorem Coherent.drop (h : Coherent c R s) (hfs : t.fs = s.fs) (hj : t.journaled = s.journaled)
    (hlog : t.logical = s.logical) (hpast : t.past = s.past)
    (hslot : ∀ w, (s.slot w).label ≠ b → t.slot w = s.slot w ∧ (w = .indirect → t.blank = s.blank))
    (hgone : ∀ w, (t.slot w).label ≠ 0 → (s.slot w).label ≠ b) :
    Coherent c (Function.update R b none) { t with fs := t.fs.cacheDrop b } := by
  have hused : ∀ a, Function.update R b none a ≠ none → a ≠ b ∧ R a ≠ none := by
    intro a ha
    have hab : a ≠ b := by
      rintro rfl
      exact ha (Function.update_self ..)
    rw [Function.update_of_ne hab] at ha
    exact ⟨hab, ha⟩
  refine ⟨fun hd => ?_, fun a ha => h.apart a (hused a ha).2, fun a ha => ?_, fun w hw => ?_,
    fun w hw => ?_, fun a ha hw => ?_, fun a ha => ⟨?_, fun x hx => ?_⟩, fun a ha => ?_⟩
  · refine List.eq_nil_iff_forall_not_mem.mpr fun x hx => ?_
    have hmem := (mem_cacheDrop hx).1
    rw [hfs, h.direct (hj ▸ hd)] at hmem
    cases hmem
  · obtain ⟨x, hx⟩ := mem_cached_iff.mp ha
    obtain ⟨hmem, hab⟩ := mem_cacheDrop hx
    rw [hfs] at hmem
    rw [Function.update_of_ne hab]
    exact h.known a (mem_cached hmem)
  · have hl := hgone w hw
    show Function.update R b none (t.slot w).label = _
    change (t.slot w).label ≠ 0 at hw
    rw [(hslot w hl).1] at hw ⊢
    rw [Function.update_of_ne hl]
    exact h.label w hw
  · have hl := hgone w hw
    show (t.slot w).data = t.logical (t.slot w).label
    change (t.slot w).label ≠ 0 at hw
    rw [(hslot w hl).1] at hw ⊢
    rw [hlog]
    exact h.data w hw
  · obtain ⟨hab, hR⟩ := hused a ha
    show (t.fs.cacheDrop b).Has a (t.logical a)
    rw [hfs, hlog]
    refine (h.below a hR fun w hla => ?_).cacheDrop_of_ne hab
    obtain ⟨hsl, hbl⟩ := hslot w (by rw [hla]; exact hab)
    obtain ⟨hd, hi⟩ := hw w (by show (t.slot w).label = a; rw [hsl]; exact hla)
    change (t.slot w).dirty = false at hd
    change ¬(w = .indirect ∧ t.blank) at hi
    rw [hsl] at hd
    refine ⟨hd, fun hw' => hi ⟨hw'.1, ?_⟩⟩
    rw [hbl hw'.1]
    exact hw'.2
  · show t.past a ((t.fs.cacheDrop b).dev a.toNat)
    rw [cacheDrop_dev, hpast, hfs]
    exact (h.own a (hused a ha).2).1
  · show t.past a x
    have hmem := (mem_cacheDrop hx).1
    rw [hfs] at hmem
    rw [hpast]
    exact (h.own a (hused a ha).2).2 x hmem
  · show t.past a (t.logical a)
    rw [hpast, hlog]
    exact h.now a (hused a ha).2

theorem Coherent.forget (h : Coherent c R s) (h₁ : R b ≠ some (.slot .blockBitmap))
    (h₂ : R b ≠ some (.slot .inodeBitmap)) : Coherent c (Function.update R b none) (s.forget b) := by
  have hlabel : ∀ w, (s.slot w).label ≠ 0 → (s.slot w).label = b → w = .indirect := by
    intro w hw hb
    have hr := h.label w hw
    rw [hb] at hr
    cases w with
    | blockBitmap => exact absurd hr h₁
    | inodeBitmap => exact absurd hr h₂
    | indirect => rfl
  rw [Meta.forget]
  by_cases hl : (s.slot .indirect).label = b
  · rw [if_pos hl]
    have hother : ∀ w, w ≠ .indirect →
        (s.setSlot .indirect ⟨0, false, zeroes⟩).slot w = s.slot w := fun w hw => Function.update_of_ne hw ..
    refine h.drop rfl rfl rfl rfl (fun w hw => ?_) (fun w hw hb => ?_)
    · have hi : w ≠ .indirect := by
        rintro rfl
        exact hw hl
      exact ⟨hother w hi, fun hw' => absurd hw' hi⟩
    · change ((s.setSlot .indirect ⟨0, false, zeroes⟩).slot w).label ≠ 0 at hw
      have hi : w ≠ .indirect := by
        rintro rfl
        rw [slot_setSlot_self] at hw
        exact hw rfl
      rw [hother w hi] at hw
      exact hi (hlabel w hw hb)
  · rw [if_neg hl]
    refine h.drop rfl rfl rfl rfl (fun w _ => ⟨rfl, fun _ => rfl⟩) (fun w hw hb => ?_)
    have hi := hlabel w hw hb
    subst hi
    exact hl hb

theorem forget_role : (s.forget b).role = s.role := by
  rw [Meta.forget]
  dsimp only
  split_ifs <;> rfl

theorem Coherent.bdealloc (h : Coherent c s.role s) {m : Word} {f : Block → Block}
    (hl : Legal c s (.free b m f io)) (hc : Careful c s (.free b m f io)) :
    Coherent c (s.bdealloc c b m f io).1.role (s.bdealloc c b m f io).1 := by
  obtain ⟨h₁, h₂, hm, hp⟩ := hl
  obtain ⟨hr, hpend⟩ := hc
  have hmb : m ≠ b := by
    rintro rfl
    exact h₁ hm
  have hm' : Function.update s.role b none m = some (.slot .blockBitmap) := by
    rw [Function.update_of_ne hmb]
    exact hm
  obtain ⟨hoff, hrole⟩ := (h.forget h₁ h₂).update hp hm' hr f
  rw [forget_role] at hrole
  rw [Meta.bdealloc]
  split_ifs with hb
  · exact h
  dsimp only
  by_cases hu : ((s.forget b).update c .blockBitmap m f io).2 = true
  · rw [if_pos hu]
    show Coherent c (Function.update _ b none) _
    rw [hrole]
    exact ⟨hoff.direct, hoff.apart, hoff.known, hoff.label, hoff.data, hoff.below, hoff.own, hoff.now⟩
  · rw [if_neg hu]
    -- the bitmap could not be fetched, and nothing of the block was pending
    have hget : ((s.forget b).get c .blockBitmap m io).2 ≠ true := by
      intro hg
      apply hu
      rw [Meta.update]
      dsimp only
      rw [if_pos hg]
    have hclean : Coherent c s.role (s.forget b) := by
      by_cases hn : s.role b = none
      · have he : Function.update s.role b none = s.role := by
          rw [← hn]
          exact Function.update_eq_self ..
        have hf := h.forget h₁ h₂
        rw [he] at hf
        exact hf
      · exact h.forget_clean fun hpb => hget (hpend hpb hn)
    have hp' : Plain s.role io := by
      intro x hx
      have hpx := hp x hx
      by_cases he : x.1 = b
      · rw [he, Function.update_self] at hpx
        cases hpx
      · rw [Function.update_of_ne he] at hpx
        exact hpx
    rw [hrole]
    exact (hclean.update hp' hm hr f).1

/-! ### Runs -/

/-- A block comes into use as metadata, with what the device holds. -/
theorem Coherent.take (h : Coherent c s.role s) {r : Role} (hl : Legal c s (.take b r)) :
    Coherent c (step c s (.take b r)).role (step c s (.take b r)) := by
  obtain ⟨hn, hb0, hout⟩ := hl
  have hne : ∀ w, (s.slot w).label ≠ 0 → (s.slot w).label ≠ b := by
    intro w hw he
    have hr := h.label w hw
    rw [he, hn] at hr
    cases hr
  have hcached : b ∉ s.fs.cached := fun hb => h.known b hb hn
  have hpend : ∀ d, (b, d) ∉ s.fs.cache := fun d hd => hcached (mem_cached hd)
  have hrole : ∀ a, a ≠ b → Function.update s.role b (some r) a = s.role a :=
    fun a ha => Function.update_of_ne ha ..
  have hlog : ∀ a, a ≠ b → Function.update s.logical b (s.fs.dev b.toNat) a = s.logical a :=
    fun a ha => Function.update_of_ne ha ..
  have hpast : ∀ a, a ≠ b →
      Function.update s.past b (fun x => x = s.fs.dev b.toNat) a = s.past a :=
    fun a ha => Function.update_of_ne ha ..
  refine ⟨h.direct, fun a ha => ?_, fun a ha => ?_, fun w hw => ?_, fun w hw => ?_, fun a ha hw => ?_,
    fun a ha => ?_, fun a ha => ?_⟩
  · by_cases he : a = b
    · rw [he]
      exact ⟨hb0, hout⟩
    · exact h.apart a (hrole a he ▸ ha)
  · have he : a ≠ b := by
      rintro rfl
      exact hcached ha
    show Function.update s.role b (some r) a ≠ none
    rw [hrole a he]
    exact h.known a ha
  · show Function.update s.role b (some r) (s.slot w).label = _
    rw [hrole _ (hne w hw)]
    exact h.label w hw
  · show (s.slot w).data = Function.update s.logical b (s.fs.dev b.toNat) (s.slot w).label
    rw [hlog _ (hne w hw)]
    exact h.data w hw
  · show s.fs.Has a (Function.update s.logical b (s.fs.dev b.toNat) a)
    by_cases he : a = b
    · rw [he, Function.update_self]
      exact ⟨fun d hd => absurd hd (hpend d), .inr rfl⟩
    · rw [hlog a he]
      exact h.below a (hrole a he ▸ ha) hw
  · show Function.update s.past b (fun x => x = s.fs.dev b.toNat) a (s.fs.dev a.toNat) ∧
      ∀ d, (a, d) ∈ s.fs.cache → Function.update s.past b (fun x => x = s.fs.dev b.toNat) a d
    by_cases he : a = b
    · rw [he, Function.update_self]
      exact ⟨rfl, fun d hd => absurd hd (hpend d)⟩
    · rw [hpast a he]
      exact h.own a (hrole a he ▸ ha)
  · show Function.update s.past b (fun x => x = s.fs.dev b.toNat) a
      (Function.update s.logical b (s.fs.dev b.toNat) a)
    by_cases he : a = b
    · rw [he, Function.update_self, Function.update_self]
    · rw [hpast a he, hlog a he]
      exact h.now a (hrole a he ▸ ha)

/-- A data block is written. -/
theorem Coherent.dataBlock (h : Coherent c R s) (hb : R b = none) (d : Block) :
    Coherent c R { s with fs := { s.fs with dev := Function.update s.fs.dev b.toNat d } } := by
  have hdev : ∀ a, R a ≠ none → Function.update s.fs.dev b.toNat d a.toNat = s.fs.dev a.toNat := by
    intro a ha
    refine Function.update_of_ne (fun he => ha ?_) ..
    rw [BitVec.eq_of_toNat_eq he]
    exact hb
  refine h.of_fs h.direct h.known (fun a ha hhas => ⟨hhas.pending, ?_⟩) (fun a ha => ⟨?_, (h.own a ha).2⟩)
  · exact hhas.device.imp_right (hdev a ha).trans
  · show s.past a (Function.update s.fs.dev b.toNat d a.toNat)
    rw [hdev a ha]
    exact (h.own a ha).1

theorem Coherent.write (h : Coherent c s.role s) (hl : Legal c s (.write b d io)) :
    Coherent c (step c s (.write b d io)).role (step c s (.write b d io)) := by
  obtain ⟨hb, hp⟩ := hl
  obtain ⟨u, hu, hk, he | he⟩ := h.writeMetaBlk hp b d
  · have hst : step c s (.write b d io) = (u.store b d).note b d := by
      rw [step, he, if_pos rfl]
    have hrole : ((u.store b d).note b d).role = u.role := by
      rw [store_eq]
      rfl
    rw [hst, hrole, hk.role]
    exact hu.put hb
  · have hst : step c s (.write b d io) = u := by
      rw [step, he, if_neg (by nofun)]
    rw [hst, hk.role]
    exact hu

/-- Every step that meets the condition keeps the buffers coherent. -/
theorem Coherent.step {o : Op} (h : Coherent c s.role s) (hl : Legal c s o) (hc : Careful c s o) :
    Coherent c (step c s o).role (step c s o) := by
  cases o with
  | take b r => exact h.take hl
  | write b d io => exact h.write hl
  | get w b io =>
    obtain ⟨h₁, hrole⟩ := h.get hl.2 hl.1 hc
    rw [Meta.step, hrole]
    exact h₁
  | update w b f io =>
    obtain ⟨h₁, hrole⟩ := h.update hl.2 hl.1 hc f
    rw [Meta.step, hrole]
    exact h₁
  | clean w io =>
    obtain ⟨h₁, hk, -⟩ := h.clean hl w
    rw [Meta.step, hk.role]
    exact h₁
  | fresh b io =>
    obtain ⟨h₁, hrole⟩ := h.fresh hl.2 hl.1 hc
    rw [Meta.step, hrole]
    exact h₁
  | free b m f io => exact h.bdealloc hl hc
  | commit io =>
    obtain ⟨h₁, hk⟩ := h.commit hl
    rw [Meta.step, hk.role]
    exact h₁
  | data b d ok =>
    rw [Meta.step]
    split_ifs
    · exact h.dataBlock hl d
    · exact h

theorem Mint.coherent (h : Mint c s) : Coherent c s.role s where
  direct _ := h.cache
  apart := h.apart
  known b hb := by
    rw [Fs.cached, h.cache] at hb
    cases hb
  label w hw := absurd (h.slots w).1 hw
  data w hw := absurd (h.slots w).1 hw
  below b hb _ := by
    refine ⟨fun d hd => ?_, .inr (h.logical b hb).symm⟩
    rw [h.cache] at hd
    cases hd
  own b hb := by
    refine ⟨h.past b hb, fun d hd => ?_⟩
    rw [h.cache] at hd
    cases hd
  now b hb := by
    rw [h.logical b hb]
    exact h.past b hb

theorem Coherent.readsBack (h : Coherent c s.role s) : ReadsBack c s := by
  have hplain : ∀ b, s.role b = some .plain → s.fs.Has b (s.logical b) := by
    intro b hb
    have hb' : s.role b ≠ none := by
      rw [hb]
      nofun
    refine h.below b hb' fun w hw => ?_
    have hr := h.label w (by rw [hw]; exact (h.apart b hb').1)
    rw [hw, hb] at hr
    cases hr
  refine ⟨fun b ok d hb hr => readBlk_eq (hplain b hb) hr, fun b ok d hb hr => ?_,
    fun w b io hb hp hg => (h.get_data hp hb hg).2⟩
  rw [readIndirectBlock] at hr
  split_ifs at hr with h0 hl
  · cases hr
    rw [h.data .indirect (by rw [hl]; exact h0), hl]
  · rcases hb with hb | hb
    · exact readBlk_eq (hplain b hb) hr
    · exact readBlk_eq (h.has_of_ne hb hl) hr

/-- In every run in which no refill fails on a buffer with a label, the indirect buffer is not taken from
    a block that has only been zeroed, and no pending block is given up that then cannot be freed: every
    read that succeeds gives the last write, and nothing is pending for a metadata block or on the device
    that it has not held itself. -/
theorem metadata_coherent {s₀ : Meta} (h₀ : Mint c s₀)
    (h : Reach (fun s o => some (Meta.step c s o)) (fun s o => Legal c s o ∧ Careful c s o) s₀ s) :
    ReadsBack c s ∧ s.OwnContents s.role := by
  have hinv : Coherent c s.role s := h.inv (I := fun s => Coherent c s.role s) h₀.coherent
    fun s o t hs ho ht => by
      cases ht
      exact hs.step ho.1 ho.2
  exact ⟨hinv.readsBack, hinv.own⟩

end

/-! ### The three ways to lose it -/

/-- A device whose blocks hold their numbers. -/
def numbered : Dev := fun n _ => BitVec.ofNat 32 n

/-- A file system with two block bitmaps, a single-indirect block and a directory block. -/
def mintMeta : Meta where
  fs := ⟨numbered, diskJbd, [], []⟩
  journaled := true
  limit := 100
  slot _ := ⟨0, false, zeroes⟩
  role b := if b = 3 ∨ b = 4 then some (.slot .blockBitmap) else if b = 6 then some (.slot .indirect)
    else if b = 7 then some .plain else none
  logical b := numbered b.toNat
  past b x := x = numbered b.toNat
  blank := false

/-- Nothing fails; and a read fails that has filled the buffer from block 4. -/
def allGood : Io := ⟨true, [], 9, 99, true, zeroes⟩
def readFails : Io := ⟨true, [], 9, 99, false, numbered 4⟩

theorem mint_mintMeta : Mint disk mintMeta := by
  refine ⟨rfl, fun _ => ⟨rfl, rfl⟩, rfl, fun b hb => ?_, fun _ _ => rfl, fun _ _ => rfl⟩
  have hcases : b = 3 ∨ b = 4 ∨ b = 6 ∨ b = 7 := by
    by_contra hno
    simp only [not_or] at hno
    apply hb
    show (if b = 3 ∨ b = 4 then _ else _) = none
    rw [if_neg (by tauto), if_neg hno.2.2.1, if_neg hno.2.2.2]
  have hlow : b ≠ 0 ∧ b.toNat < 500 := by
    rcases hcases with rfl | rfl | rfl | rfl <;> decide
  refine ⟨hlow.1, fun i => ?_⟩
  show 500 + i ≠ b.toNat
  omega

/-- The bitmap of the second group cannot be read into the buffer of the first; the indirect buffer is
    taken from a block that has only been zeroed; the bitmap cannot be read to free a directory block. -/
def clobberOps : List Op :=
  [.get .blockBitmap 3 allGood, .get .blockBitmap 4 readFails, .update .blockBitmap 3 id allGood,
    .clean .blockBitmap allGood]
def blankOps : List Op := [.take 5 (.slot .indirect), .fresh 5 allGood, .get .indirect 6 allGood]
def dropOps : List Op := [.write 7 zeroes allGood, .free 7 3 id readFails]

/-- Where these runs lead. -/
def ran (ops : List Op) : Meta := ops.foldl (Meta.step disk) mintMeta

theorem plain_of_nil {R : Word → Option Role} {io : Io} (h : io.extra = []) : Plain R io := by
  intro x hx
  rw [h] at hx
  cases hx

/-- A run in which nothing fails. -/
def plainOps : List Op :=
  [.write 7 zeroes allGood, .update .blockBitmap 3 id allGood, .commit allGood]

theorem metadata_coherent_plain :
    Reach (fun s o => some (Meta.step disk s o)) (fun s o => Legal disk s o ∧ Careful disk s o) mintMeta
      (ran plainOps) ∧ ReadsBack disk (ran plainOps) := by
  have hmeet : AllMeet (Meta.step disk) (fun s o => Legal disk s o ∧ Careful disk s o) mintMeta
      plainOps := by
    refine ⟨⟨⟨rfl, plain_of_nil rfl⟩, trivial⟩, ⟨⟨rfl, plain_of_nil rfl⟩, .inr ⟨.inl rfl, nofun⟩⟩,
      ⟨plain_of_nil rfl, trivial⟩, trivial⟩
  exact ⟨reach_of_allMeet hmeet, (metadata_coherent mint_mintMeta (reach_of_allMeet hmeet)).1⟩

/-- Each of the three loses a write; the first one also brings bytes of block 4 to block 3. -/
theorem coherence_lost :
    (Reach (fun s o => some (Meta.step disk s o)) (Legal disk) mintMeta (ran (clobberOps.take 2)) ∧
      ¬ReadsBack disk (ran (clobberOps.take 2))) ∧
    (Reach (fun s o => some (Meta.step disk s o)) (Legal disk) mintMeta (ran clobberOps) ∧
      (ran clobberOps).fs.cache = [(3, numbered 4)] ∧ ¬(ran clobberOps).OwnContents (ran clobberOps).role) ∧
    (Reach (fun s o => some (Meta.step disk s o)) (Legal disk) mintMeta (ran blankOps) ∧
      ¬ReadsBack disk (ran blankOps)) ∧
    Reach (fun s o => some (Meta.step disk s o)) (Legal disk) mintMeta (ran dropOps) ∧
      ¬ReadsBack disk (ran dropOps) := by
  have hget : AllMeet (Meta.step disk) (Legal disk) mintMeta (clobberOps.take 2) :=
    ⟨⟨rfl, plain_of_nil rfl⟩, ⟨rfl, plain_of_nil rfl⟩, trivial⟩
  have hclob : AllMeet (Meta.step disk) (Legal disk) mintMeta clobberOps :=
    ⟨⟨rfl, plain_of_nil rfl⟩, ⟨rfl, plain_of_nil rfl⟩, ⟨rfl, plain_of_nil rfl⟩, plain_of_nil rfl, trivial⟩
  have hblank : AllMeet (Meta.step disk) (Legal disk) mintMeta blankOps := by
    refine ⟨⟨rfl, by decide, fun i => ?_⟩, ⟨rfl, plain_of_nil rfl⟩, ⟨rfl, plain_of_nil rfl⟩, trivial⟩
    show 500 + i ≠ 5
    omega
  have hdrop : AllMeet (Meta.step disk) (Legal disk) mintMeta dropOps :=
    ⟨⟨rfl, plain_of_nil rfl⟩, ⟨nofun, nofun, rfl, plain_of_nil rfl⟩, trivial⟩
  refine ⟨⟨reach_of_allMeet hget, fun h => ?_⟩, ⟨reach_of_allMeet hclob, rfl, fun h => ?_⟩,
    ⟨reach_of_allMeet hblank, fun h => ?_⟩, reach_of_allMeet hdrop, fun h => ?_⟩
  · have hread := congrFun (h.buffer .blockBitmap 3 allGood rfl (plain_of_nil rfl) rfl) 0
    exact absurd hread (by decide +kernel)
  · have hpast : numbered 4 = numbered 3 ∨ numbered 4 = numbered 3 :=
      (h 3 nofun).2 (numbered 4) List.mem_cons_self
    rcases hpast with he | he
    · exact absurd (congrFun he 0) (by decide)
    · exact absurd (congrFun he 0) (by decide)
  · have hread : numbered 5 = zeroes := h.indirect 5 true _ (.inr rfl) rfl
    exact absurd (congrFun hread 0) (by decide)
  · have hread : numbered 7 = zeroes := h.blk 7 true _ rfl rfl
    exact absurd (congrFun hread 0) (by decide)

end Meta

end EwokOS.Ext3
