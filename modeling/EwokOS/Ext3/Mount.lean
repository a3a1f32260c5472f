import EwokOS.Ext3.JbdScan

/-! Mounting after a crash.

    A mount loads the journal and recovers. It may itself be cut short after some of its writes, and
    tried again:

        dev  --3 writes, crash-->  dev₁  --5 writes, crash-->  dev₂  --to the end-->  dev'

    What the device holds then does not depend on how often that happened, for recovery writes the
    same blocks each time, and the superblock that empties the log comes last. -/

namespace EwokOS.Ext3

open Jbd

/-- What metadata blocks should hold; a block that is none of them may hold anything. -/
abbrev Contents := Word → Option Block

/-- The device holds it. -/
def Agrees (w : Contents) (dev : Dev) : Prop := ∀ b x, w b = some x → dev b.toNat = x

/-- No block of the journal is one of these. -/
def Clear (c : Ctx) (w : Contents) : Prop := ∀ b x, w b = some x → ∀ i, c.map i ≠ b.toNat

/-- The writes of `jbd_recover`, if the log is not empty: the home blocks, then the superblock. -/
def mountWrites (c : Ctx) (dev : Dev) : List (ℕ × Block) :=
  match load c dev with
  | .error _ => []
  | .ok (j, dev) =>
    if sbStart j.sb = 0 then []
    else (recover j c dev).2.1.map (fun x => (x.block, x.data)) ++ [(c.map 0, (recover j c dev).1.sb)]

/-- A mount that goes through in the end. -/
inductive Mounted (c : Ctx) : Dev → Dev → Prop
  | done {dev dev' : Dev} {j : Jbd} (h : load c dev = .ok (j, dev')) : Mounted c dev (recover j c dev').2.2
  | again {dev dev' : Dev} (n : ℕ) (h : Mounted c (writeAll dev ((mountWrites c dev).take n)) dev') :
    Mounted c dev dev'

/-- Mounting is possible, and gives the metadata blocks these contents. -/
structure Recovers (c : Ctx) (w : Contents) (dev : Dev) : Prop where
  mounts : ∃ dev', Mounted c dev dev'
  agrees : ∀ dev', Mounted c dev dev' → Agrees w dev'

section
variable {c : Ctx} {j : Jbd} {dev : Dev} {w : Contents} {seq : Word} {start : ℕ}

theorem writeAll_append (dev : Dev) (l l' : List (ℕ × Block)) :
    writeAll dev (l ++ l') = writeAll (writeAll dev l) l' :=
  List.foldl_append ..

/-- A block all writes to which agree, and which is written to or held it before. -/
theorem writeAll_eq {l : List (ℕ × Block)} {b : ℕ} {v : Block} (h : ∀ x ∈ l, x.1 = b → x.2 = v)
    (hb : dev b = v ∨ ∃ x ∈ l, x.1 = b) : writeAll dev l b = v := by
  induction l generalizing dev with
  | nil =>
    rcases hb with hb | ⟨x, hx, -⟩
    · exact hb
    · cases hx
  | cons y l ih =>
    show writeAll (Function.update dev y.1 y.2) l b = v
    refine ih (fun x hx => h x (List.mem_cons_of_mem y hx)) ?_
    by_cases hy : y.1 = b
    · refine .inl ?_
      rw [← hy, Function.update_self]
      exact h y List.mem_cons_self hy
    · rcases hb with hb | ⟨x, hx, he⟩
      · refine .inl ?_
        rw [Function.update_of_ne (Ne.symm hy)]
        exact hb
      · rcases List.mem_cons.mp hx with rfl | hx
        · exact absurd he hy
        · exact .inr ⟨x, hx, he⟩

/-- What was written of a list before it is written as a whole makes no difference. -/
theorem writeAll_take (dev : Dev) (l : List (ℕ × Block)) (n : ℕ) :
    writeAll (writeAll dev (l.take n)) l = writeAll dev l := by
  have hone : ∀ (l : List (ℕ × Block)) (dev dev' : Dev) (b : ℕ), (dev b = dev' b ∨ ∃ x ∈ l, x.1 = b) →
      writeAll dev l b = writeAll dev' l b := by
    intro l
    induction l with
    | nil =>
      rintro dev dev' b (h | ⟨x, hx, -⟩)
      · exact h
      · cases hx
    | cons y l ih =>
      intro dev dev' b h
      refine ih _ _ b ?_
      dsimp only
      by_cases hy : y.1 = b
      · rw [← hy, Function.update_self, Function.update_self]
        exact .inl rfl
      · rw [Function.update_of_ne (Ne.symm hy), Function.update_of_ne (Ne.symm hy)]
        refine h.imp_right ?_
        rintro ⟨x, hx, he⟩
        rcases List.mem_cons.mp hx with rfl | hx
        · exact absurd he hy
        · exact ⟨x, hx, he⟩
  funext b
  refine hone l _ _ b ?_
  by_cases hb : ∃ x ∈ l, x.1 = b
  · exact .inr hb
  · exact .inl (writeAll_of_ne fun x hx he => hb ⟨x, List.mem_of_mem_take hx, he⟩)

theorem puts_eq (dev : Dev) (l : List Put) :
    puts dev l = writeAll dev (l.map fun x => (x.block, x.data)) := by
  rw [puts, writeAll, List.foldl_map]

theorem Agrees.update_map (hw : Clear c w) (h : Agrees w dev) (i : ℕ) (b : Block) :
    Agrees w (Function.update dev (c.map i) b) := by
  intro a x ha
  rw [Function.update_of_ne (hw a x ha i).symm]
  exact h a x ha

/-! ### An empty log -/

/-- The superblock says that the log is empty. -/
def EmptyLog (c : Ctx) (j : Jbd) (dev : Dev) : Prop := ∃ q, dev (c.map 0) = publish j.sb 0 q

theorem recovers_empty (ha : Accepted j) (he : EmptyLog c j dev) (h : Agrees w dev) :
    Recovers c w dev := by
  obtain ⟨q, hq⟩ := he
  have hload := load_empty ha hq
  have h0 : sbStart (publish j.sb 0 q) = 0 := sbStart_publish (by decide)
  have hnil : mountWrites c dev = [] := by
    rw [mountWrites, hload]
    exact if_pos h0
  refine ⟨⟨_, .done hload⟩, fun dev' hm => ?_⟩
  induction hm with
  | done hl =>
    rw [hload] at hl
    cases hl
    rw [recover, if_pos h0]
    exact h
  | again n hm ih =>
    rw [hnil, List.take_nil] at ih
    exact ih h hq hload hnil

/-! ### A log that says what to write -/

/-- The log with the superblock decides what recovery writes. -/
theorem recover_congr {dev' : Dev} (h : logOf c dev' = logOf c dev) (ho : Outside c (chain j c dev)) :
    Outside c (chain j c dev') ∧ (recover j c dev').2.1 = (recover j c dev).2.1 := by
  have hchain : chain j c dev' = chain j c dev := by rw [chain, chain, logRecords, logRecords, h]
  have hfound : found j c dev' = found j c dev := by rw [found, found, logRecords, logRecords, h]
  refine ⟨by rw [hchain]; exact ho, ?_⟩
  rw [recover_puts dev' (by rw [hchain]; exact ho), recover_puts dev ho, hchain, hfound, h]

/-- No write of recovery goes to the journal. -/
theorem recover_outside (ho : Outside c (chain j c dev)) :
    ∀ x ∈ (recover j c dev).2.1, ∀ i, c.map i ≠ x.block := by
  have hone : ∀ (ts : List Trans) (revs : List (Word × Word)) (q : Word) (n : ℕ), Outside c ts →
      ∀ x ∈ written c (logOf c dev) revs q n ts, ∀ i, c.map i ≠ x.block := by
    intro ts
    induction ts with
    | nil => nofun
    | cons t ts ih =>
      intro revs q n ho x hx
      rcases List.mem_append.mp hx with hx | hx
      · obtain ⟨y, hy, rfl⟩ := List.mem_map.mp hx
        exact ho t List.mem_cons_self y (List.mem_of_mem_filter hy)
      · exact ih revs (q + 1) (n + 1) (fun u hu => ho u (List.mem_cons_of_mem t hu)) x hx
  rw [recover_puts dev ho]
  exact hone _ _ _ _ ho

/-- The journal as it is loaded from a published superblock. -/
def reload (j : Jbd) (start : ℕ) (seq : Word) : Jbd :=
  { j with head := start, nextSequence := seq, sb := publish j.sb start seq }

theorem recovers_live (ha : Accepted j) (hs : InLog j start) (hw : Clear c w)
    (hsb : dev (c.map 0) = publish j.sb start seq)
    (ho : Outside c (chain (reload j start seq) c dev))
    (h : Agrees w (puts dev (recover (reload j start seq) c dev).2.1)) : Recovers c w dev := by
  obtain ⟨jl, hj⟩ : ∃ jl, jl = reload j start seq := ⟨_, rfl⟩
  rw [← hj] at ho h
  have hload : ∀ dev', logOf c dev' = logOf c dev → load c dev' = .ok (jl, dev') := by
    intro dev' hlog
    rw [hj]
    exact load_published ha hs ((congrFun hlog 0).trans hsb)
  have h0 : ¬sbStart jl.sb = 0 := by
    have h₁ := hs.1
    have h₂ := hs.2
    have h₃ := ha.first
    have h₄ := ha.maxlen
    have h₅ := (j.sb 4).isLt
    rw [hj, reload]
    dsimp only
    rw [sbStart_publish (by omega)]
    omega
  have hpub : ∀ dev', ∃ q, (recover jl c dev').1.sb = publish j.sb 0 q := by
    intro dev'
    rw [recover, if_neg h0]
    dsimp only
    rw [hj, reload]
    exact ⟨_, publish_publish ..⟩
  refine ⟨⟨_, .done (hload dev rfl)⟩, fun dev' hm => ?_⟩
  -- the log stays as it is until the superblock is written, and so do the writes that are due
  have hmain : ∀ d d', Mounted c d d' → logOf c d = logOf c dev →
      Agrees w (puts d (recover jl c dev).2.1) → Agrees w d' := by
    intro d d' hm
    induction hm with
    | done hl =>
      intro hlog hag
      rw [hload _ hlog] at hl
      cases hl
      obtain ⟨ho', hputs⟩ := recover_congr hlog ho
      rw [← hputs, recover_puts _ ho', ← (replay_spec _ h0 ho').2] at hag
      rw [recover, if_neg h0]
      exact hag.update_map hw 0 _
    | @again d d' n hm ih =>
      intro hlog hag
      obtain ⟨ho', hputs⟩ := recover_congr hlog ho
      have hwrites : mountWrites c d = (recover jl c dev).2.1.map (fun x => (x.block, x.data)) ++
          [(c.map 0, (recover jl c d).1.sb)] := by
        rw [mountWrites, hload d hlog]
        dsimp only
        rw [if_neg h0, hputs]
      rw [hwrites] at hm ih
      rcases Nat.lt_or_ge ((recover jl c dev).2.1.map fun x => (x.block, x.data)).length n with hn | hn
      · -- the log has been emptied
        rw [List.take_of_length_le (by rw [List.length_append, List.length_singleton]; omega),
          writeAll_append, ← puts_eq] at hm
        obtain ⟨q, hq⟩ := hpub d
        exact (recovers_empty ha ⟨q, (Function.update_self ..).trans hq⟩ (hag.update_map hw 0 _)).agrees _ hm
      · rw [List.take_append_of_le_length hn] at ih
        refine ih ?_ ?_
        · refine Eq.trans (funext fun i => writeAll_of_ne fun x hx => ?_) hlog
          obtain ⟨y, hy, rfl⟩ := List.mem_map.mp (List.mem_of_mem_take hx)
          exact (recover_outside ho y hy i).symm
        · rw [puts_eq, writeAll_take, ← puts_eq]
          exact hag
  exact hmain dev dev' hm rfl h

end
end EwokOS.Ext3
