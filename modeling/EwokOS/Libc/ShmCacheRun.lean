import EwokOS.Libc.ShmCache

/-! Who has a mapping of the server.

    The mapping at an address is in a slot, or one worker has it alone; a worker that is given a buffer shares
    the slot's, by a pin, or has its own.

        shmat ─▶ worker ─▶ slot ─▶ worker (evicts) ─▶ shmdt
                    └────▶ worker (one-shot) ─▶ put ─▶ shmdt

    That is so while no `shmat` finds its segment attached: it would give a mapping that somebody has. -/

namespace EwokOS.Libc.ShmCache

open Schemes (Reach Free Crowd)

/-- Who has a mapping of the server. -/
inductive Owner (ω : Type) where
  | nobody
  | slot (i : Fin shmCacheNum)
  | worker (w : ω)
  deriving DecidableEq

/-- The segment and the address that a worker goes by. -/
def Job.buffer : Job → Option (ℤ × ℕ)
  | .mapped id addr | .evicting id addr _ | .holding id addr | .dropping id addr => some (id, addr)
  | .idle | .missed _ | .losing _ _ _ => none

variable {ω : Type}

structure Held (s : Cache ω) (own : ℕ → Owner ω) : Prop where
  kernel : s.kernel.Ok
  slot : ∀ i a, a ≠ 0 → (own a = .slot i ↔ (s.slots i).addr = a)
  cached : ∀ i, (s.slots i).addr ≠ 0 → s.kernel.Maps (s.slots i).shmId (s.slots i).addr ∧
    Crowd (Job.holds (s.slots i).addr) s.job (s.slots i).pins
  keeps : ∀ w a, (s.job w).keeps a = true → own a = .worker w
  holds : ∀ w a, (s.job w).holds a = true → own a = .worker w ∨ ∃ i, own a = .slot i
  worker : ∀ w a, own a = .worker w → (s.job w).keeps a = true ∨ (s.job w).holds a = true
  buffer : ∀ w id a, (s.job w).buffer = some (id, a) → s.kernel.Maps id a
  owned : ∀ a, own a ≠ .nobody ↔ ∃ id, s.kernel.Maps id a
  apart : ∀ w a, (s.job w).keeps a = true → (s.job w).holds a = false
  /-- Nobody loses the race for a slot. -/
  wins : ∀ w id a cached, s.job w ≠ .losing id a cached

namespace Held
variable {s t : Cache ω} {own : ℕ → Owner ω} {k : Kernel} {w : ω} {i : Fin shmCacheNum} {id : ℤ} {a : ℕ} {j : Job}

theorem start : Held (Cache.start : Cache ω) fun _ => .nobody := by
  have hmaps : ∀ id a, ¬ (Cache.start : Cache ω).kernel.Maps id a := by simp [Cache.start, Kernel.Maps]
  refine ⟨⟨by simp [Cache.start, Kernel.pairs], by simp [Cache.start, Kernel.pairs], by simp [Cache.start, Kernel.pairs],
    by simp [Cache.start], by simp [Cache.start], by simp [Cache.start]⟩, fun i a ha => ?_, ?_, ?_, ?_, (by intros; contradiction), ?_, ?_, ?_, ?_⟩
  · simp [Cache.start, Ne.symm ha]
  · simp [Cache.start]
  · simp [Cache.start, Job.keeps]
  · simp [Cache.start, Job.holds]
  · simp [Cache.start, Job.buffer]
  · simp [hmaps]
  · simp [Cache.start, Job.keeps]
  · simp [Cache.start]

/-- The kernel moves, and the server's attachments stay. -/
theorem others (h : Held s own) (hk : k.Ok) (hm : ∀ id a, k.Maps id a ↔ s.kernel.Maps id a) : Held { s with kernel := k } own :=
  ⟨hk, h.slot, fun i hi => ⟨(hm _ _).mpr (h.cached i hi).1, (h.cached i hi).2⟩, h.keeps, h.holds, h.worker,
    fun w id a hb => (hm _ _).mpr (h.buffer w id a hb), fun a => (h.owned a).trans (exists_congr fun id => (hm id a).symm), h.apart, h.wins⟩

/-- A segment that a worker has alone is in no slot. -/
theorem not_cached (h : Held s own) (hb : s.kernel.Maps id a) (hw : own a = .worker w) : s.lookup id = none := by
  refine List.find?_eq_none.mpr fun i _ hi => ?_
  simp only [decide_eq_true_eq] at hi
  obtain ⟨hne, rfl⟩ := hi
  have hm := (h.cached i hne).1
  have ha := h.kernel.addr_unique (Kernel.maps_iff.mp hm).2 (Kernel.maps_iff.mp hb).2
  have := (h.slot i _ hne).mpr rfl
  rw [ha, hw] at this
  cases this

variable [DecidableEq ω]

/-- A worker moves; a mapping that it has alone it keeps in hand or gives out. -/
theorem goto (h : Held s own)
    (hsame : ∀ b, own b ≠ .worker w → j.keeps b = (s.job w).keeps b ∧ j.holds b = (s.job w).holds b)
    (hown : ∀ b, own b = .worker w → j.keeps b = !j.holds b)
    (hb : ∀ id a, j.buffer = some (id, a) → s.kernel.Maps id a) (hj : ∀ id a c, j ≠ .losing id a c) : Held (s.goto w j) own := by
  have hcached : ∀ i, (s.slots i).addr ≠ 0 → own (s.slots i).addr ≠ .worker w := by
    intro i hi
    rw [(h.slot i _ hi).mpr rfl]
    nofun
  refine ⟨h.kernel, h.slot, fun i hi => ⟨(h.cached i hi).1, (h.cached i hi).2.stay (hsame _ (hcached i hi)).2⟩, ?_, ?_, ?_, ?_,
    h.owned, ?_, ?_⟩
  · refine (Function.forall_update_iff s.job fun v j => ∀ a, j.keeps a = true → own a = .worker v).mpr
      ⟨fun a hv => ?_, fun v _ => h.keeps v⟩
    by_cases ha : own a = .worker w
    · exact ha
    · exact h.keeps w a ((hsame a ha).1.symm.trans hv)
  · refine (Function.forall_update_iff s.job fun v j => ∀ a, j.holds a = true → own a = .worker v ∨ ∃ i, own a = .slot i).mpr
      ⟨fun a hv => ?_, fun v _ => h.holds v⟩
    by_cases ha : own a = .worker w
    · exact .inl ha
    · exact h.holds w a ((hsame a ha).2.symm.trans hv)
  · refine (Function.forall_update_iff s.job fun v j => ∀ a, own a = .worker v → j.keeps a = true ∨ j.holds a = true).mpr
      ⟨fun a hv => ?_, fun v _ => h.worker v⟩
    have := hown a hv
    cases hh : j.holds a <;> simp_all
  · exact (Function.forall_update_iff s.job fun v j => ∀ id a, j.buffer = some (id, a) → s.kernel.Maps id a).mpr
      ⟨hb, fun v _ => h.buffer v⟩
  · refine (Function.forall_update_iff s.job fun v j => ∀ a, j.keeps a = true → j.holds a = false).mpr
      ⟨fun a hv => ?_, fun v _ => h.apart v⟩
    by_cases ha : own a = .worker w
    · simpa [hv] using hown a ha
    · obtain ⟨hk, hh⟩ := hsame a ha
      rw [hh]
      exact h.apart w a (hk.symm.trans hv)
  · exact (Function.forall_update_iff s.job fun v j => ∀ id a c, j ≠ .losing id a c).mpr ⟨hj, fun v _ => h.wins v⟩

/-- A worker moves and has in hand what it had. -/
theorem stay (h : Held s own) (hk : ∀ b, j.keeps b = (s.job w).keeps b) (hh : ∀ b, j.holds b = (s.job w).holds b)
    (hb : ∀ id a, j.buffer = some (id, a) → s.kernel.Maps id a) (hj : ∀ id a c, j ≠ .losing id a c) : Held (s.goto w j) own := by
  refine h.goto (fun b _ => ⟨hk b, hh b⟩) (fun b hw => ?_) hb hj
  rw [hk, hh]
  rcases h.worker w b hw with hkeep | hhold
  · rw [hkeep, h.apart w b hkeep]
    rfl
  · cases hkeep : (s.job w).keeps b with
    | true => simp [h.apart w b hkeep] at hhold
    | false => simp [hhold]

/-- The pins of a slot move with the worker. -/
theorem turn {g : Slot} {tick : BitVec 32} (h : Held s own) (hne : (s.slots i).addr ≠ 0) (hid : g.shmId = (s.slots i).shmId)
    (haddr : g.addr = (s.slots i).addr) (hg : Crowd (Job.holds (s.slots i).addr) (Function.update s.job w j) g.pins)
    (hk : ∀ b, j.keeps b = (s.job w).keeps b) (hh : ∀ b, b ≠ (s.slots i).addr → j.holds b = (s.job w).holds b)
    (hb : ∀ id a, j.buffer = some (id, a) → s.kernel.Maps id a) (hj : ∀ id a c, j ≠ .losing id a c)
    (hapart : ∀ b, j.keeps b = true → j.holds b = false) :
    Held ({ s with slots := Function.update s.slots i g, tick := tick }.goto w j) own := by
  have hslot := (h.slot i _ hne).mpr rfl
  have haddrs : ∀ x, (Function.update s.slots i g x).addr = (s.slots x).addr := by
    intro x
    by_cases hx : x = i
    · rw [hx, Function.update_self, haddr]
    · rw [Function.update_of_ne hx]
  refine ⟨h.kernel, fun x b hb => ?_, fun x hx => ?_, ?_, ?_, ?_, ?_, h.owned, ?_, ?_⟩
  · exact (h.slot x b hb).trans (by rw [← haddrs x]; rfl)
  · change (Function.update s.slots i g x).addr ≠ 0 at hx
    change s.kernel.Maps (Function.update s.slots i g x).shmId (Function.update s.slots i g x).addr ∧
      Crowd (Job.holds (Function.update s.slots i g x).addr) (Function.update s.job w j) (Function.update s.slots i g x).pins
    rw [haddrs] at hx ⊢
    by_cases hxi : x = i
    · subst hxi
      rw [Function.update_self, hid]
      exact ⟨(h.cached x hne).1, hg⟩
    · rw [Function.update_of_ne hxi]
      refine ⟨(h.cached x hx).1, (h.cached x hx).2.stay (hh _ fun he => ?_)⟩
      have hx' := (h.slot x _ hx).mpr rfl
      rw [he, hslot] at hx'
      cases hx'
      exact hxi rfl
  · exact (Function.forall_update_iff s.job fun v j => ∀ a, j.keeps a = true → own a = .worker v).mpr
      ⟨fun a hv => h.keeps w a ((hk a).symm.trans hv), fun v _ => h.keeps v⟩
  · refine (Function.forall_update_iff s.job fun v j => ∀ a, j.holds a = true → own a = .worker v ∨ ∃ i, own a = .slot i).mpr
      ⟨fun a hv => ?_, fun v _ => h.holds v⟩
    by_cases ha : a = (s.slots i).addr
    · rw [ha]
      exact .inr ⟨i, hslot⟩
    · exact h.holds w a ((hh a ha).symm.trans hv)
  · refine (Function.forall_update_iff s.job fun v j => ∀ a, own a = .worker v → j.keeps a = true ∨ j.holds a = true).mpr
      ⟨fun a hv => ?_, fun v _ => h.worker v⟩
    have ha : a ≠ (s.slots i).addr := by
      rintro rfl
      rw [hslot] at hv
      cases hv
    rw [hk, hh a ha]
    exact h.worker w a hv
  · exact (Function.forall_update_iff s.job fun v j => ∀ id a, j.buffer = some (id, a) → s.kernel.Maps id a).mpr
      ⟨hb, fun v _ => h.buffer v⟩
  · exact (Function.forall_update_iff s.job fun v j => ∀ a, j.keeps a = true → j.holds a = false).mpr
      ⟨hapart, fun v _ => h.apart v⟩
  · exact (Function.forall_update_iff s.job fun v j => ∀ id a c, j ≠ .losing id a c).mpr ⟨hj, fun v _ => h.wins v⟩

/-- The server maps a segment that it has not attached. -/
theorem map (h : Held s own) (hjob : s.job w = .missed id) (hk : k.Ok) (hnew : ∀ id, ¬ s.kernel.Maps id a)
    (hm : ∀ id' a', k.Maps id' a' ↔ s.kernel.Maps id' a' ∨ id' = id ∧ a' = a) :
    Held ({ s with kernel := k }.goto w (.mapped id a)) (Function.update own a (.worker w)) := by
  have hnobody : own a = .nobody := by
    by_contra hne
    obtain ⟨id', hid⟩ := (h.owned a).mp hne
    exact hnew id' hid
  have hne : ∀ b, own b ≠ .nobody → b ≠ a := fun b hb he => hb (he ▸ hnobody)
  refine ⟨hk, fun i b hb => ?_, fun i hi => ?_, ?_, ?_, ?_, ?_, fun b => ?_, ?_, ?_⟩
  · by_cases hba : b = a
    · subst hba
      simp only [Function.update_self, reduceCtorEq, false_iff]
      exact fun he => hne b (by rw [(h.slot i b hb).mpr he]; nofun) rfl
    · rw [Function.update_of_ne hba]
      exact h.slot i b hb
  · refine ⟨(hm _ _).mpr (.inl (h.cached i hi).1), (h.cached i hi).2.stay ?_⟩
    rw [hjob]
    rfl
  · refine (Function.forall_update_iff s.job fun v j => ∀ b, j.keeps b = true → Function.update own a (.worker w) b = .worker v).mpr
      ⟨fun b hv => ?_, fun v _ b hv => ?_⟩
    · obtain rfl : a = b := by simpa [Job.keeps] using hv
      exact Function.update_self ..
    · have hown := h.keeps v b hv
      rw [Function.update_of_ne (hne b (by rw [hown]; nofun)), hown]
  · refine (Function.forall_update_iff s.job fun v j => ∀ b, j.holds b = true →
      Function.update own a (.worker w) b = .worker v ∨ ∃ i, Function.update own a (.worker w) b = .slot i).mpr
      ⟨fun b hv => by simp [Job.holds] at hv, fun v _ b hv => ?_⟩
    have hown := h.holds v b hv
    rwa [Function.update_of_ne (hne b (by rcases hown with hown | ⟨i, hown⟩ <;> rw [hown] <;> nofun))]
  · refine (Function.forall_update_iff s.job fun v j => ∀ b, Function.update own a (.worker w) b = .worker v →
      j.keeps b = true ∨ j.holds b = true).mpr ⟨fun b hv => ?_, fun v hvw b hv => ?_⟩
    · by_cases hba : b = a
      · simp [hba, Job.keeps]
      · rw [Function.update_of_ne hba] at hv
        have := h.worker w b hv
        simp [hjob, Job.keeps, Job.holds] at this
    · by_cases hba : b = a
      · rw [hba, Function.update_self] at hv
        cases hv
        exact absurd rfl hvw
      · rw [Function.update_of_ne hba] at hv
        exact h.worker v b hv
  · refine (Function.forall_update_iff s.job fun v j => ∀ id b, j.buffer = some (id, b) → k.Maps id b).mpr
      ⟨fun id' b hv => ?_, fun v _ id' b hv => (hm _ _).mpr (.inl (h.buffer v id' b hv))⟩
    obtain ⟨rfl, rfl⟩ : id = id' ∧ a = b := by simpa [Job.buffer] using hv
    exact (hm _ _).mpr (.inr ⟨rfl, rfl⟩)
  · change _ ↔ ∃ id', k.Maps id' b
    by_cases hba : b = a
    · simp [hba, hm]
    · rw [Function.update_of_ne hba, h.owned]
      simp [hm, hba]
  · exact (Function.forall_update_iff s.job fun v j => ∀ b, j.keeps b = true → j.holds b = false).mpr
      ⟨fun b _ => rfl, fun v _ => h.apart v⟩
  · exact (Function.forall_update_iff s.job fun v j => ∀ id a c, j ≠ .losing id a c).mpr ⟨nofun, fun v _ => h.wins v⟩

/-- A worker unmaps what it has alone. -/
theorem unmap (h : Held s own) (hkeep : ∀ b, (s.job w).keeps b = true ↔ b = a) (hk : ∀ b, j.keeps b = false)
    (hh : ∀ b, j.holds b = (s.job w).holds b) (hbuf : ∀ id b, j.buffer = some (id, b) → (s.job w).buffer = some (id, b) ∧ b ≠ a)
    (hj : ∀ id b c, j ≠ .losing id b c) :
    Held ({ s with kernel := s.kernel.shmProcUnmap a }.goto w j) (Function.update own a .nobody) := by
  have hown : own a = .worker w := h.keeps w a ((hkeep a).mpr rfl)
  obtain ⟨id, hid⟩ := (h.owned a).mp (by rw [hown]; nofun)
  obtain ⟨hok, hm⟩ := h.kernel.unmap hid
  have halone : ∀ b, own b ≠ .worker w → b ≠ a := fun b hb he => hb (he ▸ hown)
  refine ⟨hok, fun i b hb => ?_, fun i hi => ?_, ?_, ?_, ?_, ?_, fun b => ?_, ?_, ?_⟩
  · by_cases hba : b = a
    · subst hba
      simp only [Function.update_self, reduceCtorEq, false_iff]
      exact fun he => halone b (by rw [(h.slot i b hb).mpr he]; nofun) rfl
    · rw [Function.update_of_ne hba]
      exact h.slot i b hb
  · refine ⟨(hm _ _).mpr ⟨(h.cached i hi).1, halone _ ?_⟩, (h.cached i hi).2.stay (hh _)⟩
    rw [(h.slot i _ hi).mpr rfl]
    nofun
  · refine (Function.forall_update_iff s.job fun v j => ∀ b, j.keeps b = true → Function.update own a .nobody b = .worker v).mpr
      ⟨fun b hv => by simp [hk] at hv, fun v hvw b hv => ?_⟩
    have hb := h.keeps v b hv
    rw [Function.update_of_ne (halone b (by simpa [hb] using hvw)), hb]
  · refine (Function.forall_update_iff s.job fun v j => ∀ b, j.holds b = true →
      Function.update own a .nobody b = .worker v ∨ ∃ i, Function.update own a .nobody b = .slot i).mpr
      ⟨fun b hv => ?_, fun v hvw b hv => ?_⟩
    · rw [hh] at hv
      have hba : b ≠ a := by
        rintro rfl
        simp [h.apart w b ((hkeep b).mpr rfl)] at hv
      rw [Function.update_of_ne hba]
      exact h.holds w b hv
    · have hb := h.holds v b hv
      rwa [Function.update_of_ne (halone b (by rcases hb with hb | ⟨i, hb⟩ <;> simp [hb, hvw]))]
  · refine (Function.forall_update_iff s.job fun v j => ∀ b, Function.update own a .nobody b = .worker v →
      j.keeps b = true ∨ j.holds b = true).mpr ⟨fun b hv => ?_, fun v _ b hv => ?_⟩
    all_goals
      have hba : b ≠ a := by
        rintro rfl
        simp at hv
      rw [Function.update_of_ne hba] at hv
    · have := h.worker w b hv
      rw [hkeep] at this
      rw [hh]
      exact .inr (this.resolve_left hba)
    · exact h.worker v b hv
  · refine (Function.forall_update_iff s.job fun v j => ∀ id b, j.buffer = some (id, b) → (s.kernel.shmProcUnmap a).Maps id b).mpr
      ⟨fun id' b hv => ?_, fun v hvw id' b hv => ?_⟩
    · obtain ⟨hv, hba⟩ := hbuf id' b hv
      exact (hm _ _).mpr ⟨h.buffer w id' b hv, hba⟩
    · refine (hm _ _).mpr ⟨h.buffer v id' b hv, ?_⟩
      -- who goes by a buffer has it in hand, or was given it
      have hmine : (s.job v).keeps b = true ∨ (s.job v).holds b = true := by
        cases hv' : s.job v <;> simp_all [Job.buffer, Job.keeps, Job.holds]
      rintro rfl
      rcases hmine with hv | hv
      · have := h.keeps v b hv
        rw [hown] at this
        cases this
        exact hvw rfl
      · rcases h.holds v b hv with hv | ⟨i, hv⟩
        · rw [hown] at hv
          cases hv
          exact hvw rfl
        · rw [hown] at hv
          cases hv
  · change _ ↔ ∃ id', (s.kernel.shmProcUnmap a).Maps id' b
    by_cases hba : b = a
    · simp [hba, hm]
    · rw [Function.update_of_ne hba, h.owned]
      simp [hm, hba]
  · exact (Function.forall_update_iff s.job fun v j => ∀ b, j.keeps b = true → j.holds b = false).mpr
      ⟨fun b hv => by simp [hk] at hv, fun v _ => h.apart v⟩
  · exact (Function.forall_update_iff s.job fun v j => ∀ id a c, j ≠ .losing id a c).mpr ⟨hj, fun v _ => h.wins v⟩

/-- A worker puts its mapping into a slot, and has in hand what was there. -/
theorem take {g : Slot} {tick : BitVec 32} (h : Held s own) (hg : g.shmId = id ∧ g.addr = a ∧ g.pins = 1) (hjob : s.job w = .mapped id a)
    (hfree : (s.slots i).addr = 0 ∨ (s.slots i).pins = 0)
    (hkeep : ∀ b, j.keeps b = true ↔ b = (s.slots i).addr ∧ b ≠ 0) (hhold : ∀ b, j.holds b = true ↔ b = a)
    (hbuf : j.buffer = some (id, a)) :
    Held ({ s with slots := Function.update s.slots i g, tick := tick }.goto w j)
      (fun b => if b = a then .slot i else if own b = .slot i then .worker w else own b) := by
  have hown : own a = .worker w := h.keeps w a (by simp [hjob, Job.keeps])
  have hmine : ∀ b, own b = .worker w → b = a := by
    intro b hb
    have := h.worker w b hb
    simpa [hjob, Job.keeps, Job.holds, eq_comm] using this
  have hnz : ∀ b, own b ≠ .nobody → b ≠ 0 := by
    intro b hb
    obtain ⟨id', hid⟩ := (h.owned b).mp hb
    exact h.kernel.pos _ (Kernel.maps_iff.mp hid).2
  have ha : a ≠ 0 := hnz a (by rw [hown]; nofun)
  have hold : ∀ b, own b = .slot i ↔ (s.slots i).addr = b ∧ b ≠ 0 := fun b =>
    ⟨fun hb => ⟨(h.slot i b (hnz b (by rw [hb]; nofun))).mp hb, hnz b (by rw [hb]; nofun)⟩, fun hb => (h.slot i b hb.2).mpr hb.1⟩
  -- nobody uses what was in the slot
  have hidle : ∀ v b, (s.job v).holds b = true → own b ≠ .slot i := by
    intro v b hv hb
    obtain ⟨rfl, hne⟩ := (hold b).mp hb
    have hpos := (h.cached i hne).2.pos hv
    rcases hfree with h0 | h0
    · exact hne h0
    · omega
  refine ⟨h.kernel, fun x b hb => ?_, fun x hx => ?_, ?_, ?_, ?_, ?_, fun b => ?_, ?_, ?_⟩
  · change _ ↔ (Function.update s.slots i _ x).addr = b
    by_cases hx : x = i
    · subst hx
      simp only [Function.update_self, hg]
      by_cases hba : b = a
      · simp [hba]
      · by_cases hbo : own b = .slot x <;> simp [hba, hbo, Ne.symm hba]
    · rw [Function.update_of_ne hx, ← h.slot x b hb]
      by_cases hba : b = a
      · simp [hba, hown, Ne.symm hx]
      · by_cases hbo : own b = .slot i <;> simp [hba, hbo, Ne.symm hx]
  · change (Function.update s.slots i g x).addr ≠ 0 at hx
    change s.kernel.Maps (Function.update s.slots i g x).shmId (Function.update s.slots i g x).addr ∧
      Crowd (Job.holds (Function.update s.slots i g x).addr) (Function.update s.job w j) (Function.update s.slots i g x).pins
    by_cases hxi : x = i
    · subst hxi
      simp only [Function.update_self, hg]
      refine ⟨h.buffer w id a (by simp [hjob, Job.buffer]), ?_⟩
      refine (Crowd.empty (f := s.job) fun v => ?_).join (by simp [hjob, Job.holds]) ((hhold a).mpr rfl)
      by_contra hv
      rcases h.holds v a (by simpa using hv) with hv' | ⟨y, hv'⟩
      · rw [hown] at hv'
        cases hv'
        simp [hjob, Job.holds] at hv
      · rw [hown] at hv'
        cases hv'
    · simp only [Function.update_of_ne hxi] at hx ⊢
      refine ⟨(h.cached x hx).1, (h.cached x hx).2.stay ?_⟩
      have hne : (s.slots x).addr ≠ a := by
        intro he
        have := (h.slot x _ hx).mpr rfl
        rw [he, hown] at this
        cases this
      have : j.holds (s.slots x).addr = false := by simpa using (hhold (s.slots x).addr).not.mpr hne
      rw [this, hjob]
      rfl
  · refine (Function.forall_update_iff s.job fun v j => ∀ b, j.keeps b = true →
      (if b = a then Owner.slot i else if own b = .slot i then .worker w else own b) = .worker v).mpr
      ⟨fun b hv => ?_, fun v hvw b hv => ?_⟩
    · obtain ⟨hb, hb0⟩ := (hkeep b).mp hv
      have hbo := (hold b).mpr ⟨hb.symm, hb0⟩
      have hba : b ≠ a := by
        rintro rfl
        rw [hown] at hbo
        cases hbo
      simp [hba, hbo]
    · have hbo := h.keeps v b hv
      have hba : b ≠ a := by
        rintro rfl
        rw [hown] at hbo
        cases hbo
        exact hvw rfl
      simp [hba, hbo]
  · refine (Function.forall_update_iff s.job fun v j => ∀ b, j.holds b = true →
      (if b = a then Owner.slot i else if own b = .slot i then .worker w else own b) = .worker v ∨
        ∃ x, (if b = a then Owner.slot i else if own b = .slot i then .worker w else own b) = .slot x).mpr
      ⟨fun b hv => ?_, fun v hvw b hv => ?_⟩
    · rw [if_pos ((hhold b).mp hv)]
      exact .inr ⟨i, rfl⟩
    · by_cases hba : b = a
      · rw [if_pos hba]
        exact .inr ⟨i, rfl⟩
      · simp only [if_neg hba, if_neg (hidle v b hv)]
        exact h.holds v b hv
  · refine (Function.forall_update_iff s.job fun v j => ∀ b,
      (if b = a then Owner.slot i else if own b = .slot i then .worker w else own b) = .worker v →
        j.keeps b = true ∨ j.holds b = true).mpr ⟨fun b hv => ?_, fun v hvw b hv => ?_⟩
    all_goals
      by_cases hba : b = a
      · simp [hba] at hv
      rw [if_neg hba] at hv
      by_cases hbo : own b = .slot i
      on_goal 2 => rw [if_neg hbo] at hv
    · obtain ⟨hb, hb0⟩ := (hold b).mp hbo
      exact .inl ((hkeep b).mpr ⟨hb.symm, hb0⟩)
    · exact absurd (hmine b hv) hba
    · rw [if_pos hbo] at hv
      cases hv
      exact absurd rfl hvw
    · exact h.worker v b hv
  · refine (Function.forall_update_iff s.job fun v j => ∀ id b, j.buffer = some (id, b) → s.kernel.Maps id b).mpr
      ⟨fun id' b hv => ?_, fun v _ => h.buffer v⟩
    rw [hbuf] at hv
    cases hv
    exact h.buffer w id a (by simp [hjob, Job.buffer])
  · refine Iff.trans ?_ (h.owned b)
    by_cases hba : b = a
    · simp [hba, hown]
    · by_cases hbo : own b = .slot i <;> simp [hba, hbo]
  · refine (Function.forall_update_iff s.job fun v j => ∀ b, j.keeps b = true → j.holds b = false).mpr
      ⟨fun b hv => ?_, fun v _ => h.apart v⟩
    obtain ⟨hb, hb0⟩ := (hkeep b).mp hv
    have hbo := (hold b).mpr ⟨hb.symm, hb0⟩
    have hba : b ≠ a := by
      rintro rfl
      rw [hown] at hbo
      cases hbo
    simpa using (hhold b).not.mpr hba
  · refine (Function.forall_update_iff s.job fun v j => ∀ id a c, j ≠ .losing id a c).mpr ⟨fun i' a' c he => ?_, fun v _ => h.wins v⟩
    rw [he] at hbuf
    cases hbuf

omit [DecidableEq ω] in
/-- The slots that may be taken are free or unpinned. -/
theorem pick_spec (hp : s.pick = some i) : (s.slots i).addr = 0 ∨ (s.slots i).pins = 0 := by
  have hlru : ∀ (l : List (Fin shmCacheNum)) (best : BitVec 32 × Option (Fin shmCacheNum)),
      (∀ i, best.2 = some i → (s.slots i).pins = 0) → ∀ i, (l.foldl (fun best i =>
        if (s.slots i).addr ≠ 0 ∧ (s.slots i).pins = 0 ∧ (s.slots i).lru < best.1 then ((s.slots i).lru, some i) else best)
        best).2 = some i → (s.slots i).pins = 0 := by
    intro l
    induction l with
    | nil => exact fun _ h => h
    | cons x l ih =>
      intro best hb
      refine ih _ fun i hi => ?_
      dsimp only at hi
      split at hi
      · rename_i hx
        cases hi
        exact hx.2.1
      · exact hb i hi
  rcases Option.or_eq_some_iff.mp hp with hf | ⟨-, hf⟩
  · left
    simpa using List.find?_some hf
  · exact .inr (hlru _ _ (fun i hi => by cases hi) i hf)

omit [DecidableEq ω] in
theorem lookup_some (hl : s.lookup id = some i) : (s.slots i).addr ≠ 0 ∧ (s.slots i).shmId = id := by
  simpa using List.find?_some hl

theorem get (h : Held s own) (hjob : s.job w = .idle) : Held (s.get w id) own := by
  unfold Cache.get
  split
  · exact h
  · cases hl : s.lookup id with
    | some i =>
      obtain ⟨hne, rfl⟩ := lookup_some hl
      refine h.turn hne rfl rfl ((h.cached i hne).2.join (by simp [hjob, Job.holds]) (by simp [Job.holds]))
        (fun b => by simp [hjob, Job.keeps]) (fun b hb => ?_) (fun id b hb => ?_) nofun (fun b hb => by simp [Job.keeps] at hb)
      · simp [hjob, Job.holds, Ne.symm hb]
      · cases hb
        exact (h.cached i hne).1
    | none =>
      exact h.stay (fun b => by simp [hjob, Job.keeps]) (fun b => by simp [hjob, Job.holds]) nofun nofun

theorem put (h : Held s own) (hjob : s.job w = .holding id a) : Held (s.put w id a) own := by
  have hm := h.buffer w id a (by simp [hjob, Job.buffer])
  unfold Cache.put
  split
  · rename_i i hf
    obtain ⟨ha, hid⟩ : (s.slots i).addr = a ∧ (s.slots i).shmId = id := by simpa using List.find?_some hf
    have hne : (s.slots i).addr ≠ 0 := ha ▸ h.kernel.pos _ (Kernel.maps_iff.mp hm).2
    refine h.turn hne rfl rfl ((h.cached i hne).2.leave (by simp [hjob, Job.holds, ha]) rfl) (fun b => by simp [hjob, Job.keeps])
      (fun b hb => ?_) nofun nofun (fun b _ => rfl)
    simp [hjob, Job.holds, ← ha, Ne.symm hb]
  · rename_i hf
    -- no slot has it, so the worker is the only one that has
    have hown : own a = .worker w := by
      refine (h.holds w a (by simp [hjob, Job.holds])).resolve_right ?_
      rintro ⟨i, hi⟩
      have ha : a ≠ 0 := h.kernel.pos _ (Kernel.maps_iff.mp hm).2
      have haddr := (h.slot i a ha).mp hi
      refine List.find?_eq_none.mp hf i (List.mem_finRange i) ?_
      have hmi := (h.cached i (haddr ▸ ha)).1
      rw [haddr] at hmi
      simpa [haddr] using h.kernel.id_unique (Kernel.maps_iff.mp hmi).2 (Kernel.maps_iff.mp hm).2
    refine h.goto (fun b hb => ?_) (fun b hb => ?_) (fun id' b hb => ?_) nofun
    · have : a ≠ b := by
        rintro rfl
        exact hb hown
      simp [hjob, Job.keeps, Job.holds, this]
    · have := h.worker w b hb
      simp only [hjob, Job.keeps, Job.holds, Bool.false_eq_true, decide_eq_true_eq, false_or] at this
      simp [Job.keeps, Job.holds, this]
    · cases hb
      exact hm

theorem settle (h : Held s own) (hjob : s.job w = .mapped id a) : ∃ own', Held (s.settle w id a) own' := by
  have hm := h.buffer w id a (by simp [hjob, Job.buffer])
  have hown : own a = .worker w := h.keeps w a (by simp [hjob, Job.keeps])
  simp only [Cache.settle, h.not_cached hm hown]
  cases hp : s.pick with
  | none =>
    refine ⟨own, h.goto (fun b hb => ?_) (fun b hb => ?_) (fun id' b hb => ?_) nofun⟩
    · have : a ≠ b := by
        rintro rfl
        exact hb hown
      simp [hjob, Job.keeps, Job.holds, this]
    · have := h.worker w b hb
      simp only [hjob, Job.keeps, Job.holds, Bool.false_eq_true, decide_eq_true_eq, or_false] at this
      simp [Job.keeps, Job.holds, this]
    · cases hb
      exact hm
  | some i =>
    refine ⟨_, h.take ⟨rfl, rfl, rfl⟩ hjob (pick_spec hp) (fun b => ?_) (fun b => ?_) ?_⟩
    · by_cases h0 : (s.slots i).addr = 0
      · simp [h0, Job.keeps]
      · simp only [ne_eq, h0, not_false_eq_true, if_true, Job.keeps, decide_eq_true_eq]
        exact ⟨fun hb => ⟨hb.symm, hb ▸ h0⟩, fun hb => hb.1.symm⟩
    · by_cases h0 : (s.slots i).addr = 0 <;> simp [h0, Job.holds, eq_comm]
    · by_cases h0 : (s.slots i).addr = 0 <;> simp [h0, Job.buffer]

theorem run {access room : Bool} (h : Held s own) (hf : s.Fresh (.run w access room)) (ht : s.run w access room = some t) :
    ∃ own', Held t own' := by
  unfold Cache.run at ht
  simp only [Cache.Fresh] at hf
  cases hjob : s.job w with
  | idle => simp [hjob] at ht
  | holding id a => simp [hjob] at ht
  | losing id a c => exact absurd hjob (h.wins w id a c)
  | missed id =>
    simp only [hjob, Option.some.injEq] at ht hf
    subst ht
    cases hr : (s.kernel.shmProcMap id access room).1 with
    | none =>
      have hk : (s.kernel.shmProcMap id access room).2 = s.kernel := by
        unfold Kernel.shmProcMap at hr ⊢
        split
        · rfl
        · simp only at hr ⊢
          split_ifs at hr ⊢ <;> simp_all
      rw [hk]
      exact ⟨own, h.stay (fun b => by simp [hjob, Job.keeps]) (fun b => by simp [hjob, Job.holds]) nofun nofun⟩
    | some a =>
      obtain ⟨hok, ha, hm⟩ := h.kernel.map hf hr
      rw [Option.filter_some, if_pos (by simpa using ha)]
      refine ⟨_, h.map hjob hok (fun id' hid => hf ?_) hm⟩
      have h1 := (hm id' a).mpr (.inl hid)
      have h2 := (hm id a).mpr (.inr ⟨rfl, rfl⟩)
      exact hok.id_unique (Kernel.maps_iff.mp h1).2 (Kernel.maps_iff.mp h2).2 ▸ hid.1
  | mapped id a =>
    simp only [hjob, Option.some.injEq] at ht
    subst ht
    exact h.settle hjob
  | evicting id a e =>
    simp only [hjob, Option.some.injEq] at ht
    subst ht
    refine ⟨_, h.unmap (fun b => by simp [hjob, Job.keeps, eq_comm]) (fun b => rfl) (fun b => by simp [hjob, Job.holds])
      (fun id' b hb => ?_) nofun⟩
    cases hb
    refine ⟨by simp [hjob, Job.buffer], ?_⟩
    rintro rfl
    simpa [hjob, Job.keeps, Job.holds] using h.apart w a
  | dropping id a =>
    simp only [hjob, Option.some.injEq] at ht
    subst ht
    exact ⟨_, h.unmap (fun b => by simp [hjob, Job.keeps, eq_comm]) (fun b => rfl) (fun b => by simp [hjob, Job.holds]) nofun nofun⟩

theorem step {o : Event ω} (h : Held s own) (hf : s.Fresh o) (ht : s.step o = some t) : ∃ own', Held t own' := by
  cases o with
  | get w id =>
    simp only [Cache.step] at ht
    split at ht
    · rename_i hjob
      cases ht
      exact ⟨own, h.get hjob⟩
    · cases ht
  | put w =>
    simp only [Cache.step] at ht
    split at ht
    · rename_i id a hjob
      cases ht
      exact ⟨own, h.put hjob⟩
    · cases ht
  | run w access room => exact h.run hf ht
  | create id a =>
    simp only [Cache.step, Option.ite_none_left_eq_some, Option.some.injEq, Option.not_isSome_iff_eq_none] at ht
    obtain ⟨hid, rfl⟩ := ht
    obtain ⟨hok, hm⟩ := h.kernel.create hid hf.1 hf.2
    exact ⟨own, h.others hok hm⟩
  | attach id =>
    simp only [Cache.step, Option.ite_none_right_eq_some, Option.some.injEq] at ht
    obtain ⟨-, rfl⟩ := ht
    obtain ⟨hok, hm⟩ : (s.kernel.attach id).Ok ∧ _ := h.kernel.attach
    exact ⟨own, h.others hok hm⟩
  | detach id =>
    simp only [Cache.step] at ht
    split at ht
    · rename_i g hg
      simp only [Option.ite_none_right_eq_some, Option.some.injEq] at ht
      obtain ⟨hpos, rfl⟩ := ht
      obtain ⟨hmem, rfl⟩ := Kernel.itemById_some hg
      obtain ⟨hok, hm⟩ := h.kernel.detach hmem hpos
      exact ⟨own, h.others hok hm⟩
    · cases ht
  | rmid id =>
    simp only [Cache.step] at ht
    split at ht
    · rename_i g hg
      cases ht
      obtain ⟨hmem, rfl⟩ := Kernel.itemById_some hg
      split
      · rename_i hle
        obtain ⟨hok, hm⟩ := h.kernel.rmid hmem hle
        exact ⟨own, h.others hok hm⟩
      · exact ⟨own, h⟩
    · cases ht

omit [DecidableEq ω]

theorem kept (h : Held s own) : Kept s := by
  refine ⟨fun w id a hw => h.buffer w id a (by simp [hw, Job.buffer]), fun w id a hw => ?_, fun id a hm => ?_⟩
  · have hm := h.buffer w id a (by simp [hw, Job.buffer])
    exact ⟨hm, fun hu => (((h.kernel.unmap hm).2 id a).mp hu).2 rfl⟩
  · have ha : a ≠ 0 := h.kernel.pos _ (Kernel.maps_iff.mp hm).2
    cases hown : own a with
    | nobody => exact absurd hown ((h.owned a).mpr ⟨id, hm⟩)
    | slot i =>
      have haddr := (h.slot i a ha).mp hown
      refine .inl ⟨⟨i, ⟨haddr, ?_⟩, fun x hx => ?_⟩, fun w => ?_⟩
      · have hmi := (h.cached i (haddr ▸ ha)).1
        rw [haddr] at hmi
        exact h.kernel.id_unique (Kernel.maps_iff.mp hmi).2 (Kernel.maps_iff.mp hm).2
      · have := (h.slot x a ha).mpr hx.1
        rw [hown] at this
        cases this
        rfl
      · by_contra hk
        have := h.keeps w a (by simpa using hk)
        rw [hown] at this
        cases this
    | worker w =>
      refine .inr ⟨fun i hi => ?_, w, h.worker w a hown, fun v hv => ?_⟩
      · have := (h.slot i a ha).mpr hi
        rw [hown] at this
        cases this
      · rcases hv with hv | hv
        · have := h.keeps v a hv
          rw [hown] at this
          cases this
          rfl
        · rcases h.holds v a hv with hv | ⟨i, hv⟩ <;> rw [hown] at hv <;> cases hv
          rfl

end Held

variable [DecidableEq ω] {s : Cache ω}

theorem buffers_kept (h : Reach Cache.step Cache.Fresh Cache.start s) : Kept s := by
  obtain ⟨own, hown⟩ := h.inv (I := fun s => ∃ own, Held s own) ⟨_, Held.start⟩ fun s o t ⟨own, hs⟩ hf ht => hs.step hf ht
  exact hown.kept

/-- A worker maps a client's segment and hands it out, another finds it in its slot, and both put it back. -/
def shared : List (Event Bool) :=
  [.create 5 0x1000, .attach 5, .get true 5, .run true true true, .run true true true, .get false 5, .put true, .put false]

instance (o : Event ω) : Decidable (s.Fresh o) := by
  unfold Cache.Fresh
  split
  · split <;> infer_instance
  all_goals infer_instance

theorem buffers_kept_shared : ∃ s : Cache Bool, s.kernel.shms = [5] ∧ (s.slots ⟨0, by decide⟩).pins = 0 ∧ Kept s := by
  have h : (Schemes.runIf Cache.step (fun s o => decide (s.Fresh o)) Cache.start shared).map
      (fun s : Cache Bool => (s.kernel.shms, (s.slots ⟨0, by decide⟩).pins)) = some ([5], 0) := by decide +kernel
  obtain ⟨s, hs, hv⟩ := Option.map_eq_some_iff.mp h
  simp only [Prod.mk.injEq] at hv
  exact ⟨s, hv.1, hv.2, buffers_kept (Schemes.reach_of_runIf hs fun s o ho => of_decide_eq_true ho)⟩

/-- Two workers miss the same segment; the loser's `shmdt` takes it from both. -/
def raced : List (Event Bool) :=
  [.create 5 0x1000, .attach 5, .get true 5, .get false 5, .run true true true, .run false true true, .run true true true,
    .run false true true, .run false true true]

theorem buffer_unmapped : ∃ s : Cache Bool, Reach Cache.step Free Cache.start s ∧
    s.job true = .holding 5 0x1000 ∧ s.job false = .holding 5 0x1000 ∧ s.kernel.shms = [] ∧ ¬ Kept s := by
  have h : (Schemes.runOps Cache.step Cache.start raced).map
      (fun s : Cache Bool => (s.job true, s.job false, s.kernel.shms)) = some (.holding 5 0x1000, .holding 5 0x1000, []) := by
    decide +kernel
  obtain ⟨s, hs, hv⟩ := Option.map_eq_some_iff.mp h
  simp only [Prod.mk.injEq] at hv
  obtain ⟨h1, h2, h3⟩ := hv
  refine ⟨s, Schemes.reach_of_runOps hs, h1, h2, h3, fun hk => ?_⟩
  simpa [h3] using (hk.buffer true 5 0x1000 h1).1

end EwokOS.Libc.ShmCache
