import EwokOS.Schemes.Crowd
import EwokOS.Schemes.Run
import Mathlib.Data.Int.Notation
import Mathlib.Data.List.FinRange
import Mathlib.Data.List.Nodup

/-! The mapping cache of a device server (`vdevice.c`).

    A client's segment is mapped once and kept in one of the slots. The table is locked for a look, the calls
    to the kernel are made without the lock:

        get   look ─▶ hit: pin
               └────▶ shmat ─▶ look again ─▶ hit: pin, shmdt
                                 └─▶ a slot (shmdt what was in it), or none: a one-shot mapping
        put   look ─▶ unpin
               └────▶ shmdt

    The kernel keeps one attachment of a segment for a whole address space: a second `shmat` gives the same
    address and is not counted, and one `shmdt` undoes them all. -/

namespace EwokOS.Libc.ShmCache

open Schemes (Reach Free Crowd)

/-! ### The kernel's side (`mm/shm.c`) -/

/-- A segment in use (`share_mem_t`). -/
structure Item where
  id : ℤ
  addr : ℕ
  refs : ℤ

/-- The segments in use, `space->shms` of the server, and how many other spaces have a segment attached. -/
structure Kernel where
  items : List Item
  shms : List ℤ
  others : ℤ → ℕ

/-- `SHM_MAX`. -/
def shmMax : ℕ := 128

namespace Kernel
variable (k : Kernel)

/-- `shm_item_by_id`. -/
def itemById (id : ℤ) : Option Item := k.items.find? fun g => g.id = id

/-- `shm_item_by_addr`. -/
def itemByAddr (addr : ℕ) : Option Item := k.items.find? fun g => g.addr = addr

/-- `refs` of a segment moves. -/
def count (id d : ℤ) : Kernel :=
  { k with items := k.items.map fun g => if g.id = id then { g with refs := g.refs + d } else g }

/-- `free_item`. -/
def freeItem (id : ℤ) : Kernel := { k with items := k.items.filter fun g => g.id ≠ id }

/-- `shm_proc_map` for the server: `access` is whether `check_access` allows any, `room` whether `map_page`
    succeeds throughout. -/
def shmProcMap (id : ℤ) (access room : Bool) : Option ℕ × Kernel :=
  match k.itemById id with
  | none => (none, k)
  | some g =>
    if access = false then (none, k)
    else if id ∈ k.shms then (some g.addr, k)
    else if shmMax ≤ k.shms.length ∨ room = false then (none, k)
    else (some g.addr, { k.count id 1 with shms := id :: k.shms })

/-- The end of a detach: the segment goes with its last reference. -/
def drop (g : Item) : Kernel := if g.refs - 1 ≤ 0 then (k.count g.id (-1)).freeItem g.id else k.count g.id (-1)

/-- `shm_proc_unmap` for the server. -/
def shmProcUnmap (addr : ℕ) : Kernel :=
  match k.itemByAddr addr with
  | none => k
  | some g => if g.id ∈ k.shms then { k.drop g with shms := k.shms.erase g.id } else k

/-- `shm_get` makes a segment; nobody has it attached. -/
def create (id : ℤ) (addr : ℕ) : Kernel :=
  { k with items := k.items ++ [⟨id, addr, 0⟩], others := Function.update k.others id 0 }

/-- `shm_proc_map` for a space that has not got the segment. -/
def attach (id : ℤ) : Kernel := { k.count id 1 with others := Function.update k.others id (k.others id + 1) }

/-- `shm_proc_unmap` for a space that has the segment. -/
def detach (g : Item) : Kernel := { k.drop g with others := Function.update k.others g.id (k.others g.id - 1) }

/-- The server has the segment `id` attached, at `addr`. -/
def Maps (id : ℤ) (addr : ℕ) : Prop := id ∈ k.shms ∧ ∃ g ∈ k.items, g.id = id ∧ g.addr = addr

end Kernel

/-! ### The cache -/

/-- `shm_cache_t`; the address 0 is `NULL`. -/
structure Slot where
  shmId : ℤ
  addr : ℕ
  lru : BitVec 32
  pins : ℕ

/-- `SHM_CACHE_NUM`. -/
def shmCacheNum : ℕ := 16

/-- Where a worker is. -/
inductive Job where
  | idle
  /-- Its first look found nothing. -/
  | missed (id : ℤ)
  /-- Between `shmat` and the second look. -/
  | mapped (id : ℤ) (addr : ℕ)
  /-- Another worker cached the segment; before `shmdt(addr)`. -/
  | losing (id : ℤ) (addr cached : ℕ)
  /-- It has taken a slot; before `shmdt(evict)`. -/
  | evicting (id : ℤ) (addr evict : ℕ)
  /-- Between the return of `shm_cache_get` and `shm_cache_put`. -/
  | holding (id : ℤ) (addr : ℕ)
  /-- `shm_cache_put` found no slot; before `shmdt(addr)`. -/
  | dropping (id : ℤ) (addr : ℕ)
  deriving DecidableEq

structure Cache (ω : Type) where
  kernel : Kernel
  slots : Fin shmCacheNum → Slot
  tick : BitVec 32
  job : ω → Job

/-- The calls and steps of the workers, and what other processes do with the segments. -/
inductive Event (ω : Type) where
  | get (w : ω) (id : ℤ)
  | put (w : ω)
  | run (w : ω) (access room : Bool)
  | create (id : ℤ) (addr : ℕ)
  | attach (id : ℤ)
  | detach (id : ℤ)
  | rmid (id : ℤ)

namespace Cache
variable {ω : Type}

def start : Cache ω := ⟨⟨[], [], fun _ => 0⟩, fun _ => ⟨0, 0, 0, 0⟩, 0, fun _ => .idle⟩

section
variable (s : Cache ω)

/-- The slot of a segment. -/
def lookup (id : ℤ) : Option (Fin shmCacheNum) :=
  (List.finRange shmCacheNum).find? fun i => (s.slots i).addr ≠ 0 ∧ (s.slots i).shmId = id

/-- The least recently used of the slots that nobody has pinned. -/
def lruSlot : Option (Fin shmCacheNum) :=
  ((List.finRange shmCacheNum).foldl (fun best i =>
    if (s.slots i).addr ≠ 0 ∧ (s.slots i).pins = 0 ∧ (s.slots i).lru < best.1 then ((s.slots i).lru, some i) else best)
    ((0xffffffff : BitVec 32), none)).2

/-- The slot for a new mapping: a free one first. -/
def pick : Option (Fin shmCacheNum) :=
  ((List.finRange shmCacheNum).find? fun i => (s.slots i).addr = 0).or s.lruSlot

/-- A hit. -/
def pin (i : Fin shmCacheNum) : Cache ω :=
  { s with
    tick := s.tick + 1
    slots := Function.update s.slots i { s.slots i with lru := s.tick + 1, pins := (s.slots i).pins + 1 } }

end

variable [DecidableEq ω] (s : Cache ω) (w : ω)

def goto (j : Job) : Cache ω := { s with job := Function.update s.job w j }

/-- `shm_cache_get` up to `shmat`. -/
def get (id : ℤ) : Cache ω :=
  if id ≤ 0 then s
  else
    match s.lookup id with
    | some i => (s.pin i).goto w (.holding id (s.slots i).addr)
    | none => s.goto w (.missed id)

/-- The second look of `shm_cache_get`. -/
def settle (id : ℤ) (addr : ℕ) : Cache ω :=
  match s.lookup id with
  | some i => (s.pin i).goto w (.losing id addr (s.slots i).addr)
  | none =>
    match s.pick with
    | none => s.goto w (.holding id addr)
    | some i =>
      let evict := (s.slots i).addr
      let t := { s with tick := s.tick + 1, slots := Function.update s.slots i ⟨id, addr, s.tick + 1, 1⟩ }
      t.goto w (if evict ≠ 0 then .evicting id addr evict else .holding id addr)

/-- `shm_cache_put` up to `shmdt`. -/
def put (id : ℤ) (addr : ℕ) : Cache ω :=
  match (List.finRange shmCacheNum).find? fun i => (s.slots i).addr = addr ∧ (s.slots i).shmId = id with
  | some i =>
    { s with slots := Function.update s.slots i { s.slots i with pins := (s.slots i).pins - 1 } }.goto w .idle
  | none => s.goto w (.dropping id addr)

/-- The next step of a worker; `shmat` fails where it gives `NULL`. -/
def run (access room : Bool) : Option (Cache ω) :=
  match s.job w with
  | .idle | .holding _ _ => none
  | .missed id =>
    let r := s.kernel.shmProcMap id access room
    some ({ s with kernel := r.2 }.goto w (match r.1.filter (· ≠ 0) with
      | some addr => .mapped id addr
      | none => .idle))
  | .mapped id addr => some (s.settle w id addr)
  | .losing id addr cached => some ({ s with kernel := s.kernel.shmProcUnmap addr }.goto w (.holding id cached))
  | .evicting id addr evict => some ({ s with kernel := s.kernel.shmProcUnmap evict }.goto w (.holding id addr))
  | .dropping _ addr => some ({ s with kernel := s.kernel.shmProcUnmap addr }.goto w .idle)

def step : Event ω → Option (Cache ω)
  | .get w id => match s.job w with
    | .idle => some (s.get w id)
    | _ => none
  | .put w => match s.job w with
    | .holding id addr => some (s.put w id addr)
    | _ => none
  | .run w access room => s.run w access room
  | .create id addr =>
    if (s.kernel.itemById id).isSome then none
    else some { s with kernel := s.kernel.create id addr }
  | .attach id =>
    if (s.kernel.itemById id).isSome then
      some { s with kernel := s.kernel.attach id }
    else none
  | .detach id =>
    match s.kernel.itemById id with
    | some g => if 0 < s.kernel.others id then some { s with kernel := s.kernel.detach g } else none
    | none => none
  | .rmid id =>
    match s.kernel.itemById id with
    | some g => some { s with kernel := if g.refs ≤ 0 then s.kernel.freeItem id else s.kernel }
    | none => none

omit [DecidableEq ω]

/-- The step is no `shmat` of a segment that the server has attached; and a new segment gets an address of
    its own. -/
def Fresh : Event ω → Prop
  | .run w _ _ =>
    match s.job w with
    | .missed id => id ∉ s.kernel.shms
    | _ => True
  | .create _ addr => addr ≠ 0 ∧ ∀ g ∈ s.kernel.items, g.addr ≠ addr
  | .get _ _ | .put _ | .attach _ | .detach _ | .rmid _ => True

end Cache

/-- A worker has the mapping at `a` in hand, and it may be in a slot no more, or not yet. -/
def Job.keeps (a : ℕ) : Job → Bool
  | .mapped _ addr | .dropping _ addr | .evicting _ _ addr => addr = a
  | .idle | .missed _ | .losing _ _ _ | .holding _ _ => false

/-- A worker was given, or will be, the buffer at `a`. -/
def Job.holds (a : ℕ) : Job → Bool
  | .holding _ addr | .evicting _ addr _ | .losing _ _ addr => addr = a
  | .idle | .missed _ | .mapped _ _ | .dropping _ _ => false

/-- A buffer stays mapped until its put, which unmaps a mapping that is in no slot; and a mapping is in one
    slot, or in none and with one worker. -/
structure Kept {ω : Type} (s : Cache ω) : Prop where
  buffer : ∀ w id a, s.job w = .holding id a → s.kernel.Maps id a
  ended : ∀ w id a, s.job w = .dropping id a → s.kernel.Maps id a ∧ ¬ (s.kernel.shmProcUnmap a).Maps id a
  held : ∀ id a, s.kernel.Maps id a →
    ((∃! i, (s.slots i).addr = a ∧ (s.slots i).shmId = id) ∧ ∀ w, (s.job w).keeps a = false) ∨
      (∀ i, (s.slots i).addr ≠ a) ∧ ∃! w, (s.job w).keeps a = true ∨ (s.job w).holds a = true

/-! ### Attachments -/

namespace Kernel
variable {k u : Kernel} {g x : Item} {id id' d : ℤ} {a a' : ℕ} {access room : Bool}

/-- Which segment lies where. -/
def pairs (k : Kernel) : List (ℤ × ℕ) := k.items.map fun g => (g.id, g.addr)

theorem maps_iff : k.Maps id a ↔ id ∈ k.shms ∧ (id, a) ∈ k.pairs := by
  simp [Maps, pairs]

theorem mem_count : x ∈ (k.count id d).items ↔
    ∃ g ∈ k.items, (if g.id = id then { g with refs := g.refs + d } else g) = x := List.mem_map

@[simp] theorem pairs_count : (k.count id d).pairs = k.pairs := by
  simp only [pairs, count, List.map_map]
  refine List.map_congr_left fun g _ => ?_
  by_cases h : g.id = id <;> simp [h]

theorem pairs_freeItem : (k.freeItem id).pairs = k.pairs.filter fun p => p.1 ≠ id := by
  simp [pairs, freeItem, List.filter_map, Function.comp_def]

/-- Segments have ids and addresses of their own, a reference is an attachment, and what the server has
    attached is in use. -/
structure Ok (k : Kernel) : Prop where
  ids : (k.pairs.map Prod.fst).Nodup
  addrs : (k.pairs.map Prod.snd).Nodup
  pos : ∀ p ∈ k.pairs, p.2 ≠ 0
  refs : ∀ g ∈ k.items, g.refs = k.others g.id + if g.id ∈ k.shms then 1 else 0
  shms : k.shms.Nodup
  known : ∀ id ∈ k.shms, ∃ a, (id, a) ∈ k.pairs

theorem mem_pairs (hg : g ∈ k.items) : (g.id, g.addr) ∈ k.pairs := List.mem_map.mpr ⟨g, hg, rfl⟩

theorem itemById_some (h : k.itemById id = some g) : g ∈ k.items ∧ g.id = id :=
  ⟨List.mem_of_find?_eq_some h, by simpa using List.find?_some h⟩

@[simp] theorem others_drop : (k.drop g).others = k.others := by
  unfold drop
  split <;> rfl

@[simp] theorem shms_drop : (k.drop g).shms = k.shms := by
  unfold drop
  split <;> rfl

theorem pairs_drop : (k.drop g).pairs = if g.refs - 1 ≤ 0 then k.pairs.filter (fun p => p.1 ≠ g.id) else k.pairs := by
  unfold drop
  split
  · rw [pairs_freeItem, pairs_count]
  · rw [pairs_count]

namespace Ok

theorem addr_unique (h : k.Ok) (h1 : (id, a) ∈ k.pairs) (h2 : (id, a') ∈ k.pairs) : a = a' :=
  congrArg Prod.snd (List.inj_on_of_nodup_map h.ids h1 h2 rfl)

theorem id_unique (h : k.Ok) (h1 : (id, a) ∈ k.pairs) (h2 : (id', a) ∈ k.pairs) : id = id' :=
  congrArg Prod.fst (List.inj_on_of_nodup_map h.addrs h1 h2 rfl)

theorem item_unique (h : k.Ok) (hg : g ∈ k.items) (hx : x ∈ k.items) (he : x.id = g.id) : x = g := by
  have hids := h.ids
  rw [pairs, List.map_map] at hids
  exact List.inj_on_of_nodup_map hids hx hg he

/-- The segments may be fewer. -/
theorem shrink (h : k.Ok) (hp : u.pairs.Sublist k.pairs)
    (hrefs : ∀ g ∈ u.items, g.refs = u.others g.id + if g.id ∈ u.shms then 1 else 0) (hs : u.shms.Nodup)
    (hknown : ∀ id ∈ u.shms, ∃ a, (id, a) ∈ u.pairs) : u.Ok :=
  ⟨h.ids.sublist (hp.map _), h.addrs.sublist (hp.map _), fun p hm => h.pos p (hp.subset hm), hrefs, hs, hknown⟩

theorem sublist_drop : (k.drop g).pairs.Sublist k.pairs := by
  rw [pairs_drop]
  split
  · exact List.filter_sublist
  · exact List.Sublist.refl _

/-- A segment that loses a reference has one less, or is gone; the others are as they were. -/
theorem mem_drop (h : k.Ok) (hg : g ∈ k.items) (hx : x ∈ (k.drop g).items) :
    (x.id = g.id ∧ x.refs = g.refs - 1) ∨ (x.id ≠ g.id ∧ x ∈ k.items) := by
  have hx : x ∈ (k.count g.id (-1)).items := by
    unfold drop at hx
    split at hx
    · exact (List.mem_filter.mp hx).1
    · exact hx
  obtain ⟨y, hy, rfl⟩ := mem_count.mp hx
  by_cases hid : y.id = g.id
  · left
    rw [if_pos hid, h.item_unique hg hy hid]
    exact ⟨rfl, (Int.sub_eq_add_neg).symm⟩
  · right
    rw [if_neg hid]
    exact ⟨hid, hy⟩

theorem mem_pairs_drop : (id, a) ∈ (k.drop g).pairs ↔ (id, a) ∈ k.pairs ∧ (id = g.id → 0 < g.refs - 1) := by
  rw [pairs_drop]
  split
  · rename_i hle
    simp only [List.mem_filter, decide_eq_true_eq]
    exact and_congr_right fun _ => ⟨fun hne he => absurd he hne, fun hlt he => by have := hlt he; omega⟩
  · rename_i hgt
    exact ⟨fun hm => ⟨hm, fun _ => by omega⟩, And.left⟩

/-- An `shmat` of a segment that the server has not attached. -/
theorem map (h : k.Ok) (hid : id ∉ k.shms) (ha : (k.shmProcMap id access room).1 = some a) :
    (k.shmProcMap id access room).2.Ok ∧ a ≠ 0 ∧
      ∀ id' a', (k.shmProcMap id access room).2.Maps id' a' ↔ k.Maps id' a' ∨ id' = id ∧ a' = a := by
  unfold shmProcMap at ha ⊢
  cases hitem : k.itemById id with
  | none => simp [hitem] at ha
  | some g =>
    obtain ⟨hg, rfl⟩ := itemById_some hitem
    simp only [hitem, hid, if_false] at ha ⊢
    by_cases hacc : access = false
    · simp [hacc] at ha
    by_cases hroom : shmMax ≤ k.shms.length ∨ room = false
    · simp [hacc, hroom] at ha
    simp only [if_neg hacc, if_neg hroom, Option.some.injEq] at ha ⊢
    subst ha
    refine ⟨h.shrink (by change (k.count g.id 1).pairs.Sublist _; simp) (fun x hx => ?_) ?_ fun i hi => ?_,
      h.pos _ (mem_pairs hg), fun i b => ?_⟩
    · obtain ⟨y, hy, rfl⟩ := mem_count.mp hx
      have hrefs := h.refs y hy
      change _ = (k.others _ : ℤ) + if _ ∈ g.id :: k.shms then 1 else 0
      by_cases he : y.id = g.id
      · simp [he, hid] at hrefs ⊢
        omega
      · simpa [he] using hrefs
    · exact List.nodup_cons.mpr ⟨hid, h.shms⟩
    · change ∃ a, (i, a) ∈ (k.count g.id 1).pairs
      rw [pairs_count]
      rcases List.mem_cons.mp hi with rfl | hi
      · exact ⟨_, mem_pairs hg⟩
      · exact h.known i hi
    · rw [maps_iff, maps_iff]
      change i ∈ g.id :: k.shms ∧ (i, b) ∈ (k.count g.id 1).pairs ↔ _
      rw [pairs_count, List.mem_cons]
      constructor
      · rintro ⟨rfl | hi, hb⟩
        · exact .inr ⟨rfl, h.addr_unique hb (mem_pairs hg)⟩
        · exact .inl ⟨hi, hb⟩
      · rintro (⟨hi, hb⟩ | ⟨rfl, rfl⟩)
        · exact ⟨.inr hi, hb⟩
        · exact ⟨.inl rfl, mem_pairs hg⟩

/-- An `shmdt` undoes the attachment that lies at its address. -/
theorem unmap (h : k.Ok) (hm : k.Maps id a) :
    (k.shmProcUnmap a).Ok ∧ ∀ id' a', (k.shmProcUnmap a).Maps id' a' ↔ k.Maps id' a' ∧ a' ≠ a := by
  have hpair := (maps_iff.mp hm).2
  unfold shmProcUnmap
  cases hitem : k.itemByAddr a with
  | none =>
    obtain ⟨-, g, hg, -, rfl⟩ := hm
    have := List.find?_eq_none.mp hitem g hg
    simp at this
  | some g =>
    have hg := List.mem_of_find?_eq_some hitem
    have ha : g.addr = a := by simpa using List.find?_some hitem
    obtain rfl : g.id = id := h.id_unique (ha ▸ mem_pairs hg) hpair
    subst ha
    simp only [if_pos hm.1]
    refine ⟨h.shrink sublist_drop (fun x hx => ?_) (h.shms.erase _) fun i hi => ?_, fun i b => ?_⟩
    · dsimp only
      rw [others_drop]
      rcases h.mem_drop hg hx with ⟨hid, hrefs⟩ | ⟨hid, hx⟩
      · have := h.refs g hg
        rw [if_pos hm.1] at this
        rw [hid, hrefs, this, if_neg (by simp [h.shms.mem_erase_iff])]
        omega
      · simpa [h.shms.mem_erase_iff, hid] using h.refs x hx
    · obtain ⟨hne, hi⟩ := h.shms.mem_erase_iff.mp hi
      obtain ⟨b, hb⟩ := h.known i hi
      exact ⟨b, mem_pairs_drop.mpr ⟨hb, fun he => absurd he hne⟩⟩
    · rw [maps_iff, maps_iff]
      change i ∈ k.shms.erase g.id ∧ (i, b) ∈ (k.drop g).pairs ↔ _
      rw [h.shms.mem_erase_iff, mem_pairs_drop]
      constructor
      · rintro ⟨⟨hne, hi⟩, hb, -⟩
        refine ⟨⟨hi, hb⟩, ?_⟩
        rintro rfl
        exact hne (h.id_unique hb hpair)
      · rintro ⟨⟨hi, hb⟩, hne⟩
        have : i ≠ g.id := by
          rintro rfl
          exact hne (h.addr_unique hb hpair)
        exact ⟨⟨this, hi⟩, hb, fun he => absurd he this⟩

theorem create (h : k.Ok) (hid : k.itemById id = none) (ha : a ≠ 0) (hfresh : ∀ g ∈ k.items, g.addr ≠ a) :
    (k.create id a).Ok ∧ ∀ id' a', (k.create id a).Maps id' a' ↔ k.Maps id' a' := by
  have hitems : ∀ g ∈ k.items, g.id ≠ id := fun g hg => by simpa using List.find?_eq_none.mp hid g hg
  have hnew : ∀ b, (id, b) ∉ k.pairs := by
    intro b hb
    obtain ⟨g, hg, he⟩ := List.mem_map.mp hb
    exact hitems g hg (congrArg Prod.fst he)
  have hpairs : (k.create id a).pairs = k.pairs ++ [(id, a)] := by simp [pairs, Kernel.create]
  have hout : id ∉ k.shms := fun hin => by
    obtain ⟨b, hb⟩ := h.known id hin
    exact hnew b hb
  refine ⟨⟨?_, ?_, ?_, fun g hg => ?_, h.shms, fun i hi => ?_⟩, fun i b => ?_⟩
  · rw [hpairs, List.map_append, List.nodup_append]
    refine ⟨h.ids, by simp, fun i hi j hj => ?_⟩
    obtain ⟨p, hp, rfl⟩ := List.mem_map.mp hi
    obtain rfl : j = id := by simpa using hj
    rintro rfl
    exact hnew _ hp
  · rw [hpairs, List.map_append, List.nodup_append]
    refine ⟨h.addrs, by simp, fun b hb c hc => ?_⟩
    obtain ⟨p, hp, rfl⟩ := List.mem_map.mp hb
    obtain ⟨g, hg, rfl⟩ := List.mem_map.mp hp
    obtain rfl : c = a := by simpa using hc
    exact hfresh g hg
  · rw [hpairs]
    intro p hp
    rcases List.mem_append.mp hp with hp | hp
    · exact h.pos p hp
    · rw [List.mem_singleton.mp hp]
      exact ha
  · change _ = (Function.update k.others id 0 g.id : ℤ) + if g.id ∈ k.shms then 1 else 0
    rcases List.mem_append.mp hg with hg | hg
    · rw [Function.update_of_ne (hitems g hg)]
      exact h.refs g hg
    · rw [List.mem_singleton.mp hg]
      simp [hout]
  · obtain ⟨b, hb⟩ := h.known i hi
    exact ⟨b, by rw [hpairs]; exact List.mem_append_left _ hb⟩
  · rw [maps_iff, maps_iff, hpairs, List.mem_append, List.mem_singleton]
    refine and_congr_right fun hi => or_iff_left fun he => ?_
    cases he
    exact hout hi

theorem attach (h : k.Ok) : (k.attach id).Ok ∧ ∀ id' a', (k.attach id).Maps id' a' ↔ k.Maps id' a' := by
  have hpairs : (k.attach id).pairs = k.pairs := pairs_count
  refine ⟨h.shrink (by rw [hpairs]) (fun x hx => ?_) h.shms fun i hi => ?_, fun i b => ?_⟩
  · obtain ⟨y, hy, rfl⟩ := mem_count.mp hx
    have hrefs := h.refs y hy
    change _ = (Function.update k.others id (k.others id + 1) _ : ℤ) + if _ ∈ k.shms then 1 else 0
    by_cases he : y.id = id
    · simp [he] at hrefs ⊢
      omega
    · simpa [he] using hrefs
  · rw [hpairs]
    exact h.known i hi
  · rw [maps_iff, maps_iff, hpairs]
    exact Iff.rfl

/-- A segment with a reference of the server's is not freed by the others. -/
theorem detach (h : k.Ok) (hg : g ∈ k.items) (hpos : 0 < k.others g.id) :
    (k.detach g).Ok ∧ ∀ id' a', (k.detach g).Maps id' a' ↔ k.Maps id' a' := by
  have hrefs := h.refs g hg
  have hstays : ∀ i ∈ k.shms, ∀ b, (i, b) ∈ (k.drop g).pairs ↔ (i, b) ∈ k.pairs := by
    intro i hi b
    refine mem_pairs_drop.trans (and_iff_left fun he => ?_)
    rw [he] at hi
    rw [if_pos hi] at hrefs
    omega
  refine ⟨h.shrink sublist_drop (fun x hx => ?_) ?_ fun i hi => ?_, fun i b => ?_⟩
  · change _ = (Function.update k.others g.id (k.others g.id - 1) x.id : ℤ) + if x.id ∈ (k.drop g).shms then 1 else 0
    rw [shms_drop]
    rcases h.mem_drop hg hx with ⟨hid, hx⟩ | ⟨hid, hx⟩
    · rw [hid, hx, hrefs, Function.update_self]
      omega
    · rw [Function.update_of_ne hid]
      exact h.refs x hx
  · change (k.drop g).shms.Nodup
    rw [shms_drop]
    exact h.shms
  · change i ∈ (k.drop g).shms at hi
    rw [shms_drop] at hi
    obtain ⟨b, hb⟩ := h.known i hi
    exact ⟨b, (hstays i hi b).mpr hb⟩
  · rw [maps_iff, maps_iff]
    change i ∈ (k.drop g).shms ∧ (i, b) ∈ (k.drop g).pairs ↔ _
    rw [shms_drop]
    exact and_congr_right fun hi => hstays i hi b

/-- `IPC_RMID` frees a segment that nobody has attached. -/
theorem rmid (h : k.Ok) (hg : g ∈ k.items) (hle : g.refs ≤ 0) :
    (k.freeItem g.id).Ok ∧ ∀ id' a', (k.freeItem g.id).Maps id' a' ↔ k.Maps id' a' := by
  have hout : g.id ∉ k.shms := fun hin => by
    have := h.refs g hg
    rw [if_pos hin] at this
    omega
  have hmem : ∀ i ∈ k.shms, ∀ b, (i, b) ∈ (k.freeItem g.id).pairs ↔ (i, b) ∈ k.pairs := by
    intro i hi b
    rw [pairs_freeItem, List.mem_filter]
    refine and_iff_left ?_
    simp only [decide_eq_true_eq]
    rintro rfl
    exact hout hi
  refine ⟨h.shrink ?_ (fun x hx => h.refs x (List.mem_filter.mp hx).1) h.shms fun i hi => ?_, fun i b => ?_⟩
  · rw [pairs_freeItem]
    exact List.filter_sublist
  · obtain ⟨b, hb⟩ := h.known i hi
    exact ⟨b, (hmem i hi b).mpr hb⟩
  · rw [maps_iff, maps_iff]
    exact and_congr_right fun hi => hmem i hi b

end Ok

end Kernel

end EwokOS.Libc.ShmCache
