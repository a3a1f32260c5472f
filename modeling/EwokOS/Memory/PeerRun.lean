import EwokOS.Memory.DmaRun
import EwokOS.Memory.Peer

/-! A peer mapping does not outlive the allocation it was made of.

    The table is right about what it tracks: every page that `sys_mem_map` mapped under a lease is
    noted with the owner of that lease (`PeerInv.tracked`), so the funeral of the owner takes every
    one of them back before its ranges become free. What goes wrong is outside of it: `sys_dma_free`
    revokes nothing, and a mapping that is not noted at all, or noted for fewer pages than it has,
    is never taken back (`free_keeps_peer`). -/

namespace EwokOS.Memory.Dma

open Schemes (Reach Free Apart same_or_apart tiles_append runOps reach_of_runOps)

section
variable {b : Build} {lay : Layout} {w w' : World} {m : Pool} {vm vm' : Vm} {pid q o : ℤ}
  {t t' : List (Option Peer)} {e : Peer} {vaddr paddr size n u f a : ℕ} {pte : Pte}

/-! ### Page tables -/

/-- Fewer entries. -/
def Vm.Below (vm' vm : Vm) : Prop := ∀ q u pte, vm' q u = some pte → vm q u = some pte

theorem Vm.Below.trans {vm'' : Vm} (h : vm''.Below vm') (h' : vm'.Below vm) : vm''.Below vm :=
  fun q u pte hp => h' q u pte (h q u pte hp)

theorem unmapPages_below : (unmapPages b vm pid vaddr n).Below vm := by
  induction n with
  | zero => exact fun _ _ _ h => h
  | succ n ih =>
    intro q u pte h
    rw [unmapPages, Vm.write] at h
    split_ifs at h
    exact ih q u pte h

/-- The pages of a range, as far as `unmap_pages` gets. -/
def Covers (b : Build) (size i : ℕ) : Prop := i < size / b.page ∧ b.page * i < 2 ^ 32

theorem covers_of_lt {i : ℕ} (hs : size < 2 ^ 32) (hi : i < size / b.page) : Covers b size i := by
  refine ⟨hi, ?_⟩
  have := Nat.mul_le_of_le_div _ _ _ hi.le
  rw [Nat.mul_comm] at this
  omega

theorem upage_eq {i : ℕ} (h : b.page * i < 2 ^ 32) : upage b vaddr i = vpage b vaddr i := by
  rw [upage, Nat.mod_eq_of_lt h, Nat.mul_div_cancel_left _ Build.page_pos]

/-- The pages asked for are gone. -/
theorem unmapPages_none {i : ℕ} (h : i < n) :
    unmapPages b vm pid vaddr n pid (upage b vaddr i) = none := by
  induction n with
  | zero => exact absurd h (Nat.not_lt_zero i)
  | succ n ih =>
    rw [unmapPages, Vm.write]
    split_ifs with hi
    · rfl
    · refine ih (Nat.lt_of_le_of_ne (Nat.lt_succ_iff.mp h) fun hin => hi ⟨rfl, ?_⟩)
      rw [hin]

theorem Covers.gone {i : ℕ} (h : Covers b size i) :
    unmapPages b vm pid vaddr (size / b.page) pid (vpage b vaddr i) = none := by
  rw [← upage_eq h.2]
  exact unmapPages_none h.1

/-- An entry is one that was written now, or one from before. -/
theorem mapPages_some {via : ℕ → Option ℕ}
    (h : mapPages b vm pid vaddr paddr via n q u = some pte) :
    (q = pid ∧ ∃ i < n, u = vpage b vaddr i ∧
      pte = ⟨paddr / b.page + i, via (paddr / b.page + i)⟩) ∨ vm q u = some pte := by
  induction n with
  | zero => exact .inr h
  | succ n ih =>
    rw [mapPages, Vm.write] at h
    split_ifs at h with hw
    · cases h
      exact .inl ⟨hw.1, n, Nat.lt_succ_self n, hw.2, rfl⟩
    · rcases ih h with ⟨hq, i, hi, hrest⟩ | h
      · exact .inl ⟨hq, i, Nat.lt_succ_of_lt hi, hrest⟩
      · exact .inr h

/-- Aligned ranges are covered page by page. -/
theorem pageCount_eq (hp : b.page ∣ paddr) (hs : b.page ∣ size) (hlt : paddr + size < b.top) :
    pageCount b paddr size = size / b.page := by
  have hpos : 0 < b.page := Build.page_pos
  have hdvd : b.page ∣ paddr + size := Nat.dvd_add hp hs
  have hle : paddr + size + b.page ≤ b.top := by
    obtain ⟨k, hk⟩ := hdvd
    obtain ⟨j, hj⟩ := (Build.page_dvd (b := b)).trans Build.top_dvd
    rw [hk, hj] at hlt ⊢
    have := Nat.lt_of_mul_lt_mul_left hlt
    rw [← Nat.mul_succ]
    exact Nat.mul_le_mul_left _ this
  rw [pageCount, Nat.mod_eq_of_lt hlt, Build.alignUp_eq (by omega), roundUp_of_dvd hpos hdvd,
    alignDown, Nat.div_mul_cancel hp, Nat.add_sub_cancel_left]

/-! ### The table -/

theorem refresh_spec (h : refresh e t = some t') :
    some e ∈ t' ∧ ∀ x, some x ∈ t → some x ∈ t' ∨
      (x.peerPid = e.peerPid ∧ x.peerVaddr = e.peerVaddr ∧ x.paddr = e.paddr) := by
  induction t generalizing t' with
  | nil => cases h
  | cons c t ih =>
    have hrest : ∀ r, refresh e t = some r → some e ∈ c :: r ∧ ∀ x, some x ∈ c :: t →
        some x ∈ c :: r ∨ (x.peerPid = e.peerPid ∧ x.peerVaddr = e.peerVaddr ∧
          x.paddr = e.paddr) := by
      intro r hr
      obtain ⟨he, hx⟩ := ih hr
      refine ⟨List.mem_cons_of_mem c he, fun x hmem => ?_⟩
      rcases List.mem_cons.mp hmem with rfl | hmem
      · exact .inl List.mem_cons_self
      · exact (hx x hmem).imp_left (List.mem_cons_of_mem c)
    cases c with
    | none =>
      obtain ⟨r, hr, rfl⟩ := Option.map_eq_some_iff.mp h
      exact hrest r hr
    | some m =>
      rw [refresh] at h
      split_ifs at h with hm
      · cases h
        have hme : ({ m with ownerPid := e.ownerPid, size := e.size } : Peer) = e := by
          cases e
          simp_all
        rw [hme]
        refine ⟨List.mem_cons_self, fun x hmem => ?_⟩
        rcases List.mem_cons.mp hmem with hx | hmem
        · cases hx
          exact .inr hm
        · exact .inl (List.mem_cons_of_mem _ hmem)
      · obtain ⟨r, hr, rfl⟩ := Option.map_eq_some_iff.mp h
        exact hrest r hr

theorem fill_spec (h : fill e t = some t') :
    some e ∈ t' ∧ ∀ x, some x ∈ t → some x ∈ t' := by
  induction t generalizing t' with
  | nil => cases h
  | cons c t ih =>
    cases c with
    | none =>
      cases h
      refine ⟨List.mem_cons_self, fun x hmem => ?_⟩
      rcases List.mem_cons.mp hmem with hx | hmem
      · cases hx
      · exact List.mem_cons_of_mem _ hmem
    | some m =>
      obtain ⟨r, hr, rfl⟩ := Option.map_eq_some_iff.mp h
      obtain ⟨he, hx⟩ := ih hr
      refine ⟨List.mem_cons_of_mem _ he, fun x hmem => ?_⟩
      rcases List.mem_cons.mp hmem with hmx | hmem
      · rw [hmx]
        exact List.mem_cons_self
      · exact List.mem_cons_of_mem _ (hx x hmem)

/-- A mapping that is noted; only a note of the same peer and range is replaced. -/
theorem kept_spec (h : dmaPeerMapByPaddr b m t pid vaddr paddr size = .kept t') :
    0 < dmaFindOwner b m paddr size ∧ 0 < pid ∧
      some ⟨dmaFindOwner b m paddr size, pid, vaddr, paddr, size⟩ ∈ t' ∧
      ∀ x, some x ∈ t → some x ∈ t' ∨
        (x.peerPid = pid ∧ x.peerVaddr = vaddr ∧ x.paddr = paddr) := by
  simp only [dmaPeerMapByPaddr] at h
  split_ifs at h with ho hp
  split at h
  · rename_i r hr
    cases h
    exact ⟨not_le.mp ho, not_le.mp hp, refresh_spec hr⟩
  · split at h
    · rename_i r hr
      cases h
      obtain ⟨he, hx⟩ := fill_spec hr
      exact ⟨not_le.mp ho, not_le.mp hp, he, fun x hmem => .inl (hx x hmem)⟩
    · cases h

theorem untracked_spec (h : dmaPeerMapByPaddr b m t pid vaddr paddr size = .untracked) :
    ¬(0 < pid ∧ 0 < dmaFindOwner b m paddr size) := by
  simp only [dmaPeerMapByPaddr] at h
  split_ifs at h with ho hp
  · exact fun hc => absurd hc.2 (not_lt.mpr ho)
  · exact fun hc => absurd hc.1 (not_lt.mpr hp)
  · split at h
    · cases h
    · split at h
      · cases h
      · cases h

/-- Revoking takes away what is noted of the owner and keeps every other note. -/
theorem revokeOwner_spec (t : List (Option Peer)) (vm : Vm) :
    (revokeOwner b o t vm).2.Below vm ∧ ∀ e, some e ∈ t →
      (e.ownerPid ≠ o → some e ∈ (revokeOwner b o t vm).1) ∧
      (e.ownerPid = o → ∀ i, Covers b e.size i →
        (revokeOwner b o t vm).2 e.peerPid (vpage b e.peerVaddr i) = none) := by
  induction t generalizing vm with
  | nil => exact ⟨fun _ _ _ h => h, fun _ h => (by cases h)⟩
  | cons c t ih =>
    cases c with
    | none =>
      obtain ⟨hb, hx⟩ := ih vm
      refine ⟨hb, fun e hmem => ?_⟩
      rcases List.mem_cons.mp hmem with h | hmem
      · cases h
      · exact ⟨fun hne => List.mem_cons_of_mem _ ((hx e hmem).1 hne), (hx e hmem).2⟩
    | some m =>
      rw [revokeOwner]
      split_ifs with hm
      · obtain ⟨hb, hx⟩ := ih (unmapPages b vm m.peerPid m.peerVaddr (m.size / b.page))
        refine ⟨hb.trans unmapPages_below, fun e hmem => ?_⟩
        rcases List.mem_cons.mp hmem with h | hmem
        · cases h
          refine ⟨fun hne => absurd hm hne, fun _ i hi => ?_⟩
          have hnone := @Covers.gone b vm m.peerPid m.peerVaddr _ i hi
          by_contra hsome
          obtain ⟨pte, hpte⟩ := Option.ne_none_iff_exists'.mp hsome
          rw [hb _ _ _ hpte] at hnone
          cases hnone
        · exact ⟨fun hne => List.mem_cons_of_mem _ ((hx e hmem).1 hne), (hx e hmem).2⟩
      · obtain ⟨hb, hx⟩ := ih vm
        refine ⟨hb, fun e hmem => ?_⟩
        rcases List.mem_cons.mp hmem with h | hmem
        · cases h
          exact ⟨fun _ => List.mem_cons_self, fun he => absurd he hm⟩
        · exact ⟨fun hne => List.mem_cons_of_mem _ ((hx e hmem).1 hne), (hx e hmem).2⟩

/-- A note that is dropped has none of its pages left. -/
theorem peerUnmap_spec (t : List (Option Peer)) (vm : Vm) :
    (peerUnmap b pid vaddr t vm).2.Below vm ∧ ∀ e, some e ∈ t →
      some e ∈ (peerUnmap b pid vaddr t vm).1 ∨
      ∀ i, Covers b e.size i → (peerUnmap b pid vaddr t vm).2 e.peerPid (vpage b e.peerVaddr i) = none := by
  induction t with
  | nil => exact ⟨fun _ _ _ h => h, fun _ h => (by cases h)⟩
  | cons c t ih =>
    obtain ⟨hb, hx⟩ := ih
    cases c with
    | none =>
      refine ⟨hb, fun e hmem => ?_⟩
      rcases List.mem_cons.mp hmem with h | hmem
      · cases h
      · exact (hx e hmem).imp_left (List.mem_cons_of_mem _)
    | some m =>
      rw [peerUnmap]
      split_ifs with hm
      · refine ⟨unmapPages_below, fun e hmem => ?_⟩
        rcases List.mem_cons.mp hmem with h | hmem
        · cases h
          rw [hm.1, hm.2]
          exact .inr fun i hi => hi.gone
        · exact .inl (List.mem_cons_of_mem _ hmem)
      · refine ⟨hb, fun e hmem => ?_⟩
        rcases List.mem_cons.mp hmem with h | hmem
        · cases h
          exact .inl List.mem_cons_self
        · exact (hx e hmem).imp_left (List.mem_cons_of_mem _)

/-! ### The pool -/

/-- Some range of `o` covers the frame. -/
def Pool.Holds (b : Build) (m : Pool) (o : ℤ) (f : ℕ) : Prop :=
  ∃ B ∈ m.blocks, ∃ g ∈ B.held, g.pid = o ∧ inRange b g.base g.size f = true

theorem inRange_iff {base : ℕ} :
    inRange b base size f = true ↔ base ≤ f * b.page ∧ f * b.page < base + size :=
  decide_eq_true_iff

/-- An address lies in one node. -/
theorem Inv.sole {B C : Block} {d d' : Node} {x : ℕ} (h : Inv b m) (hB : B ∈ m.blocks)
    (hC : C ∈ m.blocks) (hd : d ∈ B.nodes) (hd' : d' ∈ C.nodes)
    (hx : d.base ≤ x ∧ x < d.base + d.size) (hx' : d'.base ≤ x ∧ x < d'.base + d'.size) : d = d' := by
  have hap : ¬Apart d.range d'.range := by
    rintro (h | h)
    · exact absurd (hx.2.trans_le (h.trans hx'.1)) (lt_irrefl x)
    · exact absurd (hx'.2.trans_le (h.trans hx.1)) (lt_irrefl x)
  rcases same_or_apart (List.pairwise_map.mp h.apart) hB hC with rfl | hBC
  · exact ((h.block B hB).apart hd hd').resolve_right hap
  · have happart : Apart d.range d'.range :=
      hBC.mono ((h.block B hB).tiled.inside hd) ((h.block C hC).tiled.inside hd')
    exact absurd happart hap

theorem Inv.holds_node (h : Inv b m) (hh : m.Holds b o f) :
    ∃ B ∈ m.blocks, ∃ d ∈ B.nodes, d.pid ≠ 0 ∧ d.pid = o ∧
      d.base ≤ f * b.page ∧ f * b.page < d.base + d.size := by
  obtain ⟨B, hB, g, hg, rfl, hf⟩ := hh
  obtain ⟨d, hd, hne, rfl⟩ := (h.block B hB).node hg
  exact ⟨B, hB, d, hd, hne, rfl, inRange_iff.mp hf⟩

/-- Changing one block, as far as holding is concerned. -/
theorem holds_setBlock {i : ℕ} {B B' : Block} (hi : m.blocks[i]? = some B)
    (hB : ∀ g ∈ B.held, g.pid = o → inRange b g.base g.size f = true → g ∈ B'.held)
    (hh : m.Holds b o f) : (m.setBlock i B').Holds b o f := by
  obtain ⟨C, hC, g, hg, hpid, hf⟩ := hh
  obtain ⟨j, hj⟩ := List.mem_iff_getElem?.mp hC
  rcases eq_or_ne i j with rfl | hne
  · cases hi.symm.trans hj
    have hlt := (List.getElem?_eq_some_iff.mp hi).1
    exact ⟨B', List.mem_iff_getElem?.mpr ⟨i, List.getElem?_set_self hlt⟩, g, hB g hg hpid hf,
      hpid, hf⟩
  · refine ⟨C, List.mem_iff_getElem?.mpr ⟨j, ?_⟩, g, hg, hpid, hf⟩
    rw [Pool.setBlock, List.getElem?_set_ne hne, hj]

theorem holds_alloc {id : ℤ} (hh : m.Holds b o f) : (m.dmaAlloc b id pid size).2.Holds b o f := by
  unfold Pool.dmaAlloc
  split
  · exact hh
  · rename_i i B hB
    split
    · exact hh
    · exact holds_setBlock (block_eq hB).1 (fun g hg _ _ => List.mem_cons_of_mem _ hg) hh

/-- A range that was just handed out. -/
theorem holds_new {id : ℤ} {i base : ℕ} {B : Block} {l : List Node} (hB : m.block id = some (i, B))
    (ha : allocFirst b pid (b.alignUp size b.page % 2 ^ 32) B.nodes = some (base, l))
    (hf : inRange b base (roundUp size b.page) f = true) :
    (m.dmaAlloc b id pid size).2.Holds b pid f := by
  have hi := (block_eq hB).1
  have hlt := (List.getElem?_eq_some_iff.mp hi).1
  simp only [Pool.dmaAlloc, hB, ha]
  exact ⟨_, List.mem_iff_getElem?.mpr ⟨i, List.getElem?_set_self hlt⟩, _, List.mem_cons_self, rfl, hf⟩

theorem holds_free {id : ℤ} {i : ℕ} {B : Block} {d : Node} (hB : m.block id = some (i, B))
    (hd : B.nodes.find? (Pool.hitOf pid paddr) = some d) (hf : inRange b d.base d.size f = false)
    (hh : m.Holds b o f) : (m.dmaFree id pid paddr).Holds b o f := by
  simp only [Pool.dmaFree, hB, hd]
  split
  · exact hh
  · refine holds_setBlock (block_eq hB).1 (fun g hg _ hgf => ?_) hh
    refine (List.mem_erase_of_ne fun hgd => ?_).mpr hg
    rw [hgd, Node.grant, hf] at hgf
    cases hgf

theorem holds_release (hne : o ≠ pid) (hh : m.Holds b o f) : (m.dmaRelease pid).Holds b o f := by
  obtain ⟨B, hB, g, hg, rfl, hf⟩ := hh
  exact ⟨_, List.mem_map_of_mem hB, g, List.mem_filter.mpr ⟨hg, decide_eq_true hne⟩, rfl, hf⟩

/-- `dma_set`, `dma_pin` and `dma_unpin` end nobody's range. -/
theorem holds_driver {op : Op} (ha : ∀ id pid size, op ≠ .alloc id pid size)
    (hf : ∀ id pid phy, op ≠ .free id pid phy) (hr : ∀ pid, op ≠ .release pid) {m' : Pool}
    (hst : step b m op = some m') (hh : m.Holds b o f) : m'.Holds b o f := by
  cases op with
  | alloc id pid size => exact absurd rfl (ha id pid size)
  | free id pid phy => exact absurd rfl (hf id pid phy)
  | release pid => exact absurd rfl (hr pid)
  | set pid phy v size shared uidOk ownerLive =>
    cases hst
    unfold Pool.dmaSet
    split
    · exact hh
    · split
      · exact hh
      · split
        · exact hh
        · split
          · exact hh
          · rename_i B hB
            exact holds_setBlock hB (fun g hg _ _ => hg) hh
        · split
          · exact hh
          · obtain ⟨B, hB, hrest⟩ := hh
            exact ⟨B, List.mem_append_left _ hB, hrest⟩
  | pin id pid phy size =>
    cases hst
    unfold Pool.dmaPin
    split_ifs
    · exact hh
    · split
      · exact hh
      · rename_i i B hB
        split
        · exact hh
        · exact holds_setBlock (block_eq hB).1 (fun g hg _ _ => hg) hh
  | unpin id phy =>
    cases hst
    unfold Pool.dmaUnpin
    split
    · exact hh
    · rename_i i B hB
      split
      · exact hh
      · exact holds_setBlock (block_eq hB).1 (fun g hg _ _ => hg) hh

/-- The owner that is found has the whole range in one node. -/
theorem findOwner_spec (ho : 0 < dmaFindOwner b m paddr size)
    (hlt : paddr + size < b.top) :
    ∃ B ∈ m.blocks, ∃ d ∈ B.nodes, d.pid = dmaFindOwner b m paddr size ∧ d.base ≤ paddr ∧
      paddr + size ≤ d.base + d.size := by
  unfold dmaFindOwner at ho ⊢
  split at ho
  · rename_i d hd
    obtain ⟨B, hB, hmem⟩ := List.mem_flatMap.mp (List.mem_of_find?_eq_some hd)
    have hfound := List.find?_some hd
    obtain ⟨-, hbase, hend⟩ := of_decide_eq_true hfound
    rw [Nat.mod_eq_of_lt hlt] at hend
    exact ⟨B, hB, d, hmem, rfl, hbase, hend.trans (Nat.mod_le ..)⟩
  · exact absurd ho (by decide)

/-! ### One call -/

/-- What holds at all times: every page mapped under a lease is noted with the owner of the lease,
    and the lease has not ended. -/
structure PeerInv (b : Build) (w : World) : Prop where
  pool : Inv b w.pool
  leased : ∀ f o a, w.lease f = some (o, a) → w.pool.Holds b o f
  tracked : ∀ q u f a, w.vm q u = some ⟨f, some a⟩ → ∃ e, some e ∈ w.peerMaps ∧ e.peerPid = q ∧
    (∃ i, Covers b e.size i ∧ u = vpage b e.peerVaddr i ∧ f = e.paddr / b.page + i) ∧
    0 < e.ownerPid ∧ w.lease f = some (e.ownerPid, a)

/-- When a mapping is safe: it touches no allocation, or it is aligned and noted; and a note that
    is made does not wrap and does not replace one of more pages. -/
def MapOk (b : Build) (w : World) (pid : ℤ) (vaddr paddr size : ℕ) : Prop :=
  (0 < dmaFindOwner b w.pool paddr size → 0 < pid → paddr + size < b.top ∧
    ∀ e, some e ∈ w.peerMaps → e.peerPid = pid → e.peerVaddr = vaddr → e.paddr = paddr →
      e.size ≤ size) ∧
  ((∀ B ∈ w.pool.blocks, ∀ d ∈ B.nodes, d.pid ≠ 0 →
      Apart d.range (alignDown paddr b.page, pageCount b paddr size * b.page)) ∨
    (0 < pid ∧ b.page ∣ paddr ∧ 0 < dmaFindOwner b w.pool paddr size))

/-- When a call is safe: allocations and registrations are sane, a mapping is safe, and a range is
    freed when no page of it is mapped by `sys_mem_map` any more. -/
def Heedful (b : Build) (lay : Layout) (w : World) : Call → Prop
  | .dmaAlloc id pid size cap _ => cap = true → Sane b w.pool (.alloc id pid size)
  | .dmaFree id pid vaddr cap => cap = true → ∀ i B d, w.pool.block id = some (i, B) →
      B.nodes.find? (Pool.hitOf pid ((vaddr % b.top + b.top - B.vBase + B.phyBase) % b.top)) =
        some d →
      ∀ q u f a, w.vm q u = some ⟨f, some a⟩ → inRange b d.base d.size f = false
  | .memMap pid vaddr paddr size cap _ =>
    World.mapGate b lay (vaddr % b.top) (paddr % b.top) (size % 2 ^ 32) cap = true →
      MapOk b w pid (vaddr % b.top) (paddr % b.top) (b.alignUp (size % 2 ^ 32) b.page % 2 ^ 32)
  | .driver o => Sane b w.pool o
  | _ => True

namespace PeerInv

/-- A leased frame of a range that has an owner is his. -/
theorem owner (h : PeerInv b w) (ho : 0 < dmaFindOwner b w.pool paddr size)
    (hlt : paddr + size < b.top) {i : ℕ} (hi : i < size / b.page)
    (hl : w.lease (paddr / b.page + i) = some (o, a)) : o = dmaFindOwner b w.pool paddr size := by
  obtain ⟨B, hB, d, hd, hpid, hbase, hend⟩ := findOwner_spec ho hlt
  obtain ⟨C, hC, d', hd', -, rfl, hf'⟩ := h.pool.holds_node (h.leased _ o a hl)
  obtain ⟨k, hk⟩ := (h.pool.block B hB).base_dvd hd
  have hpos : 0 < b.page := Build.page_pos
  have hlo : d.base ≤ (paddr / b.page + i) * b.page := by
    rw [hk, Nat.mul_comm] at hbase ⊢
    exact Nat.mul_le_mul_right _ (((Nat.le_div_iff_mul_le hpos).mpr hbase).trans (Nat.le_add_right ..))
  have hhi : (paddr / b.page + i) * b.page < d.base + d.size := by
    have hdown := Nat.div_mul_le_self paddr b.page
    have hmul : i * b.page < size :=
      (Nat.mul_lt_mul_of_pos_right hi hpos).trans_le (Nat.div_mul_le_self ..)
    rw [Nat.add_mul]
    omega
  have hdd := h.pool.sole hB hC hd hd' ⟨hlo, hhi⟩ hf'
  rw [← hdd, hpid]

/-- Frames of a mapping that touches no allocation are under no lease. -/
theorem untouched (h : PeerInv b w) (hap : ∀ B ∈ w.pool.blocks, ∀ d ∈ B.nodes, d.pid ≠ 0 →
      Apart d.range (alignDown paddr b.page, n * b.page)) {i : ℕ} (hi : i < n) :
    w.lease (paddr / b.page + i) = none := by
  by_contra hne
  obtain ⟨⟨o, a⟩, hl⟩ := Option.ne_none_iff_exists'.mp hne
  obtain ⟨B, hB, d, hd, hpid, -, hlo, hhi⟩ := h.pool.holds_node (h.leased _ o a hl)
  have hfr : (paddr / b.page + i) * b.page = alignDown paddr b.page + i * b.page := by
    rw [Nat.add_mul, alignDown]
  have hin : i * b.page < n * b.page := Nat.mul_lt_mul_of_pos_right hi Build.page_pos
  rw [hfr] at hlo hhi
  rcases hap B hB d hd hpid with h | h
  · have hle : d.base + d.size ≤ alignDown paddr b.page := h
    omega
  · have hle : alignDown paddr b.page + n * b.page ≤ d.base := h
    omega

/-- The frames handed out come from a free node, so no lease covers them. -/
theorem unleased {id : ℤ} {i base : ℕ} {B : Block} {l : List Node} (h : PeerInv b w)
    (hsize : size % 2 ^ 32 + b.page ≤ 2 ^ 32) (hB : w.pool.block id = some (i, B))
    (ha : allocFirst b pid (b.alignUp (size % 2 ^ 32) b.page % 2 ^ 32) B.nodes = some (base, l))
    (hf : inRange b base (roundUp (size % 2 ^ 32) b.page) f = true) : w.lease f = none := by
  by_contra hne
  obtain ⟨⟨o, a⟩, hl⟩ := Option.ne_none_iff_exists'.mp hne
  obtain ⟨C, hC, d', hd', hpid', -, hf'⟩ := h.pool.holds_node (h.leased f o a hl)
  rw [alloc_size hsize] at ha
  obtain ⟨pre, d, post, hnodes, hidle, hle, rfl, -⟩ := allocFirst_spec ha
  have hd : d ∈ B.nodes := hnodes ▸ List.mem_append_right pre List.mem_cons_self
  obtain ⟨hlo, hhi⟩ := inRange_iff.mp hf
  have hdd := h.pool.sole (List.mem_of_getElem? (block_eq hB).1) hC hd hd'
    ⟨hlo, hhi.trans_le (Nat.add_le_add_left hle _)⟩ hf'
  exact hpid' (hdd ▸ (of_decide_eq_true hidle).1)

theorem alloc {id : ℤ} {cap : Bool} {got : ℕ} (h : PeerInv b w)
    (hs : cap = true → Sane b w.pool (.alloc id pid size)) :
    PeerInv b (w.sysDmaAlloc b id pid (size % 2 ^ 32) cap got) := by
  unfold World.sysDmaAlloc
  split_ifs with hcap
  · exact h
  · have hsane := hs (Bool.eq_true_of_not_eq_false hcap)
    split
    · exact h
    · rename_i i B hB
      split
      · exact h
      · rename_i base l ha
        obtain ⟨-, hsize⟩ := hsane (by rw [hB]; rfl)
        have hpool := inv_step h.pool hsane rfl
        have hstays : ∀ f o a, w.lease f = some (o, a) →
            inRange b base (roundUp (size % 2 ^ 32) b.page) f = false := by
          intro f o a hl
          by_contra hin
          rw [h.unleased hsize hB ha (Bool.eq_true_of_not_eq_false hin)] at hl
          cases hl
        refine ⟨hpool, ?_, ?_⟩
        · intro f o a hl
          dsimp only at hl
          split_ifs at hl with hin
          · cases hl
            exact holds_new hB ha hin
          · exact holds_alloc (h.leased f o a hl)
        · intro q u f a hp
          have hp' : w.vm q u = some ⟨f, some a⟩ := by
            dsimp only at hp
            split_ifs at hp
            · exact hp
            · rcases mapPages_some hp with ⟨-, i, -, -, hpte⟩ | hp
              · cases hpte
              · exact hp
          obtain ⟨e, he, hq, hi, hpos, hl⟩ := h.tracked q u f a hp'
          refine ⟨e, he, hq, hi, hpos, ?_⟩
          dsimp only
          rw [hstays f _ a hl]
          exact hl

theorem free {id : ℤ} {cap : Bool} (h : PeerInv b w)
    (hs : Heedful b lay w (.dmaFree id pid vaddr cap)) :
    PeerInv b (w.sysDmaFree b id pid (vaddr % b.top) cap) := by
  unfold World.sysDmaFree
  split_ifs with hcap
  · exact h
  · have hgone := hs (Bool.eq_true_of_not_eq_false hcap)
    split
    · exact h
    · rename_i i B hB
      dsimp only
      split_ifs
      · exact h
      · split
        · exact h
        · rename_i d hd
          have hgone := hgone i B d hB hd
          refine ⟨?_, ?_, ?_⟩
          · exact inv_step (o := .free id pid _) h.pool trivial rfl
          · intro f o a hl
            dsimp only at hl
            split_ifs at hl with hin
            exact holds_free hB hd (Bool.eq_false_of_not_eq_true hin) (h.leased f o a hl)
          · intro q u f a hp
            have hp' := unmapPages_below q u _ hp
            obtain ⟨e, he, hq, hi, hpos, hl⟩ := h.tracked q u f a hp'
            refine ⟨e, he, hq, hi, hpos, ?_⟩
            dsimp only
            rw [hgone q u f a hp']
            exact hl

/-- Pages that are written under a lease are all noted. -/
theorem mapped (h : PeerInv b w) (hok : MapOk b w pid vaddr paddr size) (hsz : b.page ∣ size)
    (hs : size < 2 ^ 32) (hk : dmaPeerMapByPaddr b w.pool w.peerMaps pid vaddr paddr size = .kept t)
    (hn : n ≤ pageCount b paddr size) :
    PeerInv b { w with
      vm := mapPages b w.vm pid vaddr paddr (fun f => (w.lease f).map Prod.snd) n,
      peerMaps := t } := by
  obtain ⟨ho, hpid, hnew, hkeep⟩ := kept_spec hk
  obtain ⟨hlt, hgrow⟩ := hok.1 ho hpid
  refine ⟨h.pool, h.leased, fun q u f a hp => ?_⟩
  rcases mapPages_some hp with ⟨rfl, i, hi, rfl, hpte⟩ | hold
  · obtain ⟨rfl, hvia⟩ := Pte.mk.inj hpte
    obtain ⟨⟨o, a'⟩, hl, hsnd⟩ := Option.map_eq_some_iff.mp hvia.symm
    cases hsnd
    rcases hok.2 with hap | ⟨-, hal, -⟩
    · rw [h.untouched hap (hi.trans_le hn)] at hl
      cases hl
    · have hcount := hi.trans_le hn
      rw [pageCount_eq hal hsz hlt] at hcount
      refine ⟨_, hnew, rfl, ⟨i, covers_of_lt hs hcount, rfl, rfl⟩, ho, ?_⟩
      rw [hl, h.owner ho hlt hcount hl]
  · obtain ⟨e, he, rfl, ⟨i, hi, rfl, rfl⟩, hpos, hl⟩ := h.tracked q u f a hold
    rcases hkeep e he with hin | ⟨hq, hv, hpa⟩
    · exact ⟨e, hin, rfl, ⟨i, hi, rfl, rfl⟩, hpos, hl⟩
    · -- the old note is replaced: the new one has at least its pages, and the same owner
      have hle : i < size / b.page :=
        hi.1.trans_le (Nat.div_le_div_right (hgrow e he hq hv hpa))
      rw [hpa] at hl ⊢
      refine ⟨_, hnew, hq.symm, ⟨i, covers_of_lt hs hle, by rw [hv], rfl⟩, ho, ?_⟩
      rw [hl, h.owner ho hlt hle hl]

theorem memMap {cap : Bool} {got : ℕ} (h : PeerInv b w)
    (hs : Heedful b lay w (.memMap pid vaddr paddr size cap got)) :
    PeerInv b (w.sysMemMap b lay pid (vaddr % b.top) (paddr % b.top) (size % 2 ^ 32) cap got) := by
  unfold World.sysMemMap
  split_ifs with hgate
  · exact h
  · have hok := hs (Bool.eq_true_of_not_eq_false hgate)
    have hsz : b.page ∣ b.alignUp (size % 2 ^ 32) b.page % 2 ^ 32 :=
      (Nat.dvd_mod_iff Build.page_dvd).mpr (Nat.dvd_mul_left ..)
    have hlt32 : b.alignUp (size % 2 ^ 32) b.page % 2 ^ 32 < 2 ^ 32 := Nat.mod_lt _ (by decide)
    dsimp only
    -- what is written but not noted is under no lease
    have hbare : (¬(0 < pid ∧ 0 < dmaFindOwner b w.pool (paddr % b.top)
        (b.alignUp (size % 2 ^ 32) b.page % 2 ^ 32))) → _ := fun hno =>
      (hok.2.resolve_right fun hc => hno ⟨hc.1, hc.2.2⟩)
    split
    · rename_i hk
      have hap := hbare (untracked_spec hk)
      refine ⟨h.pool, h.leased, fun q u f a hp => ?_⟩
      rcases mapPages_some hp with ⟨-, i, hi, -, hpte⟩ | hold
      · obtain ⟨rfl, hvia⟩ := Pte.mk.inj hpte
        rw [h.untouched hap (hi.trans_le (min_le_right ..))] at hvia
        cases hvia
      · exact h.tracked q u f a hold
    · refine ⟨h.pool, h.leased, fun q u f a hp => ?_⟩
      have hp' := unmapPages_below q u _ hp
      rcases mapPages_some hp' with ⟨rfl, i, hi, rfl, hpte⟩ | hold
      · rcases hok.2 with hap | ⟨hpid, hal, ho⟩
        · obtain ⟨rfl, hvia⟩ := Pte.mk.inj hpte
          rw [h.untouched hap (hi.trans_le (min_le_right ..))] at hvia
          cases hvia
        · have hcount := hi.trans_le (min_le_right ..)
          rw [pageCount_eq hal hsz (hok.1 ho hpid).1] at hcount
          cases hp.symm.trans (covers_of_lt hlt32 hcount).gone
      · exact h.tracked q u f a hold
    · rename_i t hk
      exact h.mapped hok hsz hlt32 hk (min_le_right ..)

theorem unmap (h : PeerInv b w) : PeerInv b (w.sysDmaUnmap b pid vaddr) := by
  simp only [World.sysDmaUnmap, dmaPeerUnmap]
  split_ifs
  · exact h
  · obtain ⟨hb, hx⟩ := @peerUnmap_spec b pid vaddr w.peerMaps w.vm
    refine ⟨h.pool, h.leased, fun q u f a hp => ?_⟩
    obtain ⟨e, he, rfl, ⟨i, hi, rfl, rfl⟩, hl⟩ := h.tracked q u f a (hb q u _ hp)
    rcases hx e he with hin | hnone
    · exact ⟨e, hin, rfl, ⟨i, hi, rfl, rfl⟩, hl⟩
    · cases hp.symm.trans (hnone i hi)

/-- What is left after the revocation is noted, and not of the owner that goes. -/
theorem revoke (h : PeerInv b w)
    (hp : (dmaPeerMapRevokeOwner b pid w.peerMaps w.vm).2 q u = some ⟨f, some a⟩) :
    ∃ e, some e ∈ (dmaPeerMapRevokeOwner b pid w.peerMaps w.vm).1 ∧ e.peerPid = q ∧
      (∃ i, Covers b e.size i ∧ u = vpage b e.peerVaddr i ∧ f = e.paddr / b.page + i) ∧
      0 < e.ownerPid ∧ w.lease f = some (e.ownerPid, a) ∧ e.ownerPid ≠ pid := by
  unfold dmaPeerMapRevokeOwner at hp ⊢
  split_ifs at hp ⊢ with hpid
  · obtain ⟨e, he, hq, hi, hpos, hl⟩ := h.tracked q u f a hp
    exact ⟨e, he, hq, hi, hpos, hl, fun heq => absurd hpos (not_lt.mpr (heq ▸ hpid))⟩
  · obtain ⟨hb, hx⟩ := @revokeOwner_spec b pid w.peerMaps w.vm
    obtain ⟨e, he, rfl, ⟨i, hi, rfl, rfl⟩, hpos, hl⟩ := h.tracked q u f a (hb q u _ hp)
    have hne : e.ownerPid ≠ pid := fun heq => by cases hp.symm.trans ((hx e he).2 heq i hi)
    exact ⟨e, (hx e he).1 hne, rfl, ⟨i, hi, rfl, rfl⟩, hpos, hl, hne⟩

theorem funeral (h : PeerInv b w) : PeerInv b (w.procFuneral b pid) := by
  refine ⟨?_, fun f o a hl => ?_, fun q u f a hp => ?_⟩
  · exact inv_step (o := .release pid) h.pool trivial rfl
  · obtain ⟨hl, hne⟩ := Option.filter_eq_some_iff.mp hl
    exact holds_release (of_decide_eq_true hne) (h.leased f o a hl)
  · simp only [World.procFuneral] at hp ⊢
    split_ifs at hp with hq
    obtain ⟨e, he, rfl, hi, hpos, hl, hne⟩ := h.revoke hp
    refine ⟨e, ?_, rfl, hi, hpos, ?_⟩
    · rw [dmaPeerMapForgetPeer]
      split_ifs
      · exact he
      · refine List.mem_map.mpr ⟨some e, he, ?_⟩
        rw [Option.filter_some, if_pos (decide_eq_true hq)]
    · rw [hl, Option.filter_some, if_pos (decide_eq_true hne)]

theorem boot : PeerInv b World.boot :=
  ⟨inv_boot, fun _ _ _ h => (by cases h), fun _ _ _ _ h => (by cases h)⟩

/-- One heedful call. -/
theorem step {c : Call} (h : PeerInv b w) (hs : Heedful b lay w c) (hst : call b lay w c = some w') :
    PeerInv b w' := by
  cases c with
  | dmaAlloc => cases hst; exact h.alloc hs
  | dmaFree => cases hst; exact h.free hs
  | memMap => cases hst; exact h.memMap hs
  | dmaUnmap => cases hst; exact h.unmap
  | funeral => cases hst; exact h.funeral
  | driver op =>
    have hgo : ∀ m', Dma.step b w.pool op = some m' → (∀ id pid size, op ≠ .alloc id pid size) →
        (∀ id pid phy, op ≠ .free id pid phy) → (∀ pid, op ≠ .release pid) →
        PeerInv b { w with pool := m' } := fun m' hm ha hf hr =>
      ⟨inv_step h.pool hs hm, fun f o a hl => holds_driver ha hf hr hm (h.leased f o a hl),
        h.tracked⟩
    cases op with
    | alloc => cases hst
    | free => cases hst
    | release => cases hst
    | set => cases hst; exact hgo _ rfl nofun nofun nofun
    | pin => cases hst; exact hgo _ rfl nofun nofun nofun
    | unpin => cases hst; exact hgo _ rfl nofun nofun nofun

end PeerInv

/-! ### What it comes to -/

/-- No page is mapped through a `sys_mem_map` made under a lease that has ended, and a range that
    `dma_alloc` returns is mapped by nobody who had it from an earlier lease. -/
structure Revoked (b : Build) (w : World) : Prop where
  current : ∀ q u f a, w.vm q u = some ⟨f, some a⟩ → ∃ o, w.lease f = some (o, a)
  fresh : ∀ id pid size, Sane b w.pool (.alloc id pid size) →
    (w.pool.dmaAlloc b id pid (size % 2 ^ 32)).1 ≠ 0 → ∀ q u f a, w.vm q u = some ⟨f, some a⟩ →
      inRange b (w.pool.dmaAlloc b id pid (size % 2 ^ 32)).1 (roundUp (size % 2 ^ 32) b.page) f = false

theorem PeerInv.revoked (h : PeerInv b w) : Revoked b w := by
  have hcurrent : ∀ q u f a, w.vm q u = some ⟨f, some a⟩ → ∃ o, w.lease f = some (o, a) := by
    intro q u f a hp
    obtain ⟨e, -, -, -, -, hl⟩ := h.tracked q u f a hp
    exact ⟨e.ownerPid, hl⟩
  refine ⟨hcurrent, fun id pid size hs hbase q u f a hp => ?_⟩
  obtain ⟨o, hl⟩ := hcurrent q u f a hp
  by_contra hin
  rw [Bool.not_eq_false] at hin
  unfold Pool.dmaAlloc at hbase hin
  split at hbase
  · exact hbase rfl
  · rename_i i B hB
    split at hbase
    · exact hbase rfl
    · rename_i base l ha
      simp only [hB, ha] at hin
      rw [h.unleased (hs (by rw [hB]; rfl)).2 hB ha hin] at hl
      cases hl

/-- In a run of heedful calls no peer mapping outlives the allocation. -/
theorem peer_revoked (h : Reach (call b lay) (Heedful b lay) World.boot w) : Revoked b w :=
  (h.inv PeerInv.boot fun _ _ _ hi hok hst => hi.step hok hst).revoked

end

/-- Four pages of pool at 1M, the kernel core at 2G. -/
def pool1M : Layout := ⟨0x80000000, 0x88000000, 0x100000, 0x4000⟩

/-- `dma_init`, pid 5 allocates two pages, pid 6 maps them at 4M. -/
def shared : List Call := [
  .driver (.set (-1) 0x100000 0x90000000 0x4000 false true fun _ => false),
  .dmaAlloc 0 5 0x2000 true 2, .memMap 6 0x400000 0x100000 0x2000 true 2]

theorem peer_revoked_shared : ∃ w, runOps (call pages4k pool1M) World.boot shared = some w ∧
    Revoked pages4k w ∧ w.vm 6 0x400 = some ⟨0x100, some 0⟩ := by
  refine ⟨_, rfl, @peer_revoked pages4k pool1M _ ?_, by decide⟩
  refine Reach.next (Reach.next (Reach.next .start (o := shared[0]) ?_ rfl) (o := shared[1]) ?_ rfl)
    (o := shared[2]) ?_ rfl
  · rintro - s ⟨⟩ -
    exact ⟨by decide, by decide, by decide⟩
  · exact fun _ _ => by decide
  · refine fun _ => ⟨fun _ _ => ⟨by decide, fun e he => ?_⟩, .inr (by decide)⟩
    have hnone : some e ∈ List.replicate dmaPeerMapMax none := he
    cases List.eq_of_mem_replicate hnone

/-- The owner frees its range, the peer keeps it, and the next caller gets it. -/
theorem free_keeps_peer : ∃ w, Reach (call pages4k pool1M) Free World.boot w ∧
    w.lease 0x100 = some (7, 1) ∧ w.vm 6 0x400 = some ⟨0x100, some 0⟩ ∧ ¬Revoked pages4k w := by
  have hrun : runOps (call pages4k pool1M) World.boot
      (shared ++ [.dmaFree 0 5 0x90000000 true, .dmaAlloc 0 7 0x1000 true 1]) = some _ := rfl
  refine ⟨_, reach_of_runOps hrun, by decide, by decide, fun h => ?_⟩
  obtain ⟨o, ho⟩ := h.current 6 0x400 0x100 0 (by decide)
  cases ho

end EwokOS.Memory.Dma
