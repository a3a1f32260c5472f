import EwokOS.Memory.Dma
import Mathlib.Algebra.Order.Ring.Nat

/-! DMA storage is never handed out while it is live or pinned.

    Per block the invariant is the one of every list allocator: the nodes tile the block, no two
    reusable nodes touch, and what the users hold is what the list says is allocated (`BlockInv`).
    Blocks are registered by drivers and their ranges are not compared with one another, so that
    distinct blocks are disjoint is a condition on `dma_set`, as are an aligned base and an empty
    list before a block is registered again. An allocation by pid 0 is a free node to everybody
    else (`initAlloc_aliases`). -/

namespace EwokOS.Memory.Dma

open Schemes (Reach Free Tiles Joins Sparse Apart tiles_append tiles_dvd same_or_apart
  reach_of_runOps runOps)

/-- Where nodes lie. -/
abbrev Tiled (s : ℕ) (l : List Node) (e : ℕ) : Prop := Tiles Node.base Node.size s l e

/-- Reusable, as a property of a node. -/
def Node.Idle (d : Node) : Prop := d.reusable = true

instance : DecidablePred Node.Idle := fun d => inferInstanceAs (Decidable (d.reusable = true))

/-- What the users of a list of nodes hold. -/
def grants (l : List Node) : List Grant := (l.filter fun d => d.pid ≠ 0).map Node.grant

section
variable {b : Build} {l l' l₁ l₂ : List Node} {d n p : Node} {pid : ℤ} {s e : ℕ}

/-! ### Merging -/

/-- Within one block no sum of sizes wraps. -/
theorem absorb_size (h : Tiled s (l₁ ++ d :: n :: l₂) e) (hlt : e < s + 2 ^ 32) :
    (d.absorb n).size = d.size + n.size := by
  obtain ⟨m, h₁, hd, -, h₂⟩ := tiles_append.mp h
  have hs := h₁.le
  have he := h₂.le
  exact Nat.mod_eq_of_lt (by omega)

theorem joins_absorb (h : Tiled s (l₁ ++ d :: n :: l₂) e) (hlt : e < s + 2 ^ 32) (hd : d.Idle)
    (hn : n.Idle) :
    Joins Node.base Node.size Node.Idle (l₁ ++ d :: n :: l₂) (l₁ ++ d.absorb n :: l₂) :=
  .join .refl hd hn hd rfl (absorb_size h hlt)

theorem joins_mergeNext (hd : d.Idle) (h : Tiled s (l₁ ++ d :: l) e) (hlt : e < s + 2 ^ 32) :
    Joins Node.base Node.size Node.Idle (l₁ ++ d :: l) (l₁ ++ mergeNext d l) := by
  induction l generalizing d with
  | nil => exact .refl
  | cons n l ih =>
    unfold mergeNext
    split_ifs with hn
    · have hj := joins_absorb h hlt hd hn
      exact hj.trans (ih hd (hj.tiles h))
    · exact .refl

theorem sparse_mergeNext (h : Sparse Node.Idle l) : Sparse Node.Idle (mergeNext d l) := by
  induction l generalizing d with
  | nil => exact List.isChain_singleton d
  | cons n l ih =>
    unfold mergeNext
    split_ifs with hn
    · exact ih h.tail
    · exact List.isChain_cons_cons.mpr ⟨fun hc => hn hc.2, h⟩

theorem joins_coalesce {prev : Option Node} (h : Tiled s (l₁ ++ (prev.toList ++ d :: l₂)) e)
    (hlt : e < s + 2 ^ 32) :
    Joins Node.base Node.size Node.Idle (l₁ ++ (prev.toList ++ d :: l₂))
      (l₁ ++ dmaCoalesce prev d l₂) := by
  unfold dmaCoalesce
  split_ifs with hd
  · cases prev with
    | none => exact joins_mergeNext hd h hlt
    | some p =>
      dsimp only
      split_ifs with hp
      · have hj := joins_absorb h hlt hp hd
        exact hj.trans (joins_mergeNext hp (hj.tiles h) hlt)
      · have hl : l₁ ++ p :: d :: l₂ = (l₁ ++ [p]) ++ d :: l₂ := by simp
        have hr : l₁ ++ p :: mergeNext d l₂ = (l₁ ++ [p]) ++ mergeNext d l₂ := by simp
        rw [Option.toList_some, List.singleton_append, hr, hl]
        refine joins_mergeNext hd ?_ hlt
        rw [← hl]
        exact h
  · exact .refl

/-- Coalescing around a node written in a sparse list. -/
theorem sparse_coalesce {prev : Option Node}
    (h : Sparse Node.Idle (l₁ ++ (prev.toList ++ n :: l₂))) (hprev : prev = none → l₁ = []) :
    Sparse Node.Idle (l₁ ++ dmaCoalesce prev d l₂) := by
  obtain ⟨h₁, hrest, hlast⟩ := List.isChain_append.mp h
  have h₂ : Sparse Node.Idle l₂ := (List.isChain_append.mp hrest).2.1.tail
  unfold dmaCoalesce
  cases prev with
  | none =>
    rw [hprev rfl, List.nil_append, Option.toList_none, List.nil_append]
    split_ifs with hd
    · exact sparse_mergeNext h₂
    · exact Sparse.cons h₂ fun c _ hc => hd hc.1
  | some p =>
    have hp : ∀ a ∈ l₁.getLast?, ¬(a.Idle ∧ p.Idle) := fun a ha => hlast a ha p rfl
    dsimp only
    rw [Option.toList_some, List.singleton_append]
    split_ifs with hd hpi
    · exact Sparse.append h₁ (sparse_mergeNext h₂) fun a ha c hc hac => hp a ha ⟨hac.1, hpi⟩
    · refine Sparse.append h₁ (Sparse.cons (sparse_mergeNext h₂) fun c _ hc => hpi hc.1) ?_
      rintro a ha c ⟨rfl⟩
      exact hp a ha
    · refine Sparse.append h₁ (Sparse.cons (Sparse.cons h₂ fun c _ hc => hd hc.1) ?_) ?_
      · rintro c ⟨rfl⟩ hc
        exact hd hc.2
      · rintro a ha c ⟨rfl⟩
        exact hp a ha

/-! ### The walks -/

/-- Where `dma_free` and `dma_unpin` strike. -/
theorem editFirst_spec {hit : Node → Bool} {f : Node → Node} {prev : Option Node}
    (h : editFirst hit f prev l = some l') :
    ∃ pre q d post, prev.toList ++ l = pre ++ (q.toList ++ d :: post) ∧ hit d = true ∧
      l.find? hit = some d ∧ (q = none → pre = []) ∧ l' = pre ++ dmaCoalesce q (f d) post := by
  induction l generalizing prev l' with
  | nil => cases h
  | cons a l ih =>
    unfold editFirst at h
    split_ifs at h with ha
    · cases h
      exact ⟨[], prev, a, l, rfl, ha, by rw [List.find?_cons, ha], fun _ => rfl, rfl⟩
    · obtain ⟨r, hr, rfl⟩ := Option.map_eq_some_iff.mp h
      obtain ⟨pre, q, d, post, hl, hd, hfind, hq, rfl⟩ := ih hr
      have hfind' : (a :: l).find? hit = some d := by
        rw [List.find?_cons, Bool.eq_false_of_not_eq_true ha, hfind]
      rw [Option.toList_some, List.singleton_append] at hl
      cases q with
      | none =>
        rw [hq rfl, List.nil_append, Option.toList_none, List.nil_append] at hl
        cases hl
        exact absurd hd ha
      | some q =>
        refine ⟨prev.toList ++ pre, some q, d, post, ?_, hd, hfind', fun h => (by cases h), ?_⟩
        · rw [hl, List.append_assoc]
        · rw [List.append_assoc]

/-- Where `dma_alloc` finds room. -/
theorem allocFirst_spec {size base : ℕ} (h : allocFirst b pid size l = some (base, l')) :
    ∃ pre d post, l = pre ++ d :: post ∧ d.Idle ∧ size ≤ d.size ∧ base = d.base ∧
      l' = pre ++ ((if size < d.size then [{ d with pid := pid, size := size },
        dmaNew ((d.base + size) % b.top) (d.size - size)] else [{ d with pid := pid }]) ++ post) := by
  induction l generalizing l' with
  | nil => cases h
  | cons a l ih =>
    unfold allocFirst at h
    split_ifs at h with hskip hlt
    · obtain ⟨r, hr, he⟩ := Option.map_eq_some_iff.mp h
      cases he
      obtain ⟨pre, d, post, rfl, hd, hsize, hbase, hr'⟩ := ih hr
      exact ⟨a :: pre, d, post, rfl, hd, hsize, hbase, by rw [hr', List.cons_append]⟩
    · cases h
      rw [not_or, Bool.not_eq_false, not_lt] at hskip
      exact ⟨[], a, l, rfl, hskip.1, hskip.2, rfl, by rw [if_pos hlt]; rfl⟩
    · cases h
      rw [not_or, Bool.not_eq_false, not_lt] at hskip
      exact ⟨[], a, l, rfl, hskip.1, hskip.2, rfl, by rw [if_neg hlt]; rfl⟩

/-- Where `dma_pin` strikes. -/
theorem pinFirst_spec {hit : Node → Bool} (h : pinFirst hit l = some l') :
    ∃ pre d post, l = pre ++ d :: post ∧ hit d = true ∧ d.pins ≠ 2 ^ 32 - 1 ∧
      l' = pre ++ { d with pins := d.pins + 1 } :: post := by
  induction l generalizing l' with
  | nil => cases h
  | cons a l ih =>
    unfold pinFirst at h
    split_ifs at h with ha hmax
    · cases h
      exact ⟨[], a, l, rfl, ha, hmax, rfl⟩
    · obtain ⟨r, hr, rfl⟩ := Option.map_eq_some_iff.mp h
      obtain ⟨pre, d, post, rfl, hd, hmax, rfl⟩ := ih hr
      exact ⟨a :: pre, d, post, rfl, hd, hmax, rfl⟩

theorem release_base : (d.release pid).base = d.base := by
  rw [Node.release]
  split_ifs <;> rfl

theorem release_size : (d.release pid).size = d.size := by
  rw [Node.release]
  split_ifs <;> rfl

/-- A release is a write to the nodes of the pid, then merges. -/
theorem joins_releaseNodes {prev : Option Node}
    (h : Tiled s (l₁ ++ (prev.toList ++ l.map fun d => d.release pid)) e) (hlt : e < s + 2 ^ 32) :
    Joins Node.base Node.size Node.Idle (l₁ ++ (prev.toList ++ l.map fun d => d.release pid))
      (l₁ ++ releaseNodes pid prev l) := by
  induction l generalizing prev l₁ with
  | nil =>
    rw [List.map_nil, List.append_nil, releaseNodes]
    exact .refl
  | cons a l ih =>
    rw [List.map_cons] at h ⊢
    cases prev with
    | none => exact @ih l₁ (some (a.release pid)) h
    | some p =>
      unfold releaseNodes
      split_ifs with hmerge
      · obtain ⟨ha, hp⟩ := Bool.and_eq_true_iff.mp hmerge
        have habs : p.absorb a = p.absorb (a.release pid) := by
          rw [Node.absorb, Node.absorb, release_size]
        rw [habs]
        have hj := joins_absorb h hlt hp ha
        exact hj.trans (@ih l₁ (some (p.absorb (a.release pid))) (hj.tiles h))
      · have hl : ∀ x : List Node, l₁ ++ p :: x = (l₁ ++ [p]) ++ x := fun x => by simp
        rw [Option.toList_some, List.singleton_append] at h ⊢
        rw [hl] at h
        rw [hl (a.release pid :: l.map fun d => d.release pid), hl (releaseNodes _ _ _)]
        exact @ih (l₁ ++ [p]) (some (a.release pid)) h

theorem releaseNodes_head (p : Node) (l : List Node) :
    ∃ p' r, releaseNodes pid (some p) l = p' :: r ∧ p'.reusable = p.reusable := by
  induction l generalizing p with
  | nil => exact ⟨p, [], rfl, rfl⟩
  | cons a l ih =>
    unfold releaseNodes
    split_ifs
    · exact ih (p.absorb a)
    · exact ⟨p, _, rfl, rfl⟩

/-- A release leaves no two reusable neighbours, whatever it found. -/
theorem sparse_releaseNodes {prev : Option Node} : Sparse Node.Idle (releaseNodes pid prev l) := by
  induction l generalizing prev with
  | nil =>
    cases prev with
    | none => exact List.isChain_nil
    | some p => exact List.isChain_singleton p
  | cons a l ih =>
    cases prev with
    | none => exact ih
    | some p =>
      unfold releaseNodes
      split_ifs with hmerge
      · exact ih
      · refine Sparse.cons ih ?_
        obtain ⟨a', r, hr, ha'⟩ := @releaseNodes_head pid (a.release pid) l
        rw [hr]
        rintro c ⟨rfl⟩ ⟨hp, hc⟩
        rw [Node.Idle, ha'] at hc
        exact hmerge (Bool.and_eq_true_iff.mpr ⟨hc, hp⟩)

/-! ### What the users hold -/

theorem grants_append : grants (l₁ ++ l₂) = grants l₁ ++ grants l₂ := by
  rw [grants, grants, grants, List.filter_append, List.map_append]

theorem grants_cons : grants (d :: l) = (if d.pid = 0 then [] else [d.grant]) ++ grants l := by
  rw [grants, List.filter_cons]
  split_ifs with h h' h'
  · exact absurd h' (of_decide_eq_true h)
  · rfl
  · rfl
  · exact absurd (decide_eq_true h') h

theorem mem_grants {g : Grant} : g ∈ grants l ↔ ∃ d ∈ l, d.pid ≠ 0 ∧ d.grant = g := by
  simp only [grants, List.mem_map, List.mem_filter, decide_eq_true_eq, and_assoc]

/-- Only busy nodes are held. -/
theorem grants_busy : grants (l.filter fun d => ¬d.Idle) = grants l := by
  rw [grants, List.filter_filter, grants]
  congr 1
  refine List.filter_congr fun d _ => ?_
  by_cases hd : d.pid = 0
  · simp [hd]
  · simp [hd, Node.Idle, Node.reusable]

theorem grants_joins (h : Joins Node.base Node.size Node.Idle l l') : grants l' = grants l := by
  rw [← grants_busy, h.busy, grants_busy]

/-- The pid that exits loses its nodes and nobody else does. -/
theorem grants_release :
    grants (l.map fun d => d.release pid) = (grants l).filter fun g => g.pid ≠ pid := by
  induction l with
  | nil => rfl
  | cons d l ih =>
    rw [List.map_cons, grants_cons, grants_cons, List.filter_append, ih]
    congr 1
    rcases eq_or_ne d.pid pid with h | h
    · have hr : (d.release pid).pid = 0 := by rw [Node.release, if_pos h]
      rw [if_pos hr]
      split_ifs
      · rfl
      · rw [List.filter_cons, if_neg (by simp [Node.grant, h])]
        rfl
    · rw [Node.release, if_neg h]
      split_ifs
      · rfl
      · rw [List.filter_cons, if_pos (by simp [Node.grant, h])]
        rfl

/-- A node is written where it lies. -/
theorem tiled_write {d' : Node} (h : Tiled s (l₁ ++ d :: l₂) e) (hb : d'.base = d.base)
    (hs : d'.size = d.size) : Tiled s (l₁ ++ d' :: l₂) e := by
  obtain ⟨m, h₁, hd, h₂⟩ := tiles_append.mp h
  refine tiles_append.mpr ⟨m, h₁, hb.trans hd, ?_⟩
  rwa [hs]

theorem sparse_write {d' : Node} (h : Sparse Node.Idle (l₁ ++ d :: l₂)) (hd : ¬d'.Idle) :
    Sparse Node.Idle (l₁ ++ d' :: l₂) := by
  obtain ⟨h₁, h₂, -⟩ := List.isChain_append.mp h
  refine Sparse.append h₁ (Sparse.cons h₂.tail fun c _ hc => hd hc.1) ?_
  rintro a - c ⟨rfl⟩ hc
  exact hd hc.2

end

/-! ### One block -/

/-- What holds of a block at all times. -/
structure BlockInv (b : Build) (B : Block) : Prop where
  tiled : Tiled B.phyBase B.nodes (B.phyBase + B.size)
  sparse : Sparse Node.Idle B.nodes
  filled : B.nodes ≠ []
  aligned : b.page ∣ B.phyBase
  pages : ∀ d ∈ B.nodes, b.page ∣ d.size
  fits : B.phyBase + B.size ≤ b.top
  small : B.size < 2 ^ 32
  agrees : B.held.Perm (grants B.nodes)

namespace BlockInv
variable {b : Build} {B : Block} {pid : ℤ} {held : List Grant} {l pre post : List Node} {d d' : Node}
  {q : Option Node}

/-- A written node is coalesced. -/
theorem coalesce (h : BlockInv b B) (hl : B.nodes = pre ++ (q.toList ++ d :: post))
    (hq : q = none → pre = []) (hb : d'.base = d.base) (hs : d'.size = d.size)
    (hh : held.Perm (grants (pre ++ (q.toList ++ d' :: post)))) :
    BlockInv b { B with nodes := pre ++ dmaCoalesce q d' post, held := held } := by
  have hpages := h.pages
  have htiled := h.tiled
  rw [hl] at hpages htiled
  have hpages' : ∀ n ∈ pre ++ (q.toList ++ d' :: post), b.page ∣ n.size := by
    intro n hn
    simp only [List.mem_append, List.mem_cons] at hn hpages
    rcases hn with hn | hn | rfl | hn
    · exact hpages n (.inl hn)
    · exact hpages n (.inr (.inl hn))
    · rw [hs]
      exact hpages d (.inr (.inr (.inl rfl)))
    · exact hpages n (.inr (.inr (.inr hn)))
  have htiled' : Tiled B.phyBase (pre ++ (q.toList ++ d' :: post)) (B.phyBase + B.size) := by
    rw [← List.append_assoc] at htiled ⊢
    exact tiled_write htiled hb hs
  have hj := joins_coalesce htiled' (Nat.add_lt_add_left h.small _)
  refine ⟨hj.tiles htiled', ?_, ?_, h.aligned, ?_, h.fits, h.small, ?_⟩
  · exact sparse_coalesce (hl ▸ h.sparse) hq
  · exact hj.ne_nil (by simp)
  · refine hj.all hpages' fun a c m ha hc _ hsize _ => ?_
    rw [hsize]
    exact Nat.dvd_add ha hc
  · rw [grants_joins hj]
    exact hh

/-- `dma_unpin` touches nobody's range. -/
theorem unpin {hit : Node → Bool} (h : BlockInv b B)
    (he : editFirst hit (fun d => { d with pins := d.pins - 1 }) none B.nodes = some l) :
    BlockInv b { B with nodes := l } := by
  obtain ⟨pre, q, d, post, hl, -, -, hq, rfl⟩ := editFirst_spec he
  have hh := h.agrees
  rw [Option.toList_none, List.nil_append] at hl
  rw [hl] at hh
  refine h.coalesce hl hq rfl rfl (hh.trans (List.Perm.of_eq ?_))
  simp only [grants_append, grants_cons, Node.grant]

/-- `dma_free` ends the range of the node it finds. -/
theorem free {phy : ℕ} (h : BlockInv b B)
    (he : editFirst (Pool.hitOf pid phy) (fun d => { d with pid := 0 }) none B.nodes = some l) :
    BlockInv b { B with
      nodes := l,
      held := match B.nodes.find? (Pool.hitOf pid phy) with
        | none => B.held
        | some d => B.held.erase d.grant } := by
  obtain ⟨pre, q, d, post, hl, -, hfind, hq, rfl⟩ := editFirst_spec he
  rw [Option.toList_none, List.nil_append] at hl
  rw [hfind]
  refine h.coalesce hl hq rfl rfl ((h.agrees.erase d.grant).trans ?_)
  rw [hl]
  simp only [grants_append, grants_cons]
  split_ifs with hd
  · refine List.Perm.of_eq (List.erase_of_not_mem fun hmem => ?_)
    simp only [← List.append_assoc, ← grants_append, List.append_nil] at hmem
    obtain ⟨n, -, hn, hng⟩ := mem_grants.mp hmem
    exact hn ((congrArg Grant.pid hng).trans hd)
  · rw [List.nil_append, ← List.append_assoc, ← List.append_assoc]
    have hmid : (grants pre ++ grants q.toList ++ ([d.grant] ++ grants post)).Perm
        (d.grant :: (grants pre ++ grants q.toList ++ grants post)) := List.perm_middle
    simpa using hmid.erase d.grant

/-- `dma_pin` holds on to an allocated node. -/
theorem pin {hit : Node → Bool} (h : BlockInv b B) (hp : pinFirst hit B.nodes = some l) :
    BlockInv b { B with nodes := l } := by
  obtain ⟨pre, d, post, hl, -, -, rfl⟩ := pinFirst_spec hp
  have hbusy : ¬({ d with pins := d.pins + 1 } : Node).Idle := by simp [Node.Idle, Node.reusable]
  have htiled := h.tiled
  have hpages := h.pages
  rw [hl] at htiled hpages
  refine ⟨tiled_write htiled rfl rfl, ?_, by simp, h.aligned, ?_, h.fits, h.small, ?_⟩
  · exact sparse_write (hl ▸ h.sparse) hbusy
  · simp only [List.mem_append, List.mem_cons] at hpages ⊢
    rintro n (hn | rfl | hn)
    · exact hpages n (.inl hn)
    · exact hpages d (.inr (.inl rfl))
    · exact hpages n (.inr (.inr hn))
  · have hh := h.agrees
    rw [hl] at hh
    refine hh.trans (List.Perm.of_eq ?_)
    simp only [grants_append, grants_cons, Node.grant]

/-- `dma_alloc` cuts its range out of a free node. -/
theorem alloc {size base : ℕ} (h : BlockInv b B) (hpid : pid ≠ 0) (hsize : b.page ∣ size)
    (ha : allocFirst b pid size B.nodes = some (base, l)) :
    BlockInv b { B with nodes := l, held := ⟨pid, base, size⟩ :: B.held } := by
  obtain ⟨pre, d, post, hl, hd, hle, rfl, rfl⟩ := allocFirst_spec ha
  have hidle : d.pid = 0 := (of_decide_eq_true hd).1
  have htiled := h.tiled
  have hpages := h.pages
  have hsparse := h.sparse
  have hh := h.agrees
  rw [hl] at htiled hpages hsparse hh
  have hend := (htiled.inside (List.mem_append_right pre List.mem_cons_self)).2
  have hpd : b.page ∣ d.size := hpages d (List.mem_append_right pre List.mem_cons_self)
  have hbusy : ∀ n : Node, n.pid = pid → ¬n.Idle := fun n hn hi =>
    hpid (hn.symm.trans (of_decide_eq_true hi).1)
  have hheld : (⟨pid, d.base, size⟩ :: B.held).Perm
      (grants pre ++ ⟨pid, d.base, size⟩ :: grants post) := by
    refine (List.Perm.cons _ hh).trans ?_
    rw [grants_append, grants_cons, if_pos hidle]
    exact List.perm_middle.symm
  split_ifs with hlt
  · have hwrap : (d.base + size) % b.top = d.base + size := by
      have := h.fits
      exact Nat.mod_eq_of_lt (by omega)
    rw [hwrap]
    refine ⟨?_, ?_, by simp, h.aligned, ?_, h.fits, h.small, ?_⟩
    · exact htiled.replace ⟨rfl, rfl, show d.base + size + (d.size - size) = _ by omega⟩
    · obtain ⟨h₁, h₂, -⟩ := List.isChain_append.mp hsparse
      refine Sparse.append h₁ (Sparse.cons (Sparse.cons h₂.tail ?_) ?_) ?_
      · intro c hc hcc
        exact (List.isChain_cons.mp h₂).1 c hc ⟨hd, hcc.2⟩
      · exact fun c _ hc => hbusy _ rfl hc.1
      · rintro a - c ⟨rfl⟩ hc
        exact hbusy _ rfl hc.2
    · simp only [List.mem_append, List.mem_cons, List.not_mem_nil, or_false] at hpages ⊢
      rintro n (hn | (rfl | rfl) | hn)
      · exact hpages n (.inl hn)
      · exact hsize
      · exact Nat.dvd_sub hpd hsize
      · exact hpages n (.inr (.inr hn))
    · refine hheld.trans (List.Perm.of_eq ?_)
      simp [grants_append, grants_cons, Node.grant, dmaNew, hpid]
  · have heq : d.size = size := by omega
    refine ⟨?_, ?_, by simp, h.aligned, ?_, h.fits, h.small, ?_⟩
    · exact htiled.replace ⟨rfl, rfl⟩
    · exact sparse_write hsparse (hbusy _ rfl)
    · simp only [List.mem_append, List.mem_cons, List.not_mem_nil, or_false] at hpages ⊢
      rintro n (hn | rfl | hn)
      · exact hpages n (.inl hn)
      · exact hpd
      · exact hpages n (.inr (.inr hn))
    · refine hheld.trans (List.Perm.of_eq ?_)
      simp [grants_append, grants_cons, Node.grant, hpid, heq]

/-- `dma_release` ends every range of the pid. -/
theorem release (h : BlockInv b B) :
    BlockInv b { B with
      nodes := releaseNodes pid none B.nodes,
      held := B.held.filter fun g => g.pid ≠ pid } := by
  have htiled : Tiled B.phyBase (B.nodes.map fun d => d.release pid) (B.phyBase + B.size) :=
    h.tiled.map (fun _ _ => release_base) fun _ _ => release_size
  have hj := @joins_releaseNodes B.nodes [] pid _ _ none htiled (Nat.add_lt_add_left h.small _)
  rw [Option.toList_none, List.nil_append, List.nil_append, List.nil_append] at hj
  refine ⟨hj.tiles htiled, sparse_releaseNodes, ?_, h.aligned, ?_, h.fits, h.small, ?_⟩
  · exact hj.ne_nil (by simpa using h.filled)
  · refine hj.all ?_ fun a c m ha hc _ hsize _ => ?_
    · intro n hn
      obtain ⟨d, hd, rfl⟩ := List.mem_map.mp hn
      rw [release_size]
      exact h.pages d hd
    · rw [hsize]
      exact Nat.dvd_add ha hc
  · rw [grants_joins hj, grants_release]
    exact h.agrees.filter _

/-- One free node over the whole block. -/
theorem fresh (hal : b.page ∣ B.phyBase) (hs : b.page ∣ B.size) (hf : B.phyBase + B.size ≤ b.top)
    (hlt : B.size < 2 ^ 32) (hn : B.nodes = [dmaNew B.phyBase B.size]) (hh : B.held = []) :
    BlockInv b B := by
  refine ⟨?_, ?_, ?_, hal, ?_, hf, hlt, ?_⟩
  · rw [hn]
    exact ⟨rfl, rfl⟩
  · rw [hn]
    exact List.isChain_singleton _
  · rw [hn]
    exact List.cons_ne_nil _ _
  · rw [hn]
    rintro d hd
    rw [List.mem_singleton.mp hd]
    exact hs
  · rw [hn, hh]
    exact List.Perm.refl _

/-- When nothing is held or pinned, one free node is all there is. -/
theorem whole (h : BlockInv b B) (hheld : B.held = []) (hpins : ∀ d ∈ B.nodes, d.pins = 0) :
    B.nodes = [dmaNew B.phyBase B.size] := by
  have hpid : ∀ d ∈ B.nodes, d.pid = 0 := by
    intro d hd
    by_contra hne
    have hg := h.agrees.symm.subset (mem_grants.mpr ⟨d, hd, hne, rfl⟩)
    rw [hheld] at hg
    cases hg
  obtain ⟨d, hd⟩ := h.sparse.single
    (fun d hd => decide_eq_true ⟨hpid d hd, hpins d hd⟩) h.filled
  have ht := h.tiled
  rw [hd] at ht hpid hpins ⊢
  obtain ⟨hbase, hsize⟩ := ht
  have h0 := hpid d (List.mem_singleton_self d)
  have h1 := hpins d (List.mem_singleton_self d)
  have hsz : d.size = B.size := Nat.add_left_cancel hsize
  cases d
  simp_all [dmaNew]

end BlockInv

/-! ### The pool -/

def Block.range (B : Block) : ℕ × ℕ := (B.phyBase, B.size)

def Node.range (d : Node) : ℕ × ℕ := (d.base, d.size)

def Grant.range (g : Grant) : ℕ × ℕ := (g.base, g.size)

/-- What holds of the pool at all times. -/
structure Inv (b : Build) (m : Pool) : Prop where
  block : ∀ B ∈ m.blocks, BlockInv b B
  apart : (m.blocks.map Block.range).Pairwise Apart

/-- When a call is safe. An allocation is not made for pid 0 and does not round up past 32 bits; a
    block that is registered again has no allocation left; a block that is registered anew is page
    aligned, ends below the top of the address space and overlaps no registered one. -/
def Sane (b : Build) (m : Pool) : Op → Prop
  | .alloc id pid size => (m.block id).isSome → pid ≠ 0 ∧ size % 2 ^ 32 + b.page ≤ 2 ^ 32
  | .set pid phy _ size _ uidOk ownerLive =>
    (pid < 0 ∨ uidOk = true) → ∀ s, Pool.setSize b (phy % b.top) (size % 2 ^ 32) = some s →
      match Pool.scan pid (phy % b.top) s ownerLive 0 m.blocks with
      | .refused => True
      | .reclaim i => ∀ B ∈ m.blocks[i]?, ∀ d ∈ B.nodes, d.pid = 0
      | .fresh => m.blocks.length < dmaBlockMax → b.page ∣ phy % b.top ∧ phy % b.top + s ≤ b.top ∧
          ∀ B ∈ m.blocks, Apart B.range (phy % b.top, s)
  | _ => True

section
variable {b : Build} {m m' : Pool} {B B' : Block} {i s : ℕ} {pid : ℤ}

theorem block_eq {id : ℤ} (h : m.block id = some (i, B)) : m.blocks[i]? = some B ∧ i = id.toNat := by
  unfold Pool.block at h
  split_ifs at h
  obtain ⟨C, hC, he⟩ := Option.map_eq_some_iff.mp h
  cases he
  exact ⟨hC, rfl⟩

/-- A block is rewritten in its place. -/
theorem Inv.setBlock (h : Inv b m) (hi : m.blocks[i]? = some B) (hB : BlockInv b B')
    (hr : B'.range = B.range) : Inv b (m.setBlock i B') := by
  refine ⟨fun C hC => ?_, ?_⟩
  · rcases List.mem_or_eq_of_mem_set hC with hC | rfl
    · exact h.block C hC
    · exact hB
  · have hmap : (m.blocks.set i B').map Block.range = m.blocks.map Block.range := by
      obtain ⟨hlt, rfl⟩ := List.getElem?_eq_some_iff.mp hi
      have hlt' : i < (m.blocks.map Block.range).length := by rwa [List.length_map]
      rw [List.map_set, hr, ← List.getElem_map Block.range]
      exact List.set_getElem_self hlt'
    rw [Pool.setBlock, hmap]
    exact h.apart

theorem setSize_spec {phy size : ℕ} (h : Pool.setSize b phy size = some s) (hlt : size < 2 ^ 32) :
    b.page ∣ s ∧ s < 2 ^ 32 := by
  have hle : alignDown size b.page < 2 ^ 32 := (alignDown_le size b.page).trans_lt hlt
  have hdvd := dvd_alignDown size b.page
  simp only [Pool.setSize, Nat.mod_eq_of_lt hle] at h
  split_ifs at h
  · cases h
    exact ⟨hdvd, hle⟩
  · cases h
    exact ⟨Nat.dvd_sub hdvd (dvd_refl _), (Nat.sub_le ..).trans_lt hle⟩

/-- A block registered again is one of that very range, with no pin in it. -/
theorem scan_reclaim {phy j : ℕ} {ownerLive : ℤ → Bool} {l : List Block}
    (h : Pool.scan pid phy s ownerLive j l = .reclaim i) :
    j ≤ i ∧ ∃ B, l[i - j]? = some B ∧ B.range = (phy, s) ∧ ∀ d ∈ B.nodes, d.pins = 0 := by
  induction l generalizing j with
  | nil => cases h
  | cons C l ih =>
    have hnext : Pool.scan pid phy s ownerLive (j + 1) l = .reclaim i →
        j ≤ i ∧ ∃ B, (C :: l)[i - j]? = some B ∧ B.range = (phy, s) ∧ ∀ d ∈ B.nodes, d.pins = 0 := by
      intro h
      obtain ⟨hle, B, hB, hrest⟩ := ih h
      refine ⟨Nat.le_of_succ_le hle, B, ?_, hrest⟩
      have hsub : i - j = i - (j + 1) + 1 := by omega
      rw [hsub, List.getElem?_cons_succ]
      exact hB
    unfold Pool.scan at h
    split_ifs at h with hrange hpins hown hlive
    · exact hnext h
    · exact hnext h
    · exact hnext h
    · cases h
      push Not at hrange
      refine ⟨le_rfl, C, by rw [Nat.sub_self]; rfl, by rw [Block.range, hrange.1, hrange.2], ?_⟩
      intro d hd
      by_contra hne
      exact hpins (List.any_eq_true.mpr ⟨d, hd, decide_eq_true hne⟩)

/-- The size `dma_alloc` looks for. -/
theorem alloc_size {size : ℕ} (h : size % 2 ^ 32 + b.page ≤ 2 ^ 32) :
    b.alignUp (size % 2 ^ 32) b.page % 2 ^ 32 = roundUp (size % 2 ^ 32) b.page := by
  have hpos : 0 < b.page := Build.page_pos
  have htop : 2 ^ 32 ≤ b.top := Build.le_top
  rw [Build.alignUp_eq (by omega)]
  refine Nat.mod_eq_of_lt ?_
  exact (Nat.div_mul_le_self ..).trans_lt (by omega)

theorem inv_set {pid : ℤ} {phy v size : ℕ} {shared uidOk : Bool} {ownerLive : ℤ → Bool}
    (h : Inv b m) (hs : Sane b m (.set pid phy v size shared uidOk ownerLive)) :
    Inv b (m.dmaSet b pid (phy % b.top) (v % b.top) (size % 2 ^ 32) shared uidOk ownerLive).2 := by
  rw [Pool.dmaSet]
  by_cases hauth : 0 ≤ pid ∧ uidOk = false
  · rw [if_pos hauth]
    exact h
  · rw [if_neg hauth]
    have hauth' : pid < 0 ∨ uidOk = true := by
      rw [not_and_or, not_le, Bool.not_eq_false] at hauth
      exact hauth
    split
    · exact h
    · rename_i s hsize
      have hsane := hs hauth' s hsize
      obtain ⟨hdvd, hlt⟩ := setSize_spec hsize (Nat.mod_lt _ (Nat.two_pow_pos 32))
      cases hscan : Pool.scan pid (phy % b.top) s ownerLive 0 m.blocks with
      | refused => exact h
      | reclaim i =>
        -- every node is free and unpinned, so the list is already the one free node
        rw [hscan] at hsane
        obtain ⟨-, B, hB, hrange, hpins⟩ := scan_reclaim hscan
        rw [Nat.sub_zero] at hB
        have hinv := h.block B (List.mem_of_getElem? hB)
        have hheld : B.held = [] := by
          refine List.eq_nil_iff_forall_not_mem.mpr fun g hg => ?_
          obtain ⟨d, hd, hne, -⟩ := mem_grants.mp (hinv.agrees.subset hg)
          exact hne (hsane B hB d hd)
        have hphy : B.phyBase = phy % b.top := congrArg Prod.fst hrange
        have hsz : B.size = s := congrArg Prod.snd hrange
        dsimp only
        rw [hB, ← hphy, ← hsz, ← hinv.whole hheld hpins]
        exact h.setBlock hB ⟨hinv.tiled, hinv.sparse, hinv.filled, hinv.aligned, hinv.pages,
          hinv.fits, hinv.small, hinv.agrees⟩ rfl
      | fresh =>
        rw [hscan] at hsane
        dsimp only
        split_ifs with hfull
        · exact h
        · obtain ⟨hal, hfit, hap⟩ := hsane (Nat.lt_of_not_le hfull)
          refine ⟨fun C hC => ?_, ?_⟩
          · rcases List.mem_append.mp hC with hC | hC
            · exact h.block C hC
            · rw [List.mem_singleton.mp hC]
              exact BlockInv.fresh hal hdvd hfit hlt rfl rfl
          · rw [List.map_append]
            refine List.pairwise_append.mpr ⟨h.apart, List.pairwise_singleton .., ?_⟩
            intro r hr t ht
            obtain ⟨C, hC, rfl⟩ := List.mem_map.mp hr
            rw [List.mem_singleton.mp ht]
            exact hap C hC

/-- One sane call. -/
theorem inv_step {o : Op} (h : Inv b m) (hs : Sane b m o) (hst : step b m o = some m') :
    Inv b m' := by
  cases o with
  | set =>
    cases hst
    exact inv_set h hs
  | alloc id pid size =>
    cases hst
    unfold Pool.dmaAlloc
    split
    · exact h
    · rename_i i B hB
      obtain ⟨hpid, hsize⟩ := hs (by rw [hB]; rfl)
      split
      · exact h
      · rename_i base l ha
        rw [alloc_size hsize] at ha
        have hi := (block_eq hB).1
        have hinv := h.block B (List.mem_of_getElem? hi)
        exact h.setBlock hi (hinv.alloc hpid (Nat.dvd_mul_left ..) ha) rfl
  | free id pid phy =>
    cases hst
    unfold Pool.dmaFree
    split
    · exact h
    · rename_i i B hB
      split
      · exact h
      · rename_i l he
        have hi := (block_eq hB).1
        exact h.setBlock hi ((h.block B (List.mem_of_getElem? hi)).free he) rfl
  | release pid =>
    cases hst
    refine ⟨fun C hC => ?_, ?_⟩
    · obtain ⟨B, hB, rfl⟩ := List.mem_map.mp hC
      exact (h.block B hB).release
    · rw [Pool.dmaRelease, List.map_map]
      exact h.apart
  | pin id pid phy size =>
    cases hst
    unfold Pool.dmaPin
    split_ifs
    · exact h
    · split
      · exact h
      · rename_i i B hB
        split
        · exact h
        · rename_i l hp
          have hi := (block_eq hB).1
          exact h.setBlock hi ((h.block B (List.mem_of_getElem? hi)).pin hp) rfl
  | unpin id phy =>
    cases hst
    unfold Pool.dmaUnpin
    split
    · exact h
    · rename_i i B hB
      split
      · exact h
      · rename_i l he
        have hi := (block_eq hB).1
        exact h.setBlock hi ((h.block B (List.mem_of_getElem? hi)).unpin he) rfl

theorem inv_boot : Inv b boot := ⟨fun _ h => (by cases h), .nil⟩

end

/-! ### What it comes to -/

/-- What is promised of DMA storage. -/
structure Sound (b : Build) (m : Pool) : Prop where
  tiled : ∀ B ∈ m.blocks, Tiled B.phyBase B.nodes (B.phyBase + B.size)
  disjoint : ((m.blocks.flatMap Block.held).map Grant.range).Pairwise Apart
  pinned : ∀ B ∈ m.blocks, ∀ g ∈ B.held, ∀ C ∈ m.blocks, ∀ d ∈ C.nodes, d.pins ≠ 0 →
    d.grant = g ∨ Apart g.range d.range
  inside : ∀ B ∈ m.blocks, ∀ g ∈ B.held,
    B.phyBase ≤ g.base ∧ g.base + g.size ≤ B.phyBase + B.size ∧ b.page ∣ g.base ∧ b.page ∣ g.size
  pin : ∀ id pid phy size, (m.dmaPin id pid phy size).1 = true →
    ∃ B ∈ m.blocks[id.toNat]?, ∃ g ∈ B.held, g.pid = pid ∧ g.base = phy ∧ size ≤ g.size
  whole : ∀ B ∈ m.blocks, B.held = [] → (∀ d ∈ B.nodes, d.pins = 0) →
    B.nodes = [dmaNew B.phyBase B.size]

section
variable {b : Build} {m : Pool} {B C : Block} {g g' : Grant} {d : Node}

namespace BlockInv

theorem node (h : BlockInv b B) (hg : g ∈ B.held) : ∃ d ∈ B.nodes, d.pid ≠ 0 ∧ d.grant = g :=
  mem_grants.mp (h.agrees.subset hg)

theorem inside (h : BlockInv b B) (hg : g ∈ B.held) :
    B.phyBase ≤ g.base ∧ g.base + g.size ≤ B.phyBase + B.size := by
  obtain ⟨d, hd, -, rfl⟩ := h.node hg
  exact h.tiled.inside hd

/-- Two nodes of one block are the same or apart. -/
theorem apart {d d' : Node} (h : BlockInv b B) (hd : d ∈ B.nodes) (hd' : d' ∈ B.nodes) :
    d = d' ∨ Apart d.range d'.range := same_or_apart (h.tiled.apart.imp .inl) hd hd'

/-- The pieces of a tiling that are held start at page boundaries. -/
theorem base_dvd (h : BlockInv b B) (hd : d ∈ B.nodes) : b.page ∣ d.base := by
  obtain ⟨pre, post, hl⟩ := List.append_of_mem hd
  have ht := h.tiled
  have hp := h.pages
  have ha := h.aligned
  rw [hl] at ht hp
  obtain ⟨e, h₁, h₂, -⟩ := tiles_append.mp ht
  rw [h₂]
  exact tiles_dvd h₁ ha fun n hn => hp n (List.mem_append_left _ hn)

theorem disjoint (h : BlockInv b B) : (B.held.map Grant.range).Pairwise Apart := by
  rw [List.pairwise_map]
  refine (h.agrees.pairwise_iff fun {x y} (hxy : Apart x.range y.range) => hxy.symm).mpr ?_
  rw [grants, List.pairwise_map]
  exact (h.tiled.apart.imp fun h => .inl h).filter _

end BlockInv

theorem Inv.sound (h : Inv b m) : Sound b m := by
  refine ⟨fun B hB => (h.block B hB).tiled, ?_, ?_, ?_, ?_, fun B hB => (h.block B hB).whole⟩
  · rw [List.map_flatMap]
    refine List.pairwise_flatMap.mpr ⟨fun B hB => (h.block B hB).disjoint, ?_⟩
    refine (List.pairwise_map.mp h.apart).imp_of_mem fun {B C} hB hC hap r hr t ht => ?_
    obtain ⟨g, hg, rfl⟩ := List.mem_map.mp hr
    obtain ⟨g', hg', rfl⟩ := List.mem_map.mp ht
    exact hap.mono ((h.block B hB).inside hg) ((h.block C hC).inside hg')
  · intro B hB g hg C hC d hd _
    rcases same_or_apart (List.pairwise_map.mp h.apart) hB hC with rfl | hap
    · obtain ⟨d', hd', -, rfl⟩ := (h.block B hB).node hg
      rcases (h.block B hB).apart hd' hd with rfl | hap
      · exact .inl rfl
      · exact .inr hap
    · exact .inr (hap.mono ((h.block B hB).inside hg) ((h.block C hC).tiled.inside hd))
  · intro B hB g hg
    have hinv := h.block B hB
    obtain ⟨d, hd, -, rfl⟩ := hinv.node hg
    obtain ⟨hlo, hhi⟩ := hinv.tiled.inside hd
    exact ⟨hlo, hhi, hinv.base_dvd hd, hinv.pages d hd⟩
  · intro id pid phy size hpin
    unfold Pool.dmaPin at hpin
    split_ifs at hpin with hz
    split at hpin
    · cases hpin
    · rename_i i B hB
      split at hpin
      · cases hpin
      · rename_i l hp
        obtain ⟨hi, rfl⟩ := block_eq hB
        obtain ⟨pre, d, post, hl, hd, -, -⟩ := pinFirst_spec hp
        obtain ⟨hdpid, hdbase, hdsize⟩ := of_decide_eq_true hd
        have hmem : d ∈ B.nodes := hl ▸ List.mem_append_right pre List.mem_cons_self
        have hne : d.pid ≠ 0 := fun h0 => hz (.inl (hdpid.symm.trans h0))
        have hg := (h.block B (List.mem_of_getElem? hi)).agrees.symm.subset
          (mem_grants.mpr ⟨d, hmem, hne, rfl⟩)
        exact ⟨B, hi, d.grant, hg, hdpid, hdbase, hdsize⟩

/-- In a run of sane calls no DMA storage is handed out while it is live or pinned. -/
theorem dma_sound (h : Reach (step b) (Sane b) boot m) : Sound b m :=
  (h.inv inv_boot fun _ _ _ hi hok hst => inv_step hi hok hst).sound

end

/-- 4K pages and 64 bits. -/
def pages4k : Build := ⟨12, 64, shift_4k, bits_64⟩

/-- `dma_init` with four pages at 1M, and an allocation of pid 5 in it. -/
def lent : Pool := ⟨[⟨[⟨5, 0, 0x2000, 0x100000⟩, ⟨0, 0, 0x2000, 0x102000⟩], 0x100000, 0x80000000,
  0x4000, -1, false, [⟨5, 0x100000, 0x2000⟩]⟩]⟩

theorem dma_sound_lent : Sound pages4k lent := by
  have hset : Reach (step pages4k) (Sane pages4k) boot ⟨[⟨[dmaNew 0x100000 0x4000], 0x100000,
      0x80000000, 0x4000, -1, false, []⟩]⟩ := by
    refine .next .start (o := .set (-1) 0x100000 0x80000000 0x4000 false true fun _ => false) ?_ rfl
    rintro - s ⟨⟩ -
    exact ⟨by decide, by decide, by decide⟩
  refine dma_sound (hset.next (o := .alloc 0 5 0x1800) ?_ rfl)
  exact fun _ => by decide

/-- An allocation of pid 0 stays free: the next caller gets the same range. -/
def twice : Pool := ⟨[⟨[⟨7, 0, 0x2000, 0x100000⟩, ⟨0, 0, 0x2000, 0x102000⟩], 0x100000, 0x80000000,
  0x4000, -1, false, [⟨7, 0x100000, 0x2000⟩, ⟨0, 0x100000, 0x2000⟩]⟩]⟩

theorem initAlloc_aliases : Reach (step pages4k) Free boot twice ∧ ¬Sound pages4k twice := by
  have hrun : runOps (step pages4k) boot [
      .set (-1) 0x100000 0x80000000 0x4000 false true fun _ => false,
      .alloc 0 0 0x2000, .alloc 0 7 0x2000] = some twice := rfl
  refine ⟨reach_of_runOps hrun, fun h => ?_⟩
  have hd := h.disjoint
  revert hd
  decide
end EwokOS.Memory.Dma
