import EwokOS.Libc.Vdevice
import EwokOS.Schemes.Crowd

/-! How often the driver of a device server is told of a close (`vdevice.c`).

    Requests are served by a pool of workers; the table is locked for a look and what is done about it, and
    the driver and vfsd are called without the lock:

        open   ask the driver ─▶ add              close  take the entry ─▶ tell the driver
        dup    tell the driver ─▶ del, add        read, write, ...  look (seed, sister) ─▶ vfsd ─▶ look, add
                                                     └─▶ ask the driver ─▶ write and fcntl: add what it left

    Only the adds of an open and a dup stand for a descriptor that somebody opened. -/

namespace EwokOS.Libc.Vdev

open Schemes (Reach Free Crowd)
open Server (ask)

variable {ω ν ρ : Type} [DecidableEq ν]

/-- There is an entry for the descriptor. -/
def Server.Lists (s : Server ν ρ) (k : Key ν) : Prop := (s.fileGetCache k.fd k.pid k.node).isSome = true

instance (s : Server ν ρ) (k : Key ν) : Decidable (s.Lists k) := inferInstanceAs (Decidable (_ = _))

/-- The descriptor of a request that asks for its entry, and the blob it comes with. -/
def Cmd.target : Cmd ν ρ → Option (ℤ × ν × Option (Fsinfo ν ρ))
  | .read fd node seed | .write fd node seed | .fcntl fd node seed | .poll fd node seed => some (fd, node, some seed)
  | .shm fd node | .flush fd node => some (fd, node, none)
  | .openFd _ _ _ _ | .close _ _ _ _ | .dup _ _ _ _ => none

/-- Where a worker is in its request. -/
inductive Job (ν ρ : Type) where
  | idle
  /-- The driver agreed to an open. -/
  | opened (r : Request ν ρ) (fd : ℤ) (info : Fsinfo ν ρ)
  /-- With the entry that it took out, before the driver's `close`. -/
  | closing (k : Key ν) (info : Fsinfo ν ρ)
  /-- After the driver's `dup`. -/
  | dupped (r : Request ν ρ) (dupFd : ℤ) (node : ν) (info : Option (Fsinfo ν ρ)) (dupOwner : ℤ)
  /-- Before `vfs_get_by_node`. -/
  | lookup (r : Request ν ρ) (fd : ℤ) (node : ν)
  /-- With a copy of its entry, before the callback. -/
  | serving (r : Request ν ρ) (fd : ℤ) (info : Fsinfo ν ρ)
  /-- Before `dev_update_file`. -/
  | update (r : Request ν ρ) (fd : ℤ) (info : Fsinfo ν ρ)

/-- The table and the workers. The rest is ghost, by descriptor: the adds of opens and dups, the closes that
    took an entry, the `close` calls to the driver, and whether an open or a dup stands that nobody closed. -/
structure Pool (ω ν ρ : Type) where
  server : Server ν ρ
  job : ω → Job ν ρ
  made : Key ν → ℕ
  claims : Key ν → ℕ
  closed : Key ν → ℕ
  live : Key ν → Bool

def Pool.start : Pool ω ν ρ :=
  ⟨Server.start, fun _ => .idle, fun _ => 0, fun _ => 0, fun _ => 0, fun _ => false⟩

inductive Step (ω ν ρ : Type) where
  | request (w : ω) (r : Request ν ρ)
  | run (w : ω)

/-- What the driver left that goes into the table. -/
def Request.left (r : Request ν ρ) (info : Fsinfo ν ρ) : Option (Fsinfo ν ρ) :=
  match r.cmd with
  | .write _ _ _ =>
    if r.driver.isSome = true ∧ r.buffer = true then
      some { (r.answer info).2 with state := (r.answer info).2.state ||| fsStateChanged }
    else none
  | .fcntl _ _ _ => if r.driver.isSome = true ∧ (r.answer info).1 = 0 then some (r.answer info).2 else none
  | .openFd _ _ _ _ | .close _ _ _ _ | .dup _ _ _ _ | .read _ _ _ | .shm _ _ | .flush _ _ | .poll _ _ _ => none

namespace Pool
variable [DecidableEq ω] (s : Pool ω ν ρ) (w : ω)

def goto (j : Job ν ρ) : Pool ω ν ρ := { s with job := Function.update s.job w j }

/-- An open or a dup added the entry of `k`. -/
def make (t : Server ν ρ) (k : Key ν) : Pool ω ν ρ :=
  { s with server := t, made := Function.update s.made k (s.made k + 1), live := Function.update s.live k true }

/-- `do_open` up to the driver. -/
def askOpen (r : Request ν ρ) (fd : ℤ) (node : ν) (caller : Option (Fsinfo ν ρ)) (oflag : BitVec 32) : Pool ω ν ρ :=
  match (r.getByNode node).or (caller.filter (·.node = node)) with
  | none => s
  | some info =>
    if r.access info (if oflag &&& oWronly ≠ 0 then .w else .r) = false then s
    else
      let answer := if 0 ≤ fd ∧ r.driver.isSome = true then r.answer info else (0, info)
      if answer.1 ≠ 0 then s else s.goto w (.opened r fd answer.2)

/-- `do_close` up to the driver: whoever finds the entry takes it. -/
def takeEntry (r : Request ν ρ) (fd : ℤ) (node : ν) (closePid ownerPid : ℤ) : Pool ω ν ρ :=
  let owner := Server.closeOwner r closePid ownerPid
  let k : Key ν := ⟨fd, owner, node⟩
  match s.server.fileGetCache fd owner node with
  | none => s
  | some info =>
    let t := { s with server := s.server.fileDel r fd owner node, live := Function.update s.live k false }
    if r.driver.isSome then { t with claims := Function.update s.claims k (s.claims k + 1) }.goto w (.closing k info) else t

/-- The locked part of `dev_fetch_file_seeded`. -/
def fetch (r : Request ν ρ) (fd : ℤ) (node : ν) (seed : Option (Fsinfo ν ρ)) : Pool ω ν ρ :=
  let pid := r.fileOwnerPid r.pid
  match s.server.fileGetCache fd pid node with
  | some info => s.goto w (.serving r fd info)
  | none =>
    match (seed.bind fun i => (s.server.lazyAdd r .seed fd pid i).map (i, ·)).or
        ((s.server.sister r pid node).bind fun i => (s.server.lazyAdd r .sister fd pid i).map (i, ·)) with
    | some (info, t) => { s with server := t }.goto w (.serving r fd info)
    | none => s.goto w (.lookup r fd node)

/-- A request gets to a worker. `do_shm` asks for the entry only where the driver has the callback. -/
def request (r : Request ν ρ) : Pool ω ν ρ :=
  match r.cmd with
  | .openFd fd node caller oflag => s.askOpen w r fd node caller oflag
  | .close fd node closePid ownerPid => s.takeEntry w r fd node closePid ownerPid
  | .dup dupFd node info dupOwner => s.goto w (.dupped r dupFd node info dupOwner)
  | .read fd node seed | .write fd node seed | .fcntl fd node seed | .poll fd node seed => s.fetch w r fd node (some seed)
  | .flush fd node => s.fetch w r fd node none
  | .shm fd node => if r.driver.isSome then s.fetch w r fd node none else s

/-- The next step of a worker. -/
def run : Option (Pool ω ν ρ) :=
  match s.job w with
  | .idle => none
  | .opened r fd info =>
    some ((((s.server.fileAdd r .opening fd r.pid info).map fun t => s.make t ⟨fd, r.fileOwnerPid r.pid, info.node⟩).getD s).goto w .idle)
  | .closing k _ => some ({ s with closed := Function.update s.closed k (s.closed k + 1) }.goto w .idle)
  | .dupped r dupFd node info dupOwner =>
    let t := { s with server := s.server.fileDel r dupFd dupOwner node,
                      live := Function.update s.live ⟨dupFd, r.fileOwnerPid dupOwner, node⟩ false }
    some (((info.bind fun i => (t.server.fileAdd r .dupping dupFd dupOwner i).map fun u =>
      t.make u ⟨dupFd, r.fileOwnerPid dupOwner, i.node⟩).getD t).goto w .idle)
  | .lookup r fd node =>
    let pid := r.fileOwnerPid r.pid
    match r.getByNode node with
    | none => some (s.goto w .idle)
    | some i =>
      match s.server.fileGetCache fd pid node with
      | some info => some (s.goto w (.serving r fd info))
      | none =>
        match s.server.lazyAdd r .vfs fd pid i with
        | some t => some ({ s with server := t }.goto w (.serving r fd i))
        | none => some (s.goto w .idle)
  | .serving r fd info =>
    some (s.goto w (match r.left info with
      | some info' => .update r fd info'
      | none => .idle))
  | .update r fd info => some ({ s with server := (s.server.fileAdd r .left fd r.pid info).getD s.server }.goto w .idle)

def step : Step ω ν ρ → Option (Pool ω ν ρ)
  | .request w r => match s.job w with
    | .idle => some (s.request w r)
    | _ => none
  | .run w => s.run w

omit [DecidableEq ω]

/-- The step adds no entry, but for an open or a dup: a request finds its own, or one that its blob is written
    over, or there is nothing to make one of, or no memory. -/
def Careful : Step ω ν ρ → Prop
  | .request _ r =>
    match r.cmd.target with
    | some (fd, node, seed) =>
      s.server.Lists ⟨fd, r.fileOwnerPid r.pid, node⟩ ∨ (r.room .seed = false ∧ r.room .sister = false) ∨
        match seed with
        | some i => s.server.Lists ⟨fd, r.fileOwnerPid r.pid, i.node⟩
        | none => s.server.sister r (r.fileOwnerPid r.pid) node = none
    | none => True
  | .run w =>
    match s.job w with
    | .lookup r fd node => s.server.Lists ⟨fd, r.fileOwnerPid r.pid, node⟩ ∨ r.room .vfs = false ∨ r.vfs node = none
    | .update r fd info => s.server.Lists ⟨fd, r.fileOwnerPid r.pid, info.node⟩ ∨ r.room .left = false
    | .idle | .opened _ _ _ | .closing _ _ | .dupped _ _ _ _ _ | .serving _ _ _ => True

end Pool

/-- Between the entry of `k` and the driver's `close`. -/
def Job.closes (k : Key ν) : Job ν ρ → Bool
  | .closing k' _ => k' = k
  | .idle | .opened _ _ _ | .dupped _ _ _ _ _ | .lookup _ _ _ | .serving _ _ _ | .update _ _ _ => false

/-- No more closes than opens and dups; the entries are those of opens and dups that nobody closed; and every
    close that took an entry is told to the driver, once. -/
structure Balanced (s : Pool ω ν ρ) : Prop where
  balance : ∀ k, s.closed k ≤ s.made k
  entries : ∀ k, s.server.Lists k ↔ s.live k = true
  claims : ∀ k, ∃ n, Crowd (Job.closes k) s.job n ∧ s.closed k + n = s.claims k

/-! ### The table -/

namespace Server
variable {s t : Server ν ρ} {r : Request ν ρ} {g : Spot} {fd pid : ℤ} {node : ν} {info : Fsinfo ν ρ} {k k' : Key ν}

/-- Every entry is under the name of its node. -/
def Named (s : Server ν ρ) : Prop := ∀ e ∈ s.files, e.2.node = e.1.node

theorem lists_iff : s.Lists k ↔ ∃ e ∈ s.files, e.1 = k := by
  simp [Lists, fileGetCache]

theorem lists_put : (s.put k info).Lists k' ↔ s.Lists k' ∨ k' = k := by
  rw [lists_iff, lists_iff]
  simp only [put]
  by_cases h : k' = k
  · subst h
    simp
  · simp [h, Ne.symm h]

theorem lists_fileDel : (s.fileDel r fd pid node).Lists k' ↔ s.Lists k' ∧ k' ≠ ⟨fd, r.fileOwnerPid pid, node⟩ := by
  rw [lists_iff, lists_iff]
  simp only [fileDel, List.mem_filter, decide_eq_true_eq]
  constructor
  · rintro ⟨e, ⟨he, hne⟩, rfl⟩
    exact ⟨⟨e, he, rfl⟩, hne⟩
  · rintro ⟨⟨e, he, rfl⟩, hne⟩
    exact ⟨e, ⟨he, hne⟩, rfl⟩

theorem Named.fileDel (h : s.Named) : (s.fileDel r fd pid node).Named := fun e he => h e (List.mem_filter.mp he).1

/-- What `file_add` does: it writes the entry, and needs memory if there was none. -/
theorem fileAdd_spec (h : s.Named) (ht : s.fileAdd r g fd pid info = some t) :
    t.Named ∧ (∀ k', t.Lists k' ↔ s.Lists k' ∨ k' = ⟨fd, r.fileOwnerPid pid, info.node⟩) ∧
      (r.room g = false → s.Lists ⟨fd, r.fileOwnerPid pid, info.node⟩) := by
  simp only [Server.fileAdd, Option.ite_none_right_eq_some, Option.some.injEq] at ht
  obtain ⟨hroom, rfl⟩ := ht
  refine ⟨fun e he => ?_, fun k' => lists_put, fun hr => ?_⟩
  · rcases List.mem_cons.mp he with rfl | he
    · rfl
    · exact h e (List.mem_filter.mp he).1
  · exact hroom.resolve_right (by simp [hr])

theorem lazyAdd_spec (h : s.Named) (ht : s.lazyAdd r g fd pid info = some t) :
    t.Named ∧ (∀ k', t.Lists k' ↔ s.Lists k' ∨ k' = ⟨fd, r.fileOwnerPid pid, info.node⟩) ∧
      (r.room g = false → s.Lists ⟨fd, r.fileOwnerPid pid, info.node⟩) := by
  obtain ⟨u, hu, rfl⟩ := Option.map_eq_some_iff.mp ht
  obtain ⟨hn, hl, hroom⟩ := fileAdd_spec h hu
  exact ⟨hn, hl, hroom⟩

/-- An entry that is written over, or written with no memory for another, was there. -/
theorem lists_over (hl : ∀ k', t.Lists k' ↔ s.Lists k' ∨ k' = k) (hk : s.Lists k) (k' : Key ν) : t.Lists k' ↔ s.Lists k' := by
  rw [hl]
  refine ⟨fun h => ?_, Or.inl⟩
  rcases h with h | rfl
  · exact h
  · exact hk

end Server

/-! ### The invariant -/

structure Pool.Inv (s : Pool ω ν ρ) : Prop where
  named : s.server.Named
  entries : ∀ k, s.server.Lists k ↔ s.live k = true
  room : ∀ k, s.claims k + (s.live k).toNat ≤ s.made k
  claims : ∀ k, ∃ n, Crowd (Job.closes k) s.job n ∧ s.closed k + n = s.claims k

namespace Pool.Inv
variable {s u : Pool ω ν ρ} {w : ω} {r : Request ν ρ} {fd : ℤ} {node : ν} {info : Fsinfo ν ρ} {j : Job ν ρ} {t : Server ν ρ} {k : Key ν}

theorem start : Inv (Pool.start : Pool ω ν ρ) := by
  refine ⟨by simp [Pool.start, Server.start, Server.Named], fun k => ?_, fun k => by simp [Pool.start], fun k => ⟨0, ?_, rfl⟩⟩
  · simp [Pool.start, Server.start, Server.lists_iff]
  · exact Crowd.empty fun _ => rfl

theorem balanced (h : Inv s) : Balanced s := by
  refine ⟨fun k => ?_, h.entries, h.claims⟩
  obtain ⟨n, -, hn⟩ := h.claims k
  have := h.room k
  omega

/-- The entry of `k` goes, to nobody. -/
theorem forget (h : Inv s) (ht : t.Named) (hl : ∀ k', t.Lists k' ↔ s.server.Lists k' ∧ k' ≠ k) :
    Inv { s with server := t, live := Function.update s.live k false } := by
  refine ⟨ht, fun k' => ?_, fun k' => ?_, h.claims⟩
  · rw [hl]
    by_cases hk : k' = k
    · subst hk
      simp
    · simp [hk, h.entries k']
  · have := h.room k'
    by_cases hk : k' = k
    · subst hk
      simp only [Function.update_self, Bool.toNat_false]
      omega
    · simpa [hk] using this

variable [DecidableEq ω]

/-- A worker goes on, and no entry comes or goes. -/
theorem stay (h : Inv s) (ht : t.Named) (hl : ∀ k, t.Lists k ↔ s.server.Lists k)
    (hj : ∀ k, j.closes k = (s.job w).closes k) : Inv ({ s with server := t }.goto w j) := by
  refine ⟨ht, fun k => (hl k).trans (h.entries k), h.room, fun k => ?_⟩
  obtain ⟨n, hc, hn⟩ := h.claims k
  exact ⟨n, hc.stay (hj k), hn⟩

/-- The same, with the table as it was. -/
theorem keep (h : Inv s) (hj : ∀ k, j.closes k = (s.job w).closes k) : Inv (s.goto w j) :=
  h.stay (t := s.server) h.named (fun _ => Iff.rfl) hj

/-- An open or a dup added its entry. -/
theorem make (h : Inv s) (ht : t.Named) (hl : ∀ k', t.Lists k' ↔ s.server.Lists k' ∨ k' = k)
    (hj : ∀ k, j.closes k = (s.job w).closes k) : Inv ((s.make t k).goto w j) := by
  refine ⟨ht, fun k' => ?_, fun k' => ?_, fun k' => ?_⟩
  · change t.Lists k' ↔ Function.update s.live k true k' = true
    rw [hl]
    by_cases hk : k' = k
    · subst hk
      simp
    · simp [hk, h.entries k']
  · change s.claims k' + (Function.update s.live k true k').toNat ≤ Function.update s.made k (s.made k + 1) k'
    have := h.room k'
    by_cases hk : k' = k
    · subst hk
      simp only [Function.update_self, Bool.toNat_true]
      omega
    · simpa [hk] using this
  · obtain ⟨n, hc, hn⟩ := h.claims k'
    exact ⟨n, hc.stay (hj k'), hn⟩

theorem takeEntry {closePid ownerPid : ℤ} (h : Inv s) (hidle : s.job w = .idle) : Inv (s.takeEntry w r fd node closePid ownerPid) := by
  unfold Pool.takeEntry
  dsimp only
  have hown : r.fileOwnerPid (Server.closeOwner r closePid ownerPid) = Server.closeOwner r closePid ownerPid :=
    r.owners.main _
  have hl : ∀ k', (s.server.fileDel r fd (Server.closeOwner r closePid ownerPid) node).Lists k' ↔
      s.server.Lists k' ∧ k' ≠ ⟨fd, Server.closeOwner r closePid ownerPid, node⟩ := by
    intro k'
    rw [Server.lists_fileDel, hown]
  split
  · exact h
  · rename_i info hc
    have hlive : s.live ⟨fd, Server.closeOwner r closePid ownerPid, node⟩ = true := by
      rw [← h.entries]
      simp [Server.Lists, hc]
    have hgone := h.forget h.named.fileDel hl
    split
    · refine ⟨hgone.named, hgone.entries, fun k' => ?_, fun k' => ?_⟩
      · change Function.update s.claims _ _ k' + (Function.update s.live _ false k').toNat ≤ s.made k'
        have := h.room k'
        by_cases hk : k' = ⟨fd, Server.closeOwner r closePid ownerPid, node⟩
        · subst hk
          simpa [hlive] using this
        · simpa [hk] using this
      · obtain ⟨n, hcr, hn⟩ := h.claims k'
        change ∃ n, Crowd (Job.closes k') (Function.update s.job w _) n ∧ s.closed k' + n = Function.update s.claims _ _ k'
        by_cases hk : k' = ⟨fd, Server.closeOwner r closePid ownerPid, node⟩
        · subst hk
          refine ⟨n + 1, hcr.join (by simp [hidle, Job.closes]) (by simp [Job.closes]), ?_⟩
          rw [Function.update_self]
          omega
        · refine ⟨n, hcr.stay ?_, by simpa [hk] using hn⟩
          simp [hidle, Job.closes, Ne.symm hk]
    · exact hgone

theorem fetch {seed : Option (Fsinfo ν ρ)} (h : Inv s) (hidle : s.job w = .idle)
    (hc : s.server.Lists ⟨fd, r.fileOwnerPid r.pid, node⟩ ∨ (r.room .seed = false ∧ r.room .sister = false) ∨
      match seed with
      | some i => s.server.Lists ⟨fd, r.fileOwnerPid r.pid, i.node⟩
      | none => s.server.sister r (r.fileOwnerPid r.pid) node = none) : Inv (s.fetch w r fd node seed) := by
  have hown : r.fileOwnerPid (r.fileOwnerPid r.pid) = r.fileOwnerPid r.pid := r.owners.main _
  unfold Pool.fetch
  dsimp only
  split
  · exact h.keep fun k => by simp [hidle, Job.closes]
  · rename_i hnone
    have hc := hc.resolve_left (by simp [Server.Lists, hnone])
    split
    · rename_i info t hadd
      -- the entry that is written was there
      suffices hover : t.Named ∧ ∃ k, s.server.Lists k ∧ ∀ k', t.Lists k' ↔ s.server.Lists k' ∨ k' = k by
        obtain ⟨ht, k, hk, hl⟩ := hover
        exact h.stay ht (Server.lists_over hl hk) fun k => by simp [hidle, Job.closes]
      rcases Option.or_eq_some_iff.mp hadd with hadd | ⟨hfail, hadd⟩
      · obtain ⟨i, hi, hadd⟩ := Option.bind_eq_some_iff.mp hadd
        obtain ⟨t', ht', heq⟩ := Option.map_eq_some_iff.mp hadd
        cases heq
        obtain ⟨hn, hl, hroom⟩ := Server.lazyAdd_spec h.named ht'
        refine ⟨hn, _, ?_, hl⟩
        rcases hc with hr | hc
        · exact hroom hr.1
        · rw [hi] at hc
          rwa [hown]
      · obtain ⟨i, hi, hadd⟩ := Option.bind_eq_some_iff.mp hadd
        obtain ⟨t', ht', heq⟩ := Option.map_eq_some_iff.mp hadd
        cases heq
        obtain ⟨hn, hl, hroom⟩ := Server.lazyAdd_spec h.named ht'
        refine ⟨hn, _, ?_, hl⟩
        rcases hc with hr | hc
        · exact hroom hr.2
        · cases seed with
          | none =>
            rw [hc] at hi
            cases hi
          | some sd =>
            -- the blob would have been written over its entry
            exfalso
            have hl' : (s.server.fileGetCache fd (r.fileOwnerPid r.pid) sd.node).isSome = true := hc
            simp [Server.lazyAdd, Server.fileAdd, hown, hl'] at hfail
    · exact h.keep fun k => by simp [hidle, Job.closes]

theorem request (h : Inv s) (hidle : s.job w = .idle) (hc : s.Careful (.request w r)) : Inv (s.request w r) := by
  unfold Pool.request
  simp only [Careful] at hc
  cases hcmd : r.cmd with
  | openFd fd node caller oflag =>
    dsimp only [Pool.askOpen]
    repeat' split
    all_goals first
      | exact h
      | exact h.keep (j := .opened r fd _) fun k => by simp [hidle, Job.closes]
  | close fd node closePid ownerPid => exact h.takeEntry hidle
  | dup dupFd node info dupOwner => exact h.keep fun k => by simp [hidle, Job.closes]
  | read fd node seed => exact h.fetch hidle (by simpa only [hcmd, Cmd.target] using hc)
  | write fd node seed => exact h.fetch hidle (by simpa only [hcmd, Cmd.target] using hc)
  | fcntl fd node seed => exact h.fetch hidle (by simpa only [hcmd, Cmd.target] using hc)
  | poll fd node seed => exact h.fetch hidle (by simpa only [hcmd, Cmd.target] using hc)
  | flush fd node => exact h.fetch hidle (by simpa only [hcmd, Cmd.target] using hc)
  | shm fd node =>
    dsimp only
    split
    · exact h.fetch hidle (by simpa only [hcmd, Cmd.target] using hc)
    · exact h

theorem run (h : Inv s) (hc : s.Careful (.run w)) (hu : s.run w = some u) : Inv u := by
  unfold Pool.run at hu
  simp only [Careful] at hc
  cases hj : s.job w with
  | idle => simp [hj] at hu
  | opened r fd info =>
    simp only [hj, Option.some.injEq] at hu
    subst hu
    cases ha : s.server.fileAdd r .opening fd r.pid info with
    | none => exact h.keep fun k => by simp [hj, Job.closes]
    | some t =>
      obtain ⟨hn, hl, -⟩ := Server.fileAdd_spec h.named ha
      exact h.make hn hl fun k => by simp [hj, Job.closes]
  | closing k info =>
    simp only [hj, Option.some.injEq] at hu
    subst hu
    refine ⟨h.named, h.entries, h.room, fun k' => ?_⟩
    obtain ⟨n, hcr, hn⟩ := h.claims k'
    change ∃ n, Crowd (Job.closes k') (Function.update s.job w _) n ∧ Function.update s.closed k _ k' + n = s.claims k'
    by_cases hk : k' = k
    · subst hk
      have hpos := hcr.pos (t := w) (by simp [hj, Job.closes])
      refine ⟨n - 1, hcr.leave (by simp [hj, Job.closes]) rfl, ?_⟩
      rw [Function.update_self]
      omega
    · refine ⟨n, hcr.stay ?_, by simpa [hk] using hn⟩
      simp [hj, Job.closes, Ne.symm hk]
  | dupped r dupFd node info dupOwner =>
    simp only [hj, Option.some.injEq] at hu
    subst hu
    have hl : ∀ k', (s.server.fileDel r dupFd dupOwner node).Lists k' ↔
        s.server.Lists k' ∧ k' ≠ ⟨dupFd, r.fileOwnerPid dupOwner, node⟩ := fun _ => Server.lists_fileDel
    have hgone := h.forget h.named.fileDel hl
    cases info with
    | none => exact hgone.keep fun k => by simp [hj, Job.closes]
    | some i =>
      cases ha : (s.server.fileDel r dupFd dupOwner node).fileAdd r .dupping dupFd dupOwner i with
      | none =>
        simp only [Option.bind_some, ha, Option.map_none, Option.getD_none]
        exact hgone.keep fun k => by simp [hj, Job.closes]
      | some t =>
        simp only [Option.bind_some, ha, Option.map_some, Option.getD_some]
        obtain ⟨hn, hl, -⟩ := Server.fileAdd_spec h.named.fileDel ha
        exact hgone.make hn hl fun k => by simp [hj, Job.closes]
  | lookup r fd node =>
    have hown : r.fileOwnerPid (r.fileOwnerPid r.pid) = r.fileOwnerPid r.pid := r.owners.main _
    simp only [hj] at hu hc
    split at hu
    · cases hu
      exact h.keep fun k => by simp [hj, Job.closes]
    · rename_i i hi
      obtain ⟨x, hx, rfl⟩ := Option.map_eq_some_iff.mp hi
      split at hu
      · cases hu
        exact h.keep fun k => by simp [hj, Job.closes]
      · rename_i hnone
        have hroom : r.room .vfs = false := by
          rcases hc with hc | hc | hc
          · simp [Server.Lists, hnone] at hc
          · exact hc
          · rw [hx] at hc
            cases hc
        split at hu
        · rename_i t ha
          cases hu
          obtain ⟨hn, hl, hover⟩ := Server.lazyAdd_spec h.named ha
          exact h.stay hn (Server.lists_over hl (hover hroom)) fun k => by simp [hj, Job.closes]
        · cases hu
          exact h.keep fun k => by simp [hj, Job.closes]
  | serving r fd info =>
    simp only [hj, Option.some.injEq] at hu
    subst hu
    exact h.keep fun k => by split <;> simp [hj, Job.closes]
  | update r fd info =>
    simp only [hj, Option.some.injEq] at hu hc
    subst hu
    cases ha : s.server.fileAdd r .left fd r.pid info with
    | none => exact h.keep fun k => by simp [hj, Job.closes]
    | some t =>
      obtain ⟨hn, hl, hover⟩ := Server.fileAdd_spec h.named ha
      refine h.stay hn (Server.lists_over hl ?_) fun k => by simp [hj, Job.closes]
      exact hc.elim id hover

theorem step {e : Step ω ν ρ} (h : Inv s) (hc : s.Careful e) (hu : s.step e = some u) : Inv u := by
  cases e with
  | request w r =>
    simp only [Pool.step] at hu
    split at hu
    · rename_i hidle
      cases hu
      exact h.request hidle hc
    · cases hu
  | run w => exact h.run hc hu

end Pool.Inv

theorem closes_balanced [DecidableEq ω] (s : Pool ω ν ρ) (hr : Reach Pool.step Pool.Careful Pool.start s) : Balanced s :=
  (hr.inv (I := Pool.Inv) Pool.Inv.start fun _ _ _ h hc hu => h.step hc hu).balanced

instance (s : Pool ω ν ρ) (e : Step ω ν ρ) : Decidable (s.Careful e) :=
  match e with
  | .request _ r => by
    unfold Pool.Careful
    dsimp only
    split
    · rename_i seed _
      cases seed <;> infer_instance
    · infer_instance
  | .run w => by
    unfold Pool.Careful
    dsimp only
    split <;> infer_instance

/-- The descriptor 3 of process 7 on node 5. -/
def three : Key ℕ := ⟨3, 7, 5⟩

/-- Two closes of an open descriptor meet. -/
def closedTwice : List (Step (Fin 2) ℕ ℕ) :=
  [.request 0 (ask 7 (.openFd 3 5 none 0)), .run 0, .request 0 (ask 7 (.read 3 5 ⟨5, 0, 9⟩)), .run 0,
    .request 0 (ask 7 (.close 3 5 0 7)), .request 1 (ask 7 (.close 3 5 0 7)), .run 0]

theorem closes_balanced_twice : ∃ s : Pool (Fin 2) ℕ ℕ, Reach Pool.step Pool.Careful Pool.start s ∧
    s.made three = 1 ∧ s.closed three = 1 ∧ Balanced s := by
  have hrun : (Schemes.runIf Pool.step (fun s e => decide (s.Careful e)) (Pool.start : Pool (Fin 2) ℕ ℕ) closedTwice).map
      (fun s => (s.made three, s.closed three)) = some (1, 1) := by
    decide +kernel
  obtain ⟨s, hs, hfacts⟩ := Option.map_eq_some_iff.mp hrun
  simp only [Prod.mk.injEq] at hfacts
  have hreach := Schemes.reach_of_runIf hs fun _ _ h => of_decide_eq_true h
  exact ⟨s, hreach, hfacts.1, hfacts.2, closes_balanced s hreach⟩

/-- A read comes late, after the close, and a second close after it. -/
def lateRead : List (Step (Fin 2) ℕ ℕ) :=
  [.request 0 (ask 7 (.openFd 3 5 none 0)), .run 0, .request 0 (ask 7 (.close 3 5 0 7)), .run 0,
    .request 0 (ask 7 (.read 3 5 ⟨5, 0, 9⟩)), .run 0, .request 0 (ask 7 (.close 3 5 0 7)), .run 0]

theorem closed_again : ∃ s : Pool (Fin 2) ℕ ℕ, Reach Pool.step Free Pool.start s ∧
    s.made three = 1 ∧ s.closed three = 2 ∧ ¬Balanced s := by
  have hrun : (Schemes.runOps Pool.step (Pool.start : Pool (Fin 2) ℕ ℕ) lateRead).map
      (fun s => (s.made three, s.closed three)) = some (1, 2) := by
    decide +kernel
  obtain ⟨s, hs, hfacts⟩ := Option.map_eq_some_iff.mp hrun
  simp only [Prod.mk.injEq] at hfacts
  refine ⟨s, Schemes.reach_of_runOps hs, hfacts.1, hfacts.2, fun h => ?_⟩
  have := h.balance three
  omega

end EwokOS.Libc.Vdev
