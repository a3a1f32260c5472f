import EwokOS.Vfs.Steady

/-! The counts of a node and the descriptors that point to it.

    `refs` is kept by seven requests on behalf of the caller, its process, its child or the last process
    that had the slot. `Balanced` ties it to the tables:

        refs n = number of slots of all tables that point to n        (refs_w: of those that may write)

    A close has three parts, the slot, the count and what follows from a count of zero, and only between
    the second and the third may an anonymous node be there that nobody has open (`BalancedBut`). -/

namespace EwokOS.Vfs

open Schemes Vfsd

def holds (n : ℕ) (f : Option File) : Bool := f.any fun f => f.node = n

def holdsW (n : ℕ) (f : Option File) : Bool := f.any fun f => f.node = n && f.write

/-- The number of descriptors that point to a node, and of those that may write. -/
def held (s : Vfsd) (n : ℕ) : ℤ := tally₂ s.max fdMax (holds n) s.fd

def heldW (s : Vfsd) (n : ℕ) : ℤ := tally₂ s.max fdMax (holdsW n) s.fd

/-- The counts are right, and the anonymous nodes other than those in `c` are open. -/
structure BalancedBut (c : ℕ → Prop) (s : Vfsd) : Prop where
  tidy : Tidy s
  range : ∀ p k f, s.fd p k = some f → p < s.max ∧ k < fdMax
  live : ∀ p k f, s.fd p k = some f → ∃ x, s.node f.node = some x
  refs : ∀ n x, s.node n = some x → (x.refs : ℤ) = held s n
  refsW : ∀ n x, s.node n = some x → (x.refsW : ℤ) = heldW s n
  copy : ∀ n x, s.node n = some x → x.copy = true → x.info.type.anon = true ∧ (c n ∨ 0 < x.refs)

def Balanced : Vfsd → Prop := BalancedBut fun _ => False

namespace BalancedBut
variable {c : ℕ → Prop} {s t : Vfsd}

theorem mono {c' : ℕ → Prop} (h : BalancedBut c s) (hc : ∀ n, c n → c' n) : BalancedBut c' s :=
  { h with copy := fun n x hx hy => (h.copy n x hx hy).imp id fun h => h.imp (hc n) id }

/-- Only the nodes and the descriptors matter. -/
theorem congr (h : BalancedBut c s) (hn : t.node = s.node) (hf : t.fd = s.fd) (hm : t.max = s.max) :
    BalancedBut c t := by
  have hh : ∀ n, held t n = held s n := fun n => by simp only [held, hf, hm]
  have hw : ∀ n, heldW t n = heldW s n := fun n => by simp only [heldW, hf, hm]
  refine ⟨⟨hn ▸ h.tidy.null, hn ▸ h.tidy.first, hn ▸ h.tidy.father⟩, ?_, ?_, ?_, ?_, hn ▸ h.copy⟩
  · intro p k f hpk
    rw [hf] at hpk
    rw [hm]
    exact h.range p k f hpk
  · intro p k f hpk
    rw [hf] at hpk
    rw [hn]
    exact h.live p k f hpk
  · intro n x hx
    rw [hn] at hx
    rw [hh]
    exact h.refs n x hx
  · intro n x hx
    rw [hn] at hx
    rw [hw]
    exact h.refsW n x hx

theorem held_pos (h : BalancedBut c s) {p k : ℕ} {f : File} (hf : s.fd p k = some f) : 0 < held s f.node := by
  obtain ⟨hp, hk⟩ := h.range p k f hf
  exact tally₂_pos hp hk (by simp [holds, hf])

theorem moves (h : BalancedBut c s) (hm : Moves s t) : BalancedBut c t := by
  have hh : ∀ n, held t n = held s n := fun n => by simp only [held, hm.fd, hm.max]
  have hw : ∀ n, heldW t n = heldW s n := fun n => by simp only [heldW, hm.fd, hm.max]
  refine ⟨hm.tidy, ?_, ?_, ?_, ?_, ?_⟩
  · intro p k f hf
    rw [hm.fd] at hf
    rw [hm.max]
    exact h.range p k f hf
  · intro p k f hf
    rw [hm.fd] at hf
    obtain ⟨x, hx⟩ := h.live p k f hf
    have hpos := h.held_pos hf
    rw [← h.refs _ x hx] at hpos
    -- a node that is open is not among those that went
    rcases hm.keep _ x hx with ⟨h0, -⟩ | ⟨y, hy, -⟩
    · omega
    · exact ⟨y, hy⟩
  · intro n y hy
    obtain ⟨x, hx, ha⟩ := hm.back hy
    rw [ha.refs, hh]
    exact h.refs n x hx
  · intro n y hy
    obtain ⟨x, hx, ha⟩ := hm.back hy
    rw [ha.refsW, hw]
    exact h.refsW n x hx
  · intro n y hy hc
    obtain ⟨x, hx, ha⟩ := hm.back hy
    rw [ha.type, ha.refs]
    exact h.copy n x hx (ha.copy ▸ hc)

end BalancedBut

/-! ### One slot -/

section
variable {s : Vfsd} {p k : ℕ}

theorem setFd_self (f : Option File) : (s.setFd p k f).fd p k = f := by
  simp [setFd]

theorem setFd_ne {q j : ℕ} (f : Option File) (h : ¬(q = p ∧ j = k)) : (s.setFd p k f).fd q j = s.fd q j := by
  rcases eq_or_ne q p with rfl | hq
  · have hj : j ≠ k := fun he => h ⟨rfl, he⟩
    simp [setFd, hj]
  · simp [setFd, hq]

theorem setFd_cases {q j : ℕ} {f : Option File} {g : File} (h : (s.setFd p k f).fd q j = some g) :
    (q = p ∧ j = k ∧ f = some g) ∨ s.fd q j = some g := by
  by_cases he : q = p ∧ j = k
  · obtain ⟨rfl, rfl⟩ := he
    exact .inl ⟨rfl, rfl, (setFd_self f).symm.trans h⟩
  · exact .inr ((setFd_ne f he).symm.trans h)

variable (hp : p < s.max) (hk : k < fdMax) (f : Option File) (n : ℕ)
include hp hk

theorem held_setFd : held (s.setFd p k f) n = held s n - mark (holds n) (s.fd p k) + mark (holds n) f :=
  tally₂_update hp hk f

theorem heldW_setFd : heldW (s.setFd p k f) n = heldW s n - mark (holdsW n) (s.fd p k) + mark (holdsW n) f :=
  tally₂_update hp hk f

end

/-- A slot and the counts of one node change together. -/
theorem BalancedBut.adjust {c c' : ℕ → Prop} {s : Vfsd} {p k n : ℕ} {f : Option File} {g : Node → Node}
    (h : BalancedBut c s) (hp : p < s.max) (hk : k < fdMax)
    (hlive : ∀ f', f = some f' → ∃ x, s.node f'.node = some x)
    (hg : ∀ x, (g x).copy = x.copy ∧ (g x).info.type = x.info.type ∧ (g x).first = x.first ∧
      (g x).father = x.father)
    (hrefs : ∀ x, s.node n = some x → ((g x).refs : ℤ) = x.refs - mark (holds n) (s.fd p k) + mark (holds n) f)
    (hrefsW : ∀ x, s.node n = some x →
      ((g x).refsW : ℤ) = x.refsW - mark (holdsW n) (s.fd p k) + mark (holdsW n) f)
    (hother : ∀ m, m ≠ n → holds m (s.fd p k) = false ∧ holds m f = false)
    (hcopy : ∀ m x, s.node m = some x → x.copy = true → c' m ∨ (m ≠ n ∧ 0 < x.refs) ∨ (m = n ∧ 0 < (g x).refs)) :
    BalancedBut c' ((s.setFd p k f).modify n g) := by
  have hpw : ∀ m (e : Option File), holds m e = false → holdsW m e = false := by
    intro m e he
    cases e with
    | none => rfl
    | some e =>
      have hne : e.node ≠ m := by simpa [holds] using he
      simp [holdsW, hne]
  have hmark : ∀ m, m ≠ n → held (s.setFd p k f) m = held s m ∧ heldW (s.setFd p k f) m = heldW s m := by
    intro m hm
    obtain ⟨h₁, h₂⟩ := hother m hm
    rw [held_setFd hp hk, heldW_setFd hp hk, mark_false h₁, mark_false h₂, mark_false (hpw m _ h₁),
      mark_false (hpw m _ h₂)]
    omega
  have ht : Tidy ((s.setFd p k f).modify n g) := by
    have ht : Tidy (s.setFd p k f) := ⟨h.tidy.null, h.tidy.first, h.tidy.father⟩
    refine ⟨(modify_none _ n g).mpr ht.null, ?_, ?_⟩
    · intro m y hy hc
      rcases modify_cases _ n g hy with ⟨-, hx⟩ | ⟨rfl, x, hx, rfl⟩
      · exact ht.first m y hx hc
      · rw [(hg x).2.2.1]
        exact ht.first m x hx ((hg x).1 ▸ hc)
    · intro m y z hy hz
      have hz' : ∃ z', s.node y.father = some z' ∧ z.copy = z'.copy := by
        rcases modify_cases _ n g hz with ⟨-, hx⟩ | ⟨he, x, hx, rfl⟩
        · exact ⟨z, hx, rfl⟩
        · exact ⟨x, he ▸ hx, (hg x).1⟩
      obtain ⟨z', hz', hc⟩ := hz'
      rw [hc]
      rcases modify_cases _ n g hy with ⟨-, hx⟩ | ⟨rfl, x, hx, rfl⟩
      · exact ht.father m y z' hx hz'
      · rw [(hg x).2.2.2] at hz'
        exact ht.father m x z' hx hz'
  refine ⟨ht, ?_, ?_, ?_, ?_, ?_⟩
  · intro q j e he
    rcases setFd_cases he with ⟨rfl, rfl, -⟩ | he
    · exact ⟨hp, hk⟩
    · exact h.range q j e he
  · intro q j e he
    have hex : ∃ x, s.node e.node = some x := by
      rcases setFd_cases he with ⟨-, -, he⟩ | he
      · exact hlive e he
      · exact h.live q j e he
    obtain ⟨x, hx⟩ := hex
    cases hy : ((s.setFd p k f).modify n g).node e.node with
    | none =>
      rw [show s.node e.node = none from (modify_none (s.setFd p k f) n g).mp hy] at hx
      cases hx
    | some y => exact ⟨y, rfl⟩
  · intro m y hy
    show (y.refs : ℤ) = held (s.setFd p k f) m
    rcases modify_cases _ n g hy with ⟨hm, hx⟩ | ⟨rfl, x, hx, rfl⟩
    · rw [(hmark m hm).1]
      exact h.refs m y hx
    · rw [hrefs x hx, held_setFd hp hk, h.refs m x hx]
  · intro m y hy
    show (y.refsW : ℤ) = heldW (s.setFd p k f) m
    rcases modify_cases _ n g hy with ⟨hm, hx⟩ | ⟨rfl, x, hx, rfl⟩
    · rw [(hmark m hm).2]
      exact h.refsW m y hx
    · rw [hrefsW x hx, heldW_setFd hp hk, h.refsW m x hx]
  · intro m y hy hc
    rcases modify_cases _ n g hy with ⟨hm, hx⟩ | ⟨rfl, x, hx, rfl⟩
    · refine ⟨(h.copy m y hx hc).1, ?_⟩
      rcases hcopy m y hx hc with h | ⟨-, h⟩ | ⟨he, -⟩
      · exact .inl h
      · exact .inr h
      · exact absurd he hm
    · have hxc : x.copy = true := (hg x).1 ▸ hc
      refine ⟨(hg x).2.1 ▸ (h.copy m x hx hxc).1, ?_⟩
      rcases hcopy m x hx hxc with h | ⟨hne, -⟩ | ⟨-, h⟩
      · exact .inl h
      · exact absurd rfl hne
      · exact .inr h

/-- A free slot is filled. -/
theorem BalancedBut.hold {s : Vfsd} {p k : ℕ} {f : File} (h : BalancedBut (· = f.node) s) (hp : p < s.max)
    (hk : k < fdMax) (hfree : s.fd p k = none) (hx : ∃ x, s.node f.node = some x) :
    Balanced ((s.setFd p k (some f)).hold f.node f.write) := by
  have hnone : holds f.node none = false := rfl
  have hself : holds f.node (some f) = true := by simp [holds]
  refine h.adjust hp hk ?_ ?_ ?_ ?_ ?_ ?_
  · rintro _ ⟨⟩
    exact hx
  · exact fun _ => ⟨rfl, rfl, rfl, rfl⟩
  · intro x _
    rw [hfree, mark_false hnone, mark_true hself]
    push_cast
    omega
  · intro x _
    rw [hfree, mark_false (show holdsW f.node none = false from rfl)]
    cases hw : f.write with
    | true =>
      rw [mark_true (show holdsW f.node (some f) = true by simp [holdsW, hw]), if_pos rfl]
      push_cast
      omega
    | false =>
      rw [mark_false (show holdsW f.node (some f) = false by simp [holdsW, hw]), if_neg (by decide)]
      dsimp only
      omega
  · intro m hm
    rw [hfree]
    exact ⟨rfl, by simp [holds, hm.symm]⟩
  · intro m x hx hc
    right
    rcases eq_or_ne m f.node with rfl | hm
    · exact .inr ⟨rfl, Nat.succ_pos _⟩
    · exact .inl ⟨hm, ((h.copy m x hx hc).2).resolve_left hm⟩

/-- A slot is emptied, and its node may be left without a descriptor. -/
theorem BalancedBut.drop {s : Vfsd} {p k : ℕ} {f : File} (h : Balanced s) (hf : s.fd p k = some f) :
    BalancedBut (· = f.node) ((s.setFd p k none).drop f.node f.write) := by
  obtain ⟨hp, hk⟩ := h.range p k f hf
  have hnone : holds f.node none = false := rfl
  have hself : holds f.node (some f) = true := by simp [holds]
  refine BalancedBut.adjust h hp hk ?_ ?_ ?_ ?_ ?_ ?_
  · rintro _ ⟨⟩
  · exact fun _ => ⟨rfl, rfl, rfl, rfl⟩
  · intro x hx
    have hpos := h.held_pos hf
    rw [← h.refs _ x hx] at hpos
    rw [hf, mark_false hnone, mark_true hself]
    dsimp only
    omega
  · intro x hx
    rw [hf, mark_false (show holdsW f.node none = false from rfl)]
    cases hw : f.write with
    | true =>
      have hpos : 0 < heldW s f.node := tally₂_pos hp hk (by simp [holdsW, hf, hw])
      rw [← h.refsW _ x hx] at hpos
      rw [mark_true (show holdsW f.node (some f) = true by simp [holdsW, hw]), if_pos rfl]
      dsimp only
      omega
    | false =>
      rw [mark_false (show holdsW f.node (some f) = false by simp [holdsW, hw]), if_neg (by decide)]
      dsimp only
      omega
  · intro m hm
    rw [hf]
    exact ⟨by simp [holds, hm.symm], rfl⟩
  · intro m x hx hc
    rcases eq_or_ne m f.node with rfl | hm
    · exact .inl rfl
    · exact .inr (.inl ⟨hm, ((h.copy m x hx hc).2).resolve_left id⟩)

/-- What follows a close: an anonymous node that nobody has open goes. -/
theorem BalancedBut.settle {s : Vfsd} {n : ℕ} (h : BalancedBut (· = n) s) : Balanced (s.settle n) := by
  -- only the node itself can be an anonymous one that is not open
  have hdone : ∀ {t : Vfsd}, Moves s t → (∀ y, t.node n = some y → y.copy = true → 0 < y.refs) → Balanced t := by
    intro t hm hpos
    have hb := h.moves hm
    refine { hb with copy := fun m y hy hc => ⟨(hb.copy m y hy hc).1, .inr ?_⟩ }
    rcases (hb.copy m y hy hc).2 with rfl | h
    · exact hpos y hy hc
    · exact h
  unfold Vfsd.settle
  split
  · rename_i hn
    refine hdone (.refl h.tidy) fun y hy => ?_
    rw [hn] at hy
    cases hy
  · rename_i x hx
    split
    · rename_i hr
      have hm := moves_delNode h.tidy n
      refine hdone hm fun y hy hc => ?_
      obtain ⟨x', hx', ha⟩ := hm.back hy
      rw [hx] at hx'
      cases hx'
      rw [delNode_leaf h.tidy hx hr.2 (h.tidy.first n x hx (ha.copy ▸ hc))] at hy
      rw [show (s.free n).node n = none from Function.update_self ..] at hy
      cases hy
    · rename_i hr
      have hm := moves_tryFinishUmount h.tidy n
      refine hdone hm fun y hy hc => ?_
      obtain ⟨x', hx', ha⟩ := hm.back hy
      rw [hx] at hx'
      cases hx'
      have hxc : x.copy = true := ha.copy ▸ hc
      have hanon := (h.copy n x hx hxc).1
      rw [ha.refs]
      exact Nat.pos_of_ne_zero fun h0 => hr ⟨hanon, h0⟩

theorem Balanced.closeFd {s : Vfsd} (h : Balanced s) (p k : ℕ) : Balanced (closeFd p s k) := by
  unfold Vfsd.closeFd
  split
  · exact h
  · rename_i f hf
    exact (BalancedBut.drop h hf).settle

theorem Balanced.close {s : Vfsd} (h : Balanced s) (pid k : ℕ) : Balanced (s.close pid k) := by
  unfold Vfsd.close
  split
  · exact h
  · exact h.closeFd _ k

theorem Balanced.moves {s t : Vfsd} (h : Balanced s) (hm : Moves s t) : Balanced t := BalancedBut.moves h hm

/-! ### Closing whole tables -/

/-- What a close does besides: the slot is empty, and nothing else outside the tree has changed. -/
structure Closed (p k : ℕ) (s t : Vfsd) : Prop where
  fd : t.fd = (s.setFd p k none).fd
  slot : t.slot = s.slot
  task : t.task = s.task
  max : t.max = s.max
  reap : t.reap = s.reap

theorem Balanced.closed {s : Vfsd} (h : Balanced s) (p k : ℕ) : Closed p k s (Vfsd.closeFd p s k) := by
  unfold Vfsd.closeFd
  split
  · rename_i hf
    refine ⟨?_, rfl, rfl, rfl, rfl⟩
    funext q j
    by_cases he : q = p ∧ j = k
    · obtain ⟨rfl, rfl⟩ := he
      rw [setFd_self, hf]
    · rw [setFd_ne _ he]
  · rename_i f hf
    have hd := (BalancedBut.drop h hf).tidy
    have hm : Moves ((s.setFd p k none).drop f.node f.write) ((s.setFd p k none).fileClose f) := by
      unfold Vfsd.fileClose Vfsd.settle
      split
      · exact .refl hd
      · split
        · exact moves_delNode hd f.node
        · exact moves_tryFinishUmount hd f.node
    exact ⟨hm.fd, hm.slot, hm.task, hm.max, hm.reap⟩

/-- After the loop of `clear_zombie` the table of `c` is empty, and the others are as before. -/
structure Emptied (c : ℕ) (s t : Vfsd) : Prop where
  balanced : Balanced t
  empty : ∀ k, t.fd c k = none
  fd : ∀ p, p ≠ c → t.fd p = s.fd p
  task : t.task = s.task
  max : t.max = s.max
  reap : t.reap = s.reap

theorem Balanced.closeAll {s : Vfsd} (h : Balanced s) (c : ℕ) (l : List ℕ) :
    Balanced (l.foldl (Vfsd.closeFd c) s) ∧ (∀ k ∈ l, (l.foldl (Vfsd.closeFd c) s).fd c k = none) ∧
    (∀ k, s.fd c k = none → (l.foldl (Vfsd.closeFd c) s).fd c k = none) ∧
    (∀ p, p ≠ c → (l.foldl (Vfsd.closeFd c) s).fd p = s.fd p) ∧
    (l.foldl (Vfsd.closeFd c) s).task = s.task ∧ (l.foldl (Vfsd.closeFd c) s).max = s.max ∧
    (l.foldl (Vfsd.closeFd c) s).reap = s.reap := by
  induction l generalizing s with
  | nil => exact ⟨h, fun k hk => absurd hk List.not_mem_nil, fun _ hk => hk, fun _ _ => rfl, rfl, rfl, rfl⟩
  | cons j l ih =>
    have hc := h.closed c j
    obtain ⟨hb, hin, hkeep, hother, htask, hmax, hreap⟩ := ih (h.closeFd c j)
    have hstay : ∀ k, k = j ∨ s.fd c k = none → (Vfsd.closeFd c s j).fd c k = none := by
      intro k hk
      rw [hc.fd]
      rcases eq_or_ne k j with rfl | hkj
      · exact setFd_self none
      · rw [setFd_ne _ (fun he => hkj he.2)]
        exact hk.resolve_left hkj
    refine ⟨hb, ?_, fun k hk => hkeep k (hstay k (.inr hk)), ?_, htask.trans hc.task, hmax.trans hc.max,
      hreap.trans hc.reap⟩
    · intro k hk
      rcases List.mem_cons.mp hk with rfl | hk
      · exact hkeep k (hstay k (.inl rfl))
      · exact hin k hk
    · intro p hp
      refine (hother p hp).trans ?_
      rw [hc.fd]
      exact Function.update_of_ne hp _ _

theorem Balanced.clearZombie {s : Vfsd} (h : Balanced s) (c : ℕ) : Emptied c s (s.clearZombie c) := by
  have hu := moves_umountByPid h.tidy c
  have hub := h.moves hu
  unfold Vfsd.clearZombie
  dsimp only
  -- the wait entries do not matter
  have hw : ∀ w : ℕ → Bool → Wait, Balanced { s.umountByPid c with wait := w } :=
    fun w => hub.congr rfl rfl rfl
  have hwait : ∃ w, (s.umountByPid c).removeProcWaiters c ((s.umountByPid c).slot c).uuid
      = { s.umountByPid c with wait := w } := by
    unfold Vfsd.removeProcWaiters
    split
    · exact ⟨_, rfl⟩
    · exact ⟨_, rfl⟩
  obtain ⟨w, hweq⟩ := hwait
  rw [hweq]
  obtain ⟨hb, hin, -, hother, htask, hmax, hreap⟩ := (hw w).closeAll c (List.range fdMax)
  generalize (List.range fdMax).foldl (Vfsd.closeFd c) { s.umountByPid c with wait := w } = t at *
  refine ⟨BalancedBut.congr hb rfl rfl rfl, ?_, ?_, htask.trans hu.task, hmax.trans hu.max,
    hreap.trans hu.reap⟩
  · intro k
    by_cases hk : k < fdMax
    · exact hin k (List.mem_range.mpr hk)
    · cases hf : t.fd c k with
      | none => exact hf
      | some f => exact absurd (hb.range c k f hf).2 hk
  · intro p hp
    exact (hother p hp).trans (congrFun hu.fd p)

/-! ### Opening -/

section
variable {s : Vfsd}

theorem getpidFrom_end {k p q : ℕ} (h : s.getpidFrom k p = some q) :
    q < procMax ∧ (s.task q).uuid ≠ 0 ∧ (s.task q).thread = false := by
  induction k generalizing p with
  | zero => cases h
  | succ k ih =>
    rw [getpidFrom] at h
    split at h
    · cases h
    · rename_i hp
      split at h
      · exact ih h
      · rename_i ht
        cases h
        exact ⟨by omega, by omega, by simpa using ht⟩

/-- A process belongs to itself. -/
theorem ownerPid_idem (s : Vfsd) (pid : ℕ) : s.ownerPid (s.ownerPid pid) = s.ownerPid pid := by
  cases h : s.getpidFrom procMax pid with
  | none =>
    have hp : s.ownerPid pid = pid := by simp only [ownerPid, h, Option.getD_none]
    rw [hp, hp]
  | some q =>
    obtain ⟨hq, hu, ht⟩ := getpidFrom_end h
    have hp : s.ownerPid pid = q := by simp only [ownerPid, h, Option.getD_some]
    have hself : s.getpidFrom procMax q = some q := by
      show s.getpidFrom (511 + 1) q = some q
      rw [getpidFrom, if_neg (by omega), ht]
      rfl
    rw [hp]
    simp only [ownerPid, hself, Option.getD_some]

theorem getFreeFd_spec {pid k : ℕ} (h : s.getFreeFd pid = some k) :
    s.ownerPid pid < s.max ∧ k < fdMax ∧ s.fd (s.ownerPid pid) k = none := by
  simp only [getFreeFd] at h
  split at h
  · rename_i hp
    have hm := List.mem_of_find?_eq_some h
    have hn := List.find?_some h
    rw [List.mem_range'_1] at hm
    simp only [fdMax] at hm ⊢
    exact ⟨hp, by omega, by simpa using hn⟩
  · cases h

theorem getpidFrom_congr {t : Vfsd} (h : t.task = s.task) (k p : ℕ) : t.getpidFrom k p = s.getpidFrom k p := by
  induction k generalizing p with
  | zero => rfl
  | succ k ih => simp only [getpidFrom, h, ih]

theorem ownerPid_congr {t : Vfsd} (h : t.task = s.task) (pid : ℕ) : t.ownerPid pid = s.ownerPid pid := by
  simp only [ownerPid, getpidFrom_congr h]

theorem getFreeFd_congr {t : Vfsd} (ht : t.task = s.task) (hf : t.fd = s.fd) (hm : t.max = s.max) (pid : ℕ) :
    t.getFreeFd pid = s.getFreeFd pid := by
  simp only [getFreeFd, ownerPid_congr ht, hf, hm]

/-- An open fails for want of a descriptor only. -/
theorem vfsdOpen_some {pid n k : ℕ} {fl : Flags} {x : Node} (hx : s.node n = some x)
    (hk : s.getFreeFd pid = some k) : s.vfsdOpen pid n fl ≠ none := by
  have hp := (getFreeFd_spec hk).1
  have hown : s.getFreeFd (s.ownerPid pid) = some k := by
    rw [← hk]
    simp only [getFreeFd, ownerPid_idem]
  unfold Vfsd.vfsdOpen
  rw [hx]
  dsimp only
  rw [if_neg (by omega), hown]
  exact Option.some_ne_none _

theorem checkFd_spec {pid k : ℕ} {f : File} (h : s.checkFd pid k = some f) :
    s.ownerPid pid < s.max ∧ k < fdMax ∧ s.fd (s.ownerPid pid) k = some f := by
  unfold checkFd at h
  split at h
  · rename_i hp
    exact ⟨hp.1, hp.2, h⟩
  · cases h

/-- An open that succeeds. -/
theorem BalancedBut.vfsdOpen {pid n : ℕ} {fl : Flags} {u : Vfsd × ℕ} (h : BalancedBut (· = n) s)
    (hu : s.vfsdOpen pid n fl = some u) : Balanced u.1 := by
  unfold Vfsd.vfsdOpen at hu
  dsimp only at hu
  split at hu
  · cases hu
  · rename_i x hx
    split at hu
    · cases hu
    · split at hu
      · cases hu
      · rename_i k hk
        cases hu
        obtain ⟨hp, hkm, hfree⟩ := getFreeFd_spec hk
        rw [ownerPid_idem] at hp hfree
        dsimp only
        split
        · have hm : Moves s (s.modify n fun x => { x with info := { x.info with size := 0 } }) :=
            (Moves.refl h.tidy).edit (fun _ => ⟨rfl, rfl, rfl, rfl⟩) (fun _ => rfl) fun _ => rfl
          have hx' : ∃ y, (s.modify n fun x => { x with info := { x.info with size := 0 } }).node n = some y :=
            ⟨_, by rw [modify_self, hx]; rfl⟩
          exact (h.moves hm).hold (f := ⟨n, fl.write, x.info⟩) hp hkm hfree hx'
        · exact h.hold (f := ⟨n, fl.write, x.info⟩) hp hkm hfree ⟨x, hx⟩

end

/-! ### New nodes -/

section
variable {s : Vfsd}

theorem newNode_eq {x : Node} {u : Vfsd × ℕ} (h : s.newNode x = some u) :
    u.2 = s.allocId ∧ u.1.node = Function.update s.node s.allocId (some x) ∧ u.1.fd = s.fd ∧
    u.1.max = s.max ∧ u.1.task = s.task := by
  unfold newNode at h
  split at h
  · cases h
  · cases h
    exact ⟨rfl, rfl, rfl, rfl, rfl⟩

theorem newNode_lt {x : Node} {u : Vfsd × ℕ} (h : s.newNode x = some u) : s.count < nodeMax := by
  unfold newNode at h
  split at h
  · cases h
  · omega

theorem allocId_ne (s : Vfsd) : s.allocId ≠ 0 := by
  unfold allocId
  split
  · decide
  · assumption

/-- The father of every node is there, and the id of the next one is not in use. -/
structure Sane (s : Vfsd) : Prop where
  father : ∀ n x, s.node n = some x → x.father ≠ 0 → (s.node x.father).isSome = true
  id : s.node s.allocId = none

/-- A new node that nobody has open. -/
theorem Balanced.newNode {x : Node} {u : Vfsd × ℕ} (h : Balanced s) (hs : Sane s)
    (hx : x.refs = 0 ∧ x.refsW = 0 ∧ x.first = 0 ∧ x.father = 0)
    (hc : x.copy = true → x.info.type.anon = true) (hu : s.newNode x = some u) :
    BalancedBut (fun m => m = u.2 ∧ x.copy = true) u.1 := by
  obtain ⟨hn, hnode, hfd, hmax, -⟩ := newNode_eq hu
  obtain ⟨hr, hw, hf, hp⟩ := hx
  have hid := hs.id
  have hcases : ∀ m y, u.1.node m = some y → (m = s.allocId ∧ y = x) ∨ s.node m = some y := by
    intro m y hy
    rw [hnode] at hy
    rcases eq_or_ne m s.allocId with rfl | hm
    · rw [Function.update_self] at hy
      exact .inl ⟨rfl, (Option.some.inj hy).symm⟩
    · rw [Function.update_of_ne hm] at hy
      exact .inr hy
  -- no descriptor points to an id that is not in use
  have hnobody : ∀ q j f, s.fd q j = some f → f.node ≠ s.allocId := by
    intro q j f hqj he
    obtain ⟨y, hy⟩ := h.live q j f hqj
    rw [he, hid] at hy
    cases hy
  have hzero : held s s.allocId = 0 ∧ heldW s s.allocId = 0 := by
    have hno : ∀ q < s.max, ∀ k < fdMax,
        holds s.allocId (s.fd q k) = false ∧ holdsW s.allocId (s.fd q k) = false := by
      intro q _ k _
      cases hqk : s.fd q k with
      | none => exact ⟨rfl, rfl⟩
      | some f =>
        have hne := hnobody q k f hqk
        exact ⟨by simp [holds, hne], by simp [holdsW, hne]⟩
    exact ⟨tally₂_eq_zero fun q hq k hk => (hno q hq k hk).1, tally₂_eq_zero fun q hq k hk => (hno q hq k hk).2⟩
  have hh : ∀ n, held u.1 n = held s n := fun n => by simp only [held, hfd, hmax]
  have hhw : ∀ n, heldW u.1 n = heldW s n := fun n => by simp only [heldW, hfd, hmax]
  refine ⟨⟨?_, ?_, ?_⟩, ?_, ?_, ?_, ?_, ?_⟩
  · rw [hnode, Function.update_of_ne (allocId_ne s).symm]
    exact h.tidy.null
  · intro m y hy hyc
    rcases hcases m y hy with ⟨-, rfl⟩ | hy
    · exact hf
    · exact h.tidy.first m y hy hyc
  · intro m y z hy hz
    have hz0 : s.node 0 = none := h.tidy.null
    rcases hcases m y hy with ⟨-, rfl⟩ | hy
    · rw [hp, hnode, Function.update_of_ne (allocId_ne s).symm, hz0] at hz
      cases hz
    · rcases hcases _ z hz with ⟨he, rfl⟩ | hz
      · have hlive := hs.father m y hy (he ▸ allocId_ne s)
        rw [he, hid] at hlive
        cases hlive
      · exact h.tidy.father m y z hy hz
  · intro q j f hqj
    rw [hfd] at hqj
    rw [hmax]
    exact h.range q j f hqj
  · intro q j f hqj
    rw [hfd] at hqj
    obtain ⟨y, hy⟩ := h.live q j f hqj
    exact ⟨y, by rw [hnode, Function.update_of_ne (hnobody q j f hqj), hy]⟩
  · intro m y hy
    rw [hh]
    rcases hcases m y hy with ⟨rfl, rfl⟩ | hy
    · rw [hr, hzero.1]
      rfl
    · exact h.refs m y hy
  · intro m y hy
    rw [hhw]
    rcases hcases m y hy with ⟨rfl, rfl⟩ | hy
    · rw [hw, hzero.2]
      rfl
    · exact h.refsW m y hy
  · intro m y hy hyc
    rcases hcases m y hy with ⟨rfl, rfl⟩ | hy
    · exact ⟨hc hyc, .inl ⟨hn.symm, hyc⟩⟩
    · exact ⟨(h.copy m y hy hyc).1, .inr (((h.copy m y hy hyc).2).resolve_left id)⟩

theorem Balanced.create {dir : ℕ} {x : Node} (h : Balanced s) (hs : Sane s)
    (hx : x.refs = 0 ∧ x.refsW = 0 ∧ x.first = 0 ∧ x.father = 0) (hc : x.copy = false)
    (hdir : ∀ f, s.node dir = some f → f.copy = false) : Balanced (s.create dir x) := by
  unfold Vfsd.create
  split
  · exact h
  · rename_i t n hn
    have hb : Balanced t := by
      refine BalancedBut.mono (h.newNode hs hx (fun h => ?_) hn) fun m hm => ?_
      · rw [hc] at h
        cases h
      · rw [hc] at hm
        cases hm.2
    split
    · exact hb
    · refine hb.moves (moves_addNode hb.tidy fun y hy => ?_)
      obtain ⟨-, hnode, -⟩ := newNode_eq hn
      rw [hnode] at hy
      rcases eq_or_ne dir s.allocId with rfl | hd
      · rw [Function.update_self] at hy
        cases hy
        exact hc
      · rw [Function.update_of_ne hd] at hy
        exact hdir y hy

end

/-! ### Loops and edits -/

section
variable {s : Vfsd}

/-- A node that is no copy stays none. -/
theorem create_plain {dir m : ℕ} {x : Node} (hdir : ∀ f, s.node dir = some f → f.copy = false)
    (hc : x.copy = false) (hb : ∀ t n, s.newNode x = some (t, n) → Tidy t)
    (hm : ∀ f, s.node m = some f → f.copy = false) : ∀ f, (s.create dir x).node m = some f → f.copy = false := by
  unfold Vfsd.create
  split
  · exact hm
  · rename_i t n hn
    obtain ⟨-, hnode, -⟩ := newNode_eq hn
    have ht : ∀ m, (∀ f, s.node m = some f → f.copy = false) → ∀ f, t.node m = some f → f.copy = false := by
      intro m hm f hf
      rw [hnode] at hf
      rcases eq_or_ne m s.allocId with rfl | hd
      · rw [Function.update_self] at hf
        cases hf
        exact hc
      · rw [Function.update_of_ne hd] at hf
        exact hm f hf
    split
    · exact ht m hm
    · intro f hf
      obtain ⟨g, hg, ha⟩ := (moves_addNode (hb t n hn) (ht dir hdir)).back hf
      rw [ha.copy]
      exact ht m hm g hg

/-- The loops that make kids of a node. -/
theorem Balanced.makeKids {dir : ℕ} {g : Vfsd → Info → Vfsd}
    (hg : ∀ s i, g s i = s ∨ g s i = s.create dir (.fresh i.terminate)) (l : List Info) (h : Balanced s)
    (hdir : ∀ f, s.node dir = some f → f.copy = false) (hok : AllMeet g (fun s _ => Sane s) s l) :
    Balanced (l.foldl g s) := by
  induction l generalizing s with
  | nil => exact h
  | cons i l ih =>
    obtain ⟨hs, hok⟩ := hok
    have hb : Balanced (s.create dir (.fresh i.terminate)) := h.create hs ⟨rfl, rfl, rfl, rfl⟩ rfl hdir
    rw [List.foldl_cons]
    rcases hg s i with he | he
    · rw [he] at hok ⊢
      exact ih h hdir hok
    · rw [he] at hok ⊢
      refine ih hb ?_ hok
      refine create_plain hdir rfl (fun t n hn => ?_) hdir
      exact (h.newNode hs ⟨rfl, rfl, rfl, rfl⟩ (fun h => by cases h) hn).tidy

/-- A write that keeps everything but the `fsinfo`. -/
theorem Balanced.modify {n : ℕ} {g : Node → Node} (h : Balanced s)
    (hg : ∀ x, (g x).refs = x.refs ∧ (g x).refsW = x.refsW ∧ (g x).copy = x.copy ∧
      (g x).first = x.first ∧ (g x).father = x.father)
    (hc : ∀ x, s.node n = some x → x.copy = true → (g x).info.type.anon = true) :
    Balanced (s.modify n g) := by
  have hback : ∀ m y, (s.modify n g).node m = some y → ∃ x, s.node m = some x ∧ y.refs = x.refs ∧
      y.refsW = x.refsW ∧ y.copy = x.copy ∧ y.first = x.first ∧ y.father = x.father := by
    intro m y hy
    rcases modify_cases s n g hy with ⟨-, hx⟩ | ⟨rfl, x, hx, rfl⟩
    · exact ⟨y, hx, rfl, rfl, rfl, rfl, rfl⟩
    · exact ⟨x, hx, hg x⟩
  refine ⟨⟨(modify_none s n g).mpr h.tidy.null, ?_, ?_⟩, h.range, ?_, ?_, ?_, ?_⟩
  · intro m y hy hyc
    obtain ⟨x, hx, -, -, hxc, hf, -⟩ := hback m y hy
    rw [hf]
    exact h.tidy.first m x hx (hxc ▸ hyc)
  · intro m y z hy hz
    obtain ⟨x, hx, -, -, -, -, hp⟩ := hback m y hy
    obtain ⟨z', hz', -, -, hzc, -⟩ := hback _ z hz
    rw [hzc]
    exact h.tidy.father m x z' hx (hp ▸ hz')
  · intro p k f hf
    obtain ⟨x, hx⟩ := h.live p k f hf
    cases hy : (s.modify n g).node f.node with
    | none =>
      rw [(modify_none s n g).mp hy] at hx
      cases hx
    | some y => exact ⟨y, rfl⟩
  · intro m y hy
    obtain ⟨x, hx, hr, -⟩ := hback m y hy
    rw [hr]
    exact h.refs m x hx
  · intro m y hy
    obtain ⟨x, hx, -, hw, -⟩ := hback m y hy
    rw [hw]
    exact h.refsW m x hx
  · intro m y hy hyc
    rcases modify_cases s n g hy with ⟨-, hx⟩ | ⟨rfl, x, hx, rfl⟩
    · exact h.copy m y hx hyc
    · have hxc : x.copy = true := (hg x).2.2.1 ▸ hyc
      refine ⟨hc x hx hxc, ?_⟩
      rw [(hg x).1]
      exact (h.copy m x hx hxc).2

/-- The `fsinfo` of a descriptor is not counted. -/
theorem Balanced.relabel {p k : ℕ} {f f' : File} (h : Balanced s) (hf : s.fd p k = some f)
    (hn : f'.node = f.node) (hw : f'.write = f.write) : Balanced (s.setFd p k (some f')) := by
  obtain ⟨hp, hk⟩ := h.range p k f hf
  have hh : ∀ n, held (s.setFd p k (some f')) n = held s n := by
    intro n
    rw [held_setFd hp hk, hf]
    have he : mark (holds n) (some f') = mark (holds n) (some f) := by simp [mark, holds, hn]
    omega
  have hhw : ∀ n, heldW (s.setFd p k (some f')) n = heldW s n := by
    intro n
    rw [heldW_setFd hp hk, hf]
    have he : mark (holdsW n) (some f') = mark (holdsW n) (some f) := by simp [mark, holdsW, hn, hw]
    omega
  refine ⟨⟨h.tidy.null, h.tidy.first, h.tidy.father⟩, ?_, ?_, ?_, ?_, h.copy⟩
  · intro q j e he
    rcases setFd_cases he with ⟨rfl, rfl, -⟩ | he
    · exact ⟨hp, hk⟩
    · exact h.range q j e he
  · intro q j e he
    rcases setFd_cases he with ⟨-, -, he⟩ | he
    · cases he
      rw [hn]
      exact h.live p k f hf
    · exact h.live q j e he
  · intro n x hx
    rw [hh]
    exact h.refs n x hx
  · intro n x hx
    rw [hhw]
    exact h.refsW n x hx

/-- A descriptor is copied into a free slot. -/
theorem Balanced.copyFd {p k q j : ℕ} {f : File} (h : Balanced s) (hf : s.fd q j = some f) (hp : p < s.max)
    (hk : k < fdMax) (hfree : s.fd p k = none) :
    Balanced ((s.setFd p k (some f)).hold f.node f.write) :=
  BalancedBut.hold (BalancedBut.mono h fun _ h => h.elim) hp hk hfree (h.live q j f hf)

/-- The loop of `do_vfs_proc_clone`. -/
theorem Balanced.cloneAll {fpid cpid : ℕ} (l : List ℕ) (h : Balanced s) (hc : cpid < s.max)
    (hl : ∀ k ∈ l, k < fdMax) (hnd : l.Nodup) (hfree : ∀ k ∈ l, s.fd cpid k = none) :
    Balanced (l.foldl (cloneFd fpid cpid) s) := by
  induction l generalizing s with
  | nil => exact h
  | cons k l ih =>
    obtain ⟨hk, hnd⟩ := List.nodup_cons.mp hnd
    rw [List.foldl_cons]
    have hrest : ∀ j ∈ l, s.fd cpid j = none := fun j hj => hfree j (List.mem_cons_of_mem k hj)
    have hlr : ∀ j ∈ l, j < fdMax := fun j hj => hl j (List.mem_cons_of_mem k hj)
    have hself : s.fd cpid k = none := hfree k List.mem_cons_self
    cases hf : s.fd fpid k with
    | none =>
      have he : cloneFd fpid cpid s k = s := by simp only [cloneFd, hf]
      rw [he]
      exact ih h hc hlr hnd hrest
    | some f =>
      have he : cloneFd fpid cpid s k = (s.setFd cpid k (some f)).hold f.node f.write := by
        simp only [cloneFd, hf]
      rw [he]
      refine ih (h.copyFd hf hc (hl k List.mem_cons_self) hself) hc hlr hnd fun j hj => ?_
      have hne : ¬(cpid = cpid ∧ j = k) := fun h => hk (h.2 ▸ hj)
      exact (setFd_ne (some f) hne).trans (hrest j hj)

end

/-! ### Requests -/

/-- The step does not run into one of these: the last descriptor of an anonymous node cannot be given
    out, or the node is given another type or a kid; a process is cloned onto one that is not known and
    has descriptors; a father that is gone; the id of the next node is in use. -/
def Careful (s : Vfsd) : Op → Prop
  | .openNode pid n fl => Sane s ∧ ∀ x, s.node n = some x → x.info.type.anon = true →
    s.granted pid x fl = true → s.count < nodeMax → (s.getFreeFd pid).isSome = true
  | .setFsinfo _ n i _ => ∀ x, s.node n = some x → x.copy = true → i.type.anon = true
  | .newNode _ i dir _ _ _ => Sane s ∧ (∀ f, s.node dir = some f → f.copy = false) ∧
    ∀ m y, s.findKidRaw dir i.terminate.name = some m → s.node m = some y → y.copy = true → i.type.anon = true
  | .newNodes _ dir infos => (∀ f, s.node dir = some f → f.copy = false) ∧
    AllMeet (addKid dir) (fun s _ => Sane s) s infos
  | .applyKids dir _ infos => (∀ f, s.node dir = some f → f.copy = false) ∧
    AllMeet (commitKid dir) (fun s _ => Sane s) s infos
  | .procClone _ _ cpid => (s.slot cpid).state = .unused → ∀ k, s.fd cpid k = none
  | _ => True

namespace Balanced
variable {s : Vfsd}

theorem doNewNode {pid dir : ℕ} {i : Info} {nodeOnly writeOver createOpen : Bool} (h : Balanced s)
    (hok : Careful s (.newNode pid i dir nodeOnly writeOver createOpen)) :
    Balanced (s.doNewNode pid i dir nodeOnly writeOver createOpen) := by
  obtain ⟨hs, hdir, hkid⟩ := hok
  unfold Vfsd.doNewNode
  dsimp only
  split
  · exact h
  · split
    · refine h.create hs ⟨rfl, rfl, rfl, rfl⟩ rfl fun f hf => ?_
      rw [h.tidy.null] at hf
      cases hf
    · split
      · exact h
      · split
        · exact h
        · split
          · exact h.create hs ⟨rfl, rfl, rfl, rfl⟩ rfl hdir
          · rename_i m hm
            split
            · exact h
            · rename_i y hy
              split
              · exact h.modify (fun _ => ⟨rfl, rfl, rfl, rfl, rfl⟩) fun x hx hc => hkid m x hm hx hc
              · exact h

theorem setKidsLoaded (h : Balanced s) (n : ℕ) : Balanced (s.setKidsLoaded n) := by
  refine h.modify (fun x => ?_) fun x hx hc => ?_
  · split <;> exact ⟨rfl, rfl, rfl, rfl, rfl⟩
  · have ha := (h.copy n x hx hc).1
    split <;> exact ha

/-- An open that has been granted. An anonymous node is copied first, and the copy opened. -/
theorem grant {pid n : ℕ} {anon : Bool} {fl : Flags} (h : Balanced s) (hs : Sane s)
    (hanon : ∀ x, s.node n = some x → anon = x.info.type.anon)
    (hfd : anon = true → s.count < nodeMax → (s.getFreeFd pid).isSome = true) :
    Balanced (s.grant pid n anon fl) := by
  unfold Vfsd.grant
  split
  · rename_i ha
    split
    · exact h
    · rename_i t m ho
      unfold Vfsd.openAnonymous at ho
      split at ho
      · rename_i x c hx hcred
        have hb := h.newNode hs (x := copyOf x c) ⟨rfl, rfl, rfl, rfl⟩ (fun _ => (hanon x hx).symm.trans ha) ho
        obtain ⟨hm, hnode, htfd, htmax, httask⟩ := newNode_eq ho
        split
        · rename_i hopen
          -- the copy is there and a descriptor is free, so that the open succeeds
          exfalso
          obtain ⟨k, hk⟩ := Option.isSome_iff_exists.mp (hfd ha (newNode_lt ho))
          have hk' : t.getFreeFd pid = some k := (getFreeFd_congr httask htfd htmax pid).trans hk
          have hcopy : t.node m = some (copyOf x c) := by
            rw [show m = s.allocId from hm, show t.node = _ from hnode, Function.update_self]
          exact vfsdOpen_some hcopy hk' hopen
        · rename_i u j hopen
          exact BalancedBut.vfsdOpen (u := (u, j)) (hb.mono fun m' hm' => hm'.1) hopen
      · cases ho
  · split
    · exact h
    · rename_i u j hopen
      exact BalancedBut.vfsdOpen (u := (u, j)) (BalancedBut.mono h fun _ h => h.elim) hopen

theorem doOpen {pid n : ℕ} {fl : Flags} (h : Balanced s) (hok : Careful s (.openNode pid n fl)) :
    Balanced (s.doOpen pid n fl) := by
  obtain ⟨hs, hfd⟩ := hok
  unfold Vfsd.doOpen
  split
  · exact h
  · rename_i x hx
    have ht : ∃ t, (if s.createPending pid x then s.modify n fun x => { x with create := none } else s) = t ∧
        Moves s t ∧ Sane t ∧ t.count = s.count ∧ ∀ y, t.node n = some y → x.info.type.anon = y.info.type.anon := by
      split
      · have hm : Moves s (s.modify n fun x => { x with create := none }) :=
          (Moves.refl h.tidy).edit (fun _ => ⟨rfl, rfl, rfl, rfl⟩) (fun _ => rfl) fun _ => rfl
        refine ⟨_, rfl, hm, ⟨?_, (modify_none s n _).mpr hs.id⟩, rfl, fun y hy => ?_⟩
        · intro m y hy hf
          have hlive : (s.node y.father).isSome = true := by
            rcases modify_cases s n _ hy with ⟨-, hx⟩ | ⟨rfl, x, hx, rfl⟩
            · exact hs.father m y hx hf
            · exact hs.father m x hx hf
          cases hz : (s.modify n fun x => { x with create := none }).node y.father with
          | none =>
            rw [(modify_none s n _).mp hz] at hlive
            cases hlive
          | some z => rfl
        · obtain ⟨x', hx', ha⟩ := hm.back hy
          rw [hx] at hx'
          cases hx'
          rw [ha.type]
      · refine ⟨s, rfl, .refl h.tidy, hs, rfl, fun y hy => ?_⟩
        rw [hx] at hy
        cases hy
        rfl
    obtain ⟨t, he, hm, hst, hcount, hanon⟩ := ht
    dsimp only
    rw [he]
    have hb := h.moves hm
    split
    · rename_i hg
      refine hb.grant hst hanon fun ha hlt => ?_
      rw [getFreeFd_congr hm.task hm.fd hm.max]
      exact hfd x hx ha hg (hcount ▸ hlt)
    · exact hb

theorem doSetFsinfo {pid n : ℕ} {i : Info} {kind : Update} (h : Balanced s)
    (hok : Careful s (.setFsinfo pid n i kind)) : Balanced (s.doSetFsinfo pid n i kind) := by
  unfold Vfsd.doSetFsinfo
  split
  · exact h
  · rename_i x hx
    cases kind with
    | other => exact h
    | data =>
      dsimp only
      split
      · exact h.modify (fun _ => ⟨rfl, rfl, rfl, rfl, rfl⟩) hok
      · exact h
    | metadata =>
      dsimp only
      split
      · have hm : Moves s (s.modify n fun x => { x with create := none }) :=
          (Moves.refl h.tidy).edit (fun _ => ⟨rfl, rfl, rfl, rfl⟩) (fun _ => rfl) fun _ => rfl
        refine (h.moves hm).modify (fun _ => ⟨rfl, rfl, rfl, rfl, rfl⟩) fun y hy hc => ?_
        obtain ⟨x', hx', ha⟩ := hm.back hy
        exact hok x' hx' (ha.copy ▸ hc)
      · exact h

theorem doSetByFd (h : Balanced s) (pid k : ℕ) (i : Info) : Balanced (s.doSetByFd pid k i) := by
  unfold Vfsd.doSetByFd
  split
  · exact h
  · rename_i f hf
    exact h.relabel (checkFd_spec hf).2.2 rfl rfl

theorem doDelNode (h : Balanced s) (pid n : ℕ) : Balanced (s.doDelNode pid n) := by
  unfold Vfsd.doDelNode
  split
  · exact h
  · split
    · exact h.moves (moves_delNode h.tidy n)
    · exact h

theorem doMount (h : Balanced s) (pid org n : ℕ) : Balanced (s.doMount pid org n) := by
  unfold Vfsd.doMount
  split
  · exact h
  · split
    · cases hm : s.mount pid org n with
      | none => exact h
      | some t => exact h.moves (moves_mount h.tidy pid org n hm)
    · exact h

theorem dup (h : Balanced s) (pid k : ℕ) : Balanced ((s.dup pid k).elim s Prod.fst) := by
  unfold Vfsd.dup
  dsimp only
  split
  · exact h
  · split
    · rename_i j f hj hf
      obtain ⟨hp, hjm, hfree⟩ := getFreeFd_spec hj
      rw [ownerPid_idem] at hp hfree
      exact h.copyFd (checkFd_spec hf).2.2 hp hjm hfree
    · exact h

theorem dup2 (h : Balanced s) (pid k j : ℕ) : Balanced ((s.dup2 pid k j).getD s) := by
  unfold Vfsd.dup2
  dsimp only
  split
  · exact h
  · rename_i f hf
    obtain ⟨hp, hk, hfd⟩ := checkFd_spec hf
    rw [ownerPid_idem] at hp hfd
    split
    · exact h
    · rename_i hkj
      split
      · rename_i hj
        have hclose : s.close (s.ownerPid pid) j = Vfsd.closeFd (s.ownerPid pid) s j := by
          unfold Vfsd.close
          rw [ownerPid_idem, if_neg (by omega)]
        have hc := h.closed (s.ownerPid pid) j
        rw [hclose]
        refine (h.closeFd _ j).copyFd (q := s.ownerPid pid) (j := k) ?_ (by rw [hc.max]; exact hp) hj ?_
        · rw [hc.fd, setFd_ne _ fun he => hkj he.2]
          exact hfd
        · rw [hc.fd]
          exact setFd_self none
      · exact h

theorem procExit (h : Balanced s) (cpid : ℕ) : Balanced (s.procExit cpid) := by
  unfold Vfsd.procExit
  split
  · exact h
  · split
    · have hw : Balanced (s.resetTaskWaiters cpid) := BalancedBut.congr h rfl rfl rfl
      exact (hw.clearZombie cpid).balanced
    · split
      · exact h
      · exact (h.clearZombie cpid).balanced

theorem trackTaskSlot (h : Balanced s) (pid : ℕ) : Balanced (s.trackTaskSlot pid) := by
  unfold Vfsd.trackTaskSlot
  dsimp only
  split
  · exact h
  · split
    · split
      · have hw : Balanced (s.removeProcWaiters pid (s.slot pid).uuid) := by
          unfold Vfsd.removeProcWaiters
          split
          · exact h
          · exact BalancedBut.congr h rfl rfl rfl
        exact BalancedBut.congr hw rfl rfl rfl
      · have hc := (h.clearZombie pid).balanced
        generalize s.clearZombie pid = t at hc ⊢
        exact BalancedBut.congr hc rfl rfl rfl
    · exact BalancedBut.congr h rfl rfl rfl

theorem procClone {pid fpid cpid : ℕ} (h : Balanced s) (hok : Careful s (.procClone pid fpid cpid)) :
    Balanced (s.procClone fpid cpid) := by
  unfold Vfsd.procClone
  split
  · exact h
  · rename_i hmax
    dsimp only
    have hprep : ∃ t, Emptied cpid s t ∧ (if (s.slot cpid).state = .unused then s else s.clearZombie cpid) = t := by
      split
      · rename_i hu
        exact ⟨s, ⟨h, hok hu, fun _ _ => rfl, rfl, rfl, rfl⟩, rfl⟩
      · exact ⟨_, h.clearZombie cpid, rfl⟩
    obtain ⟨t, ht, he⟩ := hprep
    rw [he]
    refine cloneAll _ (BalancedBut.congr ht.balanced rfl rfl rfl) ?_ (fun k hk => List.mem_range.mp hk)
      List.nodup_range fun k _ => ht.empty k
    show cpid < t.max
    rw [ht.max]
    omega

theorem block (h : Balanced s) (pid n : ℕ) (rd wr : Bool) : Balanced (s.block pid n rd wr) := by
  unfold Vfsd.block
  split
  · exact h
  · have ht := h.trackTaskSlot pid
    dsimp only
    split
    · exact ht
    · exact BalancedBut.congr ht rfl rfl rfl

theorem unblock (h : Balanced s) (pid n : ℕ) : Balanced (s.unblock pid n) := by
  unfold Vfsd.unblock
  dsimp only
  split
  · exact h
  · exact BalancedBut.congr h rfl rfl rfl

end Balanced

/-- Every step keeps the counts right. -/
theorem Balanced.step {s t : Vfsd} {o : Op} (h : Balanced s) (hok : Careful s o) (ht : s.step o = some t) :
    Balanced t := by
  cases o with
  | kernel pid x =>
    cases ht
    exact BalancedBut.congr h rfl rfl rfl
  | applyKids father mountPid infos =>
    cases ht
    unfold Vfsd.applyKids
    split
    · exact h
    · split
      · refine (h.makeKids (fun s i => ?_) infos hok.1 hok.2).setKidsLoaded father
        unfold commitKid
        split
        · exact .inl rfl
        · exact .inr rfl
      · exact h
  | setLoaded father =>
    simp only [Vfsd.step, Option.ite_none_right_eq_some, Option.some.injEq] at ht
    obtain ⟨-, rfl⟩ := ht
    exact h.setKidsLoaded father
  | reap cpid =>
    simp only [Vfsd.step, Option.ite_none_right_eq_some, Option.some.injEq] at ht
    obtain ⟨-, rfl⟩ := ht
    have hc := (h.clearZombie cpid).balanced
    unfold Vfsd.reapChild
    generalize s.clearZombie cpid = t at hc ⊢
    exact BalancedBut.congr hc rfl rfl rfl
  | newNode pid i dir nodeOnly writeOver createOpen =>
    cases ht
    exact h.doNewNode hok
  | newNodes pid dir infos =>
    cases ht
    unfold Vfsd.doNewNodes
    split
    · exact h
    · split
      · exact h.makeKids (fun s i => .inr rfl) infos hok.1 hok.2
      · exact h
  | delNode pid n =>
    cases ht
    exact h.doDelNode pid n
  | mount pid org n =>
    cases ht
    exact h.doMount pid org n
  | umount pid n =>
    cases ht
    exact h.moves (moves_umount h.tidy pid n)
  | setFsinfo pid n i kind =>
    cases ht
    exact h.doSetFsinfo hok
  | setByFd pid k i =>
    cases ht
    exact h.doSetByFd pid k i
  | openNode pid n fl =>
    cases ht
    exact h.doOpen hok
  | close pid k =>
    cases ht
    exact h.close pid k
  | dup pid k =>
    cases ht
    exact h.dup pid k
  | dup2 pid k j =>
    cases ht
    exact h.dup2 pid k j
  | procClone pid fpid cpid =>
    cases ht
    exact h.procClone hok
  | procExit pid cpid =>
    cases ht
    exact h.procExit cpid
  | block pid n rd wr =>
    cases ht
    exact h.block pid n rd wr
  | unblock pid n =>
    cases ht
    exact h.unblock pid n

theorem balanced_init (max : ℕ) (task : ℕ → Task) : Balanced (init max task) := by
  have hnode : ∀ n x, (init max task).node n = some x → n = 1 ∧
      x = .fresh ⟨['/'], ⟨false, .unknown⟩, 0, 0, 0, 0, 0, false⟩ := by
    intro n x hx
    simp only [init, Function.update_apply] at hx
    split at hx
    · exact ⟨by assumption, (Option.some.inj hx).symm⟩
    · cases hx
  refine ⟨⟨rfl, ?_, ?_⟩, ?_, ?_, ?_, ?_, ?_⟩
  · rintro n x hx -
    rw [(hnode n x hx).2]
    rfl
  · intro n x y hx hy
    rw [(hnode _ y hy).2]
    rfl
  · rintro p k f ⟨⟩
  · rintro p k f ⟨⟩
  · intro n x hx
    rw [(hnode n x hx).2]
    exact (tally₂_eq_zero fun _ _ _ _ => rfl).symm
  · intro n x hx
    rw [(hnode n x hx).2]
    exact (tally₂_eq_zero fun _ _ _ _ => rfl).symm
  · intro n x hx hc
    rw [(hnode n x hx).2] at hc
    cases hc

/-- The counts of a node are the descriptors open on it, an open descriptor has a node, and who is gone
    has no descriptor. -/
structure Accounted (s : Vfsd) : Prop where
  refs : ∀ n x, s.node n = some x → (x.refs : ℤ) = held s n
  refsW : ∀ n x, s.node n = some x → (x.refsW : ℤ) = heldW s n
  live : ∀ p k f, s.fd p k = some f → ∃ x, s.node f.node = some x
  anon : ∀ n x, s.node n = some x → x.copy = true → 0 < x.refs
  /-- A child that was dead when it was cloned leaves nothing behind. -/
  reaped : ∀ c k, c ∈ s.reap → (s.reapChild c).fd c k = none
  /-- Nor does a process that has gone. -/
  exited : ∀ c k, c < s.max → (s.slot c).uuid = 0 ∨ s.getUuid c ≠ (s.slot c).uuid → (s.procExit c).fd c k = none

theorem Balanced.accounted {s : Vfsd} (h : Balanced s) : Accounted s where
  refs := h.refs
  refsW := h.refsW
  live := h.live
  anon n x hx hc := ((h.copy n x hx hc).2).resolve_left id
  reaped c k _ := by
    have hc := (h.clearZombie c).empty k
    unfold Vfsd.reapChild
    generalize s.clearZombie c = t at hc ⊢
    exact hc
  exited c k hc hgone := by
    unfold Vfsd.procExit
    rw [if_neg (by omega)]
    split
    · have hw : Balanced (s.resetTaskWaiters c) := BalancedBut.congr h rfl rfl rfl
      exact (hw.clearZombie c).empty k
    · rename_i hu
      rw [if_neg (hgone.resolve_left hu)]
      exact (h.clearZombie c).empty k

/-- In every state of every run whose steps are careful the counts are the descriptors. -/
theorem refs_accounted {max : ℕ} {task : ℕ → Task} {s : Vfsd}
    (h : Reach Vfsd.step Careful (init max task) s) : Accounted s :=
  (h.inv (I := Balanced) (balanced_init max task) fun _ _ _ hs hok ht => hs.step hok ht).accounted

/-- A driver of root, process 1, and a user, process 5. -/
def someTasks : ℕ → Task
  | 1 => ⟨11, false, 0, some ⟨0, 0, 11⟩⟩
  | 5 => ⟨15, false, 1, some ⟨1000, 1000, 15⟩⟩
  | _ => ⟨0, false, 0, none⟩

/-- An anonymous device. -/
def somePipe : Info := ⟨['p'], ⟨true, .char⟩, 0, 0, 0o666, 0, 0, false⟩

/-- Process 1 with the root directory open. -/
def someOpen : Vfsd := (init 8 someTasks).doOpen 1 1 ⟨false, false, false, false⟩

/-- It has it open twice after a `dup`. -/
theorem refs_accounted_dup : ((someOpen.dup 1 3).map fun u => (u.1.node 1).map Node.refs) = some (some 2) ∧
    Accounted ((someOpen.dup 1 3).elim someOpen Prod.fst) := by
  have hsane : Sane (init 8 someTasks) := by
    refine ⟨fun n x hx hf => ?_, rfl⟩
    simp only [init, Function.update_apply] at hx
    split at hx
    · cases hx
      exact absurd rfl hf
    · cases hx
  have hopen : Reach Vfsd.step Careful (init 8 someTasks) someOpen := by
    refine Reach.next (o := .openNode 1 1 ⟨false, false, false, false⟩) .start ⟨hsane, fun x hx ha => ?_⟩ rfl
    cases hx
    cases ha
  exact ⟨by decide +kernel, refs_accounted (Reach.next (o := .dup 1 3) hopen trivial rfl)⟩

/-- The user who has opened a pipe gives the copy another type: nothing deletes it any more. -/
theorem copy_left_behind : ∃ s, Reach Vfsd.step Free (init 8 someTasks) s ∧ ¬Accounted s := by
  have hrun : ((runOps Vfsd.step (init 8 someTasks) [
      .newNode 1 somePipe 1 true false false,
      .openNode 5 2 ⟨false, false, false, false⟩,
      .setFsinfo 5 3 ⟨[], ⟨false, .char⟩, 1000, 1000, 0o700, 0, 0, false⟩ .metadata,
      .close 5 3]).bind fun s => (s.node 3).map fun x => (x.copy, x.refs)) = some (true, 0) := by
    decide +kernel
  obtain ⟨s, hs, hx⟩ := Option.bind_eq_some_iff.mp hrun
  obtain ⟨x, hx, he⟩ := Option.map_eq_some_iff.mp hx
  obtain ⟨hc, hr⟩ := Prod.mk.inj he
  refine ⟨s, reach_of_runOps hs, fun h => ?_⟩
  have hpos := h.anon 3 x hx hc
  omega

end EwokOS.Vfs
