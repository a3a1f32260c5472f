import EwokOS.Vfs.Lazy
import EwokOS.Vfs.Path
import EwokOS.Vfs.TreeRun

/-! Listings in the tree of `vfsd`.

    `Dir` speaks of one directory by the names of its kids:

        Vfsd   f ─▶ 5 ─▶ 9 ─▶ 7        applyKids ─▶   f ─▶ 5 ─▶ 9 ─▶ 7 ─▶ 12
        Dir    [bin, etc, usr]         applyJob  ─▶   [bin, etc, usr, tmp]

    That is what the tree shows of a directory (`Shows`), and merging a listing into the tree is merging
    its names, as long as none of them has a slash: such a kid is never found again, and every listing
    makes another one. -/

namespace EwokOS.Vfs

open Schemes Vfsd

variable {K : ℕ → List ℕ} {s : Vfsd} {f : ℕ} {fx : Node} {d : Dir (List Char)}

/-- The names of the kids of `f`. -/
def kidNames (K : ℕ → List ℕ) (s : Vfsd) (f : ℕ) : List (List Char) :=
  (K f).map fun c => ((s.node c).map fun y => y.info.name).getD []

/-- The directory `f` of the tree is `d`. -/
structure Shows (K : ℕ → List ℕ) (s : Vfsd) (f : ℕ) (d : Dir (List Char)) : Prop where
  kids : d.kids = kidNames K s f
  spare : d.spare = nodeMax - s.count
  loaded : ∀ x, s.node f = some x → x.info.loaded = d.loaded

theorem mem_kidNames (hK : Forest K s) {name : List Char} (hs : '/' ∉ name) :
    (s.findKidRaw f name).isSome = true ↔ name ∈ kidNames K s f := by
  rw [Option.isSome_iff_exists, kidNames, List.mem_map]
  constructor
  · rintro ⟨c, hc⟩
    obtain ⟨x, hx, hname, -⟩ := hK.found hc
    refine ⟨c, List.mem_of_find?_eq_some (hK.findKidRaw_eq.mp hc).2, ?_⟩
    rw [hx]
    exact hname
  · rintro ⟨c, hc, hname⟩
    obtain ⟨y, hy, -⟩ := hK.kid f c hc
    rw [hy] at hname
    have hfind : ((K f).find? (named s name)).isSome = true :=
      List.find?_isSome.mpr ⟨c, hc, (named_iff hy).mpr hname⟩
    obtain ⟨c', hc'⟩ := Option.isSome_iff_exists.mp hfind
    exact ⟨c', hK.findKidRaw_eq.mpr ⟨hs, hc'⟩⟩

/-- Names stay where every kid keeps its own. -/
theorem kidNames_congr {t : Vfsd} {l : List ℕ}
    (h : ∀ c ∈ l, (t.node c).map (fun y => y.info.name) = (s.node c).map fun y => y.info.name) :
    (l.map fun c => ((t.node c).map fun y => y.info.name).getD []) =
      l.map fun c => ((s.node c).map fun y => y.info.name).getD [] :=
  List.map_congr_left fun c hc => congrArg (·.getD []) (h c hc)

/-- What a directory shows after one entry of a listing. -/
theorem Shows.commit (hK : Forest K s) (hf : Fresh s) (hx : s.node f = some fx) (h : Shows K s f d)
    {i : Info} (hs : '/' ∉ i.terminate.name) :
    ∃ K', Forest K' (commitKid f s i) ∧ Shows K' (commitKid f s i) f (d.commitKid i.terminate.name) ∧
      ∃ fx', (commitKid f s i).node f = some fx' ∧ fx'.info = fx.info := by
  rw [Vfsd.commitKid, Dir.commitKid]
  by_cases hmem : i.terminate.name ∈ kidNames K s f
  · -- there is a kid of that name
    rw [if_pos ((mem_kidNames hK hs).mpr hmem), if_pos (.inl (h.kids ▸ hmem))]
    exact ⟨K, hK, h, fx, hx, rfl⟩
  rw [if_neg fun hk => hmem ((mem_kidNames hK hs).mp hk)]
  have hf0 : f ≠ 0 := by
    rintro rfl
    rw [hK.null] at hx
    cases hx
  unfold Vfsd.create
  by_cases hfull : nodeMax ≤ s.count
  · -- there is no node left
    have hnone : s.newNode (Node.fresh i.terminate) = none := if_pos hfull
    rw [hnone, if_pos (.inr (by rw [h.spare]; omega))]
    exact ⟨K, hK, h, fx, hx, rfl⟩
  rw [if_neg (by rw [h.kids, h.spare, not_or]; exact ⟨hmem, by omega⟩)]
  obtain ⟨u, hu⟩ : ∃ u, s.newNode (Node.fresh i.terminate) = some u := ⟨_, if_neg hfull⟩
  rw [hu]
  dsimp only
  rw [if_neg hf0]
  obtain ⟨hnew, hnot⟩ := hK.newKid hf rfl hu hx
  obtain ⟨hn, hnode, -⟩ := newNode_eq hu
  obtain ⟨fu, hfu⟩ := newNode_live hu hx
  have hother : ∀ {c y}, c ≠ u.2 → s.node c = some y → (u.1.addNode f u.2).node c = some (linkedTo f fu u.2 c y) := by
    intro c y hc hy
    rw [addNode_node _ hfu, hnode, Function.update_of_ne (hn ▸ hc), hy]
    rfl
  have hfn : f ≠ u.2 := by
    rintro he
    rw [he, hn, hf.id] at hx
    cases hx
  refine ⟨_, hnew, ⟨?_, ?_, fun x hx' => ?_⟩, _, hother hfn hx, rfl⟩
  · -- the kids keep their names, and the new one is behind them
    have hold : ∀ c ∈ K f, ((u.1.addNode f u.2).node c).map (fun y => y.info.name) =
        (s.node c).map fun y => y.info.name := by
      intro c hc
      obtain ⟨y, hy, -⟩ := hK.kid f c hc
      rw [hother (fun he => hnot f (he ▸ hc)) hy, hy]
      rfl
    have hlast : ((u.1.addNode f u.2).node u.2).map (fun y => y.info.name) = some i.terminate.name := by
      rw [addNode_node _ hfu, hnode, hn, Function.update_self]
      rfl
    rw [kidNames, Function.update_self, List.map_append, kidNames_congr hold, List.map_singleton, hlast]
    exact congrArg (· ++ [i.terminate.name]) h.kids
  · have hcount : u.1.count = s.count + 1 := by
      rw [newNode, if_neg hfull, Option.some.injEq] at hu
      rw [← hu]
    rw [(addNode_frame _ _ _).2.2, hcount]
    change d.spare - 1 = _
    rw [h.spare]
    omega
  · rw [hother hfn hx] at hx'
    cases hx'
    exact h.loaded fx hx

/-- Merging a listing into the tree is merging its names into the directory. -/
theorem Shows.commits (hK : Forest K s) {infos : List Info} (hf : AllMeet (commitKid f) (fun s _ => Fresh s) s infos)
    (hx : s.node f = some fx) (h : Shows K s f d) (hs : ∀ i ∈ infos, '/' ∉ i.terminate.name) :
    ∃ K', Forest K' (infos.foldl (commitKid f) s) ∧
      Shows K' (infos.foldl (commitKid f) s) f ((infos.map fun i => i.terminate.name).foldl Dir.commitKid d) ∧
      ∃ fx', (infos.foldl (commitKid f) s).node f = some fx' ∧ fx'.info = fx.info := by
  induction infos generalizing K s fx d with
  | nil => exact ⟨K, hK, h, fx, hx, rfl⟩
  | cons i infos ih =>
    obtain ⟨K', hK', h', fx', hx', hinfo⟩ := h.commit hK hf.1 hx (hs i List.mem_cons_self)
    rw [← hinfo]
    exact ih hK' hf.2 hx' h' fun j hj => hs j (List.mem_cons_of_mem i hj)

theorem Shows.apply {pid : ℕ} (hK : Forest K s) {infos : List Info}
    (hf : AllMeet (commitKid f) (fun s _ => Fresh s) s infos) (hx : s.node f = some fx)
    (hdir : fx.info.type.base = .dir) (hpid : s.getMountPid f = some pid) (h : Shows K s f d)
    (hs : ∀ i ∈ infos, '/' ∉ i.terminate.name) (still : List (List Char)) :
    ∃ K', Forest K' (s.applyKids f pid infos) ∧
      Shows K' (s.applyKids f pid infos) f (d.applyJob (some ⟨infos.map fun i => i.terminate.name, still⟩)) := by
  obtain ⟨K', hK', h', fx', hx', hinfo⟩ := h.commits hK hf hx hs
  rw [Vfsd.applyKids, hx]
  dsimp only
  rw [if_pos ⟨hdir, hpid⟩]
  generalize infos.foldl (commitKid f) s = t at hK' h' hx' ⊢
  refine ⟨K', hK'.edit fun y => by split <;> rfl, ?_, h'.spare, fun y hy => ?_⟩
  · refine h'.kids.trans (kidNames_congr fun c _ => ?_).symm
    rw [setKidsLoaded, modify_node]
    cases t.node c with
    | none => rfl
    | some y =>
      rw [Option.map_some, Option.map_some, Option.map_some]
      split_ifs <;> rfl
  · rw [setKidsLoaded, modify_self, hx', Option.map_some, if_pos (hinfo ▸ hdir)] at hy
    cases hy
    rfl

end EwokOS.Vfs
