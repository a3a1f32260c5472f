import EwokOS.Schemes.Run
import Mathlib.Data.List.Basic
import Mathlib.Data.List.Nodup
import Mathlib.Data.List.Perm.Basic

/-! Directories that are listed when they are first used (`driver_async.c`).

    A listing is asked for, answered by the driver of the directory, and merged into the directory
    later, by name. Who waits for it may give up and ask again, so that several listings are under way:

        ensure --> asked for --> answered (what exists now) --> applied
           |                                                      (any order, at any time)
           `-- gives up: may ask again

    Meanwhile nodes are created and deleted. A name that is in an answer not yet applied comes back
    when it is, also if its node has been deleted since. -/

namespace EwokOS.Vfs

open Schemes

/-- The answer of a driver. -/
structure Listing (α : Type) where
  names : List α
  /-- Those of the files that have existed ever since. -/
  still : List α

/-- A directory: what its driver has, and what `vfsd` knows of it. -/
structure Dir (α : Type) where
  files : List α
  kids : List α
  loaded : Bool
  loading : Bool
  /-- Listings asked for and not answered. -/
  jobs : ℕ
  /-- Answers not applied; `none` if the driver has failed. -/
  results : List (Option (Listing α))
  /-- How many nodes can still be made (`VFS_NODE_MAX`). -/
  spare : ℕ
  /-- Names whose node has been deleted and not created again. -/
  gone : List α
  /-- Files of the listings applied so far that have existed ever since. -/
  lasting : List α

inductive DirOp (α : Type) where
  | ensure
  | giveUp
  | answer (names : List α)
  | noAnswer
  | apply (i : ℕ)
  | newNode (name : α)
  | newNodes (names : List α)
  | create (name : α)
  | unlink (name : α)
  | delNode (name : α)
  | others (spare : ℕ)

namespace Dir

variable {α : Type} [DecidableEq α]

/-- One entry of `vfs_commit_kids_to_node`. -/
def commitKid (d : Dir α) (name : α) : Dir α :=
  if name ∈ d.kids ∨ d.spare = 0 then d else { d with kids := d.kids ++ [name], spare := d.spare - 1 }

/-- `vfs_apply_driver_kids_job_locked`. -/
def applyJob (d : Dir α) : Option (Listing α) → Dir α
  | none => { d with loading := false }
  | some l =>
    let c := l.names.foldl commitKid d
    { c with loading := false, loaded := true, lasting := d.lasting ++ l.still }

def step (d : Dir α) : DirOp α → Option (Dir α)
  -- the first part of `vfs_ensure_kids_loaded`, and its end when the time is up
  | .ensure => if d.loaded ∨ d.loading then some d else some { d with jobs := d.jobs + 1, loading := true }
  | .giveUp => some { d with loading := false }
  | .answer names =>
    if d.jobs = 0 ∨ ¬names.Perm d.files then none
    else some { d with jobs := d.jobs - 1, results := d.results ++ [some ⟨names, names⟩] }
  | .noAnswer => if d.jobs = 0 then none else some { d with jobs := d.jobs - 1, results := d.results ++ [none] }
  | .apply i =>
    match d.results[i]? with
    | none => none
    | some r => some { d.applyJob r with results := d.results.eraseIdx i }
  -- `do_vfs_new_node` refuses a name that is there
  | .newNode name =>
    if name ∈ d.kids ∨ d.spare = 0 then some d
    else some { d with
      kids := d.kids ++ [name], spare := d.spare - 1, gone := d.gone.filter (· ≠ name) }
  -- `do_vfs_new_nodes` does not look
  | .newNodes names => some { d with
      kids := d.kids ++ names.take d.spare
      spare := d.spare - names.length
      gone := d.gone.filter (· ∉ names.take d.spare) }
  | .create name => some { d with
      files := if name ∈ d.files then d.files else d.files ++ [name]
      gone := d.gone.filter (· ≠ name) }
  | .unlink name => some { d with
      files := d.files.filter (· ≠ name)
      lasting := d.lasting.filter (· ≠ name)
      results := d.results.map fun r => r.map fun l => { l with still := l.still.filter (· ≠ name) } }
  -- `vfsd_del_node`, of a node that is not open
  | .delNode name =>
    if name ∈ d.kids then some { d with
      kids := d.kids.erase name, spare := d.spare + 1, gone := name :: d.gone }
    else none
  | .others spare => some { d with spare := spare }

/-- A node is deleted after its file and when no answer that names it is still to be applied, there are
    nodes enough for an answer that is applied, and nodes made in bulk have new names. -/
def Calm (d : Dir α) : DirOp α → Prop
  | .delNode name => name ∉ d.files ∧ ∀ l, some l ∈ d.results → name ∉ l.names
  | .apply i => ∀ l, d.results[i]? = some (some l) → l.names.length ≤ d.spare
  | .newNodes names => names.Nodup ∧ ∀ x ∈ names, x ∉ d.kids
  | _ => True

/-- The invariant: a deleted name is in no answer, and no file that lasts is without its node. -/
structure Settled (d : Dir α) : Prop where
  distinct : d.kids.Nodup
  present : ∀ x ∈ d.lasting, x ∈ d.kids ∧ x ∈ d.files
  deleted : ∀ x ∈ d.gone, x ∉ d.kids ∧ x ∉ d.files
  answers : ∀ l, some l ∈ d.results → (∀ x ∈ l.still, x ∈ l.names ∧ x ∈ d.files) ∧ ∀ x ∈ d.gone, x ∉ l.names

end Dir

end EwokOS.Vfs
