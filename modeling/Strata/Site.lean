import Strata.Store.Recovery
import Strata.Store.Running

/-!
# The site of an index

A site is a directory on which an index is opened, closed and opened again. Snapshots of the list
of components can be held; the file of a component merged away stays as long as a snapshot that
has the component is held, also when the index has been closed since. Snapshots of one opening of
the index say nothing about the components of another. What an index has reported can be asked for
until the next one is opened.
-/

namespace Strata

/-- The components of a held snapshot, and the opening of the index it was taken in. -/
structure Lease where
  session : Nat
  /-- The counts of the components. -/
  serials : List Nat
deriving DecidableEq, Repr

/-- A directory and the index on it. -/
structure Site where
  folder : String
  codec : Codec
  /-- The files while no index is open. -/
  files : Directory := {}
  store : Option Store := none
  /-- How often an index has been opened. -/
  session : Nat := 0
  leases : List Lease := []
  /-- The files of components merged away in earlier sessions and still held. -/
  leftover : List String := []
  /-- What the index given up last has reported, while no index is open. -/
  reported : List Event := []

namespace Site

/-- The files. -/
def directory (s : Site) : Directory :=
  match s.store with
  | some store => store.files
  | none => s.files

/-- The site with other files. -/
def withDirectory (s : Site) (files : Directory) : Site :=
  match s.store with
  | some store => { s with store := some { store with files } }
  | none => { s with files }

/-- Whether a held snapshot of this session has a component, given by its count. -/
def isHeld (s : Site) (serial : Nat) : Bool :=
  s.leases.any fun l => l.session = s.session && serial ∈ l.serials

/-- Remove the files of the components merged away that nobody holds. -/
def reap (s : Site) : Site :=
  match s.store with
  | none => s
  | some store =>
    let free := (store.retired.map Component.serial).filter fun serial => !s.isHeld serial
    { s with
      store := some (free.foldl (fun store serial => (store.reap serial).getD store) store) }

/-- Put in the store after an operation, and remove files nobody needs. -/
def withStore (s : Site) (store : Store) : Site := { s with store := some store }.reap

/-- Give up the open index, if there is one. Tuples in memory are lost, its reports are kept. -/
def drop (s : Site) : Site :=
  match s.store with
  | none => s
  | some store =>
    { s with
      files := store.files
      store := none
      reported := store.events
      leftover := s.leftover ++ store.retired.filterMap fun c => c.file.toOption }

/-- Open an index, giving up one that is open. -/
def openIndex (s : Site) (options : Options) (codec : Codec) : Site × Outcome Unit :=
  let s := { s.drop with reported := [] }
  match Store.openOn { options with folder := s.folder } codec s.files with
  | (files, .error e) => ({ s with files, codec }, .error e)
  | (files, .ok store) =>
    ({ s with files, codec, store := some store, session := s.session + 1 }, .ok ())

/-- Flush and close the index. -/
def close (s : Site) : Site × Verdict :=
  match s.store with
  | none => (s, .returned (.error .breach))
  | some store =>
    let (store, verdict) := store.close
    ((s.withStore store).drop, verdict)

/-- Hand over what has been reported and not yet been handed over. -/
def takeEvents (s : Site) : Site × List Event :=
  match s.store with
  | none => ({ s with reported := [] }, s.reported)
  | some store =>
    let (store, events) := store.takeEvents
    ({ s with store := some store }, events)

/-- Hold a snapshot of the list of components. -/
def hold (s : Site) : Site :=
  match s.store with
  | none => s
  | some store =>
    { s with
      leases := ⟨s.session, store.board.roster.newestFirst.map Component.serial⟩ :: s.leases }

/-- Let all held snapshots go. -/
def letGo (s : Site) : Site :=
  let s := { s with leases := [] }
  let s := s.withDirectory (s.leftover.foldl Directory.erase s.directory)
  { s with leftover := [] }.reap

/-- Change the files. -/
def edit (s : Site) (change : Directory → Outcome Directory) : Site × Outcome Unit :=
  match change s.directory with
  | .error e => (s, .error e)
  | .ok files => (s.withDirectory files, .ok ())

end Site

end Strata
