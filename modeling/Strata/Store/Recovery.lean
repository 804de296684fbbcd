import Strata.Component.Archive
import Strata.Component.FileName
import Strata.Component.Roster
import Strata.Store.State

/-!
# Recovery

An index is opened on the files of its directory. Files under construction are removed. Of the
component files, one whose range lies inside that of another was merged into it, or holds the
same flushes, and is removed too; the rest are the components, newest first. The first file that
cannot be opened ends the recovery, and so does a number above which no word is left. An index is
opened with its files taken in the order of their names; the recovery itself takes them in any
order.
-/

namespace Strata

/-- A component file found in the directory. -/
structure Found where
  name : String
  /-- The number in its name, if it has one. -/
  id : Option Nat
  archive : Archive
  file : Bytes

namespace Found

/-- The range of the component. -/
def range (f : Found) : Range := f.archive.footer.range

/-- Newer components come first, and of those with the same newest flush the widest. -/
def before (a b : Found) : Bool :=
  b.range.max < a.range.max || (a.range.max = b.range.max && a.range.min ≤ b.range.min)

/-- The number of the component of a file, the fresh one if its name has none, and the number that
is fresh after that. -/
def numbered (f : Found) (fresh : Nat) : Outcome (Nat × Nat) :=
  match f.id with
  | some id => .ok (id, fresh)
  | none => (Outcome.ofWord (fresh + 1)).map fun next => (fresh, next)

end Found

namespace Recovery

/-- Go through the files of some names, removing those under construction and opening those of
components. -/
def collect (folder : String) (format : Format) :
    (names : List String) → Directory → Directory × Outcome (List Found)
  | [], d => (d, .ok [])
  | name :: names, d =>
    if FileName.isDraft name then collect folder format names (d.erase name)
    else if !FileName.isComponent name then collect folder format names d
    else
      match d.read name with
      | .error e => (d, .error (.error e))
      | .ok file =>
        match Archive.ofBytes (folder ++ "/" ++ name) format.codec format.keyFields file with
        | .error e => (d, .error e)
        | .ok archive =>
          match collect folder format names d with
          | (d, .error e) => (d, .error e)
          | (d, .ok found) => (d, .ok (⟨name, FileName.id? name, archive, file⟩ :: found))

/-- The first number above those of all files. -/
def freshId (found : List Found) : Nat :=
  ((found.filterMap Found.id).map (· + 1)).foldl max 0

/-- Keep files whose range lies in none of those kept, and remove the others. Files without a
number get fresh ones. -/
def keep : (found : List Found) → (fresh : Nat) → (kept : List Component) → Directory →
    Directory × Outcome (List Component)
  | [], _, kept, d => (d, .ok kept)
  | f :: found, fresh, kept, d =>
    if kept.any (·.range.contains f.range) then keep found fresh kept (d.erase f.name)
    else
      match f.numbered fresh with
      | .error e => (d, .error e)
      | .ok (id, fresh) =>
        match f.archive.component f.file id f.name with
        | .error e => (d, .error e)
        | .ok c => keep found fresh (kept ++ [c]) d

/-- The components in a directory, newest first. Its files are taken in the order of `names`. -/
def recover (folder : String) (format : Format) (names : List String) (d : Directory) :
    Directory × Outcome (List Component) :=
  match collect folder format names d with
  | (d, .error e) => (d, .error e)
  | (d, .ok found) =>
    match Outcome.ofWord (freshId found) with
    | .error e => (d, .error e)
    | .ok fresh => keep (found.mergeSort Found.before) fresh [] d

/-- The first number above those of all members of a list. -/
def above (numbers : List Nat) : Nat := (numbers.map (· + 1)).foldl max 0

end Recovery

namespace Store

/-- The index on components that have been recovered, given newest first. -/
def ofComponents (options : Options) (policy : Policy) (codec : Codec) (files : Directory)
    (components : List Component) : Outcome Store := do
  return {
    options
    policy
    format := options.format codec
    files
    memory := { budget := options.budget }
    board := { roster := components.foldl Roster.append {} }
    nextStamp := ← Outcome.ofWord (Recovery.above (components.map (·.range.max)))
    nextSerial := ← Outcome.ofWord (Recovery.above (components.map Component.id))
    pool := ← Pool.hire options.threads }

/-- Open an index on a directory. -/
def openOn (options : Options) (codec : Codec) (files : Directory) :
    Directory × Outcome Store :=
  match options.validate with
  | .error e => (files, .error (.error e))
  | .ok policy =>
    match Recovery.recover options.folder (options.format codec) files.names files with
    | (files, .error e) => (files, .error e)
    | (files, .ok components) => (files, ofComponents options policy codec files components)

end Store

end Strata
