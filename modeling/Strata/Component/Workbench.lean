import Strata.Component.Archive
import Strata.Component.FileName
import Strata.Component.Writer
import Strata.Directory
import Strata.Lifecycle

/-!
# One component file at work

A workbench holds one component file from its first tuple to its removal: the writer, the file in
its directory, a reader on it, and the component of it. The file appears under its name only when
it is finished. A reader sees changes made to the file in place, and goes on with the bytes it
had when the file is removed or replaced. A component that was merged away removes its file when
it is let go.
-/

namespace Strata

/-- A reader, and the bytes it goes on with once its file has been removed or replaced. -/
structure Opened where
  archive : Archive
  kept : Option Bytes := none

/-- One component file at work. -/
structure Workbench where
  format : Format
  id : Nat
  range : Range
  /-- The name of the file. -/
  name : String
  /-- The path of the directory. -/
  folder : String
  files : Directory
  writer : Option Writer
  opened : Option Opened := none
  component : Option (Component × State) := none

namespace Workbench

/-- A workbench with a file begun. -/
def start (format : Format) (id : Nat) (range : Range) (folder name : String) :
    Outcome Workbench := do
  let writer ← Writer.start format
  return {
    format, id, range, name, folder
    files := ({} : Directory).write (FileName.draft name) []
    writer := some writer }

/-- The file, if it is there. -/
def file? (w : Workbench) : Option Bytes := w.files.find? w.name

/-- Whether the file is there, and whether one under construction is. -/
def exists? (w : Workbench) : Bool × Bool :=
  (w.file?.isSome, (w.files.find? (FileName.draft w.name)).isSome)

/-- Leave the reader the bytes it has now. -/
def detach (w : Workbench) : Workbench :=
  { w with opened := w.opened.map fun o => { o with kept := o.kept <|> w.file? } }

/-- Let the component go. -/
def release (w : Workbench) : Workbench :=
  match w.component with
  | some (_, .inactive) =>
    { w.detach with files := w.files.erase w.name, component := none }
  | _ => { w with component := none }

/-- Take up a component, letting go the one before. -/
def hold (w : Workbench) (component : Component) : Workbench :=
  { w.release with component := some (component, .readable) }

/-- Add a tuple to the file in the making, and count the tuples so far. -/
def add (w : Workbench) (tuple : Tuple) : Workbench × Outcome Nat :=
  match w.writer with
  | none => (w, .error .breach)
  | some writer =>
    let (writer, answer) := writer.add tuple
    ({ w with writer := some writer }, answer.map fun _ => writer.tuples)

/-- Finish the file. The writer is used up, also where it fails. -/
def finish (w : Workbench) : Workbench × Outcome Component :=
  match w.writer with
  | none => (w, .error .breach)
  | some writer =>
    let w := { w with writer := none }
    match writer.finish w.id w.range w.name with
    | .error e => (w, .error e)
    | .ok (file, component) =>
      let w := w.detach
      let files := (w.files.erase (FileName.draft w.name)).write w.name file
      ({ w with files }.hold component, .ok component)

/-- Change the directory, leaving the reader on the file. -/
def edit (w : Workbench) (change : Directory → Outcome Directory) : Workbench × Outcome Unit :=
  match change w.files with
  | .error e => (w, .error e)
  | .ok files => ({ w with files }, .ok ())

/-- Open the file for reading. -/
def openFile (w : Workbench) (codec : Codec) (keyFields : Nat) : Workbench × Outcome Archive :=
  let path := w.folder ++ "/" ++ w.name
  match Outcome.ofExcept (w.files.read w.name) >>= Archive.ofBytes path codec keyFields with
  | .error e => (w, .error e)
  | .ok archive => ({ w with opened := some { archive } }, .ok archive)

/-- Ask the reader something about the bytes it reads. -/
def ask {α : Type} (w : Workbench) (question : Archive → Bytes → Outcome α) : Outcome α :=
  match w.opened with
  | none => .error .breach
  | some o => question o.archive ((o.kept <|> w.file?).getD [])

/-- Make a component of the reader, which is used up. -/
def reopen (w : Workbench) (id : Nat) : Workbench × Outcome Component :=
  let answer := w.ask fun archive file => archive.component file id w.name
  let w := { w with opened := none }
  match answer with
  | .error e => (w, .error e)
  | .ok component => (w.hold component, .ok component)

/-- Make a move with the component. -/
def move (w : Workbench) (m : Move) : Workbench × Outcome Unit :=
  match w.component with
  | none => (w, .error .breach)
  | some (component, state) =>
    match state.moved m with
    | .error e => (w, .error (.error e))
    | .ok state => ({ w with component := some (component, state) }, .ok ())

end Workbench

end Strata
