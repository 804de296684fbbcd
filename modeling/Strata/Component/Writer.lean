import Strata.Component
import Strata.Component.Block
import Strata.Component.FileName
import Strata.Component.Footer
import Strata.Directory

/-!
# Writing component files

A component file is written from tuples in key order: data blocks, bloom filter, block index,
footer. A full block is closed before the next tuple goes into a new one; the last key of a block
goes into the block index. The filter is sized once the number of tuples is known.
-/

namespace Strata

/-- A component file in the making. -/
structure Writer where
  format : Format
  draft : Draft
  /-- What has been written to the file. -/
  written : Bytes := []
  entries : List IndexEntry := []
  keys : List Fingerprint := []
  tuples : Nat := 0
  lastKey : Bytes := []

namespace Writer

/-- A writer before the first tuple. -/
def start (format : Format) : Outcome Writer := do
  return { format, draft := ← Draft.start format.codec format.blockSize }

/-- Close the block in the making, if it holds a tuple, and start another. -/
def closeBlock (w : Writer) : Writer :=
  if w.draft.isEmpty then w
  else
    let block := w.draft.build
    { w with
      draft := { codec := w.format.codec, capacity := w.format.blockSize }
      written := w.written ++ block
      entries := w.entries ++ [⟨w.lastKey, w.written.length, block.length, w.draft.length⟩] }

/-- Put a tuple into a block, a new one where it does not fit into the one in the making. -/
def place (w : Writer) (tuple : Tuple) : Writer × Outcome Unit :=
  match w.draft.add tuple with
  | (draft, .error e) => ({ w with draft }, .error e)
  | (draft, .ok true) => ({ w with draft }, .ok ())
  | (draft, .ok false) =>
    let w := { w with draft }.closeBlock
    let (draft, answer) := w.draft.add tuple
    ({ w with draft }, answer.map fun _ => ())

/-- Add a tuple. Its key must not lie below that of the last one added. -/
def add (w : Writer) (tuple : Tuple) : Writer × Outcome Unit :=
  let key := w.format.keyOf tuple
  if compare key w.lastKey = .lt then (w, .error .breach)
  else
    match w.place tuple with
    | (w, .error e) => (w, .error e)
    | (w, .ok ()) =>
      ({ w with
        keys := w.keys ++ [w.format.fingerprint key]
        tuples := w.tuples + 1
        lastKey := key }, .ok ())

/-- Add tuples up to the first that is not accepted. -/
def addAll (w : Writer) : List Tuple → Writer × Outcome Unit
  | [] => (w, .ok ())
  | tuple :: rest =>
    match w.add tuple with
    | (w, .error e) => (w, .error e)
    | (w, .ok ()) => addAll w rest

/-- The complete file, and the component of it. -/
def finish (w : Writer) (serial : Nat) (range : Range) (name : String) :
    Outcome (Bytes × Component) := do
  let w := w.closeBlock
  let filter ← Bloom.Filter.ofKeys w.format.rate w.keys
  let filterBytes := filter.encode
  let indexBytes := w.entries.flatMap IndexEntry.encode
  let footer : Footer := {
    indexOffset := w.written.length + filterBytes.length
    indexSize := indexBytes.length
    bloomOffset := w.written.length
    bloomSize := filterBytes.length
    tuples := w.tuples
    range := range }
  let file := w.written ++ filterBytes ++ indexBytes ++ footer.encode
  return (file, { serial, range, size := file.length, contents := some ⟨name, filter, w.tuples⟩ })

end Writer

namespace Directory

/-- Write the file of a component with these tuples, in key order. Where that fails, what was
written so far is left behind under the name of a file under construction. -/
def build (d : Directory) (format : Format) (serial : Nat) (range : Range)
    (tuples : List Tuple) : Directory × Outcome Component :=
  let name := FileName.ofComponent (Numeral.wrapped serial) range
  match Writer.start format with
  | .error e => (d.write (FileName.draft name) [], .error e)
  | .ok w =>
    match w.addAll tuples with
    | (w, .error e) => (d.write (FileName.draft name) w.written, .error e)
    | (w, .ok ()) =>
      match w.finish serial range name with
      | .error e => (d.write (FileName.draft name) w.closeBlock.written, .error e)
      | .ok (file, component) =>
        ((d.erase (FileName.draft name)).write name file, .ok component)

end Directory

end Strata
