import Strata.Codec.Plain
import Strata.Codec.PointBox

/-!
# Readers of stored tuples

A reader is placed on a stored tuple by `reset`, and then shows its fields. It is kept and placed
again: a reset that fails because the bitmap does not fit changes nothing, one that fails later
has already replaced the ends of the fields, up to the bad one, while buffer and positions are
still those of the last success. A field outside what a reader knows breaks the precondition, and
so do positions, sizes and lengths of coordinates that no word holds.
-/

namespace Strata

/-- What a reader takes a stored tuple for. -/
inductive Shape where
  /-- The fields of a stretch of the kinds. -/
  | plain (kinds : List FieldKind) (start count : Nat)
  | pointBox (box : PointBox)
deriving Repr

namespace Shape

/-- What messages call the tuple. -/
def layout : Shape → Layout
  | .plain .. => .plain
  | .pointBox _ => .pointBox

/-- The kinds of the stored fields. -/
def storedKinds : Shape → List FieldKind
  | .plain kinds start count => Plain.stretch kinds start count
  | .pointBox box => box.storedKinds

/-- The number of stored fields. -/
def storedFields : Shape → Nat
  | .plain _ _ count => count
  | .pointBox box => box.dimensions + box.values

/-- The number of fields shown. -/
def fields : Shape → Nat
  | .plain _ _ count => count
  | .pointBox box => box.fields

/-- The number of leading stored fields whose lengths are taken to fit together: the coordinates
of a box. -/
def coordinates : Shape → Nat
  | .plain .. => 0
  | .pointBox box => box.dimensions

/-- What stops a reset that could locate only so many of the stored fields. -/
def failure (shape : Shape) (located : Nat) (e : Error) : Failure :=
  if located < shape.coordinates then .breach else .error e

/-- The stored field that is shown as field `index`. -/
def storedIndex? : Shape → (index : Nat) → Option Nat
  | .plain .., index => some index
  | .pointBox box, index => if index < box.fields then some (box.storedIndex index) else none

end Shape

/-- A reader of stored tuples. -/
structure Reader where
  shape : Shape
  /-- Where the stored fields end, counted from `dataStart`. -/
  ends : List Nat := []
  buf : Bytes := []
  tupleStart : Nat := 0
  dataStart : Nat := 0
deriving Repr

namespace Reader

/-- The number of fields shown. -/
def fields (r : Reader) : Nat := r.shape.fields

/-- Read only a stretch of the fields from the next reset on. -/
def setRange (r : Reader) (start count : Nat) : Except Error Reader :=
  match r.shape with
  | .plain kinds _ _ =>
    if start + count ≤ kinds.length then .ok { r with shape := .plain kinds start count }
    else .error (.fieldRange start count kinds.length)
  | .pointBox _ => .error (.unsupported .partialSize)

/-- Place the reader on the tuple stored in `buf` at `offset`. -/
def reset (r : Reader) (buf : Bytes) (offset : Nat) : Reader × Outcome Unit :=
  let start := offset + Stored.bitmapSize r.shape.storedFields
  if Numeral.word ≤ start then (r, .error .breach)
  else if buf.length < start then
    (r, .error (.error (.damage (.bitmapTruncated r.shape.layout offset))))
  else
    match Stored.locate buf r.shape.storedKinds start 0 with
    | (ends, .error e) => ({ r with ends }, .error (r.shape.failure ends.length e))
    | (ends, .ok (dataStart, total)) =>
      if buf.length < dataStart + total then
        ({ r with ends }, .error (.error
          (.damage (.fieldsTruncated r.shape.layout offset total dataStart buf.length))))
      else ({ r with ends, buf, tupleStart := offset, dataStart }, .ok ())

/-- The bytes between two positions of the buffer. -/
def between (r : Reader) (first last : Nat) : Outcome Bytes :=
  if first ≤ last ∧ last ≤ r.buf.length then .ok (Bytes.slice r.buf first (last - first))
  else .error .breach

/-- The end of stored field `index`. -/
def endOf (r : Reader) (index : Nat) : Outcome Nat :=
  Outcome.ofOption r.ends[index]?

/-- Where stored field `index` begins, which is where the one before ends. -/
def beginOf (r : Reader) : (index : Nat) → Outcome Nat
  | 0 => .ok 0
  | index + 1 => r.endOf index

/-- The bytes of field `index`. -/
def field (r : Reader) (index : Nat) : Outcome Bytes := do
  let stored ← Outcome.ofOption (r.shape.storedIndex? index)
  let first ← r.beginOf stored
  let last ← r.endOf stored
  r.between (r.dataStart + first) (r.dataStart + last)

/-- All fields shown. -/
def tuple (r : Reader) : Outcome Tuple :=
  (List.range r.fields).mapM r.field

/-- The bytes the tuple takes in the buffer. -/
def tupleSize (r : Reader) : Outcome Nat :=
  Outcome.ofWord (r.dataStart - r.tupleStart + r.ends.getLastD 0)

end Reader

end Strata
