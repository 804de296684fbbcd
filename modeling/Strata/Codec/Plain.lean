import Strata.Codec.Stored

/-!
# The plain codec

A tuple is stored field by field. A stretch of its fields can be stored on its own; its bitmap
then counts the fields of the stretch only.
-/

namespace Strata.Plain

/-- The members of a list from `start` on, `count` of them. -/
def stretch {α : Type} (xs : List α) (start count : Nat) : List α :=
  (xs.drop start).take count

/-- The bytes of the whole tuple. Fields beyond the kinds count with their own length. -/
def required (kinds : List FieldKind) (tuple : Tuple) : Nat :=
  (Stored.encode kinds tuple).length

/-- A stretch must lie inside both the tuple and the kinds. -/
def checkRange (kinds : List FieldKind) (tuple : Tuple) (start count : Nat) :
    Except Error Unit :=
  let limit := min tuple.length kinds.length
  if start + count ≤ limit then .ok () else .error (.fieldRange start count limit)

/-- The stored form of a stretch of a tuple. -/
def encode (kinds : List FieldKind) (tuple : Tuple) (start count : Nat) : Bytes :=
  Stored.encode (stretch kinds start count) (stretch tuple start count)

/-- The bytes of a stretch of a tuple. -/
def requiredFields (kinds : List FieldKind) (tuple : Tuple) (start count : Nat) :
    Except Error Nat := do
  checkRange kinds tuple start count
  return (encode kinds tuple start count).length

/-- Whether a stretch of a tuple can be stored. -/
def check (kinds : List FieldKind) (tuple : Tuple) (start count : Nat) : Except Error Unit := do
  checkRange kinds tuple start count
  Stored.checkLengths start (stretch kinds start count) (stretch tuple start count)

/-- Store a stretch of a tuple in a buffer, and give the bytes written. -/
def writeFields (kinds : List FieldKind) (tuple : Tuple) (start count : Nat)
    (buf : Bytes) (offset : Nat) : Bytes × Outcome Nat :=
  match check kinds tuple start count with
  | .error e => (buf, .error (.error e))
  | .ok () => Stored.put buf offset (encode kinds tuple start count)

/-- Store a whole tuple in a buffer. -/
def write (kinds : List FieldKind) (tuple : Tuple) (buf : Bytes) (offset : Nat) :
    Bytes × Outcome Nat :=
  writeFields kinds tuple 0 tuple.length buf offset

end Strata.Plain
