import Strata.Codec.Stored

/-!
# The codec for points given as boxes

A box in space has a lower and an upper coordinate in each dimension; its key fields are the lower
coordinates followed by the upper ones. A box that is a point has them equal, so only the first
half of the key fields is stored, followed by the value fields. Only whole tuples are stored.
-/

namespace Strata

/-- The kinds of the fields of a tuple whose key is a box. Coordinates have fixed lengths. -/
structure PointBox where
  /-- The number of dimensions, half the number of key fields. -/
  dimensions : Nat
  /-- The number of value fields. -/
  values : Nat
  /-- The kinds of all fields, as the tuple shows them. -/
  kinds : List FieldKind
  dimensions_pos : 0 < dimensions
  length_kinds : kinds.length = 2 * dimensions + values
  fixed_keys : ∀ k ∈ kinds.take (2 * dimensions), k.isVarying = false
deriving Repr

namespace PointBox

/-- The number of key fields. -/
def keyFields (box : PointBox) : Nat := 2 * box.dimensions

/-- The number of fields. -/
def fields (box : PointBox) : Nat := box.keyFields + box.values

/-- The kinds for `keyFields` key fields and `valueFields` value fields. -/
def ofKinds (kinds : List FieldKind) (keyFields valueFields : Nat) : Except Error PointBox :=
  if heven : keyFields = 0 ∨ keyFields % 2 ≠ 0 then
    .error (.setting .keyFields (.oddKeyFields keyFields))
  else if hlength : kinds.length ≠ keyFields + valueFields then
    .error (.setting .fieldKinds (.kindCount kinds.length keyFields valueFields))
  else
    match hfixed : (kinds.take keyFields).findIdx? FieldKind.isVarying with
    | some field => .error (.setting .fieldKinds (.varyingKeyField field))
    | none =>
      have hdouble : 2 * (keyFields / 2) = keyFields := by omega
      .ok {
        dimensions := keyFields / 2
        values := valueFields
        kinds := kinds
        dimensions_pos := by omega
        length_kinds := by omega
        fixed_keys := by
          rw [hdouble]
          exact List.findIdx?_eq_none_iff.1 hfixed }

/-- The kinds for numbers of fields given apart, which together must be one that a word holds. -/
def ofCounts (kinds : List FieldKind) (keyFields valueFields : Nat) : Outcome PointBox := do
  if keyFields ≠ 0 ∧ keyFields % 2 = 0 ∧ Numeral.word ≤ keyFields + valueFields then
    throw .breach
  ofKinds kinds keyFields valueFields

/-- What is stored of a list with one member a field: the first half of the key, and the values. -/
def stored {α : Type} (box : PointBox) (xs : List α) : List α :=
  xs.take box.dimensions ++ (xs.drop box.keyFields).take box.values

/-- The kinds of the stored fields. -/
def storedKinds (box : PointBox) : List FieldKind := box.stored box.kinds

/-- Where field `index` of the tuple is among the stored fields. -/
def storedIndex (box : PointBox) (index : Nat) : Nat :=
  if index < box.dimensions then index
  else if index < box.keyFields then index % box.dimensions
  else index - box.dimensions

/-- The stored form of a tuple. -/
def encode (box : PointBox) (tuple : Tuple) : Bytes :=
  Stored.encode box.storedKinds (box.stored tuple)

/-- The bytes of a tuple, which must have every field that is stored. -/
def required (box : PointBox) (tuple : Tuple) : Outcome Nat :=
  if (box.stored tuple).length = box.dimensions + box.values then
    .ok (box.encode tuple).length
  else .error .breach

/-- The first dimension, counted from `index`, in which two lists of coordinates differ. -/
def extended? : (index : Nat) → (lower upper : Tuple) → Option Nat
  | index, l :: lower, u :: upper =>
    if l = u then extended? (index + 1) lower upper else some index
  | _, _, _ => none

/-- Whether a tuple can be stored. -/
def check (box : PointBox) (tuple : Tuple) : Except Error Unit := do
  if tuple.length ≠ box.fields then
    throw (.fieldRange 0 box.fields tuple.length)
  Stored.checkLengths 0 box.kinds tuple
  match extended? 0 (tuple.take box.dimensions) (tuple.drop box.dimensions) with
  | some dimension => throw (.unsupported (.extendedBox dimension))
  | none => return ()

/-- Store a tuple in a buffer, and give the bytes written. -/
def write (box : PointBox) (tuple : Tuple) (buf : Bytes) (offset : Nat) :
    Bytes × Outcome Nat :=
  match box.check tuple with
  | .error e => (buf, .error (.error e))
  | .ok () => Stored.put buf offset (box.encode tuple)

end PointBox

end Strata
