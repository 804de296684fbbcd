import Strata.Varint

/-!
# Tuples

A tuple is a list of fields, a field a byte string. Its leading fields form its key; the key
bytes put the length in front of each field, so that no two lists of fields share them. Every
order of tuples in this library is the order of their key bytes.
-/

namespace Strata

/-- A tuple, as the list of its fields. -/
abbrev Tuple := List Bytes

/-- How the length of a field is known: to all tuples alike, or written with each. -/
inductive FieldKind where
  | fixed (length : Nat)
  | varying
deriving DecidableEq, Repr

/-- Whether each tuple writes the length of the field. -/
def FieldKind.isVarying : FieldKind → Bool
  | .fixed _ => false
  | .varying => true

namespace Tuple

/-- The key bytes of a list of fields. -/
def framed (fields : Tuple) : Bytes :=
  fields.flatMap fun f => Varint.encode f.length ++ f

@[simp] theorem framed_nil : framed [] = [] := rfl

@[simp] theorem framed_cons (f : Bytes) (fields : Tuple) :
    framed (f :: fields) = Varint.encode f.length ++ f ++ framed fields := by
  simp [framed]

/-- The key bytes of the first `keyFields` fields of a tuple, of all where there are fewer. -/
def keyBytes (tuple : Tuple) (keyFields : Nat) : Bytes :=
  framed (tuple.take keyFields)

/-- The bytes of all fields together. -/
def payload (tuple : Tuple) : Nat :=
  (tuple.map List.length).sum

end Tuple

end Strata
