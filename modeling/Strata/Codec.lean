import Strata.Codec.Reader

/-!
# Codecs

The two codecs under one type, each built from its tag. A codec stores tuples, tells the bytes
they take, and makes readers for them.
-/

namespace Strata

/-- How tuples are stored. -/
inductive Codec where
  | plain (kinds : List FieldKind)
  | pointBox (box : PointBox)
deriving Repr

namespace Codec

/-- The codec registered under a tag. -/
def ofTag (tag : String) (kinds : List FieldKind) (keyFields : Nat) : Except Error Codec :=
  match tag with
  | "type-aware" => .ok (.plain kinds)
  | "point-mbr" =>
    if keyFields ≤ kinds.length then do
      return .pointBox (← PointBox.ofKinds kinds keyFields (kinds.length - keyFields))
    else .error (.setting .keyFields (.tooManyKeyFields keyFields kinds.length))
  | _ => .error (.setting .codec (.unknownCodec tag))

/-- The number of key fields the codec is built around, if it is built around one. -/
def keyFields? : Codec → Option Nat
  | .plain _ => none
  | .pointBox box => some box.keyFields

/-- The bytes a tuple takes. -/
def required : Codec → Tuple → Outcome Nat
  | .plain kinds, tuple => .ok (Plain.required kinds tuple)
  | .pointBox box, tuple => box.required tuple

/-- The bytes a stretch of a tuple takes. -/
def requiredFields : Codec → Tuple → (start count : Nat) → Except Error Nat
  | .plain kinds, tuple, start, count => Plain.requiredFields kinds tuple start count
  | .pointBox _, _, _, _ => .error (.unsupported .partialSize)

/-- Store a tuple in a buffer, and give the bytes written. -/
def write : Codec → Tuple → (buf : Bytes) → (offset : Nat) → Bytes × Outcome Nat
  | .plain kinds, tuple, buf, offset => Plain.write kinds tuple buf offset
  | .pointBox box, tuple, buf, offset => box.write tuple buf offset

/-- Store a stretch of a tuple in a buffer. -/
def writeFields : Codec → Tuple → (start count : Nat) → (buf : Bytes) → (offset : Nat) →
    Bytes × Outcome Nat
  | .plain kinds, tuple, start, count, buf, offset =>
    Plain.writeFields kinds tuple start count buf offset
  | .pointBox _, _, start, count, buf, _ =>
    (buf, .error (.error (.unsupported (.partialWrite start count))))

/-- What a reader of whole tuples takes them for. -/
def shape : Codec → Shape
  | .plain kinds => .plain kinds 0 kinds.length
  | .pointBox box => .pointBox box

/-- A reader that is not placed yet. -/
def reader (codec : Codec) : Reader := { shape := codec.shape }

/-- The tuple stored in `buf` at `offset`. -/
def read (codec : Codec) (buf : Bytes) (offset : Nat) : Outcome Tuple :=
  match codec.reader.reset buf offset with
  | (_, .error e) => .error e
  | (r, .ok ()) => r.tuple

end Codec

end Strata
