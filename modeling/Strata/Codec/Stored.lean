import Strata.Tuple

/-!
# The stored form of a list of fields

A list of fields is stored as a bitmap of one bit a field, always zero, then one slot for each
field of varying length, then the fields themselves. The two codecs differ only in the fields
they store. This module writes the form, checks fields against their kinds, and finds where the
stored fields end.
-/

namespace Strata.Stored

/-- The bytes of the bitmap over `fields` stored fields. -/
def bitmapSize (fields : Nat) : Nat := (fields + 7) / 8

/-- The slots: the length of each varying field, in order. Fields beyond the kinds have none. -/
def slots : List FieldKind → Tuple → Bytes
  | .varying :: kinds, f :: fields => Varint.encode f.length ++ slots kinds fields
  | .fixed _ :: kinds, _ :: fields => slots kinds fields
  | _, _ => []

/-- The stored form of a list of fields. -/
def encode (kinds : List FieldKind) (fields : Tuple) : Bytes :=
  Bytes.zeros (bitmapSize fields.length) ++ slots kinds fields ++ fields.flatten

theorem length_encode (kinds : List FieldKind) (fields : Tuple) :
    (encode kinds fields).length =
      bitmapSize fields.length + (slots kinds fields).length + Tuple.payload fields := by
  simp [encode, Tuple.payload, List.length_flatten, Nat.add_assoc]

/-- The first field, counted from `index`, that has not the length its kind fixes. -/
def checkLengths : (index : Nat) → List FieldKind → Tuple → Except Error Unit
  | index, .fixed length :: kinds, f :: fields =>
    if f.length = length then checkLengths (index + 1) kinds fields
    else .error (.fieldLength index length f.length)
  | index, .varying :: kinds, _ :: fields => checkLengths (index + 1) kinds fields
  | _, _, _ => .ok ()

/-- Write bytes into a buffer. Too little room behind `offset` is an error; an offset behind the
end of the buffer breaks the precondition even where nothing is to be written. -/
def put (buf : Bytes) (offset : Nat) (new : Bytes) : Bytes × Outcome Nat :=
  if buf.length - offset < new.length then
    (buf, .error (.error (.bufferTooSmall new.length (buf.length - offset))))
  else if buf.length < offset then (buf, .error .breach)
  else (Bytes.overwrite buf offset new, .ok new.length)

theorem put_of_le {buf new : Bytes} {offset : Nat} (h : offset + new.length ≤ buf.length) :
    put buf offset new = (Bytes.overwrite buf offset new, .ok new.length) := by
  rw [put, if_neg (by omega), if_neg (by omega)]

/-- A failed write leaves the buffer as it was. -/
theorem put_fst_of_error {buf new : Bytes} {offset : Nat} {e : Failure}
    (h : (put buf offset new).2 = .error e) : (put buf offset new).1 = buf := by
  unfold put at h ⊢
  split
  · rfl
  · split
    · rfl
    · simp_all

/-- The length of a stored field, and the position behind its slot. -/
def fieldLength (buf : Bytes) (position : Nat) : FieldKind → Except Error (Nat × Nat)
  | .fixed length => .ok (length, position)
  | .varying => Varint.decode buf position

/-- Where stored fields end, counted from the first byte of the first of them. The slots are read
from `position` on; `total` bytes lie before. Of a list of slots that cannot all be read, the ends
before the first bad one are given. -/
def locate (buf : Bytes) :
    List FieldKind → (position total : Nat) → List Nat × Except Error (Nat × Nat)
  | [], position, total => ([], .ok (position, total))
  | kind :: kinds, position, total =>
    match fieldLength buf position kind with
    | .error e => ([], .error e)
    | .ok (length, next) =>
      if total + length < Numeral.word then
        let (ends, answer) := locate buf kinds next (total + length)
        ((total + length) :: ends, answer)
      else ([], .error (.damage .lengthOverflow))

end Strata.Stored
