import Strata.Bytes
import Strata.Error
import Strata.Component.Range

/-!
# Block index and footer

The block index has an entry for each block of a component file: the last key in it, where it
lies, and how many tuples it holds. The footer, of fixed size, closes the file: where index and
bloom filter lie, the number of tuples, the range of the component, and a number that marks the
format. All numbers are little-endian.
-/

namespace Strata

/-- An entry of the block index. -/
structure IndexEntry where
  lastKey : Bytes
  offset : Nat
  size : Nat
  tuples : Nat
deriving DecidableEq, Repr

namespace IndexEntry

/-- The bytes of an entry besides the key. -/
def fixedSize : Nat := 24

/-- The bytes of an entry. -/
def encode (e : IndexEntry) : Bytes :=
  Bytes.ofNat 4 e.lastKey.length ++ e.lastKey ++ Bytes.ofNat 8 e.offset ++ Bytes.ofNat 8 e.size ++
    Bytes.ofNat 4 e.tuples

/-- Read the entry at the head of a byte string, and give the bytes it takes. -/
def decode (data : Bytes) : Except Error (IndexEntry × Nat) :=
  let keySize := Bytes.natAt data 0 4
  if data.length < 4 ∨ data.length < keySize + fixedSize then
    .error (.damage .entryTruncated)
  else
    .ok ({
      lastKey := Bytes.slice data 4 keySize
      offset := Bytes.natAt data (4 + keySize) 8
      size := Bytes.natAt data (12 + keySize) 8
      tuples := Bytes.natAt data (20 + keySize) 4 }, keySize + fixedSize)

theorem decode_size {data : Bytes} {e : IndexEntry} {size : Nat}
    (h : decode data = .ok (e, size)) : 0 < size ∧ size ≤ data.length := by
  simp only [decode] at h
  split at h
  · contradiction
  · simp only [Except.ok.injEq, Prod.mk.injEq] at h
    simp only [fixedSize] at *
    omega

/-- Read entries up to the end of a byte string. -/
def decodeAll (data : Bytes) : Except Error (List IndexEntry) :=
  if data.isEmpty then .ok []
  else
    match _h : decode data with
    | .error e => .error e
    | .ok (entry, size) => do
      return entry :: (← decodeAll (data.drop size))
termination_by data.length
decreasing_by
  have := decode_size _h
  simp only [List.length_drop]
  omega

end IndexEntry

/-- The footer of a component file. -/
structure Footer where
  indexOffset : Nat
  indexSize : Nat
  bloomOffset : Nat
  bloomSize : Nat
  tuples : Nat
  range : Range
deriving DecidableEq, Repr

namespace Footer

/-- The bytes of a footer. -/
def size : Nat := 64

/-- The number that marks the format. -/
def magic : Nat := 0x4C534D5F434D5000

/-- The bytes of a footer. -/
def encode (f : Footer) : Bytes :=
  Bytes.ofNat 8 f.indexOffset ++ Bytes.ofNat 8 f.indexSize ++ Bytes.ofNat 8 f.bloomOffset ++
    Bytes.ofNat 8 f.bloomSize ++ Bytes.ofNat 8 f.tuples ++ Bytes.ofNat 8 f.range.min ++
    Bytes.ofNat 8 f.range.max ++ Bytes.ofNat 8 magic

@[simp] theorem length_encode (f : Footer) : f.encode.length = size := by
  simp [encode, size]

/-- Read the footer at the head of a byte string. -/
def decode (data : Bytes) : Except Error Footer :=
  let found := Bytes.natAt data 56 8
  let range : Range := ⟨Bytes.natAt data 40 8, Bytes.natAt data 48 8⟩
  if data.length < size then .error (.damage .footerTooShort)
  else if found ≠ magic then .error (.damage (.badMagic magic found))
  else if range.max < range.min then .error (.damage (.invertedRange range.min range.max))
  else
    .ok {
      indexOffset := Bytes.natAt data 0 8
      indexSize := Bytes.natAt data 8 8
      bloomOffset := Bytes.natAt data 16 8
      bloomSize := Bytes.natAt data 24 8
      tuples := Bytes.natAt data 32 8
      range := range }

/-- Whether index and bloom filter lie in this order before the footer, which is at `offset`. -/
def fits (f : Footer) (offset : Nat) : Bool :=
  f.indexOffset + f.indexSize ≤ offset && f.bloomOffset + f.bloomSize ≤ f.indexOffset

end Footer

end Strata
