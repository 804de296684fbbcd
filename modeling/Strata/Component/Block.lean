import Strata.Codec
import Strata.Digest.Crc32

/-!
# Data blocks

A block holds stored tuples, the offset of each, their number, and a checksum over all of that.
A block is drafted tuple by tuple up to a capacity, which only the first tuple may exceed. A
tuple the codec rejects leaves the bytes reserved for it behind, as zeros.
-/

namespace Strata

/-- The bytes of an offset, of the number of tuples, and of the checksum. -/
def Block.numberSize : Nat := 4

/-- The bytes of a block besides tuples and offsets. -/
def Block.trailerSize : Nat := 8

/-- A block in the making. -/
structure Draft where
  codec : Codec
  /-- The size the finished block should not exceed. -/
  capacity : Nat
  data : Bytes := []
  offsets : List Nat := []
deriving Repr

namespace Draft

/-- A block before its first tuple. Room for its whole capacity is set aside at once. -/
def start (codec : Codec) (capacity : Nat) : Outcome Draft :=
  if capacity < Bytes.limit then .ok { codec, capacity } else .error .breach

/-- Whether no tuple has been accepted. -/
def isEmpty (d : Draft) : Bool := d.offsets.isEmpty

/-- The number of tuples accepted. -/
def length (d : Draft) : Nat := d.offsets.length

/-- The size of the finished block. -/
def size (d : Draft) : Nat :=
  d.data.length + d.offsets.length * Block.numberSize + Block.trailerSize

/-- Add a tuple. The answer is false where it does not fit and the block is not empty. -/
def add (d : Draft) (tuple : Tuple) : Draft × Outcome Bool :=
  match d.codec.required tuple with
  | .error e => (d, .error e)
  | .ok needed =>
    let start := d.data.length
    if !d.isEmpty && d.capacity < d.size + needed + Block.numberSize then (d, .ok false)
    else if 2 ^ 32 ≤ start then (d, .error (.error (.damage .blockTooLarge)))
    else
      match d.codec.write tuple (d.data ++ Bytes.zeros needed) start with
      | (data, .error e) => ({ d with data }, .error e)
      | (data, .ok written) =>
        ({ d with data := data.take (start + written), offsets := d.offsets ++ [start] },
          .ok true)

/-- The block without its checksum. -/
def body (d : Draft) : Bytes :=
  d.data ++ d.offsets.flatMap (Bytes.ofNat Block.numberSize) ++
    Bytes.ofNat Block.numberSize d.offsets.length

/-- The finished block. -/
def build (d : Draft) : Bytes :=
  d.body ++ Bytes.ofNat Block.numberSize (Crc32.checksum d.body).toNat

end Draft

/-- A block that was read. -/
structure Block where
  data : Bytes
  offsets : List Nat
deriving DecidableEq, Repr

namespace Block

/-- The number of tuples. -/
def length (b : Block) : Nat := b.offsets.length

/-- The offsets of `count` tuples, written from `start` on. -/
def offsetsAt (raw : Bytes) (start count : Nat) : List Nat :=
  (List.range count).map fun i => Bytes.natAt raw (start + i * numberSize) numberSize

/-- Read a block. -/
def decode (raw : Bytes) : Except Error Block :=
  if raw.length < trailerSize then .error (.damage .blockTooShort)
  else
    let bodySize := raw.length - numberSize
    let stored := Bytes.natAt raw bodySize numberSize
    let computed := (Crc32.checksum (raw.take bodySize)).toNat
    if stored ≠ computed then .error (.damage (.blockChecksum stored computed))
    else
      let counted := bodySize - numberSize
      let count := Bytes.natAt raw counted numberSize
      if counted < count * numberSize then .error (.damage (.blockCount count))
      else
        let dataSize := counted - count * numberSize
        let offsets := offsetsAt raw dataSize count
        if offsets.any (dataSize < ·) then .error (.damage .tupleOffset)
        else .ok ⟨raw.take dataSize, offsets⟩

/-- All tuples of a block, in order. -/
def tuples (b : Block) (codec : Codec) : Outcome (List Tuple) :=
  b.offsets.mapM (codec.read b.data)

end Block

end Strata
