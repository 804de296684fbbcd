import Strata.Bytes

/-!
# CRC-32

The cyclic redundancy check of the IEEE 802.3 polynomial, bits taken least significant first,
remainder complemented at both ends. One `shift` of the remainder takes in one bit.
-/

namespace Strata.Crc32

/-- The polynomial, least significant bit first. -/
def polynomial : UInt32 := 0xEDB88320

/-- Divide out one bit. -/
def shift (remainder : UInt32) : UInt32 :=
  if remainder &&& 1 = 1 then (remainder >>> 1) ^^^ polynomial else remainder >>> 1

/-- Divide out several bits. -/
def shifts : (count : Nat) → UInt32 → UInt32
  | 0, remainder => remainder
  | count + 1, remainder => shifts count (shift remainder)

/-- Take in one byte. -/
def absorb (remainder : UInt32) (b : UInt8) : UInt32 :=
  shifts 8 (remainder ^^^ b.toUInt32)

/-- The checksum of a byte string. -/
def checksum (bs : Bytes) : UInt32 :=
  ~~~ bs.foldl absorb 0xFFFFFFFF

end Strata.Crc32
