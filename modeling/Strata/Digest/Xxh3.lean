import Strata.Bytes

/-!
# The 128-bit XXH3 digest

The digest of a byte string, without a seed and with the standard secret. Strings of up to 16
bytes, of up to 128, of up to 240 and longer ones are mixed in ways of their own. All arithmetic
is on 64-bit words and wraps.
-/

namespace Strata

/-- The two halves of a 128-bit digest. -/
structure Fingerprint where
  low : UInt64
  high : UInt64
deriving DecidableEq, Repr

namespace Xxh3

/-- The standard secret, as words. -/
def secretWords : List Nat := [
  0xbe4ba423396cfeb8, 0x1cad21f72c81017c, 0xdb979083e96dd4de, 0x1f67b3b7a4a44072,
  0x78e5c0cc4ee679cb, 0x2172ffcc7dd05a82, 0x8e2443f7744608b8, 0x4c263a81e69035e0,
  0xcb00c391bb52283c, 0xa32e531b8b65d088, 0x4ef90da297486471, 0xd8acdea946ef1938,
  0x3f349ce33f76faa8, 0x1d4f0bc7c7bbdcf9, 0x3159b4cd4be0518a, 0x647378d9c97e9fc8,
  0xc3ebd33483acc5ea, 0xeb6313faffa081c5, 0x49daf0b751dd0d17, 0x9e68d429265516d3,
  0xfca1477d58be162b, 0xce31d07ad1b8f88f, 0x280416958f3acb45, 0x7e404bbbcafbd7af]

/-- The standard secret. -/
def secret : Bytes := secretWords.flatMap (Bytes.ofNat 8)

/-! ### Words -/

/-- The 64-bit word of `bs` at `start`. -/
def word (bs : Bytes) (start : Nat) : UInt64 := UInt64.ofNat (Bytes.natAt bs start 8)

/-- The 32-bit word of `bs` at `start`. -/
def halfWord (bs : Bytes) (start : Nat) : UInt64 := UInt64.ofNat (Bytes.natAt bs start 4)

/-- The low 32 bits of a word. -/
def lowHalf (x : UInt64) : UInt64 := x &&& 0xFFFFFFFF

/-- The `width` low bytes of a word in reverse order. -/
def reversed (width : Nat) (x : UInt64) : UInt64 :=
  UInt64.ofNat (Bytes.toNat (Bytes.ofNat width x.toNat).reverse)

/-- The low 32 bits of a word, turned left by 13. -/
def turned (x : UInt64) : UInt64 := lowHalf ((x <<< 13) ||| (x >>> 19))

/-- The whole product of two words. -/
def product (x y : UInt64) : Fingerprint :=
  let p := x.toNat * y.toNat
  ⟨UInt64.ofNat p, UInt64.ofNat (p / 2 ^ 64)⟩

/-- The exclusive or of the two halves of a product. -/
def folded (x y : UInt64) : UInt64 :=
  let p := product x y
  p.low ^^^ p.high

/-! ### Multipliers

Odd numbers, most of them prime, whose bits look random. Products with them carry every bit of a
word into the bits above it.
-/

/-- A prime of 32 bits, as the next two. -/
def halfPrime1 : UInt64 := 0x9E3779B1
def halfPrime2 : UInt64 := 0x85EBCA77
def halfPrime3 : UInt64 := 0xC2B2AE3D
/-- A prime of 64 bits, as the next four. -/
def prime1 : UInt64 := 0x9E3779B185EBCA87
def prime2 : UInt64 := 0xC2B2AE3D27D4EB4F
def prime3 : UInt64 := 0x165667B19E3779F9
def prime4 : UInt64 := 0x85EBCA77C2B2AE63
def prime5 : UInt64 := 0x27D4EB2F165667C5
/-- The multiplier that ends most digests. -/
def mixer1 : UInt64 := 0x165667919E3779F9
/-- The multiplier for strings of 4 to 8 bytes. -/
def mixer2 : UInt64 := 0x9FB21C651E98DF25

/-! ### Spreading -/

/-- Spread the bits of a word. -/
def avalanche (x : UInt64) : UInt64 :=
  let x := (x ^^^ (x >>> 37)) * mixer1
  x ^^^ (x >>> 32)

/-- Spread the bits of a word, for the shortest strings. -/
def avalancheShort (x : UInt64) : UInt64 :=
  let x := (x ^^^ (x >>> 33)) * prime2
  let x := (x ^^^ (x >>> 29)) * prime3
  x ^^^ (x >>> 32)

/-! ### Up to 16 bytes -/

/-- No byte. -/
def ofEmpty : Fingerprint :=
  ⟨avalancheShort (word secret 64 ^^^ word secret 72),
    avalancheShort (word secret 80 ^^^ word secret 88)⟩

/-- From 1 to 3 bytes. -/
def ofFew (bs : Bytes) (length : Nat) : Fingerprint :=
  let byte (i : Nat) : UInt64 := (bs.getD i 0).toUInt64
  let low := byte 0 <<< 16 ||| byte (length / 2) <<< 24 ||| byte (length - 1) |||
    UInt64.ofNat length <<< 8
  let high := turned (reversed 4 low)
  ⟨avalancheShort (low ^^^ (halfWord secret 0 ^^^ halfWord secret 4)),
    avalancheShort (high ^^^ (halfWord secret 8 ^^^ halfWord secret 12))⟩

/-- From 4 to 8 bytes. -/
def ofEight (bs : Bytes) (length : Nat) : Fingerprint :=
  let keyed := (halfWord bs 0 + halfWord bs (length - 4) <<< 32) ^^^
    (word secret 16 ^^^ word secret 24)
  let m := product keyed (prime1 + UInt64.ofNat length <<< 2)
  let high := m.high + m.low <<< 1
  let low := m.low ^^^ (high >>> 3)
  let low := (low ^^^ (low >>> 35)) * mixer2
  ⟨low ^^^ (low >>> 28), avalanche high⟩

/-- From 9 to 16 bytes. -/
def ofSixteen (bs : Bytes) (length : Nat) : Fingerprint :=
  let first := word bs 0
  let last := word bs (length - 8)
  let m := product (first ^^^ last ^^^ (word secret 32 ^^^ word secret 40)) prime1
  let low := m.low + UInt64.ofNat (length - 1) <<< 54
  let last := last ^^^ (word secret 48 ^^^ word secret 56)
  let high := m.high + (last + lowHalf last * (halfPrime2 - 1))
  let low := low ^^^ reversed 8 high
  let h := product low prime2
  ⟨avalanche h.low, avalanche (h.high + high * prime2)⟩

/-! ### Up to 240 bytes -/

/-- Mix 16 bytes with 16 bytes of the secret. -/
def mix (bs : Bytes) (start key : Nat) : UInt64 :=
  folded (word bs start ^^^ word secret key) (word bs (start + 8) ^^^ word secret (key + 8))

/-- Take two stretches of 16 bytes into an accumulator. -/
def mixPair (bs : Bytes) (acc : Fingerprint) (first second key : Nat) : Fingerprint :=
  ⟨(acc.low + mix bs first key) ^^^ (word bs second + word bs (second + 8)),
    (acc.high + mix bs second (key + 16)) ^^^ (word bs first + word bs (first + 8))⟩

/-- The digest an accumulator of `length` bytes ends in. -/
def finish (acc : Fingerprint) (length : Nat) : Fingerprint :=
  ⟨avalanche (acc.low + acc.high),
    0 - avalanche (acc.low * prime1 + acc.high * prime4 + UInt64.ofNat length * prime2)⟩

/-- From 17 to 128 bytes: pairs of stretches from both ends, the inmost first. -/
def ofMiddle (bs : Bytes) (length : Nat) : Fingerprint :=
  let pairs := (List.range ((length - 1) / 32 + 1)).reverse
  let acc := pairs.foldl
    (fun acc i => mixPair bs acc (16 * i) (length - 16 * (i + 1)) (32 * i))
    ⟨UInt64.ofNat length * prime1, 0⟩
  finish acc length

/-- From 129 to 240 bytes: pairs of neighbouring stretches, and the last two. -/
def ofLong (bs : Bytes) (length : Nat) : Fingerprint :=
  let pair (shift : Nat) (acc : Fingerprint) (i : Nat) :=
    mixPair bs acc (32 * i) (32 * i + 16) (32 * i - shift)
  let acc := (List.range 4).foldl (pair 0) ⟨UInt64.ofNat length * prime1, 0⟩
  let acc : Fingerprint := ⟨avalanche acc.low, avalanche acc.high⟩
  let acc := ((List.range (length / 32)).drop 4).foldl (pair 125) acc
  finish (mixPair bs acc (length - 16) (length - 32) 103) length

/-! ### Longer strings -/

/-- The bytes taken in at a time. -/
def stripe : Nat := 64

/-- The stripes between two scramblings. -/
def stripesPerBlock : Nat := 16

/-- The eight accumulators at the start. -/
def start : List UInt64 :=
  [halfPrime3, prime1, prime2, prime3, prime4, halfPrime2, prime5, halfPrime1]

/-- Take in the stripe at the head of `bs`. Each word also goes into the neighbour of its own
accumulator. -/
def accumulate (acc : List UInt64) (bs : Bytes) (key : Nat) : List UInt64 :=
  acc.zipIdx.map fun (a, i) =>
    let keyed := word bs (8 * i) ^^^ word secret (key + 8 * i)
    let neighbour := if i % 2 = 0 then i + 1 else i - 1
    a + word bs (8 * neighbour) + lowHalf keyed * (keyed >>> 32)

/-- Mix the accumulators with the end of the secret. -/
def scramble (acc : List UInt64) : List UInt64 :=
  acc.zipIdx.map fun (a, i) =>
    ((a ^^^ (a >>> 47)) ^^^ word secret (128 + 8 * i)) * halfPrime1

/-- Take in `count` stripes, the first of them being number `index` of all; scramble after every
full block. -/
def accumulateStripes : (count index : Nat) → List UInt64 → Bytes → List UInt64
  | 0, _, acc, _ => acc
  | count + 1, index, acc, bs =>
    let acc := accumulate acc bs (8 * (index % stripesPerBlock))
    let acc := if index % stripesPerBlock = stripesPerBlock - 1 then scramble acc else acc
    accumulateStripes count (index + 1) acc (bs.drop stripe)

/-- One half of the digest the accumulators end in. -/
def merge (acc : List UInt64) (key : Nat) (initial : UInt64) : UInt64 :=
  avalanche <| (List.range 4).foldl
    (fun sum i => sum + folded (acc.getD (2 * i) 0 ^^^ word secret (key + 16 * i))
      (acc.getD (2 * i + 1) 0 ^^^ word secret (key + 16 * i + 8))) initial

/-- More than 240 bytes. -/
def ofHuge (bs : Bytes) (length : Nat) : Fingerprint :=
  let acc := accumulateStripes ((length - 1) / stripe) 0 start bs
  let acc := accumulate acc (bs.drop (length - stripe)) 121
  ⟨merge acc 11 (UInt64.ofNat length * prime1),
    merge acc 117 (~~~ (UInt64.ofNat length * prime2))⟩

/-- The digest of a byte string. -/
def digest (bs : Bytes) : Fingerprint :=
  let length := bs.length
  if length = 0 then ofEmpty
  else if length ≤ 3 then ofFew bs length
  else if length ≤ 8 then ofEight bs length
  else if length ≤ 16 then ofSixteen bs length
  else if length ≤ 128 then ofMiddle bs length
  else if length ≤ 240 then ofLong bs length
  else ofHuge bs length

end Xxh3

end Strata
