import Strata.Bytes
import Strata.Error

/-!
# Numbers of varying length

A number is written in groups of seven bits, the most significant first; every byte but the last
carries the continuation bit. `encode` writes the fewest groups. `decode` reads any number of
leading zero groups, up to ten groups in all, and refuses values of more than 64 bits.
-/

namespace Strata.Varint

/-- The groups above the last one, each with the continuation bit. -/
def leading (n : Nat) : Bytes :=
  if _h : n = 0 then [] else leading (n / 128) ++ [UInt8.ofNat (128 + n % 128)]
termination_by n
decreasing_by omega

/-- The encoding of a number. -/
def encode (n : Nat) : Bytes :=
  leading (n / 128) ++ [UInt8.ofNat (n % 128)]

/-- The number of bytes of an encoding. -/
def size (n : Nat) : Nat :=
  if n < 128 then 1 else size (n / 128) + 1
termination_by n
decreasing_by omega

theorem length_leading (n : Nat) : (leading n).length + 1 = size n + if n = 0 then 0 else 1 := by
  fun_induction leading n with
  | case1 => simp [size]
  | case2 n h ih =>
    rw [size, List.length_append, List.length_singleton, ih, if_neg h]
    by_cases hn : n < 128
    · have : n / 128 = 0 := by omega
      simp [hn, this, size]
    · have : n / 128 ≠ 0 := by omega
      rw [if_neg hn, if_neg this]

@[simp] theorem length_encode (n : Nat) : (encode n).length = size n := by
  have h := length_leading (n / 128)
  rw [size]
  by_cases hn : n < 128
  · have : n / 128 = 0 := by omega
    simp [encode, leading, this, hn]
  · have : n / 128 ≠ 0 := by omega
    rw [if_neg hn]
    simpa [encode, this] using h

theorem size_pos (n : Nat) : 0 < size n := by
  rw [size]
  split <;> omega

/-- The most groups a number of 64 bits takes. -/
def maxSize : Nat := 10

/-- Read groups behind `count` groups already read, whose value is `value`. `position` is that of
the first group. -/
def decodeGroups (position : Nat) :
    (count value : Nat) → Bytes → Except Error (Nat × Nat)
  | count, _, [] => .error (.damage (.varintTruncated (position + count)))
  | count, value, b :: rest =>
    if count ≥ maxSize ∨ value ≥ 2 ^ 57 then
      .error (.damage (.varintOverflow position))
    else if b.toNat < 128 then
      .ok (value * 128 + b.toNat, position + count + 1)
    else
      decodeGroups position (count + 1) (value * 128 + (b.toNat - 128)) rest

/-- The number encoded in `buf` at `position`, and the position behind it. -/
def decode (buf : Bytes) (position : Nat) : Except Error (Nat × Nat) :=
  decodeGroups position 0 0 (buf.drop position)

theorem length_leading_le {n k : Nat} (h : n < 128 ^ k) : (leading n).length ≤ k := by
  induction k generalizing n with
  | zero =>
    obtain rfl : n = 0 := by simpa using h
    simp [leading]
  | succ k ih =>
    rw [leading]
    split
    · simp
    · have := ih (n := n / 128) (Nat.div_lt_of_lt_mul (by rwa [Nat.pow_succ'] at h))
      simpa using this

/-- The groups above the last one are read for what they stand for. -/
theorem decodeGroups_leading {n : Nat} (h : n < 2 ^ 57) (position : Nat) (rest : Bytes) :
    decodeGroups position 0 0 (leading n ++ rest) =
      decodeGroups position (leading n).length n rest := by
  fun_induction leading n generalizing rest with
  | case1 => rfl
  | case2 n hn ih =>
    have hlength : (leading (n / 128)).length ≤ 8 := length_leading_le (by omega)
    have hbyte : (UInt8.ofNat (128 + n % 128)).toNat = 128 + n % 128 := by
      rw [UInt8.toNat_ofNat']
      omega
    have hvalue : n / 128 * 128 + (128 + n % 128 - 128) = n := by omega
    rw [List.append_assoc, ih (by omega), List.singleton_append, decodeGroups, hbyte,
      if_neg (by simp only [maxSize]; omega), if_neg (by omega), hvalue]
    simp

/-- Reading gives back what was written, whatever bytes surround it. -/
theorem decode_encode {n : Nat} (h : n < Numeral.word) (before after : Bytes) :
    decode (before ++ encode n ++ after) before.length = .ok (n, before.length + size n) := by
  simp only [Numeral.word] at h
  have hfew : (leading (n / 128)).length ≤ 9 := length_leading_le (by omega)
  have hbyte : (UInt8.ofNat (n % 128)).toNat = n % 128 := by
    rw [UInt8.toNat_ofNat']
    omega
  have hvalue : n / 128 * 128 + n % 128 = n := by omega
  have hsize : (leading (n / 128)).length + 1 = size n := by
    rw [← length_encode, encode, List.length_append, List.length_singleton]
  rw [decode, List.append_assoc, List.drop_left, encode, List.append_assoc,
    decodeGroups_leading (by omega), List.singleton_append, decodeGroups, hbyte,
    if_neg (by simp only [maxSize]; omega), if_pos (by omega), hvalue, Nat.add_assoc, hsize]

/-- Write a number into a buffer, and give the position behind it. The caller leaves room. -/
def write (n : Nat) (buf : Bytes) (position : Nat) : Outcome (Bytes × Nat) :=
  if position + size n ≤ buf.length then
    .ok (Bytes.overwrite buf position (encode n), position + size n)
  else .error .breach

end Strata.Varint
