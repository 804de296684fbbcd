import Strata.Numeral

/-!
# Byte strings

Byte strings are lists of bytes, so that lengths, cuts and concatenations are those of the list
library. This module adds little-endian numbers of a fixed width and the two ways a buffer is
touched: reading a stretch and overwriting one.
-/

namespace Strata

/-- A byte string. -/
abbrev Bytes := List UInt8

namespace Bytes

/-- Byte strings that room is set aside for are shorter than this. -/
def limit : Nat := 2 ^ 63

/-- The `width` low-order bytes of `n`, least significant first. -/
def ofNat : (width : Nat) → (n : Nat) → Bytes
  | 0, _ => []
  | width + 1, n => UInt8.ofNat n :: ofNat width (n / 256)

/-- The number a little-endian byte string stands for. -/
def toNat : Bytes → Nat
  | [] => 0
  | b :: rest => b.toNat + 256 * toNat rest

@[simp] theorem length_ofNat (width n : Nat) : (ofNat width n).length = width := by
  induction width generalizing n with
  | zero => rfl
  | succ width ih => simp [ofNat, ih]

/-- Writing keeps a number up to the width written. -/
theorem toNat_ofNat (width n : Nat) : toNat (ofNat width n) = n % 256 ^ width := by
  induction width generalizing n with
  | zero => simp [ofNat, toNat, Nat.mod_one]
  | succ width ih =>
    have h : n % 256 ^ (width + 1) = n % 256 + 256 * (n / 256 % 256 ^ width) := by
      rw [Nat.pow_succ', Nat.mod_mul]
    rw [h, ofNat, toNat, ih, UInt8.toNat_ofNat']

theorem toNat_lt (bs : Bytes) : toNat bs < 256 ^ bs.length := by
  induction bs with
  | nil => simp [toNat]
  | cons b rest ih =>
    have hb := b.toNat_lt
    simp only [toNat, List.length_cons, Nat.pow_succ']
    omega

/-- The `length` bytes of `buf` from `start` on, fewer where `buf` ends. -/
def slice (buf : Bytes) (start length : Nat) : Bytes :=
  (buf.drop start).take length

@[simp] theorem length_slice (buf : Bytes) (start length : Nat) :
    (slice buf start length).length = min length (buf.length - start) := by
  simp [slice]

@[simp] theorem slice_append (before middle after : Bytes) :
    slice (before ++ middle ++ after) before.length middle.length = middle := by
  simp [slice, List.append_assoc]

/-- The little-endian number in the `width` bytes of `buf` from `start` on. -/
def natAt (buf : Bytes) (start width : Nat) : Nat :=
  toNat (slice buf start width)

/-- A number is read back where it was put, whatever bytes surround it. -/
theorem natAt_append (before after : Bytes) (width n : Nat) :
    natAt (before ++ ofNat width n ++ after) before.length width = n % 256 ^ width := by
  have h := slice_append before (ofNat width n) after
  rw [length_ofNat] at h
  rw [natAt, h, toNat_ofNat]

/-- `buf` with `new` written over it from `start` on. -/
def overwrite (buf : Bytes) (start : Nat) (new : Bytes) : Bytes :=
  buf.take start ++ new ++ buf.drop (start + new.length)

theorem length_overwrite {buf new : Bytes} {start : Nat} (h : start + new.length ≤ buf.length) :
    (overwrite buf start new).length = buf.length := by
  simp only [overwrite, List.length_append, List.length_take, List.length_drop]
  omega

/-- `count` zero bytes. -/
def zeros (count : Nat) : Bytes := List.replicate count 0

@[simp] theorem length_zeros (count : Nat) : (zeros count).length = count := by
  simp [zeros]

end Bytes

end Strata
