import Strata.Bytes

/-!
# Parts of a buffer

What stands in a buffer between two parts is read as what it is: a stretch of bytes, or a number
that fits the width it was written with. The buffer and the place are given by equations, so that
one buffer can be cut in different ways. What is read is written again as the bytes it was read
from.
-/

namespace Strata.Bytes

theorem slice_eq {buf middle : Bytes} (before after : Bytes) {start length : Nat}
    (hbuf : buf = before ++ middle ++ after) (hstart : start = before.length)
    (hlength : length = middle.length) : slice buf start length = middle := by
  rw [hbuf, hstart, hlength, slice_append]

/-- A stretch is its first part and what stands behind that. -/
theorem slice_add (buf : Bytes) (start length more : Nat) :
    slice buf start (length + more) =
      slice buf start length ++ slice buf (start + length) more := by
  rw [slice, slice, slice, List.take_add, List.drop_drop]

/-- Two stretches of which one ends where the other begins are one. -/
theorem slice_append_slice {buf : Bytes} {start length next more : Nat}
    (h : next = start + length) :
    slice buf start length ++ slice buf next more = slice buf start (length + more) := by
  rw [slice_add, h]

theorem natAt_eq {buf : Bytes} (before after : Bytes) {start width n : Nat}
    (hbuf : buf = before ++ ofNat width n ++ after) (hstart : start = before.length)
    (hn : n < 256 ^ width) : natAt buf start width = n := by
  rw [hbuf, hstart, natAt_append, Nat.mod_eq_of_lt hn]

theorem natAt_lt (buf : Bytes) (start width : Nat) : natAt buf start width < 256 ^ width := by
  refine Nat.lt_of_lt_of_le (toNat_lt _) (Nat.pow_le_pow_right (by decide) ?_)
  rw [length_slice]
  exact Nat.min_le_left ..

/-- Bytes are written again of the number they stand for. -/
theorem ofNat_toNat (bs : Bytes) : ofNat bs.length (toNat bs) = bs := by
  induction bs with
  | nil => rfl
  | cons b rest ih =>
    have hbyte := b.toNat_lt
    have hfirst : UInt8.ofNat (b.toNat + 256 * toNat rest) = b := by
      apply UInt8.toNat.inj
      rw [UInt8.toNat_ofNat']
      omega
    have hrest : (b.toNat + 256 * toNat rest) / 256 = toNat rest := by omega
    rw [List.length_cons, toNat, ofNat, hfirst, hrest, ih]

/-- A number is written as the bytes it was read from. -/
theorem ofNat_natAt {buf : Bytes} {start width : Nat} (h : start + width ≤ buf.length) :
    ofNat width (natAt buf start width) = slice buf start width := by
  have hlength : (slice buf start width).length = width := by
    rw [length_slice]
    omega
  have hwhole := ofNat_toNat (slice buf start width)
  rwa [hlength] at hwhole

/-- Only the remainder of a number is written in a few bytes. -/
theorem ofNat_mod (width n : Nat) : ofNat width (n % 256 ^ width) = ofNat width n := by
  induction width generalizing n with
  | zero => rfl
  | succ width ih =>
    have hfirst : UInt8.ofNat (n % 256 ^ (width + 1)) = UInt8.ofNat n := by
      apply UInt8.toNat.inj
      rw [UInt8.toNat_ofNat', UInt8.toNat_ofNat', Nat.pow_succ']
      exact Nat.mod_mul_right_mod _ _ _
    have hrest : n % 256 ^ (width + 1) / 256 = n / 256 % 256 ^ width := by
      rw [Nat.pow_succ', Nat.mod_mul_right_div_self]
    rw [ofNat, ofNat, hfirst, hrest, ih]

/-- Each number of a row is read where it stands. -/
theorem natAt_flatMap {buf : Bytes} (before after : Bytes) {width i start n : Nat} {ns : List Nat}
    (hi : ns[i]? = some n) (hbuf : buf = before ++ ns.flatMap (ofNat width) ++ after)
    (hstart : start = before.length + i * width) (hn : n < 256 ^ width) :
    natAt buf start width = n := by
  obtain ⟨hlt, rfl⟩ := List.getElem?_eq_some_iff.1 hi
  have hrow : ns.flatMap (ofNat width) =
      (ns.take i).flatMap (ofNat width) ++ ofNat width ns[i] ++
        (ns.drop (i + 1)).flatMap (ofNat width) := by
    conv => lhs; rw [← List.take_append_drop i ns]
    rw [List.flatMap_append, List.append_assoc, List.drop_eq_getElem_cons hlt, List.flatMap_cons]
  have hlength : ((ns.take i).flatMap (ofNat width)).length = i * width := by
    rw [List.length_flatMap]
    simp only [length_ofNat, List.map_const', List.sum_replicate_nat, List.length_take,
      Nat.min_eq_left (Nat.le_of_lt hlt)]
  refine natAt_eq (before ++ (ns.take i).flatMap (ofNat width))
    ((ns.drop (i + 1)).flatMap (ofNat width) ++ after) ?_ ?_ hn
  · rw [hbuf, hrow]
    simp only [List.append_assoc]
  · rw [hstart, List.length_append, hlength]

end Strata.Bytes
