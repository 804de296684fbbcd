import Strata.Bloom.Filter

/-!
# The size of a bloom filter

How many bits a filter for a number of keys has, and how many of them each key sets, from the
share of false positives that is put up with. The numbers are those of double-precision
arithmetic. A filter has at least 64 bits, and both numbers stop at the largest of 32 bits.
-/

namespace Strata.Bloom

/-- The bits spent on each key. -/
def bitsPerKey (rate : Float) : Float := -1.44 * rate.log2

/-- The bits of a filter. -/
def bitsFor (items : Nat) (rate : Float) : Nat :=
  max 64 (Float.ofNat items * bitsPerKey rate).ceil.toUInt32.toNat

/-- The bits each key sets. -/
def hashesFor (rate : Float) : Nat :=
  max 1 (bitsPerKey rate * Float.log 2).ceil.toUInt32.toNat

theorem bitsFor_pos (items : Nat) (rate : Float) : 0 < bitsFor items rate := by
  unfold bitsFor
  omega

theorem bitsFor_lt (items : Nat) (rate : Float) : bitsFor items rate < headerLimit := by
  have := (Float.ofNat items * bitsPerKey rate).ceil.toUInt32.toNat_lt
  simp only [bitsFor, headerLimit]
  omega

theorem hashesFor_pos (rate : Float) : 0 < hashesFor rate := by
  unfold hashesFor
  omega

theorem hashesFor_lt (rate : Float) : hashesFor rate < headerLimit := by
  have := (bitsPerKey rate * Float.log 2).ceil.toUInt32.toNat_lt
  simp only [hashesFor, headerLimit]
  omega

/-- Whether a share of false positives lies strictly between 0 and 1. -/
def validRate (rate : Float) : Bool := 0 < rate && rate < 1

namespace Filter

/-- An empty filter for a number of keys, which must not be zero, at a valid rate. -/
def sized (items : Nat) (rate : Float) : Outcome Filter :=
  if 0 < items ∧ validRate rate then
    .ok (empty (hashesFor rate) (bitsFor items rate) (hashesFor_pos rate) (hashesFor_lt rate)
      (bitsFor_pos items rate) (bitsFor_lt items rate))
  else .error .breach

/-- The filter of a list of keys, sized for them. No keys still get a filter for one. -/
def ofKeys (rate : Float) (keys : List Fingerprint) : Outcome Filter := do
  let f ← sized (max 1 keys.length) rate
  return keys.foldl insert f

end Filter

end Strata.Bloom
