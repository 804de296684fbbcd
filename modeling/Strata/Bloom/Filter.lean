import Strata.Error
import Strata.Digest.Xxh3

/-!
# Bloom filters

A filter is a row of bits, and a number of bits to set for each key. The bits of a key are found
by double hashing from the two halves of its fingerprint. A key whose bits are not all set was
never inserted. Filters work on fingerprints, so nothing here depends on how these are made.
-/

namespace Strata.Bloom

/-- The words that hold `bits` bits. -/
def wordCount (bits : Nat) : Nat := (bits + 63) / 64

/-- Header numbers have 32 bits. -/
def headerLimit : Nat := 2 ^ 32

/-- A filter. Its last word may have bits beyond the filter's own. -/
structure Filter where
  /-- The bits to set for each key. -/
  hashes : Nat
  bits : Nat
  words : Array UInt64
  hashes_pos : 0 < hashes
  hashes_lt : hashes < headerLimit
  bits_pos : 0 < bits
  bits_lt : bits < headerLimit
  size_words : words.size = wordCount bits
deriving DecidableEq

/-- Whether a property holds of the `count` numbers from `first` on, tried in order. -/
def holdsFrom (p : Nat → Bool) : (count first : Nat) → Bool
  | 0, _ => true
  | count + 1, first => p first && holdsFrom p count (first + 1)

theorem holdsFrom_eq_true_iff {p : Nat → Bool} {count first : Nat} :
    holdsFrom p count first = true ↔ ∀ i < count, p (first + i) = true := by
  induction count generalizing first with
  | zero => simp [holdsFrom]
  | succ count ih =>
    simp only [holdsFrom, Bool.and_eq_true, ih]
    constructor
    · rintro ⟨h0, h⟩ i hi
      cases i with
      | zero => exact h0
      | succ i =>
        have := h i (by omega)
        rwa [Nat.add_assoc, Nat.add_comm 1 i] at this
    · intro h
      refine ⟨h 0 (by omega), fun i hi => ?_⟩
      have := h (i + 1) (by omega)
      rwa [Nat.add_assoc, Nat.add_comm 1 i]

/-- Set one bit in a row of words. -/
def setBit (words : Array UInt64) (position : Nat) : Array UInt64 :=
  words.modify (position / 64) (· ||| UInt64.ofNat (2 ^ (position % 64)))

/-- Whether a bit is set in a row of words. -/
def hasBit (words : Array UInt64) (position : Nat) : Bool :=
  (words.getD (position / 64) 0).toNat.testBit (position % 64)

@[simp] theorem size_setBit (words : Array UInt64) (position : Nat) :
    (setBit words position).size = words.size := by
  simp [setBit]

namespace Filter

/-- A filter without any key. -/
def empty (hashes bits : Nat) (hashes_pos : 0 < hashes) (hashes_lt : hashes < headerLimit)
    (bits_pos : 0 < bits) (bits_lt : bits < headerLimit) : Filter where
  hashes := hashes
  bits := bits
  words := Array.replicate (wordCount bits) 0
  hashes_pos := hashes_pos
  hashes_lt := hashes_lt
  bits_pos := bits_pos
  bits_lt := bits_lt
  size_words := Array.size_replicate

/-- The bit that hash number `i` of a fingerprint points to. -/
def position (f : Filter) (key : Fingerprint) (i : Nat) : Nat :=
  (key.low + UInt64.ofNat i * key.high).toNat % f.bits

theorem position_lt (f : Filter) (key : Fingerprint) (i : Nat) : f.position key i < f.bits :=
  Nat.mod_lt _ f.bits_pos

/-- Every bit a key points to lies in one of the words. -/
theorem position_div_lt (f : Filter) (key : Fingerprint) (i : Nat) :
    f.position key i / 64 < f.words.size := by
  have := f.position_lt key i
  have := f.size_words
  simp only [wordCount] at this
  omega

/-- The words after the bits of a key are set. -/
def wordsWith (f : Filter) (key : Fingerprint) : Array UInt64 :=
  Nat.fold f.hashes (fun i _ words => setBit words (f.position key i)) f.words

theorem size_wordsWith (f : Filter) (key : Fingerprint) :
    (f.wordsWith key).size = f.words.size := by
  unfold wordsWith
  induction f.hashes with
  | zero => rfl
  | succ n ih => simp [ih]

/-- The filter with one more key. -/
def insert (f : Filter) (key : Fingerprint) : Filter :=
  { f with
    words := f.wordsWith key
    size_words := (f.size_wordsWith key).trans f.size_words }

@[simp] theorem hashes_insert (f : Filter) (key : Fingerprint) :
    (f.insert key).hashes = f.hashes := rfl

@[simp] theorem bits_insert (f : Filter) (key : Fingerprint) :
    (f.insert key).bits = f.bits := rfl

/-- Whether a key may have been inserted. -/
def admits (f : Filter) (key : Fingerprint) : Bool :=
  holdsFrom (fun i => hasBit f.words (f.position key i)) f.hashes 0

/-- The bytes of the words of a filter. -/
def payload (words : List UInt64) : Bytes :=
  words.flatMap fun word => Bytes.ofNat 8 word.toNat

/-- The bytes of a filter: both header numbers, then the words. -/
def encode (f : Filter) : Bytes :=
  Bytes.ofNat 4 f.hashes ++ Bytes.ofNat 4 f.bits ++ payload f.words.toList

/-- The first `count` words of a byte string. -/
def wordsOf : (count : Nat) → Bytes → List UInt64
  | 0, _ => []
  | count + 1, bs => UInt64.ofNat (Bytes.toNat (bs.take 8)) :: wordsOf count (bs.drop 8)

@[simp] theorem length_wordsOf (count : Nat) (bs : Bytes) :
    (wordsOf count bs).length = count := by
  induction count generalizing bs with
  | zero => rfl
  | succ count ih => simp [wordsOf, ih]

/-- Read a filter back. The words must be just those the header asks for. -/
def decode (data : Bytes) : Except Error Filter :=
  if data.length < 8 then .error (.damage .filterTooShort)
  else
    let hashes := Bytes.natAt data 0 4
    let bits := Bytes.natAt data 4 4
    let words := data.drop 8
    if h : (0 < hashes ∧ hashes < headerLimit) ∧ (0 < bits ∧ bits < headerLimit) ∧
        words.length = wordCount bits * 8 then
      .ok {
        hashes := hashes
        bits := bits
        words := (wordsOf (wordCount bits) words).toArray
        hashes_pos := h.1.1
        hashes_lt := h.1.2
        bits_pos := h.2.1.1
        bits_lt := h.2.1.2
        size_words := by simp }
    else .error (.damage (.filterSize hashes bits words.length))

end Filter

end Strata.Bloom
