import Strata.Bloom.Sizing
import Strata.Proofs.Bytes

/-!
# Bloom filters miss no key

Putting in a key sets the bits it points to and no others. So the bits of a filter tell which keys
were put in only through the bits they point to, the order of the keys does not matter, and a filter
admits every key that was ever put in. A filter is read back from its bytes as it was written, and
from no other bytes.
-/

namespace Strata.Bloom

theorem getD_setBit (words : Array UInt64) (position i : Nat) :
    (setBit words position).getD i 0 =
      if position / 64 = i ∧ i < words.size then
        words.getD i 0 ||| UInt64.ofNat (2 ^ (position % 64))
      else words.getD i 0 := by
  simp only [setBit, Array.getD_eq_getD_getElem?, Array.getElem?_modify]
  by_cases hi : position / 64 = i
  · by_cases hsize : i < words.size
    · simp [hi, hsize]
    · simp [hi, hsize]
  · simp [hi]

/-- Setting a bit of a row sets this one and leaves all others. -/
theorem hasBit_setBit_iff {words : Array UInt64} {position other : Nat}
    (h : position / 64 < words.size) : hasBit (setBit words position) other = true ↔
      hasBit words other = true ∨ other = position := by
  have hsmall : 2 ^ (position % 64) < 2 ^ 64 :=
    Nat.pow_lt_pow_right (by decide) (Nat.mod_lt _ (by decide))
  unfold hasBit
  rw [getD_setBit]
  by_cases hword : position / 64 = other / 64
  · rw [if_pos ⟨hword, by omega⟩, UInt64.toNat_or, Nat.testBit_or, UInt64.toNat_ofNat',
      Nat.mod_eq_of_lt hsmall, Nat.testBit_two_pow, Bool.or_eq_true, decide_eq_true_iff]
    refine or_congr_right ?_
    omega
  · rw [if_neg (by omega), iff_self_or]
    rintro rfl
    contradiction

/-- A row of words is known by its bits. -/
theorem eq_of_hasBit_eq {words others : Array UInt64} (hsize : words.size = others.size)
    (h : ∀ p, hasBit words p = hasBit others p) : words = others := by
  apply Array.ext hsize
  intro i hi hi'
  apply UInt64.toNat.inj
  apply Nat.eq_of_testBit_eq
  intro j
  by_cases hj : j < 64
  · have hdiv : (64 * i + j) / 64 = i := by omega
    have hmod : (64 * i + j) % 64 = j := by omega
    have hbit := h (64 * i + j)
    simpa [hasBit, hdiv, hmod, hi, hi'] using hbit
  · have hword : ∀ word : UInt64, word.toNat.testBit j = false := fun word =>
      Nat.testBit_lt_two_pow (Nat.lt_of_lt_of_le word.toNat_lt
        (Nat.pow_le_pow_right (by decide) (by omega)))
    rw [hword, hword]

namespace Filter

theorem admits_iff {f : Filter} {key : Fingerprint} :
    f.admits key = true ↔ ∀ i < f.hashes, hasBit f.words (f.position key i) = true := by
  simp [admits, holdsFrom_eq_true_iff]

/-- Setting the bits of a key, one after the other, sets those and leaves all others. -/
theorem hasBit_fold_iff (f : Filter) (key : Fingerprint) (count p : Nat) :
    let words := Nat.fold count (fun i _ words => setBit words (f.position key i)) f.words
    words.size = f.words.size ∧
      (hasBit words p = true ↔ hasBit f.words p = true ∨ ∃ i < count, p = f.position key i) := by
  induction count with
  | zero => simp
  | succ count ih =>
    obtain ⟨hsize, hbits⟩ := ih
    simp only [Nat.fold_succ]
    refine ⟨by rw [size_setBit, hsize], ?_⟩
    rw [hasBit_setBit_iff (hsize ▸ f.position_div_lt key count), hbits, or_assoc]
    simp only [Nat.lt_succ_iff_lt_or_eq, or_and_right, exists_or, exists_eq_left]

theorem hasBit_insert_iff (f : Filter) (key : Fingerprint) (p : Nat) :
    hasBit (f.insert key).words p = true ↔
      hasBit f.words p = true ∨ ∃ i < f.hashes, p = f.position key i :=
  (hasBit_fold_iff f key f.hashes p).2

@[simp] theorem position_insert (f : Filter) (key other : Fingerprint) (i : Nat) :
    (f.insert key).position other i = f.position other i := rfl

section Foldl

variable (f : Filter) (keys : List Fingerprint)

@[simp] theorem hashes_foldl : (keys.foldl insert f).hashes = f.hashes := by
  induction keys generalizing f with
  | nil => rfl
  | cons key rest ih => rw [List.foldl_cons, ih, hashes_insert]

@[simp] theorem bits_foldl : (keys.foldl insert f).bits = f.bits := by
  induction keys generalizing f with
  | nil => rfl
  | cons key rest ih => rw [List.foldl_cons, ih, bits_insert]

/-- Keys put in one after the other set the bits that any of them points to. -/
theorem hasBit_foldl_iff (p : Nat) : hasBit (keys.foldl insert f).words p = true ↔
    hasBit f.words p = true ∨ ∃ key ∈ keys, ∃ i < f.hashes, p = f.position key i := by
  induction keys generalizing f with
  | nil => simp
  | cons key rest ih =>
    rw [List.foldl_cons, ih, hasBit_insert_iff, or_assoc]
    simp

/-- It does not matter in which order keys are put in, nor how often. -/
theorem foldl_congr {others : List Fingerprint} (h : ∀ key, key ∈ others ↔ key ∈ keys) :
    others.foldl insert f = keys.foldl insert f := by
  have hwords : (others.foldl insert f).words = (keys.foldl insert f).words := by
    apply eq_of_hasBit_eq
    · simp only [size_words, bits_foldl]
    · intro p
      rw [Bool.eq_iff_iff, hasBit_foldl_iff, hasBit_foldl_iff]
      simp only [h]
  have hhashes := (hashes_foldl f others).trans (hashes_foldl f keys).symm
  have hbits := (bits_foldl f others).trans (bits_foldl f keys).symm
  generalize others.foldl insert f = g at *
  generalize keys.foldl insert f = g' at *
  cases g
  cases g'
  simp only [Filter.mk.injEq]
  exact ⟨hhashes, hbits, hwords⟩

/-- A filter admits every key that was put in. -/
theorem admits_foldl {key : Fingerprint} (hkey : key ∈ keys) :
    (keys.foldl insert f).admits key = true := by
  rw [admits_iff]
  intro i hi
  rw [hasBit_foldl_iff]
  rw [hashes_foldl] at hi
  refine .inr ⟨key, hkey, i, hi, ?_⟩
  rw [position, position, bits_foldl]

end Foldl

/-- The bits of a filter are just those that keys point to by double hashing. -/
def Marks (f : Filter) (keys : List Fingerprint) : Prop :=
  ∀ p, hasBit f.words p = true ↔ ∃ key ∈ keys, ∃ i < f.hashes,
    p = (key.low.toNat + i * key.high.toNat) % 2 ^ 64 % f.bits

/-- Numbers of hashes and halves of fingerprints wrap around at 2 ^ 64. -/
theorem position_eq (f : Filter) (key : Fingerprint) (i : Nat) :
    f.position key i = (key.low.toNat + i * key.high.toNat) % 2 ^ 64 % f.bits := by
  rw [position, UInt64.toNat_add, UInt64.toNat_mul, UInt64.toNat_ofNat', Nat.add_mod_mod,
    ← Nat.add_mod_mod, Nat.mod_mul_mod, Nat.add_mod_mod]

theorem hasBit_empty {hashes bits : Nat} {h₁ h₂ h₃ h₄} (p : Nat) :
    hasBit (empty hashes bits h₁ h₂ h₃ h₄).words p = false := by
  simp only [hasBit, empty, Array.getD_eq_getD_getElem?, Array.getElem?_replicate]
  split <;> simp

/-- The bits of a filter that was empty are those of the keys put in. -/
theorem marks_foldl {f : Filter} (hempty : ∀ p, hasBit f.words p = false)
    (keys : List Fingerprint) : (keys.foldl insert f).Marks keys := by
  intro p
  simp only [hasBit_foldl_iff, hempty, Bool.false_eq_true, false_or, position_eq, hashes_foldl,
    bits_foldl]

/-- The filter of some keys is an empty one of their number into which they are put. -/
theorem ofKeys_eq_ok_iff {rate : Float} {keys : List Fingerprint} {f : Filter} :
    ofKeys rate keys = .ok f ↔ validRate rate = true ∧
      keys.foldl insert (empty (hashesFor rate) (bitsFor (max 1 keys.length) rate)
        (hashesFor_pos rate) (hashesFor_lt rate) (bitsFor_pos _ rate) (bitsFor_lt _ rate)) = f := by
  by_cases hrate : validRate rate = true
  · rw [ofKeys, sized, if_pos ⟨by omega, hrate⟩]
    simp [hrate, bind, Except.bind, pure, Except.pure]
  · rw [ofKeys, sized, if_neg fun h => hrate h.2]
    simp [hrate, bind, Except.bind]

/-- The filter of some keys admits all of them. -/
theorem admits_ofKeys {rate : Float} {keys : List Fingerprint} {f : Filter}
    (h : ofKeys rate keys = .ok f) {key : Fingerprint} (hkey : key ∈ keys) :
    f.admits key = true := by
  obtain ⟨-, rfl⟩ := ofKeys_eq_ok_iff.1 h
  exact admits_foldl _ _ hkey

theorem length_payload (words : List UInt64) : (payload words).length = words.length * 8 := by
  induction words with
  | nil => rfl
  | cons w rest ih =>
    simp only [payload, List.flatMap_cons, List.length_append, Bytes.length_ofNat,
      List.length_cons] at ih ⊢
    omega

theorem wordsOf_payload (words : List UInt64) (rest : Bytes) :
    wordsOf words.length (payload words ++ rest) = words := by
  induction words with
  | nil => rfl
  | cons w words ih =>
    have htake : (Bytes.ofNat 8 w.toNat ++ (payload words ++ rest)).take 8 =
        Bytes.ofNat 8 w.toNat := by
      rw [List.take_append_of_le_length (by simp), List.take_of_length_le (by simp)]
    have hdrop : (Bytes.ofNat 8 w.toNat ++ (payload words ++ rest)).drop 8 =
        payload words ++ rest := by
      rw [List.drop_append_of_le_length (by simp), List.drop_of_length_le (by simp),
        List.nil_append]
    have hword : UInt64.ofNat (Bytes.toNat (Bytes.ofNat 8 w.toNat)) = w := by
      rw [Bytes.toNat_ofNat, Nat.mod_eq_of_lt (by have := w.toNat_lt; omega), UInt64.ofNat_toNat]
    have hpayload : payload (w :: words) = Bytes.ofNat 8 w.toNat ++ payload words := rfl
    rw [List.length_cons, wordsOf, hpayload, List.append_assoc, htake, hdrop, hword, ih]

theorem length_encode (f : Filter) : f.encode.length = 8 + wordCount f.bits * 8 := by
  simp only [encode, List.length_append, Bytes.length_ofNat, length_payload, Array.length_toList,
    f.size_words]

theorem length_encode_lt (f : Filter) : f.encode.length < 2 ^ 30 := by
  have := f.bits_lt
  simp only [length_encode, wordCount, headerLimit] at *
  omega

/-- Keys have a filter at every valid rate. -/
theorem exists_ofKeys {rate : Float} (hrate : validRate rate = true) (keys : List Fingerprint) :
    ∃ f, ofKeys rate keys = .ok f := by
  rw [ofKeys, sized, if_pos ⟨by omega, hrate⟩]
  exact ⟨_, rfl⟩

/-- A filter is read back from its bytes. -/
theorem decode_encode (f : Filter) : decode f.encode = .ok f := by
  have hwhole : f.encode =
      [] ++ Bytes.ofNat 4 f.hashes ++ (Bytes.ofNat 4 f.bits ++ payload f.words.toList) := by
    simp [encode]
  have hhashes : Bytes.natAt f.encode 0 4 = f.hashes := Bytes.natAt_eq _ _ hwhole rfl f.hashes_lt
  have hbits : Bytes.natAt f.encode 4 4 = f.bits := Bytes.natAt_eq _ _ rfl (by simp) f.bits_lt
  have hdrop : f.encode.drop 8 = payload f.words.toList := by
    rw [encode, List.drop_append_of_le_length (by simp), List.drop_of_length_le (by simp),
      List.nil_append]
  have hlength : f.encode.length = 8 + wordCount f.bits * 8 := length_encode f
  have hcount : f.words.toList.length = wordCount f.bits := by
    rw [Array.length_toList, f.size_words]
  have hwords := wordsOf_payload f.words.toList []
  rw [List.append_nil, hcount] at hwords
  unfold decode
  rw [if_neg (by omega)]
  simp only [hhashes, hbits, hdrop, length_payload, hcount, hwords]
  rw [dif_pos ⟨⟨f.hashes_pos, f.hashes_lt⟩, ⟨f.bits_pos, f.bits_lt⟩, trivial⟩]

/-- Whole words are written as the bytes they were read from. -/
theorem payload_wordsOf {count : Nat} {bs : Bytes} (h : bs.length = count * 8) :
    payload (wordsOf count bs) = bs := by
  induction count generalizing bs with
  | zero =>
    obtain rfl := List.eq_nil_of_length_eq_zero (h.trans (Nat.zero_mul 8))
    rfl
  | succ count ih =>
    have htake : (bs.take 8).length = 8 := by
      rw [List.length_take]
      omega
    have hdrop : (bs.drop 8).length = count * 8 := by
      rw [List.length_drop]
      omega
    have hlt := Bytes.toNat_lt (bs.take 8)
    have hbytes := Bytes.ofNat_toNat (bs.take 8)
    rw [htake] at hlt hbytes
    have hword : (UInt64.ofNat (Bytes.toNat (bs.take 8))).toNat = Bytes.toNat (bs.take 8) := by
      rw [UInt64.toNat_ofNat']
      exact Nat.mod_eq_of_lt hlt
    have hrest := ih hdrop
    rw [payload] at hrest ⊢
    rw [wordsOf, List.flatMap_cons, hword, hbytes, hrest, List.take_append_drop]

/-- A filter is read from the bytes that are written of it, and from no others. -/
theorem decode_eq_ok_iff {data : Bytes} {f : Filter} : decode data = .ok f ↔ data = f.encode := by
  constructor
  · intro h
    rw [decode] at h
    split at h
    · contradiction
    · rename_i hlength
      simp only at h
      split at h
      · rename_i hheader
        obtain rfl := Except.ok.inj h
        simp only [encode]
        rw [Bytes.ofNat_natAt (by omega), Bytes.ofNat_natAt (by omega),
          Bytes.slice_append_slice rfl, payload_wordsOf hheader.2.2]
        exact (List.take_append_drop 8 data).symm
      · contradiction
  · rintro rfl
    exact decode_encode f

/-- Bytes are read as a filter just where both numbers of the header are there and not zero, and as
many whole words follow as hold the bits. -/
theorem exists_decode_iff {data : Bytes} : (∃ f, decode data = .ok f) ↔
    ∃ (hashes bits : Nat) (rest : Bytes), (0 < hashes ∧ hashes < 2 ^ 32) ∧
      (0 < bits ∧ bits < 2 ^ 32) ∧ data = Bytes.ofNat 4 hashes ++ Bytes.ofNat 4 bits ++ rest ∧
      rest.length = 8 * ((bits + 63) / 64) := by
  constructor
  · rintro ⟨f, h⟩
    refine ⟨f.hashes, f.bits, payload f.words.toList, ⟨f.hashes_pos, f.hashes_lt⟩,
      ⟨f.bits_pos, f.bits_lt⟩, decode_eq_ok_iff.1 h, ?_⟩
    rw [length_payload, Array.length_toList, f.size_words, wordCount, Nat.mul_comm]
  · rintro ⟨hashes, bits, rest, hhashes, hbits, rfl, hrest⟩
    let f : Filter := {
      hashes, bits
      words := (wordsOf (wordCount bits) rest).toArray
      hashes_pos := hhashes.1
      hashes_lt := hhashes.2
      bits_pos := hbits.1
      bits_lt := hbits.2
      size_words := by simp }
    refine ⟨f, decode_eq_ok_iff.2 ?_⟩
    simp only [f, encode]
    rw [payload_wordsOf (by rw [hrest, wordCount, Nat.mul_comm])]

/-- A filter looks at words that it has. -/
theorem admits_iff_getElem? {f : Filter} {key : Fingerprint} :
    f.admits key = true ↔ ∀ i < f.hashes, ∃ word,
      f.words[f.position key i / 64]? = some word ∧
        word.toNat.testBit (f.position key i % 64) = true := by
  rw [admits_iff]
  refine forall₂_congr fun i _ => ?_
  have hinside := f.position_div_lt key i
  simp [hasBit, hinside]

/-- Bytes are read as a filter just where a header of two numbers, neither of them zero, is followed
by the words for its bits. The filter is written as these bytes again, and every bit a key points to
lies in its words. -/
theorem decode_exact :
    (∀ data : Bytes, (∃ f, decode data = .ok f) ↔
      ∃ (hashes bits : Nat) (rest : Bytes), (0 < hashes ∧ hashes < 2 ^ 32) ∧
        (0 < bits ∧ bits < 2 ^ 32) ∧ data = Bytes.ofNat 4 hashes ++ Bytes.ofNat 4 bits ++ rest ∧
        rest.length = 8 * ((bits + 63) / 64)) ∧
    (∀ data f, decode data = .ok f → f.encode = data ∧
      ∀ key, (∀ i < f.hashes, f.position key i / 64 < f.words.size) ∧
        (f.admits key = true ↔ ∀ i < f.hashes, ∃ word,
          f.words[f.position key i / 64]? = some word ∧
            word.toNat.testBit (f.position key i % 64) = true)) ∧
    ∀ f : Filter, decode f.encode = .ok f := by
  refine ⟨fun data => exists_decode_iff, fun data f h => ⟨?_, fun key => ⟨?_, ?_⟩⟩, decode_encode⟩
  · exact (decode_eq_ok_iff.1 h).symm
  · exact fun i _ => f.position_div_lt key i
  · exact admits_iff_getElem?

/-- A filter of one bit whose word has all bits set is read from sixteen bytes and written as them
again; it is not read from the same bytes and one more. -/
theorem decode_one_bit :
    let data := Bytes.ofNat 4 3 ++ Bytes.ofNat 4 1 ++ List.replicate 8 255
    (∃ f, decode data = .ok f ∧ f.encode = data ∧ decode f.encode = .ok f) ∧
      ¬ ∃ f, decode (data ++ [0]) = .ok f := by
  intro data
  constructor
  · obtain ⟨f, hread⟩ := (decode_exact.1 data).2
      ⟨3, 1, List.replicate 8 255, by decide, by decide, rfl, by decide⟩
    exact ⟨f, hread, (decode_exact.2.1 data f hread).1, decode_exact.2.2 f⟩
  · rintro ⟨f, hread⟩
    obtain ⟨hashes, bits, rest, -, hbits, hcut, hrest⟩ := (decode_exact.1 _).1 ⟨f, hread⟩
    have hlength := congrArg List.length hcut
    simp [data] at hlength
    omega

end Filter

end Strata.Bloom
