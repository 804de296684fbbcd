import Mathlib.Data.Nat.Bitwise
import Mathlib.Data.Nat.Digits.Defs
import Strata.Proofs.Bytes
import Strata.Proofs.Varint

/-!
# Groups as digits to the base of 128

A number is read just from what spells it: up to ten groups, all but the last with the continuation
bit, whose payloads are the digits of the number to the base of 128, and the number is one that a
word holds. Where bytes spell nothing, reading tells whether they end too early or hold too much. A
number is written in place and read back; no bytes that spell it are fewer than those written, and
none but these are as few.

Groups are read, counted and written here by arithmetic on numbers without bound. In a word they are
shifted, and its leading zero bits tell whether there is room for another one and how many it takes.
This comes to the same.
-/

namespace Strata.Varint

/-! ### What bytes spell -/

/-- The number whose digits to the base of 128 are the payloads of groups, the most significant
first. -/
def base128 (groups : Bytes) : Nat :=
  Nat.ofDigits 128 (groups.reverse.map fun b => b.toNat % 128)

/-- Bytes spell a number: groups with the continuation bit and a last one without, ten of them at
most, whose number it is, and a word holds it. -/
structure Spells (bytes : Bytes) (n : Nat) : Prop where
  groups : ∃ leading last, bytes = leading ++ [last] ∧ (∀ b ∈ leading, 128 ≤ b.toNat) ∧
    last.toNat < 128
  few : bytes.length ≤ 10
  value : base128 bytes = n
  word : n < 2 ^ 64

theorem base128_concat (groups : Bytes) (b : UInt8) :
    base128 (groups ++ [b]) = base128 groups * 128 + b.toNat % 128 := by
  simp only [base128, List.reverse_append, List.reverse_singleton, List.singleton_append,
    List.map_cons, Nat.ofDigits_cons]
  omega

/-- Groups read one after the other build up the number of their digits. -/
theorem number_zero (groups : Bytes) : number 0 groups = base128 groups := by
  induction groups using List.reverseRecOn with
  | nil => rfl
  | append_singleton groups b ih =>
    rw [base128_concat, ← ih]
    simp [number]

/-- The slots that bytes begin with are the bytes at their front that spell a number. -/
theorem slot_iff_spells {bytes : Bytes} {n size : Nat} :
    Slot 0 maxSize bytes n size ↔
      ∃ groups behind, bytes = groups ++ behind ∧ Spells groups n ∧ size = groups.length := by
  constructor
  · rintro ⟨leading, last, behind, rfl, hmore, hlast, hroom, rfl, hword, rfl⟩
    refine ⟨leading ++ [last], behind, by simp, ⟨⟨leading, last, rfl, hmore, hlast⟩, ?_, ?_, hword⟩,
      by simp⟩
    · simpa [maxSize, Nat.lt_succ_iff] using hroom
    · rw [number_zero]
  · rintro ⟨_, behind, rfl, ⟨⟨leading, last, rfl, hmore, hlast⟩, hfew, rfl, hword⟩, rfl⟩
    refine ⟨leading, last, behind, by simp, hmore, hlast, ?_, ?_, hword, by simp⟩
    · simpa [maxSize, Nat.lt_succ_iff] using hfew
    · rw [number_zero]

/-- A number is read just where bytes spell it. -/
theorem decode_eq_ok_iff_spells {buf : Bytes} {position n next : Nat} :
    decode buf position = .ok (n, next) ↔
      ∃ groups behind, buf.drop position = groups ++ behind ∧ Spells groups n ∧
        next = position + groups.length := by
  rw [decode_eq_ok_iff]
  constructor
  · rintro ⟨size, rfl, hslot⟩
    obtain ⟨groups, behind, hbytes, hspells, rfl⟩ := slot_iff_spells.1 hslot
    exact ⟨groups, behind, hbytes, hspells, rfl⟩
  · rintro ⟨groups, behind, hbytes, hspells, rfl⟩
    exact ⟨_, rfl, slot_iff_spells.2 ⟨groups, behind, hbytes, hspells, rfl⟩⟩

/-! ### What is told of bytes that spell nothing -/

/-- Groups end too early just where all of them have the continuation bit, with no more of them and
no more in them than can be read. -/
theorem decodeGroups_eq_truncated_iff {position count value offset : Nat} {groups : Bytes}
    (hcount : count ≤ maxSize) (hvalue : value < Numeral.word) :
    decodeGroups position count value groups = .error (.damage (.varintTruncated offset)) ↔
      (∀ b ∈ groups, 128 ≤ b.toNat) ∧ count + groups.length ≤ maxSize ∧
        number value groups < Numeral.word ∧ offset = position + count + groups.length := by
  induction groups generalizing count value with
  | nil =>
    simp only [decodeGroups, number, List.foldl_nil, List.length_nil]
    constructor
    · intro h
      simp at h
      simp [h, hcount, hvalue]
    · rintro ⟨-, -, -, rfl⟩
      simp
  | cons b rest ih =>
    have hbyte := b.toNat_lt
    have hrest := le_number (value * 128 + b.toNat % 128) rest
    rw [decodeGroups, List.forall_mem_cons, List.length_cons, number_cons]
    by_cases hover : count ≥ maxSize ∨ value ≥ 2 ^ 57
    · rw [if_pos hover]
      simp only [Except.error.injEq, Error.damage.injEq, reduceCtorEq, false_iff]
      rintro ⟨-, hroom, hword, -⟩
      simp only [Numeral.word] at hword
      omega
    · rw [if_neg hover]
      by_cases hlast : b.toNat < 128
      · rw [if_pos hlast]
        simp only [reduceCtorEq, false_iff]
        rintro ⟨⟨hmore, -⟩, -⟩
        omega
      · have hpayload : b.toNat - 128 = b.toNat % 128 := by omega
        rw [if_neg hlast, hpayload, ih (by omega) (by simp only [Numeral.word]; omega)]
        constructor
        · rintro ⟨hmore, hroom, hword, rfl⟩
          exact ⟨⟨by omega, hmore⟩, by omega, hword, by omega⟩
        · rintro ⟨⟨-, hmore⟩, hroom, hword, rfl⟩
          exact ⟨hmore, by omega, hword, by omega⟩

/-- A number is cut off by the end of a buffer just where all bytes up to it, ten at most, have the
continuation bit, and a word holds what they stand for. -/
theorem decode_eq_truncated_iff {buf : Bytes} {position offset : Nat} :
    decode buf position = .error (.damage (.varintTruncated offset)) ↔
      (∀ b ∈ buf.drop position, 128 ≤ b.toNat) ∧ (buf.drop position).length ≤ 10 ∧
        base128 (buf.drop position) < 2 ^ 64 ∧ offset = position + (buf.drop position).length := by
  rw [decode, decodeGroups_eq_truncated_iff (Nat.zero_le _) (by decide), number_zero, Nat.zero_add,
    Nat.add_zero]
  rfl

/-! ### What is written -/

/-- Bytes that spell a number are no fewer than those written of it. -/
theorem Spells.size_le {groups : Bytes} {n : Nat} (h : Spells groups n) :
    size n ≤ groups.length :=
  size_le_of_slot (slot_iff_spells.2 ⟨groups, [], (List.append_nil _).symm, h, rfl⟩)

/-- The fewest bytes that spell a number are those written of it. -/
theorem Spells.length_eq_iff {groups : Bytes} {n : Nat} (h : Spells groups n) :
    groups.length = size n ↔ groups = encode n := by
  constructor
  · intro hlength
    have hslot := slot_iff_spells.2 ⟨groups, [], (List.append_nil _).symm, h, hlength.symm⟩
    rw [← take_of_slot hslot, ← hlength, List.take_length]
  · rintro rfl
    exact length_encode n

/-- A number is written where there is room for it, and read back; the rest of the buffer stays. -/
theorem exists_write {n position : Nat} {buf : Bytes} (hword : n < Numeral.word)
    (hroom : position + size n ≤ buf.length) :
    ∃ written, write n buf position = .ok (written, position + size n) ∧
      decode written position = .ok (n, position + size n) ∧
      Bytes.slice written position (size n) = encode n ∧ written.length = buf.length ∧
      ∀ i, i < position ∨ position + size n ≤ i → written[i]? = buf[i]? := by
  have hbefore : (buf.take position).length = position := by
    rw [List.length_take]
    omega
  refine ⟨Bytes.overwrite buf position (encode n), ?_, ?_, ?_, ?_, ?_⟩
  · rw [write, if_pos hroom]
  · have hread := decode_encode hword (buf.take position) (buf.drop (position + (encode n).length))
    rwa [hbefore] at hread
  · exact Bytes.slice_eq _ _ rfl hbefore.symm (length_encode n).symm
  · exact Bytes.length_overwrite (by rwa [length_encode])
  · intro i hi
    rw [Bytes.overwrite, List.append_assoc, List.getElem?_append, hbefore]
    by_cases hfront : i < position
    · rw [if_pos hfront, List.getElem?_take_of_lt hfront]
    · rw [if_neg hfront, List.getElem?_append_right (by rw [length_encode]; omega), length_encode,
        List.getElem?_drop]
      congr 1
      omega

/-! ### Groups in a word -/

theorem toNat_and_payload (b : UInt8) : (b &&& 0x7f).toNat = b.toNat % 128 := by
  rw [UInt8.toNat_and]
  exact Nat.and_two_pow_sub_one_eq_mod b.toNat 7

theorem and_continuation_eq_zero_iff (b : UInt8) : b &&& 0x80 = 0 ↔ b.toNat < 128 := by
  have hbyte := b.toNat_lt
  have hand : b.toNat &&& 128 = (b.toNat.testBit 7).toNat * 2 ^ 7 := Nat.and_two_pow b.toNat 7
  rw [← UInt8.toNat_inj, UInt8.toNat_and]
  change b.toNat &&& 128 = 0 ↔ _
  rw [hand, Nat.testBit_eq_decide_div_mod_eq]
  by_cases h : b.toNat < 128
  · have hbit : b.toNat / 128 % 2 = 0 := by omega
    simp [h, hbit]
  · have hbit : b.toNat / 128 % 2 = 1 := by omega
    simp [h, hbit]

/-- A word has no room for another group where fewer than seven of its leading bits are zero. -/
theorem clz_lt_seven_iff (w : UInt64) : w.toBitVec.clz.toNat < 7 ↔ 2 ^ 57 ≤ w.toNat := by
  have habove : w.toNat < 2 ^ (64 - w.toBitVec.clz.toNat) := BitVec.toNat_lt_two_pow_sub_clz
  constructor
  · intro h
    have hne : w.toBitVec ≠ 0#64 := by
      intro hzero
      rw [hzero] at h
      exact absurd h (by decide)
    calc 2 ^ 57 ≤ 2 ^ (64 - 1 - w.toBitVec.clz.toNat) :=
          Nat.pow_le_pow_right (by decide) (by omega)
      _ ≤ w.toNat := BitVec.two_pow_sub_clz_le_toNat_of_ne_zero (by decide) hne
  · intro h
    refine Nat.lt_of_not_le fun hroom => absurd h (Nat.not_le.2 ?_)
    calc w.toNat < 2 ^ (64 - w.toBitVec.clz.toNat) := habove
      _ ≤ 2 ^ 57 := Nat.pow_le_pow_right (by decide) (by omega)

/-- A group is put into a word with room for it. -/
theorem toNat_shiftLeft_or {w : UInt64} (h : w.toNat < 2 ^ 57) (b : UInt8) :
    (w <<< 7 ||| (b &&& 0x7f).toUInt64).toNat = w.toNat * 128 + b.toNat % 128 := by
  have hpayload : b.toNat % 128 < 2 ^ 7 := Nat.mod_lt _ (by decide)
  have hshift : w.toNat <<< 7 % 2 ^ 64 = w.toNat <<< 7 := by
    rw [Nat.shiftLeft_eq]
    omega
  rw [UInt64.toNat_or, UInt64.toNat_shiftLeft, UInt8.toNat_toUInt64, toNat_and_payload]
  change w.toNat <<< 7 % 2 ^ 64 ||| _ = _
  rw [hshift, ← Nat.shiftLeft_add_eq_or_of_lt hpayload, Nat.shiftLeft_eq]

/-- Read groups behind `count` groups already read, of which a word is full up to its leading zero
bits. -/
def decodeWord (position : Nat) :
    (count : Nat) → (value : UInt64) → Bytes → Except Error (UInt64 × Nat)
  | count, _, [] => .error (.damage (.varintTruncated (position + count)))
  | count, value, b :: rest =>
    if count ≥ maxSize ∨ value.toBitVec.clz.toNat < 7 then
      .error (.damage (.varintOverflow position))
    else if b &&& 0x80 = 0 then
      .ok (value <<< 7 ||| (b &&& 0x7f).toUInt64, position + count + 1)
    else
      decodeWord position (count + 1) (value <<< 7 ||| (b &&& 0x7f).toUInt64) rest

/-- Nothing is lost where groups are read into a word. -/
theorem decodeGroups_toNat (position count : Nat) (value : UInt64) (groups : Bytes) :
    decodeGroups position count value.toNat groups =
      (decodeWord position count value groups).map fun (n, next) => (n.toNat, next) := by
  induction groups generalizing count value with
  | nil => rfl
  | cons b rest ih =>
    simp only [decodeGroups, decodeWord, clz_lt_seven_iff, and_continuation_eq_zero_iff]
    by_cases hover : count ≥ maxSize ∨ 2 ^ 57 ≤ value.toNat
    · rw [if_pos hover, if_pos hover]
      rfl
    · have hpushed := toNat_shiftLeft_or (w := value) (by omega) b
      rw [if_neg hover, if_neg hover]
      by_cases hlast : b.toNat < 128
      · rw [if_pos hlast, if_pos hlast]
        simp only [Except.map, hpushed, Nat.mod_eq_of_lt hlast]
      · have hbyte := b.toNat_lt
        have hpayload : b.toNat - 128 = b.toNat % 128 := by omega
        rw [if_neg hlast, if_neg hlast, hpayload, ← hpushed]
        exact ih (count + 1) _

/-- A word takes a group for every seven bits behind its leading zero bits, and one at least. -/
theorem size_toNat (w : UInt64) :
    size w.toNat = max 1 ((64 - w.toBitVec.clz.toNat + 6) / 7) := by
  have hpow (k : Nat) : 128 ^ k = 2 ^ (7 * k) := by rw [Nat.pow_mul]
  have habove : w.toNat < 2 ^ (64 - w.toBitVec.clz.toNat) := BitVec.toNat_lt_two_pow_sub_clz
  obtain ⟨k, hk⟩ : ∃ k, max 1 ((64 - w.toBitVec.clz.toNat + 6) / 7) = k + 1 :=
    ⟨max 1 ((64 - w.toBitVec.clz.toNat + 6) / 7) - 1, by omega⟩
  rw [hk]
  refine Nat.le_antisymm (size_le_iff.2 ?_) (Nat.lt_of_not_le fun hle => ?_)
  · rw [hpow]
    exact Nat.lt_of_lt_of_le habove (Nat.pow_le_pow_right (by decide) (by omega))
  · obtain ⟨j, rfl⟩ : ∃ j, k = j + 1 := ⟨k - 1, by have := size_pos w.toNat; omega⟩
    have hbelow := size_le_iff.1 hle
    have hne : w.toBitVec ≠ 0#64 := by
      intro hzero
      rw [hzero] at hk
      exact absurd hk (by simp)
    rw [hpow] at hbelow
    refine absurd hbelow (Nat.not_lt.2 ?_)
    calc 2 ^ (7 * (j + 1)) ≤ 2 ^ (64 - 1 - w.toBitVec.clz.toNat) :=
          Nat.pow_le_pow_right (by decide) (by omega)
      _ ≤ w.toNat := BitVec.two_pow_sub_clz_le_toNat_of_ne_zero (by decide) hne

/-- The groups above the last one, by their places. -/
theorem leading_eq_map (n : Nat) :
    leading n = (List.range (leading n).length).map fun i =>
      UInt8.ofNat (128 + n / 128 ^ ((leading n).length - 1 - i) % 128) := by
  fun_induction leading n with
  | case1 => rfl
  | case2 n hn ih =>
    rw [List.length_append, List.length_singleton, List.range_succ, List.map_append,
      List.map_singleton]
    conv => lhs; rw [ih]
    congr 1
    · refine List.map_congr_left fun i hi => ?_
      rw [List.mem_range] at hi
      have hplace : (leading (n / 128)).length + 1 - 1 - i =
          (leading (n / 128)).length - 1 - i + 1 := by omega
      rw [hplace, Nat.pow_succ', Nat.div_div_eq_div_mul]
    · simp

/-- The group of a word that stands at place `i` among `count`. -/
def groupOf (w : UInt64) (count i : Nat) : UInt8 :=
  let payload := (w >>> UInt64.ofNat (7 * (count - 1 - i))).toUInt8 &&& 0x7f
  if i + 1 < count then payload ||| 0x80 else payload

theorem toNat_shiftRight_payload (w : UInt64) (places : Nat) (h : places ≤ 9) :
    ((w >>> UInt64.ofNat (7 * places)).toUInt8 &&& 0x7f).toNat =
      w.toNat / 128 ^ places % 128 := by
  have hpow : 128 ^ places = 2 ^ (7 * places) := by rw [Nat.pow_mul]
  have hshift : (UInt64.ofNat (7 * places)).toNat % 64 = 7 * places := by
    rw [UInt64.toNat_ofNat']
    omega
  rw [toNat_and_payload, UInt64.toNat_toUInt8, UInt64.toNat_shiftRight, hshift,
    Nat.shiftRight_eq_div_pow, hpow]
  exact Nat.mod_mod_of_dvd _ (by decide)

theorem or_continuation {b : UInt8} (h : b.toNat < 128) :
    b ||| 0x80 = UInt8.ofNat (128 + b.toNat) := by
  have hor : 2 ^ 7 * 1 + b.toNat = 2 ^ 7 * 1 ||| b.toNat := Nat.two_pow_add_eq_or_of_lt h 1
  rw [← UInt8.toNat_inj, UInt8.toNat_or, UInt8.toNat_ofNat', Nat.or_comm]
  change 2 ^ 7 * 1 ||| b.toNat = _
  rw [← hor]
  omega

/-- What is written of a word are its groups in their order. -/
theorem encode_toNat (w : UInt64) :
    encode w.toNat = (List.range (size w.toNat)).map (groupOf w (size w.toNat)) := by
  have hw := w.toNat_lt
  have hfew : (leading (w.toNat / 128)).length ≤ 9 := length_leading_le (by omega)
  have hsize : size w.toNat = (leading (w.toNat / 128)).length + 1 := by
    rw [← length_encode, encode, List.length_append, List.length_singleton]
  rw [hsize, List.range_succ, List.map_append, List.map_singleton, encode]
  congr 1
  · rw [leading_eq_map, List.length_map, List.length_range]
    refine List.map_congr_left fun i hi => ?_
    rw [List.mem_range] at hi
    have hplace : (leading (w.toNat / 128)).length + 1 - 1 - i =
        (leading (w.toNat / 128)).length - 1 - i + 1 := by omega
    have hpayload := toNat_shiftRight_payload w
      ((leading (w.toNat / 128)).length - 1 - i + 1) (by omega)
    rw [groupOf, if_pos (by omega), hplace, or_continuation (by rw [hpayload]; omega), hpayload,
      Nat.pow_succ', Nat.div_div_eq_div_mul]
  · have hpayload := toNat_shiftRight_payload w 0 (by omega)
    rw [Nat.pow_zero, Nat.div_one] at hpayload
    rw [groupOf, if_neg (by omega), Nat.add_sub_cancel, Nat.sub_self, ← hpayload,
      UInt8.ofNat_toNat]

/-! ### Reading and writing together -/

/-- A number is read just where bytes spell it, and everywhere else reading tells of damage. It is
written where there is room, changes nothing else, and is read back. No bytes that spell it are
fewer than those written. -/
theorem decode_and_write_exact :
    (∀ buf position n next, decode buf position = .ok (n, next) ↔
      ∃ groups behind, buf.drop position = groups ++ behind ∧ Spells groups n ∧
        next = position + groups.length) ∧
    (∀ buf position, (∃ n next, decode buf position = .ok (n, next)) ∨
      decode buf position = .error (.damage (.varintOverflow position)) ∨
      decode buf position =
        .error (.damage (.varintTruncated (position + (buf.drop position).length)))) ∧
    (∀ n buf position, n < Numeral.word → position + size n ≤ buf.length →
      ∃ written, write n buf position = .ok (written, position + size n) ∧
        decode written position = .ok (n, position + size n) ∧
        Bytes.slice written position (size n) = encode n ∧ written.length = buf.length ∧
        ∀ i, i < position ∨ position + size n ≤ i → written[i]? = buf[i]?) ∧
    ∀ groups n, Spells groups n →
      size n ≤ groups.length ∧ (groups.length = size n ↔ groups = encode n) := by
  refine ⟨fun buf position n next => decode_eq_ok_iff_spells, fun buf position => ?_,
    fun n buf position => exists_write, fun groups n h => ⟨h.size_le, h.length_eq_iff⟩⟩
  cases hread : decode buf position with
  | ok r => exact .inl ⟨r.1, r.2, rfl⟩
  | error e =>
    rcases error_of_decodeGroups hread with rfl | ⟨offset, rfl⟩
    · exact .inr (.inl rfl)
    · obtain ⟨-, -, -, rfl⟩ := decode_eq_truncated_iff.1 hread
      exact .inr (.inr rfl)

/-- The largest word takes ten groups, and so does a smaller number behind a group of zero. -/
theorem ten_groups_read_back :
    let zeroFirst : Bytes := [0x80, 0x82, 0x80, 0x80, 0x80, 0x80, 0x80, 0x80, 0x80, 0x00]
    (∃ written, write (2 ^ 64 - 1) (List.replicate 12 0xee) 1 = .ok (written, 11) ∧
      decode written 1 = .ok (2 ^ 64 - 1, 11) ∧ written[0]? = some 0xee ∧
      written[11]? = some 0xee) ∧
    decode (zeroFirst ++ [7]) 0 = .ok (2 ^ 57, 10) ∧ zeroFirst ≠ encode (2 ^ 57) := by
  intro zeroFirst
  have hsize : size (2 ^ 64 - 1) = 10 := by cbv
  have hless : size (2 ^ 57) = 9 := by cbv
  have hspells : Spells zeroFirst (2 ^ 57) :=
    ⟨⟨[0x80, 0x82, 0x80, 0x80, 0x80, 0x80, 0x80, 0x80, 0x80], 0x00, rfl, by simp, by decide⟩,
      by decide, by decide, by decide⟩
  refine ⟨?_, ?_, ?_⟩
  · obtain ⟨written, hwrite, hread, -, -, hrest⟩ := decode_and_write_exact.2.2.1 (2 ^ 64 - 1)
      (List.replicate 12 0xee) 1 (by decide) (by rw [hsize]; decide)
    rw [hsize] at hwrite hread hrest
    exact ⟨written, hwrite, hread, hrest 0 (by decide), hrest 11 (by decide)⟩
  · exact (decode_and_write_exact.1 _ _ _ _).2 ⟨zeroFirst, [7], rfl, hspells, rfl⟩
  · intro hsame
    have hlength := (decode_and_write_exact.2.2.2 _ _ hspells).2.2 hsame
    rw [hless] at hlength
    exact absurd hlength (by decide)

end Strata.Varint
