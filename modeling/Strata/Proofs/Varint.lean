import Mathlib.Data.List.Induction
import Strata.Varint

/-!
# The shortest encoding of a number

Groups read one after the other build up the number, so `k` of them stand for less than `128 ^ k`.
A number that takes as many digits to the base of 128 is not read from fewer bytes: what is written
of it is read back anywhere, and nothing shorter is. What is read at all are up to ten groups whose
number a word holds, and these are what is written of the number behind groups of zero.
-/

namespace Strata.Varint

/-- Digits to the base of 128 bound a number, and the number bounds them. -/
theorem size_le_iff {n k : Nat} : size n ≤ k + 1 ↔ n < 128 ^ (k + 1) := by
  induction k generalizing n with
  | zero =>
    rw [size]
    split <;> rename_i hn
    · simpa using hn
    · have hpos := size_pos (n / 128)
      constructor <;> intro h <;> omega
  | succ k ih =>
    have hhigh := ih (n := n / 128)
    have hdiv : n / 128 < 128 ^ (k + 1) ↔ n < 128 ^ (k + 1 + 1) := by
      rw [Nat.div_lt_iff_lt_mul (by decide), ← Nat.pow_succ]
    rw [size]
    split <;> rename_i hn
    · rw [← hdiv, Nat.div_eq_of_lt hn]
      exact ⟨fun _ => Nat.pow_pos (by decide), fun _ => by omega⟩
    · rw [← hdiv, ← hhigh]
      omega

/-- Groups that are read raise the number by a digit each. -/
theorem lt_of_decodeGroups {position count value n next : Nat} {groups : Bytes}
    (h : decodeGroups position count value groups = .ok (n, next)) :
    ∃ k, next = position + count + (k + 1) ∧ n < (value + 1) * 128 ^ (k + 1) := by
  induction groups generalizing count value with
  | nil => simp [decodeGroups] at h
  | cons b rest ih =>
    have hbyte := b.toNat_lt
    rw [decodeGroups] at h
    split at h
    · simp at h
    · split at h
      · rename_i hlast
        obtain ⟨rfl, rfl⟩ := Prod.mk.inj (Except.ok.inj h)
        exact ⟨0, by omega, by omega⟩
      · obtain ⟨k, rfl, hn⟩ := ih h
        refine ⟨k + 1, by omega, Nat.lt_of_lt_of_le hn ?_⟩
        calc (value * 128 + (b.toNat - 128) + 1) * 128 ^ (k + 1)
            ≤ (value + 1) * 128 * 128 ^ (k + 1) := Nat.mul_le_mul_right _ (by omega)
          _ = (value + 1) * 128 ^ (k + 1 + 1) := by rw [Nat.mul_assoc, ← Nat.pow_succ']

/-- Groups that cannot be read end too early or hold too much. -/
theorem error_of_decodeGroups {position count value : Nat} {groups : Bytes} {e : Error}
    (h : decodeGroups position count value groups = .error e) :
    e = .damage (.varintOverflow position) ∨ ∃ offset, e = .damage (.varintTruncated offset) := by
  induction groups generalizing count value with
  | nil => exact .inr ⟨_, (Except.error.inj h).symm⟩
  | cons b rest ih =>
    rw [decodeGroups] at h
    split at h
    · exact .inl (Except.error.inj h).symm
    · split at h
      · contradiction
      · exact ih h

/-- A number is not read from fewer bytes than are written of it. -/
theorem size_le_of_decode {buf : Bytes} {position n next : Nat}
    (h : decode buf position = .ok (n, next)) : position + size n ≤ next := by
  obtain ⟨k, rfl, hn⟩ := lt_of_decodeGroups h
  have hsize : size n ≤ k + 1 := size_le_iff.2 (by simpa using hn)
  omega

/-- Bytes that are read as a number wherever they stand, while nothing shorter is. -/
structure Shortest (bs : Bytes) (n : Nat) : Prop where
  reads : ∀ before after,
    decode (before ++ bs ++ after) before.length = .ok (n, before.length + bs.length)
  least : ∀ buf position next, decode buf position = .ok (n, next) → position + bs.length ≤ next

/-- What is written of a number is the shortest that is read as it. -/
theorem shortest_encode {n : Nat} (h : n < Numeral.word) : Shortest (encode n) n where
  reads before after := by rw [length_encode, decode_encode h]
  least buf position next hread := by
    rw [length_encode]
    exact size_le_of_decode hread

/-- The number that groups stand for, behind groups of the number `value`. -/
def number (value : Nat) (groups : Bytes) : Nat :=
  groups.foldl (fun value b => value * 128 + b.toNat % 128) value

@[simp] theorem number_cons (value : Nat) (b : UInt8) (groups : Bytes) :
    number value (b :: groups) = number (value * 128 + b.toNat % 128) groups := rfl

theorem le_number (value : Nat) (groups : Bytes) : value ≤ number value groups := by
  induction groups generalizing value with
  | nil => exact Nat.le_refl _
  | cons b rest ih => exact Nat.le_trans (by omega) (ih (value * 128 + b.toNat % 128))

/-- Bytes begin with a slot: groups with the continuation bit and one without, not more than `room`
of them, whose number behind `value` a word holds. -/
def Slot (value room : Nat) (bytes : Bytes) (n size : Nat) : Prop :=
  ∃ groups last rest, bytes = groups ++ last :: rest ∧ (∀ b ∈ groups, 128 ≤ b.toNat) ∧
    last.toNat < 128 ∧ groups.length < room ∧ n = number value (groups ++ [last]) ∧
    n < Numeral.word ∧ size = groups.length + 1

/-- A slot is a group without the continuation bit, or one with it and a slot behind it. -/
theorem slot_cons_iff {value room n size : Nat} {b : UInt8} {rest : Bytes} :
    Slot value (room + 1) (b :: rest) n size ↔
      (b.toNat < 128 ∧ n = value * 128 + b.toNat ∧ n < Numeral.word ∧ size = 1) ∨
      (128 ≤ b.toNat ∧ ∃ size', size = size' + 1 ∧
        Slot (value * 128 + (b.toNat - 128)) room rest n size') := by
  have hbyte := b.toNat_lt
  constructor
  · rintro ⟨groups, last, behind, heq, hgroups, hlast, hroom, rfl, hword, rfl⟩
    cases groups with
    | nil =>
      obtain ⟨rfl, rfl⟩ := List.cons.inj heq
      refine .inl ⟨hlast, ?_, hword, rfl⟩
      simp only [List.nil_append, number_cons, Nat.mod_eq_of_lt hlast]
      rfl
    | cons first groups =>
      obtain ⟨rfl, rfl⟩ := List.cons.inj heq
      rw [List.forall_mem_cons] at hgroups
      refine .inr ⟨hgroups.1, _, rfl, groups, last, behind, rfl, hgroups.2, hlast,
        Nat.lt_of_succ_lt_succ hroom, ?_, hword, rfl⟩
      rw [List.cons_append, number_cons, show b.toNat % 128 = b.toNat - 128 by omega]
  · rintro (⟨hlast, rfl, hword, rfl⟩ | ⟨hmore, size', rfl, groups, last, behind, rfl, hgroups,
      hlast, hroom, rfl, hword, rfl⟩)
    · refine ⟨[], b, rest, rfl, by simp, hlast, Nat.succ_pos _, ?_, hword, rfl⟩
      simp only [List.nil_append, number_cons, Nat.mod_eq_of_lt hlast]
      rfl
    · refine ⟨b :: groups, last, behind, rfl, List.forall_mem_cons.2 ⟨hmore, hgroups⟩, hlast,
        Nat.succ_lt_succ hroom, ?_, hword, rfl⟩
      rw [List.cons_append, number_cons, show b.toNat % 128 = b.toNat - 128 by omega]

/-- Groups are read just where they are a slot. Before the last of them the number is below `2 ^
57`, or it would not be one that a word holds. -/
theorem decodeGroups_eq_ok_iff {position count value n next : Nat} {bytes : Bytes}
    (hcount : count ≤ maxSize) :
    decodeGroups position count value bytes = .ok (n, next) ↔
      ∃ size, next = position + count + size ∧ Slot value (maxSize - count) bytes n size := by
  induction bytes generalizing count value with
  | nil =>
    simp only [decodeGroups, reduceCtorEq, Slot, false_iff]
    rintro ⟨size, -, groups, last, rest, heq, -⟩
    simp at heq
  | cons b rest ih =>
    have hbyte := b.toNat_lt
    rcases Nat.lt_or_ge count maxSize with hlt | hfull
    · obtain ⟨room, hroom⟩ : ∃ room, maxSize - count = room + 1 := ⟨maxSize - count - 1, by omega⟩
      have hleft : maxSize - (count + 1) = room := by omega
      have hrest := @ih (count + 1) (value * 128 + (b.toNat - 128)) hlt
      rw [hleft] at hrest
      simp only [hroom, slot_cons_iff]
      by_cases hlarge : 2 ^ 57 ≤ value
      · rw [decodeGroups, if_pos (.inr hlarge)]
        simp only [reduceCtorEq, false_iff]
        rintro ⟨size, -, ⟨hlast, rfl, hword, rfl⟩ | ⟨hmore, size', rfl, groups, last, behind, -,
          -, -, -, rfl, hword, -⟩⟩
        · simp only [Numeral.word] at hword
          omega
        · have hle := le_number (value * 128 + (b.toNat - 128)) (groups ++ [last])
          simp only [Numeral.word] at hword
          omega
      · rw [decodeGroups, if_neg (by omega)]
        split
        · rename_i hlast
          simp only [Except.ok.injEq, Prod.mk.injEq]
          constructor
          · rintro ⟨rfl, rfl⟩
            refine ⟨1, rfl, .inl ⟨hlast, rfl, ?_, rfl⟩⟩
            simp only [Numeral.word]
            omega
          · rintro ⟨size, rfl, ⟨-, rfl, -, rfl⟩ | ⟨hmore, -⟩⟩
            · exact ⟨rfl, rfl⟩
            · omega
        · rename_i hmore
          rw [hrest]
          constructor
          · rintro ⟨size, rfl, hslot⟩
            exact ⟨size + 1, by omega, .inr ⟨Nat.not_lt.1 hmore, size, rfl, hslot⟩⟩
          · rintro ⟨size, rfl, ⟨hlast, -⟩ | ⟨-, size', rfl, hslot⟩⟩
            · exact absurd hlast hmore
            · exact ⟨size', by omega, hslot⟩
    · rw [decodeGroups, if_pos (.inl hfull)]
      simp only [reduceCtorEq, false_iff]
      rintro ⟨size, -, groups, last, behind, -, -, -, hroom, -⟩
      omega

/-- What is read in a buffer are the slots in it. -/
theorem decode_eq_ok_iff {buf : Bytes} {position n next : Nat} :
    decode buf position = .ok (n, next) ↔
      ∃ size, next = position + size ∧ Slot 0 maxSize (buf.drop position) n size :=
  decodeGroups_eq_ok_iff (Nat.zero_le _)

theorem lt_word_of_slot {value room n size : Nat} {bytes : Bytes}
    (h : Slot value room bytes n size) : n < Numeral.word := by
  obtain ⟨groups, last, rest, -, -, -, -, -, hword, -⟩ := h
  exact hword

/-- Groups with the continuation bit are those above the last one of a number, behind groups of
zero. -/
theorem exists_zeros_of_groups {groups : Bytes} (h : ∀ b ∈ groups, 128 ≤ b.toNat) :
    ∃ zeros, groups = List.replicate zeros 128 ++ leading (number 0 groups) := by
  induction groups using List.reverseRecOn with
  | nil => exact ⟨0, by simp [number, leading]⟩
  | append_singleton groups b ih =>
    obtain ⟨zeros, hgroups⟩ := ih fun c hc => h c (by simp [hc])
    have hmore := h b (by simp)
    have hbyte := b.toNat_lt
    have hnumber : number 0 (groups ++ [b]) = number 0 groups * 128 + b.toNat % 128 := by
      simp [number]
    by_cases hzero : number 0 (groups ++ [b]) = 0
    · have hrest : number 0 groups = 0 := by omega
      have hb : b = 128 := by
        apply UInt8.toNat.inj
        show b.toNat = 128
        omega
      have hnil : leading 0 = [] := by simp [leading]
      rw [hrest, hnil, List.append_nil] at hgroups
      refine ⟨zeros + 1, ?_⟩
      rw [hzero, hnil, List.append_nil, List.replicate_succ', ← hgroups, hb]
    · have hdiv : number 0 (groups ++ [b]) / 128 = number 0 groups := by omega
      have hlast : 128 + number 0 (groups ++ [b]) % 128 = b.toNat := by omega
      refine ⟨zeros, ?_⟩
      rw [leading, dif_neg hzero, hdiv, hlast, UInt8.ofNat_toNat, ← List.append_assoc, ← hgroups]

/-- A slot is what is written of its number, behind groups of zero. -/
theorem exists_zeros_of_slot {room n size : Nat} {bytes : Bytes} (h : Slot 0 room bytes n size) :
    ∃ zeros rest, bytes = List.replicate zeros 128 ++ encode n ++ rest ∧
      size = zeros + Varint.size n := by
  obtain ⟨groups, last, rest, rfl, hgroups, hlast, -, hn, -, rfl⟩ := h
  obtain ⟨zeros, heq⟩ := exists_zeros_of_groups hgroups
  have hnumber : n = number 0 groups * 128 + last.toNat := by
    rw [hn, ← Nat.mod_eq_of_lt hlast]
    simp [number]
  have hencode : encode n = leading (number 0 groups) ++ [last] := by
    have hdiv : n / 128 = number 0 groups := by omega
    have hmod : n % 128 = last.toNat := by omega
    rw [encode, hdiv, hmod, UInt8.ofNat_toNat]
  refine ⟨zeros, rest, ?_, ?_⟩
  · rw [hencode]
    conv => lhs; rw [heq]
    simp only [List.append_assoc, List.singleton_append]
  · have hgroupsLength := congrArg List.length heq
    have hencodeLength := congrArg List.length hencode
    simp only [List.length_append, List.length_replicate, List.length_singleton, length_encode]
      at hgroupsLength hencodeLength
    omega

theorem size_le_of_slot {room n size : Nat} {bytes : Bytes} (h : Slot 0 room bytes n size) :
    Varint.size n ≤ size := by
  obtain ⟨zeros, rest, -, rfl⟩ := exists_zeros_of_slot h
  exact Nat.le_add_left _ _

/-- A slot of no more bytes than are written of its number is what is written. -/
theorem take_of_slot {room n : Nat} {bytes : Bytes} (h : Slot 0 room bytes n (Varint.size n)) :
    bytes.take (Varint.size n) = encode n := by
  obtain ⟨zeros, rest, rfl, hsize⟩ := exists_zeros_of_slot h
  obtain rfl : zeros = 0 := by omega
  rw [← length_encode]
  simp

/-- A slot is the shortest that is read as its number just where it takes no more bytes than are
written of the number. -/
theorem shortest_slot_iff {room n size : Nat} {bytes : Bytes} (h : Slot 0 room bytes n size) :
    Shortest (bytes.take size) n ↔ size = Varint.size n := by
  have hword := lt_word_of_slot h
  constructor
  · intro hshortest
    have hread := decode_encode hword [] []
    have hle := hshortest.least _ _ _ hread
    obtain ⟨zeros, rest, rfl, hsize⟩ := exists_zeros_of_slot h
    simp only [List.length_take, List.length_append, List.length_replicate, length_encode,
      List.length_nil] at hle
    omega
  · rintro rfl
    rw [take_of_slot h]
    exact shortest_encode hword

end Strata.Varint
