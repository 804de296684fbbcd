import Strata.Digest.Crc32

/-!
# A checksum tells any change of one byte

Nothing is lost as bits are divided out: the highest bit of a remainder tells whether the
polynomial was taken off in the last shift, and so which bit was shifted out. So taking in the same
bytes keeps different remainders different, and taking in different bytes makes equal remainders
different. A byte string in which one byte is changed has another checksum.
-/

namespace Strata.Crc32

/-- The lowest bit of a remainder decides whether the polynomial is taken off. -/
theorem and_one_eq_one_iff (x : UInt32) : x &&& 1 = 1 ↔ x.toBitVec.getLsbD 0 = true := by
  have hlow := BitVec.and_one_eq_setWidth_ofBool_getLsbD (x := x.toBitVec)
  rw [← UInt32.toBitVec_inj, UInt32.toBitVec_and]
  cases hbit : x.toBitVec.getLsbD 0 with
  | false =>
    rw [hbit] at hlow
    constructor
    · intro h
      exact absurd (hlow.symm.trans h) (by decide)
    · intro h
      contradiction
  | true =>
    rw [hbit] at hlow
    exact ⟨fun _ => rfl, fun _ => hlow⟩

/-- Bit `i` of a remainder after a shift: the bit above, with the polynomial taken off where the
lowest bit was set. -/
theorem getLsbD_shift (x : UInt32) (i : Nat) :
    (shift x).toBitVec.getLsbD i =
      (x.toBitVec.getLsbD (i + 1) ^^ (x.toBitVec.getLsbD 0 && polynomial.toBitVec.getLsbD i)) := by
  have hhalf : (x >>> 1).toBitVec.getLsbD i = x.toBitVec.getLsbD (i + 1) := by
    simp [Nat.add_comm]
  cases hbit : x.toBitVec.getLsbD 0 with
  | true =>
    rw [shift, if_pos ((and_one_eq_one_iff x).2 hbit), UInt32.toBitVec_xor, BitVec.getLsbD_xor,
      hhalf, Bool.true_and]
  | false =>
    have hskip : ¬ x &&& 1 = 1 := by
      rw [and_one_eq_one_iff, hbit]
      decide
    rw [shift, if_neg hskip, hhalf, Bool.false_and, Bool.xor_false]

/-- The highest bit after a shift is the lowest one before it. -/
theorem getLsbD_shift_last (x : UInt32) :
    (shift x).toBitVec.getLsbD 31 = x.toBitVec.getLsbD 0 := by
  have hpolynomial : polynomial.toBitVec.getLsbD 31 = true := by decide
  rw [getLsbD_shift, hpolynomial, BitVec.getLsbD_of_ge _ _ (Nat.le_refl 32)]
  simp

theorem shift_injective : Function.Injective shift := by
  intro x y h
  have hlow : x.toBitVec.getLsbD 0 = y.toBitVec.getLsbD 0 := by
    rw [← getLsbD_shift_last x, h, getLsbD_shift_last]
  rw [← UInt32.toBitVec_inj]
  apply BitVec.eq_of_getLsbD_eq
  intro i _
  cases i with
  | zero => exact hlow
  | succ i =>
    have hbit := getLsbD_shift x i
    rw [h, getLsbD_shift, hlow] at hbit
    exact (Bool.xor_left_inj.1 hbit).symm

theorem shifts_injective (count : Nat) : Function.Injective (shifts count) := by
  induction count with
  | zero => exact fun _ _ h => h
  | succ count ih => exact fun _ _ h => shift_injective (ih h)

/-- The same byte keeps different remainders different. -/
theorem absorb_left_inj {x y : UInt32} {b : UInt8} : absorb x b = absorb y b ↔ x = y := by
  refine ⟨fun h => ?_, fun h => h ▸ rfl⟩
  exact (UInt32.xor_left_inj _).1 (shifts_injective 8 h)

/-- Different bytes make the same remainder different. -/
theorem absorb_right_inj {x : UInt32} {b c : UInt8} : absorb x b = absorb x c ↔ b = c := by
  refine ⟨fun h => ?_, fun h => h ▸ rfl⟩
  exact UInt8.toUInt32_inj.1 ((UInt32.xor_right_inj _).1 (shifts_injective 8 h))

theorem foldl_absorb_inj {x y : UInt32} (bs : Bytes) :
    bs.foldl absorb x = bs.foldl absorb y ↔ x = y := by
  induction bs generalizing x y with
  | nil => exact Iff.rfl
  | cons b rest ih => rw [List.foldl_cons, List.foldl_cons, ih, absorb_left_inj]

/-- A byte string in which a byte is changed has another checksum. -/
theorem checksum_set_ne {bs : Bytes} {i : Nat} {b : UInt8} (hi : i < bs.length)
    (hb : bs[i] ≠ b) : checksum (bs.set i b) ≠ checksum bs := by
  have hbefore : bs = bs.take i ++ bs[i] :: bs.drop (i + 1) := by
    rw [← List.drop_eq_getElem_cons hi, List.take_append_drop]
  have hafter : bs.set i b = bs.take i ++ b :: bs.drop (i + 1) := by
    rw [List.set_eq_take_append_cons_drop, if_pos hi]
  intro h
  rw [checksum, checksum, UInt32.not_inj, hafter] at h
  conv at h => rhs; rw [hbefore]
  rw [List.foldl_append, List.foldl_append, List.foldl_cons, List.foldl_cons, foldl_absorb_inj,
    absorb_right_inj] at h
  exact hb h.symm

end Strata.Crc32
