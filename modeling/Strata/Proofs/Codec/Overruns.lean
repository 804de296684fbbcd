import Strata.Proofs.Codec.Forms
import Strata.Proofs.Codec.Storing

/-!
# Writes that do not fit into the buffer

Before a codec writes, it compares the bytes it needs with those that follow the offset. Of an
offset behind the end of the buffer it takes none to follow, so that this is an error for all that
takes a byte at least. A stretch of no fields takes none: it passes, and is then written behind the
end, which breaks a precondition. No other write does, and all others that do not fit are errors.
-/

namespace Strata

namespace Stored

/-- A write that needs some bytes at an offset succeeds or is an error. It is an error where the
offset lies behind the end of the buffer, and where fewer bytes than needed follow it. -/
structure Confined (needed : Outcome Nat) (buf : Bytes) (offset : Nat) (answer : Outcome Nat) :
    Prop where
  answered : (∃ n, answer = .ok n) ∨ ∃ cause, answer = .error (.error cause)
  behind : buf.length < offset → ∃ cause, answer = .error (.error cause)
  short : ∀ n, needed = .ok n → buf.length < offset + n → ∃ cause, answer = .error (.error cause)

variable {needed : Outcome Nat} {buf new : Bytes} {offset : Nat}

theorem confined_error (cause : Error) :
    Confined needed buf offset (.error (.error cause)) :=
  ⟨.inr ⟨cause, rfl⟩, fun _ => ⟨cause, rfl⟩, fun _ _ _ => ⟨cause, rfl⟩⟩

theorem confined_ok {n : Nat} (hneeded : needed = .ok n) (hroom : offset + n ≤ buf.length) :
    Confined needed buf offset (.ok n) := by
  refine ⟨.inl ⟨n, rfl⟩, fun hbehind => ?_, fun m hm hshort => ?_⟩
  · omega
  · obtain rfl := Except.ok.inj (hneeded.symm.trans hm)
    omega

theorem not_confined_breach : ¬ Confined needed buf offset (.error .breach) := by
  rintro ⟨⟨n, h⟩ | ⟨cause, h⟩, -, -⟩ <;> simp at h

/-- Bytes are written, do not fit, or are none and to be written behind the end of the buffer. -/
theorem put_cases (buf : Bytes) (offset : Nat) (new : Bytes) :
    (offset + new.length ≤ buf.length ∧ (put buf offset new).2 = .ok new.length) ∨
      (buf.length < offset + new.length ∧ new ≠ [] ∧ put buf offset new =
        (buf, .error (.error (.bufferTooSmall new.length (buf.length - offset))))) ∨
      (buf.length < offset ∧ new = [] ∧ put buf offset new = (buf, .error .breach)) := by
  rw [put]
  split
  · rename_i hshort
    refine .inr (.inl ⟨by omega, ?_, rfl⟩)
    rintro rfl
    exact absurd hshort (Nat.not_lt_zero _)
  · rename_i hroom
    split
    · rename_i hbehind
      refine .inr (.inr ⟨hbehind, List.eq_nil_of_length_eq_zero ?_, rfl⟩)
      omega
    · exact .inl ⟨by omega, rfl⟩

/-- A write is confined to the buffer unless nothing is written behind its end. -/
theorem confined_put_iff (hneeded : needed = .ok new.length) :
    Confined needed buf offset (put buf offset new).2 ↔ ¬ (new = [] ∧ buf.length < offset) := by
  rcases put_cases buf offset new with ⟨hroom, hput⟩ | ⟨-, hnew, hput⟩ | ⟨hbehind, hnew, hput⟩
  · rw [hput]
    exact iff_of_true (confined_ok hneeded hroom) (by omega)
  · rw [hput]
    exact iff_of_true (confined_error _) fun h => hnew h.1
  · rw [hput]
    exact iff_of_false not_confined_breach fun h => h ⟨hnew, hbehind⟩

end Stored

namespace Plain

variable {kinds : List FieldKind} {tuple : Tuple} {start count : Nat}

/-- What is stored of a stretch is nothing just where there is no field in it. -/
theorem encode_eq_nil_iff (hcheck : check kinds tuple start count = .ok ()) :
    encode kinds tuple start count = [] ↔ count = 0 := by
  obtain ⟨⟨htuple, hkinds⟩, -⟩ := check_stretch_eq_ok_iff.1 hcheck
  have hstretch : (stretch tuple start count).length = count := by
    rw [length_stretch]
    omega
  have hlength := Stored.length_encode (stretch kinds start count) (stretch tuple start count)
  rw [hstretch, Stored.bitmapSize] at hlength
  constructor
  · intro hnil
    rw [encode] at hnil
    rw [hnil, List.length_nil] at hlength
    omega
  · rintro rfl
    simp [encode, stretch, Stored.encode, Stored.bitmapSize, Bytes.zeros, Stored.slots]

/-- A stretch of no fields can be stored wherever tuple and kinds reach. -/
theorem check_zero_eq_ok_iff :
    check kinds tuple start 0 = .ok () ↔ start ≤ tuple.length ∧ start ≤ kinds.length := by
  rw [check_stretch_eq_ok_iff]
  simp

/-- A stretch is written within the buffer unless it is one of no fields, to be written behind its
end. -/
theorem confined_writeFields_iff {needed : Outcome Nat} {buf : Bytes} {offset : Nat}
    (hneeded : check kinds tuple start count = .ok () →
      needed = .ok (encode kinds tuple start count).length) :
    Stored.Confined needed buf offset (writeFields kinds tuple start count buf offset).2 ↔
      ¬ ((count = 0 ∧ start ≤ tuple.length ∧ start ≤ kinds.length) ∧ buf.length < offset) := by
  cases hcheck : check kinds tuple start count with
  | error e =>
    simp only [writeFields, hcheck]
    refine iff_of_true (Stored.confined_error e) ?_
    rintro ⟨⟨rfl, hreach⟩, -⟩
    rw [check_zero_eq_ok_iff.2 hreach] at hcheck
    contradiction
  | ok u =>
    obtain ⟨⟨htuple, hkinds⟩, -⟩ := check_stretch_eq_ok_iff.1 hcheck
    simp only [writeFields, hcheck]
    rw [Stored.confined_put_iff (hneeded hcheck), encode_eq_nil_iff hcheck]
    refine not_congr (and_congr_left' (iff_self_and.2 ?_))
    omega

/-- A stretch of no fields, to be written behind the end of the buffer, breaks a precondition. -/
theorem writeFields_behind {buf : Bytes} {offset : Nat}
    (hreach : start ≤ tuple.length ∧ start ≤ kinds.length) (hbehind : buf.length < offset) :
    writeFields kinds tuple start 0 buf offset = (buf, .error .breach) := by
  have hcheck := check_zero_eq_ok_iff.2 hreach
  have hnil := (encode_eq_nil_iff hcheck).2 rfl
  simp only [writeFields, hcheck, hnil]
  rcases Stored.put_cases buf offset [] with ⟨hroom, -⟩ | ⟨-, hnew, -⟩ | ⟨-, -, hput⟩
  · omega
  · exact absurd rfl hnew
  · exact hput

/-- What is stored of a whole tuple takes the bytes told. -/
theorem length_encode_whole (kinds : List FieldKind) (tuple : Tuple) :
    (encode kinds tuple 0 tuple.length).length = required kinds tuple := by
  simp [encode, stretch, required, Stored.encode, Stored.slots_take]

end Plain

namespace PointBox

/-- A point is written within the buffer. -/
theorem confined_write (box : PointBox) (tuple : Tuple) (buf : Bytes) (offset : Nat) :
    Stored.Confined (box.required tuple) buf offset (box.write tuple buf offset).2 := by
  cases hanswer : (box.write tuple buf offset).2 with
  | ok n =>
    obtain ⟨-, hrequired, hroom⟩ := write_eq_ok_iff.1 hanswer
    exact Stored.confined_ok hrequired hroom
  | error e =>
    obtain ⟨-, cause, rfl⟩ := error_of_write hanswer
    exact Stored.confined_error cause

end PointBox

namespace Codec

/-- A stretch of no fields, which the plain codec stores in no bytes. -/
def TakesNothing : Codec → Tuple → (start count : Nat) → Prop
  | .plain kinds, tuple, start, count =>
    count = 0 ∧ start ≤ tuple.length ∧ start ≤ kinds.length
  | .pointBox _, _, _, _ => False

/-- A write succeeds where there is room and is an error where there is none, unless it takes no
bytes and its offset lies behind the end of the buffer. Then, and only then, it breaks a
precondition, and the buffer stays as it was. -/
theorem writes_confined_iff (codec : Codec) (tuple : Tuple) (start count : Nat) (buf : Bytes)
    (offset : Nat) :
    (Stored.Confined (codec.required tuple) buf offset (codec.write tuple buf offset).2 ↔
      ¬ (codec.TakesNothing tuple 0 tuple.length ∧ buf.length < offset)) ∧
    (Stored.Confined (Outcome.ofExcept (codec.requiredFields tuple start count)) buf offset
        (codec.writeFields tuple start count buf offset).2 ↔
      ¬ (codec.TakesNothing tuple start count ∧ buf.length < offset)) ∧
    (codec.TakesNothing tuple 0 tuple.length → buf.length < offset →
      codec.write tuple buf offset = (buf, .error .breach)) ∧
    (codec.TakesNothing tuple start count → buf.length < offset →
      codec.writeFields tuple start count buf offset = (buf, .error .breach)) := by
  cases codec with
  | plain kinds =>
    refine ⟨Plain.confined_writeFields_iff fun _ => ?_,
      Plain.confined_writeFields_iff fun hcheck => ?_, ?_, ?_⟩
    · rw [Plain.length_encode_whole, required]
    · have hreach := (Plain.check_stretch_eq_ok_iff.1 hcheck).1
      rw [Outcome.ofExcept_eq_ok_iff, requiredFields, Plain.requiredFields_eq_ok_iff]
      exact ⟨hreach, rfl⟩
    · rintro ⟨hcount, hreach⟩ hbehind
      rw [write, Plain.write, hcount]
      exact Plain.writeFields_behind hreach hbehind
    · rintro ⟨rfl, hreach⟩ hbehind
      exact Plain.writeFields_behind hreach hbehind
  | pointBox box =>
    refine ⟨iff_of_true (box.confined_write tuple buf offset) fun h => h.1,
      iff_of_true (Stored.confined_error _) fun h => h.1, fun h => h.elim, fun h => h.elim⟩

/-- No field of a tuple is written behind two bytes, though it takes none, while the field that does
not fit there is an error, and none at the very end is written. -/
theorem nothing_behind_the_end :
    let codec := Codec.plain [.varying]
    let buf : Bytes := [5, 6]
    codec.writeFields [[97]] 1 0 buf 3 = (buf, .error .breach) ∧
      ¬ Stored.Confined (.ok 0) buf 3 (codec.writeFields [[97]] 1 0 buf 3).2 ∧
      Stored.Confined (.ok 3) buf 3 (codec.writeFields [[97]] 0 1 buf 3).2 ∧
      Stored.Confined (.ok 0) buf 2 (codec.writeFields [[97]] 1 0 buf 2).2 ∧
      codec.write [] [] 1 = ([], .error .breach) := by
  intro codec buf
  have hnothing : codec.TakesNothing [[97]] 1 0 := ⟨rfl, by decide, by decide⟩
  have hsized : codec.requiredFields [[97]] 0 1 = .ok 3 := by cbv
  have hempty : codec.requiredFields [[97]] 1 0 = .ok 0 := by cbv
  have hnone := codec.writes_confined_iff [[97]] 1 0 buf 3
  have hone := codec.writes_confined_iff [[97]] 0 1 buf 3
  have hend := codec.writes_confined_iff [[97]] 1 0 buf 2
  have hwhole := codec.writes_confined_iff [] 0 0 [] 1
  rw [hempty] at hnone hend
  rw [hsized] at hone
  refine ⟨hnone.2.2.2 hnothing (by decide), fun h => ?_, hone.2.1.2 ?_, hend.2.1.2 ?_, ?_⟩
  · exact hnone.2.1.1 h ⟨hnothing, by decide⟩
  · exact fun h => absurd h.1.1 (by decide)
  · exact fun h => absurd h.2 (by decide)
  · exact hwhole.2.2.1 ⟨rfl, by decide, by decide⟩ (by decide)

end Codec

end Strata
