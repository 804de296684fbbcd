import Strata.Proofs.Codec.Acceptance

/-!
# Tuples that are stored, and tuples that are turned away

Before a tuple is checked, a codec is asked how many bytes it takes. The codec of points looks at
every field it stores to tell that, so a tuple that lacks one of them breaks a precondition before
any check could turn it away. Every other tuple is written as its image, also one with fewer fields
than the codec has kinds, or it is turned away by an error that names its number of fields, the
length of one of them, or a dimension in which it is no point.
-/

namespace Strata

namespace Stored

/-- Kinds beyond the fields have no slots. -/
theorem slots_take (kinds : List FieldKind) (fields : Tuple) :
    slots (kinds.take fields.length) fields = slots kinds fields := by
  induction kinds generalizing fields with
  | nil => simp
  | cons kind kinds ih =>
    cases fields with
    | nil => cases kind <;> simp [slots]
    | cons f fields => cases kind <;> simp [slots, ih]

end Stored

namespace Codec

/-- A tuple that a codec writes: it asks for the bytes of the image, and writes it where there is
room. -/
structure Stores (codec : Codec) (tuple : Tuple) : Prop where
  required : codec.required tuple = .ok (codec.image tuple).length
  write : ∀ buf offset, codec.write tuple buf offset = Stored.put buf offset (codec.image tuple)

theorem stores_of_keeps {codec : Codec} {tuple : Tuple} (h : codec.Keeps tuple) :
    codec.Stores tuple :=
  ⟨required_eq h.length, write_of_keeps h⟩

/-- A point that can be written anywhere is kept: it has all fields. -/
theorem keeps_of_write_pointBox {box : PointBox} {tuple : Tuple} {buf : Bytes} {offset n : Nat}
    (h : ((pointBox box).write tuple buf offset).2 = .ok n) : (pointBox box).Keeps tuple := by
  have hcheck : box.check tuple = .ok () := by
    cases hcheck : box.check tuple with
    | ok u => rfl
    | error e => simp [Codec.write, PointBox.write, hcheck] at h
  have hlength := (PointBox.check_eq_ok_iff.1 hcheck).1
  exact keeps_of_write (hlength.trans box.length_kinds.symm) h

/-- A tuple that can be written anywhere is one the codec writes. -/
theorem stores_of_write {codec : Codec} {tuple : Tuple} {buf : Bytes} {offset n : Nat}
    (h : (codec.write tuple buf offset).2 = .ok n) : codec.Stores tuple := by
  cases codec with
  | plain kinds =>
    have hcheck : Plain.check kinds tuple 0 tuple.length = .ok () := by
      cases hcheck : Plain.check kinds tuple 0 tuple.length with
      | ok u => rfl
      | error e => simp [Codec.write, Plain.write, Plain.writeFields, hcheck] at h
    have hencode : Plain.encode kinds tuple 0 tuple.length = Stored.encode kinds tuple := by
      simp [Plain.encode, Plain.stretch, Stored.encode, Stored.slots_take]
    refine ⟨by rw [image_plain]; rfl, fun buf offset => ?_⟩
    rw [Codec.write, Plain.write, Plain.writeFields, hcheck, hencode, image_plain]
  | pointBox box => exact stores_of_keeps (keeps_of_write_pointBox h)

/-- A tuple that the codec writes with a field to each kind is kept. -/
theorem keeps_of_stores {codec : Codec} {tuple : Tuple} (h : codec.Stores tuple)
    (hlength : tuple.length = codec.kinds.length) : codec.Keeps tuple := by
  have hwrite : (codec.write tuple (Bytes.zeros (codec.image tuple).length) 0).2 =
      .ok (codec.image tuple).length := by
    rw [h.write, Stored.put_of_le (by simp)]
  exact keeps_of_write hlength hwrite

/-- A point the codec writes is kept. -/
theorem keeps_of_stores_pointBox {box : PointBox} {tuple : Tuple}
    (h : (pointBox box).Stores tuple) : (pointBox box).Keeps tuple := by
  have hwrite : ((pointBox box).write tuple
      (Bytes.zeros ((pointBox box).image tuple).length) 0).2 =
        .ok ((pointBox box).image tuple).length := by
    rw [h.write, Stored.put_of_le (by simp)]
  exact keeps_of_write_pointBox hwrite

/-- Behind any bytes, a tuple is written into zeros of the size of its image. -/
theorem write_append_of_stores {codec : Codec} {tuple : Tuple} (h : codec.Stores tuple)
    (data : Bytes) :
    codec.write tuple (data ++ Bytes.zeros (codec.image tuple).length) data.length =
      (data ++ codec.image tuple, .ok (codec.image tuple).length) := by
  rw [h.write, Stored.put_of_le (by simp)]
  simp [Bytes.overwrite]

end Codec

/-- The errors that turn a tuple away. -/
inductive Error.TurnsAway : Error → Prop where
  | fieldRange (start count fields : Nat) : TurnsAway (.fieldRange start count fields)
  | fieldLength (field expected actual : Nat) : TurnsAway (.fieldLength field expected actual)
  | unsupported (request : Unsupported) : TurnsAway (.unsupported request)

theorem Stored.turnsAway_of_checkLengths {index : Nat} {kinds : List FieldKind} {fields : Tuple}
    {e : Error} (h : checkLengths index kinds fields = .error e) : e.TurnsAway := by
  obtain ⟨i, length, f, -, -, -, rfl⟩ := exists_of_checkLengths h
  exact .fieldLength _ _ _

theorem Plain.turnsAway_of_check {kinds : List FieldKind} {tuple : Tuple} {start count : Nat}
    {e : Error} (h : check kinds tuple start count = .error e) : e.TurnsAway := by
  rw [check] at h
  cases hrange : checkRange kinds tuple start count with
  | error e' =>
    rw [hrange] at h
    obtain rfl : e' = e := Except.error.inj h
    rw [checkRange] at hrange
    split at hrange
    · contradiction
    · obtain rfl := Except.error.inj hrange
      exact .fieldRange _ _ _
  | ok u =>
    rw [hrange] at h
    exact Stored.turnsAway_of_checkLengths h

theorem PointBox.turnsAway_of_check {box : PointBox} {tuple : Tuple} {e : Error}
    (h : box.check tuple = .error e) : e.TurnsAway := by
  by_cases hlength : tuple.length = box.fields
  · simp only [check, hlength, ne_eq, not_true_eq_false, if_false] at h
    cases hcheck : Stored.checkLengths 0 box.kinds tuple with
    | error e' =>
      rw [hcheck] at h
      obtain rfl : e' = e := Except.error.inj h
      exact Stored.turnsAway_of_checkLengths hcheck
    | ok u =>
      rw [hcheck] at h
      cases hext : extended? 0 (tuple.take box.dimensions) (tuple.drop box.dimensions) with
      | none => simp [hext, bind, Except.bind, pure, Except.pure] at h
      | some dimension =>
        simp only [hext, bind, Except.bind, throw, throwThe, MonadExceptOf.throw] at h
        obtain rfl := Except.error.inj h
        exact .unsupported _
  · simp only [check, ne_eq, hlength, not_false_eq_true, if_true, bind, Except.bind, throw,
      throwThe, MonadExceptOf.throw] at h
    obtain rfl := Except.error.inj h
    exact .fieldRange _ _ _

namespace Codec

variable {codec : Codec} {tuple : Tuple}

/-- A tuple lacks a field that the codec would store. -/
def Lacks : Codec → Tuple → Prop
  | .plain _, _ => False
  | .pointBox box, tuple =>
    tuple.length < box.dimensions ∨ 0 < box.values ∧ tuple.length < box.fields

/-- The bytes a tuple takes are told just where no field is lacking. -/
theorem required_cases (codec : Codec) (tuple : Tuple) :
    codec.Lacks tuple ∧ codec.required tuple = .error .breach ∨
      ¬ codec.Lacks tuple ∧ ∃ n, codec.required tuple = .ok n := by
  cases codec with
  | plain kinds => exact .inr ⟨id, _, rfl⟩
  | pointBox box =>
    have hstored : (box.stored tuple).length = box.dimensions + box.values ↔
        ¬ (pointBox box).Lacks tuple := by
      simp only [Lacks, PointBox.stored, PointBox.fields, PointBox.keyFields, List.length_append,
        List.length_take, List.length_drop]
      omega
    rw [required, PointBox.required]
    by_cases hlacks : (pointBox box).Lacks tuple
    · rw [if_neg fun hlength => hstored.1 hlength hlacks]
      exact .inl ⟨hlacks, rfl⟩
    · rw [if_pos (hstored.2 hlacks)]
      exact .inr ⟨hlacks, _, rfl⟩

/-- The codec stores a tuple, or turns it away whatever buffer it is given. -/
theorem stores_or_turnsAway (codec : Codec) (tuple : Tuple) :
    codec.Stores tuple ∨ ∃ e, e.TurnsAway ∧
      ∀ buf offset, codec.write tuple buf offset = (buf, .error (.error e)) := by
  cases codec with
  | plain kinds =>
    cases hcheck : Plain.check kinds tuple 0 tuple.length with
    | error e =>
      refine .inr ⟨e, Plain.turnsAway_of_check hcheck, ?_⟩
      intro buf offset
      rw [write, Plain.write, Plain.writeFields, hcheck]
    | ok u =>
      have hwrite : ((plain kinds).write tuple
          (Bytes.zeros (Plain.encode kinds tuple 0 tuple.length).length) 0).2 =
            .ok (Plain.encode kinds tuple 0 tuple.length).length := by
        rw [write, Plain.write, Plain.writeFields, hcheck]
        simp only
        rw [Stored.put_of_le (by simp)]
      exact .inl (stores_of_write hwrite)
  | pointBox box =>
    cases hcheck : box.check tuple with
    | error e =>
      refine .inr ⟨e, PointBox.turnsAway_of_check hcheck, ?_⟩
      intro buf offset
      rw [write, PointBox.write, hcheck]
    | ok u =>
      have hwrite : ((pointBox box).write tuple (Bytes.zeros (box.encode tuple).length) 0).2 =
          .ok (box.encode tuple).length := by
        rw [write, PointBox.write, hcheck]
        simp only
        rw [Stored.put_of_le (by simp)]
      exact .inl (stores_of_write hwrite)

/-- No field of a tuple that the codec stores is lacking. -/
theorem not_lacks_of_stores (h : codec.Stores tuple) : ¬ codec.Lacks tuple := by
  rcases codec.required_cases tuple with ⟨-, hbreach⟩ | ⟨hlacks, -⟩
  · rw [h.required] at hbreach
    contradiction
  · exact hlacks

/-- A tuple that is turned away is not one the codec stores. -/
theorem not_stores_of_write {e : Failure}
    (h : ∀ buf offset, codec.write t buf offset = (buf, .error e)) : ¬ codec.Stores t := by
  intro hstores
  have hput := h (Bytes.zeros (codec.image t).length) 0
  rw [hstores.write, Stored.put_of_le (by simp)] at hput
  simp at hput

end Codec

end Strata
