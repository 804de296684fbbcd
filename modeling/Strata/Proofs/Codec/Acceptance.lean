import Strata.Proofs.Codec.Image

/-!
# Acceptance and readability

A codec accepts a tuple when it can write it into the bytes it asks for. An accepted tuple with as
many fields as the codec has kinds is kept: it is read back for what it is, wherever it is stored.
The plain codec also accepts tuples with fewer fields, and those are not shown as they were.
-/

namespace Strata

namespace Plain

/-- A tuple with a field to each kind can be stored just where its fields fit the kinds. -/
theorem check_eq_ok_iff {kinds : List FieldKind} {tuple : Tuple}
    (hlength : tuple.length = kinds.length) :
    check kinds tuple 0 tuple.length = .ok () ↔ Stored.Fits kinds tuple := by
  have hkinds : stretch kinds 0 tuple.length = kinds := by simp [stretch, hlength]
  have htuple : stretch tuple 0 tuple.length = tuple := by simp [stretch]
  have hrange : checkRange kinds tuple 0 tuple.length = .ok () := by
    rw [checkRange, if_pos (by omega)]
  rw [check, hrange, hkinds, htuple]
  exact Stored.checkLengths_eq_ok_iff 0 hlength.symm

end Plain

namespace PointBox

/-- No dimension is extended just where the coordinates agree one by one. -/
theorem extended?_eq_none_iff {index : Nat} {lower upper : Tuple} :
    extended? index lower upper = none ↔
      ∀ i < lower.length, i < upper.length → lower[i]? = upper[i]? := by
  induction lower generalizing index upper with
  | nil => simp [extended?]
  | cons l lower ih =>
    cases upper with
    | nil => simp [extended?]
    | cons u upper =>
      by_cases h : l = u
      · rw [extended?, if_pos h, ih]
        constructor
        · intro hrest i hl hu
          cases i with
          | zero => simp [h]
          | succ i => exact hrest i (Nat.lt_of_succ_lt_succ hl) (Nat.lt_of_succ_lt_succ hu)
        · intro hall i hl hu
          exact hall (i + 1) (Nat.succ_lt_succ hl) (Nat.succ_lt_succ hu)
      · rw [extended?, if_neg h]
        constructor
        · intro hnone
          contradiction
        · intro hall
          have hfirst := hall 0 (Nat.succ_pos _) (Nat.succ_pos _)
          exact absurd (by simpa using hfirst) h

/-- A tuple can be stored just where it has all fields, they fit their kinds, and its upper
coordinates are its lower ones. -/
theorem check_eq_ok_iff {box : PointBox} {tuple : Tuple} :
    box.check tuple = .ok () ↔ tuple.length = box.fields ∧ Stored.Fits box.kinds tuple ∧
      ∀ i < box.dimensions, tuple[i]? = tuple[box.dimensions + i]? := by
  by_cases hlength : tuple.length = box.fields
  · have hkinds : box.kinds.length = tuple.length := by
      rw [box.length_kinds, hlength]
      rfl
    have hfits := Stored.checkLengths_eq_ok_iff 0 hkinds
    have hboth : box.dimensions + box.dimensions ≤ tuple.length := by
      rw [hlength, fields, keyFields]
      omega
    have hcoords : extended? 0 (tuple.take box.dimensions) (tuple.drop box.dimensions) = none ↔
        ∀ i < box.dimensions, tuple[i]? = tuple[box.dimensions + i]? := by
      rw [extended?_eq_none_iff, List.length_take, List.length_drop]
      constructor
      · intro hall i hi
        have heq := hall i (by omega) (by omega)
        rwa [List.getElem?_take_of_lt hi, List.getElem?_drop] at heq
      · intro hall i hi _
        rw [List.getElem?_take_of_lt (by omega), List.getElem?_drop]
        exact hall i (by omega)
    rw [← hcoords, ← hfits]
    simp only [check, hlength, ne_eq, not_true_eq_false, if_false, true_and]
    cases hcheck : Stored.checkLengths 0 box.kinds tuple with
    | error e => simp [bind, Except.bind]
    | ok u =>
      cases hext : extended? 0 (tuple.take box.dimensions) (tuple.drop box.dimensions) with
      | none => simp [bind, Except.bind, pure, Except.pure]
      | some d => simp [bind, Except.bind, throw, throwThe, MonadExceptOf.throw]
  · simp [check, hlength, bind, Except.bind, throw, throwThe, MonadExceptOf.throw]

/-- The first half of the key and the values are all that is stored. -/
theorem length_stored {α : Type} {box : PointBox} {xs : List α} (hlength : xs.length = box.fields) :
    (box.stored xs).length = box.dimensions + box.values := by
  rw [fields, keyFields] at hlength
  simp only [stored, keyFields, List.length_append, List.length_take, List.length_drop]
  omega

/-- The stored fields are shown as the tuple just where it is a point. -/
theorem shows_stored_iff {box : PointBox} {tuple : Tuple} (hlength : tuple.length = box.fields) :
    (Shape.pointBox box).Shows (box.stored tuple) tuple ↔
      ∀ i < box.dimensions, tuple[i]? = tuple[box.dimensions + i]? := by
  have hstored := length_stored hlength
  have hfields : tuple.length = 2 * box.dimensions + box.values := hlength
  have hpos := box.dimensions_pos
  have hlower : ∀ i < box.dimensions, (box.stored tuple)[i]? = tuple[i]? := by
    intro i hi
    rw [stored, List.getElem?_append_left (by rw [List.length_take]; omega),
      List.getElem?_take_of_lt hi]
  have hindex : ∀ i < box.dimensions, box.storedIndex (box.dimensions + i) = i := by
    intro i hi
    rw [storedIndex, keyFields, if_neg (by omega), if_pos (by omega), Nat.add_mod_left,
      Nat.mod_eq_of_lt hi]
  constructor
  · intro h i hi
    obtain ⟨j, hj, _, heq⟩ := h.field (box.dimensions + i) (by omega)
    rw [Shape.storedIndex?, if_pos (by omega), hindex i hi] at hj
    rw [← heq, ← Option.some.inj hj, hlower i hi]
  · intro h
    refine ⟨hlength, hstored, fun i hi => ⟨box.storedIndex i, ?_, ?_⟩⟩
    · rw [Shape.storedIndex?, if_pos (by omega)]
    · rcases Nat.lt_or_ge i box.dimensions with hlow | hlow
      · rw [storedIndex, if_pos hlow]
        exact ⟨by omega, hlower i hlow⟩
      · rcases Nat.lt_or_ge i box.keyFields with hup | hup
        · obtain ⟨k, rfl⟩ := Nat.exists_eq_add_of_le hlow
          rw [keyFields] at hup
          have hk : k < box.dimensions := by omega
          rw [hindex k hk]
          exact ⟨by omega, (hlower k hk).trans (h k hk)⟩
        · rw [storedIndex, if_neg (by omega), if_neg (by omega)]
          rw [keyFields] at hup
          refine ⟨by omega, ?_⟩
          have htake : (tuple.take box.dimensions).length = box.dimensions := by
            rw [List.length_take]
            omega
          rw [stored, List.getElem?_append_right (by omega), htake, keyFields,
            List.getElem?_take_of_lt (by omega), List.getElem?_drop]
          congr 1
          omega

end PointBox

namespace Codec

theorem fields_shape (codec : Codec) : codec.shape.fields = codec.kinds.length := by
  cases codec with
  | plain kinds => rfl
  | pointBox box => exact box.length_kinds.symm

theorem storedKinds_shape_plain (kinds : List FieldKind) :
    (plain kinds).shape.storedKinds = kinds := by
  simp [shape, Shape.storedKinds, Plain.stretch]

theorem image_plain (kinds : List FieldKind) (tuple : Tuple) :
    (plain kinds).image tuple = Stored.encode kinds tuple := by
  rw [image, storedKinds_shape_plain]
  rfl

/-- The plain codec keeps every tuple whose fields fit the kinds. -/
theorem keeps_plain {kinds : List FieldKind} {tuple : Tuple} (h : Stored.Fits kinds tuple) :
    (plain kinds).Keeps tuple := by
  refine ⟨h, h.length_eq.symm, h.length_eq.symm, ?_⟩
  intro i hi
  exact ⟨i, rfl, hi, rfl⟩

/-- Every kept tuple has a field to each kind. -/
theorem Keeps.length {codec : Codec} {tuple : Tuple} (h : codec.Keeps tuple) :
    tuple.length = codec.kinds.length := by
  rw [h.shows.length, fields_shape]

/-- The bytes a tuple with a field to each kind takes are those of its image. -/
theorem required_eq {codec : Codec} {tuple : Tuple} (hlength : tuple.length = codec.kinds.length) :
    codec.required tuple = .ok (codec.image tuple).length := by
  cases codec with
  | plain kinds =>
    rw [image_plain]
    rfl
  | pointBox box =>
    have hstored := PointBox.length_stored (hlength.trans box.length_kinds)
    rw [required, PointBox.required, if_pos hstored]
    rfl

/-- A kept tuple is written as its image. -/
theorem write_of_keeps {codec : Codec} {tuple : Tuple} (h : codec.Keeps tuple) (buf : Bytes)
    (offset : Nat) : codec.write tuple buf offset = Stored.put buf offset (codec.image tuple) := by
  cases codec with
  | plain kinds =>
    have hlength : tuple.length = kinds.length := h.length
    have hcheck : Plain.check kinds tuple 0 tuple.length = .ok () :=
      (Plain.check_eq_ok_iff hlength).2 h.fits
    have hencode : Plain.encode kinds tuple 0 tuple.length = (plain kinds).image tuple := by
      rw [image_plain, Plain.encode, Plain.stretch, Plain.stretch, List.drop_zero, List.drop_zero,
        List.take_length, hlength, List.take_length]
    rw [write, Plain.write, Plain.writeFields, hcheck, hencode]
  | pointBox box =>
    have hpoint := (PointBox.shows_stored_iff h.shows.length).1 h.shows
    have hcheck := PointBox.check_eq_ok_iff.2 ⟨h.shows.length, h.fits, hpoint⟩
    rw [write, PointBox.write, hcheck]
    rfl

/-- A tuple that can be written anywhere, and has a field to each kind, is kept. -/
theorem keeps_of_write {codec : Codec} {tuple : Tuple} {buf : Bytes} {offset n : Nat}
    (hlength : tuple.length = codec.kinds.length)
    (h : (codec.write tuple buf offset).2 = .ok n) : codec.Keeps tuple := by
  cases codec with
  | plain kinds =>
    have hcheck : Plain.check kinds tuple 0 tuple.length = .ok () := by
      cases hcheck : Plain.check kinds tuple 0 tuple.length with
      | ok u => rfl
      | error e => simp [write, Plain.write, Plain.writeFields, hcheck] at h
    exact keeps_plain ((Plain.check_eq_ok_iff hlength).1 hcheck)
  | pointBox box =>
    have hcheck : box.check tuple = .ok () := by
      cases hcheck : box.check tuple with
      | ok u => rfl
      | error e => simp [write, PointBox.write, hcheck] at h
    obtain ⟨hfields, hfits, hpoint⟩ := PointBox.check_eq_ok_iff.1 hcheck
    exact ⟨hfits, (PointBox.shows_stored_iff hfields).2 hpoint⟩

/-- Behind any bytes, a kept tuple is written into zeros of the size of its image. -/
theorem write_append {codec : Codec} {tuple : Tuple} (h : codec.Keeps tuple) (data : Bytes) :
    codec.write tuple (data ++ Bytes.zeros (codec.image tuple).length) data.length =
      (data ++ codec.image tuple, .ok (codec.image tuple).length) := by
  rw [write_of_keeps h, Stored.put_of_le (by simp)]
  simp [Bytes.overwrite]

/-- A tuple that a codec has written is read back, whatever bytes stand around it, just where it has
a field to each kind. Of a tuple with fewer fields a reader shows another number of fields. -/
theorem reset_written_iff {codec : Codec} {tuple : Tuple} {needed n : Nat} {buf : Bytes}
    (hsize : codec.required tuple = .ok needed)
    (hwrite : codec.write tuple (Bytes.zeros needed) 0 = (buf, .ok n)) (before after : Bytes)
    (hroom : (before ++ buf ++ after).length < Numeral.word) :
    (∃ r, codec.reader.reset (before ++ buf ++ after) before.length = (r, .ok ()) ∧
      r.fields = tuple.length ∧ r.tuple = .ok tuple ∧ r.tupleSize = .ok n) ↔
      tuple.length = codec.kinds.length := by
  constructor
  · rintro ⟨r, hreset, hfields, -, -⟩
    have hshape : r.shape = codec.shape := by
      have hfst := Reader.shape_reset codec.reader (before ++ buf ++ after) before.length
      rw [hreset] at hfst
      exact hfst
    rw [← hfields, Reader.fields, hshape, fields_shape]
  · intro hlength
    have hkeeps := keeps_of_write (n := n) hlength (by rw [hwrite])
    have himage := write_append hkeeps []
    rw [required_eq hlength] at hsize
    obtain rfl := Except.ok.inj hsize
    rw [List.nil_append, List.length_nil, hwrite] at himage
    obtain ⟨rfl, hn⟩ := Prod.mk.inj himage
    obtain rfl := Except.ok.inj hn
    obtain ⟨r, hreset, hshape, htuple, htold⟩ := reset_image hkeeps before after hroom
    refine ⟨r, hreset, ?_, htuple, htold⟩
    rw [Reader.fields, hshape, fields_shape, hlength]

/-- Two fields of varying length are accepted in five bytes and read back behind other bytes; the
first of them alone is accepted too, in three bytes, and not read back. -/
theorem reset_written_pair :
    let codec := Codec.plain [.varying, .varying]
    codec.required [[97], [98]] = .ok 5 ∧
      codec.write [[97], [98]] (Bytes.zeros 5) 0 = ([0, 1, 1, 97, 98], .ok 5) ∧
      (∃ r, codec.reader.reset ([7] ++ [0, 1, 1, 97, 98] ++ [255]) 1 = (r, .ok ()) ∧
        r.fields = 2 ∧ r.tuple = .ok [[97], [98]] ∧ r.tupleSize = .ok 5) ∧
      codec.required [[97]] = .ok 3 ∧
      codec.write [[97]] (Bytes.zeros 3) 0 = ([0, 1, 97], .ok 3) ∧
      ¬ ∃ r, codec.reader.reset ([] ++ [0, 1, 97] ++ [255, 0]) 0 = (r, .ok ()) ∧
        r.fields = 1 ∧ r.tuple = .ok [[97]] ∧ r.tupleSize = .ok 3 := by
  intro codec
  have hsize : codec.required [[97], [98]] = .ok 5 := by cbv
  have hwrite : codec.write [[97], [98]] (Bytes.zeros 5) 0 = ([0, 1, 1, 97, 98], .ok 5) := by cbv
  have hshort : codec.required [[97]] = .ok 3 := by cbv
  have hshorter : codec.write [[97]] (Bytes.zeros 3) 0 = ([0, 1, 97], .ok 3) := by cbv
  refine ⟨hsize, hwrite, ?_, hshort, hshorter, fun h => ?_⟩
  · exact (reset_written_iff hsize hwrite [7] [255] (by decide)).2 rfl
  · exact absurd ((reset_written_iff hshort hshorter [] [255, 0] (by decide)).1 h) (by decide)

end Codec

end Strata
