import Strata.Proofs.Codec.Acceptance
import Strata.Proofs.Varint

/-!
# Tuples in damaged bytes

Bytes that no codec has written can hold lengths that fit nowhere and slots that never end. A reader
placed among them finds a tuple or tells of the damage, whatever the bytes are: it breaks no
precondition, and once it is placed every field it shows lies in the buffer.
-/

namespace Strata

namespace Outcome

variable {α β : Type}

/-- An answer that is a result or tells of damage. -/
def Guarded (x : Outcome α) : Prop :=
  ∀ f, x = .error f → ∃ cause, f = .error (.damage cause)

theorem guarded_ok (a : α) : Guarded (.ok a) := by
  simp [Guarded]

theorem guarded_damage (cause : Damage) :
    Guarded (.error (.error (.damage cause)) : Outcome α) := by
  simp [Guarded]

theorem not_guarded_breach : ¬ Guarded (.error .breach : Outcome α) := by
  simp [Guarded]

theorem not_guarded_file (fault : FileFault) :
    ¬ Guarded (.error (.error (.file fault)) : Outcome α) := by
  simp [Guarded]

/-- An operation in two parts is guarded just where both parts are. -/
theorem guarded_bind_iff {x : Outcome α} {f : α → Outcome β} :
    Guarded (x >>= f) ↔ Guarded x ∧ ∀ a, x = .ok a → Guarded (f a) := by
  cases x <;> simp [Guarded, bind, Except.bind]

/-- An answer without a broken precondition is guarded where its error tells of damage. -/
theorem guarded_ofExcept_iff {x : Except Error α} :
    Guarded (ofExcept x) ↔ ∀ e, x = .error e → ∃ cause, e = .damage cause := by
  cases x <;> simp [Guarded, ofExcept]

theorem guarded_ofWord_iff {n : Nat} : Guarded (ofWord n) ↔ n < Numeral.word := by
  by_cases h : n < Numeral.word <;> simp [Guarded, ofWord, h]

/-- A check that tells of damage is guarded where what follows it is. -/
theorem guarded_check_iff {p : Prop} [Decidable p] {cause : Damage} {f : PUnit → Outcome α}
    {x : Outcome α} :
    Guarded (if p then throw (.error (.damage cause)) >>= f else x) ↔ (¬ p → Guarded x) := by
  by_cases h : p
  · simp [Guarded, h, throw, throwThe, MonadExceptOf.throw, bind, Except.bind]
  · simp [h]

theorem guarded_mapM {f : α → Outcome β} {xs : List α} (h : ∀ x ∈ xs, Guarded (f x)) :
    Guarded (xs.mapM f) := by
  induction xs with
  | nil => exact guarded_ok _
  | cons x xs ih =>
    rw [List.forall_mem_cons] at h
    rw [List.mapM_cons, guarded_bind_iff]
    refine ⟨h.1, fun y _ => guarded_bind_iff.2 ⟨ih h.2, fun ys _ => guarded_ok _⟩⟩

end Outcome

/-- The least length of a field of a kind. -/
def FieldKind.least : FieldKind → Nat
  | .fixed length => length
  | .varying => 0

namespace Stored

/-- Slots that cannot be read tell of damage. -/
theorem damage_of_locate {buf : Bytes} {kinds : List FieldKind} {position total : Nat}
    {ends : List Nat} {e : Error} (h : locate buf kinds position total = (ends, .error e)) :
    ∃ cause, e = .damage cause := by
  induction kinds generalizing position total ends with
  | nil => simp [locate] at h
  | cons kind kinds ih =>
    rw [locate] at h
    split at h
    · rename_i fault hlength
      obtain ⟨-, he⟩ := Prod.mk.inj h
      obtain rfl := Except.error.inj he
      cases kind with
      | fixed length => simp [fieldLength] at hlength
      | varying =>
        rcases Varint.error_of_decodeGroups hlength with rfl | ⟨offset, rfl⟩
        · exact ⟨_, rfl⟩
        · exact ⟨_, rfl⟩
    · split at h
      · obtain ⟨-, he⟩ := Prod.mk.inj h
        exact ih (Prod.ext rfl he)
      · obtain ⟨-, he⟩ := Prod.mk.inj h
        exact ⟨_, (Except.error.inj he).symm⟩

/-- Leading fields of fixed length are located whatever the bytes are, unless their lengths together
are none that a word holds. -/
theorem length_le_of_locate (buf : Bytes) {fixed : List FieldKind} (others : List FieldKind)
    (position total : Nat) (hfixed : ∀ kind ∈ fixed, kind.isVarying = false)
    (hsum : total + (fixed.map FieldKind.least).sum < Numeral.word) :
    fixed.length ≤ (locate buf (fixed ++ others) position total).1.length := by
  induction fixed generalizing total with
  | nil => exact Nat.zero_le _
  | cons kind fixed ih =>
    rw [List.forall_mem_cons] at hfixed
    rw [List.map_cons, List.sum_cons, ← Nat.add_assoc] at hsum
    cases kind with
    | varying => simp [FieldKind.isVarying] at hfixed
    | fixed length =>
      have hword : total + length < Numeral.word := by
        simp only [FieldKind.least] at hsum
        omega
      have hrest := ih (total + length) hfixed.2 hsum
      simp only [List.cons_append, locate, fieldLength, if_pos hword, List.length_cons]
      exact Nat.succ_le_succ hrest

/-- Where all fields are located, so are those behind the first. -/
theorem locate_cons_eq_ok {buf : Bytes} {kind : FieldKind} {kinds : List FieldKind}
    {position total : Nat} {ends : List Nat} {answer : Nat × Nat}
    (h : locate buf (kind :: kinds) position total = (ends, .ok answer)) :
    ∃ length next others, locate buf kinds next (total + length) = (others, .ok answer) ∧
      ends = (total + length) :: others := by
  rw [locate] at h
  split at h
  · simp at h
  · rename_i length next hlength
    split at h
    · cases hothers : locate buf kinds next (total + length) with
      | mk others found =>
        rw [hothers] at h
        obtain ⟨rfl, rfl⟩ := Prod.mk.inj h
        exact ⟨length, next, others, hothers, rfl⟩
    · simp at h

theorem le_of_locate {buf : Bytes} {kinds : List FieldKind} {position total first whole : Nat}
    {ends : List Nat} (h : locate buf kinds position total = (ends, .ok (first, whole))) :
    total ≤ whole := by
  induction kinds generalizing position total ends with
  | nil =>
    simp only [locate, Prod.mk.injEq, Except.ok.injEq] at h
    omega
  | cons kind kinds ih =>
    obtain ⟨length, next, others, hothers, -⟩ := locate_cons_eq_ok h
    exact Nat.le_trans (Nat.le_add_right ..) (ih hothers)

/-- Where all fields are located, as many bytes as they take are cut at their ends. -/
theorem exists_cut_of_locate {buf : Bytes} {kinds : List FieldKind} {position total : Nat}
    {ends : List Nat} {first whole : Nat}
    (h : locate buf kinds position total = (ends, .ok (first, whole))) (data : Bytes)
    (hdata : whole ≤ total + data.length) :
    ∃ fields rest, data = fields.flatten ++ rest ∧ ends = Stored.ends total fields ∧
      fields.length = kinds.length := by
  induction kinds generalizing position total ends data with
  | nil =>
    obtain ⟨rfl, -⟩ := Prod.mk.inj h
    exact ⟨[], data, rfl, rfl, rfl⟩
  | cons kind kinds ih =>
    obtain ⟨length, next, others, hothers, rfl⟩ := locate_cons_eq_ok h
    have hle := le_of_locate hothers
    obtain ⟨fields, rest, hcut, hends, hcount⟩ := ih hothers (data.drop length) (by
      rw [List.length_drop]
      omega)
    have htake : (data.take length).length = length := by
      rw [List.length_take]
      omega
    refine ⟨data.take length :: fields, rest, ?_, ?_, congrArg Nat.succ hcount⟩
    · rw [List.flatten_cons, List.append_assoc, ← hcut, List.take_append_drop]
    · rw [Stored.ends, htake, hends]

end Stored

namespace Codec

/-- The lengths of a codec are ones that a word holds: that of all fields together where each is
the least its kind allows, and the number of fields. -/
structure Sized (codec : Codec) : Prop where
  lengths : (codec.kinds.map FieldKind.least).sum < Numeral.word
  count : codec.kinds.length < Numeral.word

theorem length_storedKinds (codec : Codec) :
    codec.shape.storedKinds.length = codec.shape.storedFields := by
  cases codec with
  | plain kinds => simp [shape, Shape.storedKinds, Shape.storedFields, Plain.stretch]
  | pointBox box =>
    have hlength := box.length_kinds
    simp only [shape, Shape.storedKinds, Shape.storedFields, PointBox.storedKinds, PointBox.stored,
      PointBox.keyFields, List.length_append, List.length_take, List.length_drop]
    omega

theorem storedFields_le (codec : Codec) : codec.shape.storedFields ≤ codec.kinds.length := by
  cases codec with
  | plain kinds => exact Nat.le_refl _
  | pointBox box =>
    have := box.length_kinds
    simp only [shape, Shape.storedFields, kinds]
    omega

/-- What a reader relies on of the lengths of a codec: that those of the coordinates of a box fit
together, and the number of fields fits too. -/
structure Measured (codec : Codec) : Prop where
  coordinates : ((codec.kinds.take codec.shape.coordinates).map FieldKind.least).sum < Numeral.word
  count : codec.kinds.length < Numeral.word

theorem measured_of_sized {codec : Codec} (h : codec.Sized) : codec.Measured := by
  have hlengths := h.lengths
  rw [← List.take_append_drop codec.shape.coordinates codec.kinds, List.map_append,
    List.sum_append] at hlengths
  exact ⟨by omega, h.count⟩

/-- The fields whose lengths are taken to fit together are all located. -/
theorem coordinates_le_of_locate {codec : Codec} (hmeasured : codec.Measured) (buf : Bytes)
    (position : Nat) : codec.shape.coordinates ≤
      (Stored.locate buf codec.shape.storedKinds position 0).1.length := by
  cases codec with
  | plain kinds => exact Nat.zero_le _
  | pointBox box =>
    have hlength := box.length_kinds
    have htake : (box.kinds.take box.dimensions).length = box.dimensions := by
      rw [List.length_take]
      omega
    have hfixed : ∀ kind ∈ box.kinds.take box.dimensions, kind.isVarying = false := by
      intro kind hkind
      refine box.fixed_keys kind (List.take_subset_take_left _ ?_ hkind)
      omega
    have hsum : 0 + ((box.kinds.take box.dimensions).map FieldKind.least).sum < Numeral.word := by
      rw [Nat.zero_add]
      exact hmeasured.coordinates
    have hle := Stored.length_le_of_locate buf ((box.kinds.drop box.keyFields).take box.values)
      position 0 hfixed hsum
    rwa [htake] at hle

/-- A reset among any bytes places the reader on fields that lie in the buffer, or tells of
damage. -/
theorem reset_spec {codec : Codec} (hmeasured : codec.Measured) {buf : Bytes} {offset : Nat}
    (hoffset : offset ≤ buf.length) (hbuf : buf.length < Bytes.limit) :
    (∃ cause, (codec.reader.reset buf offset).2 = .error (.error (.damage cause))) ∨
      ∃ r stored, codec.reader.reset buf offset = (r, .ok ()) ∧ r.shape = codec.shape ∧
        r.On stored ∧ stored.length = codec.shape.storedFields := by
  have hstored := codec.storedFields_le
  have hcount := hmeasured.count
  simp only [Bytes.limit] at hbuf
  simp only [Numeral.word] at hcount
  have hstart : ¬ Numeral.word ≤ offset + Stored.bitmapSize codec.reader.shape.storedFields := by
    simp only [Numeral.word, Stored.bitmapSize, reader]
    omega
  have hcoordinates := coordinates_le_of_locate hmeasured buf
    (offset + Stored.bitmapSize codec.shape.storedFields)
  simp only [Reader.reset, if_neg hstart]
  split
  · exact .inl ⟨_, rfl⟩
  · split
    · rename_i ends e hlocate
      obtain ⟨cause, rfl⟩ := Stored.damage_of_locate hlocate
      refine .inl ⟨cause, ?_⟩
      rw [reader] at hlocate
      rw [hlocate] at hcoordinates
      show Except.error (Shape.failure codec.shape ends.length (.damage cause)) = _
      rw [Shape.failure, if_neg (Nat.not_lt.2 hcoordinates)]
    · rename_i ends first whole hlocate
      split
      · exact .inl ⟨_, rfl⟩
      · rename_i hroom
        obtain ⟨fields, rest, hcut, hends, hlength⟩ :=
          Stored.exists_cut_of_locate hlocate (buf.drop first) (by
            rw [List.length_drop]
            omega)
        refine .inr ⟨_, fields, rfl, rfl, ⟨hends, buf.take first, rest, ?_, ?_⟩,
          hlength.trans codec.length_storedKinds⟩
        · rw [List.append_assoc, ← hcut, List.take_append_drop]
        · show first = (buf.take first).length
          rw [List.length_take]
          omega

/-- Every field shown is one of those stored. -/
theorem exists_shows {codec : Codec} {stored : Tuple}
    (h : stored.length = codec.shape.storedFields) : ∃ tuple, codec.shape.Shows stored tuple := by
  have hindex : ∀ i < codec.shape.fields, ∃ j, codec.shape.storedIndex? i = some j ∧
      j < stored.length := by
    intro i hi
    rw [h]
    cases codec with
    | plain kinds => exact ⟨i, rfl, hi⟩
    | pointBox box =>
      have hpos := box.dimensions_pos
      have hi : i < box.keyFields + box.values := hi
      have hmod := Nat.mod_lt i hpos
      refine ⟨box.storedIndex i, if_pos hi, ?_⟩
      rw [PointBox.keyFields] at hi
      show box.storedIndex i < box.dimensions + box.values
      simp only [PointBox.storedIndex, PointBox.keyFields]
      grind
  refine ⟨(List.range codec.shape.fields).map fun i =>
    ((codec.shape.storedIndex? i).bind (stored[·]?)).getD [], by simp, h, fun i hi => ?_⟩
  rw [List.length_map, List.length_range] at hi
  obtain ⟨j, hj, hlt⟩ := hindex i hi
  exact ⟨j, hj, hlt, by simp [hi, hj, hlt]⟩

/-- Whatever the bytes, a tuple is read from them or the damage is told. -/
theorem guarded_read {codec : Codec} (hmeasured : codec.Measured) {buf : Bytes} {offset : Nat}
    (hoffset : offset ≤ buf.length) (hbuf : buf.length < Bytes.limit) :
    (codec.read buf offset).Guarded := by
  rcases reset_spec hmeasured hoffset hbuf with
    ⟨cause, herror⟩ | ⟨r, stored, hreset, hshape, hon, hlength⟩
  · rw [read]
    split
    · rename_i r e hreset
      rw [hreset] at herror
      obtain rfl := Except.error.inj herror
      exact Outcome.guarded_damage cause
    · rename_i r hreset
      rw [hreset] at herror
      contradiction
  · obtain ⟨tuple, hshows⟩ := exists_shows hlength
    rw [read, hreset]
    rw [← hshape] at hshows
    show r.tuple.Guarded
    rw [Reader.tuple_of_on hon hshows]
    exact Outcome.guarded_ok tuple

end Codec

end Strata
