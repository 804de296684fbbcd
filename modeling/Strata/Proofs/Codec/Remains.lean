import Strata.Proofs.Codec.Placement

/-!
# What a failed reset leaves of a tuple

A reader that stands on a tuple is placed again, and that fails. It goes on showing its old buffer
from its old positions, but the ends of the fields have been replaced by those found in the new
buffer, unless not even the bitmap fitted there. So the tuple is shown as before just where nothing
was replaced, or the slots in the new buffer tell the same lengths again. Where they could not all
be read, the reader counts a field that it knows no end of.
-/

namespace Strata

namespace Stored

variable {buf : Bytes} {kinds : List FieldKind} {position total : Nat}

/-- No more ends are found than there are fields. -/
theorem length_locate_le (buf : Bytes) (kinds : List FieldKind) (position total : Nat) :
    (locate buf kinds position total).1.length ≤ kinds.length := by
  induction kinds generalizing position total with
  | nil => exact Nat.le_refl _
  | cons kind kinds ih =>
    rw [locate]
    split
    · exact Nat.zero_le _
    · split
      · exact Nat.succ_le_succ (ih _ _)
      · exact Nat.zero_le _

/-- Of slots that cannot all be read, some end is not found. -/
theorem length_lt_of_locate {ends : List Nat} {e : Error}
    (h : locate buf kinds position total = (ends, .error e)) : ends.length < kinds.length := by
  induction kinds generalizing position total ends with
  | nil => simp [locate] at h
  | cons kind kinds ih =>
    rw [locate] at h
    split at h
    · obtain ⟨rfl, -⟩ := Prod.mk.inj h
      exact Nat.succ_pos _
    · rename_i length next hlength
      split at h
      · obtain ⟨rfl, hanswer⟩ := Prod.mk.inj h
        exact Nat.succ_lt_succ (ih (Prod.ext rfl hanswer))
      · obtain ⟨rfl, -⟩ := Prod.mk.inj h
        exact Nat.succ_pos _

/-- All ends are found just where slots can be read, of lengths that a word holds together. -/
theorem exists_locate_iff :
    (∃ cut, (locate buf kinds position 0).2 = .ok cut) ↔
      ∃ lengths dataStart, Slots buf position kinds lengths dataStart ∧
        lengths.sum < Numeral.word := by
  constructor
  · rintro ⟨⟨dataStart, whole⟩, hcut⟩
    have hlocate : locate buf kinds position 0 = (_, .ok (dataStart, whole)) := Prod.ext rfl hcut
    obtain ⟨fields, _, _, hends, hlength⟩ :=
      exists_cut_of_locate hlocate (Bytes.zeros whole) (by simp)
    obtain ⟨hslots, rfl⟩ := slots_of_locate hlocate hends hlength
    have hword := lt_word_of_locate hlocate (by decide)
    rw [Nat.zero_add] at hword
    exact ⟨_, dataStart, hslots, hword⟩
  · rintro ⟨lengths, dataStart, hslots, hsum⟩
    obtain ⟨fields, rfl⟩ : ∃ fields : Tuple, fields.map List.length = lengths :=
      ⟨lengths.map Bytes.zeros, by simp [Function.comp_def]⟩
    have hpayload : Tuple.payload fields = (fields.map List.length).sum := rfl
    rw [locate_of_slots hslots 0 (by omega)]
    exact ⟨_, rfl⟩

/-- The ends that are found are those of some fields just where the slots tell the lengths of these
fields. -/
theorem locate_eq_ends_iff {fields : Tuple} (hlength : fields.length = kinds.length)
    (hroom : total + Tuple.payload fields < Numeral.word) :
    (locate buf kinds position total).1 = ends total fields ↔
      ∃ dataStart, Slots buf position kinds (fields.map List.length) dataStart := by
  constructor
  · intro hends
    cases hlocate : locate buf kinds position total with
    | mk found answer =>
      rw [hlocate] at hends
      cases answer with
      | error e =>
        have hfew := length_lt_of_locate hlocate
        have hall := congrArg List.length hends
        rw [length_ends] at hall
        dsimp only at hall
        omega
      | ok cut =>
        obtain ⟨dataStart, whole⟩ := cut
        exact ⟨dataStart, (slots_of_locate hlocate hends hlength).1⟩
  · rintro ⟨dataStart, hslots⟩
    rw [locate_of_slots hslots total hroom]

end Stored

namespace Shape

/-- Each stored field is shown. -/
theorem Of.exists_shown {codec : Codec} {shape : Shape} (h : Of codec shape) {j : Nat}
    (hj : j < shape.storedFields) : ∃ i < shape.fields, shape.storedIndex? i = some j := by
  cases h with
  | plain h => exact ⟨j, hj, rfl⟩
  | pointBox box =>
    have hj : j < box.dimensions + box.values := hj
    have hfields : (Shape.pointBox box).fields = 2 * box.dimensions + box.values := rfl
    by_cases hlow : j < box.dimensions
    · have hi : j < box.fields := by
        rw [PointBox.fields, PointBox.keyFields]
        omega
      refine ⟨j, hi, ?_⟩
      rw [storedIndex?, if_pos hi, PointBox.storedIndex, if_pos hlow]
    -- values are stored behind half of the key fields
    · have hi : j + box.dimensions < box.fields := by
        rw [PointBox.fields, PointBox.keyFields]
        omega
      refine ⟨j + box.dimensions, hi, ?_⟩
      rw [storedIndex?, if_pos hi, PointBox.storedIndex, if_neg (by omega),
        if_neg (by rw [PointBox.keyFields]; omega), Nat.add_sub_cancel]

end Shape

namespace Reader

variable {codec : Codec} {r r' : Reader} {buf : Bytes} {offset : Nat}

/-- A reset that fails replaces nothing but the ends of the fields, and not even these where the
bitmap does not fit. -/
theorem reset_eq_error {e : Error} (h : r.reset buf offset = (r', .error (.error e))) :
    (buf.length < offset + Stored.bitmapSize r.shape.storedFields ∧ r' = r) ∨
      (offset + Stored.bitmapSize r.shape.storedFields ≤ buf.length ∧
        r' = { r with ends := (Stored.locate buf r.shape.storedKinds
          (offset + Stored.bitmapSize r.shape.storedFields) 0).1 }) := by
  simp only [reset] at h
  split at h
  · simp at h
  · split at h
    · rename_i hbitmap
      exact .inl ⟨hbitmap, (Prod.mk.inj h).1.symm⟩
    · rename_i hbitmap
      refine .inr ⟨Nat.not_lt.1 hbitmap, ?_⟩
      split at h
      · rename_i hlocate
        rw [hlocate]
        exact (Prod.mk.inj h).1.symm
      · rename_i hlocate
        rw [hlocate]
        split at h
        · exact (Prod.mk.inj h).1.symm
        · simp at h

/-- Of a field that is shown, the end is known. -/
theorem getElem?_ends_of_field {i j first : Nat} {f : Bytes}
    (hj : r.shape.storedIndex? i = some j) (hbegin : r.beginOf j = .ok first)
    (h : r.field i = .ok f) : r.ends[j]? = some (first + f.length) := by
  rw [field, hj] at h
  obtain ⟨j', hj', h⟩ := Outcome.bind_eq_ok_iff.1 h
  obtain rfl : j = j' := Except.ok.inj hj'
  obtain ⟨first', hfirst, h⟩ := Outcome.bind_eq_ok_iff.1 h
  obtain rfl : first = first' := Except.ok.inj (hbegin.symm.trans hfirst)
  obtain ⟨last, hlast, h⟩ := Outcome.bind_eq_ok_iff.1 h
  rw [between] at h
  split at h
  · rename_i hroom
    obtain rfl := Except.ok.inj h
    rw [endOf, Outcome.ofOption_eq_ok_iff] at hlast
    rw [hlast, Bytes.length_slice]
    congr 1
    omega
  · contradiction

/-- A field whose end is not known breaks a precondition. -/
theorem field_eq_breach {i j : Nat} (hj : r.shape.storedIndex? i = some j)
    (hunknown : r.ends.length ≤ j) : r.field i = .error .breach := by
  have hend : r.endOf j = .error .breach := by
    rw [endOf, List.getElem?_eq_none hunknown]
    rfl
  have hbegin : ∀ e, r.beginOf j = .error e → e = .breach := by
    intro e h
    cases j with
    | zero => contradiction
    | succ j =>
      rw [beginOf, endOf] at h
      cases hfirst : r.ends[j]? with
      | none =>
        rw [hfirst] at h
        exact (Except.error.inj h).symm
      | some first =>
        rw [hfirst] at h
        contradiction
  rw [field, hj]
  cases hfirst : r.beginOf j with
  | ok first => simp only [Outcome.ofOption, hfirst, hend, bind, Except.bind]
  | error e =>
    obtain rfl := hbegin e hfirst
    simp only [Outcome.ofOption, hfirst, bind, Except.bind]

/-- Where the fields are still shown as they were, the ends of the fields are what they were. -/
theorem ends_of_fields {stored : Tuple} {ends : List Nat} (hof : r.shape.Of codec)
    (hon : r.On stored) (hcount : stored.length = r.shape.storedFields)
    (hle : ends.length ≤ stored.length)
    (hsame : ∀ i < r.fields, ({ r with ends := ends } : Reader).field i = r.field i) :
    ends = r.ends := by
  have hnext : ∀ j < stored.length,
      ({ r with ends := ends } : Reader).beginOf j = .ok (Tuple.payload (stored.take j)) →
        ends[j]? = some (Tuple.payload (stored.take (j + 1))) := by
    intro j hj hbegin
    obtain ⟨i, hi, hij⟩ := hof.exists_shown (hcount ▸ hj)
    have hfield := (hsame i hi).trans (field_of_stored hon hij hj)
    rw [Tuple.payload_take_succ hj]
    exact getElem?_ends_of_field (r := { r with ends := ends }) hij hbegin hfield
  have hend : ∀ j < stored.length, ends[j]? = some (Tuple.payload (stored.take (j + 1))) := by
    intro j hj
    induction j with
    | zero => exact hnext 0 hj rfl
    -- the end of one field is where the next begins
    | succ j ih =>
      refine hnext (j + 1) hj ?_
      rw [beginOf, endOf, Outcome.ofOption_eq_ok_iff]
      exact ih (Nat.lt_of_succ_lt hj)
  rw [hon.ends]
  refine List.ext_getElem? fun j => ?_
  by_cases hj : j < stored.length
  · rw [hend j hj, Stored.getElem?_ends 0 hj, Nat.zero_add]
  · rw [List.getElem?_eq_none (by omega), List.getElem?_eq_none (by rw [Stored.length_ends]; omega)]

end Reader

namespace Codec

/-- After a failed reset a reader counts as many fields as before. It shows them as before just
where not even the bitmap fitted into the new buffer, or the slots there tell their lengths. Where
slots are missing or broken, some field breaks a precondition. -/
theorem shown_after_failed_reset (codec : Codec) (uses : List Reader.Use)
    {buf buf' : Bytes} {offset offset' : Nat} {r r' : Reader} {e : Error}
    (hplaced : (codec.reader.after uses).reset buf offset = (r, .ok ()))
    (hfailed : r.reset buf' offset' = (r', .error (.error e))) :
    let slots := offset' + Stored.bitmapSize r.shape.storedFields
    r'.fields = r.fields ∧
    ((∀ i < r.fields, r'.field i = r.field i) ↔ r' = r) ∧
    (∃ stored : Tuple, r.On stored ∧ stored.length = r.shape.storedFields ∧
      (r' = r ↔ buf'.length < slots ∨ ∃ dataStart,
        Stored.Slots buf' slots r.shape.storedKinds (stored.map List.length) dataStart)) ∧
    (slots ≤ buf'.length →
      (¬ ∃ lengths dataStart, Stored.Slots buf' slots r.shape.storedKinds lengths dataStart ∧
        lengths.sum < Numeral.word) →
      ∃ i < r.fields, r'.field i = .error .breach) := by
  intro slots
  obtain ⟨stored, hshape, -, -, hon, hcount, hroom, -⟩ :=
    Reader.placed_of_reset (shape_after codec uses).1 hplaced
  have hof : r.shape.Of codec := hshape ▸ (shape_after codec uses).1
  rw [← hshape] at hcount
  have hkinds : r.shape.storedKinds.length = stored.length := by
    rw [hof.length_storedKinds, hcount]
  rcases Reader.reset_eq_error hfailed with ⟨hshort, rfl⟩ | ⟨hbitmap, rfl⟩
  · refine ⟨rfl, iff_of_true (fun _ _ => rfl) rfl,
      ⟨stored, hon, hcount, iff_of_true rfl (.inl hshort)⟩, fun hbitmap => ?_⟩
    exact absurd hshort (Nat.not_lt.2 hbitmap)
  · have hle := Stored.length_locate_le buf' r.shape.storedKinds slots 0
    have hsame : { r with ends := (Stored.locate buf' r.shape.storedKinds slots 0).1 } = r ↔
        (Stored.locate buf' r.shape.storedKinds slots 0).1 = r.ends :=
      ⟨fun h => congrArg Reader.ends h, fun h => by rw [h]⟩
    refine ⟨rfl, ⟨fun hfields => ?_, fun h _ _ => by rw [h]⟩, ⟨stored, hon, hcount, ?_⟩,
      fun _ hbroken => ?_⟩
    · exact hsame.2 (Reader.ends_of_fields hof hon hcount (hkinds ▸ hle) hfields)
    · rw [hsame, hon.ends, Stored.locate_eq_ends_iff hkinds.symm (by omega), or_iff_right]
      exact Nat.not_lt.2 hbitmap
    · rw [← Stored.exists_locate_iff] at hbroken
      cases hlocate : Stored.locate buf' r.shape.storedKinds slots 0 with
      | mk ends answer =>
        rw [hlocate] at hbroken
        cases answer with
        | ok cut => exact absurd ⟨cut, rfl⟩ hbroken
        | error e =>
          have hfew := Stored.length_lt_of_locate hlocate
          obtain ⟨i, hi, hj⟩ := hof.exists_shown (hof.length_storedKinds ▸ hfew)
          exact ⟨i, hi, Reader.field_eq_breach hj (Nat.le_refl _)⟩

/-- A reader stands on two fields. Where the new buffer ends behind the slot of the first, the
second is lost; where it ends behind both slots, and these tell the lengths shown, both are shown as
before. -/
theorem second_field_lost_or_kept :
    ∃ r lost kept e e', ((plain [.varying, .varying]).reader.after []).reset
        [0, 1, 1, 97, 98] 0 = (r, .ok ()) ∧
      r.tuple = .ok [[97], [98]] ∧
      r.reset [0, 1] 0 = (lost, .error (.error e)) ∧
      (∃ i < r.fields, lost.field i = .error .breach) ∧
      r.reset [0, 1, 1, 99] 0 = (kept, .error (.error e')) ∧
      ∀ i < r.fields, kept.field i = r.field i := by
  have hplaced : ((plain [.varying, .varying]).reader.after []).reset [0, 1, 1, 97, 98] 0 =
      (⟨.plain [.varying, .varying] 0 2, [1, 2], [0, 1, 1, 97, 98], 0, 3⟩, .ok ()) := rfl
  have hlost : Reader.reset ⟨.plain [.varying, .varying] 0 2, [1, 2], [0, 1, 1, 97, 98], 0, 3⟩
      [0, 1] 0 = (⟨.plain [.varying, .varying] 0 2, [1], [0, 1, 1, 97, 98], 0, 3⟩,
        .error (.error (.damage (.varintTruncated 2)))) := rfl
  have hkept : Reader.reset ⟨.plain [.varying, .varying] 0 2, [1, 2], [0, 1, 1, 97, 98], 0, 3⟩
      [0, 1, 1, 99] 0 = (⟨.plain [.varying, .varying] 0 2, [1, 2], [0, 1, 1, 97, 98], 0, 3⟩,
        .error (.error (.damage (.fieldsTruncated .plain 0 2 3 4)))) := rfl
  have hslots : ¬ ∃ cut, (Stored.locate [0, 1] [.varying, .varying] 1 0).2 = .ok cut := by
    rintro ⟨cut, hcut⟩
    contradiction
  rw [Stored.exists_locate_iff] at hslots
  exact ⟨_, _, _, _, _, hplaced, rfl, hlost,
    (shown_after_failed_reset _ [] hplaced hlost).2.2.2 (by decide) hslots, hkept,
    (shown_after_failed_reset _ [] hplaced hkept).2.1.2 rfl⟩

end Codec

end Strata
