import Mathlib.Data.List.Induction
import Strata.Proofs.Codec.Damage
import Strata.Proofs.Codec.Forms

/-!
# Where a reader can be placed

A reader is placed on any bytes that have the form of a stored tuple: the bitmap, then a slot for
each field of varying length, then as many bytes as the fields take. It is kept and placed again and
again, and so what it knew before must not matter: a reset that succeeds leaves the reader that a
new one would be, with the range that was set last.
-/

namespace Strata

namespace Stored

/-- Slots from `position` on, one for each varying kind, give the lengths of the fields. The first
field begins at `dataStart`. -/
inductive Slots (buf : Bytes) :
    (position : Nat) → List FieldKind → List Nat → (dataStart : Nat) → Prop
  | nil (position : Nat) : Slots buf position [] [] position
  | fixed {position length dataStart : Nat} {kinds : List FieldKind} {lengths : List Nat}
      (hrest : Slots buf position kinds lengths dataStart) :
      Slots buf position (.fixed length :: kinds) (length :: lengths) dataStart
  | varying {position length size dataStart : Nat} {kinds : List FieldKind} {lengths : List Nat}
      (hslot : Varint.Slot 0 Varint.maxSize (buf.drop position) length size)
      (hrest : Slots buf (position + size) kinds lengths dataStart) :
      Slots buf position (.varying :: kinds) (length :: lengths) dataStart

variable {buf : Bytes} {kinds : List FieldKind} {position dataStart : Nat} {fields : Tuple}

/-- Induction over slots, each with the field whose length it tells. -/
@[elab_as_elim]
theorem Slots.induct
    {motive : (kinds : List FieldKind) → (position : Nat) → (fields : Tuple) →
      Slots buf position kinds (fields.map List.length) dataStart → Prop}
    (nil : motive [] dataStart [] (.nil dataStart))
    (fixed : ∀ {kinds position} (f : Bytes) {fields : Tuple}
      (hrest : Slots buf position kinds (fields.map List.length) dataStart),
      motive kinds position fields hrest →
        motive (.fixed f.length :: kinds) position (f :: fields) (.fixed hrest))
    (varying : ∀ {kinds position size} (f : Bytes) {fields : Tuple}
      (hslot : Varint.Slot 0 Varint.maxSize (buf.drop position) f.length size)
      (hrest : Slots buf (position + size) kinds (fields.map List.length) dataStart),
      motive kinds (position + size) fields hrest →
        motive (.varying :: kinds) position (f :: fields) (.varying hslot hrest))
    (h : Slots buf position kinds (fields.map List.length) dataStart) :
    motive kinds position fields h := by
  induction kinds generalizing position fields with
  | nil =>
    cases fields with
    | nil =>
      cases h
      exact nil
    | cons f fields => cases h
  | cons kind kinds ih =>
    cases fields with
    | nil => cases h
    | cons f fields =>
      cases h with
      | fixed hrest => exact fixed f hrest (ih hrest)
      | varying hslot hrest => exact varying f hslot hrest (ih hrest)

variable {lengths : List Nat}

theorem Slots.length_eq (h : Slots buf position kinds lengths dataStart) :
    lengths.length = kinds.length := by
  induction h with
  | nil => rfl
  | fixed _ ih => exact congrArg Nat.succ ih
  | varying _ _ ih => exact congrArg Nat.succ ih

theorem Slots.le (h : Slots buf position kinds lengths dataStart) : position ≤ dataStart := by
  induction h with
  | nil => exact Nat.le_refl _
  | fixed _ ih => exact ih
  | varying _ _ ih => exact Nat.le_trans (Nat.le_add_right _ _) ih

/-- A field of a fixed length has it. -/
theorem Slots.fixed_length (h : Slots buf position kinds lengths dataStart) {j length : Nat}
    (hkind : kinds[j]? = some (.fixed length)) : lengths[j]? = some length := by
  induction h generalizing j with
  | nil => simp at hkind
  | fixed _ ih =>
    cases j with
    | zero => simpa using hkind
    | succ j => exact ih hkind
  | varying _ _ ih =>
    cases j with
    | zero => simp at hkind
    | succ j => exact ih hkind

/-- Where all fields are located, the slots give their lengths. -/
theorem slots_of_locate {total whole : Nat} {ends : List Nat}
    (h : locate buf kinds position total = (ends, .ok (dataStart, whole)))
    (hends : ends = Stored.ends total fields) (hlength : fields.length = kinds.length) :
    Slots buf position kinds (fields.map List.length) dataStart ∧
      whole = total + Tuple.payload fields := by
  induction kinds generalizing position total ends fields with
  | nil =>
    obtain rfl := List.eq_nil_of_length_eq_zero hlength
    simp only [locate, Prod.mk.injEq, Except.ok.injEq] at h
    obtain ⟨-, rfl, rfl⟩ := h
    exact ⟨.nil position, rfl⟩
  | cons kind kinds ih =>
    cases fields with
    | nil => simp at hlength
    | cons f fields =>
      rw [locate] at h
      split at h
      · simp at h
      · rename_i length next hfield
        split at h
        · obtain ⟨hhead, hanswer⟩ := Prod.mk.inj h
          rw [hends, Stored.ends] at hhead
          obtain ⟨hfirst, hothers⟩ := List.cons.inj hhead
          obtain rfl : length = f.length := Nat.add_left_cancel hfirst
          obtain ⟨hslots, rfl⟩ := ih (Prod.ext rfl hanswer) hothers (Nat.succ.inj hlength)
          refine ⟨?_, by rw [Tuple.payload_cons, Nat.add_assoc]⟩
          cases kind with
          | fixed length =>
            obtain ⟨rfl, rfl⟩ := Prod.mk.inj (Except.ok.inj hfield)
            exact .fixed hslots
          | varying =>
            obtain ⟨size, rfl, hslot⟩ := Varint.decode_eq_ok_iff.1 hfield
            exact .varying hslot hslots
        · simp at h

/-- What the fields take together is a number that a word holds. -/
theorem lt_word_of_locate {total whole : Nat} {ends : List Nat}
    (h : locate buf kinds position total = (ends, .ok (dataStart, whole)))
    (htotal : total < Numeral.word) : whole < Numeral.word := by
  induction kinds generalizing position total ends with
  | nil =>
    simp only [locate, Prod.mk.injEq, Except.ok.injEq] at h
    omega
  | cons kind kinds ih =>
    rw [locate] at h
    split at h
    · simp at h
    · split at h
      · rename_i hsum
        exact ih (Prod.ext rfl (Prod.mk.inj h).2) hsum
      · simp at h

/-- Where the slots give the lengths of fields that a word holds together, the fields are located at
their ends. -/
theorem locate_of_slots (h : Slots buf position kinds (fields.map List.length) dataStart)
    (total : Nat) (hroom : total + Tuple.payload fields < Numeral.word) :
    locate buf kinds position total =
      (ends total fields, .ok (dataStart, total + Tuple.payload fields)) := by
  induction h using Slots.induct generalizing total with
  | nil => rfl
  | fixed f hrest ih =>
    rw [Tuple.payload_cons, ← Nat.add_assoc] at hroom ⊢
    have hrest' := ih (total + f.length) hroom
    rw [locate, fieldLength]
    dsimp only
    rw [if_pos (by omega), hrest', ends]
  | varying f hslot hrest ih =>
    rw [Tuple.payload_cons, ← Nat.add_assoc] at hroom ⊢
    have hrest' := ih (total + f.length) hroom
    rw [locate, fieldLength, Varint.decode_eq_ok_iff.2 ⟨_, rfl, hslot⟩]
    dsimp only
    rw [if_pos (by omega), hrest', ends]

end Stored

namespace Shape

variable {shape : Shape} {buf : Bytes} {offset dataStart : Nat} {lengths : List Nat}

/-- Bytes that have the form of a stored tuple from `offset` on, with fields of the lengths given.
The first of them begins at `dataStart`. -/
structure Fits (shape : Shape) (buf : Bytes) (offset : Nat) (lengths : List Nat)
    (dataStart : Nat) : Prop where
  bitmap : offset + Stored.bitmapSize shape.storedFields ≤ buf.length
  slots : Stored.Slots buf (offset + Stored.bitmapSize shape.storedFields) shape.storedKinds lengths
    dataStart
  room : dataStart + lengths.sum ≤ buf.length

/-- The kind that the stored field shown as field `index` was declared with. An upper coordinate of
a box is stored as the lower one of its dimension. -/
def kindAt? : Shape → (index : Nat) → Option FieldKind
  | .plain kinds start _, index => kinds[start + index]?
  | .pointBox box, index =>
    if box.dimensions ≤ index ∧ index < box.keyFields then box.kinds[index % box.dimensions]?
    else box.kinds[index]?

/-- What a reader of a codec may take tuples for: a stretch of its kinds, or its box. -/
inductive Of : Codec → Shape → Prop
  | plain {kinds : List FieldKind} {start count : Nat} (h : start + count ≤ kinds.length) :
      Of (.plain kinds) (.plain kinds start count)
  | pointBox (box : PointBox) : Of (.pointBox box) (.pointBox box)

theorem of_shape (codec : Codec) : Of codec codec.shape := by
  cases codec with
  | plain kinds => exact .plain (Nat.le_of_eq (Nat.zero_add _))
  | pointBox box => exact .pointBox box

variable {codec : Codec}

theorem Of.length_storedKinds (h : Of codec shape) :
    shape.storedKinds.length = shape.storedFields := by
  cases h with
  | @plain kinds start count h =>
    simp only [storedKinds, storedFields, Plain.length_stretch]
    omega
  | pointBox box => exact Codec.length_storedKinds (.pointBox box)

/-- Each field shown is a stored one, of the kind declared for it. -/
theorem Of.exists_stored (h : Of codec shape) {i : Nat} (hi : i < shape.fields) :
    ∃ j, shape.storedIndex? i = some j ∧ j < shape.storedFields ∧
      shape.storedKinds[j]? = shape.kindAt? i := by
  cases h with
  | plain h => exact ⟨i, rfl, hi, Plain.getElem?_stretch hi⟩
  | pointBox box =>
    have hi : i < box.fields := hi
    have hpos := box.dimensions_pos
    have hlower : ∀ j < box.dimensions, box.storedKinds[j]? = box.kinds[j]? := by
      intro j hj
      have htake : j < (box.kinds.take box.dimensions).length := by
        have hlength := box.length_kinds
        rw [List.length_take]
        omega
      rw [PointBox.storedKinds, PointBox.stored, List.getElem?_append_left htake,
        List.getElem?_take_of_lt hj]
    refine ⟨box.storedIndex i, if_pos hi, ?_⟩
    simp only [storedFields, storedKinds, kindAt?, PointBox.storedIndex]
    rcases Nat.lt_or_ge i box.dimensions with hlow | hlow
    · rw [if_pos hlow, if_neg (by omega)]
      exact ⟨by omega, hlower i hlow⟩
    · rw [if_neg (by omega)]
      rcases Nat.lt_or_ge i box.keyFields with hup | hup
      · have hmod := Nat.mod_lt i hpos
        rw [if_pos hup, if_pos ⟨hlow, hup⟩]
        exact ⟨by omega, hlower _ hmod⟩
      · rw [if_neg (by omega), if_neg (by omega)]
        simp only [PointBox.fields] at hi
        have hlength := box.length_kinds
        have htake : (box.kinds.take box.dimensions).length = box.dimensions := by
          rw [List.length_take]
          omega
        simp only [PointBox.keyFields] at hup hi
        refine ⟨by omega, ?_⟩
        rw [PointBox.storedKinds, PointBox.stored, List.getElem?_append_right (by omega), htake,
          PointBox.keyFields, List.getElem?_take_of_lt (by omega), List.getElem?_drop]
        congr 1
        omega

end Shape

namespace Reader

variable {codec : Codec} {r : Reader} {buf : Bytes} {offset : Nat}

/-- The fields whose lengths are taken to fit together are all located. -/
theorem coordinates_le (hof : r.shape.Of codec) (hsized : codec.Sized) (buf : Bytes)
    (position : Nat) :
    r.shape.coordinates ≤ (Stored.locate buf r.shape.storedKinds position 0).1.length := by
  cases codec with
  | plain kinds =>
    generalize r.shape = shape at hof
    cases hof
    exact Nat.zero_le _
  | pointBox box =>
    have hshape : r.shape = (Codec.pointBox box).shape := by
      generalize r.shape = shape at hof
      cases hof
      rfl
    rw [hshape]
    exact Codec.coordinates_le_of_locate (Codec.measured_of_sized hsized) buf position

/-- A reset that succeeds places the reader on fields of the lengths that the slots give. -/
theorem placed_of_reset {placed : Reader} (hof : r.shape.Of codec)
    (h : r.reset buf offset = (placed, .ok ())) :
    ∃ stored : Tuple, placed.shape = r.shape ∧ placed.buf = buf ∧ placed.tupleStart = offset ∧
      placed.On stored ∧ stored.length = r.shape.storedFields ∧
      Tuple.payload stored < Numeral.word ∧
      r.shape.Fits buf offset (stored.map List.length) placed.dataStart := by
  simp only [reset] at h
  split at h
  · simp at h
  · split at h
    · simp at h
    · rename_i hbitmap
      split at h
      · simp at h
      · rename_i ends dataStart whole hlocate
        split at h
        · simp at h
        · rename_i hroom
          obtain ⟨rfl, -⟩ := Prod.mk.inj h
          obtain ⟨stored, rest, hcut, hends, hlength⟩ :=
            Stored.exists_cut_of_locate hlocate (buf.drop dataStart) (by
              rw [List.length_drop]
              omega)
          have hword := Stored.lt_word_of_locate hlocate (by decide)
          obtain ⟨hslots, rfl⟩ := Stored.slots_of_locate hlocate hends hlength
          rw [Nat.zero_add] at hroom hword
          refine ⟨stored, rfl, rfl, rfl, ⟨hends, buf.take dataStart, rest, ?_, ?_⟩,
            hlength.trans hof.length_storedKinds, hword,
            Nat.not_lt.1 hbitmap, hslots, Nat.not_lt.1 hroom⟩
          · rw [List.append_assoc, ← hcut, List.take_append_drop]
          · rw [List.length_take]
            show dataStart = min dataStart buf.length
            omega

/-- A reset succeeds or tells of damage. -/
theorem reset_cases (hof : r.shape.Of codec) (hsized : codec.Sized)
    (hoffset : offset + Stored.bitmapSize r.shape.storedFields < Numeral.word) :
    (∃ cause, (r.reset buf offset).2 = .error (.error (.damage cause))) ∨
      ∃ placed, r.reset buf offset = (placed, .ok ()) := by
  have hcoordinates := coordinates_le hof hsized buf
    (offset + Stored.bitmapSize r.shape.storedFields)
  simp only [reset, if_neg (Nat.not_le.2 hoffset)]
  split
  · exact .inl ⟨_, rfl⟩
  · split
    · rename_i ends e hlocate
      obtain ⟨cause, rfl⟩ := Stored.damage_of_locate hlocate
      rw [hlocate] at hcoordinates
      refine .inl ⟨cause, ?_⟩
      rw [Shape.failure, if_neg (Nat.not_lt.2 hcoordinates)]
    · split
      · exact .inl ⟨_, rfl⟩
      · exact .inr ⟨_, rfl⟩

/-- Bytes of the form of a stored tuple are accepted. -/
theorem reset_of_fits {lengths : List Nat} {dataStart : Nat}
    (hfits : r.shape.Fits buf offset lengths dataStart) (hbuf : buf.length < Numeral.word) :
    (r.reset buf offset).2 = .ok () := by
  have hbitmap := hfits.bitmap
  have hroom := hfits.room
  obtain ⟨fields, rfl⟩ : ∃ fields : Tuple, fields.map List.length = lengths :=
    ⟨lengths.map Bytes.zeros, by simp [Function.comp_def]⟩
  have hpayload : Tuple.payload fields = (fields.map List.length).sum := rfl
  have hlocate := Stored.locate_of_slots hfits.slots 0 (by omega)
  rw [Nat.zero_add] at hlocate
  simp only [reset, hlocate]
  rw [if_neg (by omega), if_neg (by omega), if_neg (by omega)]

/-- Only the shape of a reader matters to where it is placed. -/
theorem reset_congr {r' : Reader} (hshape : r.shape = r'.shape) (buf : Bytes) (offset : Nat) :
    (r.reset buf offset).2 = (r'.reset buf offset).2 ∧
      ((r.reset buf offset).2 = .ok () → (r.reset buf offset).1 = (r'.reset buf offset).1) := by
  obtain ⟨shape, ends, buf', tupleStart, dataStart⟩ := r
  obtain rfl := hshape
  simp only [reset]
  split
  · exact ⟨rfl, by simp⟩
  · split
    · exact ⟨rfl, by simp⟩
    · split
      · exact ⟨rfl, by simp⟩
      · split
        · exact ⟨rfl, by simp⟩
        · exact ⟨rfl, fun _ => rfl⟩

/-- A reader that is placed shows fields that lie side by side in the buffer. -/
theorem shows_of_on {stored : Tuple} (hof : r.shape.Of codec) (hon : r.On stored)
    (hslots : Stored.Slots buf offset r.shape.storedKinds (stored.map List.length) r.dataStart)
    {i : Nat} (hi : i < r.fields) :
    ∃ j field, r.shape.storedIndex? i = some j ∧ stored[j]? = some field ∧ r.field i = .ok field ∧
      ∀ length, r.shape.kindAt? i = some (.fixed length) → field.length = length := by
  obtain ⟨j, hj, hlt, hkind⟩ := hof.exists_stored hi
  have hcount := hslots.length_eq
  rw [List.length_map, hof.length_storedKinds] at hcount
  have hlt : j < stored.length := by omega
  refine ⟨j, stored[j], hj, List.getElem?_eq_getElem hlt, field_of_stored hon hj hlt, ?_⟩
  intro length hfixed
  have hlength := hslots.fixed_length (hkind.trans hfixed)
  simpa [hlt] using hlength

/-- What can be done to a reader. -/
inductive Use where
  | range (start count : Nat)
  | reset (buf : Bytes) (offset : Nat)
deriving Repr

/-- What a reader is after it was used, also where that failed. -/
def use (r : Reader) : Use → Reader
  | .range start count =>
    match r.setRange start count with
    | .ok r' => r'
    | .error _ => r
  | .reset buf offset => (r.reset buf offset).1

/-- A reader after it was used some times. -/
def after (r : Reader) (uses : List Use) : Reader := uses.foldl use r

@[simp] theorem after_concat (r : Reader) (uses : List Use) (u : Use) :
    r.after (uses ++ [u]) = (r.after uses).use u := by
  simp [after]

end Reader

namespace Codec

variable {codec : Codec}

/-- Whether a reader of a codec takes on a range. -/
def accepts (codec : Codec) : Reader.Use → Bool
  | .range start count => (codec.reader.setRange start count).isOk
  | .reset _ _ => false

/-- A new reader, with the range that was accepted last. -/
def fresh (codec : Codec) (uses : List Reader.Use) : Reader :=
  codec.reader.after (uses.filter codec.accepts).getLast?.toList

theorem fresh_concat (codec : Codec) (uses : List Reader.Use) (u : Reader.Use) :
    codec.fresh (uses ++ [u]) =
      if codec.accepts u then codec.reader.use u else codec.fresh uses := by
  cases haccepts : codec.accepts u with
  | true => simp [fresh, List.filter_append, haccepts, Reader.after]
  | false => simp [fresh, List.filter_append, haccepts]

/-- One use leaves a shape of the codec, and only a range that is accepted changes it. -/
theorem shape_use {r : Reader} (hof : r.shape.Of codec) (u : Reader.Use) :
    (r.use u).shape.Of codec ∧
      (r.use u).shape = if codec.accepts u then (codec.reader.use u).shape else r.shape := by
  obtain ⟨shape, ends, buf', tupleStart, dataStart⟩ := r
  cases u with
  | reset buf offset =>
    have hshape := Reader.shape_reset ⟨shape, ends, buf', tupleStart, dataStart⟩ buf offset
    exact ⟨hshape ▸ hof, hshape⟩
  | range start count =>
    cases hof with
    | @plain kinds _ _ h =>
      by_cases hle : start + count ≤ kinds.length
      · simp only [Reader.use, Reader.setRange, accepts, Codec.reader, Codec.shape, if_pos hle,
          Except.isOk, Except.toBool, if_true, and_true]
        exact .plain hle
      · simp only [Reader.use, Reader.setRange, accepts, Codec.reader, Codec.shape, if_neg hle,
          Except.isOk, Except.toBool, Bool.false_eq_true, if_false, and_true]
        exact .plain h
    | pointBox box => exact ⟨.pointBox box, rfl⟩

/-- However a reader was used, it takes tuples for what a new one with the last range takes them
for. -/
theorem shape_after (codec : Codec) (uses : List Reader.Use) :
    (codec.reader.after uses).shape.Of codec ∧
      (codec.reader.after uses).shape = (codec.fresh uses).shape := by
  induction uses using List.reverseRecOn with
  | nil => exact ⟨Shape.of_shape codec, rfl⟩
  | append_singleton uses u ih =>
    obtain ⟨hof, hshape⟩ := shape_use ih.1 u
    rw [Reader.after_concat, fresh_concat]
    refine ⟨hof, hshape.trans ?_⟩
    split
    · rfl
    · exact ih.2

/-- However a reader was used, a reset is answered as by a new reader of the range set last: bytes
are accepted just where they have the form of stored fields, and are damage otherwise. The fields
shown lie side by side in the buffer, of the lengths their kinds fix. -/
theorem reset_after_uses {codec : Codec} (hsized : codec.Sized) (uses : List Reader.Use)
    {buf : Bytes} {offset : Nat} (hbuf : buf.length < Bytes.limit)
    (hoffset : offset + Stored.bitmapSize (codec.fresh uses).shape.storedFields < Numeral.word)
    {placed : Reader} {answer : Outcome Unit}
    (hreset : (codec.reader.after uses).reset buf offset = (placed, answer)) :
    answer = ((codec.fresh uses).reset buf offset).2 ∧
    (answer = .ok () ↔
      ∃ lengths dataStart, (codec.fresh uses).shape.Fits buf offset lengths dataStart) ∧
    (answer = .ok () ∨ ∃ cause, answer = .error (.error (.damage cause))) ∧
    (answer = .ok () →
      placed = ((codec.fresh uses).reset buf offset).1 ∧
      ∃ (before : Bytes) (stored : Tuple) (after : Bytes),
        buf = before ++ stored.flatten ++ after ∧
        (codec.fresh uses).shape.Fits buf offset (stored.map List.length) before.length ∧
        (∀ i, i < placed.fields → ∃ j field, placed.shape.storedIndex? i = some j ∧
          stored[j]? = some field ∧ placed.field i = .ok field ∧
          ∀ length, placed.shape.kindAt? i = some (.fixed length) → field.length = length) ∧
        ∃ size, placed.tupleSize = .ok size ∧
          offset + size = before.length + stored.flatten.length) := by
  obtain ⟨hof, hshape⟩ := shape_after codec uses
  obtain ⟨hanswer, hplaced⟩ := Reader.reset_congr hshape buf offset
  have hword : Bytes.limit < Numeral.word := by decide
  have hfits : (∃ lengths dataStart, (codec.fresh uses).shape.Fits buf offset lengths dataStart) →
      answer = .ok () := by
    rintro ⟨lengths, dataStart, hfits⟩
    have hok := Reader.reset_of_fits hfits (by omega)
    rw [← hanswer, hreset] at hok
    exact hok
  rw [← hshape] at hoffset hfits ⊢
  rw [hreset] at hanswer hplaced
  refine ⟨hanswer, ?_⟩
  rcases Reader.reset_cases hof hsized hoffset with ⟨cause, herror⟩ | ⟨placed', hok⟩
  · rw [hreset] at herror
    dsimp only at herror
    have hnot : answer ≠ .ok () := by simp [herror]
    exact ⟨⟨fun h => absurd h hnot, hfits⟩, .inr ⟨cause, herror⟩, fun h => absurd h hnot⟩
  · obtain ⟨rfl, rfl⟩ := Prod.mk.inj (hreset.symm.trans hok)
    obtain ⟨stored, hshape', hbuf', hstart, hon, -, -, hform⟩ := Reader.placed_of_reset hof hok
    refine ⟨⟨fun _ => ⟨_, _, hform⟩, fun _ => rfl⟩, .inl rfl, fun _ => ⟨hplaced rfl, ?_⟩⟩
    obtain ⟨before, after, hcut, hdata⟩ := hon.data
    rw [hbuf'] at hcut
    rw [← hshape'] at hof hform
    rw [hdata] at hform
    have hsize : placed.tupleSize = .ok (before.length - offset + stored.flatten.length) := by
      rw [Reader.tupleSize_of_on hon (by rw [hbuf']; omega), hdata, hstart,
        Tuple.length_flatten_eq_payload]
    refine ⟨before, stored, after, hcut, hshape' ▸ hform, fun i hi => ?_, _, hsize, ?_⟩
    · exact Reader.shows_of_on hof hon (hdata ▸ hform.slots) hi
    · have hle := hform.slots.le
      omega

/-- A reader that refused one range and one buffer shows the field of the range it took on, wherever
the others are. -/
theorem reset_after_failures :
    let codec : Codec := .plain [.varying, .fixed 2]
    let uses : List Reader.Use :=
      [.range 0 1, .reset [0, 133] 0, .range 1 1, .range 1 2, .reset [] 3]
    let buf : Bytes := [9, 0, 170, 187, 9]
    codec.fresh uses = codec.reader.use (.range 1 1) ∧
    ∃ placed, (codec.reader.after uses).reset buf 1 = (placed, .ok ()) ∧
      placed = ((codec.fresh uses).reset buf 1).1 ∧ placed.field 0 = .ok [170, 187] ∧
      placed.tupleSize = .ok 3 := by
  intro codec uses buf
  have hfresh : codec.fresh uses = codec.reader.use (.range 1 1) := rfl
  have hok : ((codec.reader.after uses).reset buf 1).2 = .ok () := by decide
  have hreset : (codec.reader.after uses).reset buf 1 =
      (((codec.reader.after uses).reset buf 1).1, .ok ()) := Prod.ext rfl hok
  refine ⟨hfresh, _, hreset, ?_, by decide, by decide⟩
  exact ((reset_after_uses ⟨by decide, by decide⟩ uses (by decide) (by decide) hreset).2.2.2 rfl).1

/-- The upper coordinate of a point is stored as the lower one, so it has that one's length also
where another was declared for it. -/
theorem upper_coordinate_shown_as_lower :
    ∃ box placed, PointBox.ofKinds [.fixed 2, .fixed 1] 2 0 = .ok box ∧ (pointBox box).Sized ∧
      (pointBox box).reader.reset [0, 170, 187] 0 = (placed, .ok ()) ∧
      (pointBox box).kinds[1]? = some (.fixed 1) ∧ placed.field 1 = .ok [170, 187] := by
  refine ⟨_, _, rfl, ⟨by decide, by decide⟩, rfl, rfl, rfl⟩

end Codec

end Strata
