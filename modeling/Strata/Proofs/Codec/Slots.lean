import Mathlib.Data.List.Forall2
import Strata.Codec.Reader

/-!
# Reading a stored form

The stored form of fields that fit their kinds is read for what it is, at any position of a buffer
and whatever bytes surround it: the slots are found one after the other, so a reader knows where
each field ends, and shows the bytes in between. Nothing here depends on which fields a codec
stores.
-/

namespace Strata

/-- Whether a field has the length its kind fixes. -/
def FieldKind.Admits : FieldKind → Bytes → Prop
  | .fixed length, f => f.length = length
  | .varying, _ => True

namespace Tuple

@[simp] theorem payload_nil : payload [] = 0 := rfl

@[simp] theorem payload_cons (f : Bytes) (fields : Tuple) :
    payload (f :: fields) = f.length + payload fields := by
  simp [payload]

theorem length_flatten_eq_payload (fields : Tuple) : fields.flatten.length = payload fields := by
  simp [payload, List.length_flatten]

/-- A field lies between the end of the one before and its own end. -/
theorem payload_take_succ {fields : Tuple} {i : Nat} (hi : i < fields.length) :
    payload (fields.take (i + 1)) = payload (fields.take i) + fields[i].length := by
  have h : fields.take (i + 1) = fields.take i ++ [fields[i]] := by
    rw [List.take_add_one, List.getElem?_eq_getElem hi]
    rfl
  rw [h, payload, List.map_append, List.sum_append]
  simp [payload]

end Tuple

namespace Stored

/-- Each field has the length its kind fixes, and there is a kind to each field. -/
abbrev Fits (kinds : List FieldKind) (fields : Tuple) : Prop :=
  List.Forall₂ FieldKind.Admits kinds fields

/-- The check of lengths passes just where the fields fit. -/
theorem checkLengths_eq_ok_iff {kinds : List FieldKind} {fields : Tuple} (index : Nat)
    (h : kinds.length = fields.length) :
    checkLengths index kinds fields = .ok () ↔ Fits kinds fields := by
  induction kinds generalizing fields index with
  | nil =>
    cases fields with
    | nil => simp [checkLengths]
    | cons f fields => simp at h
  | cons kind kinds ih =>
    cases fields with
    | nil => simp at h
    | cons f fields =>
      have hrest := ih (index + 1) (Nat.succ.inj h)
      cases kind with
      | varying => simpa [checkLengths, FieldKind.Admits] using hrest
      | fixed length =>
        by_cases hf : f.length = length
        · simpa [checkLengths, FieldKind.Admits, hf] using hrest
        · simp [checkLengths, FieldKind.Admits, hf]

/-- A check of lengths that fails names a field and the length its kind fixes. -/
theorem exists_of_checkLengths {index : Nat} {kinds : List FieldKind} {fields : Tuple} {e : Error}
    (h : checkLengths index kinds fields = .error e) :
    ∃ i length f, kinds[i]? = some (.fixed length) ∧ fields[i]? = some f ∧ f.length ≠ length ∧
      e = .fieldLength (index + i) length f.length := by
  induction kinds generalizing index fields with
  | nil => simp [checkLengths] at h
  | cons kind kinds ih =>
    cases fields with
    | nil => cases kind <;> simp [checkLengths] at h
    | cons f fields =>
      have hlater : checkLengths (index + 1) kinds fields = .error e →
          ∃ i length g, (kind :: kinds)[i]? = some (.fixed length) ∧ (f :: fields)[i]? = some g ∧
            g.length ≠ length ∧ e = .fieldLength (index + i) length g.length := by
        intro hrest
        obtain ⟨i, length, g, hkind, hfield, hne, rfl⟩ := ih hrest
        exact ⟨i + 1, length, g, hkind, hfield, hne, by rw [Nat.add_assoc, Nat.add_comm 1 i]⟩
      cases kind with
      | varying => exact hlater h
      | fixed length =>
        rw [checkLengths] at h
        split at h
        · exact hlater h
        · rename_i hne
          exact ⟨0, length, f, rfl, rfl, hne, (Except.error.inj h).symm⟩

/-- Where fields end, counted from `total` bytes before the first. -/
def ends : (total : Nat) → Tuple → List Nat
  | _, [] => []
  | total, f :: fields => (total + f.length) :: ends (total + f.length) fields

@[simp] theorem length_ends (total : Nat) (fields : Tuple) :
    (ends total fields).length = fields.length := by
  induction fields generalizing total with
  | nil => rfl
  | cons f fields ih => simp [ends, ih]

theorem getElem?_ends {fields : Tuple} {i : Nat} (total : Nat) (hi : i < fields.length) :
    (ends total fields)[i]? = some (total + Tuple.payload (fields.take (i + 1))) := by
  induction fields generalizing total i with
  | nil => simp at hi
  | cons f fields ih =>
    cases i with
    | zero => simp [ends]
    | succ i =>
      have hi : i < fields.length := Nat.lt_of_succ_lt_succ hi
      simp [ends, ih (total + f.length) hi, Nat.add_assoc]

theorem getLastD_ends (fields : Tuple) : (ends 0 fields).getLastD 0 = Tuple.payload fields := by
  cases fields with
  | nil => rfl
  | cons f rest =>
    have hlast := @getElem?_ends (f :: rest) rest.length 0 (by simp)
    rw [List.getLastD_eq_getLast?, List.getLast?_eq_getElem?, length_ends, List.length_cons,
      Nat.add_sub_cancel, hlast]
    simp

/-- Every slot of a stored form is found, whatever bytes surround the slots. -/
theorem locate_slots {kinds : List FieldKind} {fields : Tuple} (hfits : Fits kinds fields)
    (before after : Bytes) (total : Nat)
    (hroom : total + Tuple.payload fields < Numeral.word) :
    locate (before ++ slots kinds fields ++ after) kinds before.length total =
      (ends total fields,
        .ok (before.length + (slots kinds fields).length, total + Tuple.payload fields)) := by
  induction hfits generalizing before total with
  | nil => simp [locate, slots, ends]
  | @cons kind f kinds fields hf hfits ih =>
    rw [Tuple.payload_cons, ← Nat.add_assoc] at hroom
    have hword : total + f.length < Numeral.word := by omega
    cases kind with
    | fixed length =>
      have hf : f.length = length := hf
      subst hf
      have hrest := ih before (total + f.length) hroom
      simp only [slots, locate, fieldLength, if_pos hword, hrest, ends, Tuple.payload_cons]
      rw [Nat.add_assoc]
    | varying =>
      have hrest := ih (before ++ Varint.encode f.length) (total + f.length) hroom
      have hslot := Varint.decode_encode (n := f.length) (by omega) before
        (slots kinds fields ++ after)
      simp only [slots, List.append_assoc] at hrest hslot ⊢
      simp only [List.length_append, Varint.length_encode] at hrest
      simp only [locate, fieldLength, hslot, if_pos hword, hrest, ends, Tuple.payload_cons,
        List.length_append, Varint.length_encode, Nat.add_assoc]

end Stored

namespace Reader

/-- What a reader takes tuples for does not change when it is placed. -/
theorem shape_reset (r : Reader) (buf : Bytes) (offset : Nat) :
    (r.reset buf offset).1.shape = r.shape := by
  simp only [reset]
  split
  · rfl
  · split
    · rfl
    · split
      · rfl
      · split <;> rfl

/-- A reader placed on a stored form knows where each of its fields ends. -/
theorem reset_encode {r : Reader} {fields : Tuple} (hfits : Stored.Fits r.shape.storedKinds fields)
    (hfields : r.shape.storedFields = fields.length) (before after : Bytes)
    (hroom : (before ++ Stored.encode r.shape.storedKinds fields ++ after).length <
      Numeral.word) :
    r.reset (before ++ Stored.encode r.shape.storedKinds fields ++ after) before.length =
      ({ r with
        ends := Stored.ends 0 fields
        buf := before ++ Stored.encode r.shape.storedKinds fields ++ after
        tupleStart := before.length
        dataStart := before.length + Stored.bitmapSize fields.length +
          (Stored.slots r.shape.storedKinds fields).length }, .ok ()) := by
  have hsize := Stored.length_encode r.shape.storedKinds fields
  have hlocate := Stored.locate_slots hfits
    (before ++ Bytes.zeros (Stored.bitmapSize fields.length)) (fields.flatten ++ after) 0
    (by simp only [List.length_append] at hroom; omega)
  have hbuf : before ++ Stored.encode r.shape.storedKinds fields ++ after =
      before ++ Bytes.zeros (Stored.bitmapSize fields.length) ++
        Stored.slots r.shape.storedKinds fields ++ (fields.flatten ++ after) := by
    simp [Stored.encode, List.append_assoc]
  rw [← hbuf] at hlocate
  simp only [List.length_append, Bytes.length_zeros, Nat.zero_add] at hlocate hroom
  simp only [reset, hfields, hlocate, List.length_append]
  rw [if_neg (by omega), if_neg (by omega), if_neg (by omega)]

end Reader

end Strata
