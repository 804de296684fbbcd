import Strata.Proofs.Codec.Placement

/-!
# Writing again what was read

A reader takes bytes that no writer leaves: slots with groups of zero in front, and any bitmap. Yet
each tuple that is read can be written, and takes no more bytes then. It takes as many just where
each slot was the shortest of its length, and the same bytes are written just where the bitmap was
zero besides. So a merge, which reads tuples and writes them, neither fails on a tuple it could read
nor makes it larger.
-/

namespace Strata

namespace Stored

variable {buf : Bytes} {kinds : List FieldKind} {position dataStart : Nat} {fields : Tuple}

/-- Each slot from `position` on is the shortest that is read as the length it tells. -/
def Terse (buf : Bytes) : List FieldKind → (position : Nat) → Prop
  | [], _ => True
  | .fixed _ :: kinds, position => Terse buf kinds position
  | .varying :: kinds, position =>
    ∃ length next, Varint.decode buf position = .ok (length, next) ∧
      Varint.Shortest (Bytes.slice buf position (next - position)) length ∧ Terse buf kinds next

theorem terse_varying_iff {length size : Nat}
    (h : Varint.Slot 0 Varint.maxSize (buf.drop position) length size) :
    Terse buf (.varying :: kinds) position ↔
      size = Varint.size length ∧ Terse buf kinds (position + size) := by
  have hread := Varint.decode_eq_ok_iff.2 ⟨size, rfl, h⟩
  have hshortest := Varint.shortest_slot_iff h
  constructor
  · rintro ⟨length', next, hread', hleast, hrest⟩
    obtain ⟨rfl, rfl⟩ := Prod.mk.inj (Except.ok.inj (hread.symm.trans hread'))
    rw [Nat.add_sub_cancel_left, Bytes.slice, hshortest] at hleast
    exact ⟨hleast, hrest⟩
  · rintro ⟨hsize, hrest⟩
    refine ⟨length, position + size, hread, ?_, hrest⟩
    rw [Nat.add_sub_cancel_left, Bytes.slice, hshortest]
    exact hsize

/-- Fields of the lengths that are told fit their kinds. -/
theorem Slots.fits (h : Slots buf position kinds (fields.map List.length) dataStart) :
    Fits kinds fields := by
  rw [fits_iff (by simpa using h.length_eq.symm)]
  intro i length hkind
  simpa using h.fixed_length hkind

/-- The slots that are written take no more bytes than those that were read. -/
theorem Slots.length_slots_le (h : Slots buf position kinds (fields.map List.length) dataStart) :
    position + (slots kinds fields).length ≤ dataStart := by
  induction h using Slots.induct with
  | nil => simp [slots]
  | fixed f hrest ih => exact ih
  | varying f hslot hrest ih =>
    have hsize := Varint.size_le_of_slot hslot
    rw [slots, List.length_append, Varint.length_encode]
    omega

/-- They take as many just where each of those that were read was the shortest of its length. -/
theorem Slots.length_slots_eq_iff
    (h : Slots buf position kinds (fields.map List.length) dataStart) :
    position + (slots kinds fields).length = dataStart ↔ Terse buf kinds position := by
  induction h using Slots.induct with
  | nil => simp [slots, Terse]
  | fixed f hrest ih => exact ih
  | varying f hslot hrest ih =>
    have hsize := Varint.size_le_of_slot hslot
    have hle := hrest.length_slots_le
    rw [terse_varying_iff hslot, ← ih, slots, List.length_append, Varint.length_encode]
    omega

/-- Slots that are the shortest of their lengths are written as they were read. -/
theorem Slots.slice_eq_of_terse
    (h : Slots buf position kinds (fields.map List.length) dataStart)
    (hterse : Terse buf kinds position) :
    Bytes.slice buf position (slots kinds fields).length = slots kinds fields := by
  induction h using Slots.induct with
  | nil => simp [slots, Bytes.slice]
  | fixed f hrest ih => exact ih hterse
  | varying f hslot hrest ih =>
    obtain ⟨rfl, hterse⟩ := (terse_varying_iff hslot).1 hterse
    rw [slots, List.length_append, Varint.length_encode, Bytes.slice_add, ih hterse, Bytes.slice,
      Varint.take_of_slot hslot]

/-- Fields are written in the bytes they were read from just where each slot was the shortest of its
length and the bitmap was zero. -/
theorem encode_eq_slice_iff {bitmap offset : Nat} {before after : Bytes}
    (hbitmap : bitmap = bitmapSize fields.length) (hroom : offset + bitmap ≤ buf.length)
    (h : Slots buf (offset + bitmap) kinds (fields.map List.length) before.length)
    (hbuf : buf = before ++ fields.flatten ++ after) :
    encode kinds fields =
        Bytes.slice buf offset (before.length - offset + Tuple.payload fields) ↔
      Terse buf kinds (offset + bitmap) ∧ ∀ b ∈ Bytes.slice buf offset bitmap, b = 0 := by
  have hfields : Bytes.slice buf before.length (Tuple.payload fields) = fields.flatten :=
    Bytes.slice_eq before after hbuf rfl (Tuple.length_flatten_eq_payload fields).symm
  have hle := h.length_slots_le
  have hzeros : Bytes.slice buf offset bitmap = Bytes.zeros bitmap ↔
      ∀ b ∈ Bytes.slice buf offset bitmap, b = 0 := by
    rw [Bytes.zeros, List.eq_replicate_iff, Bytes.length_slice, Nat.min_eq_left (by omega)]
    exact and_iff_right rfl
  rw [← hzeros, ← h.length_slots_eq_iff]
  have hread : Bytes.slice buf offset (before.length - offset + Tuple.payload fields) =
      Bytes.slice buf offset bitmap ++ Bytes.slice buf (offset + bitmap)
        (before.length - (offset + bitmap) + Tuple.payload fields) := by
    rw [← Bytes.slice_add]
    congr 1
    omega
  rw [encode, ← hbitmap, List.append_assoc, hread]
  constructor
  · intro heq
    have hfirst : (Bytes.zeros bitmap).length = (Bytes.slice buf offset bitmap).length := by
      rw [Bytes.length_zeros, Bytes.length_slice]
      omega
    obtain ⟨hzero, hrest⟩ := List.append_inj heq hfirst
    have hlength := congrArg List.length hrest
    rw [Bytes.length_slice, List.length_append, Tuple.length_flatten_eq_payload] at hlength
    have hwhole := congrArg List.length hbuf
    simp only [List.length_append, Tuple.length_flatten_eq_payload] at hwhole
    exact ⟨by omega, hzero.symm⟩
  · rintro ⟨hlength, hzero⟩
    have hslots := h.slice_eq_of_terse (h.length_slots_eq_iff.1 hlength)
    have hsize : before.length - (offset + bitmap) = (slots kinds fields).length := by omega
    rw [hsize, Bytes.slice_add, hslots, hlength, hfields, hzero]

end Stored

namespace Plain

variable {kinds : List FieldKind} {r placed : Reader} {buf : Bytes} {offset : Nat}

/-- A reader of all fields is placed on a tuple that the codec keeps. -/
theorem keeps_of_reset (hshape : r.shape = .plain kinds 0 kinds.length)
    (hreset : r.reset buf offset = (placed, .ok ())) :
    ∃ tuple, (Codec.plain kinds).Keeps tuple ∧ placed.On tuple ∧ placed.tuple = .ok tuple ∧
      placed.buf = buf ∧ placed.tupleStart = offset ∧
      offset + Stored.bitmapSize kinds.length ≤ buf.length ∧
      Stored.Slots buf (offset + Stored.bitmapSize kinds.length) kinds (tuple.map List.length)
        placed.dataStart := by
  have hof : r.shape.Of (.plain kinds) := hshape ▸ Shape.of_shape (.plain kinds)
  obtain ⟨tuple, hplaced, hbuf, hstart, hon, -, -, hform⟩ := Reader.placed_of_reset hof hreset
  have hkinds : (Shape.plain kinds 0 kinds.length).storedKinds = kinds :=
    Codec.storedKinds_shape_plain kinds
  rw [hshape] at hform hplaced
  have hslots := hform.slots
  rw [hkinds] at hslots
  have hkeeps : (Codec.plain kinds).Keeps tuple := Codec.keeps_plain hslots.fits
  have htuple : placed.tuple = .ok tuple := Reader.tuple_of_on hon (hplaced ▸ hkeeps.shows)
  exact ⟨tuple, hkeeps, hon, htuple, hbuf, hstart, hform.bitmap, hslots⟩

/-- Every tuple that a reader of all fields was placed on can be written, and is read back. It takes
no more bytes than the reader tells, as many just where each slot was the shortest, and the same
bytes just where the bitmap was zero besides. -/
theorem rewrite_of_reset (hshape : r.shape = .plain kinds 0 kinds.length)
    (hbuf : buf.length < Numeral.word) (hreset : r.reset buf offset = (placed, .ok ())) :
    let bitmap := Stored.bitmapSize kinds.length
    ∃ (tuple : Tuple) (size : Nat) (bs : Bytes),
      placed.tuple = .ok tuple ∧ placed.tupleSize = .ok size ∧ required kinds tuple = bs.length ∧
      (∀ out start, start + bs.length ≤ out.length → write kinds tuple out start =
        (out.take start ++ bs ++ out.drop (start + bs.length), .ok bs.length)) ∧
      bs.length ≤ size ∧ (bs.length = size ↔ Stored.Terse buf kinds (offset + bitmap)) ∧
      (∀ r' : Reader, r'.shape = .plain kinds 0 kinds.length → r'.Takes bs tuple) ∧
      (bs = Bytes.slice buf offset size ↔
        Stored.Terse buf kinds (offset + bitmap) ∧
          ∀ b ∈ Bytes.slice buf offset bitmap, b = 0) := by
  intro bitmap
  obtain ⟨tuple, hkeeps, hon, htuple, rfl, hstart, hbitmap, hslots⟩ := keeps_of_reset hshape hreset
  obtain ⟨before, after, hcut, hdata⟩ := hon.data
  have hcount : bitmap = Stored.bitmapSize tuple.length := by rw [hkeeps.length, Codec.kinds]
  have hsize := Reader.tupleSize_of_on hon hbuf
  have hlength := Stored.length_encode kinds tuple
  have hle := hslots.length_slots_le
  rw [hdata, hstart] at hsize
  rw [hdata] at hslots hle
  refine ⟨tuple, _, Stored.encode kinds tuple, htuple, hsize, rfl, ?_, ?_, ?_, ?_, ?_⟩
  · intro out start hroom
    have hwrite := Codec.write_of_keeps hkeeps out start
    rw [Codec.image_plain, Stored.put_of_le hroom] at hwrite
    exact hwrite
  · omega
  · rw [← hslots.length_slots_eq_iff]
    omega
  · intro r' hshape'
    have hkinds : (Shape.plain kinds 0 kinds.length).storedKinds = kinds :=
      Codec.storedKinds_shape_plain kinds
    have htakes := @Reader.takes_encode r' tuple tuple
    rw [hshape', hkinds] at htakes
    exact htakes hkeeps.fits hkeeps.shows
  · exact Stored.encode_eq_slice_iff hcount hbitmap hslots hcut

/-- The first of two fields has a slot of two groups, of which one is zero. It is written in one. -/
theorem rewrite_of_long_slot :
    let kinds : List FieldKind := [.varying, .fixed 1]
    let buf : Bytes := [7, 1, 128, 1, 97, 98]
    ∃ placed, (Codec.plain kinds).reader.reset buf 1 = (placed, .ok ()) ∧
      placed.tuple = .ok [[97], [98]] ∧ placed.tupleSize = .ok 5 ∧
      required kinds [[97], [98]] = 4 ∧ ¬ Stored.Terse buf kinds 2 ∧
      write kinds [[97], [98]] (Bytes.zeros 4) 0 = ([0, 1, 97, 98], .ok 4) := by
  intro kinds buf
  have hok : ((Codec.plain kinds).reader.reset buf 1).2 = .ok () := by decide
  have hreset : (Codec.plain kinds).reader.reset buf 1 =
      (((Codec.plain kinds).reader.reset buf 1).1, .ok ()) := Prod.ext rfl hok
  have hshown : ((Codec.plain kinds).reader.reset buf 1).1.tuple = .ok [[97], [98]] := by decide
  have htold : ((Codec.plain kinds).reader.reset buf 1).1.tupleSize = .ok 5 := by decide
  obtain ⟨tuple, size, bs, htuple, hsize, hrequired, -, -, hterse, -, -⟩ :=
    rewrite_of_reset (r := (Codec.plain kinds).reader) rfl (by decide) hreset
  obtain rfl : [[97], [98]] = tuple := Except.ok.inj (hshown.symm.trans htuple)
  obtain rfl : 5 = size := Except.ok.inj (htold.symm.trans hsize)
  have hneeded : required kinds [[97], [98]] = 4 := by cbv
  have hslot : 1 + Stored.bitmapSize kinds.length = 2 := by decide
  rw [hslot] at hterse
  refine ⟨_, hreset, hshown, htold, hneeded, ?_, by cbv⟩
  intro hshort
  have hlength := hterse.2 hshort
  omega

end Plain

end Strata
