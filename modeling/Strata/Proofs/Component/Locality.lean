import Strata.Proofs.Component.Damage
import Strata.Proofs.Component.Layout
import Strata.Proofs.Component.Widths

/-!
# Damage stays where it is

Of a component file one byte is changed in front of the bloom filter. Footer and block index are
what they were, so the file is opened as before. The byte belongs to one block, which is not read
any more, while every other block is. So all tuples cannot be read, and a search notices the damage
just where its key is routed to that block.

Nothing is said of what the tuples are. A codec writes tuples with fewer fields than it has kinds,
too, which are not read back as what they were; so the invariant of the writer here is about images
and their number only.
-/

namespace Strata

namespace Stored

/-- Fields take at least the lengths that their kinds fix. -/
theorem sum_least_le {kinds : List FieldKind} {fields : Tuple} (h : Fits kinds fields) :
    (kinds.map FieldKind.least).sum ≤ Tuple.payload fields := by
  induction h with
  | nil => simp
  | @cons kind f kinds fields hadmits hrest ih =>
    rw [List.map_cons, List.sum_cons, Tuple.payload_cons]
    cases kind with
    | fixed length =>
      have hlength : f.length = length := hadmits
      simp only [FieldKind.least]
      omega
    | varying =>
      simp only [FieldKind.least]
      omega

end Stored

namespace Codec

/-- A codec that has stored a tuple whose image has a length that a word holds is measured. -/
theorem measured_of_stores {codec : Codec} {tuple : Tuple} (h : codec.Stores tuple)
    (hcount : codec.kinds.length < Numeral.word)
    (himage : (codec.image tuple).length < Numeral.word) : codec.Measured := by
  refine ⟨?_, hcount⟩
  cases codec with
  | plain kinds =>
    simp only [shape, Shape.coordinates, List.take_zero, List.map_nil, List.sum_nil]
    exact Nat.zero_lt_of_lt himage
  | pointBox box =>
    have hfits := List.forall₂_take box.dimensions (keeps_of_stores_pointBox h).fits
    have hleast := Stored.sum_least_le hfits
    rw [image, Stored.length_encode] at himage
    simp only [stored, PointBox.stored, Tuple.payload, List.map_append, List.sum_append] at himage
    simp only [shape, Shape.coordinates, Tuple.payload] at hleast ⊢
    omega

end Codec

namespace Draft

/-- The tuples that a draft holds the images of. -/
structure Lists (d : Draft) (tuples : List Tuple) : Prop where
  data : d.data = d.codec.images tuples
  length : d.length = tuples.length
  lines : d.codec.Lines tuples

theorem lists_nil (codec : Codec) (capacity : Nat) : Lists { codec, capacity } [] where
  data := rfl
  length := rfl
  lines := codec.lines_nil

theorem isEmpty_of_lists {d : Draft} {tuples : List Tuple} (h : d.Lists tuples) :
    d.isEmpty = true ↔ tuples = [] := by
  have hlength := h.length
  rw [isEmpty, List.isEmpty_iff, ← List.length_eq_zero_iff, ← List.length_eq_zero_iff]
  rw [Draft.length] at hlength
  omega

/-- A tuple that is taken in is one the codec stores, and its image comes last. -/
theorem lists_add {d d' : Draft} {tuples : List Tuple} {t : Tuple} (h : d.Lists tuples)
    (hadd : d.add t = (d', .ok true)) :
    d.codec.Stores t ∧ d'.codec = d.codec ∧ d'.Lists (tuples ++ [t]) := by
  cases added_of_add hadd with
  | stored hstores _ hlow =>
    refine ⟨hstores, rfl, ?_, ?_, ?_⟩
    · rw [h.data, Codec.images_append, Codec.images_singleton]
    · have hlength := h.length
      simp only [Draft.length, List.length_append, List.length_singleton] at hlength ⊢
      omega
    · rw [h.data] at hlow
      exact Codec.lines_append h.lines hstores hlow

theorem length_le_of_lists {d : Draft} {tuples : List Tuple} (h : d.Lists tuples) :
    tuples.length ≤ d.build.length ∧ (d.codec.images tuples).length ≤ d.build.length := by
  have hlength := h.length
  rw [Draft.length] at hlength
  rw [length_build, size, hlength, h.data, Block.numberSize]
  omega

end Draft

namespace Writer

/-- An entry of the block index counts tuples whose images its block holds, some of `tuples`. -/
def Counts (codec : Codec) (tuples : List Tuple) (e : IndexEntry) : Prop :=
  ∃ block, block ≠ [] ∧ block.Sublist tuples ∧ codec.Lines block ∧
    (codec.images block).length ≤ e.size ∧ e.tuples = block.length

/-- The tuples a writer has taken in: those in finished blocks, and those in the draft. -/
structure Laid (w : Writer) (closed current : List Tuple) : Prop where
  codec : w.draft.codec = w.format.codec
  draft : w.draft.Lists current
  tiled : Tiled w.entries w.written
  counts : ∀ e ∈ w.entries, Counts w.format.codec closed e
  lastKeys : (w.entries.map IndexEntry.lastKey).Sublist (closed.map w.format.keyOf)
  sum : (w.entries.map IndexEntry.tuples).sum = closed.length
  room : closed.length ≤ w.written.length
  tuples : w.tuples = (closed ++ current).length
  lastKey : ∀ front last, current = front ++ [last] → w.lastKey = w.format.keyOf last

theorem counts_append {codec : Codec} {tuples : List Tuple} {e : IndexEntry}
    (h : Counts codec tuples e) (others : List Tuple) : Counts codec (tuples ++ others) e := by
  obtain ⟨block, hnonempty, hsub, hrest⟩ := h
  exact ⟨block, hnonempty, hsub.trans (List.sublist_append_left ..), hrest⟩

/-- Closing the block in the making puts its tuples behind those in finished blocks. -/
theorem laid_closeBlock {w : Writer} {closed current : List Tuple} (h : w.Laid closed current) :
    w.closeBlock.format = w.format ∧ w.closeBlock.Laid (closed ++ current) [] := by
  rw [closeBlock]
  split
  · rename_i hempty
    obtain rfl := (Draft.isEmpty_of_lists h.draft).1 hempty
    rw [List.append_nil]
    exact ⟨rfl, h⟩
  · rename_i hempty
    rw [Draft.isEmpty_of_lists h.draft] at hempty
    have hlast : w.lastKey ∈ current.map w.format.keyOf := by
      rcases List.eq_nil_or_concat current with hnil | ⟨front, last, hcurrent⟩
      · contradiction
      · rw [List.concat_eq_append] at hcurrent
        rw [h.lastKey front last hcurrent, hcurrent]
        simp
    obtain ⟨hfew, hdata⟩ := Draft.length_le_of_lists h.draft
    refine ⟨rfl, rfl, Draft.lists_nil _ _, h.tiled.snoc (Block.sealed_build _) rfl rfl, ?_, ?_, ?_,
      ?_, ?_, by simp⟩
    · intro e he
      rcases List.mem_append.1 he with he | he
      · exact counts_append (h.counts e he) current
      · rw [List.mem_singleton.1 he]
        have hlines := h.draft.lines
        rw [h.codec] at hlines hdata
        exact ⟨current, hempty, List.sublist_append_right .., hlines, hdata, h.draft.length⟩
    · rw [List.map_append, List.map_append]
      exact h.lastKeys.append (List.singleton_sublist.2 hlast)
    · rw [List.map_append, List.sum_append, h.sum, List.length_append, ← h.draft.length]
      simp
    · have hroom := h.room
      simp only [List.length_append]
      omega
    · rw [List.append_nil]
      exact h.tuples

/-- A tuple that is taken in is one the codec stores, and comes behind all others. -/
theorem laid_add {w w' : Writer} {closed current : List Tuple} {t : Tuple}
    (h : w.Laid closed current) (hadd : w.add t = (w', .ok ())) :
    w'.format = w.format ∧ w.format.codec.Stores t ∧ ∃ closed' current',
      w'.Laid closed' current' ∧ closed' ++ current' = closed ++ current ++ [t] := by
  obtain ⟨-, v, d, hv, hdraft, rfl⟩ := add_eq_ok hadd
  have hbefore : v.format = w.format ∧ ∃ closed' front, v.Laid closed' front ∧
      closed' ++ front = closed ++ current := by
    rcases hv with rfl | rfl
    · exact ⟨rfl, closed, current, h, rfl⟩
    · obtain ⟨hformat, hlaid⟩ := laid_closeBlock h
      exact ⟨hformat, closed ++ current, [], hlaid, List.append_nil _⟩
  obtain ⟨hformat, closed', front, hlaid, hwhole⟩ := hbefore
  obtain ⟨hstores, hcodec, hlists⟩ := Draft.lists_add hlaid.draft hdraft
  rw [hlaid.codec, hformat] at hstores
  refine ⟨hformat, hstores, closed', front ++ [t], ?_, by rw [← List.append_assoc, hwhole]⟩
  refine ⟨hcodec.trans hlaid.codec, hlists, hlaid.tiled, hlaid.counts, hlaid.lastKeys, hlaid.sum,
    hlaid.room, ?_, ?_⟩
  · rw [← List.append_assoc, List.length_append, ← hlaid.tuples, List.length_singleton]
  · intro others last hlast
    rw [← List.singleton_inj.1 (List.append_inj' hlast rfl).2, hformat]

theorem laid_addAll {w w' : Writer} {closed current tuples : List Tuple}
    (h : w.Laid closed current) (hadd : w.addAll tuples = (w', .ok ())) :
    w'.format = w.format ∧ (∀ t ∈ tuples, w.format.codec.Stores t) ∧ ∃ closed' current',
      w'.Laid closed' current' ∧ closed' ++ current' = closed ++ current ++ tuples := by
  induction tuples generalizing w closed current with
  | nil =>
    obtain ⟨rfl, -⟩ := Prod.mk.inj hadd
    exact ⟨rfl, by simp, closed, current, h, by simp⟩
  | cons t rest ih =>
    simp only [addAll] at hadd
    split at hadd
    · simp at hadd
    · rename_i added hfirst
      obtain ⟨hformat, hstores, closed', current', hlaid, hwhole⟩ := laid_add h hfirst
      obtain ⟨hformat', hrest, closed'', current'', hlaid', hwhole'⟩ := ih hlaid hadd
      rw [hformat] at hrest
      refine ⟨hformat'.trans hformat, List.forall_mem_cons.2 ⟨hstores, hrest⟩, closed'',
        current'', hlaid', ?_⟩
      rw [hwhole', hwhole, List.append_assoc, List.singleton_append]

theorem format_closeBlock (w : Writer) : w.closeBlock.format = w.format := by
  rw [closeBlock]
  split <;> rfl

/-- Keys do not descend where all tuples are taken in. -/
theorem ordered_of_addAll {w w' : Writer} {tuples : List Tuple}
    (hadd : w.addAll tuples = (w', .ok ())) : Tuple.Ordered w.format.keyFields tuples ∧
      ∀ t ∈ tuples, (compare w.lastKey (w.format.keyOf t)).isLE := by
  induction tuples generalizing w with
  | nil => simp
  | cons t rest ih =>
    simp only [addAll] at hadd
    split at hadd
    · simp at hadd
    · rename_i added hfirst
      obtain ⟨hkey, v, d, hv, -, rfl⟩ := add_eq_ok hfirst
      have hformat : v.format = w.format := by
        rcases hv with rfl | rfl
        · rfl
        · exact w.format_closeBlock
      obtain ⟨hord, hlast⟩ := ih hadd
      dsimp only at hord hlast
      rw [hformat] at hord hlast
      refine ⟨List.pairwise_cons.2 ⟨hlast, hord⟩, List.forall_mem_cons.2 ⟨hkey, fun u hu => ?_⟩⟩
      exact Std.TransCmp.isLE_trans hkey (hlast u hu)

theorem laid_start {format : Format} {w : Writer} (h : start format = .ok w) :
    w.format = format ∧ w.Laid [] [] := by
  obtain rfl := eq_of_start h
  exact ⟨rfl, rfl, Draft.lists_nil _ _, .nil, by simp, List.Sublist.refl _, rfl, Nat.le_refl _, rfl,
    by simp⟩

section Finished

variable {w : Writer} {tuples : List Tuple}

/-- The numbers of every entry fit their widths where the keys of the tuples ascend. -/
theorem fits_of_laid (h : w.Laid tuples []) (hasc : Tuple.Ascending w.format.keyFields tuples)
    (hkeys : ∀ t ∈ tuples, (w.format.keyOf t).length < 2 ^ 32)
    (hroom : w.written.length < Bytes.limit) : ∀ e ∈ w.entries, e.Fits := by
  intro e he
  have hend := h.tiled.end_le he
  simp only [Bytes.limit] at hroom
  obtain ⟨block, -, hsub, hlines, -, hcount⟩ := h.counts e he
  refine ⟨?_, by omega, by omega, ?_⟩
  · obtain ⟨t, ht, hkey⟩ := List.mem_map.1 (h.lastKeys.subset (List.mem_map_of_mem he))
    rw [← hkey]
    exact hkeys t ht
  · rw [hcount]
    exact Codec.length_lt_of_lines hlines (Tuple.ne_of_ascending (hasc.sublist hsub))

/-- The last keys of the blocks ascend where the keys of the tuples do. -/
theorem ascending_of_laid (h : w.Laid tuples [])
    (hasc : Tuple.Ascending w.format.keyFields tuples) :
    w.entries.Pairwise fun e f => compare e.lastKey f.lastKey = .lt := by
  have hkeys : (tuples.map w.format.keyOf).Pairwise fun a b => compare a b = .lt :=
    List.pairwise_map.2 hasc
  exact List.pairwise_map.1 (hkeys.sublist h.lastKeys)

/-- The codec of a writer that has closed a block is measured. -/
theorem measured_of_laid {e : IndexEntry} (h : w.Laid tuples []) (he : e ∈ w.entries)
    (hcount : w.format.codec.kinds.length < Numeral.word)
    (hroom : w.written.length < Bytes.limit) : w.format.codec.Measured := by
  obtain ⟨block, hnonempty, -, hlines, himages, -⟩ := h.counts e he
  have hend := h.tiled.end_le he
  obtain ⟨t, rest, rfl⟩ := List.exists_cons_of_ne_nil hnonempty
  refine Codec.measured_of_stores (hlines.stores t List.mem_cons_self) hcount ?_
  simp only [Codec.images, List.flatMap_cons, List.length_append] at himages
  simp only [Bytes.limit] at hroom
  simp only [Numeral.word]
  omega

end Finished

end Writer

namespace Archive

/-- Where last keys ascend, a key is routed to the first entry whose last key is not below it. -/
theorem route?_eq_find? {a : Archive}
    (hasc : a.entries.Pairwise fun e f => compare e.lastKey f.lastKey = .lt) (key : Bytes) :
    a.route? key = a.entries.find? fun e => compare e.lastKey key ≠ .lt := by
  obtain ⟨j, hroute, hbelow, hreach⟩ := route?_spec (hasc.imp Ordering.isLE_of_eq_lt) key
  have hfront : ∀ (i : Nat) (e : IndexEntry), i < j → a.entries[i]? = some e →
      compare e.lastKey key = .lt := by
    intro i e hi he
    rcases hbelow i e hi he with hlt | ⟨f, hf, rfl⟩
    · exact hlt
    · obtain ⟨hilt, rfl⟩ := List.getElem?_eq_some_iff.1 he
      obtain ⟨hjlt, rfl⟩ := List.getElem?_eq_some_iff.1 hf
      exact List.pairwise_iff_getElem.1 hasc i j hilt hjlt hi
  rw [hroute, eq_comm]
  cases he : a.entries[j]? with
  | none =>
    rw [List.getElem?_eq_none_iff] at he
    rw [List.find?_eq_none]
    intro e hmem
    obtain ⟨i, hi⟩ := List.mem_iff_getElem?.1 hmem
    have hlt := (List.getElem?_eq_some_iff.1 hi).1
    simp [hfront i e (by omega) hi]
  | some e =>
    obtain ⟨hj, rfl⟩ := List.getElem?_eq_some_iff.1 he
    rw [List.find?_eq_some_iff_getElem]
    refine ⟨by simpa using hreach _ he, j, hj, rfl, fun i hi => ?_⟩
    simp [hfront i _ hi (List.getElem?_eq_getElem (by omega))]

variable {file : Bytes} {i : Nat} {b : UInt8} {e : IndexEntry}

/-- A block that a changed byte does not belong to is read as before. -/
theorem block_set_of_not_covers (h : ¬ Tiled.Covers e i) :
    block (file.set i b) e = block file e := by
  have hslice : Bytes.slice (file.set i b) e.offset e.size = Bytes.slice file e.offset e.size := by
    rw [Tiled.Covers, not_and_or, Nat.not_le, Nat.not_lt] at h
    rcases h with h | h
    · exact Bytes.slice_set_of_lt b h
    · exact Bytes.slice_set_of_le b h
  simp only [block, readRange, List.length_set, hslice]

/-- A sealed block that a changed byte belongs to is told to have a wrong checksum. -/
theorem block_set_of_covers (hsealed : Block.Sealed (Bytes.slice file e.offset e.size))
    (hend : e.offset + e.size ≤ file.length) (hfile : file.length < Bytes.limit)
    (h : Tiled.Covers e i) (hb : file[i]? ≠ some b) :
    ∃ stored computed, block (file.set i b) e =
      .error (.error (.damage (.blockChecksum stored computed))) := by
  have hread : readRange (file.set i b) e.offset e.size =
      .ok (Bytes.slice (file.set i b) e.offset e.size) := by
    apply readRange_of_within
    · rw [Within, List.length_set]
      exact .inl hend
    · rwa [List.length_set]
  have hstart := h.1
  have hstop := h.2
  have hlength : (Bytes.slice file e.offset e.size).length = e.size := by
    rw [Bytes.length_slice]
    omega
  have hinside : i - e.offset < (Bytes.slice file e.offset e.size).length := by omega
  have hbyte : (Bytes.slice file e.offset e.size)[i - e.offset] ≠ b := by
    intro hsame
    refine hb ?_
    rw [← hsame]
    simp only [Bytes.slice, List.getElem_take, List.getElem_drop, Nat.add_sub_cancel' hstart]
    exact List.getElem?_eq_getElem (by omega)
  have hbroken := Block.not_sealed_set hsealed (by omega) hbyte
  rw [← Bytes.slice_set e.size b hstart] at hbroken
  obtain ⟨stored, computed, hdecode⟩ := Block.decode_of_not_sealed (by
    rw [Bytes.slice_set e.size b hstart, List.length_set]
    exact hsealed.trailer) hbroken
  exact ⟨stored, computed, by rw [block_eq, hread]; simp only [bind, Except.bind, hdecode]; rfl⟩

/-- Where one block is damaged and no other breaks a precondition, the damage is told when all
tuples are read. -/
theorem damage_of_tuplesOf {codec : Codec} {entries : List IndexEntry} {cause : Damage}
    (he : e ∈ entries) (hdamage : block file e = .error (.error (.damage cause)))
    (hguarded : ∀ f ∈ entries, (block file f >>= fun b => b.tuples codec).Guarded) :
    ∃ cause, tuplesOf codec file entries = .error (.error (.damage cause)) := by
  induction entries with
  | nil => contradiction
  | cons f rest ih =>
    rw [List.forall_mem_cons] at hguarded
    have hsplit : tuplesOf codec file (f :: rest) =
        (block file f >>= fun b => b.tuples codec) >>= fun tuples =>
          tuplesOf codec file rest >>= fun others => pure (tuples ++ others) := by
      rw [bind_assoc]
      rfl
    rw [hsplit]
    cases htuples : block file f >>= fun b => b.tuples codec with
    | error failure =>
      obtain ⟨first, rfl⟩ := hguarded.1 failure htuples
      exact ⟨first, rfl⟩
    | ok tuples =>
      have hne : e ≠ f := by
        rintro rfl
        rw [hdamage] at htuples
        contradiction
      obtain ⟨other, hother⟩ := ih (List.mem_of_ne_of_mem hne he) hguarded.2
      exact ⟨other, by rw [hother]; rfl⟩

end Archive

namespace Writer

variable {w : Writer} {tuples : List Tuple} {filter : Bloom.Filter} {range : Range}

/-- The archive that a file of finished blocks with a filter is opened as. -/
def archiveWith (w : Writer) (filter : Bloom.Filter) (range : Range) : Archive where
  codec := w.format.codec
  keyFields := w.format.keyFields
  size := (w.fileWith filter range).length
  footer := w.footer filter range
  entries := w.entries

/-- What a file is opened as does not depend on the bytes of its blocks, only on their number. -/
theorem ofBytes_of_laid (h : w.Laid tuples []) (hasc : Tuple.Ascending w.format.keyFields tuples)
    (hkeys : ∀ t ∈ tuples, (w.format.keyOf t).length < 2 ^ 32)
    (hordered : range.min ≤ range.max) (hmax : range.max < Numeral.word)
    (hroom : (w.fileWith filter range).length < Bytes.limit) {written : Bytes}
    (hwritten : written.length = w.written.length) (path : String) :
    Archive.ofBytes path w.format.codec w.format.keyFields (written ++ filter.encode ++
      w.entries.flatMap IndexEntry.encode ++ (w.footer filter range).encode) =
    .ok (w.archiveWith filter range) := by
  have hlength := w.length_fileWith filter range
  have hcount := h.tuples
  have htuples : w.tuples = (w.entries.map IndexEntry.tuples).sum := by
    rw [h.sum, h.tuples, List.append_nil]
  have hentries := fits_of_laid h hasc hkeys (by omega)
  have hfits : (w.footer filter range).Fits := by
    have hfew := h.room
    rw [List.append_nil] at hcount
    simp only [Bytes.limit] at hroom
    refine ⟨?_, ?_, ?_, ?_, ?_, hmax, hordered⟩ <;> dsimp only [footer] <;> omega
  rw [ofBytes_parts rfl (by rw [hwritten]; rfl) rfl (by rw [hwritten]; rfl) rfl htuples hentries
    hfits]
  simp only [archiveWith, fileWith, List.length_append, hwritten]

/-- A byte that is changed among the blocks belongs to one of them. This one is told to have a wrong
checksum, and every other is read as before. -/
theorem exists_damaged (h : w.Laid tuples [])
    (hroom : (w.fileWith filter range).length < Bytes.limit) {i : Nat} {b : UInt8}
    (hi : i < w.written.length) (hb : (w.fileWith filter range)[i]? ≠ some b) :
    ∃ e ∈ w.entries, Tiled.Covers e i ∧
      (∃ stored computed, Archive.block ((w.fileWith filter range).set i b) e =
        .error (.error (.damage (.blockChecksum stored computed)))) ∧
      ∀ f ∈ w.entries, f ≠ e → Archive.block ((w.fileWith filter range).set i b) f =
        Archive.block (w.fileWith filter range) f := by
  have hlength := w.length_fileWith filter range
  obtain ⟨e, he, hcovers⟩ := h.tiled.exists_covers hi
  have hend := h.tiled.end_le he
  have hsealed := h.tiled.sealed_slice he (filter.encode ++
    w.entries.flatMap IndexEntry.encode ++ (w.footer filter range).encode)
  simp only [← List.append_assoc] at hsealed
  rw [← fileWith] at hsealed
  refine ⟨e, he, hcovers, ?_, fun f hf hne => ?_⟩
  · exact Archive.block_set_of_covers hsealed (by omega) hroom hcovers hb
  · apply Archive.block_set_of_not_covers
    intro hfi
    exact hne (h.tiled.eq_of_covers hf he hfi hcovers)

/-- Every block that is read has tuples, or damage is told of them. -/
theorem guarded_of_laid (h : w.Laid tuples [])
    (hkinds : w.format.codec.kinds.length < Numeral.word) {file : Bytes}
    (hfile : file.length < Bytes.limit) (hle : w.written.length ≤ file.length) {e : IndexEntry}
    (he : e ∈ w.entries) :
    (Archive.block file e >>= fun b => b.tuples w.format.codec).Guarded := by
  have hend := h.tiled.end_le he
  rw [Outcome.guarded_bind_iff]
  constructor
  · rw [Archive.guarded_block_iff hfile]
    exact .inl (by omega)
  · intro block hblock
    exact Block.guarded_tuples (Archive.enclosed_of_block hblock hfile)
      (measured_of_laid h he hkinds (by omega))

/-- One byte of a file of tuples with ascending keys is changed among the blocks. The file is opened
as before, and its tuples cannot all be read. A key routed to the block of this byte is answered by
the wrong checksum, any other as before. -/
theorem damage_stays_local {format : Format} {v : Writer} {serial : Nat} {name : String}
    {file : Bytes} {c : Component}
    (hstart : start format = .ok w) (hadd : w.addAll tuples = (v, .ok ()))
    (hfinish : v.finish serial range name = .ok (file, c))
    (hasc : Tuple.Ascending format.keyFields tuples)
    (hkinds : format.codec.kinds.length < Numeral.word)
    (hkeys : ∀ t ∈ tuples, (format.keyOf t).length < 2 ^ 32)
    (hordered : range.min ≤ range.max) (hmax : range.max < Numeral.word)
    (hroom : file.length < Bytes.limit) :
    ∃ a, (∀ path, Archive.ofBytes path format.codec format.keyFields file = .ok a) ∧
      a.entries = v.closeBlock.entries ∧ a.footer.bloomOffset = v.closeBlock.written.length ∧
      (∀ key, a.route? key = a.entries.find? fun e => compare e.lastKey key ≠ .lt) ∧
      ∀ (i : Nat) (b : UInt8), i < a.footer.bloomOffset → file[i]? ≠ some b →
        (∀ path, Archive.ofBytes path format.codec format.keyFields (file.set i b) = .ok a) ∧
        (∃ cause, a.tuples (file.set i b) = .error (.error (.damage cause))) ∧
        ∃ e ∈ a.entries, e.offset ≤ i ∧ i < e.offset + e.size ∧ ∀ key,
          (a.route? key = some e → ∃ stored computed, a.find? (file.set i b) key =
            .error (.error (.damage (.blockChecksum stored computed)))) ∧
          (a.route? key ≠ some e → a.find? (file.set i b) key = a.find? file key) := by
  obtain ⟨rfl, hnil⟩ := laid_start hstart
  obtain ⟨hformat, -, closed, current, hlaid, hwhole⟩ := laid_addAll hnil hadd
  obtain ⟨hformat', hclosed⟩ := laid_closeBlock hlaid
  rw [hwhole, List.append_nil, List.nil_append] at hclosed
  rw [← hformat, ← hformat'] at hasc hkinds hkeys ⊢
  obtain ⟨filter, -, rfl, -⟩ := finish_eq_ok_iff.1 hfinish
  generalize v.closeBlock = u at *
  have hlength := u.length_fileWith filter range
  have hroute : ∀ key, (u.archiveWith filter range).route? key =
      u.entries.find? fun e => compare e.lastKey key ≠ .lt :=
    Archive.route?_eq_find? (ascending_of_laid hclosed hasc)
  refine ⟨u.archiveWith filter range, ofBytes_of_laid hclosed hasc hkeys hordered hmax hroom rfl,
    rfl, rfl, hroute, fun i b hi hb => ?_⟩
  obtain ⟨e, he, hcovers, ⟨stored, computed, hdamage⟩, hothers⟩ :=
    exists_damaged hclosed hroom hi hb
  refine ⟨fun path => ?_, ?_, e, he, hcovers.1, hcovers.2, fun key => ⟨fun hrouted => ?_,
    fun hrouted => ?_⟩⟩
  · have hset : (u.fileWith filter range).set i b = u.written.set i b ++ filter.encode ++
        u.entries.flatMap IndexEntry.encode ++ (u.footer filter range).encode := by
      simp only [fileWith, List.append_assoc]
      exact List.set_append_left _ _ hi
    rw [hset]
    exact ofBytes_of_laid hclosed hasc hkeys hordered hmax hroom List.length_set path
  · refine Archive.damage_of_tuplesOf he hdamage fun f hf => ?_
    apply guarded_of_laid hclosed hkinds _ _ hf
    · rwa [List.length_set]
    · rw [List.length_set]
      omega
  · refine ⟨stored, computed, ?_⟩
    simp only [Archive.find?, hrouted, hdamage]
    rfl
  · rw [Archive.find?, Archive.find?]
    cases hfirst : (u.archiveWith filter range).route? key with
    | none => rfl
    | some f =>
      have hf : f ∈ u.entries := by
        rw [hroute] at hfirst
        exact List.mem_of_find?_eq_some hfirst
      have hne : f ≠ e := by
        rintro rfl
        exact hrouted hfirst
      simp only [hothers f hf hne]

/-- A file of three tuples in two blocks. Its first byte belongs to the first block, so the key of
the first tuple is not answered any more once this byte is changed, and that of the last tuple is
answered as before. -/
theorem first_block_damaged :
    let format : Format :=
      { codec := .plain [.varying, .varying], blockSize := 32, rate := 0.01, keyFields := 1 }
    let tuples : List Tuple := [[[97], [49]], [[98], [50]], [[99], [51]]]
    ∃ w v file c a, start format = .ok w ∧ w.addAll tuples = (v, .ok ()) ∧
      v.finish 4 ⟨3, 5⟩ "c.cmp" = .ok (file, c) ∧ a.entries.length = 2 ∧
      (∀ path, Archive.ofBytes path format.codec format.keyFields file = .ok a) ∧
      (∀ path, Archive.ofBytes path format.codec format.keyFields (file.set 0 255) = .ok a) ∧
      (∃ cause, a.tuples (file.set 0 255) = .error (.error (.damage cause))) ∧
      (∃ stored computed, a.find? (file.set 0 255) [1, 97] =
        .error (.error (.damage (.blockChecksum stored computed)))) ∧
      a.find? (file.set 0 255) [1, 99] = a.find? file [1, 99] := by
  intro format tuples
  let w : Writer := { format, draft := { codec := format.codec, capacity := 32 } }
  let v : Writer := (w.addAll tuples).1
  have hadd : w.addAll tuples = (v, .ok ()) := Prod.ext rfl (by decide +kernel)
  have hentries : v.closeBlock.entries = [⟨[1, 98], 0, 26, 2⟩, ⟨[1, 99], 26, 17, 1⟩] := by
    decide +kernel
  have hwritten : v.closeBlock.written.length = 43 ∧ v.closeBlock.written.head? = some 0 := by
    decide +kernel
  obtain ⟨filter, hfilter⟩ := Bloom.Filter.exists_ofKeys
    (show Bloom.validRate v.closeBlock.format.rate = true by decide +kernel) v.closeBlock.keys
  have hroom : (v.closeBlock.fileWith filter ⟨3, 5⟩).length < Bytes.limit := by
    apply length_fileWith_lt
    rw [hwritten.1, hentries]
    decide
  have hfinish : v.finish 4 ⟨3, 5⟩ "c.cmp" = .ok (v.closeBlock.fileWith filter ⟨3, 5⟩,
      v.closeBlock.componentWith filter 4 ⟨3, 5⟩ "c.cmp") :=
    finish_eq_ok_iff.2 ⟨filter, hfilter, rfl, rfl⟩
  have hstart : Writer.start format = .ok w := rfl
  obtain ⟨a, hopen, hindex, hbloom, hroute, hlocal⟩ := damage_stays_local hstart
    hadd hfinish (by decide +kernel) (by decide) (by decide +kernel) (by decide) (by decide) hroom
  have hbyte : (v.closeBlock.fileWith filter ⟨3, 5⟩)[0]? ≠ some 255 := by
    rw [fileWith, List.append_assoc, List.append_assoc,
      List.getElem?_append_left (by omega), ← List.head?_eq_getElem?, hwritten.2]
    decide
  obtain ⟨hopen', htuples, e, he, hstart, -, hfind⟩ := hlocal 0 255 (by omega) hbyte
  rw [hindex, hentries] at he hroute
  have hfirst : e = ⟨[1, 98], 0, 26, 2⟩ := by
    rcases List.mem_cons.1 he with rfl | he
    · rfl
    · rw [List.mem_singleton.1 he] at hstart
      contradiction
  refine ⟨w, v, _, _, a, rfl, hadd, hfinish, by rw [hindex, hentries]; rfl, hopen, hopen', htuples,
    (hfind _).1 ?_, (hfind _).2 ?_⟩
  · rw [hroute, hfirst]
    decide
  · rw [hroute, hfirst]
    decide

/-- Of a file with an inverted range, and of one with a key of 2 ^ 32 bytes, no byte among the
blocks can be changed so that the file would still be opened, for it is not opened at all. -/
theorem unopened_when_damaged :
    let format : Format :=
      { codec := .plain [.varying], blockSize := 64, rate := 0.01, keyFields := 1 }
    Unopened format [[[97]]] ⟨7, 3⟩ (fun _ => .invertedRange 7 3) ∧
      Unopened format [[List.replicate (2 ^ 32 - 5) 255]] ⟨3, 7⟩ (fun _ => .entryTruncated) := by
  intro format
  have hrate : Bloom.validRate format.rate = true := by decide +kernel
  have hstores : format.codec.Stores [[97]] :=
    Codec.stores_of_keeps (Codec.keeps_plain (.cons trivial .nil))
  constructor
  · exact unopened_of_inverted hrate (by decide) hstores (by decide) (by decide)
  · exact unopened_of_long hrate (by decide) rfl rfl (by decide) (by decide) (by decide)

end Writer

end Strata
