import Strata.Component.Writer
import Strata.Proofs.Bloom
import Strata.Proofs.Component.FileName
import Strata.Proofs.Component.Footer
import Strata.Proofs.Component.Search

/-!
# Component files are read back

The file a writer makes of tuples with ascending keys is opened again as the component it was made
for: all tuples are read in order, a search finds what the tuples have under a key, and the bloom
filter admits every key in it.
-/

namespace Strata

namespace Writer

/-- An entry of the block index stands for a block among the bytes written. -/
structure Wrote (codec : Codec) (keyFields : Nat) (written : Bytes) (e : IndexEntry)
    (tuples : List Tuple) : Prop where
  lastKey : ∃ front last, tuples = front ++ [last] ∧ e.lastKey = last.keyBytes keyFields
  block : ∃ (d : Draft) (before after : Bytes), d.codec = codec ∧ d.Holds tuples ∧
    written = before ++ d.build ++ after ∧ e.offset = before.length ∧ e.size = d.build.length
  tuples : e.tuples = tuples.length

theorem wrote_append {codec : Codec} {keyFields : Nat} {written : Bytes} {e : IndexEntry}
    {tuples : List Tuple} (h : Wrote codec keyFields written e tuples) (more : Bytes) :
    Wrote codec keyFields (written ++ more) e tuples := by
  obtain ⟨d, before, after, hcodec, hholds, hwritten, hoffset, hsize⟩ := h.block
  refine ⟨h.lastKey, ⟨d, before, after ++ more, hcodec, hholds, ?_, hoffset, hsize⟩, h.tuples⟩
  rw [hwritten, List.append_assoc]

/-- The tuples a writer has been given: those in finished blocks, and those in the draft. -/
structure Holds (w : Writer) (blocks : List (List Tuple)) (current : List Tuple) : Prop where
  codec : w.draft.codec = w.format.codec
  draft : w.draft.Holds current
  wrote : List.Forall₂ (Wrote w.format.codec w.format.keyFields w.written) w.entries blocks
  keys : w.keys = (blocks.flatten ++ current).map fun t => w.format.fingerprint (w.format.keyOf t)
  tuples : w.tuples = (blocks.flatten ++ current).length
  room : blocks.flatten.length ≤ w.written.length
  lastKey : ∀ front last, current = front ++ [last] → w.lastKey = w.format.keyOf last

/-- Closing the block in the making loses no tuple. -/
theorem holds_closeBlock {w : Writer} {blocks : List (List Tuple)} {current : List Tuple}
    (h : w.Holds blocks current) :
    ∃ closed, closed.flatten = blocks.flatten ++ current ∧ w.closeBlock.Holds closed [] ∧
      w.closeBlock.format = w.format := by
  rcases List.eq_nil_or_concat current with rfl | ⟨front, last, hcurrent⟩
  · have hempty : w.draft.isEmpty = true := by
      rw [Draft.isEmpty_of_holds h.draft]
      rfl
    have hsame : w.closeBlock = w := by
      rw [closeBlock, if_pos hempty]
    rw [hsame]
    exact ⟨blocks, by simp, h, rfl⟩
  · rw [List.concat_eq_append] at hcurrent
    have hempty : w.draft.isEmpty = false := by
      rw [Draft.isEmpty_of_holds h.draft, hcurrent]
      simp
    refine ⟨blocks ++ [current], by simp, ?_, ?_⟩
    · rw [closeBlock, hempty]
      refine ⟨rfl, Draft.holds_nil _ _, ?_, ?_, ?_, ?_, ?_⟩
      · have hbefore := h.wrote.imp fun e tuples he => wrote_append he w.draft.build
        refine List.rel_append hbefore (List.Forall₂.cons ⟨?_, ?_, ?_⟩ List.Forall₂.nil)
        · exact ⟨front, last, hcurrent, h.lastKey front last hcurrent⟩
        · exact ⟨w.draft, w.written, [], h.codec, h.draft, by simp, rfl, rfl⟩
        · exact Draft.length_of_holds h.draft
      · simpa using h.keys
      · simpa using h.tuples
      · have hbuild := Draft.length_le_of_holds h.draft
        have hroom := h.room
        show (blocks ++ [current]).flatten.length ≤ (w.written ++ w.draft.build).length
        simp only [List.flatten_append, List.flatten_cons, List.flatten_nil, List.append_nil,
          List.length_append]
        omega
      · intro front last hnil
        simp at hnil
    · rw [closeBlock, hempty]
      rfl

/-- A kept tuple that is taken in comes behind all others. -/
theorem holds_add {w w' : Writer} {blocks : List (List Tuple)} {current : List Tuple} {t : Tuple}
    (h : w.Holds blocks current) (ht : w.format.codec.Keeps t) (hadd : w.add t = (w', .ok ())) :
    w'.format = w.format ∧ ∃ closed front, w'.Holds closed (front ++ [t]) ∧
      closed.flatten ++ (front ++ [t]) = blocks.flatten ++ current ++ [t] := by
  obtain ⟨-, v, d, hv, hdraft, rfl⟩ := add_eq_ok hadd
  have hbefore : v.format = w.format ∧ ∃ closed front, v.Holds closed front ∧
      closed.flatten ++ front = blocks.flatten ++ current := by
    rcases hv with rfl | rfl
    · exact ⟨rfl, blocks, current, h, rfl⟩
    · obtain ⟨closed, hclosed, hholds, hformat⟩ := holds_closeBlock h
      exact ⟨hformat, closed, [], hholds, by rw [List.append_nil, hclosed]⟩
  obtain ⟨hformat, closed, front, hholds, hwhole⟩ := hbefore
  have hkept : v.draft.codec.Keeps t := by
    rw [hholds.codec, hformat]
    exact ht
  have hcodec := (Draft.added_of_add hdraft).codec
  refine ⟨hformat, closed, front, ⟨hcodec.trans hholds.codec,
    Draft.holds_add hholds.draft hkept hdraft, hholds.wrote, ?_, ?_, hholds.room, ?_⟩,
    by rw [← List.append_assoc, hwhole]⟩
  · rw [← List.append_assoc, List.map_append, ← hholds.keys, hformat]
    rfl
  · rw [← List.append_assoc, List.length_append, ← hholds.tuples, List.length_singleton]
  · intro others last hlast
    rw [← List.singleton_inj.1 (List.append_inj' hlast rfl).2, hformat]

/-- Adding kept tuples puts them behind all others, in order. -/
theorem holds_addAll {w w' : Writer} {blocks : List (List Tuple)} {current tuples : List Tuple}
    (h : w.Holds blocks current) (hkept : ∀ t ∈ tuples, w.format.codec.Keeps t)
    (hadd : w.addAll tuples = (w', .ok ())) :
    w'.format = w.format ∧ ∃ closed front, w'.Holds closed front ∧
      closed.flatten ++ front = blocks.flatten ++ current ++ tuples := by
  induction tuples generalizing w blocks current with
  | nil =>
    obtain ⟨rfl, -⟩ := Prod.mk.inj hadd
    exact ⟨rfl, blocks, current, h, by simp⟩
  | cons t rest ih =>
    rw [List.forall_mem_cons] at hkept
    simp only [addAll] at hadd
    split at hadd
    · simp at hadd
    · rename_i added hfirst
      obtain ⟨hformat, closed, front, hholds, hwhole⟩ := holds_add h hkept.1 hfirst
      rw [← hformat] at hkept
      obtain ⟨hformat', closed', front', hholds', hwhole'⟩ := ih hholds hkept.2 hadd
      refine ⟨hformat'.trans hformat, closed', front', hholds', ?_⟩
      rw [hwhole', hwhole]
      simp

/-- The entry of a block that was written leads to the block in the file. -/
theorem leads_of_wrote {codec : Codec} {keyFields : Nat} {file : Bytes} {e : IndexEntry}
    {tuples : List Tuple} (h : Wrote codec keyFields file e tuples)
    (hcount : tuples.length < 2 ^ 32) (hroom : file.length < Bytes.limit) :
    Archive.Leads codec keyFields file e tuples := by
  obtain ⟨d, before, after, rfl, hholds, hfile, hoffset, hsize⟩ := h.block
  have hlength := congrArg List.length hfile
  simp only [List.length_append] at hlength
  have hlimit : Bytes.limit < Numeral.word := by decide
  have hposition : Archive.positionLimit = Bytes.limit := rfl
  obtain ⟨b, hdecode, hshows⟩ := Block.decode_build hholds hcount (by omega)
  have hread : Archive.readRange file e.offset e.size = .ok d.build := by
    rw [Archive.readRange, if_neg (by omega), if_neg (by omega), if_neg (by omega), hoffset, hsize,
      Bytes.slice_eq before after hfile rfl rfl]
  refine ⟨h.lastKey, b, ?_, hshows⟩
  simp only [Archive.block, hread, bind, Except.bind, Outcome.liftM_eq, hdecode,
    Outcome.ofExcept_ok]
  rw [if_neg]
  · rfl
  · simp [Block.length, hshows.length, h.tuples]

/-- The numbers of an entry fit their widths. -/
theorem fits_of_wrote {codec : Codec} {keyFields : Nat} {file : Bytes} {e : IndexEntry}
    {tuples : List Tuple} (h : Wrote codec keyFields file e tuples)
    (hcount : tuples.length < 2 ^ 32)
    (hkeys : ∀ t ∈ tuples, (t.keyBytes keyFields).length < 2 ^ 32)
    (hroom : file.length < Bytes.limit) : e.Fits := by
  obtain ⟨d, before, after, rfl, hholds, hfile, hoffset, hsize⟩ := h.block
  obtain ⟨front, last, htuples, hlast⟩ := h.lastKey
  have hlength := congrArg List.length hfile
  simp only [List.length_append] at hlength
  simp only [Bytes.limit] at hroom
  refine ⟨?_, by omega, by omega, h.tuples ▸ hcount⟩
  rw [hlast]
  exact hkeys last (by rw [htuples]; simp)

/-- Every entry of the block index fits its widths and leads to its block. -/
theorem index_of_wrote {codec : Codec} {keyFields : Nat} {file : Bytes}
    {entries : List IndexEntry} {blocks : List (List Tuple)}
    (h : List.Forall₂ (Wrote codec keyFields file) entries blocks)
    (hcount : ∀ tuples ∈ blocks, tuples.length < 2 ^ 32)
    (hkeys : ∀ t ∈ blocks.flatten, (t.keyBytes keyFields).length < 2 ^ 32)
    (hroom : file.length < Bytes.limit) :
    (∀ e ∈ entries, e.Fits) ∧ List.Forall₂ (Archive.Leads codec keyFields file) entries blocks := by
  induction h with
  | nil => exact ⟨by simp, List.Forall₂.nil⟩
  | @cons e tuples entries blocks he hrest ih =>
    rw [List.flatten_cons] at hkeys
    rw [List.forall_mem_cons] at hcount
    obtain ⟨hfits, hleads⟩ := ih hcount.2 fun t ht => hkeys t (List.mem_append_right _ ht)
    have hkeysFirst := fun t ht => hkeys t (List.mem_append_left _ ht)
    refine ⟨fun f hf => ?_, List.Forall₂.cons (leads_of_wrote he hcount.1 hroom) hleads⟩
    rcases List.mem_cons.1 hf with rfl | hf
    · exact fits_of_wrote he hcount.1 hkeysFirst hroom
    · exact hfits f hf

/-- Blocks of different tuples have fewer than 2 ^ 32 of them each. -/
theorem count_lt_of_wrote {codec : Codec} {keyFields : Nat} {file : Bytes}
    {entries : List IndexEntry} {blocks : List (List Tuple)}
    (h : List.Forall₂ (Wrote codec keyFields file) entries blocks)
    (hdistinct : blocks.flatten.Nodup) :
    ∀ tuples ∈ blocks, tuples.length < 2 ^ 32 := by
  induction h with
  | nil => simp
  | @cons e tuples entries blocks he hrest ih =>
    rw [List.flatten_cons] at hdistinct
    obtain ⟨hfirst, hothers, -⟩ := List.nodup_append.1 hdistinct
    obtain ⟨d, before, after, -, hholds, -⟩ := he.block
    have hlines := Draft.lines_of_holds hholds
    exact List.forall_mem_cons.2 ⟨Codec.length_lt_of_lines hlines hfirst, ih hothers⟩

end Writer

/-- What the reading of component files depends on. -/
structure Reading where
  codec : Codec
  keyFields : Nat
  fingerprint : Bytes → Fingerprint

/-- How files of a format are read. -/
def Format.reading (format : Format) : Reading :=
  ⟨format.codec, format.keyFields, format.fingerprint⟩

namespace Reading

/-- The key bytes of a tuple. -/
def keyOf (r : Reading) (tuple : Tuple) : Bytes := tuple.keyBytes r.keyFields

/-- The tuples of a file, as a codec stores them and by ascending key. -/
structure Admits (r : Reading) (tuples : List Tuple) : Prop where
  kinds : 0 < r.codec.kinds.length
  kept : ∀ t ∈ tuples, r.codec.Keeps t
  ascending : Tuple.Ascending r.keyFields tuples
  keys : ∀ t ∈ tuples, (r.keyOf t).length < 2 ^ 32

end Reading

/-- A file is opened where footer and block index are read from it, and the block index counts the
tuples that the footer tells. -/
theorem Archive.ofBytes_eq_ok_iff {path : String} {codec : Codec} {keyFields : Nat} {file : Bytes}
    {a : Archive} : Archive.ofBytes path codec keyFields file = .ok a ↔
      Footer.size ≤ file.length ∧ ∃ footer entries,
        Footer.decode (file.drop (file.length - Footer.size)) = .ok footer ∧
        footer.fits (file.length - Footer.size) = true ∧
        IndexEntry.decodeAll (Bytes.slice file footer.indexOffset footer.indexSize) = .ok entries ∧
        (entries.map IndexEntry.tuples).sum = footer.tuples ∧ footer.tuples < Numeral.word ∧
        a = { codec, keyFields, size := file.length, footer, entries } := by
  constructor
  · intro h
    simp only [ofBytes] at h
    split at h
    · contradiction
    · rename_i hlong
      simp only [Outcome.bind_eq_ok_iff, Outcome.liftM_eq, Outcome.ofExcept_eq_ok_iff] at h
      obtain ⟨footer, hfooter, h⟩ := h
      split at h
      · contradiction
      · rename_i hfits
        simp only [Outcome.bind_eq_ok_iff, Outcome.ofExcept_eq_ok_iff,
          Outcome.ofWord_eq_ok_iff] at h
        obtain ⟨entries, hentries, indexed, ⟨hword, rfl⟩, h⟩ := h
        split at h
        · contradiction
        · rename_i hsum
          rw [not_not] at hsum
          exact ⟨Nat.le_of_not_lt hlong, footer, entries, hfooter, by simpa using hfits, hentries,
            hsum, hsum ▸ hword, (Except.ok.inj h).symm⟩
  · rintro ⟨hlong, footer, entries, hfooter, hfits, hentries, hsum, hword, rfl⟩
    simp only [ofBytes, if_neg (Nat.not_lt.2 hlong), hfooter, hfits, hentries, hsum,
      Outcome.liftM_eq, Outcome.ofExcept_ok, bind, Except.bind, pure, Except.pure]
    rw [Outcome.ofWord_eq_ok_iff.2 ⟨hword, rfl⟩]
    simp

/-- A file that can be opened is known by its size, and its footer is read from its end. -/
theorem Archive.size_of_ofBytes {path : String} {codec : Codec} {keyFields : Nat} {file : Bytes}
    {a : Archive} (h : Archive.ofBytes path codec keyFields file = .ok a) :
    a.size = file.length ∧
      Footer.decode (file.drop (file.length - Footer.size)) = .ok a.footer := by
  obtain ⟨-, footer, entries, hfooter, -, -, -, -, rfl⟩ := Archive.ofBytes_eq_ok_iff.1 h
  exact ⟨rfl, hfooter⟩

/-- The component of a file has the number and the name it is given, the range its footer tells, and
the size the file had when it was opened. -/
theorem Archive.component_eq_ok {a : Archive} {file : Bytes} {id : Nat} {name : String}
    {c : Component} (h : a.component file id name = .ok c) :
    c.serial = id ∧ c.range = a.footer.range ∧ c.file = .ok name ∧ c.size = a.size := by
  simp only [Archive.component, Outcome.bind_eq_ok_iff, pure, Except.pure, Except.ok.injEq] at h
  obtain ⟨filter, -, rfl⟩ := h
  exact ⟨rfl, rfl, rfl, rfl⟩

/-- Wherever a file can be opened, its footer has this range. -/
def Archive.Tells (file : Bytes) (range : Range) : Prop :=
  ∀ (path : String) (codec : Codec) (keyFields : Nat) (a : Archive),
    Archive.ofBytes path codec keyFields file = .ok a → a.footer.range = range

/-- A file is that of a component, and holds these tuples. -/
structure Component.HasFile (r : Reading) (c : Component) (file : Bytes) (tuples : List Tuple) :
    Prop where
  name : c.file = .ok (FileName.ofComponent c.id c.range)
  ordered : c.range.min ≤ c.range.max
  archive : ∃ a blocks, (∀ path, Archive.ofBytes path r.codec r.keyFields file = .ok a) ∧
    a.codec = r.codec ∧ a.keyFields = r.keyFields ∧ a.footer.range = c.range ∧
    a.component file c.serial (FileName.ofComponent c.id c.range) = .ok c ∧
    a.Serves file blocks ∧ blocks.flatten = tuples
  admits : ∀ t ∈ tuples, ∀ format : Format, format.fingerprint = r.fingerprint →
    c.mayContain format (r.keyOf t) = true

theorem Component.HasFile.max_lt {r : Reading} {c : Component} {file : Bytes} {tuples : List Tuple}
    (h : c.HasFile r file tuples) : c.range.max < Numeral.word := by
  obtain ⟨a, -, hopen, -, -, hrange, -⟩ := h.archive
  rw [← hrange]
  exact Footer.max_lt_of_decode (Archive.size_of_ofBytes (hopen "")).2

namespace Writer

theorem sum_tuples {codec : Codec} {keyFields : Nat} {written : Bytes} {entries : List IndexEntry}
    {blocks : List (List Tuple)} (h : List.Forall₂ (Wrote codec keyFields written) entries blocks) :
    (entries.map IndexEntry.tuples).sum = blocks.flatten.length := by
  induction h with
  | nil => rfl
  | cons he hrest ih => simp [he.tuples, ih]

/-- Footer and block index are found in a file put together from its parts. -/
theorem index_parts {written filter index file : Bytes} {f : Footer}
    (hfile : file = written ++ filter ++ index ++ f.encode)
    (hindexOffset : f.indexOffset = written.length + filter.length)
    (hindexSize : f.indexSize = index.length)
    (hbloomOffset : f.bloomOffset = written.length) (hbloomSize : f.bloomSize = filter.length) :
    Footer.size ≤ file.length ∧ file.drop (file.length - Footer.size) = f.encode ∧
      f.fits (file.length - Footer.size) = true ∧
      Bytes.slice file f.indexOffset f.indexSize = index := by
  have hlength : file.length = written.length + filter.length + index.length + Footer.size := by
    simp only [hfile, List.length_append, Footer.length_encode]
  have hoffset : file.length - Footer.size = (written ++ filter ++ index).length := by
    simp only [List.length_append]
    omega
  refine ⟨by omega, by rw [hoffset, hfile, List.drop_left], ?_, ?_⟩
  · simp only [Footer.fits, hoffset, List.length_append, Bool.and_eq_true, decide_eq_true_iff]
    omega
  · exact Bytes.slice_eq (written ++ filter) f.encode (by rw [hfile]) (by simp [hindexOffset])
      hindexSize

/-- A file put together from its parts is opened as an archive with its block index. -/
theorem ofBytes_parts {codec : Codec} {keyFields : Nat} {written filter file : Bytes}
    {entries : List IndexEntry} {f : Footer}
    (hfile : file = written ++ filter ++ entries.flatMap IndexEntry.encode ++ f.encode)
    (hindexOffset : f.indexOffset = written.length + filter.length)
    (hindexSize : f.indexSize = (entries.flatMap IndexEntry.encode).length)
    (hbloomOffset : f.bloomOffset = written.length) (hbloomSize : f.bloomSize = filter.length)
    (htuples : f.tuples = (entries.map IndexEntry.tuples).sum)
    (hentries : ∀ e ∈ entries, e.Fits) (hfits : f.Fits) (path : String) :
    Archive.ofBytes path codec keyFields file =
      .ok { codec, keyFields, size := file.length, footer := f, entries } := by
  obtain ⟨hlong, hdrop, hinside, hslice⟩ :=
    index_parts hfile hindexOffset hindexSize hbloomOffset hbloomSize
  refine Archive.ofBytes_eq_ok_iff.2 ⟨hlong, f, entries, ?_, hinside, ?_, htuples.symm,
    hfits.tuples, rfl⟩
  · rw [hdrop, Footer.decode_encode hfits]
  · rw [hslice, IndexEntry.decodeAll_encode hentries]

/-- The filter of a file put together from its parts is read from it. -/
theorem filter_parts {written : Bytes} {filter : Bloom.Filter} {file : Bytes} {a : Archive}
    (hfile : written ++ filter.encode <+: file)
    (hbloomOffset : a.footer.bloomOffset = written.length)
    (hbloomSize : a.footer.bloomSize = filter.encode.length) (hroom : file.length < Bytes.limit) :
    a.filter file = .ok filter := by
  obtain ⟨rest, hrest⟩ := hfile
  have hlength := congrArg List.length hrest
  simp only [List.length_append] at hlength
  have hposition : Archive.positionLimit = Bytes.limit := rfl
  have hread : Archive.readRange file a.footer.bloomOffset a.footer.bloomSize =
      .ok filter.encode := by
    rw [Archive.readRange, if_neg (by omega), if_neg (by omega), if_neg (by omega),
      Bytes.slice_eq written rest hrest.symm hbloomOffset hbloomSize]
  simp only [Archive.filter, hread, bind, Except.bind, Outcome.liftM_eq,
    Bloom.Filter.decode_encode, Outcome.ofExcept_ok]

/-- The footer of a file of finished blocks with a filter. -/
def footer (w : Writer) (filter : Bloom.Filter) (range : Range) : Footer where
  indexOffset := w.written.length + filter.encode.length
  indexSize := (w.entries.flatMap IndexEntry.encode).length
  bloomOffset := w.written.length
  bloomSize := filter.encode.length
  tuples := w.tuples
  range := range

/-- A file of finished blocks with a filter. -/
def fileWith (w : Writer) (filter : Bloom.Filter) (range : Range) : Bytes :=
  w.written ++ filter.encode ++ w.entries.flatMap IndexEntry.encode ++
    (w.footer filter range).encode

/-- The component of a file of finished blocks with a filter. -/
def componentWith (w : Writer) (filter : Bloom.Filter) (serial : Nat) (range : Range)
    (name : String) :
    Component where
  serial := serial
  range := range
  size := (w.fileWith filter range).length
  contents := some ⟨name, filter, w.tuples⟩

theorem finish_eq_ok_iff {w : Writer} {serial : Nat} {range : Range} {name : String} {file : Bytes}
    {c : Component} : w.finish serial range name = .ok (file, c) ↔
      ∃ filter, Bloom.Filter.ofKeys w.closeBlock.format.rate w.closeBlock.keys = .ok filter ∧
        w.closeBlock.fileWith filter range = file ∧
        w.closeBlock.componentWith filter serial range name = c := by
  simp only [finish, Outcome.bind_eq_ok_iff, pure, Except.pure, Except.ok.injEq, Prod.mk.injEq]
  rfl

theorem length_fileWith (w : Writer) (filter : Bloom.Filter) (range : Range) :
    (w.fileWith filter range).length = w.written.length + filter.encode.length +
      (w.entries.flatMap IndexEntry.encode).length + Footer.size := by
  simp only [fileWith, List.length_append, Footer.length_encode]

/-- Filter and footer are small, so a file is one where its blocks and their entries are. -/
theorem length_fileWith_lt {w : Writer} (filter : Bloom.Filter) (range : Range)
    (h : w.written.length + (w.entries.flatMap IndexEntry.encode).length < 2 ^ 62) :
    (w.fileWith filter range).length < Bytes.limit := by
  have hsmall := filter.length_encode_lt
  rw [length_fileWith]
  simp only [Footer.size, Bytes.limit]
  omega

/-- A file of finished blocks with a filter is opened again as the component it was made for. -/
theorem exists_archive_of_holds {w : Writer} {blocks : List (List Tuple)} (h : w.Holds blocks [])
    (filter : Bloom.Filter) {range : Range}
    (hcount : ∀ tuples ∈ blocks, tuples.length < 2 ^ 32)
    (hkeys : ∀ t ∈ blocks.flatten, (w.format.keyOf t).length < 2 ^ 32)
    (hordered : range.min ≤ range.max) (hmax : range.max < Numeral.word)
    (hroom : (w.fileWith filter range).length < Bytes.limit) :
    ∃ a, (∀ path, Archive.ofBytes path w.format.codec w.format.keyFields
        (w.fileWith filter range) = .ok a) ∧
      a.codec = w.format.codec ∧ a.keyFields = w.format.keyFields ∧
      a.footer = w.footer filter range ∧
      a.filter (w.fileWith filter range) = .ok filter ∧
      (∀ serial name, a.component (w.fileWith filter range) serial name =
        .ok (w.componentWith filter serial range name)) ∧
      List.Forall₂ (Archive.Leads w.format.codec w.format.keyFields (w.fileWith filter range))
        a.entries blocks := by
  have htuples : w.tuples = (w.entries.map IndexEntry.tuples).sum := by
    rw [sum_tuples h.wrote, h.tuples, List.append_nil]
  have hwrote : List.Forall₂
      (Wrote w.format.codec w.format.keyFields (w.fileWith filter range)) w.entries blocks := by
    refine h.wrote.imp fun e tuples he => ?_
    rw [fileWith, List.append_assoc, List.append_assoc]
    exact wrote_append he _
  obtain ⟨hentries, hleads⟩ := index_of_wrote hwrote hcount hkeys hroom
  have hlength := w.length_fileWith filter range
  have hfew : w.tuples ≤ w.written.length := by
    rw [h.tuples, List.append_nil]
    exact h.room
  simp only [Bytes.limit] at hroom
  have hfits : (w.footer filter range).Fits :=
    ⟨by dsimp only [footer]; omega, by dsimp only [footer]; omega, by dsimp only [footer]; omega,
      by dsimp only [footer]; omega, by dsimp only [footer]; omega, hmax, hordered⟩
  have hopen := fun path => @ofBytes_parts w.format.codec w.format.keyFields _ _ _ _ _
    (rfl : w.fileWith filter range = _) rfl rfl rfl rfl htuples hentries hfits path
  have hfilter : Archive.filter ⟨w.format.codec, w.format.keyFields,
      (w.fileWith filter range).length, w.footer filter range, w.entries⟩
      (w.fileWith filter range) = .ok filter := by
    refine filter_parts ?_ rfl rfl hroom
    rw [fileWith, List.append_assoc]
    exact List.prefix_append ..
  refine ⟨_, hopen, rfl, rfl, rfl, hfilter, fun serial name => ?_, hleads⟩
  rw [Archive.component, Outcome.bind_eq_ok_iff]
  exact ⟨filter, hfilter, rfl⟩

/-- A file of finished blocks of tuples with ascending keys, with a filter that admits them, is that
of the component it was made for. -/
theorem hasFile_of_holds {w : Writer} {blocks : List (List Tuple)} (h : w.Holds blocks [])
    {filter : Bloom.Filter} {serial : Nat} {range : Range}
    (hasc : Tuple.Ascending w.format.keyFields blocks.flatten)
    (hkeys : ∀ t ∈ blocks.flatten, (w.format.keyOf t).length < 2 ^ 32)
    (hordered : range.min ≤ range.max) (hmax : range.max < Numeral.word)
    (hadmits : ∀ key ∈ w.keys, filter.admits key = true)
    (hroom : (w.fileWith filter range).length < Bytes.limit) :
    (w.componentWith filter serial range
      (FileName.ofComponent (Numeral.wrapped serial) range)).HasFile w.format.reading
      (w.fileWith filter range) blocks.flatten := by
  have hcount := count_lt_of_wrote h.wrote (Tuple.ne_of_ascending hasc)
  obtain ⟨a, hopen, hcodec, hkeyFields, hfooter, -, hcomponent, hleads⟩ :=
    exists_archive_of_holds h filter hcount hkeys hordered hmax hroom
  have hrange : a.footer.range = range := by
    rw [hfooter]
    rfl
  rw [← hkeyFields] at hasc
  rw [← hcodec, ← hkeyFields] at hleads
  refine ⟨rfl, hordered, ⟨a, blocks, hopen, hcodec, hkeyFields, hrange, hcomponent _ _,
    ⟨hleads, hasc⟩, rfl⟩, ?_⟩
  intro t ht format hformat
  show filter.admits _ = true
  rw [hformat]
  refine hadmits _ ?_
  rw [h.keys, List.append_nil]
  exact List.mem_map_of_mem ht

/-- A finished file is opened again as the component it was made for. -/
theorem finish_spec {w : Writer} {blocks : List (List Tuple)} {current : List Tuple}
    (h : w.Holds blocks current) {serial : Nat} {range : Range} {file : Bytes} {c : Component}
    (hasc : Tuple.Ascending w.format.keyFields (blocks.flatten ++ current))
    (hkeys : ∀ t ∈ blocks.flatten ++ current, (w.format.keyOf t).length < 2 ^ 32)
    (hordered : range.min ≤ range.max) (hmax : range.max < Numeral.word)
    (hfinish : w.finish serial range (FileName.ofComponent (Numeral.wrapped serial) range) =
      .ok (file, c)) (hroom : c.size < Bytes.limit) :
    c.serial = serial ∧ c.range = range ∧
      c.HasFile w.format.reading file (blocks.flatten ++ current) := by
  obtain ⟨closed, hclosed, hholds, hformat⟩ := holds_closeBlock h
  obtain ⟨filter, hfilter, rfl, rfl⟩ := finish_eq_ok_iff.1 hfinish
  rw [← hclosed] at hasc hkeys ⊢
  rw [← hformat] at hasc hkeys ⊢
  exact ⟨rfl, rfl, hasFile_of_holds hholds hasc hkeys hordered hmax
    (fun _ => Bloom.Filter.admits_ofKeys hfilter) hroom⟩

theorem holds_start {format : Format} {w : Writer} (h : start format = .ok w) :
    w.format = format ∧ w.Holds [] [] := by
  obtain rfl := eq_of_start h
  exact ⟨rfl, rfl, Draft.holds_nil _ _, List.Forall₂.nil, rfl, rfl, Nat.zero_le _, by simp⟩

end Writer

namespace Directory

variable {d d' : Directory} {format : Format} {serial : Nat} {range : Range} {tuples : List Tuple}

/-- Where a file is built, a writer has taken in all tuples and finished it. -/
theorem build_eq_ok_iff {c : Component} : d.build format serial range tuples = (d', .ok c) ↔
    ∃ w v file, Writer.start format = .ok w ∧ w.addAll tuples = (v, .ok ()) ∧
      v.finish serial range (FileName.ofComponent (Numeral.wrapped serial) range) = .ok (file, c) ∧
      d' = (d.erase (FileName.draft (FileName.ofComponent (Numeral.wrapped serial) range))).write
        (FileName.ofComponent (Numeral.wrapped serial) range) file := by
  simp only [build]
  constructor
  · intro h
    split at h
    · simp at h
    · rename_i w hstart
      split at h
      · simp at h
      · rename_i v hadd
        split at h
        · simp at h
        · rename_i file component hfinish
          obtain ⟨rfl, hc⟩ := Prod.mk.inj h
          obtain rfl := Except.ok.inj hc
          exact ⟨w, v, file, hstart, hadd, hfinish, rfl⟩
  · rintro ⟨w, v, file, hstart, hadd, hfinish, rfl⟩
    simp only [hstart, hadd, hfinish]

/-- Where a file is built, the directory has it, and it is that of the component. -/
theorem build_eq_ok {c : Component} (h : d.build format serial range tuples = (d', .ok c))
    (hadmits : format.reading.Admits tuples) (hordered : range.min ≤ range.max)
    (hmax : range.max < Numeral.word) (hroom : c.size < Bytes.limit) :
    c.serial = serial ∧ c.range = range ∧ ∃ file, c.HasFile format.reading file tuples ∧
      d' = (d.erase (FileName.draft (FileName.ofComponent c.id c.range))).write
        (FileName.ofComponent c.id c.range) file := by
  obtain ⟨w, v, file, hstart, hadd, hfinish, rfl⟩ := build_eq_ok_iff.1 h
  obtain ⟨rfl, hnil⟩ := Writer.holds_start hstart
  obtain ⟨hformat, closed, front, hholds, hwhole⟩ := Writer.holds_addAll hnil hadmits.kept hadd
  rw [List.flatten_nil, List.nil_append, List.nil_append] at hwhole
  rw [← hwhole, ← hformat] at hadmits
  obtain ⟨hserial, hrange, hhas⟩ := Writer.finish_spec hholds hadmits.ascending
    hadmits.keys hordered hmax hfinish hroom
  rw [hwhole, hformat] at hhas
  exact ⟨hserial, hrange, file, hhas, by rw [Component.id, hserial, hrange]⟩

/-- A file is built wherever a writer takes in all tuples. Its size is bounded by that of the blocks
and of the block index. -/
theorem exists_build (d : Directory) {w v : Writer} (hstart : Writer.start format = .ok w)
    (hadd : w.addAll tuples = (v, .ok ())) (hrate : Bloom.validRate v.closeBlock.format.rate = true)
    (serial : Nat) (range : Range) :
    ∃ d' c, d.build format serial range tuples = (d', .ok c) ∧
      c.size < v.closeBlock.written.length +
        (v.closeBlock.entries.flatMap IndexEntry.encode).length + 2 ^ 31 := by
  obtain ⟨filter, hfilter⟩ := Bloom.Filter.exists_ofKeys hrate v.closeBlock.keys
  refine ⟨_, _, build_eq_ok_iff.2 ⟨w, v, _, hstart, hadd,
    Writer.finish_eq_ok_iff.2 ⟨filter, hfilter, rfl, rfl⟩, rfl⟩, ?_⟩
  have hlength := v.closeBlock.length_fileWith filter range
  have hsmall := filter.length_encode_lt
  have hfooter : Footer.size = 64 := rfl
  simp only [Writer.componentWith]
  omega

/-- The size of a component is that of the file that was built. -/
theorem size_build {c : Component} (h : d.build format serial range tuples = (d', .ok c)) :
    ∃ file, d'.find? (FileName.ofComponent (Numeral.wrapped serial) range) = some file ∧
      c.size = file.length := by
  obtain ⟨w, v, file, -, -, hfinish, rfl⟩ := build_eq_ok_iff.1 h
  obtain ⟨filter, -, rfl, rfl⟩ := Writer.finish_eq_ok_iff.1 hfinish
  exact ⟨_, by simp, rfl⟩

theorem serial_build {c : Component} (h : d.build format serial range tuples = (d', .ok c)) :
    c.serial = serial := by
  obtain ⟨w, v, file, -, -, hfinish, -⟩ := build_eq_ok_iff.1 h
  obtain ⟨filter, -, -, rfl⟩ := Writer.finish_eq_ok_iff.1 hfinish
  rfl

theorem range_build {c : Component} (h : d.build format serial range tuples = (d', .ok c)) :
    c.range = range := by
  obtain ⟨w, v, file, -, -, hfinish, -⟩ := build_eq_ok_iff.1 h
  obtain ⟨filter, -, -, rfl⟩ := Writer.finish_eq_ok_iff.1 hfinish
  rfl

/-- A file that is built tells the range it was built for, whatever else it holds. -/
theorem tells_build {c : Component} (h : d.build format serial range tuples = (d', .ok c))
    (hordered : range.min ≤ range.max) (hmax : range.max < Numeral.word) :
    c.range = range ∧ ∃ file, Archive.Tells file range ∧
      d' = (d.erase (FileName.draft (FileName.ofComponent c.id c.range))).write
        (FileName.ofComponent c.id c.range) file := by
  obtain ⟨w, v, file, -, -, hfinish, rfl⟩ := build_eq_ok_iff.1 h
  obtain ⟨filter, -, rfl, rfl⟩ := Writer.finish_eq_ok_iff.1 hfinish
  refine ⟨rfl, _, fun path codec keyFields a hopen => ?_, rfl⟩
  have hdecode := (Archive.size_of_ofBytes hopen).2
  have hlength := v.closeBlock.length_fileWith filter range
  have hdrop : (v.closeBlock.fileWith filter range).drop
      ((v.closeBlock.fileWith filter range).length - Footer.size) =
      (v.closeBlock.footer filter range).encode := by
    rw [hlength, Nat.add_sub_cancel, Writer.fileWith]
    exact List.drop_left' (by simp only [List.length_append])
  rw [hdrop] at hdecode
  rw [(Footer.range_of_decode hdecode).1]
  have hmin : Bytes.natAt (v.closeBlock.footer filter range).encode 40 8 = range.min :=
    (v.closeBlock.footer filter range).natAt_encode (i := 5) rfl
      (Nat.lt_of_le_of_lt hordered hmax) rfl
  have hmax' : Bytes.natAt (v.closeBlock.footer filter range).encode 48 8 = range.max :=
    (v.closeBlock.footer filter range).natAt_encode (i := 6) rfl hmax rfl
  rw [hmin, hmax']

/-- Where building fails, at most the file under construction is touched. -/
theorem build_eq_error {e : Failure} (h : d.build format serial range tuples = (d', .error e)) :
    ∃ name file, d' = d.write (FileName.draft name) file := by
  simp only [build] at h
  split at h
  · exact ⟨_, _, (Prod.mk.inj h).1.symm⟩
  · split at h
    · exact ⟨_, _, (Prod.mk.inj h).1.symm⟩
    · split at h
      · exact ⟨_, _, (Prod.mk.inj h).1.symm⟩
      · simp at h

end Directory

end Strata
