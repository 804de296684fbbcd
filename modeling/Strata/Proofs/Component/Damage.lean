import Strata.Proofs.Codec.Damage
import Strata.Proofs.Component.File

/-!
# Damaged component files

A component file may hold any bytes. Opening it ends well or tells of damage, and so does all that
is read where the footer says, since the footer is checked against the file. An entry of the block
index is not checked: what it leads to is read for what it is where the stretch it names lies in the
file, and only there. A stretch outside makes the reading fail as a fault of the file, or break a
precondition where it is too long for any file.
-/

namespace Strata

namespace Footer

/-- A footer that cannot be read tells of damage. -/
theorem damage_of_decode {data : Bytes} {e : Error} (h : decode data = .error e) :
    ∃ cause, e = .damage cause := by
  simp only [decode] at h
  split at h
  · exact ⟨_, (Except.error.inj h).symm⟩
  · split at h
    · exact ⟨_, (Except.error.inj h).symm⟩
    · split at h
      · exact ⟨_, (Except.error.inj h).symm⟩
      · contradiction

/-- A footer that fits in front of an offset names two stretches in front of it. -/
theorem fits_iff {f : Footer} {offset : Nat} : f.fits offset = true ↔
    f.indexOffset + f.indexSize ≤ offset ∧ f.bloomOffset + f.bloomSize ≤ f.indexOffset := by
  simp [fits]

end Footer

namespace IndexEntry

/-- A block index that cannot be read tells of damage. -/
theorem damage_of_decodeAll {data : Bytes} {e : Error} (h : decodeAll data = .error e) :
    ∃ cause, e = .damage cause := by
  fun_induction decodeAll data with
  | case1 data hempty => contradiction
  | case2 data hempty e' hdecode =>
    obtain rfl := Except.error.inj h
    simp only [decode] at hdecode
    split at hdecode
    · exact ⟨_, (Except.error.inj hdecode).symm⟩
    · contradiction
  | case3 data hempty entry size hdecode ih =>
    cases hrest : decodeAll (data.drop size) with
    | error e' =>
      rw [hrest] at h
      obtain rfl := Except.error.inj h
      exact ih hrest
    | ok entries =>
      rw [hrest] at h
      contradiction

end IndexEntry

namespace Block

/-- A block that cannot be read tells of damage. -/
theorem damage_of_decode {raw : Bytes} {e : Error} (h : decode raw = .error e) :
    ∃ cause, e = .damage cause := by
  simp only [decode] at h
  split at h
  · exact ⟨_, (Except.error.inj h).symm⟩
  · split at h
    · exact ⟨_, (Except.error.inj h).symm⟩
    · split at h
      · exact ⟨_, (Except.error.inj h).symm⟩
      · split at h
        · exact ⟨_, (Except.error.inj h).symm⟩
        · contradiction

/-- Every tuple of a block begins in it. -/
structure Enclosed (b : Block) : Prop where
  offsets : ∀ o ∈ b.offsets, o ≤ b.data.length
  data : b.data.length < Bytes.limit

theorem enclosed_of_decode {raw : Bytes} {b : Block} (h : decode raw = .ok b)
    (hraw : raw.length < Bytes.limit) : b.Enclosed := by
  simp only [decode] at h
  split at h
  · contradiction
  · split at h
    · contradiction
    · split at h
      · contradiction
      · split at h
        · contradiction
        · rename_i hoffsets
          obtain rfl := Except.ok.inj h
          rw [Bool.not_eq_true, List.any_eq_false] at hoffsets
          refine ⟨fun o ho => ?_, ?_⟩
          · have hle := hoffsets o ho
            rw [decide_eq_true_iff, Nat.not_lt] at hle
            rw [List.length_take]
            omega
          · rw [List.length_take]
            omega

theorem guarded_tuples {b : Block} (h : b.Enclosed) {codec : Codec}
    (hmeasured : codec.Measured) : (b.tuples codec).Guarded :=
  Outcome.guarded_mapM fun o ho => Codec.guarded_read hmeasured (h.offsets o ho) h.data

end Block

namespace Archive

/-- A stretch that lies in a file. Of an empty one only its position counts, which must be one. -/
def Within (file : Bytes) (offset size : Nat) : Prop :=
  offset + size ≤ file.length ∨ size = 0 ∧ offset < positionLimit

/-- What stops the reading of a stretch that does not lie in a file. -/
def fault (offset size : Nat) : Failure :=
  if positionLimit ≤ offset then .error (.file .badPosition)
  else if Bytes.limit ≤ size then .breach
  else .error (.file .endOfFile)

theorem not_guarded_fault {α : Type} (offset size : Nat) :
    ¬ Outcome.Guarded (.error (fault offset size) : Outcome α) := by
  rw [fault]
  split
  · exact Outcome.not_guarded_file _
  · split
    · exact Outcome.not_guarded_breach
    · exact Outcome.not_guarded_file _

variable {file : Bytes} {offset size : Nat}

theorem readRange_of_within (h : Within file offset size) (hfile : file.length < Bytes.limit) :
    readRange file offset size = .ok (Bytes.slice file offset size) := by
  have hposition : positionLimit = Bytes.limit := rfl
  rw [readRange]
  rcases h with h | ⟨rfl, h⟩
  · rw [if_neg (by omega), if_neg (by omega), if_neg (by omega)]
  · rw [if_neg (by omega), if_neg (by decide), if_neg (by omega)]

theorem readRange_of_not_within (h : ¬ Within file offset size) :
    readRange file offset size = .error (fault offset size) := by
  rw [Within] at h
  rw [readRange, fault]
  split
  · rfl
  · split
    · rfl
    · rw [if_pos (by omega)]

theorem guarded_readRange_iff (hfile : file.length < Bytes.limit) :
    (readRange file offset size).Guarded ↔ Within file offset size := by
  by_cases h : Within file offset size
  · rw [readRange_of_within h hfile]
    exact ⟨fun _ => h, fun _ => Outcome.guarded_ok _⟩
  · rw [readRange_of_not_within h]
    exact ⟨fun hguarded => absurd hguarded (not_guarded_fault _ _),
      fun hwithin => absurd hwithin h⟩

theorem length_le_of_readRange {raw : Bytes} (h : readRange file offset size = .ok raw) :
    raw.length ≤ file.length := by
  simp only [readRange] at h
  split at h
  · contradiction
  · split at h
    · contradiction
    · split at h
      · contradiction
      · obtain rfl := Except.ok.inj h
        rw [Bytes.length_slice]
        omega

theorem block_eq (file : Bytes) (e : IndexEntry) : block file e =
    readRange file e.offset e.size >>= fun raw => Outcome.ofExcept (Block.decode raw) >>= fun b =>
      if b.length = e.tuples then .ok b
      else .error (.error (.damage (.blockTuples e.offset b.length e.tuples))) := by
  rw [block]
  refine bind_congr fun raw => bind_congr fun b => ?_
  by_cases h : b.length = e.tuples
  · rw [if_pos h, if_neg (not_not.2 h)]
    rfl
  · rw [if_neg h, if_pos h]
    rfl

/-- The block of an entry is read, or its damage told, just where the entry names a stretch of the
file. -/
theorem guarded_block_iff {e : IndexEntry} (hfile : file.length < Bytes.limit) :
    (block file e).Guarded ↔ Within file e.offset e.size := by
  rw [block_eq, Outcome.guarded_bind_iff, guarded_readRange_iff hfile]
  refine and_iff_left fun raw _ => Outcome.guarded_bind_iff.2
    ⟨Outcome.guarded_ofExcept_iff.2 fun _ => Block.damage_of_decode, fun b _ => ?_⟩
  split
  · exact Outcome.guarded_ok _
  · exact Outcome.guarded_damage _

theorem block_of_not_within {e : IndexEntry} (h : ¬ Within file e.offset e.size) :
    block file e = .error (fault e.offset e.size) := by
  rw [block, readRange_of_not_within h]
  rfl

theorem enclosed_of_block {e : IndexEntry} {b : Block} (h : block file e = .ok b)
    (hfile : file.length < Bytes.limit) : b.Enclosed := by
  simp only [block_eq, Outcome.bind_eq_ok_iff, Outcome.ofExcept_eq_ok_iff] at h
  obtain ⟨raw, hread, decoded, hdecode, hb⟩ := h
  split at hb
  · obtain rfl := Except.ok.inj hb
    exact Block.enclosed_of_decode hdecode
      (Nat.lt_of_le_of_lt (length_le_of_readRange hread) hfile)
  · contradiction

/-- The entries whose blocks a reading of all tuples comes to: up to the first one whose tuples it
cannot read. -/
def reached (codec : Codec) (file : Bytes) : List IndexEntry → List IndexEntry
  | [] => []
  | e :: rest =>
    match block file e >>= fun b => b.tuples codec with
    | .ok _ => e :: reached codec file rest
    | .error _ => [e]

theorem guarded_tuplesOf_iff {codec : Codec} (hsized : codec.Sized)
    (hfile : file.length < Bytes.limit) (entries : List IndexEntry) :
    (tuplesOf codec file entries).Guarded ↔
      ∀ e ∈ reached codec file entries, Within file e.offset e.size := by
  induction entries with
  | nil => exact ⟨by simp [reached], fun _ => Outcome.guarded_ok _⟩
  | cons e rest ih =>
    have hfirst : (block file e >>= fun b => b.tuples codec).Guarded ↔
        Within file e.offset e.size := by
      rw [Outcome.guarded_bind_iff, guarded_block_iff hfile]
      exact and_iff_left fun b hb =>
        Block.guarded_tuples (enclosed_of_block hb hfile) (Codec.measured_of_sized hsized)
    have hsplit : tuplesOf codec file (e :: rest) =
        (block file e >>= fun b => b.tuples codec) >>= fun tuples =>
          tuplesOf codec file rest >>= fun others => pure (tuples ++ others) := by
      rw [bind_assoc]
      rfl
    rw [hsplit, Outcome.guarded_bind_iff, hfirst, reached]
    cases htuples : block file e >>= fun b => b.tuples codec with
    | error f => simp
    | ok tuples =>
      have hothers : (tuplesOf codec file rest >>= fun others =>
          (pure (tuples ++ others) : Outcome (List Tuple))).Guarded ↔
          (tuplesOf codec file rest).Guarded := by
        rw [Outcome.guarded_bind_iff]
        exact and_iff_left fun others _ => Outcome.guarded_ok _
      simp only [Except.ok.injEq, forall_eq', List.forall_mem_cons, hothers, ih]

theorem guarded_search {codec : Codec} (hsized : codec.Sized) (keyFields : Nat) {b : Block}
    (hb : b.Enclosed) (key : Bytes) (low high : Nat) (hhigh : high ≤ b.length) :
    (search codec keyFields b key low high).Guarded := by
  fun_induction search codec keyFields b key low high with
  | case1 low high hlt mid hmid =>
    rw [Block.length] at hhigh
    rw [List.getElem?_eq_none_iff] at hmid
    omega
  | case2 low high hlt mid offset hmid e hread =>
    have hguarded := Codec.guarded_read (Codec.measured_of_sized hsized)
      (hb.offsets offset (List.mem_of_getElem? hmid)) hb.data
    intro f hf
    obtain rfl := Except.error.inj hf
    exact hguarded e hread
  | case3 low high hlt mid offset hmid tuple hread hcompare ih => exact ih hhigh
  | case4 low high hlt mid offset hmid tuple hread hcompare ih => exact ih (by omega)
  | case5 low high hlt mid offset hmid tuple hread hcompare => exact Outcome.guarded_ok _
  | case6 low high hlt => exact Outcome.guarded_ok _

/-- The block index of a file counts more tuples than a word holds. -/
def Overcounted (file : Bytes) : Prop :=
  Footer.size ≤ file.length ∧ ∃ footer entries,
    Footer.decode (file.drop (file.length - Footer.size)) = .ok footer ∧
    footer.fits (file.length - Footer.size) = true ∧
    IndexEntry.decodeAll (Bytes.slice file footer.indexOffset footer.indexSize) = .ok entries ∧
    Numeral.word ≤ (entries.map IndexEntry.tuples).sum

/-- A file that cannot be opened is told to be damaged, unless it counts more tuples than a word
holds. -/
theorem guarded_ofBytes_iff {path : String} {codec : Codec} {keyFields : Nat} :
    (ofBytes path codec keyFields file).Guarded ↔ ¬ Overcounted file := by
  have hfooter : (Outcome.ofExcept
      (Footer.decode (file.drop (file.length - Footer.size)))).Guarded :=
    Outcome.guarded_ofExcept_iff.2 fun e => Footer.damage_of_decode
  have hentries : ∀ data, (Outcome.ofExcept (IndexEntry.decodeAll data)).Guarded := fun data =>
    Outcome.guarded_ofExcept_iff.2 fun e => IndexEntry.damage_of_decodeAll
  unfold ofBytes
  simp only [Outcome.liftM_eq, Outcome.guarded_check_iff, Outcome.guarded_bind_iff, hfooter,
    hentries, Outcome.guarded_ofWord_iff, Outcome.ofExcept_eq_ok_iff, true_and]
  constructor
  · rintro h ⟨hlong, footer, entries, hdecode, hfits, hindex, hsum⟩
    exact absurd (h (Nat.not_lt.2 hlong) footer hdecode (by simp [hfits]) entries hindex).1
      (Nat.not_lt.2 hsum)
  · intro h hlong footer hdecode hfits entries hindex
    refine ⟨Nat.lt_of_not_le fun hsum => h ?_, fun _ _ _ => Outcome.guarded_ok _⟩
    exact ⟨Nat.le_of_not_lt hlong, footer, entries, hdecode, by simpa using hfits, hindex, hsum⟩

/-- Each entry of a block index takes 24 bytes and counts fewer than 2 ^ 32 tuples. -/
theorem sum_tuples_le {entries : List IndexEntry} (h : ∀ e ∈ entries, e.Fits) :
    IndexEntry.fixedSize * (entries.map IndexEntry.tuples).sum ≤
      (2 ^ 32 - 1) * (entries.flatMap IndexEntry.encode).length := by
  induction entries with
  | nil => exact Nat.zero_le _
  | cons e entries ih =>
    obtain ⟨he, hrest⟩ := List.forall_mem_cons.1 h
    have htuples := he.tuples
    have hentry : IndexEntry.fixedSize * e.tuples ≤ (2 ^ 32 - 1) * e.encode.length := by
      rw [IndexEntry.length_encode]
      simp only [IndexEntry.fixedSize]
      omega
    simp only [List.map_cons, List.sum_cons, List.flatMap_cons, List.length_append, Nat.mul_add]
    exact Nat.add_le_add hentry (ih hrest)

/-- A file that counts more tuples than a word holds has more than 96 gigabytes. -/
theorem length_of_overcounted (h : Overcounted file) :
    IndexEntry.fixedSize * 2 ^ 32 < file.length := by
  obtain ⟨-, footer, entries, -, -, hentries, hsum⟩ := h
  obtain ⟨hfits, hindex⟩ := IndexEntry.decodeAll_eq_ok_iff.1 hentries
  have hinside : (entries.flatMap IndexEntry.encode).length ≤ file.length := by
    rw [← hindex, Bytes.length_slice]
    omega
  have hle := sum_tuples_le hfits
  simp only [IndexEntry.fixedSize, Numeral.word] at hle hsum ⊢
  omega

/-- Of a file that can be opened, block index and bloom filter lie in front of the footer. -/
theorem fits_of_ofBytes {path : String} {codec : Codec} {keyFields : Nat} {a : Archive}
    (h : ofBytes path codec keyFields file = .ok a) :
    a.codec = codec ∧ a.footer.indexOffset + a.footer.indexSize + Footer.size ≤ file.length ∧
      a.footer.bloomOffset + a.footer.bloomSize ≤ a.footer.indexOffset := by
  obtain ⟨hlong, footer, entries, -, hfits, -, -, -, rfl⟩ := ofBytes_eq_ok_iff.1 h
  rw [Footer.fits_iff] at hfits
  exact ⟨rfl, by dsimp only; omega, hfits.2⟩

/-- Opening a file of any bytes ends well or tells of damage, unless it counts more tuples than a
word holds; so does reading its filter. Reading its tuples does just where every entry come to names
a stretch of the file. -/
theorem guarded_iff_within (path : String) {codec : Codec} (keyFields : Nat) (file : Bytes)
    (hsized : codec.Sized) (hfile : file.length < Bytes.limit) :
    ((ofBytes path codec keyFields file).Guarded ↔ ¬ Overcounted file) ∧
      (Overcounted file → IndexEntry.fixedSize * 2 ^ 32 < file.length) ∧
      ∀ a, ofBytes path codec keyFields file = .ok a →
        a.footer.indexOffset + a.footer.indexSize ≤ file.length ∧
        a.footer.bloomOffset + a.footer.bloomSize ≤ file.length ∧
        (a.filter file).Guarded ∧
        (∀ id name, (a.component file id name).Guarded) ∧
        (∀ e ∈ a.entries, ¬ Within file e.offset e.size →
          block file e = .error (fault e.offset e.size)) ∧
        ((a.tuples file).Guarded ↔
          ∀ e ∈ reached codec file a.entries, Within file e.offset e.size) ∧
        ∀ key, (a.find? file key).Guarded ↔
          ∀ e, a.route? key = some e → Within file e.offset e.size := by
  refine ⟨guarded_ofBytes_iff, length_of_overcounted, fun a hopen => ?_⟩
  obtain ⟨rfl, hindex, hbloom⟩ := fits_of_ofBytes hopen
  have hfilter : (a.filter file).Guarded := by
    rw [filter, Outcome.guarded_bind_iff, guarded_readRange_iff hfile]
    refine ⟨.inl (by omega), fun data _ => Outcome.guarded_ofExcept_iff.2 fun e hdecode => ?_⟩
    simp only [Bloom.Filter.decode] at hdecode
    split at hdecode
    · exact ⟨_, (Except.error.inj hdecode).symm⟩
    · split at hdecode
      · contradiction
      · exact ⟨_, (Except.error.inj hdecode).symm⟩
  refine ⟨by omega, by omega, hfilter, fun id name => ?_, fun e _ => block_of_not_within,
    guarded_tuplesOf_iff hsized hfile a.entries, fun key => ?_⟩
  · rw [component, Outcome.guarded_bind_iff]
    exact ⟨hfilter, fun _ _ => Outcome.guarded_ok _⟩
  · rw [find?]
    cases hroute : a.route? key with
    | none => simp [Outcome.guarded_ok]
    | some e =>
      simp only [Option.some.injEq, forall_eq', Outcome.guarded_bind_iff, guarded_block_iff hfile]
      exact and_iff_left fun b hb => guarded_search hsized a.keyFields
        (enclosed_of_block hb hfile) key 0 b.length (Nat.le_refl _)

/-- A file with one block of two tuples. Its block index names another stretch for the block. -/
def astray (offset size : Nat) : Bytes :=
  [0, 1, 1, 97, 49, 0, 1, 1, 98, 50, 0, 0, 0, 0, 5, 0, 0, 0, 2, 0, 0, 0, 227, 222, 161, 141] ++
    [1, 0, 0, 0, 64, 0, 0, 0, 255, 255, 255, 255, 255, 255, 255, 255] ++
    IndexEntry.encode ⟨[1, 98], offset, size, 2⟩ ++ Footer.encode ⟨42, 26, 26, 16, 2, ⟨0, 0⟩⟩

/-- A block index that tells a size no file has is accepted with the file, whose filter is read and
which answers for keys behind all blocks. Reading all tuples, or looking for a key of the block,
breaks a precondition. -/
theorem oversized_entry_accepted :
    let codec := Codec.plain [.varying, .varying]
    let file := astray 0 (2 ^ 63)
    codec.Sized ∧ file.length < Bytes.limit ∧ ∃ a, ofBytes "" codec 1 file = .ok a ∧
      (a.filter file).Guarded ∧ (a.find? file [1, 99]).Guarded ∧
      ¬ (a.tuples file).Guarded ∧ ¬ (a.find? file [1, 97]).Guarded ∧
      ∃ e ∈ a.entries, block file e = .error .breach := by
  intro codec file
  let e : IndexEntry := ⟨[1, 98], 0, 2 ^ 63, 2⟩
  let a : Archive := ⟨codec, 1, 132, ⟨42, 26, 26, 16, 2, ⟨0, 0⟩⟩, [e]⟩
  have hsized : codec.Sized := ⟨by decide, by decide⟩
  have hfile : file.length < Bytes.limit := by decide +kernel
  have hopen : ofBytes "" codec 1 file = .ok a := by cbv
  have houtside : ¬ Within file 0 (2 ^ 63) := by
    unfold Within
    decide +kernel
  obtain ⟨-, -, hopened⟩ := guarded_iff_within "" 1 file hsized hfile
  obtain ⟨-, -, hfilter, -, hblock, htuples, hfind⟩ := hopened a hopen
  refine ⟨hsized, hfile, a, hopen, hfilter, (hfind _).2 ?_, fun h => houtside ?_,
    fun h => houtside ?_, e, List.mem_singleton_self e, ?_⟩
  · intro e hroute
    have hnone : a.route? [1, 99] = none := by decide +kernel
    simp [hnone] at hroute
  · refine htuples.1 h e ?_
    rw [reached]
    split <;> exact List.mem_cons_self
  · refine (hfind _).1 h e ?_
    decide +kernel
  · exact (hblock e (List.mem_singleton_self e) houtside).trans rfl

end Archive

end Strata
