import Strata.Proofs.Component.Block

/-!
# Tuples packed into one block

Tuples are added to a draft one by one. Each is taken in, turned away for want of room, or rejected,
and a rejected one may leave zeros behind. Whatever lies between the tuples that were taken in,
every offset leads to the image of its tuple, so the finished block is read back as just these
tuples; and no draft of several tuples is larger than its capacity, for a tuple that is rejected has
found room before.

The count of tuples is written in four bytes. Where 2 ^ 32 tuples or more are taken in, which takes
more than 2 ^ 34 bytes for their offsets alone, the block is read as the last of them.
-/

namespace Strata

namespace Codec

/-- The image of a kept tuple lies at an offset that four bytes hold. -/
structure LiesAt (codec : Codec) (data : Bytes) (offset : Nat) (t : Tuple) : Prop where
  low : offset < 2 ^ 32
  kept : codec.Keeps t
  image : ∃ before after, data = before ++ codec.image t ++ after ∧ offset = before.length

variable {codec : Codec} {data : Bytes} {offset : Nat} {t : Tuple}

theorem LiesAt.append (h : codec.LiesAt data offset t) (more : Bytes) :
    codec.LiesAt (data ++ more) offset t := by
  obtain ⟨before, after, rfl, hoffset⟩ := h.image
  exact ⟨h.low, h.kept, before, after ++ more, by simp only [List.append_assoc], hoffset⟩

theorem LiesAt.le (h : codec.LiesAt data offset t) : offset ≤ data.length := by
  obtain ⟨before, after, rfl, rfl⟩ := h.image
  simp only [List.length_append]
  omega

theorem LiesAt.read (h : codec.LiesAt data offset t) (hroom : data.length < Numeral.word) :
    codec.read data offset = .ok t := by
  obtain ⟨before, after, rfl, rfl⟩ := h.image
  exact read_image h.kept before after hroom

theorem stores_nil : (plain []).Stores [] :=
  stores_of_keeps (keeps_plain .nil)

end Codec

namespace Draft

/-- A draft after some tuples were added, whatever the answers were. -/
def addEach : Draft → List Tuple → Draft
  | d, [] => d
  | d, t :: rest => (d.add t).1.addEach rest

/-- The tuples that are taken in of some that are added. -/
def taken : Draft → List Tuple → List Tuple
  | _, [] => []
  | d, t :: rest =>
    let (d, answer) := d.add t
    if answer = .ok true then t :: d.taken rest else d.taken rest

variable {d d' : Draft} {t : Tuple} {tuples more : List Tuple} {answer : Outcome Bool}

/-- A draft carries tuples: its offsets lead to their images, among other bytes, and where there are
several it keeps to its capacity. -/
structure Carries (d : Draft) (tuples : List Tuple) : Prop where
  lie : List.Forall₂ (d.codec.LiesAt d.data) d.offsets tuples
  packed : d.Packed

theorem Carries.length (h : d.Carries tuples) : d.length = tuples.length :=
  h.lie.length_eq

theorem carries_start {codec : Codec} {capacity : Nat} (h : start codec capacity = .ok d) :
    d.codec = codec ∧ d.capacity = capacity ∧ d.Carries [] := by
  rw [start] at h
  split at h
  · obtain rfl := Except.ok.inj h
    exact ⟨rfl, rfl, .nil, packed_nil codec capacity⟩
  · contradiction

/-- Adding a tuple leaves those that are carried where they are. -/
theorem Added.carries (hadded : d.Added t d' answer) (h : d.Carries tuples)
    (ht : t.length = d.codec.kinds.length) :
    d'.Carries (if answer = .ok true then tuples ++ [t] else tuples) := by
  obtain ⟨hlie, hpacked⟩ := h
  have hpacked' := hadded.packed hpacked
  cases hadded with
  | lacking | full | tooLarge => exact ⟨hlie, hpacked⟩
  | stored hstores hroom hlow =>
    have hkeeps := Codec.keeps_of_stores hstores ht
    refine ⟨List.rel_append (hlie.imp fun _ _ h => h.append _) (.cons ?_ .nil), hpacked'⟩
    exact ⟨hlow, hkeeps, d.data, [], by rw [List.append_nil], rfl⟩
  | turnedAway => exact ⟨hlie.imp fun _ _ h => h.append _, hpacked'⟩

/-- Adding tuples one by one, whatever the answers are, appends those that are taken in. -/
theorem carries_addEach (h : d.Carries tuples)
    (hmore : ∀ t ∈ more, t.length = d.codec.kinds.length) :
    (d.addEach more).codec = d.codec ∧ (d.addEach more).capacity = d.capacity ∧
      (d.addEach more).Carries (tuples ++ d.taken more) := by
  induction more generalizing d tuples with
  | nil =>
    rw [taken, List.append_nil]
    exact ⟨rfl, rfl, h⟩
  | cons t rest ih =>
    rw [List.forall_mem_cons] at hmore
    have hadded := d.added_add t
    have hcodec := hadded.codec
    obtain ⟨hcodec', hcapacity, hcarries⟩ :=
      ih (hadded.carries h hmore.1) (by rw [hcodec]; exact hmore.2)
    refine ⟨hcodec'.trans hcodec, hcapacity.trans hadded.capacity, ?_⟩
    rw [taken]
    dsimp only
    split at hcarries
    · rename_i haccepted
      rwa [if_pos haccepted, List.append_cons]
    · rename_i hrefused
      rwa [if_neg hrefused]

/-- The draft that counts some offsets in front as data. -/
def shifted (d : Draft) (shift : Nat) : Draft :=
  { d with
    data := d.data ++ (d.offsets.take shift).flatMap (Bytes.ofNat Block.numberSize)
    offsets := d.offsets.drop shift }

/-- The offsets of a multiple of 2 ^ 32 tuples may as well count as data, for the number of tuples
is written in four bytes. -/
theorem build_shifted (d : Draft) {shift : Nat} (hle : shift ≤ d.offsets.length)
    (hdvd : 2 ^ 32 ∣ shift) : (d.shifted shift).build = d.build := by
  have hcount : Bytes.ofNat Block.numberSize (d.offsets.length - shift) =
      Bytes.ofNat Block.numberSize d.offsets.length := by
    obtain ⟨k, rfl⟩ := hdvd
    rw [← Bytes.ofNat_mod, ← Bytes.ofNat_mod _ d.offsets.length]
    exact congrArg _ (Nat.sub_mul_mod hle)
  have hbody : (d.shifted shift).body = d.body := by
    simp only [body, shifted, List.length_drop, hcount]
    rw [List.append_assoc d.data, ← List.flatMap_append, List.take_append_drop]
  rw [build, build, hbody]

end Draft

namespace Block

/-- A block whose offsets lead to the images of tuples shows the tuples. -/
theorem shows_of_lie {codec : Codec} {data : Bytes} {offsets : List Nat} {tuples : List Tuple}
    (h : List.Forall₂ (codec.LiesAt data) offsets tuples) (hroom : data.length < Numeral.word) :
    (⟨data, offsets⟩ : Block).Shows codec tuples := by
  refine ⟨h.length_eq, fun i t hi => ?_⟩
  obtain ⟨hilt, rfl⟩ := List.getElem?_eq_some_iff.1 hi
  have hlt : i < offsets.length := h.length_eq ▸ hilt
  exact ⟨offsets[i], List.getElem?_eq_getElem hlt, (h.get hlt hilt).read hroom⟩

/-- The block built from a draft whose offsets lead to the images of tuples is read as its data and
offsets. -/
theorem decode_build_of_lie {d : Draft} {tuples : List Tuple}
    (h : List.Forall₂ (d.codec.LiesAt d.data) d.offsets tuples)
    (hcount : tuples.length < 2 ^ 32) : decode d.build = .ok ⟨d.data, d.offsets⟩ := by
  have hlies : ∀ o ∈ d.offsets, ∃ t, d.codec.LiesAt d.data o t := by
    intro o ho
    obtain ⟨i, hi, rfl⟩ := List.getElem_of_mem ho
    exact ⟨_, h.get hi (h.length_eq ▸ hi)⟩
  refine decode_build_eq (fun o ho => ?_) (fun o ho => ?_) (h.length_eq ▸ hcount)
  · exact (hlies o ho).choose_spec.low
  · exact (hlies o ho).choose_spec.le

/-- The block built from a draft is read as the tuples that the draft carries, but for a multiple of
2 ^ 32 of them in front. -/
theorem decode_build_of_carries {d : Draft} {tuples : List Tuple} (h : d.Carries tuples)
    (hroom : d.build.length < Numeral.word) :
    ∃ b, decode d.build = .ok b ∧
      b.Shows d.codec (tuples.drop (tuples.length - tuples.length % 2 ^ 32)) := by
  have hlength : d.offsets.length = tuples.length := h.length
  have hdvd : 2 ^ 32 ∣ tuples.length - tuples.length % 2 ^ 32 := Nat.dvd_sub_mod _
  have hcount : (tuples.drop (tuples.length - tuples.length % 2 ^ 32)).length < 2 ^ 32 := by
    rw [List.length_drop]
    omega
  have hle : tuples.length - tuples.length % 2 ^ 32 ≤ d.offsets.length := by omega
  generalize tuples.length - tuples.length % 2 ^ 32 = shift at hdvd hcount hle ⊢
  have hlie : List.Forall₂ (d.codec.LiesAt (d.shifted shift).data) (d.shifted shift).offsets
      (tuples.drop shift) :=
    List.forall₂_drop shift (h.lie.imp fun _ _ hlies => hlies.append _)
  have hdecode := decode_build_of_lie (d := d.shifted shift) hlie hcount
  have hsize := (d.shifted shift).length_build
  rw [d.build_shifted hle hdvd] at hdecode hsize
  rw [Draft.size] at hsize
  exact ⟨_, hdecode, shows_of_lie hlie (by omega)⟩

end Block

namespace Draft

/-- A draft without tuples turns no tuple away for want of room. It takes in what the codec stores,
unless so much was left behind that no offset leads there. -/
theorem add_of_isEmpty {d : Draft} (h : d.isEmpty = true) (t : Tuple) :
    (d.add t).2 ≠ .ok false ∧
      ((d.add t).2 = .ok true ↔ d.codec.Stores t ∧ d.data.length < 2 ^ 32) := by
  have hadded := d.added_add t
  generalize d.add t = result at hadded ⊢
  obtain ⟨d', answer⟩ := result
  cases hadded with
  | lacking hlacks =>
    refine ⟨by simp, iff_of_false (by simp) fun hboth => ?_⟩
    exact Codec.not_lacks_of_stores hboth.1 hlacks
  | full _ hfull =>
    rw [hfull.1] at h
    contradiction
  | tooLarge _ _ hlarge =>
    exact ⟨by simp, iff_of_false (by simp) fun hboth => Nat.not_lt.2 hlarge hboth.2⟩
  | stored hstores _ hlow => exact ⟨by simp, iff_of_true rfl ⟨hstores, hlow⟩⟩
  | turnedAway _ _ _ _ hwrite =>
    refine ⟨by simp, iff_of_false (by simp) fun hboth => ?_⟩
    exact Codec.not_stores_of_write hwrite hboth.1

/-- A draft of tuples without fields. Only their offsets take room. -/
def vacant (capacity count : Nat) : Draft where
  codec := .plain []
  capacity := capacity
  offsets := List.replicate count 0

theorem add_vacant {capacity count : Nat}
    (h : (count + 1) * Block.numberSize + Block.trailerSize ≤ capacity) :
    (vacant capacity count).add [] = (vacant capacity (count + 1), .ok true) := by
  have himage : (Codec.plain []).image [] = [] := rfl
  have hroom : ¬ (vacant capacity count).Full ((Codec.plain []).image []).length := by
    rw [not_full_iff, himage]
    refine .inr ?_
    simp only [size, vacant, List.length_nil, List.length_replicate, Nat.succ_mul] at h ⊢
    omega
  rw [(Added.stored Codec.stores_nil hroom (Nat.two_pow_pos 32)).eq_add]
  simp only [vacant, himage, List.append_nil, List.length_nil, List.replicate_succ']

theorem addEach_vacant (capacity count more : Nat)
    (h : (count + more) * Block.numberSize + Block.trailerSize ≤ capacity) :
    (vacant capacity count).addEach (List.replicate more []) = vacant capacity (count + more) ∧
      (vacant capacity count).taken (List.replicate more []) = List.replicate more [] := by
  induction more generalizing count with
  | zero => exact ⟨rfl, rfl⟩
  | succ more ih =>
    have hadd := @add_vacant capacity count (by
      simp only [Block.numberSize, Block.trailerSize] at h ⊢
      omega)
    obtain ⟨heach, htaken⟩ := ih (count + 1) (by rwa [Nat.add_assoc, Nat.add_comm 1])
    simp only [List.replicate_succ, addEach, taken, hadd, heach, htaken]
    exact ⟨by rw [Nat.add_assoc, Nat.add_comm 1], rfl⟩

/-- Of 2 ^ 32 tuples, or a multiple of that, the block is read as one of none. -/
theorem decode_vacant {capacity count : Nat} (hdvd : 2 ^ 32 ∣ count)
    (hroom : count * Block.numberSize + Block.trailerSize ≤ capacity)
    (hcapacity : capacity < Bytes.limit) :
    ∃ b, Block.decode (vacant capacity count).build = .ok b ∧ b.offsets = [] := by
  have hstart : start (.plain []) capacity = .ok (vacant capacity 0) := if_pos hcapacity
  obtain ⟨-, -, hnil⟩ := carries_start hstart
  obtain ⟨heach, htaken⟩ := addEach_vacant capacity 0 count (by rwa [Nat.zero_add])
  obtain ⟨-, -, hcarries⟩ := @carries_addEach _ _ (List.replicate count []) hnil (by
    intro t ht
    rw [List.eq_of_mem_replicate ht]
    rfl)
  rw [heach, htaken, Nat.zero_add, List.nil_append] at hcarries
  have hlength : (vacant capacity count).build.length < Numeral.word := by
    rw [length_build, size, vacant, List.length_replicate, List.length_nil]
    simp only [Bytes.limit, Numeral.word] at hcapacity ⊢
    omega
  obtain ⟨b, hdecode, hshows⟩ := Block.decode_build_of_carries hcarries hlength
  refine ⟨b, hdecode, ?_⟩
  have hnone := hshows.length
  rw [List.length_drop, List.length_replicate, Nat.mod_eq_zero_of_dvd hdvd] at hnone
  rwa [Nat.sub_zero, Nat.sub_self, List.length_eq_zero_iff] at hnone

/-- Tuples are added to an empty draft, whatever the answers are. The block has the size the draft
tells, keeps to the capacity where it has several tuples, and is read as the tuples taken in, or as
the last of 2 ^ 32 and more. -/
theorem block_of_addEach {codec : Codec} {capacity : Nat} {d : Draft} {tuples : List Tuple}
    (hstart : start codec capacity = .ok d)
    (hfields : ∀ t ∈ tuples, t.length = codec.kinds.length)
    (hroom : (d.addEach tuples).build.length < Numeral.word) :
    let packed := d.addEach tuples
    let taken := d.taken tuples
    packed.build.length = packed.size ∧
    packed.length = taken.length ∧
    (2 ≤ taken.length → packed.build.length ≤ capacity) ∧
    (∃ b, Block.decode packed.build = .ok b ∧
      (taken.length < 2 ^ 32 → b.Shows codec taken) ∧
      (2 ^ 32 ≤ taken.length → 2 ^ 34 < capacity ∧
        b.Shows codec (taken.drop (taken.length - taken.length % 2 ^ 32)))) ∧
    (packed.isEmpty = true → ∀ t, (packed.add t).2 ≠ .ok false ∧
      ((packed.add t).2 = .ok true ↔ codec.Stores t ∧ packed.data.length < 2 ^ 32)) := by
  intro packed taken
  obtain ⟨rfl, rfl, hnil⟩ := carries_start hstart
  obtain ⟨hcodec, hcapacity, hcarries⟩ := carries_addEach hnil hfields
  rw [List.nil_append] at hcarries
  have hsize := packed.length_build
  have hlength : packed.length = taken.length := hcarries.length
  have hwithin : 2 ≤ taken.length → packed.build.length ≤ d.capacity := by
    intro htwo
    rw [hsize, ← hcapacity]
    exact hcarries.packed.resolve_left (by rw [hcarries.length]; exact Nat.not_le.2 htwo)
  obtain ⟨b, hdecode, hshows⟩ := Block.decode_build_of_carries hcarries hroom
  rw [hcodec] at hshows
  refine ⟨hsize, hlength, hwithin, ⟨b, hdecode, fun hfew => ?_, fun hmany => ⟨?_, hshows⟩⟩, ?_⟩
  · rwa [Nat.mod_eq_of_lt hfew, Nat.sub_self, List.drop_zero] at hshows
  · have hle := hwithin (by omega)
    rw [hsize, size] at hle
    rw [length] at hlength
    simp only [Block.numberSize, Block.trailerSize] at hle
    omega
  · intro hempty t
    rw [← hcodec]
    exact add_of_isEmpty hempty t

/-- A tuple is taken in, one is rejected and leaves five zeros behind, one is taken in behind them,
and the last finds no room. The block is read as the two. -/
theorem block_around_rejected_tuple :
    let codec : Codec := .plain [.fixed 1, .varying]
    let tuples : List Tuple := [[[97], [98]], [[97, 97], [98]], [[99], [100]], [[101], [102]]]
    ∃ d b, start codec 32 = .ok d ∧ d.taken tuples = [[[97], [98]], [[99], [100]]] ∧
      (d.addEach tuples).build.length ≤ 32 ∧ Block.decode (d.addEach tuples).build = .ok b ∧
      b.Shows codec [[[97], [98]], [[99], [100]]] := by
  intro codec tuples
  have hstart : start codec 32 = .ok { codec, capacity := 32 } := rfl
  have htaken : ({ codec, capacity := 32 } : Draft).taken tuples =
      [[[97], [98]], [[99], [100]]] := by decide +kernel
  have hroom : (({ codec, capacity := 32 } : Draft).addEach tuples).build.length <
      Numeral.word := by
    rw [length_build]
    decide +kernel
  obtain ⟨-, -, hwithin, ⟨b, hdecode, hshows, -⟩, -⟩ :=
    block_of_addEach hstart (by decide) hroom
  rw [htaken] at hwithin hshows
  exact ⟨_, b, hstart, htaken, hwithin (by decide), hdecode, hshows (by decide)⟩

/-- No room is set aside for a capacity of 2 ^ 63. Of 2 ^ 32 tuples without fields each is taken in,
and the block is read as one of no tuples. -/
theorem block_beyond_widths :
    let codec : Codec := .plain []
    let tuples : List Tuple := List.replicate (2 ^ 32) []
    start codec (2 ^ 63) = .error .breach ∧
    ∃ d, start codec (2 ^ 35) = .ok d ∧ d.taken tuples = tuples ∧
      ∃ b, Block.decode (d.addEach tuples).build = .ok b ∧ b.offsets = [] := by
  have hbound : 2 ^ 32 * Block.numberSize + Block.trailerSize ≤ 2 ^ 35 := by decide
  have hstart : start (.plain []) (2 ^ 35) = .ok (vacant (2 ^ 35) 0) := if_pos (by decide)
  have hbreach : start (.plain []) (2 ^ 63) = .error .breach := if_neg (by decide)
  obtain ⟨heach, htaken⟩ := addEach_vacant (2 ^ 35) 0 (2 ^ 32) (by rwa [Nat.zero_add])
  have hnone := decode_vacant (Nat.dvd_refl _) hbound (by decide)
  rw [Nat.zero_add] at heach
  rw [← heach] at hnone
  exact ⟨hbreach, _, hstart, htaken, hnone⟩

end Draft

end Strata
