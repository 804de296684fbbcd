import Strata.Proofs.Component.Packing

/-!
# What a failed add leaves of a draft

Room for a tuple is set aside before the codec looks at it. Where the codec then rejects the tuple,
the bytes stay behind as zeros: no fewer tuples are in the draft than before, but it is larger. So a
later tuple may find no room any more, or begin where no offset leads; and where no later tuple is
answered differently, the block that is built is still longer than it would have been. Only a tuple
that is refused because it would itself begin too far back leaves the draft as it was.
-/

namespace Strata

namespace Codec

/-- Room is set aside for every tuple that is turned away. -/
theorem required_pos_of_not_stores {codec : Codec} {t : Tuple} {needed : Nat}
    (hneeded : codec.required t = .ok needed) (hstores : ¬ codec.Stores t) : 0 < needed := by
  cases codec with
  | plain kinds =>
    obtain rfl := Except.ok.inj hneeded
    have hlength : 0 < t.length := by
      rw [List.length_pos_iff]
      rintro rfl
      have hwrite : ((plain kinds).write [] [] 0).2 = .ok 0 := by
        simp [Codec.write, Plain.write, Plain.writeFields, Plain.check, Plain.checkRange,
          Plain.encode, Plain.stretch, Stored.checkLengths, Stored.encode, Stored.slots,
          Stored.bitmapSize, Stored.put, bind, Except.bind]
      exact hstores (stores_of_write hwrite)
    rw [Plain.required, Stored.length_encode, Stored.bitmapSize]
    omega
  | pointBox box =>
    have hpos := box.dimensions_pos
    rw [required, PointBox.required] at hneeded
    split at hneeded
    · rename_i hlength
      obtain rfl := Except.ok.inj hneeded
      rw [PointBox.encode, Stored.length_encode, hlength, Stored.bitmapSize]
      omega
    · contradiction

end Codec

namespace Draft

variable {d d' : Draft} {left : Nat} {t u : Tuple} {us : List Tuple}

/-- The answers when some tuples are added one by one. -/
def answers : Draft → List Tuple → List (Outcome Bool)
  | _, [] => []
  | d, t :: rest => (d.add t).2 :: (d.add t).1.answers rest

/-- A draft with as many tuples as another, and more bytes between them. -/
structure Padded (left : Nat) (d d' : Draft) : Prop where
  codec : d'.codec = d.codec
  capacity : d'.capacity = d.capacity
  data : d'.data.length = d.data.length + left
  offsets : d'.offsets.length = d.offsets.length

/-- Whether a tuple is answered otherwise on top of bytes left behind: without them it finds room,
and with them it does not, or only with them it begins where no offset leads. -/
def Decides (d : Draft) (left : Nat) (t : Tuple) : Prop :=
  ∃ needed, d.codec.required t = .ok needed ∧ ¬ d.Full needed ∧
    (d.Full (left + needed) ∨ d.data.length < 2 ^ 32 ∧ 2 ^ 32 ≤ d.data.length + left)

theorem Padded.isEmpty (h : Padded left d d') : d'.isEmpty = d.isEmpty := by
  have hlength := h.offsets
  rw [Bool.eq_iff_iff, isEmpty_iff_length, isEmpty_iff_length, length, length, hlength]

theorem Padded.size (h : Padded left d d') : d'.size = d.size + left := by
  rw [Draft.size, Draft.size, h.data, h.offsets]
  omega

/-- There is no room behind the bytes left just where there is none for these bytes and the tuple.
-/
theorem Padded.full_iff (h : Padded left d d') {needed : Nat} :
    d'.Full needed ↔ d.Full (left + needed) := by
  rw [Full, Full, h.isEmpty, h.size, h.capacity, Nat.add_assoc d.size]

theorem Padded.length_build (h : Padded left d d') :
    d'.build.length = d.build.length + left := by
  rw [Draft.length_build, Draft.length_build, h.size]

theorem Full.mono {needed more : Nat} (h : d.Full needed) (hle : needed ≤ more) : d.Full more :=
  ⟨h.1, by have := h.2; omega⟩

/-- A tuple that finds room is not turned away for want of it, and where it begins low it is not
refused for beginning too far back either. -/
theorem answer_of_room {needed : Nat} (hneeded : d.codec.required u = .ok needed)
    (hroom : ¬ d.Full needed) :
    (d.add u).2 ≠ .ok false ∧
      (d.data.length < 2 ^ 32 → (d.add u).2 ≠ .error (.error (.damage .blockTooLarge))) := by
  have hadded := d.added_add u
  generalize d.add u = result at hadded ⊢
  obtain ⟨d', answer⟩ := result
  cases hadded with
  | lacking hlacks => exact ⟨by simp, by simp⟩
  | full hneeded' hfull =>
    obtain rfl := Except.ok.inj (hneeded.symm.trans hneeded')
    exact absurd hfull hroom
  | tooLarge _ _ hlarge => exact ⟨by simp, fun hlow => absurd hlarge (Nat.not_le.2 hlow)⟩
  | stored => exact ⟨by simp, by simp⟩
  | turnedAway _ _ _ haway =>
    refine ⟨by simp, fun _ hsame => ?_⟩
    obtain rfl := Failure.error.inj (Except.error.inj hsame)
    cases haway

/-- A tuple that the bytes left behind do not decide about finds room behind them too. -/
theorem Padded.room_of_not_decides (h : Padded left d d') {needed : Nat}
    (hneeded : d.codec.required u = .ok needed) (hroom : ¬ d.Full needed)
    (hnot : ¬ d.Decides left u) :
    ¬ d'.Full needed ∧ (d.data.length < 2 ^ 32 → d'.data.length < 2 ^ 32) := by
  refine ⟨fun hfull => hnot ⟨needed, hneeded, hroom, .inl (h.full_iff.1 hfull)⟩, fun hlow => ?_⟩
  by_contra hlarge
  rw [h.data, Nat.not_lt] at hlarge
  exact hnot ⟨needed, hneeded, hroom, .inr ⟨hlow, hlarge⟩⟩

/-- What happens to such a tuple happens alike on top of the bytes left behind, and leaves as many
more bytes as before. -/
theorem Added.padded {d₁ : Draft} {answer : Outcome Bool} (hadded : d.Added u d₁ answer)
    (h : Padded left d d') (hnot : ¬ d.Decides left u) :
    ∃ d₁', d'.Added u d₁' answer ∧ Padded left d₁ d₁' := by
  cases hadded with
  | lacking hlacks => exact ⟨d', .lacking (h.codec ▸ hlacks), h⟩
  | full hneeded hfull =>
    have hfull' := h.full_iff.2 (hfull.mono (Nat.le_add_left _ _))
    exact ⟨d', .full (h.codec ▸ hneeded) hfull', h⟩
  | tooLarge hneeded hroom hlarge =>
    have hroom' := (h.room_of_not_decides hneeded hroom hnot).1
    exact ⟨d', .tooLarge (h.codec ▸ hneeded) hroom' (by rw [h.data]; omega), h⟩
  | stored hstores hroom hlow =>
    obtain ⟨hroom', hlow'⟩ := h.room_of_not_decides hstores.required hroom hnot
    have hadded' : d'.Added u _ (.ok true) :=
      .stored (h.codec ▸ hstores) (h.codec ▸ hroom') (hlow' hlow)
    refine ⟨_, hadded', h.codec, h.capacity, ?_, ?_⟩
    · simp only [List.length_append, h.data, h.codec]
      omega
    · simp only [List.length_append, List.length_singleton, h.offsets]
  | turnedAway hneeded hroom hlow haway hwrite =>
    obtain ⟨hroom', hlow'⟩ := h.room_of_not_decides hneeded hroom hnot
    refine ⟨_, .turnedAway (h.codec ▸ hneeded) hroom' (hlow' hlow) haway (h.codec ▸ hwrite),
      h.codec, h.capacity, ?_, h.offsets⟩
    simp only [List.length_append, Bytes.length_zeros, h.data]
    omega

/-- A tuple that the bytes left behind decide about is answered otherwise. -/
theorem Padded.answer_of_decides (h : Padded left d d') (hdecides : d.Decides left u) :
    (d'.add u).2 ≠ (d.add u).2 := by
  obtain ⟨needed, hneeded, hroom, hleft⟩ := hdecides
  have hneeded' : d'.codec.required u = .ok needed := h.codec ▸ hneeded
  obtain ⟨hnotFalse, hnotLarge⟩ := answer_of_room hneeded hroom
  by_cases hfull : d'.Full needed
  · rw [(Added.full hneeded' hfull).eq_add]
    exact hnotFalse.symm
  · obtain ⟨hlow, hlarge⟩ := hleft.resolve_left (mt h.full_iff.2 hfull)
    rw [(Added.tooLarge hneeded' hfull (h.data ▸ hlarge)).eq_add]
    exact (hnotLarge hlow).symm

/-- Later tuples are answered alike as long as the bytes left behind decide about none of them, and
up to there they are the only difference. -/
theorem Padded.answers_eq_iff (h : Padded left d d') (us : List Tuple) :
    (d'.answers us = d.answers us ↔
        ∀ front u rest, us = front ++ u :: rest → ¬ (d.addEach front).Decides left u) ∧
      (d'.answers us = d.answers us → Padded left (d.addEach us) (d'.addEach us)) := by
  induction us generalizing d d' with
  | nil => exact ⟨by simp [answers], fun _ => h⟩
  | cons u rest ih =>
    by_cases hdecides : d.Decides left u
    · have hne : d'.answers (u :: rest) ≠ d.answers (u :: rest) :=
        fun hsame => h.answer_of_decides hdecides (List.cons.inj hsame).1
      exact ⟨iff_of_false hne fun hnone => hnone [] u rest rfl hdecides,
        fun hsame => absurd hsame hne⟩
    · obtain ⟨d₁', hadded', hpadded⟩ := (d.added_add u).padded h hdecides
      have hadd' := hadded'.eq_add
      obtain ⟨hiff, hlast⟩ := ih (hadd' ▸ hpadded : Padded left (d.add u).1 (d'.add u).1)
      have hcons : d'.answers (u :: rest) = d.answers (u :: rest) ↔
          (d'.add u).1.answers rest = (d.add u).1.answers rest := by
        rw [answers, answers, hadd', List.cons.injEq, and_iff_right rfl]
      rw [hcons]
      refine ⟨hiff.trans ⟨fun hnone front v others hsplit => ?_,
        fun hnone front v others hsplit => ?_⟩, hlast⟩
      · rcases List.cons_eq_append_iff.1 hsplit with ⟨rfl, hv⟩ | ⟨front', rfl, hrest⟩
        · obtain ⟨rfl, -⟩ := List.cons.inj hv
          exact hdecides
        · exact hnone front' v others hrest
      · exact hnone (u :: front) v others (congrArg (u :: ·) hsplit)

theorem padded_zeros (d : Draft) (left : Nat) :
    Padded left d { d with data := d.data ++ Bytes.zeros left } where
  codec := rfl
  capacity := rfl
  data := by rw [List.length_append, Bytes.length_zeros]
  offsets := rfl

/-- A failed add leaves the tuples of a draft as they are, and behind them as many zeros as the
codec asked for. Size and block are as before just where there are none, and later tuples are
answered alike just where the zeros decide about none of them. -/
theorem left_by_failed_add {e : Error} (h : d.add t = (d', .error (.error e))) :
    d'.length = d.length ∧ d'.isEmpty = d.isEmpty ∧
    ∃ left, d' = { d with data := d.data ++ Bytes.zeros left } ∧
      (left = 0 ↔ e = .damage .blockTooLarge) ∧
      (left ≠ 0 → e.TurnsAway ∧ d.codec.required t = .ok left) ∧
      d'.size = d.size + left ∧ (d'.build = d.build ↔ left = 0) ∧
      ∀ us, (d'.answers us = d.answers us ↔
          ∀ front u rest, us = front ++ u :: rest → ¬ (d.addEach front).Decides left u) ∧
        (d'.answers us = d.answers us →
          (d'.addEach us).build.length = (d.addEach us).build.length + left) := by
  have hleft : ∃ left, d' = { d with data := d.data ++ Bytes.zeros left } ∧
      (left = 0 ↔ e = .damage .blockTooLarge) ∧
      (left ≠ 0 → e.TurnsAway ∧ d.codec.required t = .ok left) := by
    have hadded := d.added_add t
    rw [h] at hadded
    cases hadded with
    | tooLarge =>
      refine ⟨0, ?_, iff_of_true rfl rfl, fun hne => absurd rfl hne⟩
      rw [Bytes.zeros, List.replicate_zero, List.append_nil]
    | turnedAway hneeded _ _ haway hwrite =>
      have hpos := Codec.required_pos_of_not_stores hneeded (Codec.not_stores_of_write hwrite)
      refine ⟨_, rfl, iff_of_false (Nat.pos_iff_ne_zero.1 hpos) ?_, fun _ => ⟨haway, hneeded⟩⟩
      rintro rfl
      cases haway
  obtain ⟨left, rfl, hzero, haway⟩ := hleft
  have hpadded := d.padded_zeros left
  refine ⟨rfl, rfl, left, rfl, hzero, haway, hpadded.size, ⟨fun hsame => ?_, ?_⟩, fun us => ?_⟩
  · have hlength := hpadded.length_build
    rw [hsame] at hlength
    omega
  · rintro rfl
    rw [Bytes.zeros, List.replicate_zero, List.append_nil]
  · obtain ⟨hiff, hlast⟩ := hpadded.answers_eq_iff us
    exact ⟨hiff, fun hsame => (hlast hsame).length_build⟩

/-- Behind one tuple there is room for just one more of its size. A tuple that is rejected takes
this room, and the block is another. -/
theorem room_taken_by_rejected_tuple :
    let codec : Codec := .plain [.fixed 1, .varying]
    ∃ d d' e, start codec 28 = .ok d ∧
      (d.addEach [[[97], [98]]]).add [[97, 97], [98]] = (d', .error (.error e)) ∧
      d'.length = (d.addEach [[[97], [98]]]).length ∧
      d'.build ≠ (d.addEach [[[97], [98]]]).build ∧
      (d.addEach [[[97], [98]]]).answers [[[99], [100]]] = [.ok true] ∧
      d'.answers [[[99], [100]]] = [.ok false] := by
  intro codec
  have hstart : start codec 28 = .ok { codec, capacity := 28 } := rfl
  have hadd : (({ codec, capacity := 28 } : Draft).addEach [[[97], [98]]]).add [[97, 97], [98]] =
      (_, .error (.error (.fieldLength 0 1 2))) := Prod.ext rfl (by decide +kernel)
  obtain ⟨hlength, -, left, -, hzero, -, -, hbuild, -⟩ := left_by_failed_add hadd
  refine ⟨_, _, _, hstart, hadd, hlength, ?_, by decide +kernel, by decide +kernel⟩
  rw [Ne, hbuild, hzero]
  decide

end Draft

end Strata
