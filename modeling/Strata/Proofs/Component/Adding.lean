import Strata.Component.Writer
import Strata.Proofs.Codec.Storing

/-!
# What adding a tuple does

A draft takes a tuple in, finds no room for it behind others, refuses it because it would begin
where no offset leads, or gives on the error of the codec that turns it away, and then the bytes set
aside for it stay behind. A tuple that lacks a field breaks a precondition. Everything that is said
of drafts and writers follows from these cases.
-/

namespace Strata

namespace Draft

/-- No room is found for so many bytes behind the tuples that are there. -/
def Full (d : Draft) (needed : Nat) : Prop :=
  d.isEmpty = false ∧ d.capacity < d.size + needed + Block.numberSize

/-- What adding a tuple does to a draft. -/
inductive Added (d : Draft) (t : Tuple) : Draft → Outcome Bool → Prop
  | lacking (hlacks : d.codec.Lacks t) : Added d t d (.error .breach)
  | full {needed : Nat} (hneeded : d.codec.required t = .ok needed) (hfull : d.Full needed) :
      Added d t d (.ok false)
  | tooLarge {needed : Nat} (hneeded : d.codec.required t = .ok needed)
      (hroom : ¬ d.Full needed) (hlarge : 2 ^ 32 ≤ d.data.length) :
      Added d t d (.error (.error (.damage .blockTooLarge)))
  | stored (hstores : d.codec.Stores t) (hroom : ¬ d.Full (d.codec.image t).length)
      (hlow : d.data.length < 2 ^ 32) :
      Added d t { d with
        data := d.data ++ d.codec.image t
        offsets := d.offsets ++ [d.data.length] } (.ok true)
  | turnedAway {needed : Nat} {e : Error} (hneeded : d.codec.required t = .ok needed)
      (hroom : ¬ d.Full needed) (hlow : d.data.length < 2 ^ 32) (haway : e.TurnsAway)
      (hwrite : ∀ buf offset, d.codec.write t buf offset = (buf, .error (.error e))) :
      Added d t { d with data := d.data ++ Bytes.zeros needed } (.error (.error e))

theorem full_iff {d : Draft} {needed : Nat} :
    (!d.isEmpty && d.capacity < d.size + needed + Block.numberSize) = true ↔ d.Full needed := by
  simp [Full]

theorem added_add (d : Draft) (t : Tuple) : d.Added t (d.add t).1 (d.add t).2 := by
  rcases d.codec.required_cases t with ⟨hlacks, hbreach⟩ | ⟨-, needed, hneeded⟩
  · rw [add, hbreach]
    exact .lacking hlacks
  · simp only [add, hneeded]
    split
    · exact .full hneeded (full_iff.1 ‹_›)
    · rename_i hroom
      rw [full_iff] at hroom
      split
      · exact .tooLarge hneeded hroom ‹_›
      · rename_i hlow
        rcases d.codec.stores_or_turnsAway t with hstores | ⟨e, haway, hwrite⟩
        · rw [hstores.required] at hneeded
          obtain rfl := Except.ok.inj hneeded
          rw [Codec.write_append_of_stores hstores]
          dsimp only
          rw [← List.length_append, List.take_length]
          exact .stored hstores hroom (Nat.not_le.1 hlow)
        · rw [hwrite]
          exact .turnedAway hneeded hroom (Nat.not_le.1 hlow) haway hwrite

/-- Nothing else happens than what the draft and the tuple determine. -/
theorem Added.eq_add {d d' : Draft} {t : Tuple} {answer : Outcome Bool}
    (h : d.Added t d' answer) : d.add t = (d', answer) := by
  cases h with
  | lacking hlacks =>
    rcases d.codec.required_cases t with ⟨-, hbreach⟩ | ⟨hnot, -⟩
    · rw [add, hbreach]
    · exact absurd hlacks hnot
  | full hneeded hfull =>
    simp only [add, hneeded]
    rw [if_pos (full_iff.2 hfull)]
  | tooLarge hneeded hroom hlarge =>
    simp only [add, hneeded]
    rw [if_neg (mt full_iff.1 hroom), if_pos hlarge]
  | stored hstores hroom hlow =>
    simp only [add, hstores.required]
    rw [if_neg (mt full_iff.1 hroom), if_neg (Nat.not_le.2 hlow),
      Codec.write_append_of_stores hstores]
    dsimp only
    rw [← List.length_append, List.take_length]
  | turnedAway hneeded hroom hlow _ hwrite =>
    simp only [add, hneeded, hwrite]
    rw [if_neg (mt full_iff.1 hroom), if_neg (Nat.not_le.2 hlow)]

theorem added_of_add {d d' : Draft} {t : Tuple} {answer : Outcome Bool}
    (h : d.add t = (d', answer)) : d.Added t d' answer := by
  have hadded := d.added_add t
  rwa [h] at hadded

theorem Added.codec {d d' : Draft} {t : Tuple} {answer : Outcome Bool}
    (h : d.Added t d' answer) : d'.codec = d.codec := by
  cases h <;> rfl

theorem Added.capacity {d d' : Draft} {t : Tuple} {answer : Outcome Bool}
    (h : d.Added t d' answer) : d'.capacity = d.capacity := by
  cases h <;> rfl

theorem isEmpty_iff_length {d : Draft} : d.isEmpty = true ↔ d.length = 0 := by
  rw [isEmpty, length, List.isEmpty_iff, List.length_eq_zero_iff]

/-- Behind tuples that are there, what is not too much stays within the capacity. -/
theorem not_full_iff {d : Draft} {needed : Nat} : ¬ d.Full needed ↔
    d.isEmpty = true ∨ d.size + needed + Block.numberSize ≤ d.capacity := by
  rw [Full, not_and_or, Bool.not_eq_false, Nat.not_lt]

/-- A draft of several tuples keeps to its capacity. -/
def Packed (d : Draft) : Prop := d.length ≤ 1 ∨ d.size ≤ d.capacity

theorem packed_nil (codec : Codec) (capacity : Nat) : Packed { codec, capacity } :=
  .inl (Nat.zero_le _)

/-- What finds room keeps a draft of several tuples within its capacity, and so does what is left of
a tuple that is turned away. -/
theorem Added.packed {d d' : Draft} {t : Tuple} {answer : Outcome Bool}
    (h : d.Added t d' answer) (hpacked : d.Packed) : d'.Packed := by
  cases h with
  | lacking | full | tooLarge => exact hpacked
  | stored _ hroom =>
    rw [not_full_iff, isEmpty_iff_length, length] at hroom
    simp only [Packed, length, size, List.length_append, List.length_singleton,
      Nat.succ_mul] at hroom ⊢
    omega
  | turnedAway _ hroom =>
    rw [not_full_iff, isEmpty_iff_length, length] at hroom
    simp only [Packed, length, size, List.length_append, Bytes.length_zeros] at hroom ⊢
    omega

/-- A draft breaks a precondition just over a tuple that lacks a field. -/
theorem add_eq_breach_iff {d : Draft} {tuple : Tuple} :
    (d.add tuple).2 = .error .breach ↔ d.codec.Lacks tuple := by
  constructor
  · intro hbreach
    have hadded := d.added_add tuple
    rw [hbreach] at hadded
    generalize (d.add tuple).1 = d' at hadded
    cases hadded with
    | lacking hlacks => exact hlacks
  · intro hlacks
    rw [(Added.lacking hlacks).eq_add]

/-- A tuple that finds no room changes nothing, and there is another one before it. -/
theorem add_eq_false {d d' : Draft} {t : Tuple} (hadd : d.add t = (d', .ok false)) :
    d' = d ∧ d.isEmpty = false := by
  cases added_of_add hadd with
  | full _ hfull => exact ⟨rfl, hfull.1⟩

/-- The first tuple of a draft always finds room. -/
theorem added_of_isEmpty {d d' : Draft} {t : Tuple} {added : Bool} (h : d.isEmpty = true)
    (hadd : d.add t = (d', .ok added)) : added = true := by
  cases added_of_add hadd with
  | full _ hfull =>
    rw [hfull.1] at h
    contradiction
  | stored => rfl

end Draft

namespace Writer

theorem start_of_lt {format : Format} (h : format.blockSize < Bytes.limit) : start format =
    .ok { format, draft := { codec := format.codec, capacity := format.blockSize } } := by
  rw [start, Draft.start, if_pos h]
  rfl

theorem start_of_le {format : Format} (h : Bytes.limit ≤ format.blockSize) :
    start format = .error .breach := by
  rw [start, Draft.start, if_neg (Nat.not_lt.2 h)]
  rfl

/-- A writer starts without a tuple, or not at all. -/
theorem eq_of_start {format : Format} {w : Writer} (h : start format = .ok w) :
    w = { format, draft := { codec := format.codec, capacity := format.blockSize } } := by
  obtain ⟨draft, hdraft, hw⟩ := Outcome.bind_eq_ok_iff.1 h
  obtain rfl := Except.ok.inj hw
  simp only [Draft.start] at hdraft
  split at hdraft
  · rw [← Except.ok.inj hdraft]
  · contradiction

/-- A tuple that a writer takes in has a key that is not below the last one. It goes into the draft,
or into a new one behind it. -/
theorem add_eq_ok {w w' : Writer} {t : Tuple} (hadd : w.add t = (w', .ok ())) :
    (compare w.lastKey (w.format.keyOf t)).isLE ∧
      ∃ v d, (v = w ∨ v = w.closeBlock) ∧ v.draft.add t = (d, .ok true) ∧ w' = { v with
        draft := d
        keys := v.keys ++ [v.format.fingerprint (w.format.keyOf t)]
        tuples := v.tuples + 1
        lastKey := w.format.keyOf t } := by
  simp only [add] at hadd
  split at hadd
  · simp at hadd
  · rename_i hbelow
    have hkey : (compare w.lastKey (w.format.keyOf t)).isLE := by
      rw [← Bool.not_eq_false, Ordering.isLE_eq_false, Std.OrientedCmp.gt_iff_lt]
      exact hbelow
    refine ⟨hkey, ?_⟩
    split at hadd
    · simp at hadd
    · rename_i placed hplace
      obtain ⟨rfl, -⟩ := Prod.mk.inj hadd
      simp only [place] at hplace
      split at hplace
      · simp at hplace
      · rename_i d hfirst
        obtain ⟨rfl, -⟩ := Prod.mk.inj hplace
        exact ⟨w, d, .inl rfl, hfirst, rfl⟩
      · rename_i d hfirst
        obtain ⟨rfl, hempty⟩ := Draft.add_eq_false hfirst
        obtain ⟨rfl, hanswer⟩ := Prod.mk.inj hplace
        cases hagain : w.closeBlock.draft.add t with
        | mk d answer =>
          rw [hagain] at hanswer
          cases answer with
          | error e => simp [Except.map] at hanswer
          | ok added =>
            have hfresh : w.closeBlock.draft.isEmpty = true := by
              rw [closeBlock, hempty]
              rfl
            obtain rfl := Draft.added_of_isEmpty hfresh hagain
            exact ⟨w.closeBlock, d, .inr rfl, hagain, rfl⟩

/-- What goes into the draft is added, where its key is not below the last one. -/
theorem add_eq_of_draft {w : Writer} {t : Tuple} {d : Draft}
    (hkey : compare (w.format.keyOf t) w.lastKey ≠ .lt) (hadd : w.draft.add t = (d, .ok true)) :
    w.add t = ({ w with
      draft := d
      keys := w.keys ++ [w.format.fingerprint (w.format.keyOf t)]
      tuples := w.tuples + 1
      lastKey := w.format.keyOf t }, .ok ()) := by
  have hplace : w.place t = ({ w with draft := d }, .ok ()) := by simp only [place, hadd]
  simp only [add, if_neg hkey, hplace]

theorem addAll_cons {w v : Writer} {t : Tuple} (hadd : w.add t = (v, .ok ())) (rest : List Tuple) :
    w.addAll (t :: rest) = v.addAll rest := by
  rw [addAll, hadd]

end Writer

end Strata
