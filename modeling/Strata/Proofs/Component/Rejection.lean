import Strata.Proofs.Component.Locality
import Strata.Proofs.Component.RoundTrip

/-!
# Files are written without a broken precondition

A draft breaks a precondition over a tuple that lacks a field, and a writer over a key below the
last one. A file of tuples that the codec stores, in the order of their keys, is written without
breaking one, unless the room set aside for a block is too large.
-/

namespace Strata

namespace Writer

variable {w w' : Writer} {t : Tuple}

theorem codec_closeBlock (h : w.draft.codec = w.format.codec) :
    w.closeBlock.draft.codec = w.format.codec := by
  rw [closeBlock]
  split
  · exact h
  · rfl

/-- A tuple that is taken in leaves its key behind, in a writer of the same format. -/
theorem after_add (hcodec : w.draft.codec = w.format.codec) (hadd : w.add t = (w', .ok ())) :
    w'.format = w.format ∧ w'.draft.codec = w'.format.codec ∧ w'.lastKey = w.format.keyOf t := by
  obtain ⟨-, v, d, hv, hdraft, rfl⟩ := add_eq_ok hadd
  have hd := (Draft.added_of_add hdraft).codec
  rcases hv with rfl | rfl
  · exact ⟨rfl, hd.trans hcodec, rfl⟩
  · refine ⟨w.format_closeBlock, ?_, rfl⟩
    dsimp only
    rw [hd, codec_closeBlock hcodec, w.format_closeBlock]

/-- A tuple that the codec stores breaks no precondition where its key is not below the last. -/
theorem add_ne_breach (hcodec : w.draft.codec = w.format.codec) (ht : w.format.codec.Stores t)
    (hkey : (compare w.lastKey (w.format.keyOf t)).isLE) : (w.add t).2 ≠ .error .breach := by
  have hbelow : ¬ compare (w.format.keyOf t) w.lastKey = .lt := fun hlt =>
    Std.OrientedCmp.not_isLE_of_lt hlt hkey
  have hdraft : ∀ d : Draft, d.codec = w.format.codec → (d.add t).2 ≠ .error .breach := by
    intro d hd hbreach
    rw [Draft.add_eq_breach_iff, hd] at hbreach
    exact Codec.not_lacks_of_stores ht hbreach
  have hplace : (w.place t).2 ≠ .error .breach := by
    have hfirst := hdraft _ hcodec
    have hagain := hdraft _ (codec_closeBlock hcodec)
    rw [place]
    split
    · rename_i d e hadd
      simpa [hadd] using hfirst
    · simp
    · rename_i d hadd
      obtain ⟨rfl, -⟩ := Draft.add_eq_false hadd
      dsimp only
      cases hanswer : (w.closeBlock.draft.add t).2 with
      | error e => simpa [hanswer, Except.map] using hagain
      | ok added => simp [Except.map]
  rw [add, if_neg hbelow]
  split
  · rename_i w' e hadd
    simpa [hadd] using hplace
  · simp

/-- Nor do tuples whose keys do not descend. -/
theorem addAll_ne_breach {tuples : List Tuple} (hcodec : w.draft.codec = w.format.codec)
    (hstores : ∀ t ∈ tuples, w.format.codec.Stores t)
    (hord : Tuple.Ordered w.format.keyFields tuples)
    (hlast : ∀ t ∈ tuples, (compare w.lastKey (w.format.keyOf t)).isLE) :
    (w.addAll tuples).2 ≠ .error .breach := by
  induction tuples generalizing w with
  | nil => simp [addAll]
  | cons t rest ih =>
    rw [List.forall_mem_cons] at hstores hlast
    obtain ⟨hfirst, hrest⟩ := List.pairwise_cons.1 hord
    have hadd := add_ne_breach hcodec hstores.1 hlast.1
    rw [addAll]
    split
    · rename_i w' e heq
      simpa [heq] using hadd
    · rename_i w' heq
      obtain ⟨hformat, hcodec', hkey⟩ := after_add hcodec heq
      refine ih hcodec' ?_ ?_ ?_
      · rw [hformat]
        exact hstores.2
      · rw [hformat]
        exact hrest
      · rw [hkey, hformat]
        exact hfirst

end Writer

namespace Directory

/-- A file of tuples that the codec stores, by ascending key, is written without breaking a
precondition just where room for a block can be set aside. -/
theorem build_eq_breach_iff (d : Directory) {format : Format} (serial : Nat) (range : Range)
    {tuples : List Tuple} (hrate : Bloom.validRate format.rate = true)
    (hstores : ∀ t ∈ tuples, format.codec.Stores t)
    (hord : Tuple.Ordered format.keyFields tuples) :
    (d.build format serial range tuples).2 = .error .breach ↔ Bytes.limit ≤ format.blockSize := by
  by_cases hroom : format.blockSize < Bytes.limit
  · refine iff_of_false ?_ (Nat.not_le.2 hroom)
    obtain ⟨w, hstart⟩ : ∃ w, Writer.start format = .ok w := by
      simp only [Writer.start, Draft.start, hroom, if_true]
      exact ⟨_, rfl⟩
    obtain ⟨rfl, hlaid⟩ := Writer.laid_start hstart
    have hlast : ∀ t ∈ tuples, (compare w.lastKey (w.format.keyOf t)).isLE := by
      intro t _
      rw [(Writer.packed_start hstart).2]
      cases w.format.keyOf t <;> rfl
    have hadd := Writer.addAll_ne_breach hlaid.codec hstores hord hlast
    cases hanswer : w.addAll tuples with
    | mk v answer =>
      rw [hanswer] at hadd
      cases answer with
      | error e =>
        simpa [build, hstart, hanswer] using hadd
      | ok u =>
        obtain ⟨hformat, -⟩ := Writer.laid_addAll hlaid hanswer
        rw [← hformat, ← v.format_closeBlock] at hrate
        obtain ⟨d', c, hbuild, -⟩ := exists_build d hstart hanswer hrate serial range
        simp [hbuild]
  · refine iff_of_true ?_ (Nat.not_lt.1 hroom)
    have hstart : Writer.start format = .error .breach := by
      simp only [Writer.start, Draft.start, hroom, if_false]
      rfl
    simp only [build, hstart]

end Directory

end Strata
