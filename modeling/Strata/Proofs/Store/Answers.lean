import Strata.Proofs.Store.Service

/-!
# What an index answers

An index that is intact answers as a map would that takes in the tuples accepted, in the order of
their insertion: a lookup gives the last one with the key fields asked for, and a scan one for each
key, by ascending key. That holds in every state it can come to, whatever merges have done and
however often it was opened again; only what waited in memory then is lost.
-/

namespace Strata

namespace Store

variable {r : Reading} {s : Store} {h : History} {listed : List Record} {known : List Component}

namespace Intact

theorem find?_memory (hi : Intact r s h listed known) (key : Bytes) :
    s.memory.get? key = Keyed.find? (Tuple.keyed r.keyFields h.pending).reverse key := by
  rw [Memory.get?, hi.memory, Keyed.find?_insertAll]
  exact Option.or_none

/-- Memory comes before the components. -/
theorem or_newest (hi : Intact r s h listed known) (key : Bytes) :
    (s.memory.get? key).or (r.newest listed key) =
      Keyed.find? (Tuple.keyed r.keyFields (h.durable ++ h.pending)).reverse key := by
  rw [hi.find?_memory, hi.durable, Tuple.keyed_append, List.reverse_append, Keyed.find?_append]

/-- The components listed have what was flushed. -/
theorem findAmong_newestFirst (hi : Intact r s h listed known) (key : Bytes) :
    s.findAmong key s.board.roster.newestFirst =
      .ok (Keyed.find? (Tuple.keyed r.keyFields h.durable).reverse key) := by
  rw [hi.presents.findAmong_newestFirst, hi.durable]

theorem lookup_eq (hi : Intact r s h listed known) {k : Tuple} (hk : r.keyFields ≤ k.length) :
    s.lookup k = .ok (Tuple.latest r.keyFields (h.durable ++ h.pending) k) := by
  have hkeyOf : s.keyOf k = .ok (k.keyBytes r.keyFields) := by
    have hformat := hi.format
    subst hformat
    exact if_neg (Nat.not_lt.2 hk)
  rw [Tuple.latest_eq, ← hi.or_newest, hi.durable, lookup, Outcome.bind_eq_ok_iff]
  refine ⟨_, Outcome.ofExcept_eq_ok_iff.2 hkeyOf, ?_⟩
  cases s.memory.get? (k.keyBytes r.keyFields) with
  | some t => rfl
  | none => exact hi.findAmong_newestFirst _

theorem scan_spec (hi : Intact r s h listed known) :
    ∃ tuples, s.scan = .ok tuples ∧ Tuple.Ascending r.keyFields tuples ∧
      ∀ t, t ∈ tuples ↔ Tuple.latest r.keyFields (h.durable ++ h.pending) t = some t := by
  have hmemory : Keyed.Ascending s.memory.tuples := by
    rw [hi.memory]
    exact Keyed.ascending_insertAll List.Pairwise.nil _
  have hfound : Keyed.Ascending (r.overlay [] listed.reverse) :=
    Reading.ascending_overlay List.Pairwise.nil _
  have hlabels : r.Labels (Keyed.insertAll (r.overlay [] listed.reverse) s.memory.tuples) := by
    refine Reading.labels_insertAll (Reading.labels_overlay Reading.labels_nil _) ?_
    rw [hi.memory]
    exact Reading.labels_insertAll Reading.labels_nil (Reading.labels_keyed _)
  have hascending := Keyed.ascending_insertAll hfound s.memory.tuples
  have hfind : ∀ key, Keyed.find?
      (Keyed.insertAll (r.overlay [] listed.reverse) s.memory.tuples) key =
      Keyed.find? (Tuple.keyed r.keyFields (h.durable ++ h.pending)).reverse key := by
    intro key
    rw [Keyed.find?_insertAll, Keyed.find?_reverse hmemory, hi.presents.find?_overlay,
      ← hi.or_newest]
    rfl
  have hkeyed := Reading.keyed_values hlabels
  refine ⟨_, hi.presents.scan_eq, ?_, fun t => ?_⟩
  · rw [← Tuple.ascending_keyed_iff, hkeyed]
    exact hascending
  · rw [Tuple.latest_eq, ← hfind, Keyed.find?_eq_some_iff hascending]
    rw [← hkeyed, Tuple.mem_keyed_iff, hkeyed]
    simp

end Intact

/-- In every state an index comes to, a lookup gives the last tuple accepted that has the key fields
asked for, flushed or in memory. A scan gives, by ascending key, just the tuples of which each is
the last with its key fields. -/
theorem lookup_scan_of_reached {codec : Codec} {keyFields : Nat}
    (hs : Reached codec keyFields s h) :
    (∀ k : Tuple, keyFields ≤ k.length →
      s.lookup k = .ok (Tuple.latest keyFields (h.durable ++ h.pending) k)) ∧
    ∃ tuples, s.scan = .ok tuples ∧ Tuple.Ascending keyFields tuples ∧
      ∀ t, t ∈ tuples ↔ Tuple.latest keyFields (h.durable ++ h.pending) t = some t := by
  obtain ⟨listed, known, hi⟩ := intact_of_reached hs
  exact ⟨fun k hk => hi.lookup_eq hk, hi.scan_spec⟩

/-- Two tuples under one key were flushed, the components merged, and the index opened again: the
second tuple is found. -/
theorem lookup_after_merge :
    ∃ s h result d t, Reached (.plain [.varying, .varying]) 1 s h ∧
      s.board.roster.newestFirst = [result] ∧ result.range = ⟨0, 1⟩ ∧
      openOn pairs (.plain [.varying, .varying]) s.files = (d, .ok t) ∧
      t.lookup [[107]] = .ok (some [[107], [2]]) := by
  obtain ⟨_, s, h, _, _, result, hpairs⟩ := exists_pairs
  have hs := hpairs.after.reached
  have hcrash := leavesBehind_files hs
  obtain ⟨listed, known, hi⟩ := intact_of_reached hs
  obtain ⟨d, t, hopen⟩ := hi.exists_openOn hcrash fits_pairs
  have hlookup := (lookup_scan_of_reached (hs.reopened hcrash rfl hopen)).1 [[107]] (Nat.le_refl 1)
  refine ⟨s, h, result, d, t, hs, hpairs.swapped, hpairs.ranges.2.2, hopen, hlookup.trans ?_⟩
  show Except.ok (Tuple.latest 1 (h.durable ++ []) [[107]]) = _
  rw [hpairs.durable]
  exact congrArg Except.ok (by decide)

end Store

end Strata
