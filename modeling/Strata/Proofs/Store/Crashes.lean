import Strata.Proofs.Store.Answers

/-!
# Recovery after a crash

Whenever an index crashes, an index can be opened on what is left of its directory. It finds under
every key what the components listed had, with what a flush was writing or without it. A component
file that is removed on the way went into one that stays, or stays under another name; and a
recovery that is itself cut short, and done again, comes to the same components.
-/

namespace Strata

namespace Store

variable {r : Reading} {s t u : Store} {h g : History} {d d' : Directory}

/-- What a crash leaves of a directory is what is left before or after the flush that a client is
at, if one is. The index left behind is the one before it or the one after it. -/
inductive Crashes (s : Store) (h : History) (d : Directory) : Store → History → Prop where
  | idle (hleft : s.LeavesBehind h d) : Crashes s h d s h
  | flushing {i : Nat} {t : Store} (hflush : s.clients[i]? = some .flush)
      (hstep : s.client i = some t) (hroom : t.Roomy)
      (hleft : t.LeavesBehind (h.after s t (.action (.client i))) d) :
      Crashes s h d t (h.after s t (.action (.client i)))

/-- A recovery has found in a directory what an index had on disk, and has removed only files that
are not missed. -/
structure Restores (u : Store) (g : History) (d d' : Directory) (t : Store) : Prop where
  finds : ∀ key, ∃ found, u.findAmong key u.board.roster.newestFirst = .ok found ∧
    t.findAmong key t.board.roster.newestFirst = .ok found
  removed : ∀ name file, FileName.isComponent name = true → d.find? name = some file →
    d'.find? name = none → ∃ a ∈ g.annals, a.component.file = .ok name ∧ a.file = file ∧
      ∃ w ∈ g.annals, w.component ∈ t.board.roster.newestFirst ∧
        (Relation.TransGen (Record.Input g.annals) a w ∨
          a.component.range = w.component.range ∧ a.tuples = w.tuples)

theorem reached_of_crashes {codec : Codec} {keyFields : Nat} (hs : Reached codec keyFields s h)
    (hcrash : s.Crashes h d u g) : Reached codec keyFields u g ∧ u.LeavesBehind g d := by
  cases hcrash with
  | idle hleft => exact ⟨hs, hleft⟩
  | flushing hflush hstep hroom hleft =>
    exact ⟨hs.turn ⟨trivial, nofun, nofun⟩ hstep hroom, hleft⟩

namespace Kept

variable {annals tops winners : List Record}

/-- A file that is removed went into one that is kept, or one that is kept has its range and its
tuples. -/
theorem removed (hkept : Kept r annals d tops winners) {name : String} {file : Bytes}
    (hname : FileName.isComponent name = true) (hfile : d.find? name = some file)
    (hgone : (d.only (Recovery.keeps winners)).find? name = none) :
    ∃ a ∈ annals, a.name = name ∧ a.file = file ∧ ∃ w ∈ winners,
      (Relation.TransGen (Record.Input annals) a w ∨
        a.component.range = w.component.range ∧ a.tuples = w.tuples) := by
  obtain ⟨a, ha, rfl, rfl⟩ := hkept.amounts.written name file hname hfile
  obtain ⟨t, ht, hline⟩ := hkept.amounts.line a ha hfile
  obtain ⟨w, hw, hstay⟩ := exists_right hkept.stays ht
  refine ⟨a, ha, rfl, rfl, w, hw, ?_⟩
  rcases hkept.sound.line_of_twin hline hstay.line hstay.range with hinto | hsame
  · rcases Relation.reflTransGen_iff_eq_or_transGen.1 hinto with rfl | htrans
    · exact absurd hgone (Option.ne_none_iff_exists'.2 ⟨_, (Recovery.liesIn_only hw).2 hstay.lies⟩)
    · exact .inl htrans
  · exact .inr hsame

end Kept

/-- The files of the components listed, and of results that wait to be put in place, are there. -/
theorem Intact.exists_file {listed : List Record} {known : List Component}
    (hi : Intact r s h listed known) {c : Component}
    (hc : c ∈ s.board.roster.newestFirst ∨ s.Pends c) :
    ∃ file, s.files.find? (FileName.ofComponent c.id c.range) = some file := by
  rcases hc with hlisted | ⟨job, hjob, hphase⟩
  · rw [Roster.newestFirst_of_lists hi.lists] at hlisted
    obtain ⟨a, ha, rfl⟩ := List.mem_map.1 hlisted
    exact ⟨_, hi.stored a (hi.listedIn a ha) (.inl ha)⟩
  · have hsound := (hi.jobs job hjob).1
    simp only [Job.Sound, hphase] at hsound
    obtain ⟨-, a, ha, rfl, -⟩ := hsound
    exact ⟨_, hi.stored a ha (.inr ⟨job, hjob, hphase⟩)⟩

/-- On whatever a crash leaves of its directory an index is opened again. It finds under every key
what was on disk, and removes only what is kept in another file. A recovery cut short and done again
comes to the same components. -/
theorem recovery_of_crashes {codec : Codec} {keyFields : Nat} (hs : Reached codec keyFields s h)
    (hcrash : s.Crashes h d u g) {options : Options} (hfits : options.Fits keyFields) :
    ∃ d' t, openOn options codec d = (d', .ok t) ∧ Restores u g d d' t ∧
      ∀ between others, List.Sublist d'.files between.files →
        List.Sublist between.files d.files → others.Fits keyFields →
        ∃ t', openOn others codec between = (d', .ok t') ∧
          t'.board.roster.newestFirst = t.board.roster.newestFirst := by
  obtain ⟨hu, hleft⟩ := reached_of_crashes hs hcrash
  obtain ⟨listed, known, hi⟩ := intact_of_reached hu
  obtain ⟨tops, hd, hnewest⟩ := hi.amountsTo hleft
  have hkeyFields : ∀ {o : Options}, o.Fits keyFields →
      (o.format codec).keyFields = keyFields := fun ho => ho.keyFields
  obtain ⟨winners, hrecover, hstays⟩ := Recovery.recover_eq hi.annals
    (rfl : (options.format codec).codec = _) (hkeyFields hfits) hi.below hd
  have hkept : Kept (Reading.ofCodec codec keyFields) g.annals d tops winners :=
    ⟨hi.annals, hd, hstays⟩
  obtain ⟨t, policy, hopen, hcomponents, hlist⟩ :=
    hkept.exists_openOn hfits hi.low hi.serials hi.stamps hrecover
  have hformat : (options.format codec).reading = Reading.ofCodec codec keyFields := by
    rw [← hfits.keyFields]
    rfl
  have ht := hkept.intact hformat hi.keyFields (fun a ha => Nat.lt_of_succ_lt (hi.below a ha))
    (fun key => (hnewest key).trans (hi.durable key)) hcomponents
  refine ⟨d.only (Recovery.keeps winners), t, hopen, ⟨fun key => ?_, ?_⟩, ?_⟩
  · exact ⟨_, hi.findAmong_newestFirst key, ht.findAmong_newestFirst key⟩
  · intro name file hname hfile hgone
    obtain ⟨a, ha, rfl, rfl, w, hw, hline⟩ := hkept.removed hname hfile hgone
    refine ⟨a, ha, (hi.annals.sound a ha).file.name, rfl, w, (hkept.mem hw).1, ?_, hline⟩
    rw [hlist]
    exact List.mem_map_of_mem hw
  · intro between others hlower hupper hothers
    have hagain := @Recovery.recover_again _ _ _ others.folder hi.annals
      (rfl : (others.format codec).codec = _) (hkeyFields hothers) hi.below _ _ _ _ hd hstays
      hlower hupper
    obtain ⟨t', -, hopen', -, hlist'⟩ :=
      hkept.exists_openOn hothers hi.low hi.serials hi.stamps hagain
    exact ⟨t', hopen', hlist'.trans hlist.symm⟩

/-- A crash may come when a merge has written its result and its members are still listed: the
index that is opened on all three files finds the newer of their tuples. -/
theorem recovery_amid_merge :
    ∃ s h older newer result d t, Reached (.plain [.varying, .varying]) 1 s h ∧
      s.board.roster.newestFirst = [newer, older] ∧ s.Pends result ∧ result.range = ⟨0, 1⟩ ∧
      (∀ c ∈ [newer, older, result], ∃ file,
        s.files.find? (FileName.ofComponent c.id c.range) = some file) ∧
      openOn pairs (.plain [.varying, .varying]) s.files = (d, .ok t) ∧
      t.findAmong [1, 107] t.board.roster.newestFirst = .ok (some [[107], [2]]) := by
  obtain ⟨s, _, h, older, newer, result, hpairs⟩ := exists_pairs
  have hs := hpairs.before.reached
  obtain ⟨d, t, hopen, hrestores, -⟩ :=
    recovery_of_crashes hs (.idle (leavesBehind_files hs)) fits_pairs
  obtain ⟨listed, known, hi⟩ := intact_of_reached hs
  refine ⟨s, h, older, newer, result, d, t, hs, hpairs.listed, hpairs.pends, hpairs.ranges.2.2,
    fun c hc => ?_, hopen, ?_⟩
  · refine hi.exists_file (hpairs.listed ▸ ?_)
    rcases List.mem_cons.1 hc with rfl | hc
    · exact .inl List.mem_cons_self
    · rcases List.mem_cons.1 hc with rfl | hc
      · exact .inl (by simp)
      · exact .inr (List.mem_singleton.1 hc ▸ hpairs.pends)
  · obtain ⟨found, hfound, hsame⟩ := hrestores.finds [1, 107]
    rw [hi.findAmong_newestFirst, hpairs.durable] at hfound
    rw [hsame, ← Except.ok.inj hfound]
    exact congrArg Except.ok (by decide +kernel)

end Store

end Strata
