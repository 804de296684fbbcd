import Mathlib.Algebra.Order.BigOperators.Group.List
import Mathlib.Algebra.Ring.Int.Defs
import Strata.Proofs.Component.Places
import Strata.Proofs.Store.Counters

/-!
# Conservation of components and of merges

A flush lists one component more, and a merge lists its result for its members. The members of one
merge come from one look at the list, so they have as many numbers as they are; and each number
takes a place of the list at least. So the list is as long as flushes and completed merges tell,
unless a merge takes more places than it has members: two components with one number are found at
both of its places, and both go with the merge of one. No number is given out twice within a word,
so this happens only to components that were recovered under one number.
-/

namespace Strata

/-- No two of some components share a number. -/
def Component.Numbered (components : List Component) : Prop :=
  ∀ c ∈ components, ∀ d ∈ components, c.id = d.id → c = d

theorem Component.Numbered.mono {components part : List Component} (h : Numbered components)
    (hpart : part ⊆ components) : Numbered part :=
  fun c hc d hd => h c (hpart hc) d (hpart hd)

theorem Component.Numbered.nodup {components : List Component} (h : Numbered components)
    (hserials : (components.map Component.serial).Nodup) : (components.map Component.id).Nodup :=
  hserials.of_map.map_on h

/-- Each list that a party has taken down has every number once. -/
def Party.Numbered (p : Party) : Prop := ∀ xs ∈ p.tracked, Component.Numbered xs

theorem Party.numbered_of_none {p : Party} (h : p.tracked = []) : p.Numbered := by
  rw [Numbered, h]
  exact List.forall_mem_nil _

theorem Party.Numbered.within {p q : Party} (h : p.Numbered) (hq : q.Within p) : q.Numbered := by
  intro xs hxs
  obtain ⟨ys, hys, hinfix⟩ := hq.tracked xs hxs
  exact (h ys hys).mono hinfix.subset

theorem Party.numbered_iff {xs held : List Component} {leaving : List Component}
    {making : List Nat} : Party.Numbered ⟨[xs], held, leaving, making⟩ ↔ Component.Numbered xs :=
  List.forall_mem_singleton

theorem Roster.numbered_newestFirst {r : Roster}
    (hkeyed : ∀ id c, r.get? id = some c → c.id = id) : Component.Numbered r.newestFirst := by
  intro c hc d hd heq
  obtain ⟨id, hget⟩ := exists_get?_of_mem hc
  obtain ⟨id', hget'⟩ := exists_get?_of_mem hd
  obtain rfl := hkeyed id c hget
  obtain rfl := hkeyed id' d hget'
  rw [heq, hget'] at hget
  exact (Option.some.inj hget).symm

namespace Thread

/-- What a thread has of components. -/
def party : Thread → Party
  | .call task => task.party
  | .merge job => job.party

/-- The members that a step of a merge puts its result in the place of. -/
def swapped : Thread → Thread → List (List Component)
  | .merge ⟨members, .swap _⟩, .merge ⟨_, .retire ..⟩ => [members]
  | _, _ => []

/-- The members of a merge that completes in its next step. -/
def completes : Thread → List (List Component)
  | .merge ⟨members, .succeed _⟩ => [members]
  | _ => []

/-- A measure of the members that a merge has replaced before it completes. -/
def retiring (measure : List Component → Nat) : Thread → Nat
  | .merge ⟨members, .retire ..⟩ => measure members
  | .merge ⟨members, .succeed _⟩ => measure members
  | _ => 0

theorem weighs_retiring (measure : List Component → Nat) : Weighs (retiring measure) where
  begins h := by cases h <;> rfl
  done h := by cases h <;> rfl

end Thread

namespace Store

variable {s s' t u : Store} {new : List Job} {thread thread' : Thread} {τ : Turn}
variable {turns : List Turn}

theorem numbered_schedules {phase phase' : Scheduling} (h : s.Schedules phase s' phase' new)
    (hlisted : Component.Numbered s.board.roster.newestFirst)
    (hnumbered : phase.party.Numbered) :
    phase'.party.Numbered ∧ ∀ job ∈ new, job.party.Numbered := by
  have hnone : ∀ job ∈ ([] : List Job), job.party.Numbered := List.forall_mem_nil _
  have hconclude : ∀ (all : Bool) (answer : Except Error Bool),
      (Scheduling.conclude all answer).party.Numbered := fun all answer =>
    Party.numbered_of_none (by rw [Scheduling.party_conclude])
  cases h with
  | gather => exact ⟨Party.numbered_iff.2 hlisted, hnone⟩
  | claimNone => exact ⟨hconclude _ _, hnone⟩
  | claimedAll hmembers =>
    refine ⟨Party.numbered_iff.2 ((Party.numbered_iff.1 hnumbered).mono ?_), hnone⟩
    exact List.subset_append_left ..
  | claim hstate =>
    refine ⟨Party.numbered_iff.2 ((Party.numbered_iff.1 hnumbered).mono ?_), hnone⟩
    rw [List.append_assoc]
    exact List.Subset.refl _
  | gaveUp => exact ⟨hconclude _ _, hnone⟩
  | giveUpLost hstate => exact ⟨hconclude _ _, hnone⟩
  | enlist => exact ⟨hnumbered, hnone⟩
  | submit hpool => exact ⟨hconclude _ _, List.forall_mem_singleton.2 hnumbered⟩
  | handedBack => exact ⟨hconclude _ _, hnone⟩
  | handBackLost hstate => exact ⟨hconclude _ _, hnone⟩
  | _ => exact ⟨Party.numbered_of_none rfl, hnone⟩

theorem numbered_consults {k k' : Consultation} (h : s.Consults k s' k' new)
    (hlisted : Component.Numbered s.board.roster.newestFirst) (hnumbered : k.party.Numbered) :
    k'.party.Numbered ∧ ∀ job ∈ new, job.party.Numbered := by
  have hnone : ∀ job ∈ ([] : List Job), job.party.Numbered := List.forall_mem_nil _
  cases h with
  | think hstep =>
    refine ⟨?_, hnone⟩
    rcases Call.party_step hstep with hwithin | htracked
    · exact Party.Numbered.within hnumbered hwithin
    · rw [Consultation.party, htracked]
      exact Party.numbered_iff.2 hlisted
  | order horder =>
    rename_i call order
    refine ⟨?_, hnone⟩
    obtain ⟨policy, full, phase⟩ := call
    cases phase with
    | ordered given =>
      obtain rfl := Option.some.inj horder
      cases given with
      | everything => exact Party.numbered_of_none rfl
      | run members => exact Party.numbered_iff.2 (Party.numbered_iff.1 hnumbered)
    | _ => simp [Call.order?] at horder
  | schedule hphase hstep => exact numbered_schedules hstep hlisted hnumbered
  | reply =>
    rename_i call answer
    obtain ⟨metrics, result, hreply⟩ := Call.reply_frame s.board call answer
    rw [hreply]
    exact ⟨Party.numbered_of_none rfl, hnone⟩

theorem numbered_consult (full : Bool) (added : Component) (byMerge : Bool) :
    (s.consult full added byMerge).party.Numbered :=
  Party.numbered_of_none (congrArg Party.tracked (party_consult full added byMerge))

/-- What a thread has taken down it has from one look at the list. -/
theorem numbered_acts (h : s.Acts thread s' thread' new)
    (hlisted : Component.Numbered s.board.roster.newestFirst)
    (hnumbered : thread.party.Numbered) :
    thread'.party.Numbered ∧ ∀ job ∈ new, job.party.Numbered := by
  have hnone : ∀ job ∈ ([] : List Job), job.party.Numbered := List.forall_mem_nil _
  have hfails : ∀ (members : List Component) (f : Failure),
      (Thread.merge ⟨members, Job.phaseOf f⟩).party.Numbered := by
    intro members f
    cases f <;> exact Party.numbered_of_none rfl
  cases h with
  | call hcalls =>
    cases hcalls with
    | insert htask => rcases htask with rfl | rfl <;> exact ⟨Party.numbered_of_none rfl, hnone⟩
    | report => exact ⟨numbered_consult _ _ _, hnone⟩
    | requested htask => rcases htask with rfl | rfl <;> exact ⟨Party.numbered_of_none rfl, hnone⟩
    | newest => exact ⟨numbered_consult _ _ _, hnone⟩
    | consult hstep => exact numbered_consults hstep hlisted hnumbered
    | draining htask => rcases htask with rfl | rfl <;> exact ⟨Party.numbered_of_none rfl, hnone⟩
    | drowse htask => rcases htask with rfl | rfl <;> exact ⟨Party.numbered_of_none rfl, hnone⟩
    | _ => exact ⟨Party.numbered_of_none rfl, hnone⟩
  | merge hmerges =>
    cases hmerges with
    | readFails => exact ⟨hfails _ _, hnone⟩
    | read => exact ⟨hnumbered, hnone⟩
    | number => exact ⟨Party.numbered_iff.2 (Party.numbered_iff.1 hnumbered), hnone⟩
    | buildFails => exact ⟨hfails _ _, hnone⟩
    | build hrange hbuild =>
      exact ⟨Party.numbered_iff.2 (Party.numbered_iff.1 hnumbered), hnone⟩
    | consider => exact ⟨numbered_consult _ _ _, hnone⟩
    | consult hstep => exact numbered_consults hstep hlisted hnumbered
    | _ => exact ⟨Party.numbered_of_none rfl, hnone⟩

/-- What a step does to the list of components: a flush lists a new one first, a merge lists its
result for its members, and any other step leaves the list as it is. -/
inductive Relists (s : Store) : Thread → Store → Thread → Prop where
  | keeps {thread thread' : Thread} {s' : Store} (hroster : s'.board.roster = s.board.roster)
      (hflushed : thread.flushed thread' = []) (hswapped : thread.swapped thread' = []) :
      Relists s thread s' thread'
  | flush {c : Component} {s' : Store} (hserial : c.serial = s.nextSerial)
      (hnext : s'.nextSerial = s.nextSerial + 1)
      (hroster : s'.board.roster = s.board.roster.prepend c) :
      Relists s (.call .flush) s' (.call (.report c))
  | swap {members : List Component} {result : Component} {s' : Store}
      (hnext : s'.nextSerial = s.nextSerial)
      (hreplace : s.board.roster.replace (members.map Component.id) result =
        .ok s'.board.roster) :
      Relists s (.merge ⟨members, .swap result⟩) s' (.merge ⟨members, .retire result members⟩)

theorem relists_acts (h : s.Acts thread s' thread' new) : s.Relists thread s' thread' := by
  cases h with
  | call hcalls =>
    cases hcalls with
    | flush hserial => exact .flush hserial rfl rfl
    | consult hstep =>
      obtain ⟨full, count, states, tracker, metrics, pool, rfl⟩ := frame_consults hstep
      exact .keeps rfl rfl rfl
    | _ => exact .keeps rfl rfl rfl
  | merge hmerges =>
    cases hmerges with
    | swap hreplace => exact .swap rfl hreplace
    | consult hstep =>
      obtain ⟨full, count, states, tracker, metrics, pool, rfl⟩ := frame_consults hstep
      exact .keeps rfl rfl rfl
    | _ => exact .keeps rfl rfl rfl

/-- What holds of the list of components, and of what threads have taken down of it. -/
structure Coherent (s : Store) : Prop where
  balanced : ∃ aside, s.Balanced aside
  whole : s.board.roster.Whole
  numbered : ∀ thread ∈ s.threads, thread.party.Numbered

theorem whole_relists (h : s.Relists thread s' thread') (hwhole : s.board.roster.Whole) :
    s'.board.roster.Whole := by
  cases h with
  | keeps hroster => exact hroster ▸ hwhole
  | flush hserial hnext hroster => exact hroster ▸ Roster.whole_prepend hwhole _
  | swap hnext hreplace => exact Roster.whole_replace hwhole hreplace

theorem coherent_of_opened (h : s.Opened) : s.Coherent where
  balanced := ⟨[], balanced_of_opened h⟩
  whole := by
    obtain ⟨options, policy, codec, files, components, -, hopen⟩ := h
    obtain ⟨-, -, -, rfl⟩ := ofComponents_eq_ok_iff.1 hopen
    exact Roster.whole_foldl Roster.whole_nil components
  numbered := by
    rw [(fresh_of_opened h).1]
    exact List.forall_mem_nil _

theorem Coherent.turn (h : s.Coherent) (hproper : τ.Proper) (hturn : s.turn τ = some t) :
    t.Coherent := by
  obtain ⟨aside, hbalanced⟩ := h.balanced
  refine ⟨⟨_, balanced_turn hproper hbalanced hturn⟩, ?_, ?_⟩
  · cases books_of_turn hproper hturn with
    | acts hacts hbefore hafter hboard =>
      rw [hboard]
      exact whole_relists (relists_acts hacts) h.whole
    | stands hbegun hthreads hboard =>
      rw [hboard]
      exact h.whole
  · refine forall_threads_turn (fun hacts hnumbered => ?_) (fun task htask => ?_) hproper hturn
      h.numbered
    · obtain ⟨hthread, hnew⟩ :=
        numbered_acts hacts (Roster.numbered_newestFirst hbalanced.keyed) hnumbered
      exact ⟨fun left hleft => mem_remains hleft ▸ hthread, hnew⟩
    · cases htask <;> exact Party.numbered_of_none rfl

/-- The members of a merge have as many numbers as they are. -/
theorem Coherent.nodup_members (h : s.Coherent) {members : List Component} {result : Component}
    (hthread : .merge ⟨members, .swap result⟩ ∈ s.threads) :
    (members.map Component.id).Nodup := by
  obtain ⟨aside, hbalanced⟩ := h.balanced
  -- no component is claimed twice, and what shares a number on one list is one component
  have hserials : (members.map Component.serial).Nodup := by
    have honce := (List.nodup_append.1 hbalanced.once).1
    exact (List.nodup_flatMap.1 honce).1 _ (List.mem_map_of_mem hthread)
  exact (Party.numbered_iff.1 (h.numbered _ hthread)).nodup hserials

/-- Each member of a merge takes a place at least. -/
theorem Coherent.le_places (h : s.Coherent) {members : List Component} {result : Component}
    {roster : Roster} (hthread : .merge ⟨members, .swap result⟩ ∈ s.threads)
    (hreplace : s.board.roster.replace (members.map Component.id) result = .ok roster) :
    members.length ≤ s.board.roster.places (members.map Component.id) := by
  have hle := Roster.length_le_places h.whole (h.nodup_members hthread)
    (Roster.replace_eq_ok_iff.1 hreplace).1
  rwa [List.length_map] at hle

/-- The merges whose result a turn lists for their members, each with the number of places that
these took. -/
def swaps (s : Store) (τ : Turn) : List (List Component × Nat) :=
  ((s.mergeStep? τ).map fun (job, phase) =>
    (Thread.swapped (.merge job) (.merge { job with phase })).map fun members =>
      (members, s.board.roster.places (members.map Component.id))).getD []

/-- The members of the merge that a turn completes. -/
def completions (s : Store) (τ : Turn) : List (List Component) :=
  ((s.mergeStep? τ).map fun (job, _) => Thread.completes (.merge job)).getD []

theorem swaps_of_acts (hacts : s.Acts thread s' thread' new)
    (hmerge : s.mergeStep? τ = thread.mergeStep? thread') :
    s.swaps τ = (thread.swapped thread').map fun members =>
      (members, s.board.roster.places (members.map Component.id)) := by
  rw [swaps, hmerge]
  cases hacts <;> rfl

theorem completions_of_acts (hacts : s.Acts thread s' thread' new)
    (hmerge : s.mergeStep? τ = thread.mergeStep? thread') :
    s.completions τ = thread.completes := by
  rw [completions, hmerge]
  cases hacts <;> rfl

/-- A merge completes once it has replaced its members: what was claimed for it is there to be made
inactive. -/
theorem retiring_acts (h : s.Acts thread s' thread' new)
    (hclaimed : ∀ c ∈ thread.stake.claimed, s.state c = .merging)
    (measure : List Component → Nat) :
    thread'.retiring measure + (thread.completes.map measure).sum =
      thread.retiring measure + ((thread.swapped thread').map measure).sum := by
  have hfails : ∀ (members : List Component) (f : Failure),
      (Thread.merge ⟨members, Job.phaseOf f⟩).retiring measure = 0 := by
    intro members f
    cases f <;> rfl
  have hswapped : ∀ (members : List Component) (before : Job.Phase) (f : Failure),
      Thread.swapped (.merge ⟨members, before⟩) (.merge ⟨members, Job.phaseOf f⟩) = [] := by
    intro members before f
    cases before <;> cases f <;> rfl
  cases h with
  | call hcalls => rfl
  | merge hmerges =>
    cases hmerges with
    | readFails => rw [hfails, hswapped]; rfl
    | buildFails => rw [hfails, hswapped]; rfl
    | swap hreplace => exact Nat.add_comm ..
    -- a merge that has listed its result completes: its members are still claimed for it
    | retireLost hstate => exact absurd (hclaimed _ List.mem_cons_self) hstate
    | succeed => exact Nat.add_comm ..
    | _ => rfl

theorem count_ends (thread : Thread) : thread.ends.count true = thread.completes.length := by
  cases thread with
  | call task => rfl
  | merge job =>
    obtain ⟨members, phase⟩ := job
    cases phase <;> rfl

/-- How the list of components has changed on the way to a state, against what has happened: the
components that flushes wrote, the merges that listed their results, and those that completed. -/
structure Relisted (s t : Store) (flushed : List Component) (swaps : List (List Component × Nat))
    (completions : List (List Component)) : Prop where
  length : t.board.roster.length + (swaps.map Prod.snd).sum =
    s.board.roster.length + flushed.length + swaps.length
  taken : ∀ v ∈ swaps, v.1.length ≤ v.2
  completed : t.board.metrics.completed = s.board.metrics.completed + completions.length
  retired : ∀ measure : List Component → Nat,
    t.total (Thread.retiring measure) + (completions.map measure).sum =
      s.total (Thread.retiring measure) + (swaps.map fun v => measure v.1).sum

theorem relisted_turn (h : s.Coherent) (hbooks : s.Books τ t) :
    s.Relisted t (s.flushed τ) (s.swaps τ) (s.completions τ) := by
  cases hbooks with
  | acts hacts hbefore hafter hboard hserial hscheduling hmerge hflushed horders =>
    rename_i thread thread' s' new others
    have hthread : thread ∈ s.threads := hbefore.mem_iff.2 List.mem_cons_self
    obtain ⟨aside, hbalanced⟩ := h.balanced
    have hclaimed := (hbalanced.admits _ (List.mem_map_of_mem hthread)).claimed
    have hcompleted := (adds_acts hacts).1.completed
    have hrelists := relists_acts hacts
    rw [hflushed, swaps_of_acts hacts hmerge, completions_of_acts hacts hmerge]
    refine ⟨?_, ?_, ?_, fun measure => ?_⟩
    · rw [hboard]
      cases hrelists with
      | keeps hroster hnone hkept =>
        rw [hroster, hnone, hkept]
        rfl
      | flush hserial hnext hroster =>
        rw [hroster]
        rfl
      | swap hnext hreplace =>
        have hlength := Roster.length_replace hreplace
        show s'.board.roster.length + (s.board.roster.places _ + 0) = s.board.roster.length + 0 + 1
        omega
    · cases hrelists with
      | keeps hroster hnone hkept =>
        rw [hkept]
        exact List.forall_mem_nil _
      | flush hserial hnext hroster => exact List.forall_mem_nil _
      | swap hnext hreplace => exact List.forall_mem_singleton.2 (h.le_places hthread hreplace)
    · rw [hboard, hcompleted, count_ends]
    · have htotal := total_of_acts (Thread.weighs_retiring measure) hbefore hafter
      have hstep := retiring_acts hacts hclaimed measure
      have hnew : (new.map fun job => Thread.retiring measure (.merge job)).sum = 0 := by
        rcases horders with ⟨rfl, -⟩ | ⟨all, members, -, rfl, -, -⟩ <;> rfl
      have hsame : (((thread.swapped thread').map fun members =>
          (members, s.board.roster.places (members.map Component.id))).map
            fun v => measure v.1).sum = ((thread.swapped thread').map measure).sum := by
        rw [List.map_map]
        rfl
      omega
  | stands hbegun hthreads hboard hserial hactor hmerge hflushed horders =>
    have hswaps : s.swaps τ = [] := by
      rw [swaps, hmerge]
      rfl
    have hcompletions : s.completions τ = [] := by
      rw [completions, hmerge]
      rfl
    rw [hflushed, hswaps, hcompletions]
    refine ⟨?_, List.forall_mem_nil _, ?_, fun measure => ?_⟩
    · rw [hboard]
      rfl
    · rw [hboard]
      rfl
    · rw [total_of_begun (Thread.weighs_retiring measure) hbegun hthreads]
      rfl

theorem Relisted.trans {flushed flushed' : List Component}
    {swaps swaps' : List (List Component × Nat)} {completions completions' : List (List Component)}
    (h : s.Relisted u flushed swaps completions) (h' : u.Relisted t flushed' swaps' completions') :
    s.Relisted t (flushed ++ flushed') (swaps ++ swaps') (completions ++ completions') := by
  have hlength := h.length
  have hlength' := h'.length
  refine ⟨?_, ?_, ?_, fun measure => ?_⟩
  · simp only [List.map_append, List.sum_append, List.length_append]
    omega
  · exact List.forall_mem_append.2 ⟨h.taken, h'.taken⟩
  · rw [h'.completed, h.completed, List.length_append, Nat.add_assoc]
  · have hretired := h.retired measure
    have hretired' := h'.retired measure
    simp only [List.map_append, List.sum_append]
    omega

/-- Along a course, the list of components goes with what flushes and merges do. -/
theorem relisted_course (h : s.Coherent) (hproper : ∀ τ ∈ turns, τ.Proper)
    (hcourse : s.course turns = some t) :
    t.Coherent ∧
      s.Relisted t (s.trail flushed turns) (s.trail swaps turns) (s.trail completions turns) := by
  induction turns generalizing s with
  | nil =>
    obtain rfl := Option.some.inj hcourse
    exact ⟨h, rfl, List.forall_mem_nil _, rfl, fun _ => rfl⟩
  | cons τ rest ih =>
    obtain ⟨u, hturn, hrest⟩ := Option.bind_eq_some_iff.1 hcourse
    rw [List.forall_mem_cons] at hproper
    have hfirst := relisted_turn h (books_of_turn hproper.1 hturn)
    obtain ⟨hend, hlater⟩ := ih (h.turn hproper.1 hturn) hproper.2 hrest
    simp only [trail_cons _ hturn]
    exact ⟨hend, hfirst.trans hlater⟩

/-- Within a word, a component that has not been listed has a number of its own. -/
theorem id_not_mem_order {stakes : List Stake} {aside : List Nat}
    (hbalanced : s.ledger.Balanced stakes aside) (hwhole : s.board.roster.Whole)
    (hword : s.nextSerial ≤ Numeral.word) {c : Component} (hlow : c.serial < Numeral.word)
    (hnew : ¬ s.ledger.Settled (Ledger.making stakes) c.serial) : c.id ∉ s.board.roster.order := by
  intro hmem
  -- its number would be that of a component listed, which has the same count then
  obtain ⟨d, hget⟩ := Option.isSome_iff_exists.1 ((hwhole c.id).1 hmem)
  have hsettled := hbalanced.settled _ d hget
  have hnext : d.serial < s.nextSerial := hsettled.1
  have hid : d.id = c.id := hbalanced.keyed _ d hget
  rw [Component.id_of_lt (by omega), Component.id_of_lt hlow] at hid
  exact hnew (hid ▸ hsettled)

/-- Within a word, a step keeps the numbers in the order apart. -/
theorem nodup_relists (h : s.Coherent) (hthread : thread ∈ s.threads)
    (hrelists : s.Relists thread s' thread') (hnext : s.nextSerial ≤ s'.nextSerial)
    (hword : s'.nextSerial ≤ Numeral.word) (horder : s.board.roster.order.Nodup) :
    s'.board.roster.order.Nodup := by
  obtain ⟨aside, hbalanced⟩ := h.balanced
  have hbefore := Nat.le_trans hnext hword
  cases hrelists with
  | keeps hroster => exact hroster ▸ horder
  | flush hserial hlater hroster =>
    rw [hroster]
    refine Roster.nodup_prepend horder (id_not_mem_order hbalanced h.whole hbefore (by omega) ?_)
    rintro ⟨hlt, -⟩
    exact absurd hlt (by rw [hserial]; exact Nat.lt_irrefl _)
  | swap hsame hreplace =>
    rename_i members result
    have hmaking : result.serial ∈ Ledger.making (s.threads.map Thread.stake) :=
      List.mem_flatMap.2 ⟨_, List.mem_map_of_mem hthread, List.mem_singleton_self _⟩
    have hlow : result.serial < s.nextSerial := hbalanced.low _ hmaking
    exact Roster.nodup_replace horder (id_not_mem_order hbalanced h.whole hbefore
      (Nat.lt_of_lt_of_le hlow hbefore) fun hsettled => hsettled.2 hmaking) hreplace

/-- While the numbers in the order are apart, a merge takes just the places of its members. -/
theorem nodup_turn (h : s.Coherent) (hproper : τ.Proper) (hturn : s.turn τ = some t)
    (hword : t.nextSerial ≤ Numeral.word) (horder : s.board.roster.order.Nodup) :
    t.board.roster.order.Nodup ∧ ∀ v ∈ s.swaps τ, v.2 = v.1.length := by
  have hnext := nextSerial_turn hturn
  have hbooks := books_of_turn hproper hturn
  refine ⟨?_, fun v hv => Nat.le_antisymm ?_ ((relisted_turn h hbooks).taken v hv)⟩
  · cases hbooks with
    | acts hacts hbefore hafter hboard hserial =>
      rw [hserial] at hword hnext
      rw [hboard]
      exact nodup_relists h (hbefore.mem_iff.2 List.mem_cons_self) (relists_acts hacts) hnext hword
        horder
    | stands hbegun hthreads hboard =>
      rw [hboard]
      exact horder
  · have hplaces : v.2 = s.board.roster.places (v.1.map Component.id) := by
      unfold swaps at hv
      cases hstep : s.mergeStep? τ with
      | none => simp [hstep] at hv
      | some step =>
        rw [hstep] at hv
        obtain ⟨members, -, rfl⟩ := List.mem_map.1 hv
        rfl
    have hle := @Roster.places_le_length _ (v.1.map Component.id) horder
    rwa [hplaces, ← List.length_map (f := Component.id)]

theorem nodup_course (h : s.Coherent) (hproper : ∀ τ ∈ turns, τ.Proper)
    (hcourse : s.course turns = some t) (hword : t.nextSerial ≤ Numeral.word)
    (horder : s.board.roster.order.Nodup) : ∀ v ∈ s.trail swaps turns, v.2 = v.1.length := by
  induction turns generalizing s with
  | nil => exact List.forall_mem_nil _
  | cons τ rest ih =>
    obtain ⟨u, hturn, hrest⟩ := Option.bind_eq_some_iff.1 hcourse
    rw [List.forall_mem_cons] at hproper
    have hword' := Nat.le_trans (nextSerial_course hrest) hword
    obtain ⟨horder', hfirst⟩ := nodup_turn h hproper.1 hturn hword' horder
    simp only [trail_cons _ hturn]
    exact List.forall_mem_append.2
      ⟨hfirst, ih (h.turn hproper.1 hturn) hproper.2 hrest horder'⟩

theorem order_of_ofComponents {options : Options} {policy : Policy} {codec : Codec}
    {files : Directory} {components : List Component}
    (h : ofComponents options policy codec files components = .ok s) :
    s.board.roster.order = components.map Component.id := by
  obtain ⟨-, -, -, rfl⟩ := ofComponents_eq_ok_iff.1 h
  exact Roster.order_foldl {} components

/-- Where no merge takes fewer places than it has members, all places together are as many as the
members just if no merge takes more. -/
theorem sum_places_eq_iff {swaps : List (List Component × Nat)}
    (htaken : ∀ v ∈ swaps, v.1.length ≤ v.2) :
    (swaps.map Prod.snd).sum = (swaps.map fun v => v.1.length).sum ↔
      ∀ v ∈ swaps, v.2 = v.1.length := by
  induction swaps with
  | nil => simp
  | cons v rest ih =>
    rw [List.forall_mem_cons] at htaken ⊢
    have hrest : (rest.map fun v => v.1.length).sum ≤ (rest.map Prod.snd).sum :=
      List.sum_le_sum htaken.2
    rw [← ih htaken.2, List.map_cons, List.map_cons, List.sum_cons, List.sum_cons]
    omega

/-- What merges make a list shorter by. -/
theorem sum_pred (completions : List (List Component)) :
    (completions.map fun members => (members.length : Int) - 1).sum =
      ((completions.map List.length).sum : Int) - completions.length := by
  induction completions with
  | nil => rfl
  | cons members rest ih =>
    simp only [List.map_cons, List.sum_cons, ih, List.length_cons]
    omega

/-- At rest, merges that listed their results have completed, and the list has the length that the
places they took leave it. -/
theorem length_of_rests (hopen : s.Opened) (hproper : ∀ τ ∈ turns, τ.Proper)
    (hcourse : s.course turns = some t) (hrests : t.Rests) :
    t.board.roster.newestFirst.length + ((s.trail swaps turns).map Prod.snd).sum =
      s.board.roster.order.length + t.board.metrics.flushes + t.board.metrics.completed ∧
    ((s.trail completions turns).map List.length).sum =
      ((s.trail swaps turns).map fun v => v.1.length).sum := by
  obtain ⟨hend, hlength, -, hcompleted, hretired⟩ :=
    relisted_course (coherent_of_opened hopen) hproper hcourse
  obtain ⟨hcounts, -⟩ := flight_course (counts_of_opened hopen) hproper hcourse
  obtain ⟨hflushed, -⟩ := settled_course hopen hproper hcourse hrests
  have hmeasure : ∀ measure : List Component → Nat,
      ((s.trail completions turns).map measure).sum =
        ((s.trail swaps turns).map fun v => measure v.1).sum := by
    intro measure
    have hmeasured := hretired measure
    rwa [hrests.total_eq_zero hcounts (Thread.weighs_retiring measure), total_of_opened hopen,
      Nat.zero_add, Nat.zero_add] at hmeasured
  refine ⟨?_, hmeasure List.length⟩
  have hnumber : (s.trail completions turns).length = (s.trail swaps turns).length := by
    -- with one for each merge, whatever its members, the measures count merges
    have hone := hmeasure fun _ => 1
    rwa [List.map_const', List.map_const', List.sum_replicate_nat, List.sum_replicate_nat,
      Nat.mul_one, Nat.mul_one] at hone
  rw [(fresh_of_opened hopen).2.2] at hcompleted
  rw [Roster.length_newestFirst hend.whole, hlength, hflushed, hcompleted, hnumber]
  simp [Roster.length]

/-- At rest as many merges have been scheduled as have completed or failed, and the length of the
list is told by flushes and the places that merges took. At any time what is counted and what
threads have still to count add up to what was submitted. -/
theorem counts_conserved {options : Options} {policy : Policy} {codec : Codec} {files : Directory}
    {components : List Component} (hlow : ∀ c ∈ components, c.serial < Numeral.word)
    (hopen : ofComponents options policy codec files components = .ok s)
    (hproper : ∀ τ ∈ turns, τ.Proper) (hcourse : s.course turns = some t) :
    (t.Rests →
      t.board.metrics.scheduled + t.board.metrics.fullScheduled =
        t.board.metrics.completed + t.board.metrics.failed ∧
      t.board.metrics.flushes = (s.trail flushed turns).length ∧
      t.board.roster.newestFirst.length + ((s.trail swaps turns).map Prod.snd).sum =
        components.length + t.board.metrics.flushes + t.board.metrics.completed ∧
      ((t.board.roster.newestFirst.length : Int) =
          components.length + t.board.metrics.flushes -
            ((s.trail completions turns).map fun members => (members.length : Int) - 1).sum ↔
        ∀ v ∈ s.trail swaps turns, v.2 = v.1.length)) ∧
    (∀ v ∈ s.trail swaps turns, v.1.length ≤ v.2) ∧
    ((components.map Component.id).Nodup → t.nextSerial ≤ Numeral.word →
      ∀ v ∈ s.trail swaps turns, v.2 = v.1.length) ∧
    t.board.metrics.flushes + t.total Thread.reports = (s.trail flushed turns).length ∧
    t.board.metrics.scheduled + t.board.metrics.fullScheduled + t.total Thread.uncounted =
      (s.trail orders turns).length ∧
    t.board.metrics.completed = (s.trail completions turns).length ∧
    t.board.metrics.failed = (s.trail outcomes turns).count false ∧
    (∀ τ u phase, τ.Proper → t.turn τ = some u → τ.actor?.bind t.scheduling? = some phase →
      phase.Futile → t.board.metrics.Adds u.board.metrics 0 0 0 0 ∧
        ∀ p phase', τ.actor? = some p → u.scheduling? p = some phase' → phase'.Futile) := by
  have hopened : s.Opened := ⟨_, _, _, _, _, hlow, hopen⟩
  have hcoherent := coherent_of_opened hopened
  have horder := order_of_ofComponents hopen
  obtain ⟨-, -, htaken, hcompleted, -⟩ := relisted_course hcoherent hproper hcourse
  obtain ⟨hflushes, hordered, -, hfailed, -⟩ := tallies_course hproper hcourse
  rw [(fresh_of_opened hopened).2.2] at hcompleted hflushes hordered hfailed
  rw [total_of_opened hopened] at hflushes hordered
  simp only [Nat.zero_add, Nat.add_zero] at hcompleted hflushes hordered hfailed
  refine ⟨fun hrests => ?_, htaken, fun hids hword => nodup_course hcoherent hproper hcourse
    hword (horder ▸ hids), hflushes, hordered, hcompleted, hfailed,
    fun τ u phase hτ hturn hphase hfutile => futile_turn hτ hturn hphase hfutile⟩
  obtain ⟨hflushed, hmerges⟩ := settled_course hopened hproper hcourse hrests
  obtain ⟨hlength, hmembers⟩ := length_of_rests hopened hproper hcourse hrests
  rw [horder, List.length_map] at hlength
  refine ⟨hmerges, hflushed, hlength, ?_⟩
  rw [sum_pred, hmembers, ← hcompleted, ← sum_places_eq_iff htaken]
  omega

/-- Of two requests made at once for a merge of all, one loses its claim, and the merge of the other
fails three times. Three merges were scheduled and three failed; the lost claim is in neither
number. -/
theorem counts_of_contended_merge :
    let small (stamp : Nat) : Component :=
      { serial := stamp, range := .single stamp, size := 80 }
    let attempt (steps : Nat) : List Turn :=
      .action (.take 0) :: List.replicate steps (.action (.work 0))
    let turns : List Turn := [.action (.call .request), .action (.call .request)] ++
      List.replicate 9 (.action (.client 0)) ++ List.replicate 9 (.action (.client 1)) ++
      List.replicate 7 (.action (.client 0)) ++ List.replicate 6 (.action (.client 1)) ++
      [.action (.client 0)] ++ attempt 23 ++ attempt 21 ++ attempt 3
    ∃ s t, ofComponents {} (.all 2) (.plain [.varying]) {} [small 1, small 0] = .ok s ∧
      s.course turns = some t ∧ t.Rests ∧
      t.board.metrics.scheduled + t.board.metrics.fullScheduled =
        t.board.metrics.completed + t.board.metrics.failed ∧
      t.board.metrics.failed = 3 ∧ t.board.metrics.deferred = 1 ∧
      t.board.roster.newestFirst.length = 2 := by
  intro small attempt turns
  obtain ⟨s, hopen, hend⟩ : ∃ s,
      ofComponents {} (.all 2) (.plain [.varying]) {} [small 1, small 0] = .ok s ∧
      (s.course turns).map (fun t => (t.clients.all (·.answer?.isSome), t.inFlight,
        t.board.metrics.failed, t.board.metrics.deferred, t.board.roster.newestFirst.length)) =
        some (true, 0, 3, 1, 2) :=
    ⟨_, rfl, by decide +kernel⟩
  obtain ⟨t, hcourse, hend⟩ := Option.map_eq_some_iff.1 hend
  simp only [Prod.mk.injEq, List.all_eq_true] at hend
  obtain ⟨hanswered, hlanded, hfailed, hdeferred, hlength⟩ := hend
  have hlow : ∀ c ∈ [small 1, small 0], c.serial < Numeral.word := by
    intro c hc
    rcases List.mem_pair.1 hc with rfl | rfl <;> decide
  have hproper : ∀ τ ∈ turns, τ.Proper := by
    have hclient : ∀ n i, ∀ τ ∈ List.replicate n (Turn.action (.client i)), τ.Proper := by
      intro n i τ hτ
      rw [List.eq_of_mem_replicate hτ]
      trivial
    have hattempt : ∀ n, ∀ τ ∈ attempt n, τ.Proper := by
      intro n τ hτ
      rcases List.mem_cons.1 hτ with rfl | hτ
      · trivial
      · rw [List.eq_of_mem_replicate hτ]
        trivial
    have hrequests : ∀ τ ∈ [Turn.action (.call .request), .action (.call .request)], τ.Proper := by
      intro τ hτ
      rcases List.mem_pair.1 hτ with rfl | rfl <;> exact .request
    simp only [turns, List.forall_mem_append]
    exact ⟨⟨⟨⟨⟨⟨⟨⟨hrequests, hclient 9 0⟩, hclient 9 1⟩, hclient 7 0⟩, hclient 6 1⟩, hclient 1 0⟩,
      hattempt 23⟩, hattempt 21⟩, hattempt 3⟩
  have hrests : t.Rests := ⟨hanswered, hlanded⟩
  obtain ⟨hsettled, -⟩ := counts_conserved hlow hopen hproper hcourse
  exact ⟨s, t, hopen, hcourse, hrests, (hsettled hrests).1, hfailed, hdeferred, hlength⟩

end Store

end Strata
