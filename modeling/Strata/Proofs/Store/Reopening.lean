import Strata.Proofs.Store.Merges
import Strata.Proofs.Store.Recovery

/-!
# An index that is opened again

What a crash leaves of a directory amounts to the components listed, after the results that wait
and whose files are there have been put in place. So an index that is opened on it is intact, and
finds for every key what was flushed last.
-/

namespace Strata

/-- How the component files of an index are read. -/
def Reading.ofCodec (codec : Codec) (keyFields : Nat) : Reading := ⟨codec, keyFields, Xxh3.digest⟩

/-- Options that fit ask for a key field. -/
theorem Options.keyFields_of_validate {options : Options} {policy : Policy}
    (h : options.validate = .ok policy) : 0 < options.keyFields := by
  simp only [validate, bind, Except.bind] at h
  split at h
  · contradiction
  · rename_i hcheck
    unfold check at hcheck
    split at hcheck
    · contradiction
    · split at hcheck
      · contradiction
      · split at hcheck
        · contradiction
        · rename_i hpositive
          exact Nat.pos_of_ne_zero hpositive

/-- Options with which an index of some key fields can be opened: they are valid, and there is room
for the workers. -/
structure Options.Fits (o : Options) (keyFields : Nat) : Prop where
  keyFields : o.keyFields = keyFields
  valid : ∃ policy, o.validate = .ok policy
  threads : o.threads * Pool.workerSize < Bytes.limit

/-- A merge has written its result. -/
def Job.isWritten (job : Job) : Bool :=
  match job.phase with
  | .swap _ => true
  | _ => false

namespace Store

variable {r : Reading} {s t : Store} {h : History} {listed : List Record} {known : List Component}

namespace Intact

theorem below (hi : Intact r s h listed known) :
    ∀ a ∈ h.annals, a.component.serial + 1 < Numeral.word := fun a ha =>
  Nat.lt_of_le_of_lt (hi.low a ha).1 hi.serials

/-- The result of any merge that has written it may be put in place next. -/
theorem swapNext (hi : Intact r s h listed known) {a : Record} (ha : a ∈ h.annals)
    (hwaits : s.Pends a.component) :
    ∃ s' front parts back known', listed = front ++ parts ++ back ∧
      Intact r s' h (front ++ [a] ++ back) known' ∧
      s'.pool.jobs.countP Job.isWritten < s.pool.jobs.countP Job.isWritten := by
  obtain ⟨⟨members, phase⟩, hjob, hphase⟩ := hwaits
  obtain rfl : phase = .swap a.component := hphase
  obtain ⟨before, after, hjobs⟩ := List.append_of_mem hjob
  -- it does not matter which worker is at which merge, so let one be at this
  have hqueue : ((before ++ after).map Message.run).filterMap Message.job? = before ++ after := by
    rw [List.filterMap_map]
    exact List.filterMap_some
  have hpool : (Pool.mk ((before ++ after).map Message.run)
      [.busy ⟨members, .swap a.component⟩] false).jobs.Perm s.pool.jobs := by
    rw [Pool.jobs, hqueue, hjobs]
    have hmiddle : (before ++ ⟨members, .swap a.component⟩ :: after).Perm
        (⟨members, .swap a.component⟩ :: (before ++ after)) := List.perm_middle
    exact List.perm_append_comm.trans hmiddle.symm
  obtain ⟨front, parts, back, b, roster, hlisted, hb, hcomponent, -, -, hi'⟩ :=
    (hi.passOn hpool).swapWork (i := 0) rfl
  obtain rfl : b = a := hi.annals.eq_of_serial_eq hb ha (congrArg Component.serial hcomponent)
  refine ⟨_, front, parts, back, _, hlisted, hi', ?_⟩
  show (((before ++ after).map Message.run).filterMap Message.job? ++ _).countP Job.isWritten < _
  rw [hqueue, hjobs]
  simp only [List.countP_append, List.countP_cons]
  simp [Job.isWritten, Pool.setWorker, Worker.job?]

/-- All results whose files are in a directory may be put in place. -/
theorem settle (hi : Intact r s h listed known) {d : Directory} (hlies : ∀ a ∈ listed, a.LiesIn d) :
    ∃ s' listed' known', Intact r s' h listed' known' ∧ (∀ a ∈ listed', a.LiesIn d) ∧
      ∀ a ∈ h.annals, s'.Pends a.component → ¬ a.LiesIn d := by
  obtain ⟨n, hn⟩ : ∃ n, s.pool.jobs.countP Job.isWritten ≤ n := ⟨_, Nat.le_refl _⟩
  induction n generalizing s listed known with
  | zero =>
    refine ⟨s, listed, known, hi, hlies, fun a _ hwaits => ?_⟩
    obtain ⟨job, hjob, hphase⟩ := hwaits
    have hnone := List.countP_eq_zero.1 (Nat.le_zero.1 hn) job hjob
    rw [Job.isWritten, hphase] at hnone
    contradiction
  | succ n ih =>
    by_cases hmore : ∃ a ∈ h.annals, s.Pends a.component ∧ a.LiesIn d
    · obtain ⟨a, ha, hwaits, hlies'⟩ := hmore
      obtain ⟨s', front, parts, back, known', rfl, hi', hfewer⟩ := hi.swapNext ha hwaits
      refine ih hi' (fun b hb => ?_) (by omega)
      simp only [List.mem_append, List.mem_singleton] at hb hlies
      rcases hb with (hb | rfl) | hb
      · exact hlies b (.inl (.inl hb))
      · exact hlies'
      · exact hlies b (.inr hb)
    · exact ⟨s, listed, known, hi, hlies, fun a ha hwaits hlies' => hmore ⟨a, ha, hwaits, hlies'⟩⟩

/-- The files of the components listed are in what a crash leaves. -/
theorem liesIn_of_leavesBehind (hi : Intact r s h listed known) {d : Directory}
    (hcrash : s.LeavesBehind h d) : ∀ a ∈ listed, a.LiesIn d := by
  intro a ha
  have hannals := hi.listedIn a ha
  have hname := (hi.annals.sound a hannals).file.name
  have hmem : a.component ∈ s.board.roster.newestFirst := by
    rw [Roster.newestFirst_of_lists hi.lists]
    exact List.mem_map_of_mem ha
  exact (hcrash.listed a.component hmem a.name hname).trans (hi.stored a hannals (.inl ha))

/-- Where no result that waits has its file in a directory, it amounts to the components listed. -/
theorem amountsTo_of_settled (hi : Intact r s h listed known) {d : Directory} (hsorted : d.Sorted)
    (hwritten : ∀ name file, FileName.isComponent name = true → d.find? name = some file →
      ∃ a ∈ h.annals, a.component.file = .ok name ∧ a.file = file)
    (hlies : ∀ a ∈ listed, a.LiesIn d)
    (hnone : ∀ a ∈ h.annals, s.Pends a.component → ¬ a.LiesIn d) :
    d.AmountsTo h.annals listed := by
  refine ⟨hsorted, fun name file hname hfile => ?_, hi.listedIn, hi.newer, fun a ha hin => ?_,
    fun t ht => ⟨t, hi.listedIn t ht, hlies t ht, rfl, .refl⟩⟩
  · obtain ⟨a, ha, hfile', heq⟩ := hwritten name file hname hfile
    rw [(hi.annals.sound a ha).file.name] at hfile'
    exact ⟨a, ha, Except.ok.inj hfile', heq⟩
  · obtain ⟨top, htop, hplace, hline⟩ := hi.line a ha
    rcases hplace with hlisted | hwaits
    · exact ⟨top, hlisted, hline⟩
    · -- the result is not there, so the file went into one of the members
      rcases Relation.ReflTransGen.cases_tail hline with rfl | ⟨m, hline', hinput⟩
      · exact absurd hin (hnone _ htop hwaits)
      · obtain ⟨⟨members, phase⟩, hjob, hphase⟩ := hwaits
        obtain rfl : phase = .swap top.component := hphase
        obtain ⟨-, b, hb, hcomponent, hmembers⟩ := (hi.jobs _ hjob).1
        obtain rfl : b = top :=
          hi.annals.eq_of_serial_eq hb htop (congrArg Component.serial hcomponent)
        have hmember : m.component ∈ members := by
          have hin := hinput.2.2
          rwa [hmembers] at hin
        have hheld := ((hi.orderly.admits _ (mem_parties hjob)).held _ hmember).1
        obtain ⟨m', hm', heq⟩ := List.mem_map.1 hheld
        obtain rfl := hi.annals.eq_of_serial_eq (hi.listedIn m' hm') hinput.1
          (congrArg Component.serial heq)
        exact ⟨m', hm', hline'⟩

/-- What a crash leaves amounts to records that have all that was flushed. -/
theorem amountsTo (hi : Intact r s h listed known) {d : Directory} (hcrash : s.LeavesBehind h d) :
    ∃ tops, d.AmountsTo h.annals tops ∧ ∀ key, r.newest tops key = r.newest listed key := by
  obtain ⟨s', tops, known', hi', hlies', hnone⟩ := hi.settle (hi.liesIn_of_leavesBehind hcrash)
  refine ⟨tops, hi'.amountsTo_of_settled hcrash.sorted hcrash.written hlies' hnone, fun key => ?_⟩
  rw [hi'.durable, hi.durable]

end Intact

theorem openOn_eq_ok_iff {options : Options} {codec : Codec} {d d' : Directory} :
    openOn options codec d = (d', .ok t) ↔ ∃ policy components, options.validate = .ok policy ∧
      Recovery.recover options.folder (options.format codec) d.names d = (d', .ok components) ∧
      ofComponents options policy codec d' components = .ok t := by
  constructor
  · intro h
    simp only [openOn] at h
    split at h
    · simp at h
    · rename_i policy hvalid
      split at h
      · simp at h
      · rename_i files components hrecover
        obtain ⟨rfl, hopen⟩ := Prod.mk.inj h
        exact ⟨policy, components, hvalid, hrecover, hopen⟩
  · rintro ⟨policy, components, hvalid, hrecover, hopen⟩
    simp only [openOn, hvalid, hrecover, hopen]

theorem ofComponents_eq_ok_iff {options : Options} {policy : Policy} {codec : Codec}
    {files : Directory} {components : List Component} :
    ofComponents options policy codec files components = .ok t ↔
      Recovery.above (components.map (·.range.max)) < Numeral.word ∧
      Recovery.above (components.map Component.id) < Numeral.word ∧
      options.threads * Pool.workerSize < Bytes.limit ∧
      t = {
        options
        policy
        format := options.format codec
        files
        memory := { budget := options.budget }
        board := { roster := components.foldl Roster.append {} }
        nextStamp := Recovery.above (components.map (·.range.max))
        nextSerial := Recovery.above (components.map Component.id)
        pool := .start options.threads } := by
  have hhire : ∀ {pool : Pool Job}, Pool.hire options.threads = .ok pool ↔
      options.threads * Pool.workerSize < Bytes.limit ∧ .start options.threads = pool := by
    intro pool
    unfold Pool.hire
    split
    · rename_i hroom
      simp [hroom]
    · rename_i hroom
      simp [hroom]
  simp only [ofComponents, Outcome.bind_eq_ok_iff, Outcome.ofWord_eq_ok_iff, hhire, pure,
    Except.pure, Except.ok.injEq]
  constructor
  · rintro ⟨stamp, ⟨hstamp, rfl⟩, serial, ⟨hserial, rfl⟩, pool, ⟨hroom, rfl⟩, rfl⟩
    exact ⟨hstamp, hserial, hroom, rfl⟩
  · rintro ⟨hstamp, hserial, hroom, rfl⟩
    exact ⟨_, ⟨hstamp, rfl⟩, _, ⟨hserial, rfl⟩, _, ⟨hroom, rfl⟩, rfl⟩

/-- The counts of an index that is opened lie above those of its components. -/
theorem below_of_ofComponents {options : Options} {policy : Policy} {codec : Codec}
    {files : Directory} {components : List Component}
    (hopen : ofComponents options policy codec files components = .ok t) {c : Component}
    (hc : c ∈ components) : c.id < t.nextSerial ∧ c.range.max < t.nextStamp := by
  obtain ⟨-, -, -, rfl⟩ := ofComponents_eq_ok_iff.1 hopen
  exact ⟨Recovery.lt_above (List.mem_map_of_mem hc), Recovery.lt_above (List.mem_map_of_mem hc)⟩

/-- On components that were recovered nobody has a claim yet. -/
theorem orderly_of_ofComponents {options : Options} {policy : Policy} {codec : Codec}
    {files : Directory} {components : List Component}
    (hopen : ofComponents options policy codec files components = .ok t)
    (hserials : (components.map Component.serial).Nodup)
    (hlow : ∀ c ∈ components, c.serial < t.nextSerial) :
    (t.desk components components).Orderly t.parties := by
  have hnone : t.parties = [] := by
    obtain ⟨-, -, -, rfl⟩ := ofComponents_eq_ok_iff.1 hopen
    simp [parties]
  rw [hnone]
  exact ⟨hserials, hlow, fun _ hc => hc, hserials.of_map, by simp, by simp, by simp⟩

/-- What is known of component files that were kept. -/
structure Kept (r : Reading) (annals : List Record) (d : Directory) (tops winners : List Record) :
    Prop where
  sound : Annals r annals
  amounts : d.AmountsTo annals tops
  stays : List.Forall₂ (Record.Stays annals d) tops winners

namespace Kept

variable {annals tops winners : List Record} {d : Directory}

theorem mem (h : Kept r annals d tops winners) {w : Record} (hw : w ∈ winners) :
    w ∈ annals ∧ w.LiesIn d := by
  obtain ⟨t, -, hstay⟩ := exists_left h.stays hw
  exact ⟨hstay.mem, hstay.lies⟩

theorem newer (h : Kept r annals d tops winners) : winners.Pairwise Record.Newer := by
  have hnewer : ∀ records : List Record, records.Pairwise Record.Newer ↔
      (records.map fun a => a.component.range).Pairwise fun a b => b.max < a.min :=
    fun records => by
      rw [List.pairwise_map]
      rfl
  rw [hnewer, map_eq h.stays fun _ _ hstay => hstay.range, ← hnewer]
  exact h.amounts.newer

theorem serials (h : Kept r annals d tops winners) :
    (winners.map fun w => w.component.serial).Nodup := by
  refine List.pairwise_map.2 (h.newer.imp_of_mem fun {a b} ha hb hnewer heq => ?_)
  obtain rfl := h.sound.eq_of_serial_eq (h.mem ha).1 (h.mem hb).1 heq
  have hordered := (h.sound.sound a (h.mem ha).1).file.ordered
  have hbelow : a.component.range.max < a.component.range.min := hnewer
  omega

theorem newest (h : Kept r annals d tops winners) (key : Bytes) :
    r.newest winners key = r.newest tops key := by
  refine Reading.newest_congr (map_eq h.stays fun t w hstay => ?_) key
  exact (h.sound.line_spec hstay.line).2 hstay.range

theorem lists (h : Kept r annals d tops winners)
    (hword : ∀ a ∈ annals, a.component.serial < Numeral.word) :
    ((winners.map Record.component).foldl Roster.append {}).Lists
    (winners.map Record.component) := by
  have hids : (winners.map Record.component).map Component.id =
      winners.map fun w => w.component.serial := by
    rw [List.map_map]
    refine List.map_congr_left fun w hw => ?_
    exact Component.id_of_lt (hword w (h.mem hw).1)
  refine Roster.lists_foldl Roster.lists_nil ?_
  rw [List.nil_append, hids]
  exact h.serials

/-- The annals of an index that is opened begin with the files that were kept. -/
theorem annals_reopened {h : History} (hkept : Kept r h.annals d tops winners)
    (hlist : t.board.roster.newestFirst = winners.map Record.component) :
    (h.reopened t).annals = winners.map Record.bare := by
  rw [History.reopened, hlist, List.filterMap_map, ← List.filterMap_eq_map]
  refine List.filterMap_congr fun w hw => ?_
  have hmem := (hkept.mem hw).1
  cases hfind : h.annals.find? fun a => a.component.serial = w.component.serial with
  | none =>
    have hnone := List.find?_eq_none.1 hfind w hmem
    simp at hnone
  | some a =>
    have hserial : a.component.serial = w.component.serial := by
      simpa using List.find?_some hfind
    obtain rfl := hkept.sound.eq_of_serial_eq (List.mem_of_find?_eq_some hfind) hmem hserial
    simp only [Function.comp_apply, hfind, Option.map_some]

/-- The component files left are those of the records kept. -/
theorem written (hkept : Kept r annals d tops winners) {name : String} {file : Bytes}
    (hname : FileName.isComponent name = true)
    (hfile : (d.only (Recovery.keeps winners)).find? name = some file) :
    ∃ w ∈ winners, w.name = name ∧ w.file = file := by
  rw [Directory.find?_only] at hfile
  split at hfile
  · rename_i hkeeps
    simp only [Recovery.keeps, hname, Bool.not_true, Bool.false_or, Bool.and_eq_true,
      List.any_eq_true, decide_eq_true_iff] at hkeeps
    obtain ⟨-, w, hw, rfl⟩ := hkeeps
    exact ⟨w, hw, rfl, Option.some.inj ((hkept.mem hw).2.symm.trans hfile)⟩
  · contradiction

/-- An index that is opened on the files that were kept is intact. -/
theorem intact {h : History} (hkept : Kept r h.annals d tops winners) {options : Options}
    {policy : Policy} {codec : Codec} (hformat : (options.format codec).reading = r)
    (hkeyFields : 0 < r.keyFields) (hword : ∀ a ∈ h.annals, a.component.serial < Numeral.word)
    (hdurable : ∀ key,
      r.newest tops key = Keyed.find? (Tuple.keyed r.keyFields h.durable).reverse key)
    (hopen : ofComponents options policy codec (d.only (Recovery.keeps winners))
      (winners.map Record.component) = .ok t) :
    Intact r t (h.reopened t) (winners.map Record.bare) (winners.map Record.component) := by
  have hlists := hkept.lists hword
  obtain ⟨hstamps, hserials, -, ht⟩ := ofComponents_eq_ok_iff.1 hopen
  have hannals : (h.reopened t).annals = winners.map Record.bare := by
    refine hkept.annals_reopened ?_
    rw [ht]
    exact Roster.newestFirst_of_lists hlists
  have hbare : (winners.map Record.bare).map Record.component = winners.map Record.component := by
    rw [List.map_map]
    rfl
  have hlow : ∀ w ∈ winners, w.component.serial < t.nextSerial ∧
      w.component.range.max < t.nextStamp := by
    intro w hw
    obtain ⟨hid, hrange⟩ := below_of_ofComponents hopen (List.mem_map_of_mem hw)
    rw [Component.id_of_lt (hword w (hkept.mem hw).1)] at hid
    exact ⟨hid, hrange⟩
  have hlies : ∀ w ∈ winners, w.bare.LiesIn t.files := by
    intro w hw
    subst ht
    exact (Recovery.liesIn_only hw).2 (hkept.mem hw).2
  have hserials' : ((winners.map Record.component).map Component.serial).Nodup := by
    rw [List.map_map]
    exact hkept.serials
  have horderly := orderly_of_ofComponents hopen hserials' (List.forall_mem_map.2 fun w hw =>
    (hlow w hw).1)
  exact {
    format := by
      subst ht
      exact hformat
    keyFields := hkeyFields
    annals := by
      rw [hannals]
      refine ⟨List.forall_mem_map.2 fun w hw => ?_, ?_,
        List.forall_mem_map.2 fun w _ hmembers => absurd rfl hmembers⟩
      · have hsound := hkept.sound.sound w (hkept.mem hw).1
        exact ⟨hsound.file, hsound.admits⟩
      · rw [List.map_map]
        exact hkept.serials
    lists := by
      subst ht
      rw [hbare]
      exact hlists
    orderly := hbare.symm ▸ horderly
    serials := by
      subst ht
      exact hserials
    stamps := by
      subst ht
      exact hstamps
    low := hannals ▸ List.forall_mem_map.2 hlow
    listedIn := fun a ha => hannals ▸ ha
    knownIn := fun c hc => by
      obtain ⟨w, hw, rfl⟩ := List.mem_map.1 hc
      exact ⟨w.bare, hannals ▸ List.mem_map_of_mem hw, rfl⟩
    sorted := by
      subst ht
      exact Directory.sorted_sublist hkept.amounts.sorted List.filter_sublist
    written := fun name file hname hfile => by
      have hfiles : t.files = d.only (Recovery.keeps winners) := by rw [ht]
      obtain ⟨w, hw, hsame, hfile'⟩ := hkept.written hname (hfiles ▸ hfile)
      exact ⟨w.bare, hannals ▸ List.mem_map_of_mem hw, hsame, hfile'⟩
    stored := fun a ha _ => by
      obtain ⟨w, hw, rfl⟩ := List.mem_map.1 (hannals ▸ ha)
      exact hlies w hw
    line := fun a ha => ⟨a, ha, .inl (hannals ▸ ha), .refl⟩
    newer := List.pairwise_map.2 hkept.newer
    durable := fun key => by
      have hsame : r.newest (winners.map Record.bare) key = r.newest winners key := by
        refine Reading.newest_congr ?_ key
        rw [List.map_map]
        rfl
      rw [hsame, hkept.newest]
      exact hdurable key
    memory := by
      subst ht
      rfl
    pending := by simp [History.reopened]
    jobs := by
      subst ht
      simp
    tasks := by
      subst ht
      simp
    retired := by
      subst ht
      simp }

end Kept

namespace Kept

variable {annals tops winners : List Record} {d : Directory}

/-- An index can be opened on any directory of which a recovery comes to the files that are kept. -/
theorem exists_openOn {codec : Codec} {options : Options} {keyFields stamp serial : Nat}
    {between files : Directory} (hkept : Kept r annals d tops winners)
    (hfits : options.Fits keyFields)
    (hlow : ∀ a ∈ annals, a.component.serial < serial ∧ a.component.range.max < stamp)
    (hserial : serial < Numeral.word) (hstamp : stamp < Numeral.word)
    (hrecover : Recovery.recover options.folder (options.format codec) between.names between =
      (files, .ok (winners.map Record.component))) :
    ∃ t policy, openOn options codec between = (files, .ok t) ∧
      ofComponents options policy codec files (winners.map Record.component) = .ok t ∧
      t.board.roster.newestFirst = winners.map Record.component := by
  obtain ⟨policy, hvalid⟩ := hfits.valid
  have hword : ∀ a ∈ annals, a.component.serial < Numeral.word := fun a ha =>
    Nat.lt_trans (hlow a ha).1 hserial
  have hstamps : Recovery.above ((winners.map Record.component).map (·.range.max)) ≤ stamp := by
    refine Recovery.above_le fun n hn => ?_
    rw [List.map_map] at hn
    obtain ⟨w, hw, rfl⟩ := List.mem_map.1 hn
    exact (hlow w (hkept.mem hw).1).2
  have hserials : Recovery.above ((winners.map Record.component).map Component.id) ≤ serial := by
    refine Recovery.above_le fun n hn => ?_
    rw [List.map_map] at hn
    obtain ⟨w, hw, rfl⟩ := List.mem_map.1 hn
    have hmem := (hkept.mem hw).1
    show w.component.id < serial
    rw [Component.id_of_lt (hword w hmem)]
    exact (hlow w hmem).1
  obtain ⟨t, hopen⟩ : ∃ t, ofComponents options policy codec files
      (winners.map Record.component) = .ok t :=
    ⟨_, ofComponents_eq_ok_iff.2 ⟨Nat.lt_of_le_of_lt hstamps hstamp,
      Nat.lt_of_le_of_lt hserials hserial, hfits.threads, rfl⟩⟩
  refine ⟨t, policy, openOn_eq_ok_iff.2 ⟨policy, _, hvalid, hrecover, hopen⟩, hopen, ?_⟩
  obtain ⟨-, -, -, rfl⟩ := ofComponents_eq_ok_iff.1 hopen
  exact Roster.newestFirst_of_lists (hkept.lists hword)

end Kept

/-- An index can be opened on whatever a crash leaves. -/
theorem Intact.exists_openOn {codec : Codec} {options : Options} {keyFields : Nat} {d : Directory}
    (hi : Intact (Reading.ofCodec codec keyFields) s h listed known) (hcrash : s.LeavesBehind h d)
    (hfits : options.Fits keyFields) : ∃ d' t, openOn options codec d = (d', .ok t) := by
  obtain ⟨tops, hd, -⟩ := hi.amountsTo hcrash
  obtain ⟨winners, hrecover, hstays⟩ := Recovery.recover_eq hi.annals
    (rfl : (options.format codec).codec = _) hfits.keyFields hi.below hd
  have hkept : Kept (Reading.ofCodec codec keyFields) h.annals d tops winners :=
    ⟨hi.annals, hd, hstays⟩
  obtain ⟨t, policy, hopen, -⟩ := hkept.exists_openOn hfits hi.low hi.serials hi.stamps hrecover
  exact ⟨_, t, hopen⟩

/-- An index that is opened on what amounts to records with all that was flushed is intact. -/
theorem intact_of_openOn {codec : Codec} {keyFields : Nat} {options : Options} {d d' : Directory}
    {tops : List Record} (hannals : Annals (Reading.ofCodec codec keyFields) h.annals)
    (hword : ∀ a ∈ h.annals, a.component.serial + 1 < Numeral.word)
    (hd : d.AmountsTo h.annals tops)
    (hdurable : ∀ key, (Reading.ofCodec codec keyFields).newest tops key =
      Keyed.find? (Tuple.keyed keyFields h.durable).reverse key)
    (hkey : options.keyFields = keyFields) (hopen : openOn options codec d = (d', .ok t)) :
    ∃ winners, Kept (Reading.ofCodec codec keyFields) h.annals d tops winners ∧
      d' = d.only (Recovery.keeps winners) ∧
      Intact (Reading.ofCodec codec keyFields) t (h.reopened t) (winners.map Record.bare)
        (winners.map Record.component) := by
  subst hkey
  obtain ⟨policy, components, hvalid, hrecover, hcomponents⟩ := openOn_eq_ok_iff.1 hopen
  obtain ⟨winners, hwinners, hstays⟩ := Recovery.recover_eq hannals
    (rfl : (options.format codec).codec = _) rfl hword hd
  obtain ⟨rfl, heq⟩ := Prod.mk.inj (hwinners.symm.trans hrecover)
  obtain rfl := Except.ok.inj heq
  have hkept : Kept (Reading.ofCodec codec options.keyFields) h.annals d tops winners :=
    ⟨hannals, hd, hstays⟩
  have hserial : ∀ a ∈ h.annals, a.component.serial < Numeral.word := fun a ha =>
    Nat.lt_of_succ_lt (hword a ha)
  exact ⟨winners, hkept, rfl,
    hkept.intact rfl (Options.keyFields_of_validate hvalid) hserial hdurable hcomponents⟩

theorem annals_nil (r : Reading) : Annals r [] := ⟨by simp, .nil, by simp⟩

/-- An empty directory amounts to no records. -/
theorem amountsTo_nil : ({} : Directory).AmountsTo [] [] :=
  ⟨Directory.sorted_empty, by simp [Directory.find?], by simp, .nil, by simp, by simp⟩

@[simp] theorem reopened_nil (s : Store) : History.reopened {} s = {} := by
  simp [History.reopened]

/-- An index is intact in every state it can come to. -/
theorem intact_of_reached {codec : Codec} {keyFields : Nat} (hs : Reached codec keyFields s h) :
    ∃ listed known, Intact (Reading.ofCodec codec keyFields) s h listed known := by
  induction hs with
  | @opened options d s hkey hopen =>
    obtain ⟨winners, -, -, hi⟩ := intact_of_openOn (h := {}) (annals_nil _) (by simp)
      amountsTo_nil (fun _ => rfl) hkey hopen
    rw [reopened_nil] at hi
    exact ⟨_, _, hi⟩
  | turn hs hpermits hturn hroom ih =>
    obtain ⟨listed, known, hi⟩ := ih
    exact hi.turn hpermits hturn hroom
  | reopened hs hcrash hkey hopen ih =>
    obtain ⟨listed, known, hi⟩ := ih
    obtain ⟨tops, hd, hnewest⟩ := hi.amountsTo hcrash
    obtain ⟨winners, -, -, hi'⟩ := intact_of_openOn hi.annals hi.below hd
      (fun key => (hnewest key).trans (hi.durable key)) hkey hopen
    exact ⟨_, _, hi'⟩

/-- An index that is closed leaves its directory as a crash could. -/
theorem leavesBehind_files {codec : Codec} {keyFields : Nat} (hs : Reached codec keyFields s h) :
    s.LeavesBehind h s.files := by
  obtain ⟨listed, known, hi⟩ := intact_of_reached hs
  refine ⟨hi.sorted, fun _ _ _ _ => rfl, fun name file hname hfile => ?_⟩
  obtain ⟨a, ha, rfl, rfl⟩ := hi.written name file hname hfile
  exact ⟨a, ha, (hi.annals.sound a ha).file.name, rfl⟩

/-- An index is opened on an empty directory, with any options that fit. -/
theorem openOn_nothing {options : Options} {policy : Policy} (codec : Codec)
    (hvalid : options.validate = .ok policy)
    (hroom : options.threads * Pool.workerSize < Bytes.limit) :
    openOn options codec {} = ({}, .ok {
      options
      policy
      format := options.format codec
      files := {}
      memory := { budget := options.budget }
      pool := .start options.threads }) := by
  have hrecover : Recovery.recover options.folder (options.format codec) [] {} = ({}, .ok []) := by
    simp [Recovery.recover, Recovery.collect, Recovery.freshId, Recovery.keep, Outcome.ofWord,
      Numeral.word]
  exact openOn_eq_ok_iff.2 ⟨policy, [], hvalid, hrecover,
    ofComponents_eq_ok_iff.2 ⟨by decide, by decide, hroom, rfl⟩⟩

/-- An index is opened on an empty directory, with the options it has where none are given. -/
theorem openOn_empty (codec : Codec) :
    openOn {} codec {} = ({}, .ok {
      options := {}
      policy := .runs 67108864 5
      format := Options.format {} codec
      files := {}
      memory := { budget := 4194304 }
      pool := .start 1 }) :=
  openOn_nothing codec rfl (by decide)

end Store

end Strata
