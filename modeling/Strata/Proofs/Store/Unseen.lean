import Strata.Proofs.Store.Merges
import Strata.Proofs.Store.Turns

/-!
# A merge as readers see it

A merge that nothing disturbs reads its members, writes the result and puts it in their place, or
fails on the way and leaves all as it was. At every moment a search and a scan answer as before: the
result has just what a reader finds first of its members, and stands where they stood.
-/

namespace Strata

/-- A merge that has listed its result, or will list none: what it has left to do concerns the
states of its members, reports and the policy. -/
def Job.Follows (result : Option Component) (job : Job) : Prop :=
  match job.phase with
  | .read => False
  | .number _ => False
  | .build .. => False
  | .swap _ => False
  | .retire c _ => result = some c
  | .succeed c => result = some c
  | _ => True

theorem Job.follows_phaseOf (result : Option Component) (members : List Component) (f : Failure) :
    Job.Follows result ⟨members, Job.phaseOf f⟩ := by
  cases f <;> trivial

theorem Job.Follows.usesFiles {result : Option Component} {job : Job} (h : job.Follows result) :
    job.usesFiles = false := by
  obtain ⟨members, phase⟩ := job
  cases phase with
  | read => exact h.elim
  | build serial tuples => exact h.elim
  | _ => rfl

namespace Reading

variable {r : Reading} {key : Bytes}

theorem find?_ne_none_iff {tuples : List Tuple} :
    r.find? tuples key ≠ none ↔ ∃ t ∈ tuples, r.keyOf t = key := by
  rw [find?, ne_eq, Keyed.find?_eq_none_iff]
  push Not
  constructor
  · rintro ⟨⟨k, t⟩, he, rfl⟩
    exact ⟨t, Tuple.mem_keyed_iff.1 he⟩
  · rintro ⟨t, ht, hkey⟩
    exact ⟨(key, t), Tuple.mem_keyed_iff.2 ⟨ht, hkey⟩, rfl⟩

theorem newest_ne_none_iff {records : List Record} :
    r.newest records key ≠ none ↔ ∃ a ∈ records, r.find? a.tuples key ≠ none := by
  rw [newest, ne_eq, List.findSome?_eq_none_iff]
  push Not
  rfl

end Reading

namespace Store

variable {s t u : Store} {members : List Component} {job job' : Job} {files : Directory}
  {result : Component}

/-- What readers look at is the same in two states. -/
structure LooksLike (s t : Store) : Prop where
  format : t.format = s.format
  roster : t.board.roster = s.board.roster
  memory : t.memory = s.memory
  files : ∀ name, FileName.isComponent name = true → t.files.find? name = s.files.find? name

theorem LooksLike.refl (s : Store) : s.LooksLike s := ⟨rfl, rfl, rfl, fun _ _ => rfl⟩

theorem LooksLike.trans (h : s.LooksLike t) (hu : t.LooksLike u) : s.LooksLike u where
  format := hu.format.trans h.format
  roster := hu.roster.trans h.roster
  memory := hu.memory.trans h.memory
  files name hname := (hu.files name hname).trans (h.files name hname)

theorem Quiet.looksLike (h : s.Quiet t) : s.LooksLike t :=
  ⟨h.format, h.roster, h.memory, fun _ hname => find?_of_drafted h.files hname⟩

/-- How a merge goes on by itself: it takes a step, or reading or writing fails, which may leave a
file under construction behind. -/
inductive Proceeds (s : Store) (job : Job) : Store → Job → Prop where
  | step {t : Store} {job' : Job} (hstep : s.stepJob job = some (t, job')) : Proceeds s job t job'
  | fail {files : Directory} {f : Failure} (huses : job.usesFiles = true)
      (hfiles : files = s.files ∨ ∃ name file, files = s.files.write (FileName.draft name) file) :
      Proceeds s job { s with files } { job with phase := Job.phaseOf f }

/-- Where an index and a merge of some members come to while nothing else happens. -/
inductive Alone (s : Store) (members : List Component) : Store → Job → Prop where
  | start : Alone s members s ⟨members, .read⟩
  | next {t u : Store} {job job' : Job} (h : Alone s members t job)
      (hnext : t.Proceeds job u job') : Alone s members u job'

/-- A merge of some members writes a result, and leaves a directory with its file. -/
def Writes (s : Store) (members : List Component) (files : Directory) (result : Component) : Prop :=
  ∃ range tuples, Range.span (members.map Component.range) = some range ∧
    s.merged members = .ok tuples ∧
    s.files.build s.format s.nextSerial range tuples = (files, .ok result)

/-- How far a merge of some members has come: it is about to read them, to count the result, to
write it, or to put it in their place; or it has failed, has put it there, or could not. -/
inductive Stands (s : Store) (members : List Component) : Store → Job → Prop where
  | reading : Stands s members s ⟨members, .read⟩
  | numbering {range : Range} {tuples : List Tuple}
      (hrange : Range.span (members.map Component.range) = some range)
      (hmerged : s.merged members = .ok tuples) : Stands s members s ⟨members, .number tuples⟩
  | building {range : Range} {tuples : List Tuple}
      (hrange : Range.span (members.map Component.range) = some range)
      (hmerged : s.merged members = .ok tuples) :
      Stands s members { s with nextSerial := s.nextSerial + 1 }
        ⟨members, .build s.nextSerial tuples⟩
  | swapping {files : Directory} {result : Component} (hwrites : s.Writes members files result) :
      Stands s members { s with nextSerial := s.nextSerial + 1, files } ⟨members, .swap result⟩
  | failed {t : Store} {job : Job} (hsame : s.LooksLike t) (hjob : job.Follows none) :
      Stands s members t job
  | swapped {files : Directory} {result : Component} {roster : Roster} {t : Store} {job : Job}
      (hwrites : s.Writes members files result)
      (hreplace : s.board.roster.replace (members.map Component.id) result = .ok roster)
      (hsame : LooksLike { s with files, board := { s.board with roster } } t)
      (hjob : job.Follows (some result)) : Stands s members t job
  | unswapped {files : Directory} {result : Component} {e : Error} {t : Store} {job : Job}
      (hwrites : s.Writes members files result)
      (hreplace : s.board.roster.replace (members.map Component.id) result = .error e)
      (hjob : job.Follows none) : Stands s members t job

/-- What follows the listing of a result, or a failure, is nothing that readers look at. -/
theorem follows_stepJob {listed : Option Component} (hjob : job.Follows listed)
    (hstep : s.stepJob job = some (t, job')) : s.LooksLike t ∧ job'.Follows listed := by
  have hswap : ∀ c, job.phase ≠ .swap c := by
    intro c hphase
    rw [Job.Follows, hphase] at hjob
    exact hjob
  have hbuild : ∀ serial tuples, job.phase ≠ .build serial tuples := by
    intro serial tuples hphase
    rw [Job.Follows, hphase] at hjob
    exact hjob
  have hquiet := (quiet_stepJob hswap (fun serial tuples _ h => absurd h (hbuild serial tuples))
    hstep).1
  refine ⟨hquiet.looksLike, ?_⟩
  obtain ⟨phase, new, rfl, hmerges⟩ := merges_of_stepJob hstep
  cases hmerges with
  | retire => exact hjob
  | retired => exact hjob
  | readFails => exact Job.follows_phaseOf ..
  | buildFails => exact Job.follows_phaseOf ..
  | read => exact hjob
  | number => exact hjob
  | build => exact hjob
  | swap => exact hjob.elim
  | _ => trivial

/-- A merge that goes on by itself stands in one of these ways. -/
theorem stands_of_alone (h : s.Alone members t job) : s.Stands members t job := by
  induction h with
  | start => exact .reading
  | next _ hnext ih =>
    cases ih with
    | reading =>
      cases hnext with
      | fail huses hfiles =>
        exact .failed ⟨rfl, rfl, rfl, fun _ => find?_of_drafted hfiles⟩ (Job.follows_phaseOf ..)
      | step hstep =>
        simp only [stepJob] at hstep
        split at hstep
        · obtain ⟨rfl, rfl⟩ := Prod.mk.inj (Option.some.inj hstep)
          exact .failed (.refl s) trivial
        · rename_i range hrange
          split at hstep
          · obtain ⟨rfl, rfl⟩ := Prod.mk.inj (Option.some.inj hstep)
            exact .failed (.refl s) (Job.follows_phaseOf ..)
          · rename_i tuples hmerged
            obtain ⟨rfl, rfl⟩ := Prod.mk.inj (Option.some.inj hstep)
            exact .numbering hrange hmerged
    | numbering hrange hmerged =>
      cases hnext with
      | fail huses => contradiction
      | step hstep =>
        obtain ⟨rfl, rfl⟩ := Prod.mk.inj (Option.some.inj hstep)
        exact .building hrange hmerged
    | building hrange hmerged =>
      cases hnext with
      | fail huses hfiles =>
        exact .failed ⟨rfl, rfl, rfl, fun _ => find?_of_drafted hfiles⟩ (Job.follows_phaseOf ..)
      | step hstep =>
        simp only [stepJob, Job.range?, hrange] at hstep
        split at hstep
        · rename_i files e hbuild
          obtain ⟨rfl, rfl⟩ := Prod.mk.inj (Option.some.inj hstep)
          exact .failed ⟨rfl, rfl, rfl,
            fun _ => find?_of_drafted (.inr (Directory.build_eq_error hbuild))⟩
            (Job.follows_phaseOf ..)
        · rename_i files result hbuild
          obtain ⟨rfl, rfl⟩ := Prod.mk.inj (Option.some.inj hstep)
          exact .swapping ⟨_, _, hrange, hmerged, hbuild⟩
    | swapping hwrites =>
      cases hnext with
      | fail huses => contradiction
      | step hstep =>
        simp only [stepJob] at hstep
        split at hstep
        · rename_i e hreplace
          obtain ⟨rfl, rfl⟩ := Prod.mk.inj (Option.some.inj hstep)
          exact .unswapped hwrites hreplace trivial
        · rename_i roster hreplace
          obtain ⟨rfl, rfl⟩ := Prod.mk.inj (Option.some.inj hstep)
          exact .swapped hwrites hreplace ⟨rfl, rfl, rfl, fun _ _ => rfl⟩ rfl
    | failed hsame hjob =>
      cases hnext with
      | fail huses => rw [hjob.usesFiles] at huses; contradiction
      | step hstep =>
        obtain ⟨hmore, hjob'⟩ := follows_stepJob hjob hstep
        exact .failed (hsame.trans hmore) hjob'
    | swapped hwrites hreplace hsame hjob =>
      cases hnext with
      | fail huses => rw [hjob.usesFiles] at huses; contradiction
      | step hstep =>
        obtain ⟨hmore, hjob'⟩ := follows_stepJob hjob hstep
        exact .swapped hwrites hreplace (hsame.trans hmore) hjob'
    | unswapped hwrites hreplace hjob =>
      cases hnext with
      | fail huses => rw [hjob.usesFiles] at huses; contradiction
      | step hstep => exact .unswapped hwrites hreplace (follows_stepJob hjob hstep).2

/-- A component whose file is the same is read the same. -/
theorem openComponent_congr {c : Component} {name : String} (hoptions : t.options = s.options)
    (hformat : t.format = s.format) (hname : c.file = .ok name)
    (hfile : t.files.find? name = s.files.find? name) : t.openComponent c = s.openComponent c := by
  have hread : t.files.read name = s.files.read name := by
    rw [Directory.read, hfile, Directory.read]
  simp only [openComponent, hname, Outcome.liftM_eq, Outcome.ofExcept_ok, bind, Except.bind, hread,
    path, hoptions, hformat]

/-- A merge that fails as it reads or writes touches neither the board nor any component file. -/
theorem unchanged_of_failing (h : s.Alone members t job) (huses : job.usesFiles = true)
    {f : Failure} (hnext : t.Proceeds job u { job with phase := Job.phaseOf f }) :
    u.board = s.board ∧ u.options = s.options ∧ u.format = s.format ∧
      ∀ name, FileName.isComponent name = true → u.files.find? name = s.files.find? name := by
  cases stands_of_alone h with
  | reading =>
    generalize hjob : Job.mk members (Job.phaseOf f) = job' at hnext
    cases hnext with
    | fail _ hfiles => exact ⟨rfl, rfl, rfl, fun _ => find?_of_drafted hfiles⟩
    | step hstep =>
      simp only [stepJob] at hstep
      split at hstep
      · obtain ⟨rfl, -⟩ := Prod.mk.inj (Option.some.inj hstep)
        exact ⟨rfl, rfl, rfl, fun _ _ => rfl⟩
      · split at hstep
        · obtain ⟨rfl, -⟩ := Prod.mk.inj (Option.some.inj hstep)
          exact ⟨rfl, rfl, rfl, fun _ _ => rfl⟩
        · obtain ⟨rfl, -⟩ := Prod.mk.inj (Option.some.inj hstep)
          exact ⟨rfl, rfl, rfl, fun _ _ => rfl⟩
  | building hrange hmerged =>
    generalize hjob : Job.mk members (Job.phaseOf f) = job' at hnext
    cases hnext with
    | fail _ hfiles => exact ⟨rfl, rfl, rfl, fun _ => find?_of_drafted hfiles⟩
    | step hstep =>
      simp only [stepJob, Job.range?, hrange] at hstep
      split at hstep
      · rename_i files e hbuild
        obtain ⟨rfl, -⟩ := Prod.mk.inj (Option.some.inj hstep)
        exact ⟨rfl, rfl, rfl, fun _ => find?_of_drafted (.inr (Directory.build_eq_error hbuild))⟩
      · obtain ⟨-, rfl⟩ := Prod.mk.inj (Option.some.inj hstep)
        cases f <;> cases hjob
  | numbering => contradiction
  | swapping => contradiction
  | failed _ hjob => rw [hjob.usesFiles] at huses; contradiction
  | swapped _ _ _ hjob => rw [hjob.usesFiles] at huses; contradiction
  | unswapped _ _ hjob => rw [hjob.usesFiles] at huses; contradiction

/-- What is built is a record of its own, and records of other counts stay where they lie. -/
theorem exists_record_of_build {d d' : Directory} {format : Format} {serial : Nat} {range : Range}
    {tuples : List Tuple} {c : Component}
    (hbuild : d.build format serial range tuples = (d', .ok c))
    (hadmits : format.reading.Admits tuples) (hordered : range.min ≤ range.max)
    (hmax : range.max < Numeral.word) (hserial : serial < Numeral.word)
    (hroom : c.size < Bytes.limit) :
    ∃ a : Record, a.component = c ∧ a.tuples = tuples ∧ c.serial = serial ∧ c.range = range ∧
      a.Sound format.reading ∧ a.LiesIn d' ∧
      ∀ b : Record, b.component.serial < serial → b.LiesIn d → b.LiesIn d' := by
  obtain ⟨rfl, rfl, file, hfile, rfl⟩ :=
    Directory.build_eq_ok hbuild hadmits hordered hmax hroom
  refine ⟨⟨c, file, tuples, []⟩, rfl, rfl, rfl, rfl, ⟨hfile, hadmits⟩,
    by simp [Record.LiesIn, Record.name], fun b hb hlies => ?_⟩
  have hcomponent : FileName.isComponent b.name = true := FileName.isComponent_ofComponent _ _
  rw [Record.LiesIn, Directory.find?_built _ _ hcomponent, if_neg]
  · exact hlies
  · intro hname
    exact Nat.ne_of_lt hb (Record.serial_eq_of_name_eq (a := b) (b := ⟨c, file, tuples, []⟩)
      (Nat.lt_trans hb hserial) hserial hname)

namespace Presents

variable {r : Reading} {listed front parts back : List Record}

theorem of_looksLike (hs : s.Presents r listed) (hsame : s.LooksLike t) : t.Presents r listed where
  format := by rw [hsame.format, hs.format]
  lists := by
    rw [hsame.roster]
    exact hs.lists
  sound a ha := by
    obtain ⟨hsound, hlies⟩ := hs.sound a ha
    refine ⟨hsound, ?_⟩
    rw [Record.LiesIn, Record.name, hsame.files _ (FileName.isComponent_ofComponent _ _)]
    exact hlies

/-- What a merge of a stretch of the list writes is a record of its own: the span of its members'
ranges, and for each key the newest of their tuples. The files of all components stay in place. -/
theorem record_of_writes (hs : s.Presents r (front ++ parts ++ back))
    (hlow : ∀ a ∈ front ++ parts ++ back, a.component.serial < s.nextSerial)
    (hserial : s.nextSerial < Numeral.word)
    (hwrites : s.Writes (parts.map Record.component) files result)
    (hroom : result.size < Bytes.limit) :
    ∃ a : Record, a.component = result ∧ result.serial = s.nextSerial ∧
      s.merged (parts.map Record.component) = .ok a.tuples ∧
      Range.span (parts.map fun p => p.component.range) = some result.range ∧
      (∀ key, r.find? a.tuples key = r.newest parts key) ∧
      ∀ b ∈ a :: (front ++ parts ++ back), b.Sound r ∧ b.LiesIn files := by
  obtain ⟨range, tuples, hrange, hmerged, hbuild⟩ := hwrites
  rw [List.map_map] at hrange
  obtain ⟨hne, hcovers, -, hbelow⟩ := Range.span_spec hrange
  have hparts : ∀ p ∈ parts, p.Sound r ∧ p.LiesIn s.files := fun p hp => hs.sound p (by simp [hp])
  obtain ⟨tuples', hmerged', hadmits, hyields⟩ := merged_spec hs.format hparts (by simpa using hne)
  obtain rfl := Except.ok.inj (hmerged.symm.trans hmerged')
  have hordered : range.min ≤ range.max := by
    obtain ⟨p, hp⟩ := List.exists_mem_of_ne_nil parts (by simpa using hne)
    have hp' := Range.contains_iff.1 (hcovers _ (List.mem_map_of_mem hp))
    have := (hparts p hp).1.file.ordered
    simp only [Function.comp] at hp'
    omega
  have hmax : range.max < Numeral.word := by
    refine hbelow _ fun other hother => ?_
    obtain ⟨p, hp, rfl⟩ := List.mem_map.1 hother
    exact (hparts p hp).1.file.max_lt
  rw [← hs.format] at hadmits
  obtain ⟨a, rfl, rfl, hcount, rfl, hsound, hlies, hstay⟩ :=
    exists_record_of_build hbuild hadmits hordered hmax hserial hroom
  rw [hs.format] at hsound
  refine ⟨a, rfl, hcount, hmerged, hrange, hyields, List.forall_mem_cons.2 ⟨⟨hsound, hlies⟩, ?_⟩⟩
  exact fun b hb => ⟨(hs.sound b hb).1, hstay b (hlow b hb) (hs.sound b hb).2⟩

/-- The result of a merge of a stretch of the list, put in its place, has just what a search finds
first of its members. -/
theorem presents_replaced (hs : s.Presents r (front ++ parts ++ back))
    (hlow : ∀ a ∈ front ++ parts ++ back, a.component.serial < s.nextSerial)
    (hserial : s.nextSerial < Numeral.word) {a : Record}
    (hcount : a.component.serial = s.nextSerial) (hne : parts ≠ [])
    (hstored : ∀ b ∈ a :: (front ++ parts ++ back), b.Sound r ∧ b.LiesIn files) :
    ∃ roster, s.board.roster.replace ((parts.map Record.component).map Component.id) a.component =
        .ok roster ∧
      Presents { s with files, board := { s.board with roster } } r (front ++ [a] ++ back) := by
  have hlists := hs.lists
  rw [List.map_append, List.map_append] at hlists
  have hnew : a.component.id ∉
      (front.map Record.component ++ back.map Record.component).map Component.id := by
    rw [← List.map_append, List.map_map]
    intro hmem
    obtain ⟨b, hb, hid⟩ := List.mem_map.1 hmem
    have hb' := hlow b (by
      simp only [List.mem_append] at hb ⊢
      tauto)
    have hid' : b.component.id = a.component.id := hid
    rw [Component.id_of_lt (Nat.lt_trans hb' hserial),
      Component.id_of_lt (by rw [hcount]; exact hserial), hcount] at hid'
    exact Nat.ne_of_lt hb' hid'
  obtain ⟨roster, hreplace, hlists'⟩ := Roster.replace_eq_ok hlists (by simpa using hne) hnew
  refine ⟨roster, hreplace, hs.format, ?_, fun b hb =>
    hstored b (List.mem_cons.2 (mem_of_mem_replace parts hb))⟩
  simpa using hlists'

end Presents

/-- A merge that has listed its result makes its members, which it has claimed, inactive one by one,
and succeeds. -/
theorem alone_retire {rest : List Component}
    (h : s.Alone members t ⟨members, .retire result rest⟩)
    (hclaimed : ∀ c ∈ rest, t.state c = .merging) (hserials : (rest.map Component.serial).Nodup) :
    ∃ u, s.Alone members u ⟨members, .succeed result⟩ := by
  induction rest generalizing t with
  | nil => exact ⟨t, h.next (.step rfl)⟩
  | cons c rest ih =>
    rw [List.forall_mem_cons] at hclaimed
    rw [List.map_cons, List.nodup_cons] at hserials
    have hmove := move_eq_ok_iff.2 ⟨hclaimed.1, (rfl : t.moved c .replace = _)⟩
    have hstep : t.stepJob ⟨members, .retire result (c :: rest)⟩ =
        some ({ t.moved c .replace with retired := t.retired ++ [c] },
          ⟨members, .retire result rest⟩) := by
      simp only [stepJob, hmove]
      rfl
    refine ih (h.next (.step hstep)) (fun d hd => ?_) hserials.2
    have hother : d.serial ≠ c.serial := fun heq => hserials.1 (heq ▸ List.mem_map_of_mem hd)
    exact (Lifecycle.state_set ..).trans ((if_neg hother).trans (hclaimed.2 d hd))

namespace Presents

variable {r : Reading} {front parts back : List Record}

/-- At every moment of a merge of a stretch of the list, the index lists records among which a
search finds what it found before, and all files that were listed are in place. -/
theorem of_alone (hs : s.Presents r (front ++ parts ++ back)) (hne : parts ≠ [])
    (hlow : ∀ a ∈ front ++ parts ++ back, a.component.serial < s.nextSerial)
    (hserial : s.nextSerial < Numeral.word)
    (hroom : ∀ files result, s.Writes (parts.map Record.component) files result →
      result.size < Bytes.limit)
    (h : s.Alone (parts.map Record.component) t job) :
    t.format = s.format ∧ t.memory = s.memory ∧
      (∀ a ∈ front ++ parts ++ back, a.LiesIn t.files) ∧ ∃ listed, t.Presents r listed ∧
        ∀ key, r.newest listed key = r.newest (front ++ parts ++ back) key := by
  have hstored : ∀ a ∈ front ++ parts ++ back, a.LiesIn s.files := fun a ha => (hs.sound a ha).2
  cases stands_of_alone h with
  | reading => exact ⟨rfl, rfl, hstored, _, hs, fun _ => rfl⟩
  | numbering => exact ⟨rfl, rfl, hstored, _, hs, fun _ => rfl⟩
  | building =>
    exact ⟨rfl, rfl, hstored, _, hs.of_looksLike ⟨rfl, rfl, rfl, fun _ _ => rfl⟩, fun _ => rfl⟩
  | swapping hwrites =>
    obtain ⟨a, -, -, -, -, -, hall⟩ :=
      hs.record_of_writes hlow hserial hwrites (hroom _ _ hwrites)
    rw [List.forall_mem_cons] at hall
    exact ⟨rfl, rfl, fun b hb => (hall.2 b hb).2, _, ⟨hs.format, hs.lists, hall.2⟩, fun _ => rfl⟩
  | failed hsame =>
    have ht := hs.of_looksLike hsame
    exact ⟨hsame.format, hsame.memory, fun a ha => (ht.sound a ha).2, _, ht, fun _ => rfl⟩
  | swapped hwrites hreplace hsame =>
    obtain ⟨a, rfl, hcount, -, -, hyields, hall⟩ :=
      hs.record_of_writes hlow hserial hwrites (hroom _ _ hwrites)
    obtain ⟨roster, hroster, hput⟩ := hs.presents_replaced hlow hserial hcount hne hall
    obtain rfl := Except.ok.inj (hreplace.symm.trans hroster)
    refine ⟨hsame.format, hsame.memory, fun b hb => ?_, _, hput.of_looksLike hsame,
      Reading.newest_replace hyields⟩
    have hcomponent : FileName.isComponent b.name = true := FileName.isComponent_ofComponent _ _
    rw [Record.LiesIn, hsame.files _ hcomponent]
    exact (hall b (List.mem_cons_of_mem _ hb)).2
  | unswapped hwrites hreplace =>
    obtain ⟨a, rfl, hcount, -, -, -, hall⟩ :=
      hs.record_of_writes hlow hserial hwrites (hroom _ _ hwrites)
    obtain ⟨roster, hroster, -⟩ := hs.presents_replaced hlow hserial hcount hne hall
    rw [hreplace] at hroster
    contradiction

/-- A merge that succeeds has put in the place of its members a component that covers the flushes
they cover, and has for each of their keys one tuple. -/
theorem of_succeeded (hs : s.Presents r (front ++ parts ++ back)) (hne : parts ≠ [])
    (hlow : ∀ a ∈ front ++ parts ++ back, a.component.serial < s.nextSerial)
    (hserial : s.nextSerial < Numeral.word)
    (hroom : ∀ files result, s.Writes (parts.map Record.component) files result →
      result.size < Bytes.limit)
    (h : s.Alone (parts.map Record.component) t ⟨members, .succeed result⟩) :
    t.board.roster.newestFirst =
        front.map Record.component ++ [result] ++ back.map Record.component ∧
      Range.span (parts.map fun a => a.component.range) = some result.range ∧
      ∃ tuples, t.tuplesOf result = .ok tuples ∧ Tuple.Ascending r.keyFields tuples ∧
        ∀ key, (∃ u ∈ tuples, r.keyOf u = key) ↔ ∃ a ∈ parts, ∃ u ∈ a.tuples, r.keyOf u = key := by
  cases stands_of_alone h with
  | failed _ hjob => contradiction
  | unswapped _ _ hjob => contradiction
  | swapped hwrites hreplace hsame hjob =>
    obtain rfl := Option.some.inj hjob
    obtain ⟨a, rfl, hcount, -, hspan, hyields, hall⟩ :=
      hs.record_of_writes hlow hserial hwrites (hroom _ _ hwrites)
    obtain ⟨roster, hroster, hput⟩ := hs.presents_replaced hlow hserial hcount hne hall
    obtain rfl := Except.ok.inj (hreplace.symm.trans hroster)
    have ht := hput.of_looksLike hsame
    obtain ⟨hsound, hlies⟩ := ht.sound a (by simp)
    refine ⟨?_, hspan, a.tuples, tuplesOf_eq ht.format hsound hlies, hsound.admits.ascending,
      fun key => ?_⟩
    · rw [Roster.newestFirst_of_lists ht.lists]
      simp
    · rw [← Reading.find?_ne_none_iff, hyields, Reading.newest_ne_none_iff]
      simp only [Reading.find?_ne_none_iff]

/-- A merge succeeds where its result can be written, if it has claimed its members. -/
theorem succeeds (hs : s.Presents r (front ++ parts ++ back)) (hne : parts ≠ [])
    (hlow : ∀ a ∈ front ++ parts ++ back, a.component.serial < s.nextSerial)
    (hserial : s.nextSerial < Numeral.word)
    (hwrites : s.Writes (parts.map Record.component) files result)
    (hroom : result.size < Bytes.limit)
    (hclaimed : ∀ a ∈ parts, s.state a.component = .merging) :
    ∃ t, s.Alone (parts.map Record.component) t ⟨parts.map Record.component, .succeed result⟩ := by
  obtain ⟨a, rfl, hcount, -, -, -, hall⟩ := hs.record_of_writes hlow hserial hwrites hroom
  obtain ⟨roster, hreplace, -⟩ := hs.presents_replaced hlow hserial hcount hne hall
  obtain ⟨range, tuples, hrange, hmerged, hbuild⟩ := hwrites
  have hread : s.Alone (parts.map Record.component) s
      ⟨parts.map Record.component, .number tuples⟩ := by
    refine Alone.start.next (.step ?_)
    simp only [stepJob, Job.range?, hrange, hmerged]
  have hwrite : stepJob { s with nextSerial := s.nextSerial + 1 }
      ⟨parts.map Record.component, .build s.nextSerial tuples⟩ =
        some ({ s with nextSerial := s.nextSerial + 1, files },
          ⟨parts.map Record.component, .swap a.component⟩) := by
    simp only [stepJob, Job.range?, hrange, hbuild]
  have hlist : stepJob { s with nextSerial := s.nextSerial + 1, files }
      ⟨parts.map Record.component, .swap a.component⟩ =
        some ({ s with nextSerial := s.nextSerial + 1, files, board := { s.board with roster } },
          ⟨parts.map Record.component, .retire a.component (parts.map Record.component)⟩) := by
    simp only [stepJob, Job.ids, hreplace]
  have hlisted := ((hread.next (.step rfl)).next (.step hwrite)).next (.step hlist)
  refine alone_retire hlisted (fun c hc => ?_) ?_
  · obtain ⟨p, hp, rfl⟩ := List.mem_map.1 hc
    exact hclaimed p hp
  · have hnodup := hs.lists.nodup
    rw [List.map_append, List.map_append, List.map_append, List.map_append] at hnodup
    exact List.Nodup.of_map Numeral.wrapped
      (by simpa [Component.id, Function.comp_def] using
        (List.nodup_append.1 (List.nodup_append.1 hnodup).1).2.1)

end Presents

/-- A merge that fails as it reads or writes changes neither the board nor any contents. Where an
index presents files by ascending key, a search, a lookup and a scan answer as before at every step
of a merge, whose result comes where its members stood. -/
theorem merge_unseen (s : Store) :
    (∀ members t job u f, s.Alone members t job → job.usesFiles = true →
      t.Proceeds job u { job with phase := Job.phaseOf f } →
      u.board = s.board ∧ ∀ c name, c.file = .ok name → FileName.isComponent name = true →
        u.tuplesOf c = s.tuplesOf c ∧ ∀ key, u.findIn c key = s.findIn c key) ∧
    ∀ (r : Reading) (front parts back : List Record),
      s.Presents r (front ++ parts ++ back) → parts ≠ [] →
      (∀ a ∈ front ++ parts ++ back, a.component.serial < s.nextSerial) →
      s.nextSerial < Numeral.word →
      (∀ files result, s.Writes (parts.map Record.component) files result →
        result.size < Bytes.limit) →
      (∃ range tuples, Range.span (parts.map fun a => a.component.range) = some range ∧
        s.merged (parts.map Record.component) = .ok tuples ∧
        ((∀ a ∈ parts, s.state a.component = .merging) → ∀ files result,
          s.files.build s.format s.nextSerial range tuples = (files, .ok result) →
          ∃ t, s.Alone (parts.map Record.component) t
            ⟨parts.map Record.component, .succeed result⟩)) ∧
      (∀ t job, s.Alone (parts.map Record.component) t job →
        (∀ key, t.findAmong key t.board.roster.newestFirst =
          .ok (r.newest (front ++ parts ++ back) key)) ∧
        (∀ k, t.lookup k = s.lookup k) ∧ t.scan = s.scan ∧
        ∀ a ∈ front ++ parts ++ back, t.tuplesOf a.component = .ok a.tuples) ∧
      ∀ t members result, s.Alone (parts.map Record.component) t ⟨members, .succeed result⟩ →
        t.board.roster.newestFirst =
          front.map Record.component ++ [result] ++ back.map Record.component ∧
        Range.span (parts.map fun a => a.component.range) = some result.range ∧
        ∃ tuples, t.tuplesOf result = .ok tuples ∧ Tuple.Ascending r.keyFields tuples ∧
          ∀ key, (∃ u ∈ tuples, r.keyOf u = key) ↔
            ∃ a ∈ parts, ∃ u ∈ a.tuples, r.keyOf u = key := by
  refine ⟨fun members t job u f h huses hnext => ?_,
    fun r front parts back hs hne hlow hserial hroom => ⟨?_, fun t job h => ?_, ?_⟩⟩
  · obtain ⟨hboard, hoptions, hformat, hfiles⟩ := unchanged_of_failing h huses hnext
    refine ⟨hboard, fun c name hname hcomponent => ?_⟩
    have hopen := openComponent_congr hoptions hformat hname (hfiles name hcomponent)
    simp only [tuplesOf, findIn, hopen, implies_true, and_self]
  · have hparts : ∀ p ∈ parts, p.Sound r ∧ p.LiesIn s.files := fun p hp => hs.sound p (by simp [hp])
    obtain ⟨tuples, hmerged, -⟩ := merged_spec hs.format hparts hne
    obtain ⟨p, rest, rfl⟩ := List.exists_cons_of_ne_nil hne
    refine ⟨_, tuples, rfl, hmerged, fun hclaimed files result hbuild => ?_⟩
    have hwrites : s.Writes ((p :: rest).map Record.component) files result :=
      ⟨_, tuples, by rw [List.map_map]; rfl, hmerged, hbuild⟩
    exact hs.succeeds hne hlow hserial hwrites (hroom _ _ hwrites) hclaimed
  · obtain ⟨hformat, hmemory, hstored, listed, ht, hnewest⟩ :=
      hs.of_alone hne hlow hserial hroom h
    obtain ⟨hlookup, hscan⟩ := hs.lookup_scan_congr ht hformat hmemory hnewest
    refine ⟨fun key => ?_, hlookup, hscan, fun a ha => ?_⟩
    · rw [ht.findAmong_newestFirst, hnewest]
    · exact tuplesOf_eq ht.format (hs.sound a ha).1 (hstored a ha)
  · exact fun t members result h => hs.of_succeeded hne hlow hserial hroom h

/-- Of two components with a tuple under one key, the newer one's tuple is found before their merge
and after it. The older one's tuple under another key stays. -/
theorem newer_tuple_outlives_merge :
    ∃ (s : Store) (newer older : Component) (t : Store) (result : Component),
      s.board.roster.newestFirst = [newer, older] ∧
      s.tuplesOf newer = .ok [[[107], [2]]] ∧
      s.tuplesOf older = .ok [[[107], [1]], [[108], [1]]] ∧
      s.Alone [newer, older] t ⟨[newer, older], .succeed result⟩ ∧
      t.board.roster.newestFirst = [result] ∧ t.scan = s.scan ∧
      t.findAmong [1, 107] [result] = .ok (some [[107], [2]]) := by
  let format : Format := Options.format {} (.plain [.varying, .varying])
  let writer : Writer :=
    { format, draft := { codec := .plain [.varying, .varying], capacity := 4096 } }
  have hbuild : ∀ (d : Directory) (serial : Nat) (range : Range) (tuples : List Tuple),
      (writer.addAll tuples).2 = .ok () →
      (writer.addAll tuples).1.closeBlock.written.length +
        ((writer.addAll tuples).1.closeBlock.entries.flatMap IndexEntry.encode).length < 2 ^ 31 →
      Bloom.validRate (writer.addAll tuples).1.closeBlock.format.rate = true →
      ∃ d' c, d.build format serial range tuples = (d', .ok c) ∧ c.size < Bytes.limit := by
    intro d serial range tuples hadd hsmall hrate
    have hstart : Writer.start format = .ok writer := rfl
    have hall : writer.addAll tuples = ((writer.addAll tuples).1, .ok ()) := Prod.ext rfl hadd
    obtain ⟨d', c, hbuild, hsize⟩ := d.exists_build hstart hall hrate serial range
    have hlimit : Bytes.limit = 2 ^ 63 := rfl
    exact ⟨d', c, hbuild, by omega⟩
  have hadmits : ∀ tuples : List Tuple, (∀ t ∈ tuples, t.length = 2) →
      (∀ t ∈ tuples, (format.codec.write t (Bytes.zeros 5) 0).2 = .ok 5) →
      Tuple.Ascending 1 tuples → (∀ t ∈ tuples, (format.reading.keyOf t).length < 2 ^ 32) →
      format.reading.Admits tuples := fun tuples hlength hwrite hascending hkeys =>
    ⟨by decide, fun t ht => Codec.keeps_of_write (hlength t ht) (hwrite t ht), hascending, hkeys⟩
  obtain ⟨d, older, hbuildOlder, hsizeOlder⟩ := hbuild {} 0 (.single 0) [[[107], [1]], [[108], [1]]]
    (by decide +kernel) (by decide +kernel) (by decide +kernel)
  obtain ⟨d', newer, hbuildNewer, hsizeNewer⟩ := hbuild d 1 (.single 1) [[[107], [2]]]
    (by decide +kernel) (by decide +kernel) (by decide +kernel)
  obtain ⟨old, rfl, holdTuples, holdSerial, holdRange, holdSound, holdLies, -⟩ :=
    exists_record_of_build hbuildOlder
      (hadmits _ (by decide) (by decide +kernel) (by decide +kernel) (by decide +kernel))
      (Nat.le_refl _) (by decide) (by decide) hsizeOlder
  obtain ⟨new, rfl, hnewTuples, hnewSerial, hnewRange, hnewSound, hnewLies, hstay⟩ :=
    exists_record_of_build hbuildNewer
      (hadmits _ (by decide) (by decide +kernel) (by decide +kernel) (by decide +kernel))
      (Nat.le_refl _) (by decide) (by decide) hsizeNewer
  let s : Store := {
    options := {}
    policy := .never
    format := format
    files := d'
    memory := { budget := 4194304 }
    board := {
      roster := [new.component, old.component].foldl Roster.append {}
      states := (({} : Lifecycle).set 0 .merging).set 1 .merging }
    nextSerial := 2
    pool := .start 1 }
  have hs : s.Presents format.reading ([] ++ [new, old] ++ []) := by
    refine ⟨rfl, Roster.lists_foldl Roster.lists_nil ?_, ?_⟩
    · show [Numeral.wrapped new.component.serial, Numeral.wrapped old.component.serial].Nodup
      rw [hnewSerial, holdSerial]
      decide
    · simp only [List.nil_append, List.append_nil, List.forall_mem_cons, List.not_mem_nil,
        false_implies, implies_true, and_true]
      exact ⟨⟨hnewSound, hnewLies⟩, holdSound, hstay old (by omega) holdLies⟩
  have hvalues : Keyed.values (format.reading.overlay [] [new, old].reverse) =
      [[[107], [2]], [[108], [1]]] := by
    simp only [Reading.overlay, List.reverse_cons, List.reverse_nil, List.nil_append,
      List.singleton_append, List.foldl_cons, List.foldl_nil, hnewTuples, holdTuples]
    decide +kernel
  have hmerged : s.merged ([new, old].map Record.component) = .ok [[[107], [2]], [[108], [1]]] := by
    rw [merged_eq hs.format fun a ha => hs.sound a (by simpa using ha), hvalues]
  have hwritten : ∀ range, ∃ files result, s.files.build s.format s.nextSerial range
      [[[107], [2]], [[108], [1]]] = (files, .ok result) ∧ result.size < Bytes.limit := fun range =>
    hbuild d' 2 range _ (by decide +kernel) (by decide +kernel) (by decide +kernel)
  have hlow : ∀ a ∈ [] ++ [new, old] ++ [], a.component.serial < s.nextSerial := by
    simp only [List.nil_append, List.append_nil, List.forall_mem_cons, List.not_mem_nil,
      false_implies, implies_true, and_true, hnewSerial, holdSerial]
    show 1 < 2 ∧ 0 < 2
    decide
  have hserial : s.nextSerial < Numeral.word := by
    show 2 < Numeral.word
    decide
  have hroom : ∀ files result, s.Writes ([new, old].map Record.component) files result →
      result.size < Bytes.limit := by
    rintro files result ⟨range, tuples, -, hmerged', hbuilt⟩
    obtain rfl := Except.ok.inj (hmerged.symm.trans hmerged')
    obtain ⟨files', result', hbuilt', hsize⟩ := hwritten range
    rw [hbuilt'] at hbuilt
    obtain rfl := Except.ok.inj (Prod.mk.inj hbuilt).2
    exact hsize
  obtain ⟨⟨range, tuples, -, hread, hsucceeds⟩, hseen, hresult⟩ :=
    (merge_unseen s).2 format.reading [] [new, old] [] hs (by simp) hlow hserial hroom
  obtain rfl := Except.ok.inj (hmerged.symm.trans hread)
  obtain ⟨files, result, hbuilt, -⟩ := hwritten range
  have hclaimed : ∀ a ∈ [new, old], s.state a.component = .merging := by
    simp only [List.forall_mem_cons, List.not_mem_nil, false_implies, implies_true, and_true]
    rw [state, Board.state, state, Board.state, hnewSerial, holdSerial]
    show ((({} : Lifecycle).set 0 .merging).set 1 .merging).state 1 = .merging ∧
      ((({} : Lifecycle).set 0 .merging).set 1 .merging).state 0 = .merging
    decide
  obtain ⟨t, ht⟩ := hsucceeds hclaimed files result hbuilt
  obtain ⟨hfind, -, hscan, -⟩ := hseen t _ ht
  obtain ⟨hlist, -⟩ := hresult t _ result ht
  have hstart := (hseen s _ .start).2.2.2
  refine ⟨s, new.component, old.component, t, result, Roster.newestFirst_of_lists hs.lists, ?_, ?_,
    ht, hlist, hscan, ?_⟩
  · rw [hstart new (by simp), hnewTuples]
  · rw [hstart old (by simp), holdTuples]
  · have hkey := hfind [1, 107]
    rw [hlist] at hkey
    refine hkey.trans ?_
    rw [List.nil_append, List.append_nil, Reading.newest_cons, Reading.newest_cons, hnewTuples,
      holdTuples]
    exact congrArg Except.ok (by decide +kernel)

end Store

end Strata
