import Strata.Proofs.Store.Ranked
import Strata.Proofs.Store.Reopening

/-!
# The newest component comes first

An index that was opened on an empty directory runs, fails now and then, and is opened again on what
is left of its files, any number of times. Whatever it comes to, its components are told apart by
their numbers and come by range, the newest first; the next number and the next stamp lie above all
of them, and no component file is ever written over another.
-/

namespace Strata

namespace Store

variable {s t : Store} {seen : String → Bytes → Prop} {chart : Chart}

/-- An index that is opened on charted files has its components by range. -/
theorem ranked_of_openOn {d d' : Directory} {options : Options} {codec : Codec}
    (hcovers : chart.Covers seen) (hword : ∀ n range, chart n = some range → n < Numeral.word)
    (hsorted : d.Sorted) (hseen : d.Within seen) (hopen : openOn options codec d = (d', .ok t)) :
    ∃ chart' listed,
      Recovery.recover options.folder (options.format codec) d.names d = (t.files, .ok listed) ∧
        Ranked t t.files.Has chart' listed listed := by
  obtain ⟨policy, components, -, hrecover, hcomponents⟩ := openOn_eq_ok_iff.1 hopen
  obtain ⟨hnewer, hcharted, hcovers'⟩ :=
    Recovery.recover_charted hcovers hword hsorted hseen hrecover
  have hordered : ∀ c ∈ components, c.range.min ≤ c.range.max := fun c hc =>
    hcovers.ordered _ _ (hcharted c hc)
  have hids : ∀ c ∈ components, c.id = c.serial := fun c hc =>
    Component.id_of_lt (hword _ _ (hcharted c hc))
  have hserials : (components.map Component.serial).Nodup := by
    refine List.pairwise_map.2 (hnewer.imp_of_mem fun {a b} ha hb hab heq => ?_)
    have hrange := hcharted a ha
    rw [heq, hcharted b hb] at hrange
    have hbelow : b.range.max < a.range.min := hab
    have := hordered b hb
    rw [Option.some.inj hrange] at hbelow this
    omega
  obtain ⟨hstamps, hcounts, -, ht⟩ := ofComponents_eq_ok_iff.1 hcomponents
  have hlow : ∀ c ∈ components, c.serial < t.nextSerial ∧ c.range.max < t.nextStamp := by
    intro c hc
    subst ht
    refine ⟨?_, Recovery.lt_above (List.mem_map_of_mem hc)⟩
    rw [← hids c hc]
    exact Recovery.lt_above (List.mem_map_of_mem hc)
  refine ⟨chart.only (components.map Component.serial), components, ?_, {
    lists := ?_
    orderly := orderly_of_ofComponents hcomponents hserials fun c hc => (hlow c hc).1
    lasts := ?_
    newer := hnewer
    bounds := fun c hc => ⟨hordered c hc, (hlow c hc).2⟩
    covers := ?_
    low := fun n range hn => ?_
    home := fun n range hn => ?_
    files := fun _ _ _ h => h
    jobs := ?_ }⟩
  · subst ht
    exact hrecover
  · subst ht
    refine Roster.lists_foldl Roster.lists_nil ?_
    rw [List.nil_append, List.map_congr_left hids]
    exact hserials
  · subst ht
    exact ⟨hcounts, hstamps⟩
  · subst ht
    exact hcovers'
  · obtain ⟨hin, hn⟩ := Chart.only_eq_some_iff.1 hn
    obtain ⟨c, hc, rfl⟩ := List.mem_map.1 hin
    obtain rfl := Option.some.inj (hn.symm.trans (hcharted c hc))
    exact hlow c hc
  · obtain ⟨hin, hn⟩ := Chart.only_eq_some_iff.1 hn
    obtain ⟨c, hc, rfl⟩ := List.mem_map.1 hin
    obtain rfl := Option.some.inj (hn.symm.trans (hcharted c hc))
    exact ⟨c, .inl hc, Range.contains_self _⟩
  · subst ht
    simp

/-- The states an index comes to that was opened on an empty directory, with the files seen since it
was last opened, as long as counts and stamps last. Merges and flushes may fail at any time, and
files that were seen may get lost and come back. -/
inductive Comes : Store → (String → Bytes → Prop) → Prop where
  | opened {options : Options} {codec : Codec} {d : Directory} {s : Store}
      (hopen : openOn options codec {} = (d, .ok s)) : Comes s s.files.Has
  | turn {s t : Store} {seen : String → Bytes → Prop} {τ : Turn} (hs : Comes s seen)
      (hproper : τ.Proper) (hfiles : ∀ d, τ = .files d → d.Within seen)
      (hturn : s.turn τ = some t) (hlasts : t.Lasts) : Comes t (t.files.SeenWith seen)
  | reopened {s t : Store} {seen : String → Bytes → Prop} {options : Options} {codec : Codec}
      {d d' : Directory} (hs : Comes s seen) (hsorted : d.Sorted) (hseen : d.Within seen)
      (hopen : openOn options codec d = (d', .ok t)) : Comes t t.files.Has

/-- A client may begin a call and take the first step of it at once. -/
theorem Comes.exists_call (hs : s.Comes seen) (hlasts : s.Lasts) {task : Task}
    (hbegins : task.Begins)
    (t : Store) (next : Task)
    (hstep : ∀ clients, stepTask { s with clients } task = some ({ t with clients }, next))
    (hlasts' : t.Lasts) : ∃ clients seen', Comes { t with clients } seen' := by
  have hcall : Comes { s with clients := s.clients ++ [task] } _ :=
    @turn s _ _ (.action (.call task)) hs hbegins (fun _ heq => nomatch heq) rfl
      ⟨hlasts.serials, hlasts.stamps⟩
  have htask : (s.clients ++ [task])[s.clients.length]? = some task := by simp
  have hclient := client_eq_some_iff.2 ⟨task, _, _, htask, hstep _, rfl⟩
  exact ⟨_, _, @turn _ _ _ (.action (.client s.clients.length)) hcall trivial
    (fun _ heq => nomatch heq) hclient ⟨hlasts'.serials, hlasts'.stamps⟩⟩

/-- Components come by range in every state an index can come to. -/
theorem ranked_of_comes (hs : s.Comes seen) :
    ∃ chart listed known, Ranked s seen chart listed known := by
  induction hs with
  | @opened options codec d s hopen =>
    obtain ⟨chart, listed, -, hr⟩ := ranked_of_openOn Chart.covers_blank (fun _ _ hn => nomatch hn)
      Directory.sorted_empty (fun _ _ _ hfile => nomatch hfile) hopen
    exact ⟨_, _, _, hr⟩
  | turn _ hproper hfiles hturn hlasts ih =>
    obtain ⟨chart, listed, known, hr⟩ := ih
    exact hr.turn hproper hfiles hturn hlasts
  | reopened _ hsorted hseen hopen ih =>
    obtain ⟨chart, listed, known, hr⟩ := ih
    obtain ⟨chart', listed', -, hr'⟩ :=
      ranked_of_openOn hr.covers (fun _ _ => hr.word) hsorted hseen hopen
    exact ⟨_, _, _, hr'⟩

/-- The newest component comes first. Numbers are all different, and the next one is above them; no
flush is in two ranges, ranges descend, and the next stamp is above them. Where a flush or a merge
writes a component file, there has been none of its name. -/
structure Recency (s : Store) : Prop where
  order : s.board.roster.order = s.board.roster.newestFirst.map Component.id
  distinct : (s.board.roster.newestFirst.map Component.id).Nodup
  descends : s.board.roster.newestFirst.Pairwise fun newer older =>
    older.range.max < newer.range.min
  bounds : ∀ c ∈ s.board.roster.newestFirst,
    c.range.min ≤ c.range.max ∧ c.range.max < s.nextStamp ∧ c.id < s.nextSerial
  flushes : ∀ t c, s.flushMemory = (t, .ok (some c)) →
    s.files.find? (FileName.ofComponent c.id c.range) = none
  merges : ∀ i job t members c, s.pool.jobOf? i = some job →
    s.stepJob job = some (t, ⟨members, .swap c⟩) →
    s.files.find? (FileName.ofComponent c.id c.range) = none

/-- In every state an index can come to, the components listed come by range, the newest first,
counts and stamps lie above theirs, and no file is written over a component file. -/
theorem recency_of_comes (hs : s.Comes seen) : s.Recency := by
  obtain ⟨chart, listed, known, hr⟩ := ranked_of_comes hs
  have hlist := Roster.newestFirst_of_lists hr.lists
  refine ⟨?_, ?_, ?_, ?_, fun t c hflush => ?_, fun i job t members c hjob hstep => ?_⟩
  · rw [hlist]
    exact hr.lists.order
  · rw [hlist]
    exact hr.lists.nodup
  · rw [hlist]
    exact hr.newer
  · rw [hlist]
    intro c hc
    have hlow : c.serial < s.nextSerial := hr.orderly.low c (hr.orderly.listed c hc)
    obtain ⟨hordered, hmax⟩ := hr.bounds c hc
    rw [Component.id_of_lt (Nat.lt_trans hlow hr.lasts.serials)]
    exact ⟨hordered, hmax, hlow⟩
  · obtain ⟨-, files, hbuild, -⟩ := flushMemory_eq_ok_iff.1 hflush
    rw [Component.id, Directory.serial_build hbuild]
    exact hr.find?_eq_none hr.next_fresh hr.lasts.serials _
  · obtain ⟨serial, tuples, range, files, hphase, -, hbuild, -⟩ := Ranked.exists_build hstep rfl
    obtain ⟨others, hothers⟩ := Pool.exists_jobs_perm hjob
    have hmem : job ∈ s.pool.jobs := hothers.mem_iff.2 List.mem_cons_self
    rw [Component.id, Directory.serial_build hbuild]
    exact hr.find?_eq_none ((hr.jobs job hmem).fresh serial tuples hphase)
      (Nat.lt_trans (taken hr.orderly hmem hphase) hr.lasts.serials) _

/-- Where one tuple was flushed after another, the component of the second one comes first, with the
newer range. -/
theorem later_flush_first :
    ∃ s seen newer older, Comes s seen ∧ s.board.roster.newestFirst = [newer, older] ∧
      newer.range = .single 1 ∧ older.range = .single 0 ∧ s.nextStamp = 2 ∧ s.Recency := by
  let codec : Codec := .plain [.varying]
  let format : Format := Options.format {} codec
  let writer : Writer := { format, draft := { codec, capacity := 4096 } }
  let empty : Memory := { budget := 4194304 }
  have hbuild : ∀ (d : Directory) serial range, ∃ d' c,
      d.build format serial range [[[107]]] = (d', .ok c) := by
    intro d serial range
    have hadd : writer.addAll [[[107]]] = ((writer.addAll [[[107]]]).1, .ok ()) :=
      Prod.ext rfl (by decide +kernel)
    obtain ⟨d', c, h, -⟩ := d.exists_build (rfl : Writer.start format = .ok writer) hadd
      (by decide +kernel) serial range
    exact ⟨d', c, h⟩
  -- one client inserts the tuple, and another one flushes
  have hnext : ∀ s seen, Comes s seen → s.format = format → s.memory = empty → s.nextStamp < 2 →
      s.nextSerial < 2 → ∃ files c clients seen', c.serial = s.nextSerial ∧
        c.range = .single s.nextStamp ∧ Comes
          { s with
            files
            board := { s.board with roster := s.board.roster.prepend c }
            memory := empty
            nextStamp := s.nextStamp + 1
            nextSerial := s.nextSerial + 1
            clients } seen' := by
    intro s seen hs hformat hmemory hstamp hserial
    have hword : 3 < Numeral.word := by decide
    have hlasts : s.nextSerial + 1 < Numeral.word ∧ s.nextStamp + 1 < Numeral.word := by omega
    have hstampWord : s.nextStamp < Numeral.word := Nat.lt_of_succ_lt hlasts.2
    have hserialWord : s.nextSerial < Numeral.word := Nat.lt_of_succ_lt hlasts.1
    obtain ⟨files, c, hbuilt⟩ := hbuild s.files s.nextSerial (.single s.nextStamp)
    rw [← hformat] at hbuilt
    obtain ⟨clients, seen', hinserted⟩ := hs.exists_call ⟨hserialWord, hstampWord⟩
      (.insert [1, 107] [[107]]) { s with memory := empty.insert [1, 107] [[107]] }
      (.returned (.ok ())) (fun clients => by simp only [stepTask, hmemory]; rfl)
      ⟨hserialWord, hstampWord⟩
    let flushed : Store :=
      { s with
        files
        board := { s.board with roster := s.board.roster.prepend c }
        memory := empty
        nextStamp := s.nextStamp + 1
        nextSerial := s.nextSerial + 1 }
    have hflush : ∀ clients, stepTask
        { s with memory := empty.insert [1, 107] [[107]], clients } .flush =
        some ({ flushed with clients }, .report c) := by
      intro clients
      have hvalues : Keyed.values (empty.insert [1, 107] [[107]]).tuples = [[[107]]] := by decide
      have hfilled : (empty.insert [1, 107] [[107]]).isEmpty = false := by decide
      simp only [stepTask, flushMemory, hfilled, hvalues, Numeral.wrapped_of_lt hstampWord, hbuilt]
      rfl
    obtain ⟨clients', seen'', hflushed⟩ := hinserted.exists_call ⟨hserialWord, hstampWord⟩ .flush
      flushed (.report c) hflush ⟨hlasts.1, hlasts.2⟩
    obtain ⟨hrange, -⟩ := Directory.tells_build hbuilt (Nat.le_refl _) hstampWord
    exact ⟨files, c, clients', seen'', Directory.serial_build hbuilt, hrange, hflushed⟩
  have hopened : Comes _ _ := .opened (openOn_empty codec)
  obtain ⟨files, older, clients, seen, holderSerial, holderRange, hfirst⟩ :=
    hnext _ _ hopened rfl rfl (by decide) (by decide)
  obtain ⟨files', newer, clients', seen', hnewerSerial, hnewerRange, hsecond⟩ :=
    hnext _ _ hfirst rfl rfl (show 1 < 2 by decide) (show 1 < 2 by decide)
  have hids : older.id = 0 ∧ newer.id = 1 := by
    rw [Component.id, Component.id, holderSerial, hnewerSerial]
    exact ⟨rfl, rfl⟩
  have hlists := Roster.lists_prepend (Roster.lists_prepend Roster.lists_nil (c := older) (by simp))
    (c := newer) (by simp [hids])
  exact ⟨_, _, newer, older, hsecond, Roster.newestFirst_of_lists hlists, hnewerRange, holderRange,
    rfl, recency_of_comes hsecond⟩

end Store

end Strata
