import Strata.Proofs.Component.Rejection
import Strata.Proofs.Store.Lone
import Strata.Proofs.Store.Reopening
import Strata.Store.Running

/-!
# Insertions that break no precondition

An index asks its codec how many bytes a tuple takes before the codec checks the tuple. So a tuple
that has all key fields and lacks a field that the codec stores breaks a precondition, where it
should be turned away. Every other tuple is taken into memory under its key bytes, or turned away
by an error while nothing has changed. Since memory then holds only tuples that the codec stores, a
flush of it can fail and still breaks no precondition, as long as there is room for a block.
-/

namespace Strata

/-- The call of a client, seen from the tuple it brings or the answer it gives: the tuple has been
accepted, and the answer breaks no precondition, but for want of room for a block. -/
def Task.Vetted (format : Format) : Task → Prop
  | .insert key tuple => key = format.keyOf tuple ∧ format.codec.Stores tuple
  | .returned answer => answer = .error .breach → Bytes.limit ≤ format.blockSize
  | _ => True

namespace Store

variable {s t : Store} {tuple : Tuple}

/-- What an index makes of a tuple: it lacks a field beside those of the key, it is turned away, or
it is accepted under its key bytes. -/
theorem accept_cases (s : Store) (tuple : Tuple) :
    (s.format.keyFields ≤ tuple.length ∧ s.format.codec.Lacks tuple) ∧
        s.accept tuple = .error .breach ∨
      ¬ (s.format.keyFields ≤ tuple.length ∧ s.format.codec.Lacks tuple) ∧
        ((∃ e, e.TurnsAway ∧ s.accept tuple = .error (.error e)) ∨
          s.format.codec.Stores tuple ∧ s.accept tuple = .ok (s.format.keyOf tuple)) := by
  by_cases hkey : tuple.length < s.format.keyFields
  · have hrefused : s.accept tuple =
        .error (.error (.fieldRange 0 s.format.keyFields tuple.length)) := by
      rw [accept, keyOf, if_pos hkey]
      rfl
    exact .inr ⟨fun h => Nat.not_le.2 hkey h.1, .inl ⟨_, .fieldRange _ _ _, hrefused⟩⟩
  · have hkeyOf : s.keyOf tuple = .ok (s.format.keyOf tuple) := if_neg hkey
    rcases s.format.codec.required_cases tuple with ⟨hlacks, hbreach⟩ | ⟨hlacks, n, hn⟩
    · refine .inl ⟨⟨Nat.not_lt.1 hkey, hlacks⟩, ?_⟩
      rw [accept, hkeyOf, hbreach]
      rfl
    · refine .inr ⟨fun h => hlacks h.2, ?_⟩
      rcases s.format.codec.stores_or_turnsAway tuple with hstores | ⟨e, he, hwrite⟩
      · refine .inr ⟨hstores, ?_⟩
        rw [accept, hkeyOf, hstores.required]
        simp only [bind, Except.bind, hstores.write]
        rw [Stored.put_of_le (by simp)]
        rfl
      · refine .inl ⟨e, he, ?_⟩
        rw [accept, hkeyOf, hn]
        simp only [bind, Except.bind, hwrite]
        rfl

/-- Memory holds tuples that the codec stores, by their key bytes, and the filters of files can be
sized. -/
structure Vetted (s : Store) : Prop where
  rate : Bloom.validRate s.format.rate = true
  ascending : Keyed.Ascending s.memory.tuples
  stores : ∀ e ∈ s.memory.tuples, e.1 = s.format.keyOf e.2 ∧ s.format.codec.Stores e.2

/-- An index that has just been opened holds nothing in memory. -/
theorem vetted_of_openOn {options : Options} {codec : Codec} {d d' : Directory}
    (hopen : openOn options codec d = (d', .ok s)) :
    s.Vetted ∧ s.clients = [] ∧ s.format = options.format codec := by
  obtain ⟨policy, components, hvalid, -, hcomponents⟩ := openOn_eq_ok_iff.1 hopen
  obtain ⟨-, -, -, rfl⟩ := ofComponents_eq_ok_iff.1 hcomponents
  refine ⟨⟨?_, by simp [Keyed.Ascending], by simp⟩, rfl, rfl⟩
  have hcheck : options.check = .ok () := by
    cases hcheck : options.check with
    | error e => simp [Options.validate, hcheck, bind, Except.bind] at hvalid
    | ok u => rfl
  rw [Options.check] at hcheck
  split at hcheck
  · contradiction
  · split at hcheck
    · contradiction
    · rename_i hrate
      simpa [Options.format] using hrate

/-- What matters of an index here are its format and its memory. -/
theorem Vetted.congr (h : s.Vetted) (hformat : t.format = s.format)
    (hmemory : t.memory = s.memory) : t.Vetted := by
  constructor
  · rw [hformat]
    exact h.rate
  · rw [hmemory]
    exact h.ascending
  · rw [hmemory, hformat]
    exact h.stores

/-- A tuple that has been accepted may be put into memory. -/
theorem Vetted.remember (h : s.Vetted) {key : Bytes} (hkey : key = s.format.keyOf tuple)
    (hstores : s.format.codec.Stores tuple) :
    { s with memory := s.memory.insert key tuple }.Vetted := by
  refine ⟨h.rate, Keyed.ascending_insert h.ascending key tuple, ?_⟩
  intro e he
  rcases Keyed.mem_insert he with rfl | he
  · exact ⟨hkey, hstores⟩
  · exact h.stores e he

/-- A flush of what memory holds breaks a precondition just where there is no room for a block. -/
theorem Vetted.flushMemory_eq_breach_iff (h : s.Vetted) (hmemory : s.memory.isEmpty = false) :
    s.flushMemory.2 = .error .breach ↔ Bytes.limit ≤ s.format.blockSize := by
  have hstores : ∀ t ∈ Keyed.values s.memory.tuples, s.format.codec.Stores t := by
    intro t ht
    obtain ⟨e, he, rfl⟩ := List.mem_map.1 ht
    exact (h.stores e he).2
  have hord : Tuple.Ordered s.format.keyFields (Keyed.values s.memory.tuples) := by
    refine List.pairwise_map.2 (h.ascending.imp_of_mem ?_)
    intro a b ha hb hlt
    rw [(h.stores a ha).1, (h.stores b hb).1] at hlt
    exact Ordering.isLE_of_eq_lt hlt
  rw [← s.files.build_eq_breach_iff s.nextSerial (.single (Numeral.wrapped s.nextStamp)) h.rate
    hstores hord]
  simp only [flushMemory, hmemory, Bool.false_eq_true, if_false]
  split <;> rename_i hbuild <;> simp [hbuild]

/-- A flush leaves memory as it was, or nothing in it. -/
theorem Vetted.flushMemory (h : s.Vetted) : s.flushMemory.1.Vetted := by
  unfold Store.flushMemory
  split
  · exact h
  · dsimp only
    split
    · exact h.congr rfl rfl
    · exact ⟨h.rate, by simp [Memory.clear, Keyed.Ascending], by simp [Memory.clear]⟩

/-- A flush that fails breaks no precondition, but for want of room for a block. -/
theorem Vetted.stepFlush (h : s.Vetted) {task' : Task}
    (hstep : s.stepTask .flush = some (t, task')) :
    t.Vetted ∧ t.format = s.format ∧ t.clients = s.clients ∧ task'.Vetted s.format := by
  have hflushed := h.flushMemory
  obtain ⟨files, roster, memory, stamp, serial, hframe⟩ := s.flushMemory_frame
  have hformat : s.flushMemory.1.format = s.format := by rw [hframe]
  have hclients : s.flushMemory.1.clients = s.clients := by rw [hframe]
  simp only [Store.stepTask] at hstep
  split at hstep <;> rename_i hanswer <;> rw [hanswer] at hflushed hformat hclients <;>
    obtain ⟨rfl, rfl⟩ := Prod.mk.inj (Option.some.inj hstep) <;>
    refine ⟨hflushed, hformat, hclients, ?_⟩
  · intro hbreach
    obtain rfl := Except.error.inj hbreach
    have hmemory : s.memory.isEmpty = false := by
      by_contra hempty
      rw [Store.flushMemory, if_pos (by simpa using hempty)] at hanswer
      simp at hanswer
    exact (h.flushMemory_eq_breach_iff hmemory).1 (by rw [hanswer])
  · intro hbreach
    contradiction
  · trivial

/-- The call of a client goes on as it should: what it brings and what it answers stay vetted. -/
theorem Vetted.stepTask (h : s.Vetted) {task task' : Task} (htask : task.Vetted s.format)
    (hstep : s.stepTask task = some (t, task')) :
    t.Vetted ∧ t.format = s.format ∧ t.clients = s.clients ∧ task'.Vetted s.format := by
  have hfine : Task.Vetted s.format (.returned (.ok ())) := by
    intro hbreach
    contradiction
  rcases task.inserts_or_flushes_or_neither with ⟨key, tuple, rfl⟩ | rfl | ⟨hinsert, hflush⟩
  · obtain ⟨rfl, rfl⟩ := Prod.mk.inj (Option.some.inj hstep)
    refine ⟨h.remember htask.1 htask.2, rfl, rfl, ?_⟩
    split
    · trivial
    · exact hfine
  · exact h.stepFlush hstep
  -- Every other step leaves memory alone, and gives no answer but that of the policy.
  obtain ⟨hunmoved, -⟩ := unmoved_stepTask hstep hinsert hflush
  refine ⟨h.congr hunmoved.format hunmoved.memory, hunmoved.format, hunmoved.clients, ?_⟩
  obtain ⟨new, hcalls⟩ := calls_of_stepTask hstep
  cases hcalls with
  | insert htask => exact absurd rfl (hinsert _ _)
  | flushFails => exact absurd rfl hflush
  | flushNone => exact hfine
  | requested htask => rcases htask with rfl | rfl <;> trivial
  | newestNone => exact hfine
  | @consulted k answer hanswer =>
    intro hbreach
    cases answer <;> simp at hbreach
  | draining htask =>
    rcases htask with rfl | rfl
    · exact hfine
    · trivial
  | drowse htask => rcases htask with rfl | rfl <;> trivial
  | _ => trivial

/-- Merges touch neither memory nor calls. -/
theorem Vetted.work (h : s.Vetted) {i : Nat} (hwork : s.work i = some t) :
    t.Vetted ∧ t.format = s.format ∧ t.clients = s.clients := by
  obtain ⟨job, s', job', -, hstep, rfl⟩ := work_eq_some_iff.1 hwork
  obtain ⟨phase, new, rfl, hmerges⟩ := merges_of_stepJob hstep
  have hframe : s'.format = s.format ∧ s'.memory = s.memory ∧ s'.clients = s.clients := by
    cases hmerges with
    | consult hconsults =>
      obtain ⟨full, count, states, tracker, metrics, pool, rfl⟩ := frame_consults hconsults
      exact ⟨rfl, rfl, rfl⟩
    | _ => exact ⟨rfl, rfl, rfl⟩
  obtain ⟨hformat, hmemory, hclients⟩ := hframe
  exact ⟨h.congr hformat hmemory, hformat, hclients⟩

/-- Acceptance is a matter of the format. -/
theorem accept_congr (hformat : t.format = s.format) (tuple : Tuple) :
    t.accept tuple = s.accept tuple := by
  rw [accept, accept, keyOf, keyOf, hformat]

/-- The turns that clients, workers and the file system take: a tuple that is inserted has been
accepted, and where the file system fails, that is an error. -/
def Admits (s : Store) : Turn → Prop
  | .action (.call (.insert key tuple)) => s.accept tuple = .ok key
  | .failFlush _ f => f ≠ .breach
  | τ => τ.Proper

theorem vetted_of_accept {key : Bytes} (h : s.accept tuple = .ok key) :
    Task.Vetted s.format (.insert key tuple) := by
  rcases s.accept_cases tuple with ⟨-, hbreach⟩ | ⟨-, ⟨e, -, herror⟩ | ⟨hstores, hok⟩⟩
  · rw [hbreach] at h
    contradiction
  · rw [herror] at h
    contradiction
  · exact ⟨(Except.ok.inj (hok.symm.trans h)).symm, hstores⟩

/-- A turn leaves memory and all calls vetted. -/
theorem Vetted.turn (h : s.Vetted) (hclients : ∀ task ∈ s.clients, task.Vetted s.format)
    {τ : Turn} (hadmits : s.Admits τ) (hturn : s.turn τ = some t) :
    t.Vetted ∧ t.format = s.format ∧ ∀ task ∈ t.clients, task.Vetted t.format := by
  have hset : ∀ {u : Store} {i : Nat} {task : Task}, u.Vetted → u.format = s.format →
      u.clients = s.clients → task.Vetted s.format →
      { u with clients := u.clients.set i task }.Vetted ∧ u.format = s.format ∧
        ∀ task' ∈ u.clients.set i task, task'.Vetted u.format := by
    intro u i task hu hformat hsame htask
    refine ⟨hu.congr rfl rfl, hformat, ?_⟩
    intro task' hmem
    rw [hformat]
    rcases List.mem_or_eq_of_mem_set hmem with hmem | rfl
    · rw [hsame] at hmem
      exact hclients task' hmem
    · exact htask
  cases τ with
  | action a =>
    cases a with
    | call task =>
      obtain rfl := Option.some.inj hturn
      refine ⟨h.congr rfl rfl, rfl, ?_⟩
      intro task' hmem
      rcases List.mem_append.1 hmem with hmem | hmem
      · exact hclients task' hmem
      · obtain rfl := List.mem_singleton.1 hmem
        cases task' with
        | insert key tuple => exact vetted_of_accept hadmits
        | returned answer => cases hadmits
        | _ => trivial
    | client i =>
      obtain ⟨task, u, task', htask, hstep, rfl⟩ := client_eq_some_iff.1 hturn
      obtain ⟨hu, hformat, hsame, htask'⟩ :=
        h.stepTask (hclients task (List.mem_of_getElem? htask)) hstep
      exact hset hu hformat hsame htask'
    | take i =>
      obtain ⟨pool, -, rfl⟩ := Option.map_eq_some_iff.1 hturn
      exact ⟨h.congr rfl rfl, rfl, hclients⟩
    | work i =>
      obtain ⟨ht, hformat, hsame⟩ := h.work hturn
      rw [hsame, hformat]
      exact ⟨ht, rfl, hclients⟩
    | reap serial =>
      simp only [Store.turn, step, reap, bind, Option.bind_eq_some_iff, pure,
        Option.some.injEq] at hturn
      obtain ⟨c, -, name, -, rfl⟩ := hturn
      exact ⟨h.congr rfl rfl, rfl, hclients⟩
    | shutdown =>
      obtain rfl := Option.some.inj hturn
      exact ⟨h.congr rfl rfl, rfl, hclients⟩
  | files d =>
    obtain rfl := Option.some.inj hturn
    exact ⟨h.congr rfl rfl, rfl, hclients⟩
  | failMerge i f =>
    obtain ⟨job, -, -, rfl⟩ := failMerge_eq_some_iff.1 hturn
    exact ⟨h.congr rfl rfl, rfl, hclients⟩
  | failFlush i f =>
    obtain ⟨-, -, rfl⟩ := failFlush_eq_some_iff.1 hturn
    have hcounted :
        { s with nextStamp := s.nextStamp + 1, nextSerial := s.nextSerial + 1 }.Vetted :=
      h.congr rfl rfl
    refine hset hcounted rfl rfl ?_
    intro hbreach
    exact absurd (Except.error.inj hbreach) hadmits

theorem admits_congr (hformat : t.format = s.format) {τ : Turn} : t.Admits τ ↔ s.Admits τ := by
  cases τ with
  | action a =>
    cases a with
    | call task =>
      cases task with
      | insert key tuple => rw [Admits, Admits, accept_congr hformat]
      | _ => exact Iff.rfl
    | _ => exact Iff.rfl
  | _ => exact Iff.rfl

/-- So does a course of turns. -/
theorem Vetted.course (h : s.Vetted) (hclients : ∀ task ∈ s.clients, task.Vetted s.format)
    {turns : List Turn} (hadmits : ∀ τ ∈ turns, s.Admits τ) (hcourse : s.course turns = some t) :
    t.Vetted ∧ t.format = s.format ∧ ∀ task ∈ t.clients, task.Vetted t.format := by
  induction turns generalizing s with
  | nil =>
    obtain rfl := Option.some.inj hcourse
    exact ⟨h, rfl, hclients⟩
  | cons τ rest ih =>
    obtain ⟨u, hturn, hrest⟩ := Option.bind_eq_some_iff.1 hcourse
    rw [List.forall_mem_cons] at hadmits
    obtain ⟨hu, hformat, hothers⟩ := h.turn hclients hadmits.1 hturn
    obtain ⟨ht, hformat', hlast⟩ :=
      ih hu hothers (fun τ hτ => (admits_congr hformat).2 (hadmits.2 τ hτ)) hrest
    exact ⟨ht, hformat'.trans hformat, hlast⟩

theorem Vetted.stepWorkers (h : s.Vetted) (hstep : s.stepWorkers = some t) :
    t.Vetted ∧ t.format = s.format := by
  obtain ⟨i, -, hi⟩ := List.exists_of_findSome?_eq_some hstep
  cases hwork : s.work i with
  | some u =>
    rw [hwork] at hi
    obtain rfl := Option.some.inj hi
    obtain ⟨hu, hformat, -⟩ := h.work hwork
    exact ⟨hu, hformat⟩
  | none =>
    rw [hwork] at hi
    obtain ⟨pool, -, rfl⟩ := Option.map_eq_some_iff.1 hi
    exact ⟨h.congr rfl rfl, rfl⟩

/-- A call that is made alone, workers going on where it waits, gives a vetted answer. -/
theorem Vetted.runTask (h : s.Vetted) {task : Task} (htask : task.Vetted s.format) (count : Nat)
    (hbreach : (s.runTask count task).2 = .returned (.error .breach)) :
    Bytes.limit ≤ s.format.blockSize := by
  induction count generalizing s task with
  | zero => simp [Store.runTask] at hbreach
  | succ count ih =>
    rw [Store.runTask] at hbreach
    split at hbreach
    · rename_i answer hanswer
      obtain rfl : task = .returned answer := by
        cases task <;> simp_all [Task.answer?]
      exact htask (Verdict.returned.inj hbreach)
    · split at hbreach
      · rename_i u task' hstep
        obtain ⟨hu, hformat, -, htask'⟩ := h.stepTask htask hstep
        rw [← hformat] at htask' ⊢
        exact ih hu htask' hbreach
      · split at hbreach
        · rename_i u hstep
          obtain ⟨hu, hformat⟩ := h.stepWorkers hstep
          rw [← hformat] at htask ⊢
          exact ih hu htask hbreach
        · simp at hbreach

/-- In every state an index comes to, a tuple with all key fields that lacks a field the codec
stores breaks a precondition. Any other is turned away by an error, and nothing has changed, or the
first step of the call puts it into memory under its key bytes. -/
theorem insert_accepts_or_turnsAway {options : Options} {codec : Codec} {d d' : Directory}
    (hopen : openOn options codec d = (d', .ok s)) {turns : List Turn}
    (hadmits : ∀ τ ∈ turns, s.Admits τ) (hcourse : s.course turns = some t) (tuple : Tuple) :
    (t.accept tuple = .error .breach ↔
      options.keyFields ≤ tuple.length ∧ codec.Lacks tuple) ∧
    (∀ f, t.accept tuple = .error f → t.insert tuple = (t, .returned (.error f)) ∧
      (f = .breach ∨ ∃ e, f = .error e ∧ e.TurnsAway)) ∧
    (∀ key, t.accept tuple = .ok key → key = tuple.keyBytes options.keyFields ∧
      t.insert tuple = t.perform (.insert key tuple) ∧
      (∃ task, (task = .flush ∨ task = .returned (.ok ())) ∧ t.stepTask (.insert key tuple) =
        some ({ t with memory := t.memory.insert key tuple }, task)) ∧
      (t.memory.insert key tuple).get? key = some tuple ∧
      ((t.insert tuple).2 = .returned (.error .breach) → Bytes.limit ≤ options.blockSize)) ∧
    (.returned (.error .breach) ∈ t.clients → Bytes.limit ≤ options.blockSize) ∧
    (t.memory.isEmpty = false →
      (t.flushMemory.2 = .error .breach ↔ Bytes.limit ≤ options.blockSize)) ∧
    ∀ draft : Draft, draft.codec = codec →
      ((draft.add tuple).2 = .error .breach ↔ codec.Lacks tuple) := by
  obtain ⟨hopened, hnone, hformat⟩ := vetted_of_openOn hopen
  obtain ⟨ht, hsame, hclients⟩ := hopened.course (by simp [hnone]) hadmits hcourse
  rw [hformat] at hsame
  have hcases := t.accept_cases tuple
  rw [hsame] at hcases hclients
  refine ⟨?_, ?_, ?_, ?_, ?_, ?_⟩
  · rcases hcases with ⟨hlacks, hbreach⟩ | ⟨hlacks, ⟨e, -, herror⟩ | ⟨-, hok⟩⟩
    · exact iff_of_true hbreach hlacks
    · exact iff_of_false (by simp [herror]) hlacks
    · exact iff_of_false (by simp [hok]) hlacks
  · intro f hf
    refine ⟨by rw [insert, hf], ?_⟩
    rcases hcases with ⟨-, hbreach⟩ | ⟨-, ⟨e, he, herror⟩ | ⟨-, hok⟩⟩
    · exact .inl (Except.error.inj (hf.symm.trans hbreach))
    · exact .inr ⟨e, Except.error.inj (hf.symm.trans herror), he⟩
    · rw [hok] at hf
      contradiction
  · intro key hkey
    have hvetted := vetted_of_accept hkey
    have hinsert : t.insert tuple = t.perform (.insert key tuple) := by rw [insert, hkey]
    refine ⟨?_, hinsert, ⟨_, ?_, rfl⟩, by simp, ?_⟩
    · rw [hvetted.1, hsame]
      rfl
    · split
      · exact .inl rfl
      · exact .inr rfl
    · intro hbreach
      rw [hinsert] at hbreach
      have hroom := ht.runTask hvetted (2 * t.patience) hbreach
      rwa [hsame] at hroom
  · intro hbreach
    exact hclients _ hbreach rfl
  · intro hmemory
    rw [ht.flushMemory_eq_breach_iff hmemory, hsame]
    rfl
  · rintro draft rfl
    exact Draft.add_eq_breach_iff

/-- A point with its value is accepted; without the value it breaks a precondition. -/
theorem insert_without_value :
    let box : PointBox :=
      { dimensions := 1, values := 1, kinds := [.fixed 4, .fixed 4, .fixed 1],
        dimensions_pos := by decide, length_kinds := by decide, fixed_keys := by decide }
    let point : Tuple := [[0, 0, 0, 1], [0, 0, 0, 1]]
    ∃ d s turns t, openOn { keyFields := 2 } (.pointBox box) {} = (d, .ok s) ∧
      (∀ τ ∈ turns, s.Admits τ) ∧ s.course turns = some t ∧
      t.memory.tuples = [([4, 0, 0, 0, 1, 4, 0, 0, 0, 1], point ++ [[7]])] ∧
      t.insert point = (t, .returned (.error .breach)) := by
  intro box point
  let options : Options := { keyFields := 2 }
  let codec : Codec := .pointBox box
  let key : Bytes := [4, 0, 0, 0, 1, 4, 0, 0, 0, 1]
  let turns : List Turn := [.action (.call (.insert key (point ++ [[7]]))), .action (.client 0)]
  have hvalid : options.validate = .ok (.runs 67108864 5) := by decide +kernel
  let opened : Store := {
    options
    policy := .runs 67108864 5
    format := options.format codec
    files := {}
    memory := { budget := 4194304 }
    pool := .start 1 }
  have hopen : openOn options codec {} = ({}, .ok opened) := openOn_nothing codec hvalid (by decide)
  have hkey : Tuple.framed point = key := by cbv
  have hadmits : ∀ τ ∈ turns, opened.Admits τ := by
    refine List.forall_mem_cons.2 ⟨?_, List.forall_mem_singleton.2 trivial⟩
    simp only [Admits, accept, Outcome.bind_eq_ok_iff, Outcome.liftM_eq,
      Outcome.ofExcept_eq_ok_iff]
    exact ⟨key, congrArg Except.ok hkey, 6, by decide +kernel, 6, by decide +kernel, rfl⟩
  have hbreach : options.keyFields ≤ point.length ∧ codec.Lacks point :=
    ⟨by decide, .inr (by decide)⟩
  obtain ⟨haccept, hrefused, -⟩ := insert_accepts_or_turnsAway hopen hadmits rfl point
  exact ⟨_, _, turns, _, hopen, hadmits, rfl, rfl, (hrefused _ (haccept.2 hbreach)).1⟩

end Store

end Strata
