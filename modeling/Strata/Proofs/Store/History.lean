import Strata.Proofs.Directory
import Strata.Proofs.KeyBytes
import Strata.Proofs.Store.Annals
import Strata.Proofs.Store.Turns
import Strata.Store.Recovery

/-!
# Histories of an index

An index is opened on an empty directory, takes turns, and is opened again on what a crash has left
of its directory, any number of times. Its history keeps the tuples it has accepted, and the annals
of its component files since it was last opened. Which tuples are durable is what clients have been
told: those accepted before a flush that did not answer with an error.

A crash leaves the files of all components listed. Of other component files it leaves any that were
written, be they merged away or results of merges not yet put in place, and files of other names may
come and go. A crash that comes before the end of a flush but after its file is complete leaves what
one right after the flush leaves.
-/

namespace Strata

/-- The last tuple with the same key fields. -/
def Tuple.latest (keyFields : Nat) (tuples : List Tuple) (k : Tuple) : Option Tuple :=
  tuples.reverse.find? fun t => t.take keyFields = k.take keyFields

theorem Tuple.latest_eq (keyFields : Nat) (tuples : List Tuple) (k : Tuple) :
    Tuple.latest keyFields tuples k =
      Keyed.find? (Tuple.keyed keyFields tuples).reverse (k.keyBytes keyFields) := by
  rw [Tuple.latest, Tuple.keyed, ← List.map_reverse]
  induction tuples.reverse with
  | nil => rfl
  | cons t rest ih =>
    rw [List.find?_cons, List.map_cons, Keyed.find?, ih]
    by_cases h : t.take keyFields = k.take keyFields
    · rw [if_pos (Tuple.keyBytes_eq_iff.2 h)]
      simp [h]
    · rw [if_neg (mt Tuple.keyBytes_eq_iff.1 h)]
      simp [h]

/-- What has happened to an index. -/
structure History where
  /-- The tuples accepted before the last flush that ended well, in the order of their insertion. -/
  durable : List Tuple := []
  /-- The tuples accepted since. -/
  pending : List Tuple := []
  /-- The component files written since the index was last opened, or found then. -/
  annals : List Record := []

namespace Record

/-- The record of a component whose file has just been written. -/
def ofFiles (files : Directory) (component : Component) (tuples : List Tuple)
    (members : List Component) : Record where
  component := component
  file := (files.find? (FileName.ofComponent component.id component.range)).getD []
  tuples := tuples
  members := members

/-- The record of a file found, of which it is not known where it comes from. -/
def bare (a : Record) : Record := { a with members := [] }

end Record

namespace History

/-- All tuples accepted are durable. -/
def flushed (h : History) : History :=
  { h with durable := h.durable ++ h.pending, pending := [] }

/-- The annals with one more record. -/
def recorded (h : History) (a : Record) : History := { h with annals := a :: h.annals }

/-- The history after a step of a call. A flush is over when it answers, or goes on to report the
component it has written. -/
def called (h : History) (s t : Store) : Task → Task → History
  | .insert _ tuple, _ => { h with pending := h.pending ++ [tuple] }
  | .flush, .returned (.error _) => h
  | .flush, .report c =>
    h.flushed.recorded (.ofFiles t.files c (Keyed.values s.memory.tuples) [])
  | .flush, _ => h.flushed
  | _, _ => h

/-- The history after a step of a merge, which may have written its result. -/
def merged (h : History) (t : Store) : Job → Job.Phase → History
  | ⟨members, .build _ tuples⟩, .swap result =>
    h.recorded (.ofFiles t.files result tuples members)
  | _, _ => h

/-- The history after a turn. -/
def after (h : History) (s t : Store) (τ : Turn) : History :=
  match s.callStep? τ, s.mergeStep? τ with
  | some (task, task'), _ => h.called s t task task'
  | none, some (job, phase) => h.merged t job phase
  | none, none => h

theorem called_of_other (h : History) (s t : Store) {task : Task}
    (hinsert : ∀ key tuple, task ≠ .insert key tuple) (hflush : task ≠ .flush) (task' : Task) :
    h.called s t task task' = h := by
  cases task with
  | insert key tuple => exact absurd rfl (hinsert key tuple)
  | flush => exact absurd rfl hflush
  | _ => rfl

theorem merged_of_not_built (h : History) (t : Store) {job : Job} {phase : Job.Phase}
    (hbuilt : ∀ serial tuples result, job.phase = .build serial tuples → phase ≠ .swap result) :
    h.merged t job phase = h := by
  unfold merged
  split
  · exact absurd rfl (hbuilt _ _ _ rfl)
  · rfl

theorem after_of_call (h : History) {s : Store} (t : Store) {τ : Turn} {task task' : Task}
    (hcall : s.callStep? τ = some (task, task')) : h.after s t τ = h.called s t task task' := by
  simp only [after, hcall]

theorem after_of_merge (h : History) {s : Store} (t : Store) {τ : Turn} {job : Job}
    {phase : Job.Phase} (hclient : τ.client? = none) (hmerge : s.mergeStep? τ = some (job, phase)) :
    h.after s t τ = h.merged t job phase := by
  simp only [after, Store.callStep?_eq_none hclient, hmerge]

/-- The history of an index that has been opened again: what waited in memory is lost, and the
annals begin with the components that are listed. -/
def reopened (h : History) (s : Store) : History where
  durable := h.durable
  annals := s.board.roster.newestFirst.filterMap fun c =>
    (h.annals.find? fun a => a.component.serial = c.serial).map Record.bare

end History

namespace Store

/-- Whether clients, workers and the file system take a turn. A tuple that is inserted must have
been accepted, with a field to each kind and a key of less than 2 ^ 32 bytes. Files that are no
component's may change by themselves. -/
structure Permits (s : Store) (τ : Turn) : Prop where
  proper : τ.Proper
  accepts : ∀ key tuple, τ = .action (.call (.insert key tuple)) →
    s.accept tuple = .ok key ∧ tuple.length = s.format.codec.kinds.length ∧ key.length < 2 ^ 32
  files : ∀ d, τ = .files d → d.Sorted ∧
    ∀ name, FileName.isComponent name = true → d.find? name = s.files.find? name

/-- Counts have not run out, and the file system has had room for every component file. -/
structure Roomy (s : Store) : Prop where
  stamps : s.nextStamp < Numeral.word
  serials : s.nextSerial < Numeral.word
  files : ∀ name file, FileName.isComponent name = true → s.files.find? name = some file →
    file.length < Bytes.limit

theorem Roomy.of_unchanged {s t : Store} (h : s.Roomy) (hfiles : t.files = s.files)
    (hstamp : t.nextStamp = s.nextStamp) (hserial : t.nextSerial = s.nextSerial) : t.Roomy where
  stamps := hstamp ▸ h.stamps
  serials := hserial ▸ h.serials
  files := hfiles ▸ h.files

theorem Roomy.size_lt {s : Store} (h : s.Roomy) {d : Directory} {format : Format} {serial : Nat}
    {range : Range} {tuples : List Tuple} {c : Component}
    (hbuild : d.build format serial range tuples = (s.files, .ok c)) : c.size < Bytes.limit := by
  obtain ⟨file, hfile, hsize⟩ := Directory.size_build hbuild
  rw [hsize]
  exact h.files _ file (FileName.isComponent_ofComponent _ _) hfile

/-- What a crash can leave of the directory of an index. -/
structure LeavesBehind (s : Store) (h : History) (d : Directory) : Prop where
  sorted : d.Sorted
  listed : ∀ c ∈ s.board.roster.newestFirst, ∀ name, c.file = .ok name →
    d.find? name = s.files.find? name
  written : ∀ name file, FileName.isComponent name = true → d.find? name = some file →
    ∃ a ∈ h.annals, a.component.file = .ok name ∧ a.file = file

/-- The states an index can come to, with the history it then has. -/
inductive Reached (codec : Codec) (keyFields : Nat) : Store → History → Prop where
  | opened {options : Options} {d : Directory} {s : Store} (hkey : options.keyFields = keyFields)
      (hopen : openOn options codec {} = (d, .ok s)) : Reached codec keyFields s {}
  | turn {s t : Store} {h : History} {τ : Turn} (hs : Reached codec keyFields s h)
      (hpermits : s.Permits τ) (hturn : s.turn τ = some t) (hroom : t.Roomy) :
      Reached codec keyFields t (h.after s t τ)
  | reopened {s t : Store} {h : History} {options : Options} {d d' : Directory}
      (hs : Reached codec keyFields s h) (hcrash : s.LeavesBehind h d)
      (hkey : options.keyFields = keyFields) (hopen : openOn options codec d = (d', .ok t)) :
      Reached codec keyFields t (h.reopened t)

end Store

end Strata
