import Strata.Component.Archive
import Strata.Store.State

/-!
# Reading an index

A lookup searches memory, then the components from the newest to the oldest, passing over those
whose bloom filter rules the key out. A scan reads all components and memory, newer tuples
replacing older ones with the same key.
-/

namespace Strata.Store

/-- The key bytes of a tuple, which must have all key fields. -/
def keyOf (s : Store) (tuple : Tuple) : Except Error Bytes :=
  if tuple.length < s.format.keyFields then
    .error (.fieldRange 0 s.format.keyFields tuple.length)
  else .ok (s.format.keyOf tuple)

/-- Open the file of a component. The answer is the opened file and its bytes. -/
def openComponent (s : Store) (c : Component) : Outcome (Archive × Bytes) := do
  let name ← c.file
  let file ← s.files.read name
  return (← Archive.ofBytes (s.path name) s.format.codec s.format.keyFields file, file)

theorem openComponent_eq_ok {s : Store} {c : Component} {name : String} {file : Bytes} {a : Archive}
    (hname : c.file = .ok name) (hread : s.files.read name = .ok file)
    (hopen : Archive.ofBytes (s.path name) s.format.codec s.format.keyFields file = .ok a) :
    s.openComponent c = .ok (a, file) := by
  simp only [openComponent, hname, Outcome.liftM_eq, Outcome.ofExcept_ok, bind, Except.bind, hread,
    hopen, pure, Except.pure]

/-- The tuples of a component, by ascending key. -/
def tuplesOf (s : Store) (c : Component) : Outcome (List Tuple) := do
  let (archive, file) ← s.openComponent c
  archive.tuples file

/-- The tuple a component has under a key. -/
def findIn (s : Store) (c : Component) (key : Bytes) : Outcome (Option Tuple) := do
  let (archive, file) ← s.openComponent c
  archive.find? file key

/-- The first tuple that components, given newest first, have under a key. -/
def findAmong (s : Store) (key : Bytes) : List Component → Outcome (Option Tuple)
  | [] => .ok none
  | c :: rest =>
    if c.mayContain s.format key then do
      match ← s.findIn c key with
      | some tuple => return some tuple
      | none => findAmong s key rest
    else findAmong s key rest

/-- The newest tuple with the key fields of a given one. -/
def lookup (s : Store) (tuple : Tuple) : Outcome (Option Tuple) := do
  let key ← s.keyOf tuple
  match s.memory.get? key with
  | some tuple => return some tuple
  | none => s.findAmong key s.board.roster.newestFirst

/-- Tuples with their key bytes. -/
def keyed (s : Store) (tuples : List Tuple) : List (Bytes × Tuple) :=
  tuples.map fun t => (s.format.keyOf t, t)

/-- The tuples of components, given oldest first, put over those found so far. -/
def gather (s : Store) (found : Keyed Tuple) : List Component → Outcome (Keyed Tuple)
  | [] => .ok found
  | c :: rest => do
    let tuples ← s.tuplesOf c
    gather s (Keyed.insertAll found (s.keyed tuples)) rest

/-- The newest tuple for every key, by ascending key. -/
def scan (s : Store) : Outcome (List Tuple) := do
  let found ← s.gather [] s.board.roster.oldestFirst
  return Keyed.values (Keyed.insertAll found s.memory.tuples)

end Strata.Store
