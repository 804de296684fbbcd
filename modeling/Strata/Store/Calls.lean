import Strata.Component.Writer
import Strata.Store.Reading
import Strata.Store.Scheduling

/-!
# Calls of clients

A tuple is inserted into memory if the codec can store it; a full memory is flushed. A flush
writes memory to a component, reports it, and calls the merge policy, which may make the client
wait. A merge of all components is asked for by a flag that the policy is told of. A client can
also wait until no merge is in flight.
-/

namespace Strata

namespace Store

/-- The key bytes of a tuple the codec can store. -/
def accept (s : Store) (tuple : Tuple) : Outcome Bytes := do
  let key ← s.keyOf tuple
  let needed ← s.format.codec.required tuple
  let _ ← (s.format.codec.write tuple (Bytes.zeros needed) 0).2
  return key

/-- Write memory to a component, the newest one. The answer is the component, if memory held
anything. The count and the stamp are used up also where writing fails. -/
def flushMemory (s : Store) : Store × Outcome (Option Component) :=
  if s.memory.isEmpty then (s, .ok none)
  else
    let stamp := Numeral.wrapped s.nextStamp
    let serial := s.nextSerial
    let s := { s with nextStamp := s.nextStamp + 1, nextSerial := serial + 1 }
    match s.files.build s.format serial (.single stamp) (Keyed.values s.memory.tuples) with
    | (files, .error e) => ({ s with files }, .error e)
    | (files, .ok c) =>
      ({ s with
        files
        board := { s.board with roster := s.board.roster.prepend c }
        memory := s.memory.clear }, .ok (some c))

/-- One step of a call of a client. There is none while it waits, or when it has returned. -/
def stepTask (s : Store) (task : Task) : Option (Store × Task) :=
  match task with
  | .insert key tuple =>
    let s := { s with memory := s.memory.insert key tuple }
    some (s, if s.memory.isFull then .flush else .returned (.ok ()))
  | .flush =>
    match s.flushMemory with
    | (s, .error e) => some (s, .returned (.error e))
    | (s, .ok none) => some (s, .returned (.ok ()))
    | (s, .ok (some c)) => some (s, .report c)
  | .report c =>
    let s := (s.record .flush).report (.flushed c (s.state c))
    some (s, .consult (s.consult s.fullRequested c false))
  | .request => some ({ s with fullRequested := true }, .requested)
  | .requested => some (s, if s.memory.isEmpty then .newest else .flush)
  | .newest =>
    match s.board.roster.newestFirst with
    | [] => some (s, .returned (.ok ()))
    | c :: _ => some (s, .consult (s.consult true c false))
  | .consult k =>
    match k.answer? with
    | some answer => some (s, .returned (Outcome.ofExcept answer))
    | none => (s.stepConsultation k).map fun (s, k) => (s, .consult k)
  | .drain => some (s, .draining s.board.tracker.generation)
  | .draining observed =>
    some (s, if s.inFlight = 0 then .returned (.ok ()) else .drowse observed)
  | .drowse observed =>
    if s.board.tracker.holds observed then
      some ({ s with board := { s.board with tracker := s.board.tracker.enter } },
        .asleep observed)
    else some (s, .drain)
  | .asleep observed =>
    if s.board.tracker.holds observed then none
    else
      some ({ s with board := { s.board with tracker := s.board.tracker.leave } }, .drain)
  | .returned _ => none

end Store

namespace Task

/-- The answer of a call that has returned. -/
def answer? : Task → Option (Outcome Unit)
  | .returned answer => some answer
  | _ => none

/-- Whether a call is inside a wait. -/
def isAsleep : Task → Bool
  | .asleep _ => true
  | .consult (.thinking call) =>
    match call.phase with
    | .asleep _ => true
    | _ => false
  | _ => false

end Task

end Strata
