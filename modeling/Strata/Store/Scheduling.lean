import Strata.Store.State

/-!
# Scheduling merges

A merge is scheduled by claiming its members one by one. Where one is taken by another party, the
members claimed so far are handed back and nothing is submitted. A request for a merge of all
components is taken back before its merge is submitted, so that the finished merge does not see
it again, and renewed where nothing was submitted.
-/

namespace Strata

namespace Scheduling

/-- What follows a scheduling that has come to its answer. -/
def conclude (all : Bool) (answer : Except Error Bool) : Scheduling :=
  match all, answer with
  | true, .ok true => .answered (.ok true)
  | true, answer => .restore answer
  | false, answer => .answered answer

/-- The scheduling of what a policy orders. -/
def ofOrder : Order → Scheduling
  | .everything => .clear
  | .run members => .claim false [] members

/-- The answer of a scheduling that has come to it. -/
def answer? : Scheduling → Option (Except Error Bool)
  | .answered answer => some answer
  | _ => none

end Scheduling

namespace Store

/-- One step of scheduling. -/
def stepScheduling (s : Store) : Scheduling → Store × Scheduling
  | .clear => ({ s with fullRequested := false }, .gather)
  | .gather => (s, .claim true [] s.board.roster.newestFirst)
  | .claim all [] [] => (s, .conclude all (.ok false))
  | .claim all claimed [] => (s, .enlist all claimed)
  | .claim all claimed (c :: rest) =>
    match s.move c .claim with
    | .ok s => (s, .claim all (claimed ++ [c]) rest)
    | .error _ => (s, .giveUp all claimed)
  | .giveUp all [] => (s.record .deferred, .conclude all (.ok false))
  | .giveUp all (c :: rest) =>
    match s.move c .release with
    | .ok s => (s, .giveUp all rest)
    | .error e => (s, .conclude all (.error e))
  | .enlist all members => ({ s with inFlight := s.inFlight + 1 }, .submit all members)
  | .submit all members =>
    match s.pool.submit { members } with
    | .ok pool => ({ s with pool }, .conclude all (.ok true))
    | .error e => (s, .withdraw all members e)
  | .withdraw all members e => ({ s with inFlight := s.inFlight - 1 }, .handBack all members e)
  | .handBack all [] e => (s, .conclude all (.error e))
  | .handBack all (c :: rest) e =>
    match s.move c .release with
    | .ok s => (s, .handBack all rest e)
    | .error e => (s, .conclude all (.error e))
  | .restore answer => ({ s with fullRequested := true }, .answered answer)
  | .answered answer => (s, .answered answer)

/-- One step of a call of the merge policy. There is none while it waits, or when it has
finished. -/
def stepConsultation (s : Store) : Consultation → Option (Store × Consultation)
  | .thinking call =>
    match call.order? with
    | some order => some (s, .scheduling call (.ofOrder order))
    | none => (call.step s.board).map fun (board, call) => ({ s with board }, .thinking call)
  | .scheduling call phase =>
    match phase.answer? with
    | some answer =>
      let (board, call) := call.reply s.board answer
      some ({ s with board }, .thinking call)
    | none =>
      let (s, phase) := s.stepScheduling phase
      some (s, .scheduling call phase)

/-- A call of the merge policy for a component that has been added. -/
def consult (s : Store) (full : Bool) (added : Component) (byMerge : Bool) : Consultation :=
  .thinking (.start s.policy full added byMerge)

end Store

/-- The answer of a call of the merge policy that has finished. -/
def Consultation.answer? : Consultation → Option (Except Error Unit)
  | .thinking call => call.answer?
  | .scheduling .. => none

end Strata
