import Strata.Component.Writer
import Strata.Store.Reading
import Strata.Store.Scheduling

/-!
# Merging

A merge reads its members from the oldest to the newest, newer tuples replacing older ones, writes
one component of what is left, and puts it in their place. A merge that fails hands its members
back, so that the policy can order it again; after too many failures in a row it keeps them, and
they are not merged again. Either way the policy is called before the merge counts as landed.
-/

namespace Strata

namespace Job

/-- The numbers of the members. -/
def ids (job : Job) : List Nat := job.members.map Component.id

/-- The range of the result. -/
def range? (job : Job) : Option Range := Range.span (job.members.map Component.range)

/-- Whether nothing is left to do. -/
def isOver (job : Job) : Bool :=
  match job.phase with
  | .over => true
  | _ => false

/-- Whether the merge was broken off. -/
def isLost (job : Job) : Bool :=
  match job.phase with
  | .lost => true
  | _ => false

/-- What follows a failure. -/
def phaseOf : Failure → Phase
  | .error e => .fail e
  | .breach => .lost

end Job

namespace Store

/-- What a merge of components, given newest first, has to write. -/
def merged (s : Store) (members : List Component) : Outcome (List Tuple) := do
  return Keyed.values (← s.gather [] members.reverse)

/-- Whether a failed merge is tried again. -/
def mayRetry (s : Store) : Bool := s.failures ≤ retryLimit

/-- One step of a merge. There is none while its call of the policy waits, or when it is over. -/
def stepJob (s : Store) (job : Job) : Option (Store × Job) :=
  let next (s : Store) (phase : Job.Phase) : Option (Store × Job) := some (s, { job with phase })
  match job.phase with
  | .read =>
    match job.range? with
    | none => next s (.fail (.refusal .noMembers))
    | some _ =>
      match s.merged job.members with
      | .error e => next s (Job.phaseOf e)
      | .ok tuples => next s (.number tuples)
  | .number tuples => next { s with nextSerial := s.nextSerial + 1 } (.build s.nextSerial tuples)
  | .build serial tuples =>
    match job.range? with
    | none => next s (.fail (.refusal .noMembers))
    | some range =>
      match s.files.build s.format serial range tuples with
      | (files, .error e) => next { s with files } (Job.phaseOf e)
      | (files, .ok result) => next { s with files } (.swap result)
  | .swap result =>
    match s.board.roster.replace job.ids result with
    | .error e =>
      next { s with files := s.files.erase (FileName.ofComponent result.id result.range) } (.fail e)
    | .ok roster => next { s with board := { s.board with roster } } (.retire result job.members)
  | .retire result [] => next s (.succeed result)
  | .retire result (c :: rest) =>
    match s.move c .replace with
    | .error e => next s (.fail e)
    | .ok s => next { s with retired := s.retired ++ [c] } (.retire result rest)
  | .succeed result =>
    next ({ s.record .completed with failures := 0 }.report (.merged result (s.state result)))
      (.consider result)
  | .fail e =>
    let s := { s.record .failed with failures := s.failures + 1 }.report (.failed e)
    next s (if s.mayRetry then .release job.members else .land)
  | .release [] =>
    match job.members with
    | [] => next s .land
    | newest :: _ => next s (.consider newest)
  | .release (c :: rest) =>
    match s.move c .release with
    | .error _ => next s .land
    | .ok s => next s (.release rest)
  | .consider added => next s (.consult (s.consult s.fullRequested added true))
  | .consult k =>
    match k.answer? with
    | some _ => next s .land
    | none => (s.stepConsultation k).bind fun (s, k) => next s (.consult k)
  | .land => next { s with inFlight := s.inFlight - 1 } .signal
  | .signal => next { s with board := s.board.notify } .over
  | .over => none
  | .lost => none

end Store

end Strata
