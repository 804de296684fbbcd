import Strata.Blank
import Strata.Error

/-!
# Merge policies

A policy decides which components are merged, and when producers wait. One merges runs of small
components and lets producers wait while there are too many of them; one merges everything once
there is a fixed number of components; one never merges. A policy is made from its tag and its
properties, which are numbers written as text.
-/

namespace Strata

/-- Properties, by name. -/
abbrev Properties := List (String × String)

/-- A merge policy. -/
inductive Policy where
  /-- Merge runs of components of at most `largest` bytes. Producers wait while more than
  `tolerance` such components are newest in the list. -/
  | runs (largest tolerance : Nat)
  /-- Merge all components once there are `limit`. -/
  | all (limit : Nat)
  /-- Never merge. -/
  | never
deriving DecidableEq, Repr

namespace Policy

/-- The tags of the policies. -/
def tags : List String := ["prefix", "constant", "no-merge"]

/-- The tag of a policy. -/
def tag : Policy → String
  | .runs .. => "prefix"
  | .all _ => "constant"
  | .never => "no-merge"

/-- The number given by a property. -/
def number (properties : Properties) (name : Setting) : Except Error Nat :=
  match properties.lookup name.name with
  | none => .error (.setting name .missing)
  | some text =>
    match Numeral.read Numeral.word (Blank.trim text.toList) with
    | .ok n => .ok n
    | .error fault => .error (.setting name (.unreadable text fault))

/-- A number that must not be zero. -/
def atLeastOne (name : Setting) (n : Nat) : Except Error Unit :=
  if n = 0 then .error (.setting name .zero) else .ok ()

/-- The policy that merges runs, for a tolerance that is not zero. -/
def ofLimits (largest tolerance : Nat) : Except Error Policy := do
  atLeastOne .tolerance tolerance
  return .runs largest tolerance

/-- The policy with a tag. -/
def ofTag (tag : String) (properties : Properties) : Except Error Policy :=
  match tag with
  | "prefix" => do
    let largest ← number properties .largestMerged
    let tolerance ← number properties .tolerance
    ofLimits largest tolerance
  | "constant" => do
    let limit ← number properties .componentLimit
    atLeastOne .componentLimit limit
    return .all limit
  | "no-merge" => .ok .never
  | _ => .error (.setting .policy (.unknownPolicy tag))

end Policy

end Strata
