import Strata.Component.Range
import Strata.Numeral

/-!
# Names of component files

A component file is named for the range and the number of its component. The number keeps names
apart where a merge rewrites a single component, whose range the result shares. It can be read
back from the name.
-/

namespace Strata.FileName

/-- What the name of a component file ends in. -/
def ending : String := ".cmp"

/-- What the name of a file under construction ends in. -/
def draftEnding : String := ".tmp"

/-- The name of the file of component `id`. -/
def ofComponent (id : Nat) (range : Range) : String :=
  range.text ++ "_" ++ Numeral.padded 6 id ++ ending

/-- The name a file has until it is complete. -/
def draft (name : String) : String := name ++ draftEnding

/-- A text without an ending, if it has that ending. -/
def strip? (suffix text : List Char) : Option (List Char) :=
  if suffix.isSuffixOf text then some (text.take (text.length - suffix.length)) else none

/-- What stands behind the last underscore of a text, if there is one. -/
def behindUnderscore? (text : List Char) : Option (List Char) :=
  if '_' ∈ text then some (text.reverse.takeWhile (· ≠ '_')).reverse else none

/-- The number of the component whose file has this name. -/
def id? (name : String) : Option Nat := do
  let stem ← strip? ending.toList name.toList
  let digits ← behindUnderscore? stem
  (Numeral.read Numeral.word digits).toOption

/-- Whether a file is still under construction. -/
def isDraft (name : String) : Bool := draftEnding.toList.isSuffixOf name.toList

/-- Whether a file is taken for a component file. A name that is nothing but the ending is not. -/
def isComponent (name : String) : Bool :=
  ending.toList.isSuffixOf name.toList && ending.length < name.length

end Strata.FileName
