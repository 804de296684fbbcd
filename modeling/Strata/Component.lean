import Strata.Bloom.Sizing
import Strata.Codec
import Strata.Component.Range

/-!
# Components on disk

A component is known by its number, the flushes it covers and its size. Where there is a file
behind it, it also keeps the name of the file, the number of tuples and the bloom filter over
their keys. All of this is fixed once the component exists; its state is kept apart, since many
parties see one component. Components are counted as they are made, and the number of one is its
count within a word: two components with one number are still told apart by their counts.
-/

namespace Strata

/-- How component files are written and read. -/
structure Format where
  codec : Codec
  /-- The size of a data block that is aimed at. -/
  blockSize : Nat
  /-- The share of false positives of the bloom filter. -/
  rate : Float
  /-- The leading fields that identify a tuple. -/
  keyFields : Nat
  /-- The fingerprint of key bytes that the bloom filter works on. -/
  fingerprint : Bytes → Fingerprint := Xxh3.digest

/-- The key bytes of a tuple. -/
def Format.keyOf (format : Format) (tuple : Tuple) : Bytes :=
  Tuple.keyBytes tuple format.keyFields

/-- What a component keeps of its file. -/
structure Contents where
  /-- The name of the file. -/
  file : String
  filter : Bloom.Filter
  tuples : Nat

/-- A component on disk. -/
structure Component where
  /-- The count of the component. -/
  serial : Nat
  range : Range
  /-- The bytes of its file. -/
  size : Nat
  contents : Option Contents := none

namespace Component

/-- The number of a component. -/
def id (c : Component) : Nat := Numeral.wrapped c.serial

theorem id_of_lt {c : Component} (h : c.serial < Numeral.word) : c.id = c.serial :=
  Numeral.wrapped_of_lt h

/-- Whether a component may hold a key. One without a file may hold any. -/
def mayContain (c : Component) (format : Format) (key : Bytes) : Bool :=
  match c.contents with
  | none => true
  | some contents => contents.filter.admits (format.fingerprint key)

/-- The name of the file of a component. -/
def file (c : Component) : Except Error String :=
  match c.contents with
  | none => .error (.damage (.noFile c.id))
  | some contents => .ok contents.file

end Component

end Strata
