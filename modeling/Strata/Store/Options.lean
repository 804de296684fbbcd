import Strata.Bloom.Sizing
import Strata.Component
import Strata.Merge.Policy

/-!
# Options of an index

How an index is set up. Options are checked before anything else happens; the first one that does
not fit is reported.
-/

namespace Strata

/-- The options of an index. -/
structure Options where
  /-- The directory of the component files. -/
  folder : String := "lsm-index"
  /-- The bytes in memory that bring about a flush. -/
  budget : Nat := 4194304
  blockSize : Nat := 4096
  /-- The share of false positives of the bloom filters. -/
  rate : Float := 0.01
  keyFields : Nat := 1
  /-- The tag of the merge policy. -/
  policy : String := "prefix"
  properties : Properties :=
    [(Setting.largestMerged.name, "67108864"), (Setting.tolerance.name, "5")]
  /-- The workers that merge. -/
  threads : Nat := 1

namespace Options

/-- Whether the options fit, apart from those of the merge policy. -/
def check (o : Options) : Except Error Unit :=
  if o.blockSize = 0 then .error (.setting .blockSize .notPositive)
  else if !Bloom.validRate o.rate then .error (.setting .falsePositiveRate .outsideUnit)
  else if o.keyFields = 0 then .error (.setting .keyFields .zero)
  else .ok ()

/-- The merge policy asked for, if all options fit. -/
def validate (o : Options) : Except Error Policy := do
  o.check
  Policy.ofTag o.policy o.properties

/-- How component files are written and read. -/
def format (o : Options) (codec : Codec) : Format where
  codec := codec
  blockSize := o.blockSize
  rate := o.rate
  keyFields := o.keyFields

end Options

end Strata
