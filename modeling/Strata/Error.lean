import Strata.Numeral
import Strata.State

/-!
# Errors

Every error names its cause. The wording of all of them is one function, `Error.message`, so the
code that finds a fault says what is wrong and not how it is told. A violated precondition is no
error: `Failure` keeps it apart as `breach`.
-/

namespace Strata

/-- Why a file could not be read or written. -/
inductive FileFault where
  /-- There is no file of that name. -/
  | notFound
  /-- A stretch to be read ends behind the file. -/
  | endOfFile
  /-- A position too large to be one in a file. -/
  | badPosition
deriving DecidableEq, Repr

/-- The name of a file fault. -/
def FileFault.name : FileFault → String
  | .notFound => "NotFound"
  | .endOfFile => "UnexpectedEof"
  | .badPosition => "InvalidInput"

/-- The two layouts of a stored tuple. -/
inductive Layout where
  | plain
  | pointBox
deriving DecidableEq, Repr

/-- What messages call a tuple of a layout. -/
def Layout.noun : Layout → String
  | .plain => "tuple"
  | .pointBox => "point MBR tuple"

/-- What is wrong with stored bytes, or with the list of components that holds them. -/
inductive Damage where
  | varintTruncated (position : Nat)
  | varintOverflow (position : Nat)
  | bitmapTruncated (layout : Layout) (position : Nat)
  | lengthOverflow
  | fieldsTruncated (layout : Layout) (position needed start available : Nat)
  | blockTooShort
  | blockTooLarge
  | blockChecksum (stored computed : Nat)
  | blockCount (count : Nat)
  | tupleOffset
  | blockTuples (position held indexed : Nat)
  | entryTruncated
  | footerTooShort
  | badMagic (expected found : Nat)
  | invertedRange (min max : Nat)
  | fileTooShort (path : String)
  | footerOutside (path : String)
  | tupleCount (path : String) (footer indexed : Nat)
  | filterTooShort
  | filterSize (hashes bits payload : Nat)
  | unknownMember (id : Nat)
  | noFile (id : Nat)
deriving DecidableEq, Repr

/-- The wording of a damage. -/
def Damage.message : Damage → String
  | .varintTruncated position => s!"varint truncated at offset {position}"
  | .varintOverflow position => s!"varint overflow at offset {position}"
  | .bitmapTruncated layout position =>
    s!"{layout.noun} at offset {position} truncated in null bitmap"
  | .lengthOverflow => "field lengths overflow"
  | .fieldsTruncated layout position needed start available =>
    s!"{layout.noun} at offset {position} needs {needed} data bytes past {start}, " ++
      s!"buffer has {available}"
  | .blockTooShort => "data block too short"
  | .blockTooLarge => "data block exceeds 4 GiB"
  | .blockChecksum stored computed =>
    s!"data block CRC mismatch: stored {Numeral.hex stored}, computed {Numeral.hex computed}"
  | .blockCount count => s!"block claims {count} tuples"
  | .tupleOffset => "tuple offset past block data"
  | .blockTuples position held indexed =>
    s!"block at {position} holds {held} tuples, index says {indexed}"
  | .entryTruncated => "index entry truncated"
  | .footerTooShort => "footer too short"
  | .badMagic expected found =>
    s!"bad magic: expected {Numeral.hex expected}, got {Numeral.hex found}"
  | .invertedRange min max =>
    s!"inverted id range IdRange \x7b min: {min}, max: {max} \x7d"
  | .fileTooShort path => s!"{path} too short to contain a footer"
  | .footerOutside path => s!"{path}: footer points outside the file"
  | .tupleCount path footer indexed =>
    s!"{path}: footer counts {footer} tuples, block index {indexed}"
  | .filterTooShort => "bloom filter too short"
  | .filterSize hashes bits payload =>
    s!"bloom filter header ({hashes} hashes, {bits} bits) does not match {payload} payload bytes"
  | .unknownMember id => s!"merged component #{id} is not in the component list"
  | .noFile id => s!"component #{id} has no data file"

/-- The settings that can be wrong. -/
inductive Setting where
  | blockSize
  | falsePositiveRate
  | keyFields
  | fieldKinds
  | codec
  | policy
  | largestMerged
  | tolerance
  | componentLimit
deriving DecidableEq, Repr

/-- The name of a setting, as properties and messages give it. -/
def Setting.name : Setting → String
  | .blockSize => "block-size"
  | .falsePositiveRate => "bloom-false-positive-rate"
  | .keyFields => "key-field-count"
  | .fieldKinds => "type-traits"
  | .codec => "tuple-codec"
  | .policy => "merge-policy"
  | .largestMerged => "max-mergable-component-size"
  | .tolerance => "max-tolerance-component-count"
  | .componentLimit => "num-components"

/-- What is wrong with a setting. -/
inductive Misfit where
  | missing
  | unreadable (text : String) (fault : Numeral.Fault)
  | zero
  | notPositive
  | outsideUnit
  | unknownPolicy (tag : String)
  | unknownCodec (tag : String)
  | oddKeyFields (count : Nat)
  | tooManyKeyFields (keyFields kinds : Nat)
  | kindCount (kinds keyFields valueFields : Nat)
  | varyingKeyField (field : Nat)
deriving DecidableEq, Repr

/-- The wording of a misfit. -/
def Misfit.message : Misfit → String
  | .missing => "missing"
  | .unreadable text fault => "`" ++ text ++ "`: " ++ fault.message
  | .zero => "must be at least 1"
  | .notPositive => "must be positive"
  | .outsideUnit => "must lie in (0, 1)"
  | .unknownPolicy tag => "unknown merge policy `" ++ tag ++ "`"
  | .unknownCodec tag => "unknown codec `" ++ tag ++ "`"
  | .oddKeyFields count =>
    s!"point MBR needs an even, non-zero key field count, got {count}"
  | .tooManyKeyFields keyFields kinds => s!"{keyFields} key fields exceed {kinds} type traits"
  | .kindCount kinds keyFields valueFields =>
    s!"{kinds} type traits for {keyFields} key and {valueFields} value fields"
  | .varyingKeyField field => s!"key field {field} must be fixed-length"

/-- What a codec cannot do. -/
inductive Unsupported where
  | partialSize
  | partialWrite (start count : Nat)
  | extendedBox (dimension : Nat)
deriving DecidableEq, Repr

/-- The wording of an unsupported request. -/
def Unsupported.message : Unsupported → String
  | .partialSize =>
    "partial field ranges are meaningless once point coordinates are deduplicated"
  | .partialWrite start count =>
    s!"point MBR writer cannot write field range {start}+{count}; key-only tuples are not stored"
  | .extendedBox dimension =>
    s!"dimension {dimension} is not degenerate (min != max); point MBR encoding cannot store it"

/-- Why a merge was not taken on. -/
inductive Refusal where
  | noMembers
  | queueClosed
  | workersGone
deriving DecidableEq, Repr

/-- The wording of a refusal. -/
def Refusal.message : Refusal → String
  | .noMembers => "merge without members"
  | .queueClosed => "merge queue closed"
  | .workersGone => "merge workers have shut down"

/-- An error, by cause. -/
inductive Error where
  | file (fault : FileFault)
  | damage (cause : Damage)
  | setting (name : Setting) (misfit : Misfit)
  | unsupported (request : Unsupported)
  | refusal (reason : Refusal)
  | bufferTooSmall (needed available : Nat)
  | fieldRange (start count fields : Nat)
  | fieldLength (field expected actual : Nat)
  | stateMove (source target : State)
deriving DecidableEq, Repr

/-- The wording of an error. A file fault is told by its name alone. -/
def Error.message : Error → String
  | .file fault => fault.name
  | .damage cause => "Corruption: " ++ cause.message
  | .setting name misfit => "invalid configuration `" ++ name.name ++ "`: " ++ misfit.message
  | .unsupported request => "unsupported operation: " ++ request.message
  | .refusal reason => "merge scheduling failed: " ++ reason.message
  | .bufferTooSmall needed available =>
    s!"buffer too small: need {needed} bytes, {available} available"
  | .fieldRange start count fields =>
    s!"field range {start}+{count} out of bounds for {fields} fields"
  | .fieldLength field expected actual =>
    s!"field {field} is {actual} bytes, type trait expects {expected}"
  | .stateMove source target =>
    s!"illegal component state transition {source.name} -> {target.name}"

/-- What stops an operation: an error, or a precondition that its caller has broken. -/
inductive Failure where
  | error (cause : Error)
  | breach
deriving DecidableEq, Repr

/-- The answer of an operation that can fail in either way. -/
abbrev Outcome := Except Failure

namespace Outcome

/-- An answer that has no broken precondition among its failures. -/
def ofExcept {α : Type} : Except Error α → Outcome α
  | .ok a => .ok a
  | .error e => .error (.error e)

@[simp] theorem ofExcept_ok {α : Type} (a : α) : ofExcept (.ok a) = .ok a := rfl

@[simp] theorem ofExcept_error {α : Type} (e : Error) :
    ofExcept (.error e : Except Error α) = .error (.error e) := rfl

instance : MonadLift (Except Error) Outcome := ⟨ofExcept⟩

@[simp] theorem liftM_eq {α : Type} (x : Except Error α) : (liftM x : Outcome α) = ofExcept x :=
  rfl

@[simp] theorem ofExcept_eq_ok_iff {α : Type} {x : Except Error α} {a : α} :
    ofExcept x = .ok a ↔ x = .ok a := by
  cases x <;> simp [ofExcept]

/-- An operation in two parts succeeds just where both parts do. -/
theorem bind_eq_ok_iff {α β : Type} {x : Outcome α} {f : α → Outcome β} {b : β} :
    x >>= f = .ok b ↔ ∃ a, x = .ok a ∧ f a = .ok b := by
  cases x <;> simp [bind, Except.bind]

/-- The value an optional result holds; its absence is a broken precondition. -/
def ofOption {α : Type} : Option α → Outcome α
  | some a => .ok a
  | none => .error .breach

@[simp] theorem ofOption_eq_ok_iff {α : Type} {x : Option α} {a : α} :
    ofOption x = .ok a ↔ x = some a := by
  cases x <;> simp [ofOption]

/-- A number to be kept in a word. One that needs more bits is a broken precondition. -/
def ofWord (n : Nat) : Outcome Nat :=
  if n < Numeral.word then .ok n else .error .breach

@[simp] theorem ofWord_eq_ok_iff {n m : Nat} : ofWord n = .ok m ↔ n < Numeral.word ∧ n = m := by
  by_cases h : n < Numeral.word <;> simp [ofWord, h]

end Outcome

end Strata
