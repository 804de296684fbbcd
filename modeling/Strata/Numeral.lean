/-!
# Numerals

Decimal and hexadecimal text of numbers, and the reading of unsigned decimal text below a limit.
Reading accepts one leading plus sign and any number of leading zeros, and reports the first
thing wrong from the left: a number that has grown too large is reported before a bad character
behind the digit that made it so.
-/

namespace Strata

/-- Powers of natural numbers are those of core, also where Mathlib would find them through its
monoids, so that a statement means the same whatever part of Mathlib a module imports. -/
@[default_instance high]
instance (priority := high) powNat : Pow Nat Nat := instPowNat

/-- The zero that a sum of natural numbers starts from is that of core, for the same reason. -/
instance (priority := high) zeroNat : Zero Nat := Zero.ofOfNat0

end Strata

namespace Strata.Numeral

/-- Decimal text, filled up on the left with zeros to `width` characters. -/
def padded (width n : Nat) : String :=
  let digits := Nat.toDigits 10 n
  String.ofList (List.replicate (width - digits.length) '0' ++ digits)

/-- Lower-case hexadecimal text behind `0x`, without filling. -/
def hex (n : Nat) : String :=
  "0x" ++ String.ofList (Nat.toDigits 16 n)

/-- Why a text is not a number. -/
inductive Fault where
  | empty
  | badDigit
  | tooLarge
deriving DecidableEq, Repr

/-- The wording of a fault. -/
def Fault.message : Fault → String
  | .empty => "cannot parse integer from empty string"
  | .badDigit => "invalid digit found in string"
  | .tooLarge => "number too large to fit in target type"

/-- The value of a decimal digit. -/
def digit? (c : Char) : Option Nat :=
  if c.isDigit then some (c.toNat - '0'.toNat) else none

/-- Read digits behind a number already read, refusing a step to `limit` or beyond. -/
def readDigits (limit : Nat) : (value : Nat) → List Char → Except Fault Nat
  | value, [] => .ok value
  | value, c :: rest =>
    match digit? c with
    | none => .error .badDigit
    | some d =>
      if value * 10 + d < limit then readDigits limit (value * 10 + d) rest
      else .error .tooLarge

theorem readDigits_lt {limit value n : Nat} {text : List Char} (hvalue : value < limit)
    (h : readDigits limit value text = .ok n) : n < limit := by
  induction text generalizing value with
  | nil =>
    obtain rfl := Except.ok.inj h
    exact hvalue
  | cons c rest ih =>
    simp only [readDigits] at h
    split at h
    · contradiction
    · split at h
      · rename_i hd
        exact ih hd h
      · contradiction

/-- Read a whole text as an unsigned number below `limit`. -/
def read (limit : Nat) : List Char → Except Fault Nat
  | [] => .error .empty
  | ['+'] => .error .badDigit
  | '+' :: rest => readDigits limit 0 rest
  | text => readDigits limit 0 text

/-- Numbers of 64 bits are below this. -/
def word : Nat := 2 ^ 64

/-- What a word keeps of a count. After the largest word, counts start again at zero. -/
def wrapped (count : Nat) : Nat := count % word

theorem wrapped_of_lt {count : Nat} (h : count < word) : wrapped count = count :=
  Nat.mod_eq_of_lt h

theorem wrapped_lt (count : Nat) : wrapped count < word :=
  Nat.mod_lt _ (by simp [word])

end Strata.Numeral
