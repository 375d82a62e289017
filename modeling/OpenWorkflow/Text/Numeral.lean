/-!
# Unsigned numerals

Numerals of 32-bit unsigned words: an optional plus sign, then at least one
digit, with any number of leading zeros. `readWord` gives the value, or `none`
when the text is not such a numeral or the value does not fit.
-/

namespace OpenWorkflow.Text

/-- The value of a digit in bases up to sixteen; letters of either case count from ten. -/
def digitValue (c : Char) : Option Nat :=
  if '0' ≤ c ∧ c ≤ '9' then some (c.toNat - '0'.toNat)
  else if 'a' ≤ c ∧ c ≤ 'f' then some (c.toNat - 'a'.toNat + 10)
  else if 'A' ≤ c ∧ c ≤ 'F' then some (c.toNat - 'A'.toNat + 10)
  else none

/-- The value of a run of digits after a first part of value `acc`. -/
def readDigits (base : Nat) : Nat → List Char → Option Nat
  | acc, [] => some acc
  | acc, c :: cs =>
    match digitValue c with
    | some d => if d < base then readDigits base (acc * base + d) cs else none
    | none => none

/-- The largest value of a 32-bit word. -/
def maxWord : Nat := 4294967295

/-- The text without one leading plus sign. -/
def dropPlus : List Char → List Char
  | '+' :: cs => cs
  | cs => cs

/-- Reads a numeral in the given base. -/
def readWord (base : Nat) (cs : List Char) : Option Nat :=
  if (dropPlus cs).isEmpty then none
  else (readDigits base 0 (dropPlus cs)).filter (fun n => n ≤ maxWord)

end OpenWorkflow.Text
