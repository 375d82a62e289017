import OpenWorkflow.Markup.ScanError
import OpenWorkflow.Text.Numeral

/-!
# Entity references

In character data and attribute values an ampersand starts a reference that
ends at the next semicolon. It names one of five predefined characters or gives
a code point in decimal or hexadecimal. `decode` replaces every reference by its
character and refuses the text at the first one that it cannot read.
-/

namespace OpenWorkflow.Markup.Entity

/-- The predefined entities. -/
def predefined : List (String × Char) :=
  [("lt", '<'), ("gt", '>'), ("amp", '&'), ("quot", '"'), ("apos", '\'')]

/-- The character with the given code point; surrogates and larger numbers have none. -/
def ofCodePoint (n : Nat) : Option Char := if n.isValidChar then some (Char.ofNat n) else none

/-- The character that a numeric reference stands for. -/
def ofNumber : List Char → Option Char
  | '#' :: 'x' :: digits => (Text.readWord 16 digits).bind ofCodePoint
  | '#' :: 'X' :: digits => (Text.readWord 16 digits).bind ofCodePoint
  | '#' :: digits => (Text.readWord 10 digits).bind ofCodePoint
  | _ => none

/-- The character that a reference stands for, given without ampersand and semicolon. -/
def character? (entity : List Char) : Option Char :=
  match predefined.lookup (String.ofList entity) with
  | some c => some c
  | none => ofNumber entity

/-- Replaces the references of a text that lies inside `raw`. An open reference
is held with its characters in reverse. -/
def decodeFrom (raw : String) :
    Option (List Char) → List Char → Except ScanError (List Char)
  | none, [] => .ok []
  | none, c :: cs =>
    if c = '&' then decodeFrom raw (some []) cs
    else (decodeFrom raw none cs).map (c :: ·)
  | some _, [] => .error (.unterminatedEntity raw)
  | some entity, c :: cs =>
    if c = ';' then
      match character? entity.reverse with
      | some d => (decodeFrom raw none cs).map (d :: ·)
      | none => .error (.unknownEntity (String.ofList entity.reverse))
    else decodeFrom raw (some (c :: entity)) cs

/-- The text that a raw text stands for. -/
def decode (raw : String) : Except ScanError String :=
  (decodeFrom raw none raw.toList).map String.ofList

end OpenWorkflow.Markup.Entity
