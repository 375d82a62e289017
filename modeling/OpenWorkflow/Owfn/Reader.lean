import OpenWorkflow.Owfn.Document
import OpenWorkflow.Text.Grammar
import OpenWorkflow.Text.Numeral

/-!
# Reading oWFN

The grammar of the oWFN format, with ordered choice. Space may stand between any
two words and marks. A name is any run of characters other than space and the
marks of the format, so the words of the format are names as well. Comments in
braces may stand at the beginning, at the end and after the tokens of a place.
-/

namespace OpenWorkflow.Owfn

open OpenWorkflow.Text (Rule)

/-! ## Words and marks -/

/-- The four characters that may stand between words. -/
def isSpace (c : Char) : Bool := c = ' ' || c = '\t' || c = '\r' || c = '\n'

/-- The marks of the format. -/
def isMark (c : Char) : Bool :=
  [',', ';', ':', '=', '(', ')', '\x7b', '\x7d'].contains c

/-- Can the character occur in a name? -/
def isNameChar (c : Char) : Bool := !isSpace c && !isMark c

namespace Grammar

/-- Any number of spaces. -/
def blanks : Rule Unit := do
  let _ ← Rule.run isSpace

/-- A rule and the space after it. -/
def spaced {α : Type} (p : Rule α) : Rule α := do
  let a ← p
  blanks
  return a

/-- A word or mark of the format. -/
def mark (s : String) : Rule Unit := spaced (Rule.literal s)

/-- A name. -/
def name : Rule String := spaced (Rule.run1 isNameChar)

/-- The digits of a number. -/
def digits : Rule String := spaced (Rule.run1 Char.isDigit)

/-- A comment. -/
def comment : Rule Unit := spaced do
  Rule.literal "\x7b"
  let _ ← Rule.upTo "\x7d"

/-- Names with commas between them, possibly none. -/
def names : Rule (List String) := Rule.sepBy name (mark ",")

/-- A title, names and a semicolon. -/
def titled (title : String) : Rule (List String) := do
  mark title
  let xs ← names
  mark ";"
  return xs

/-! ## Sections -/

/-- The three lists of places. -/
def places : Rule (List String × List String × List String) := do
  mark "PLACE"
  let internal ← titled "INTERNAL"
  let input ← titled "INPUT"
  let output ← titled "OUTPUT"
  return (internal, input, output)

/-- One port. -/
def port : Rule (String × List String) := do
  let key ← name
  mark ":"
  let members ← names
  mark ";"
  return (key, members)

/-- The ports. -/
def ports : Rule (List (String × List String)) := do
  mark "PORTS"
  Rule.many port

/-- The tokens of one place. -/
def marked : Rule (String × String) := do
  let place ← name
  mark ":"
  let count ← digits
  let _ ← Rule.opt comment
  return (place, count)

/-- The initial marking. -/
def marking : Rule (List (String × String)) := do
  mark "INITIALMARKING"
  let entries ← Rule.sepBy marked (mark ",")
  mark ";"
  return entries

/-- A place and its number of tokens; the number has no effect. -/
def bareAtom : Rule String := do
  let place ← name
  mark "="
  let _ ← digits
  return place

/-- A place and its number of tokens, in parentheses or not. -/
def atom : Rule String :=
  bareAtom
    <|> (do
      mark "("
      let place ← bareAtom
      mark ")"
      return place)

/-- One alternative of the final condition. -/
def disjunct : Rule (List String) :=
  (do return [← atom])
    <|> (do
      mark "("
      let first ← atom
      let rest ← Rule.many (do mark "AND"; atom)
      mark ")"
      return first :: rest)

/-- The final condition. -/
def finalCondition : Rule (List (List String)) := do
  mark "FINALCONDITION"
  mark "("
  let sets ← Rule.sepBy disjunct (mark "OR")
  mark ")"
  mark ";"
  return sets

/-- The mark of a transition that takes part in the interface. -/
def kind : Rule NodeKind := do
  mark "\x7b"
  let k ←
    (do mark "input/output"; return .inOut)
      <|> (do mark "input"; return .input)
      <|> (do mark "output"; return .output)
  mark "\x7d"
  return k

/-- One transition. -/
def transition : Rule TransitionEntry := do
  mark "TRANSITION"
  let name ← name
  let kind ← Rule.opt kind
  let consume ← titled "CONSUME"
  let produce ← titled "PRODUCE"
  return { name, kind := kind.getD .internal, consume, produce }

/-- The contents of a file, before its numbers are read. -/
structure Draft where
  /-- The three lists of places. -/
  places : List String × List String × List String
  /-- The ports, in the order of the file. -/
  ports : List (String × List String)
  /-- The marking, in the order of the file. -/
  marking : List (String × String)
  /-- The final condition. -/
  finalCondition : List (List String)
  /-- The transitions. -/
  transitions : List TransitionEntry

/-- A whole file. -/
def file : Rule Draft := do
  blanks
  let _ ← Rule.opt comment
  let places ← places
  let ports ← Rule.opt ports
  let marking ← marking
  let finalCondition ← finalCondition
  let transitions ← Rule.many transition
  let _ ← Rule.opt comment
  Rule.done
  return { places, ports := ports.getD [], marking, finalCondition, transitions }

end Grammar

/-- Reads the number of tokens of a place. -/
def readCount (entry : String × String) : Except ReadError (String × Nat) :=
  match Text.readWord 10 entry.2.toList with
  | some n => .ok (entry.1, n)
  | none => .error (.invalidCount entry.2)

/-- Reads a file. A port or a place that is listed again keeps its first
position and takes the later value. -/
def read (text : String) : Except ReadError Document :=
  match Rule.accept? Grammar.file text with
  | none => .error .malformed
  | some draft => do
    let marking ← draft.marking.mapM readCount
    return {
      internal := draft.places.1
      input := draft.places.2.1
      output := draft.places.2.2
      ports := OrderedMap.ofList draft.ports
      marking := OrderedMap.ofList marking
      finalCondition := draft.finalCondition
      transitions := draft.transitions }

end OpenWorkflow.Owfn
