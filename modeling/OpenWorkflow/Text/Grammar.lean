/-!
# Grammar rules

Rules of a grammar with ordered choice. A rule looks at the front of a text and
either fails or gives a value and the text that remains. `p <|> q` tries `q`
only where `p` fails, and a repetition takes as many items as it can and never
gives one back.
-/

namespace OpenWorkflow.Text

/-- A rule of a grammar: it fails, or gives a value and the remaining text. -/
abbrev Rule (α : Type) := StateT (List Char) Option α

namespace Rule

variable {α : Type}

/-- The given characters, exactly. -/
def literal (s : String) : Rule Unit := fun cs => (s.toList.isPrefixOf? cs).map (fun r => ((), r))

/-- The longest run of characters that pass the test, possibly empty. -/
def run (p : Char → Bool) : Rule String := fun cs =>
  some (String.ofList (cs.takeWhile p), cs.dropWhile p)

/-- The longest run of characters that pass the test, at least one. -/
def run1 (p : Char → Bool) : Rule String := fun cs =>
  match cs with
  | c :: _ => if p c then run p cs else none
  | [] => none

/-- One character for which the first test holds, then the longest run for the second. -/
def word (first rest : Char → Bool) : Rule String := fun cs =>
  match cs with
  | c :: cs =>
    if first c then some (String.ofList (c :: cs.takeWhile rest), cs.dropWhile rest) else none
  | [] => none

/-- The text before the first occurrence of a non-empty mark, and the text after it. -/
def splitAtMark (mark : List Char) : List Char → Option (List Char × List Char)
  | [] => none
  | c :: cs =>
    match mark.isPrefixOf? (c :: cs) with
    | some rest => some ([], rest)
    | none => (splitAtMark mark cs).map (fun r => (c :: r.1, r.2))

/-- Everything before the first occurrence of the mark; the mark is consumed too. -/
def upTo (mark : String) : Rule String := fun cs =>
  (splitAtMark mark.toList cs).map (fun r => (String.ofList r.1, r.2))

/-- The rule where it applies, and otherwise nothing. -/
def opt (p : Rule α) : Rule (Option α) := fun cs =>
  match p cs with
  | some (a, rest) => some (some a, rest)
  | none => some (none, cs)

/-- At most `n` items in a row. -/
def atMost (p : Rule α) : Nat → List Char → List α × List Char
  | 0, cs => ([], cs)
  | n + 1, cs =>
    match p cs with
    | some (a, rest) =>
      let more := atMost p n rest
      (a :: more.1, more.2)
    | none => ([], cs)

/-- As many items as there are. An item consumes a character, so the text's
length bounds their number. -/
def many (p : Rule α) : Rule (List α) := fun cs => some (atMost p cs.length cs)

/-- Items with a separator between them, possibly none. -/
def sepBy (p : Rule α) (sep : Rule Unit) : Rule (List α) := do
  let first ← opt p
  match first with
  | none => pure []
  | some a => return a :: (← many (do sep; p))

/-- The end of the text. -/
def done : Rule Unit := fun cs => if cs.isEmpty then some ((), []) else none

/-- The value of a rule that accepts the whole text. -/
def accept? (p : Rule α) (s : String) : Option α := (p s.toList).map Prod.fst

end Rule

end OpenWorkflow.Text
