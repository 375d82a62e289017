import OpenWorkflow.Text.Split

/-!
# Blank characters

The characters of Unicode's `White_Space` property, and the two operations that
depend on them: `trim` removes blanks at both ends of a text, `words` lists its
maximal blank-free stretches.
-/

namespace OpenWorkflow.Text

/-- The ranges of code points with the property `White_Space`. -/
def blankRanges : List (Nat × Nat) :=
  [(0x9, 0xD), (0x20, 0x20), (0x85, 0x85), (0xA0, 0xA0), (0x1680, 0x1680), (0x2000, 0x200A),
    (0x2028, 0x2029), (0x202F, 0x202F), (0x205F, 0x205F), (0x3000, 0x3000)]

/-- Does the character have the property `White_Space`? -/
def isBlank (c : Char) : Bool :=
  blankRanges.any (fun r => r.1 ≤ c.toNat && c.toNat ≤ r.2)

/-- The text without the blanks at its two ends. -/
def trim (cs : List Char) : List Char :=
  (((cs.dropWhile isBlank).reverse).dropWhile isBlank).reverse

/-- The maximal blank-free stretches of a text, from left to right. -/
def words (cs : List Char) : List (List Char) :=
  (pieces isBlank cs).filter (fun w => !w.isEmpty)

/-- The words of a string. -/
def wordsOf (s : String) : List String := (words s.toList).map String.ofList

/-- The property holds of twenty-five code points. -/
example : (blankRanges.map (fun r => r.2 + 1 - r.1)).sum = 25 := by decide

end OpenWorkflow.Text
