import OpenWorkflow.Net.Basic

/-!
# The size of a net

Five counts describe the size of a net, whether it is under construction or has
been read from a file.
-/

namespace OpenWorkflow

/-- The sum of a count over the items of a list. -/
def total {α : Type} (count : α → Nat) (xs : List α) : Nat :=
  xs.foldr (fun x n => count x + n) 0

/-- The size of a net. -/
structure Statistics where
  /-- All places. -/
  places : Nat := 0
  /-- The input places among them. -/
  inputPlaces : Nat := 0
  /-- The output places among them. -/
  outputPlaces : Nat := 0
  /-- The transitions. -/
  transitions : Nat := 0
  /-- The arcs. -/
  arcs : Nat := 0
  deriving DecidableEq

/-- The counts in one line. -/
def Statistics.line (s : Statistics) : String :=
  "|P|= " ++ toString s.places ++ ", |P_in|= " ++ toString s.inputPlaces ++ ", |P_out|= "
    ++ toString s.outputPlaces ++ ", |T|= " ++ toString s.transitions ++ ", |F|= "
    ++ toString s.arcs

/-- The size of a net under construction. -/
def Net.statistics (net : Net) : Statistics where
  places := net.internal.size + net.input.size + net.output.size
  inputPlaces := net.input.size
  outputPlaces := net.output.size
  transitions := net.transitions.length
  arcs := net.arcs.size

end OpenWorkflow
