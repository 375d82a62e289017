import OpenWorkflow.Data.OrderedMap
import OpenWorkflow.Net.Statistics

/-!
# oWFN documents

What a file in the oWFN format says about a net. Places and transitions are
known by their names only.
-/

namespace OpenWorkflow.Owfn

/-- A transition in a file. -/
structure TransitionEntry where
  /-- The name. -/
  name : String
  /-- Its part in the interface. -/
  kind : NodeKind
  /-- The places it consumes from. -/
  consume : List String
  /-- The places it produces to. -/
  produce : List String
  deriving DecidableEq

/-- The contents of a file. -/
structure Document where
  /-- The internal places. -/
  internal : List String
  /-- The input places. -/
  input : List String
  /-- The output places. -/
  output : List String
  /-- The ports with their places. -/
  ports : OrderedMap String (List String)
  /-- The tokens at the start. -/
  marking : OrderedMap String Nat
  /-- The final condition: all places of one of these lists hold one token. -/
  finalCondition : List (List String)
  /-- The transitions. -/
  transitions : List TransitionEntry
  deriving DecidableEq

/-- The size of the net in a file. -/
def Document.statistics (d : Document) : Statistics where
  places := d.internal.length + d.input.length + d.output.length
  inputPlaces := d.input.length
  outputPlaces := d.output.length
  transitions := d.transitions.length
  arcs := total (fun t => t.consume.length + t.produce.length) d.transitions

/-- Why a text is not an oWFN file. -/
inductive ReadError where
  /-- The text does not match the grammar. -/
  | malformed
  /-- A number of tokens that is too large. -/
  | invalidCount (digits : String)
  deriving DecidableEq

/-- The wording of a read error. -/
def ReadError.message : ReadError → String
  | .malformed => "syntax error"
  | .invalidCount digits => s!"invalid token count '{digits}'"

end OpenWorkflow.Owfn
