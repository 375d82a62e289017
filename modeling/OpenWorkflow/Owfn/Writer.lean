import OpenWorkflow.Net.Statistics

/-!
# Writing oWFN

The text of a net in the oWFN format: a heading with the size of the net, the
places by kind, the ports if they are asked for, the initial marking, the final
condition and the transitions.
-/

namespace OpenWorkflow.Owfn

/-- The program that the heading names. -/
def generator : String := "wfnet 0.1.0"

/-- The heading, a comment. -/
def heading (net : Net) : String :=
  "\x7b\n  generated by: " ++ generator ++ "\n  net size:     " ++ net.statistics.line
    ++ "\n\x7d\n\n"

/-- The current names of places. -/
def namesOf (places : List (PlaceId × Place)) : List String := places.map (fun p => p.2.name)

/-- One of the three lists of places. -/
def placeList (title separator : String) (names : List String) : String :=
  "  " ++ title ++ "\n    " ++ separator.intercalate names ++ ";\n\n"

/-- All places. -/
def places (net : Net) : String :=
  "PLACE\n" ++ placeList "INTERNAL" ", " (namesOf (net.livePlaces net.internal))
    ++ placeList "INPUT" ",\n    " (namesOf (net.livePlaces net.input))
    ++ placeList "OUTPUT" ",\n    " (namesOf (net.livePlaces net.output))

/-- The current names of the places in a set. -/
def memberNames (net : Net) (ids : OrderedSet PlaceId) : List String :=
  ids.toList.filterMap net.placeName?

/-- One port. -/
def port (net : Net) (p : String × OrderedSet PlaceId) : String :=
  "  " ++ p.1 ++ ":\n    " ++ ",\n    ".intercalate (memberNames net p.2) ++ ";\n"

/-- The ports; a net without ports has no such section. -/
def ports (net : Net) : String :=
  if net.portPlaces.isEmpty then ""
  else "PORTS\n" ++ String.join (net.portPlaces.map (port net)) ++ "\n"

/-- The name by which the start of the whole workflow is known. -/
def initialPlace : String := "0.internal.initialized"

/-- The tokens of one place; the start of the workflow is pointed out. -/
def markedPlace (place : Place) : String :=
  "  " ++ place.name ++ ":\t" ++ toString place.tokens
    ++ (if place.knows initialPlace then " \x7binitial place\x7d" else "")

/-- The initial marking. -/
def marking (net : Net) : String :=
  "INITIALMARKING\n"
    ++ (if net.marked.isEmpty then "  "
      else ",\n".intercalate (net.marked.map (fun p => markedPlace p.2)))
    ++ ";\n\n"

/-- One alternative of the final condition. -/
def finalSet (net : Net) (set : OrderedSet PlaceId) : String :=
  match set.toList with
  | [id] => (net.placeName? id).getD "" ++ "=1"
  | ids =>
    "( " ++ " AND ".intercalate (ids.map (fun id => "(" ++ (net.placeName? id).getD "" ++ "=1)"))
      ++ ")"

/-- The final condition. -/
def finalCondition (net : Net) : String :=
  "FINALCONDITION\n  (" ++ " OR ".intercalate (net.finalSets.map (finalSet net)) ++ ");\n\n"

/-- The mark of a transition that takes part in the interface. -/
def kindMark : NodeKind → String
  | .internal => ""
  | kind => " \x7b " ++ kind.label ++ " \x7d"

/-- One transition. -/
def transition (net : Net) (t : Transition) : String :=
  "TRANSITION " ++ t.name ++ kindMark t.kind ++ "\n  CONSUME "
    ++ ", ".intercalate (memberNames net t.preset) ++ ";\n  PRODUCE "
    ++ ", ".intercalate (memberNames net t.postset) ++ ";\n\n"

/-- The text of a net, with its ports if `withPorts` is set. -/
def write (net : Net) (withPorts : Bool) : String :=
  heading net ++ places net ++ (if withPorts then ports net else "") ++ marking net
    ++ finalCondition net ++ String.join (net.transitions.map (transition net))
    ++ "\x7b END OF FILE \x7d"

end OpenWorkflow.Owfn
