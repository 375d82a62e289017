import OpenWorkflow.Net.Basic

/-!
# Net errors

Why a step of the construction of a net is refused.
-/

namespace OpenWorkflow

/-- The causes for which a construction step is refused. -/
inductive NetError where
  /-- A node needs a name. -/
  | emptyName
  /-- Some place has already carried the name. -/
  | duplicatePlace (name : String)
  /-- No live place answers to the reference. -/
  | missingPlace (ref : String)
  /-- No transition has the handle. -/
  | missingTransition (index : Nat)
  /-- An arc between two places. -/
  | placeToPlace (source target : String)
  /-- An arc between two transitions. -/
  | transitionToTransition (source target : String)
  /-- Two places whose kinds have no common kind. -/
  | incompatibleMerge (first : String) (firstKind : NodeKind) (second : String)
      (secondKind : NodeKind)
  /-- A final set needs a place. -/
  | emptyFinalSet
  deriving DecidableEq

/-- The wording of a net error. -/
def NetError.message : NetError → String
  | .emptyName => "node name cannot be empty"
  | .duplicatePlace name => s!"place '{name}' already exists"
  | .missingPlace ref => s!"no place known as '{ref}'"
  | .missingTransition index => "no transition with handle " ++ toString index
  | .placeToPlace source target => s!"arc from place '{source}' to place '{target}' is not allowed"
  | .transitionToTransition source target =>
    s!"arc from transition '{source}' to transition '{target}' is not allowed"
  | .incompatibleMerge first firstKind second secondKind =>
    "cannot merge " ++ firstKind.label ++ s!" place '{first}' with " ++ secondKind.label
      ++ s!" place '{second}'"
  | .emptyFinalSet => "final set cannot be empty"

end OpenWorkflow
