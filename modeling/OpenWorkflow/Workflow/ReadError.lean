/-!
# Read errors

Why the tags of a document are not those of a workflow. An error says what is
wrong, which activity was being read, and how many tags had been consumed.
-/

namespace OpenWorkflow

/-- What is wrong with the tags. -/
inductive Fault where
  /-- An end tag where an element should start. -/
  | unexpectedEndTag (qname : String)
  /-- No tags are left. -/
  | endOfInput
  /-- Another start tag was required; `found` describes what stands there. -/
  | expectedStart (qname : String) (found : Option String)
  /-- An end tag was required; `found` describes what stands there. -/
  | expectedEnd (qname : String) (found : Option String)
  /-- A tag that has no meaning here. -/
  | unexpectedTag (qname : Option String)
  /-- No activity is registered for the tag. -/
  | unresolved (qname : String)
  /-- The document is not a workflow. -/
  | unknownRoot (qname : String)
  /-- The document goes on after its activity. -/
  | afterRoot (found : String)
  /-- A message without operation. -/
  | missingOperation
  /-- A loop with two bodies. -/
  | secondLoopBody
  /-- A reference without name. -/
  | emptyReference
  /-- Two flow nodes of one name. -/
  | duplicateFlowNode (id : String)
  /-- An edge to a flow node that does not exist. -/
  | unknownFlowNode (id : String)
  /-- A state machine needs a state. -/
  | noStates
  /-- Two states of one name. -/
  | duplicateState (id : String)
  /-- A state machine needs an initial state. -/
  | missingInitialState
  /-- The initial state does not exist. -/
  | unknownInitialState (id : String)
  /-- A transition to a state that does not exist. -/
  | unknownTargetState (target source : String)
  /-- A trigger that is referred to and given nowhere. -/
  | unknownTrigger (key : String)
  /-- A transition that leads nowhere. -/
  | missingTargetState
  /-- A list of activities whose members consume no tags never ends. -/
  | stalled
  deriving DecidableEq

/-- The wording of a fault. -/
def Fault.message : Fault → String
  | .unexpectedEndTag qname => s!"unexpected end tag '{qname}'"
  | .endOfInput => "unexpected end of input"
  | .expectedStart qname none => s!"expected '{qname}'"
  | .expectedStart qname (some found) => s!"expected '{qname}', found '{found}'"
  | .expectedEnd qname none => s!"expected '/{qname}'"
  | .expectedEnd qname (some found) => s!"expected '/{qname}', found '{found}'"
  | .unexpectedTag none => "unexpected tag 'end of input'"
  | .unexpectedTag (some qname) => s!"unexpected tag '{qname}'"
  | .unresolved qname => s!"no module found for '{qname}'"
  | .unknownRoot qname => s!"unknown root element '{qname}'"
  | .afterRoot found => s!"unexpected '{found}' after the root activity"
  | .missingOperation => "missing attribute 'OperationName'"
  | .secondLoopBody => "more than one loop body"
  | .emptyReference => "empty x:Reference"
  | .duplicateFlowNode id => s!"duplicate flow node '{id}'"
  | .unknownFlowNode id => s!"unknown flow node '{id}'"
  | .noStates => "state machine without states"
  | .duplicateState id => s!"duplicate state '{id}'"
  | .missingInitialState => "missing initial state"
  | .unknownInitialState id => s!"unknown initial state '{id}'"
  | .unknownTargetState target source => s!"unknown target state '{target}' in '{source}'"
  | .unknownTrigger key => s!"unknown trigger '{key}'"
  | .missingTargetState => "transition without a target state"
  | .stalled => "no progress"

/-- A fault with the place where it was found. -/
structure ReadError where
  /-- What is wrong. -/
  fault : Fault
  /-- The activity that was being read. -/
  activity : String
  /-- The number of tags consumed. -/
  position : Nat
  deriving DecidableEq

/-- Is it an activity that nobody registered, and not a fault of structure? -/
def ReadError.isResolution (e : ReadError) : Bool :=
  match e.fault with
  | .unresolved _ => true
  | _ => false

/-- The wording of a read error. -/
def ReadError.message (e : ReadError) : String :=
  e.fault.message ++ " (activity '" ++ e.activity ++ "', token " ++ toString e.position ++ ")"

end OpenWorkflow
