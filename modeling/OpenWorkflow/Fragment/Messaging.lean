import OpenWorkflow.Fragment.Basic
import OpenWorkflow.Workflow.Activity

/-!
# Messages

A message passes through an interface place named after its direction, its
contract and its operation; a reply has the number of its fragment in place of
contract and operation. Messages of one name share the place. The port of the
place is the contract, and one port serves all replies.
-/

namespace OpenWorkflow

/-- The name of the interface place. -/
def Messaging.placeName (m : Messaging) (scope : Scope) : String :=
  let direction := if m.kind.isInbound then "in" else "out"
  if m.kind.isReply then direction ++ "." ++ toString scope.id ++ ".reply"
  else direction ++ "." ++ m.contract ++ "." ++ m.operation

/-- The port of the interface place. -/
def Messaging.port (m : Messaging) : String := if m.kind.isReply then "reply" else m.contract

/-- Adds the interface place, unless some place answers to its name. -/
def Fragment.interfacePlace (name : String) (kind : NodeKind) : Build Unit := do
  if ((← get).find? name).isNone then
    let _ ← Net.newPlace name kind

/-- The exchange of a message. -/
def Fragment.messaging (m : Messaging) : Fragment := do
  let scope ← Scope.enter
  let message := m.placeName scope
  interfacePlace message m.kind.direction
  Net.addPort m.port message
  let t ← Net.newTransitionOf (scope.name m.kind.label) m.kind.direction
  Net.newArc scope.initialized t
  Net.newArc t scope.closed
  if m.kind.isInbound then Net.newArc message t else Net.newArc t message

end OpenWorkflow
