import OpenWorkflow.Workflow.Reader.Basic

/-!
# Reading primitive activities

What is nested in a primitive activity is skipped. A message that is not a
reply needs an operation; its contract is the part of the attribute after the
last brace or colon.
-/

namespace OpenWorkflow.Reader

/-- Skips the element of a primitive activity; its value is the start tag. -/
def primitive (qname name : String) : Parser Markup.Token := do
  if ← Parser.atStartOf qname then Parser.skipElement name
  else Parser.fail (.expectedStart qname none) name

/-- Reads an activity that is one step. -/
def atomic (a : Atomic) : Parser Activity := do
  let _ ← primitive (Markup.qualify a.ns a.name) a.name
  return .atomic a

/-- The name of a contract without its namespace or prefix. -/
def contractName (raw : String) : String :=
  String.ofList (Text.afterLast (fun c => c = '\x7d' || c = ':') raw.toList)

/-- Reads the exchange of a message. -/
def messaging (kind : MessageKind) : Parser Messaging := do
  let start ← primitive (Markup.qualify Markup.Namespace.serviceModel kind.name) kind.name
  if kind.isReply then return { kind }
  else
    let operation := (start.attribute? "OperationName").getD ""
    if operation = "" then Parser.fail .missingOperation kind.name
    else
      match start.attribute? "ServiceContractName" with
      | some contract => return { kind, operation, contract := contractName contract }
      | none => return { kind, operation }

end OpenWorkflow.Reader
