import OpenWorkflow.Workflow.Registry

/-!
# Workflow documents

The tags of a whole document: a root element that holds exactly one activity.
-/

namespace OpenWorkflow

open OpenWorkflow.Markup (Token qualify activityName)

/-- The elements that a document can consist of. -/
def rootNames : List String :=
  [activityName "Activity", qualify Markup.Namespace.serviceModel "WorkflowService"]

/-- Refuses tags after the root element. -/
def finished : Parser Unit := fun s =>
  match s.tokens with
  | [] => .ok () s
  | t :: _ => Parser.fail (.afterRoot t.describe) "Root" s

/-- Reads a document. -/
def document (r : Registry) : Parser Activity := do
  let root ← Parser.peekStart "Root"
  if root.qname ∈ rootNames then
    let _ ← Parser.nextToken "Root"
    let activity ← r.parseChild "Root"
    let _ ← Parser.expectEnd root.qname "Root"
    finished
    return activity
  else Parser.fail (.unknownRoot root.qname) "Root"

/-- The activity of the document with the given tags. -/
def parseDocument (r : Registry) (tokens : List Token) : Except ReadError Activity :=
  match document r (TokenStream.ofList tokens) with
  | .ok activity _ => .ok activity
  | .error e _ => .error e

end OpenWorkflow
