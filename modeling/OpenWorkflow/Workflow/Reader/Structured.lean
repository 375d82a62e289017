import OpenWorkflow.Workflow.Reader.Basic

/-!
# Reading structured activities

Sequences, choices, loops and parallel branches. Conditions and expressions are
skipped. A property element that occurs again replaces what the first one gave,
except that a loop has one body and a branch of a pick one action.
-/

namespace OpenWorkflow.Reader

open OpenWorkflow.Markup (activityName languageName)

/-- Reads activities that run one after another. -/
def sequence (child : ChildReader) : Parser Activity := do
  let qname := activityName "Sequence"
  let _ ← Parser.expectStart qname "Sequence"
  let children ← Parser.untilEnd qname "Sequence"
    (fun children => do return children ++ [← child "Sequence"]) []
  let _ ← Parser.expectEnd qname "Sequence"
  return .sequence children

/-- Reads one property of a choice between two branches. -/
def conditionalPart (child : ChildReader) (branches : Option Activity × Option Activity) :
    Parser (Option Activity × Option Activity) := do
  if ← Parser.atStartOf (activityName "If.Then") then
    let onTrue ← wrapped child (activityName "If.Then") "If"
    return (onTrue, branches.2)
  else if ← Parser.atStartOf (activityName "If.Else") then
    let onFalse ← wrapped child (activityName "If.Else") "If"
    return (branches.1, onFalse)
  else if ← Parser.atStartOf (activityName "If.Condition") then
    let _ ← Parser.skipElement "If"
    return branches
  else Parser.unexpected "If"

/-- Reads a choice between two branches. -/
def conditional (child : ChildReader) : Parser Activity := do
  let qname := activityName "If"
  let _ ← Parser.expectStart qname "If"
  let branches ← Parser.untilEnd qname "If" (conditionalPart child) (none, none)
  let _ ← Parser.expectEnd qname "If"
  return .conditional branches.1 branches.2

/-- Reads one case or property of a choice between several cases. -/
def switchPart (child : ChildReader) (parts : List Activity × Option Activity) :
    Parser (List Activity × Option Activity) := do
  if ← Parser.atStartOf (activityName "Switch.Default") then
    let fallback ← wrapped child (activityName "Switch.Default") "Switch"
    return (parts.1, fallback)
  else if ← Parser.atStartOf (activityName "Switch.Expression") then
    let _ ← Parser.skipElement "Switch"
    return parts
  else if ← Parser.atStartOf (languageName "Null") then
    let _ ← Parser.skipElement "Switch"
    return (parts.1 ++ [.empty], parts.2)
  else
    let activity ← child "Switch"
    return (parts.1 ++ [activity], parts.2)

/-- Reads a choice between several cases. -/
def switch (child : ChildReader) : Parser Activity := do
  let qname := activityName "Switch"
  let _ ← Parser.expectStart qname "Switch"
  let parts ← Parser.untilEnd qname "Switch" (switchPart child) ([], none)
  let _ ← Parser.expectEnd qname "Switch"
  return .switch parts.1 parts.2

/-- Reads the condition or the body of a loop. -/
def loopPart (child : ChildReader) (name : String) (body : Option Activity) :
    Parser (Option Activity) := do
  if ← Parser.atStartOf (activityName (name ++ ".Condition")) then
    let _ ← Parser.skipElement name
    return body
  else if body.isSome then Parser.fail .secondLoopBody name
  else if ← Parser.atStartOf (activityName (name ++ ".Body")) then
    wrapped child (activityName (name ++ ".Body")) name
  else
    let activity ← child name
    return some activity

/-- Reads a loop. -/
def loop (child : ChildReader) (test : LoopTest) : Parser Activity := do
  let qname := activityName test.name
  let _ ← Parser.expectStart qname test.name
  let body ← Parser.untilEnd qname test.name (loopPart child test.name) none
  let _ ← Parser.expectEnd qname test.name
  return .loop test body

/-- Reads a branch or the completion condition of parallel branches. -/
def parallelPart (child : ChildReader) (branches : List Activity) : Parser (List Activity) := do
  if ← Parser.atStartOf (activityName "Parallel.CompletionCondition") then
    let _ ← Parser.skipElement "Parallel"
    return branches
  else
    let branch ← child "Parallel"
    return branches ++ [branch]

/-- Reads parallel branches. -/
def parallel (child : ChildReader) : Parser Activity := do
  let qname := activityName "Parallel"
  let _ ← Parser.expectStart qname "Parallel"
  let branches ← Parser.untilEnd qname "Parallel" (parallelPart child) []
  let _ ← Parser.expectEnd qname "Parallel"
  return .parallel branches

/-- Reads the trigger or the action of a branch. -/
def pickBranchPart (child : ChildReader) (branch : PickBranch Activity) :
    Parser (PickBranch Activity) := do
  if ← Parser.atStartOf (activityName "PickBranch.Trigger") then
    let trigger ← wrapped child (activityName "PickBranch.Trigger") "Pick"
    return { branch with trigger }
  else if branch.action.isSome then Parser.unexpected "Pick"
  else if ← Parser.atStartOf (activityName "PickBranch.Action") then
    let action ← wrapped child (activityName "PickBranch.Action") "Pick"
    return { branch with action }
  else
    let action ← child "Pick"
    return { branch with action := some action }

/-- Reads a branch of an event-driven choice. -/
def pickBranch (child : ChildReader) : Parser (PickBranch Activity) := do
  let qname := activityName "PickBranch"
  let _ ← Parser.expectStart qname "Pick"
  let branch ← Parser.untilEnd qname "Pick" (pickBranchPart child) {}
  let _ ← Parser.expectEnd qname "Pick"
  return branch

/-- Reads the next branch of an event-driven choice. -/
def pickPart (child : ChildReader) (branches : List (PickBranch Activity)) :
    Parser (List (PickBranch Activity)) := do
  if ← Parser.atStartOf (activityName "PickBranch") then
    let branch ← pickBranch child
    return branches ++ [branch]
  else Parser.unexpected "Pick"

/-- Reads an event-driven choice. -/
def pick (child : ChildReader) : Parser Activity := do
  let qname := activityName "Pick"
  let _ ← Parser.expectStart qname "Pick"
  let branches ← Parser.untilEnd qname "Pick" (pickPart child) []
  let _ ← Parser.expectEnd qname "Pick"
  return .pick branches

end OpenWorkflow.Reader
