import OpenWorkflow.Workflow.Reader.Basic

/-!
# Reading flowcharts

The nodes of a flowchart are listed in it or stand inside the edges of other
nodes. A node is recorded when its element has been read, so nodes inside its
edges come before it. A node without a name gets one of its own, counted through
the flowchart. When everything has been read, each name must belong to one node
and each edge must lead to a node.
-/

namespace OpenWorkflow.Reader.Flowchart

open OpenWorkflow.Markup (activityName languageName Token)

/-- The name under which flowcharts report faults. -/
def owner : String := "Flowchart"

/-- The nodes read so far. -/
structure Graph where
  /-- The nodes in the order in which they were completed. -/
  nodes : List (FlowNode Activity) := []
  /-- How many names have been generated. -/
  generated : Nat := 0

namespace Graph

/-- The name of a node: the given one or else a generated one. -/
def nodeName (g : Graph) : Option String → String × Graph
  | some name => (name, g)
  | none => ("__node" ++ toString (g.generated + 1), { g with generated := g.generated + 1 })

/-- Records a node. -/
def push (g : Graph) (node : FlowNode Activity) : Graph := { g with nodes := g.nodes ++ [node] }

end Graph

/-- Reads a node, or a reference to one, and gives its name; a null element has none. -/
abbrev NodeReader := Graph → Parser (Option String × Graph)

/-- The node that an attribute refers to. -/
def edge? (t : Token) (key : String) : Option String := (t.attribute? key).map referenceName

/-- Reads a property element that holds at most one node. -/
def target (node : NodeReader) (wrapper : String) (g : Graph) :
    Parser (Option String × Graph) := do
  let _ ← Parser.expectStart wrapper owner
  let result ← if ← Parser.atEndOf wrapper then pure (none, g) else node g
  let _ ← Parser.expectEnd wrapper owner
  return result

/-- What has been read of a step. -/
structure StepDraft where
  /-- The nodes read so far. -/
  graph : Graph
  /-- The activity of the step. -/
  action : Option Activity := none
  /-- The edge out of the step. -/
  next : Option String := none

/-- Reads one part of a step. -/
def stepPart (child : ChildReader) (node : NodeReader) (d : StepDraft) : Parser StepDraft := do
  if ← Parser.atStartOf (languageName "Key") then
    let _ ← Parser.skipElement owner
    return d
  else if ← Parser.atStartOf (activityName "FlowStep.Next") then
    let (next, graph) ← target node (activityName "FlowStep.Next") d.graph
    return { d with next, graph }
  else if d.action.isNone then
    let action ← child owner
    return { d with action := some action }
  else Parser.unexpected owner

/-- Reads a step. -/
def step (child : ChildReader) (node : NodeReader) (g : Graph) : Parser (String × Graph) := do
  let qname := activityName "FlowStep"
  let start ← Parser.expectStart qname owner
  let (id, graph) := g.nodeName (start.attribute? "x:Name")
  let d ← Parser.untilEnd qname owner (stepPart child node) { graph }
  let _ ← Parser.expectEnd qname owner
  return (id, d.graph.push (.step id d.action d.next))

/-- What has been read of a decision. -/
structure DecisionDraft where
  /-- The nodes read so far. -/
  graph : Graph
  /-- The edge taken when the condition holds. -/
  onTrue : Option String
  /-- The edge taken when it does not. -/
  onFalse : Option String

/-- Reads one part of a decision. -/
def decisionPart (node : NodeReader) (d : DecisionDraft) : Parser DecisionDraft := do
  if ← Parser.atStartOf (activityName "FlowDecision.True") then
    let (onTrue, graph) ← target node (activityName "FlowDecision.True") d.graph
    return { d with onTrue, graph }
  else if ← Parser.atStartOf (activityName "FlowDecision.False") then
    let (onFalse, graph) ← target node (activityName "FlowDecision.False") d.graph
    return { d with onFalse, graph }
  else if ← Parser.atStartOf (activityName "FlowDecision.Condition") then
    let _ ← Parser.skipElement owner
    return d
  else if ← Parser.atStartOf (languageName "Key") then
    let _ ← Parser.skipElement owner
    return d
  else Parser.unexpected owner

/-- Reads a decision. -/
def decision (node : NodeReader) (g : Graph) : Parser (String × Graph) := do
  let qname := activityName "FlowDecision"
  let start ← Parser.expectStart qname owner
  let (id, graph) := g.nodeName (start.attribute? "x:Name")
  let d ← Parser.untilEnd qname owner (decisionPart node)
    { graph, onTrue := edge? start "True", onFalse := edge? start "False" }
  let _ ← Parser.expectEnd qname owner
  return (id, d.graph.push (.decision id d.onTrue d.onFalse))

/-- What has been read of a switch. -/
structure SwitchDraft where
  /-- The nodes read so far. -/
  graph : Graph
  /-- The edge taken when no case applies. -/
  fallback : Option String
  /-- The edges of the cases. -/
  cases : List (Option String) := []

/-- Reads one part of a switch. -/
def switchPart (node : NodeReader) (d : SwitchDraft) : Parser SwitchDraft := do
  if ← Parser.atStartOf (activityName "FlowSwitch.Default") then
    let (fallback, graph) ← target node (activityName "FlowSwitch.Default") d.graph
    return { d with fallback, graph }
  else if ← Parser.atStartOf (activityName "FlowSwitch.Expression") then
    let _ ← Parser.skipElement owner
    return d
  else if ← Parser.atStartOf (languageName "Key") then
    let _ ← Parser.skipElement owner
    return d
  else
    let (case, graph) ← node d.graph
    return { d with cases := d.cases ++ [case], graph }

/-- Reads a switch. -/
def switch (node : NodeReader) (g : Graph) : Parser (String × Graph) := do
  let qname := activityName "FlowSwitch"
  let start ← Parser.expectStart qname owner
  let (id, graph) := g.nodeName (start.attribute? "x:Name")
  let d ← Parser.untilEnd qname owner (switchPart node)
    { graph, fallback := edge? start "Default" }
  let _ ← Parser.expectEnd qname owner
  return (id, d.graph.push (.switch id d.fallback d.cases))

/-- Reads a node, in whose edges nodes lie at most `n` deep. -/
def node (child : ChildReader) : Nat → NodeReader
  | 0, _ => Parser.fail .stalled owner
  | n + 1, g => do
    let front ← Parser.peekStart owner
    if front.qname = activityName "FlowStep" then
      let (id, g) ← step child (node child n) g
      return (some id, g)
    else if front.qname = activityName "FlowDecision" then
      let (id, g) ← decision (node child n) g
      return (some id, g)
    else if front.qname = activityName "FlowSwitch" then
      let (id, g) ← switch (node child n) g
      return (some id, g)
    else if front.qname = languageName "Reference" then
      let id ← reference owner
      return (some id, g)
    else if front.qname = languageName "Null" then
      let _ ← Parser.skipElement owner
      return (none, g)
    else Parser.unexpected owner

/-- What has been read of a flowchart. -/
structure Draft where
  /-- The nodes read so far. -/
  graph : Graph := {}
  /-- The node where the flow starts. -/
  start : Option String

/-- Reads a node inside the start property; the first name counts, unless an
attribute gave one. -/
def startNode (node : NodeReader) (d : Draft) : Parser Draft := do
  let (id, graph) ← node d.graph
  return { graph, start := d.start <|> id }

/-- Reads one part of a flowchart. -/
def part (node : NodeReader) (d : Draft) : Parser Draft := do
  let tag := activityName "Flowchart.StartNode"
  if ← Parser.atStartOf tag then
    let _ ← Parser.nextToken owner
    let d ← Parser.untilEnd tag owner (startNode node) d
    let _ ← Parser.expectEnd tag owner
    return d
  else
    let (_, graph) ← node d.graph
    return { d with graph }

/-- What is wrong with the names of a flowchart. -/
def fault? (start : Option String) (nodes : List (FlowNode Activity)) : Option Fault :=
  let known := nodes.map FlowNode.id
  match firstRepeated [] known with
  | some id => some (.duplicateFlowNode id)
  | none =>
    ((nodes.flatMap FlowNode.targets ++ start.toList).find? (fun id => id ∉ known)).map
      .unknownFlowNode

/-- Refuses a fault, if there is one. -/
def check : Option Fault → Parser Unit
  | some fault => Parser.fail fault owner
  | none => return

/-- Reads a flowchart. -/
def flowchart (child : ChildReader) : Parser Activity := do
  let qname := activityName "Flowchart"
  let root ← Parser.expectStart qname owner
  let depth := (← Parser.remaining) + 1
  let d ← Parser.untilEnd qname owner (part (node child depth))
    { start := edge? root "StartNode" }
  check (fault? d.start d.graph.nodes)
  let _ ← Parser.expectEnd qname owner
  return .flowchart d.start d.graph.nodes

end OpenWorkflow.Reader.Flowchart
