import OpenWorkflow.Fragment.Basic
import OpenWorkflow.Workflow.Activity

/-!
# Flowcharts

The fragment of a flowchart is laid out node by node and then linked: the place
at the end of an edge is merged with the place where the edge's target starts,
or with the end of the flowchart where there is no target. A flowchart without
start has nothing to do.
-/

namespace OpenWorkflow.Fragment.Flowchart

/-- The name of a place or transition of a node. -/
def nodeName (scope : Scope) (id suffix : String) : String := scope.name (id ++ "." ++ suffix)

/-- Lays out a step. -/
def layStep (scope : Scope) (id : String) (action : Option Fragment) : Build Unit := do
  let start := nodeName scope id "start"
  let next := nodeName scope id "next"
  Net.internalPlace start
  Net.internalPlace next
  let _ ← splice (orEmpty action) start next

/-- Lays out a decision. -/
def layDecision (scope : Scope) (id : String) : Build Unit := do
  let start := nodeName scope id "start"
  let condition := nodeName scope id "condition"
  let onTrue := nodeName scope id "true"
  let onFalse := nodeName scope id "false"
  Net.internalPlace start
  Net.internalPlace condition
  Net.internalPlace onTrue
  Net.internalPlace onFalse
  let eval ← Net.newTransition (nodeName scope id "evalcondition")
  let startTrue ← Net.newTransition (nodeName scope id "starttrue")
  let startFalse ← Net.newTransition (nodeName scope id "startfalse")
  Net.newArc start eval
  Net.newArc eval condition
  Net.newArc condition startTrue
  Net.newArc condition startFalse
  Net.newArc startTrue onTrue
  Net.newArc startFalse onFalse

/-- Lays out `n` cases of a switch from the `i`-th on; the result is the place
where the last case failed. -/
def layCases (scope : Scope) (id : String) : Nat → Nat → String → Build String
  | 0, _, last => return last
  | n + 1, i, last => do
    let condition := nodeName scope id ("condition" ++ toString i)
    let case := nodeName scope id ("case" ++ toString i)
    Net.internalPlace condition
    Net.internalPlace case
    let eval ← Net.newTransition (nodeName scope id ("evalcase" ++ toString i))
    let init ← Net.newTransition (nodeName scope id ("initcase" ++ toString i))
    Net.newArc last eval
    Net.newArc eval condition
    Net.newArc condition init
    Net.newArc init case
    layCases scope id n (i + 1) condition

/-- Lays out a switch. -/
def laySwitch (scope : Scope) (id : String) (cases : Nat) : Build Unit := do
  let start := nodeName scope id "start"
  let fallback := nodeName scope id "default"
  Net.internalPlace start
  Net.internalPlace fallback
  let last ← layCases scope id cases 1 start
  let init ← Net.newTransition (nodeName scope id "initdefault")
  Net.newArc last init
  Net.newArc init fallback

/-- Lays out a node. -/
def layNode (scope : Scope) : FlowNode Fragment → Build Unit
  | .step id action _ => layStep scope id action
  | .decision id _ _ => layDecision scope id
  | .switch id _ cases => laySwitch scope id cases.length

/-- Links the end of an edge to its target or to the end of the flowchart. -/
def link (scope : Scope) (place : String) : Option String → Build Unit
  | some target => do
    let _ ← Net.merge place (nodeName scope target "start")
  | none => do
    let _ ← Net.merge scope.closed place

/-- Links the cases of a switch from the `i`-th on. -/
def linkCases (scope : Scope) (id : String) : Nat → List (Option String) → Build Unit
  | _, [] => return
  | i, edge :: edges => do
    link scope (nodeName scope id ("case" ++ toString i)) edge
    linkCases scope id (i + 1) edges

/-- Links the edges of a node. -/
def linkNode (scope : Scope) : FlowNode Fragment → Build Unit
  | .step id _ next => link scope (nodeName scope id "next") next
  | .decision id onTrue onFalse => do
    link scope (nodeName scope id "true") onTrue
    link scope (nodeName scope id "false") onFalse
  | .switch id fallback cases => do
    link scope (nodeName scope id "default") fallback
    linkCases scope id 1 cases

/-- A graph of steps and decisions. -/
def flowchart (start : Option String) (nodes : List (FlowNode Fragment)) : Fragment :=
  match start with
  | none => around empty
  | some start => do
    let scope ← Scope.enter
    nodes.forM (layNode scope)
    let _ ← Net.merge scope.initialized (nodeName scope start "start")
    nodes.forM (linkNode scope)

end OpenWorkflow.Fragment.Flowchart
