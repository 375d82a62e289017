import OpenWorkflow.Workflow.Activity

/-!
# Trees of activities

`Activity.parts` are the activities that stand directly in another one, and
`Activity.Throughout P` says that `P` holds of an activity and of all that stand
in it, however deep. Two such properties matter for the net of an activity:

* `Activity.Structured`: there is no graph in it, neither a flowchart nor a state
  machine;
* `Activity.MachineFree`: there is no state machine in it.
-/

namespace OpenWorkflow

variable {α : Type}

/-! ## Parts -/

/-- The activities of a branch. -/
def PickBranch.parts (b : PickBranch α) : List α := b.trigger.toList ++ b.action.toList

/-- The activities of a node. -/
def FlowNode.parts : FlowNode α → List α
  | step _ action _ => action.toList
  | decision _ _ _ => []
  | switch _ _ _ => []

/-- The activities of a state. -/
def State.parts (s : State α) : List α :=
  s.entry.toList ++ s.exit.toList ++ s.transitions.flatMap (·.action.toList)

/-- The activities that stand directly in an activity. -/
def Activity.parts : Activity → List Activity
  | .atomic _ | .empty | .messaging _ => []
  | .sequence children => children
  | .conditional onTrue onFalse => onTrue.toList ++ onFalse.toList
  | .switch cases fallback => cases ++ fallback.toList
  | .loop _ body => body.toList
  | .parallel branches => branches
  | .pick branches => branches.flatMap PickBranch.parts
  | .flowchart _ nodes => nodes.flatMap FlowNode.parts
  | .stateMachine _ states triggers => states.flatMap State.parts ++ triggers.map Prod.snd

/-! ## Properties of whole trees -/

/-- The property holds of the activity and of everything in it. -/
inductive Activity.Throughout (P : Activity → Prop) : Activity → Prop where
  | intro {a : Activity} (here : P a) (parts : ∀ c ∈ a.parts, Throughout P c) : Throughout P a

namespace Activity

variable {P Q : Activity → Prop} {a : Activity}

theorem Throughout.here (h : a.Throughout P) : P a := by
  cases h with
  | intro here => exact here

theorem Throughout.part (h : a.Throughout P) {c : Activity} (hc : c ∈ a.parts) :
    c.Throughout P := by
  cases h with
  | intro _ parts => exact parts c hc

theorem Throughout.leaf (here : P a) (hparts : a.parts = []) : a.Throughout P :=
  ⟨here, fun _ hc => absurd (hparts ▸ hc) List.not_mem_nil⟩

theorem Throughout.imp (h : a.Throughout P) (hPQ : ∀ a, P a → Q a) : a.Throughout Q := by
  induction h with
  | intro here _ ih => exact ⟨hPQ _ here, ih⟩

end Activity

/-- The nodes have different names, and the start and all edges lead to nodes. -/
structure FlowLinked (start : Option String) (nodes : List (FlowNode α)) : Prop where
  ids : (nodes.map FlowNode.id).Nodup
  start : ∀ id ∈ start, id ∈ nodes.map FlowNode.id
  targets : ∀ n ∈ nodes, ∀ id ∈ n.targets, id ∈ nodes.map FlowNode.id

/-- The initial state and the targets of the transitions exist. -/
structure MachineLinked (initial : Option String) (states : List (State α)) : Prop where
  initial : ∀ id ∈ initial, id ∈ states.map State.id
  targets : ∀ s ∈ states, ∀ t ∈ s.transitions, t.target ∈ states.map State.id

namespace Activity

/-- The edges, initial states and targets of a graph lead somewhere. -/
def Links : Activity → Prop
  | .flowchart start nodes => FlowLinked start nodes
  | .stateMachine initial states _ => MachineLinked initial states
  | _ => True

/-- Nothing in the activity is a graph. -/
def Structured (a : Activity) : Prop :=
  a.Throughout fun b => b.type ≠ .flowchart ∧ b.type ≠ .stateMachine

/-- Nothing in the activity is a state machine. -/
def MachineFree (a : Activity) : Prop := a.Throughout fun b => b.type ≠ .stateMachine

end Activity

end OpenWorkflow
