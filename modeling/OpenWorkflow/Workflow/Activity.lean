import OpenWorkflow.Markup.Namespace
import OpenWorkflow.Net.Basic

/-!
# Activities

A workflow is a tree of activities. Primitive activities are a step of the
workflow itself or the exchange of one message; composite activities say in
which order others run. Flowcharts and state machines hold a graph whose nodes
refer to each other by name.

`ActivityType` is what a tag's name selects: an activity of which nothing has
been read yet.
-/

namespace OpenWorkflow

open OpenWorkflow.Markup (qualify activityName)

/-! ## Primitive activities -/

/-- An activity that is one step of the workflow. -/
structure Atomic where
  /-- The namespace of its tag. -/
  ns : String
  /-- The local name of its tag. -/
  name : String
  /-- What its transition is called. -/
  label : String
  deriving DecidableEq

/-- The four ways of exchanging a message. -/
inductive MessageKind where
  /-- Sends a message. -/
  | send
  /-- Waits for a message. -/
  | receive
  /-- Answers a message received. -/
  | sendReply
  /-- Waits for the answer to a message sent. -/
  | receiveReply
  deriving DecidableEq

namespace MessageKind

/-- All kinds, in the order in which they are registered. -/
def all : List MessageKind := [send, receive, sendReply, receiveReply]

/-- The local name of the tag. -/
def name : MessageKind → String
  | send => "Send"
  | receive => "Receive"
  | sendReply => "SendReply"
  | receiveReply => "ReceiveReply"

/-- What the transition is called. -/
def label : MessageKind → String
  | send => "send"
  | receive => "receive"
  | sendReply => "sendreply"
  | receiveReply => "receivereply"

/-- Does the message come in? -/
def isInbound : MessageKind → Bool
  | send | sendReply => false
  | receive | receiveReply => true

/-- Is it one half of a request and its answer? -/
def isReply : MessageKind → Bool
  | send | receive => false
  | sendReply | receiveReply => true

/-- The kind of the place and of the transition. -/
def direction (k : MessageKind) : NodeKind := if k.isInbound then .input else .output

end MessageKind

/-- The exchange of one message. -/
structure Messaging where
  /-- Which way the message goes. -/
  kind : MessageKind
  /-- The contract under which it is exchanged. -/
  contract : String := "C"
  /-- The operation it belongs to. -/
  operation : String := ""
  deriving DecidableEq

/-! ## Parts of composite activities -/

/-- When a loop tests its condition. -/
inductive LoopTest where
  /-- Before each round. -/
  | before
  /-- After each round. -/
  | after
  deriving DecidableEq

/-- The local name of a loop's tag. -/
def LoopTest.name : LoopTest → String
  | before => "While"
  | after => "DoWhile"

/-- One branch of an event-driven choice. -/
structure PickBranch (α : Type) where
  /-- What the branch waits for. -/
  trigger : Option α := none
  /-- What follows the trigger. -/
  action : Option α := none
  deriving DecidableEq

/-- A node of a flowchart. Edges name their target; an edge without one leaves the flowchart. -/
inductive FlowNode (α : Type) where
  /-- Runs an activity. -/
  | step (id : String) (action : Option α) (next : Option String)
  /-- Chooses between two edges. -/
  | decision (id : String) (onTrue onFalse : Option String)
  /-- Chooses between several edges. -/
  | switch (id : String) (fallback : Option String) (cases : List (Option String))
  deriving DecidableEq

namespace FlowNode

variable {α : Type}

/-- The name of the node. -/
def id : FlowNode α → String
  | step id _ _ => id
  | decision id _ _ => id
  | switch id _ _ => id

/-- The edges of the node. -/
def edges : FlowNode α → List (Option String)
  | step _ _ next => [next]
  | decision _ onTrue onFalse => [onTrue, onFalse]
  | switch _ fallback cases => fallback :: cases

/-- The nodes that the edges lead to. -/
def targets (n : FlowNode α) : List String := n.edges.filterMap (fun e => e)

end FlowNode

/-- A way out of a state. -/
structure StateTransition (α : Type) where
  /-- The state it leads to. -/
  target : String
  /-- The key of the trigger it waits for. -/
  trigger : Option String
  /-- Does it carry a condition? -/
  guarded : Bool
  /-- What runs on the way. -/
  action : Option α
  deriving DecidableEq

/-- A state of a state machine. -/
structure State (α : Type) where
  /-- The name of the state. -/
  id : String
  /-- Does the machine end here? -/
  isFinal : Bool
  /-- What runs on arrival. -/
  entry : Option α
  /-- What runs on departure. -/
  exit : Option α
  /-- The ways out. -/
  transitions : List (StateTransition α)
  deriving DecidableEq

/-! ## Activities -/

/-- A tree of activities. -/
inductive Activity where
  /-- One step. -/
  | atomic (atomic : Atomic)
  /-- Nothing to do. -/
  | empty
  /-- The exchange of a message. -/
  | messaging (messaging : Messaging)
  /-- One after another. -/
  | sequence (children : List Activity)
  /-- One of two branches, either of which may be missing. -/
  | conditional (onTrue onFalse : Option Activity)
  /-- The first case that applies, or else the fallback. -/
  | switch (cases : List Activity) (fallback : Option Activity)
  /-- Again and again. -/
  | loop (test : LoopTest) (body : Option Activity)
  /-- All at once. -/
  | parallel (branches : List Activity)
  /-- The branch whose trigger comes first. -/
  | pick (branches : List (PickBranch Activity))
  /-- A graph of steps and decisions. -/
  | flowchart (start : Option String) (nodes : List (FlowNode Activity))
  /-- States with transitions that wait on triggers, which are given by key. -/
  | stateMachine (initial : Option String) (states : List (State Activity))
      (triggers : List (String × Activity))

/-! ## Activity types -/

/-- What a tag's name selects. -/
inductive ActivityType where
  /-- One step. -/
  | atomic (atomic : Atomic)
  /-- Nothing to do; it has no markup of its own. -/
  | empty
  /-- The exchange of a message. -/
  | messaging (kind : MessageKind)
  /-- One after another. -/
  | sequence
  /-- One of two branches. -/
  | conditional
  /-- One of several cases. -/
  | switch
  /-- Again and again. -/
  | loop (test : LoopTest)
  /-- All at once. -/
  | parallel
  /-- The branch whose trigger comes first. -/
  | pick
  /-- A graph of steps and decisions. -/
  | flowchart
  /-- States and transitions. -/
  | stateMachine
  deriving DecidableEq

namespace ActivityType

/-- The local name of the tag. -/
def name : ActivityType → String
  | atomic a => a.name
  | empty => "Empty"
  | messaging kind => kind.name
  | sequence => "Sequence"
  | conditional => "If"
  | switch => "Switch"
  | loop test => test.name
  | parallel => "Parallel"
  | pick => "Pick"
  | flowchart => "Flowchart"
  | stateMachine => "StateMachine"

/-- The qualified name of the tag. -/
def qname : ActivityType → String
  | atomic a => qualify a.ns a.name
  | empty => "Empty"
  | messaging kind => qualify Markup.Namespace.serviceModel kind.name
  | type => activityName type.name

/-- Does it hold other activities? -/
def isComposite : ActivityType → Bool
  | atomic _ | empty | messaging _ => false
  | _ => true

/-- The activity of which nothing has been read. -/
def fresh : ActivityType → Activity
  | atomic a => .atomic a
  | empty => .empty
  | messaging kind => .messaging { kind }
  | sequence => .sequence []
  | conditional => .conditional none none
  | switch => .switch [] none
  | loop test => .loop test none
  | parallel => .parallel []
  | pick => .pick []
  | flowchart => .flowchart none []
  | stateMachine => .stateMachine none [] []

end ActivityType

/-- The type of an activity. -/
def Activity.type : Activity → ActivityType
  | .atomic a => .atomic a
  | .empty => .empty
  | .messaging m => .messaging m.kind
  | .sequence _ => .sequence
  | .conditional _ _ => .conditional
  | .switch _ _ => .switch
  | .loop test _ => .loop test
  | .parallel _ => .parallel
  | .pick _ => .pick
  | .flowchart _ _ => .flowchart
  | .stateMachine _ _ _ => .stateMachine

/-- A fresh activity has the type it was made from. -/
@[simp] theorem ActivityType.type_fresh (type : ActivityType) : type.fresh.type = type := by
  cases type <;> rfl

end OpenWorkflow
