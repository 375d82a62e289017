import OpenWorkflow.Workflow.Reader.Flowchart
import OpenWorkflow.Workflow.Reader.Primitive
import OpenWorkflow.Workflow.Reader.StateMachine
import OpenWorkflow.Workflow.Reader.Structured

/-!
# The registry of activities

A registry says which activity a tag's qualified name stands for; of two
registrations of one name the first counts. With it, `Registry.parseChild` reads
the activity at the front of a token stream, and everything nested in it.
-/

namespace OpenWorkflow

/-- Reads an activity of the given type. -/
def ActivityType.read (child : ChildReader) : ActivityType → Parser Activity
  | .atomic a => Reader.atomic a
  | .empty => return .empty
  | .messaging kind => do return .messaging (← Reader.messaging kind)
  | .sequence => Reader.sequence child
  | .conditional => Reader.conditional child
  | .switch => Reader.switch child
  | .loop test => Reader.loop child test
  | .parallel => Reader.parallel child
  | .pick => Reader.pick child
  | .flowchart => Reader.Flowchart.flowchart child
  | .stateMachine => Reader.StateMachine.stateMachine child

/-- The activity types by the qualified names of their tags. -/
structure Registry where
  /-- The entries in the order of registration. -/
  types : OrderedMap String ActivityType := ∅
  deriving DecidableEq

namespace Registry

/-- The registry without entries. -/
def empty : Registry := {}

/-- The activity type that a name stands for. -/
def resolve? (r : Registry) (qname : String) : Option ActivityType := r.types.get? qname

/-- Is the name registered? -/
def contains (r : Registry) (qname : String) : Bool := r.types.contains qname

/-- The registered names in order. -/
def qnames (r : Registry) : List String := r.types.keys

/-- Registers a type under a name, unless the name is taken. -/
def register (r : Registry) (qname : String) (type : ActivityType) : Registry :=
  if r.contains qname then r else { types := r.types.insert qname type }

/-- The activities that every workflow can use, each under its own name. -/
def standardTypes : List ActivityType :=
  [.atomic ⟨Markup.Namespace.activities, "Assign", "assign"⟩,
    .atomic ⟨Markup.Namespace.activities, "Delay", "delay"⟩,
    .atomic ⟨Markup.Namespace.activities, "WriteLine", "writeline"⟩]
    ++ MessageKind.all.map .messaging
    ++ [.sequence, .conditional, .switch, .loop .before, .loop .after, .parallel, .pick,
      .flowchart, .stateMachine]

/-- The registry of the standard activities. -/
def standard : Registry := standardTypes.foldl (fun r type => r.register type.qname type) empty

/-- Reads the activity at the front, in which activities lie at most `n` deep. -/
def child (r : Registry) : Nat → ChildReader
  | 0, owner => Parser.fail .stalled owner
  | n + 1, owner => do
    let front ← Parser.peekStart owner
    match r.resolve? front.qname with
    | none => Parser.fail (.unresolved front.qname) owner
    | some type => type.read (r.child n)

/-- Reads the activity at the front of the stream. Each level of nesting
consumes a tag, so the tags that remain bound the depth. -/
def parseChild (r : Registry) (owner : String) : Parser Activity := do
  r.child ((← Parser.remaining) + 1) owner

/-- Reads an activity of a given type at the front of the stream. -/
def parse (r : Registry) (type : ActivityType) : Parser Activity := do
  type.read (r.child ((← Parser.remaining) + 1))

end Registry

end OpenWorkflow
