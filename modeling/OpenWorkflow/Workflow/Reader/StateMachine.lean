import OpenWorkflow.Data.OrderedMap
import OpenWorkflow.Workflow.Reader.Basic

/-!
# Reading state machines

The states of a machine are listed in it or stand where a transition or the
machine itself refers to them. A state is recorded when its element has been
read. Transitions share triggers by key: a trigger is given in one transition
and referred to in others, and of two given under one key the later counts.
States and triggers without a name get one of their own, counted together.

When everything has been read, the machine must have states with distinct
names, an initial state among them, targets among them, and an activity for
every trigger.
-/

namespace OpenWorkflow.Reader.StateMachine

open OpenWorkflow.Markup (activityName languageName Token)

/-- The name under which state machines report faults. -/
def owner : String := "StateMachine"

/-- The states and triggers read so far. -/
structure Machine where
  /-- The states in the order in which they were completed. -/
  states : List (State Activity) := []
  /-- The triggers; one that has only been referred to has no activity. -/
  triggers : OrderedMap String (Option Activity) := ∅
  /-- How many names have been generated. -/
  generated : Nat := 0

namespace Machine

/-- The given name or else a generated one for the given kind of thing. -/
def nameOf (m : Machine) (kind : String) : Option String → String × Machine
  | some name => (name, m)
  | none =>
    ("__" ++ kind ++ toString (m.generated + 1), { m with generated := m.generated + 1 })

/-- Records a state. -/
def push (m : Machine) (state : State Activity) : Machine :=
  { m with states := m.states ++ [state] }

/-- Records the activity of a trigger. -/
def giveTrigger (m : Machine) (key : String) (activity : Activity) : Machine :=
  { m with triggers := m.triggers.insert key (some activity) }

/-- Records that a trigger is referred to. -/
def needTrigger (m : Machine) : Option String → Machine
  | none => m
  | some key =>
    if m.triggers.contains key then m else { m with triggers := m.triggers.insert key none }

end Machine

/-- Reads a state, or a reference to one, and gives its name. -/
abbrev StateReader := Machine → Parser (String × Machine)

/-- Reads a trigger property and gives the key of the trigger. -/
def trigger (child : ChildReader) (m : Machine) : Parser (Option String × Machine) := do
  let wrapper := activityName "Transition.Trigger"
  let _ ← Parser.expectStart wrapper owner
  let result ←
    if ← Parser.atEndOf wrapper then pure (none, m)
    else if ← Parser.atStartOf (languageName "Null") then do
      let _ ← Parser.skipElement owner
      pure (none, m)
    else if ← Parser.atStartOf (languageName "Reference") then do
      let key ← reference owner
      pure (some key, m)
    else do
      let front ← Parser.peekStart owner
      let (key, m) := m.nameOf "trigger" (front.attribute? "x:Name")
      let activity ← child owner
      pure (some key, m.giveTrigger key activity)
  let _ ← Parser.expectEnd wrapper owner
  return result

/-- What has been read of a transition. -/
structure TransitionDraft where
  /-- The states and triggers read so far. -/
  machine : Machine
  /-- The state it leads to. -/
  target : Option String
  /-- The key of its trigger. -/
  trigger : Option String
  /-- Does it carry a condition? -/
  guarded : Bool
  /-- What runs on the way. -/
  action : Option Activity := none

/-- Reads one part of a transition. -/
def transitionPart (child : ChildReader) (state : StateReader) (d : TransitionDraft) :
    Parser TransitionDraft := do
  if ← Parser.atStartOf (activityName "Transition.Trigger") then
    let (key, machine) ← trigger child d.machine
    return { d with trigger := key, machine }
  else if ← Parser.atStartOf (activityName "Transition.Condition") then
    let _ ← Parser.skipElement owner
    return { d with guarded := true }
  else if ← Parser.atStartOf (activityName "Transition.To") then
    let _ ← Parser.nextToken owner
    let d ←
      if ← Parser.atEndOf (activityName "Transition.To") then pure d
      else do
        let (id, machine) ← state d.machine
        pure { d with target := some id, machine }
    let _ ← Parser.expectEnd (activityName "Transition.To") owner
    return d
  else if ← Parser.atStartOf (activityName "Transition.Action") then
    let action ← wrapped child (activityName "Transition.Action") owner
    return { d with action }
  else Parser.unexpected owner

/-- The name that an attribute refers to. -/
def referred? (t : Token) (key : String) : Option String := (t.attribute? key).map referenceName

/-- Reads a transition. -/
def transition (child : ChildReader) (state : StateReader) (m : Machine) :
    Parser (StateTransition Activity × Machine) := do
  let qname := activityName "Transition"
  let start ← Parser.expectStart qname owner
  let d ← Parser.untilEnd qname owner (transitionPart child state)
    { machine := m, target := referred? start "To", trigger := referred? start "Trigger",
      guarded := (start.attribute? "Condition").isSome }
  let _ ← Parser.expectEnd qname owner
  match d.target with
  | none => Parser.fail .missingTargetState owner
  | some target =>
    return ({ target, trigger := d.trigger, guarded := d.guarded, action := d.action },
      d.machine.needTrigger d.trigger)

/-- What has been read of a state. -/
structure StateDraft where
  /-- The states and triggers read so far. -/
  machine : Machine
  /-- What runs on arrival. -/
  entry : Option Activity := none
  /-- What runs on departure. -/
  exit : Option Activity := none
  /-- The ways out. -/
  transitions : List (StateTransition Activity) := []

/-- Reads one transition of a state. -/
def stateTransition (child : ChildReader) (state : StateReader) (d : StateDraft) :
    Parser StateDraft := do
  let (t, machine) ← transition child state d.machine
  return { d with transitions := d.transitions ++ [t], machine }

/-- Reads one part of a state. -/
def statePart (child : ChildReader) (state : StateReader) (d : StateDraft) :
    Parser StateDraft := do
  let transitions := activityName "State.Transitions"
  if ← Parser.atStartOf (activityName "State.Entry") then
    let entry ← wrapped child (activityName "State.Entry") owner
    return { d with entry }
  else if ← Parser.atStartOf (activityName "State.Exit") then
    let exit ← wrapped child (activityName "State.Exit") owner
    return { d with exit }
  else if ← Parser.atStartOf transitions then
    let _ ← Parser.nextToken owner
    let d ← Parser.untilEnd transitions owner (stateTransition child state) d
    let _ ← Parser.expectEnd transitions owner
    return d
  else Parser.unexpected owner

/-- Is an attribute's value the word `true` in any case? -/
def isTrue (value : String) : Bool := value.toList.map Char.toLower == "true".toList

/-- Reads a state, or a reference to one, in which states lie at most `n` deep. -/
def state (child : ChildReader) : Nat → StateReader
  | 0, _ => Parser.fail .stalled owner
  | n + 1, m => do
    if ← Parser.atStartOf (languageName "Reference") then
      let id ← reference owner
      return (id, m)
    else
      let qname := activityName "State"
      let start ← Parser.expectStart qname owner
      let (id, machine) := m.nameOf "state" (start.attribute? "x:Name")
      let d ← Parser.untilEnd qname owner (statePart child (state child n)) { machine }
      let _ ← Parser.expectEnd qname owner
      let isFinal := ((start.attribute? "IsFinal").map isTrue).getD false
      return (id, d.machine.push
        { id, isFinal, entry := d.entry, exit := d.exit, transitions := d.transitions })

/-- What has been read of a state machine. -/
structure Draft where
  /-- The states and triggers read so far. -/
  machine : Machine := {}
  /-- The state where the machine starts. -/
  initial : Option String

/-- Reads a state inside the initial property; the first name counts, unless an
attribute gave one. -/
def initialState (state : StateReader) (d : Draft) : Parser Draft := do
  let (id, machine) ← state d.machine
  return { machine, initial := d.initial <|> some id }

/-- Reads a state in the list of states. -/
def listedState (state : StateReader) (d : Draft) : Parser Draft := do
  let (_, machine) ← state d.machine
  return { d with machine }

/-- Reads one part of a state machine. -/
def part (state : StateReader) (d : Draft) : Parser Draft := do
  let initial := activityName "StateMachine.InitialState"
  let states := activityName "StateMachine.States"
  if ← Parser.atStartOf initial then
    let _ ← Parser.nextToken owner
    let d ← Parser.untilEnd initial owner (initialState state) d
    let _ ← Parser.expectEnd initial owner
    return d
  else if ← Parser.atStartOf states then
    let _ ← Parser.nextToken owner
    let d ← Parser.untilEnd states owner (listedState state) d
    let _ ← Parser.expectEnd states owner
    return d
  else if ← Parser.atStartOf (activityName "State") then listedState state d
  else if ← Parser.atStartOf (languageName "Reference") then listedState state d
  else Parser.unexpected owner

/-- What is wrong with the initial state. -/
def initialFault? (known : List String) : Option String → Option Fault
  | none => some .missingInitialState
  | some id => if id ∈ known then none else some (.unknownInitialState id)

/-- What is wrong with the targets of a state's transitions. -/
def targetFault? (known : List String) (s : State Activity) : Option Fault :=
  (s.transitions.find? (fun t => t.target ∉ known)).map
    (fun t => .unknownTargetState t.target s.id)

/-- What is wrong with the triggers. -/
def triggerFault? (triggers : List (String × Option Activity)) : Option Fault :=
  (triggers.find? (fun t => t.2.isNone)).map (fun t => .unknownTrigger t.1)

/-- What is wrong with a state machine; of several faults the first in the
order states, initial state, targets, triggers. -/
def fault? (initial : Option String) (m : Machine) : Option Fault :=
  let known := m.states.map State.id
  if m.states.isEmpty then some .noStates
  else
    match firstRepeated [] known with
    | some id => some (.duplicateState id)
    | none =>
      initialFault? known initial
        <|> m.states.findSome? (targetFault? known)
        <|> triggerFault? m.triggers.toList

/-- Refuses a fault, if there is one. -/
def check : Option Fault → Parser Unit
  | some fault => Parser.fail fault owner
  | none => return

/-- The triggers with their activities. -/
def givenTriggers (m : Machine) : List (String × Activity) :=
  m.triggers.toList.filterMap (fun t => t.2.map (fun activity => (t.1, activity)))

/-- Reads a state machine. -/
def stateMachine (child : ChildReader) : Parser Activity := do
  let qname := activityName "StateMachine"
  let root ← Parser.expectStart qname owner
  let depth := (← Parser.remaining) + 1
  let d ← Parser.untilEnd qname owner (part (state child depth))
    { initial := referred? root "InitialState" }
  check (fault? d.initial d.machine)
  let _ ← Parser.expectEnd qname owner
  return .stateMachine d.initial d.machine.states (givenTriggers d.machine)

end OpenWorkflow.Reader.StateMachine
