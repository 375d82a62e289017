import OpenWorkflow.Fragment.Basic
import OpenWorkflow.Workflow.Activity

/-!
# State machines

The fragment of a state machine is laid out state by state and then linked.
A state runs its entry, waits for the triggers of its transitions, each of which
it has a copy of, and then tries the transitions of the trigger that fired in
order. The transition taken runs its action and, beside it, the exit of the
state, and leads to the place where its target state starts.
-/

namespace OpenWorkflow.Fragment.StateMachine

/-! ## Guard chains -/

/-- One transition as seen by a guard chain: its position in the state, counted
from one, and whether it carries a condition. -/
structure Candidate where
  /-- The position of the transition. -/
  index : Nat
  /-- Does it carry a condition? -/
  guarded : Bool
  deriving DecidableEq

/-- The names that a guard chain uses. -/
structure GuardChain where
  /-- The name of the state. -/
  state : String
  /-- What distinguishes the chain from others of the state. -/
  label : String
  /-- The place where the state waits for the trigger. -/
  waiting : String

namespace GuardChain

/-- The name of a node of the chain. -/
def name (c : GuardChain) (suffix : String) : String := c.state ++ "." ++ c.label ++ "." ++ suffix

/-- The place where the action of a candidate starts. -/
def action (c : GuardChain) (b : Candidate) : String :=
  c.state ++ ".t" ++ toString b.index ++ ".action.initialized"

/-- Adds the candidates from the `k`-th on, which are tried from the place
`last`. A guard that fails leads on to the next candidate, or back to waiting
after the last one. -/
def candidates (c : GuardChain) : Nat → String → List Candidate → Build Unit
  | _, _, [] => return
  | k, last, b :: bs => do
    let start ← Net.newTransition (c.name ("start" ++ toString k))
    if b.guarded then
      let eval ← Net.newTransition (c.name ("eval" ++ toString k))
      let condition := c.name ("condition" ++ toString k)
      let wrong ← Net.newTransition (c.name ("wrong" ++ toString k))
      Net.internalPlace condition
      Net.newArc last eval
      Net.newArc eval condition
      Net.newArc condition wrong
      Net.newArc condition start
      if bs.isEmpty then
        Net.newArc wrong c.waiting
        Net.newArc start (c.action b)
        candidates c (k + 1) last bs
      else
        let next := c.name ("runcondition" ++ toString (k + 1))
        Net.internalPlace next
        Net.newArc wrong next
        Net.newArc start (c.action b)
        candidates c (k + 1) next bs
    else
      Net.newArc last start
      Net.newArc start (c.action b)
      candidates c (k + 1) last bs

/-- Adds the chain that starts, through the transition `on`, where the trigger
has fired. -/
def compile (c : GuardChain) (fired on : String) (bs : List Candidate) : Build Unit := do
  let on ← Net.newTransition on
  let last := c.name "runcondition1"
  Net.internalPlace last
  Net.newArc fired on
  Net.newArc on last
  candidates c 1 last bs

end GuardChain

/-! ## States -/

/-- Adds the two boundary places of an activity of a state, and its fragment
between them. -/
def enclosed (f : Fragment) (entry exit : String) : Build Unit := do
  Net.internalPlace entry
  Net.internalPlace exit
  let _ ← splice f entry exit

/-- Adds the entry of a state; the result is the place where it ends. -/
def layEntry (state : String) (entry : Option Fragment) : Build String := do
  let initialized := state ++ ".initialized"
  Net.internalPlace initialized
  match entry with
  | some f => do
    enclosed f (state ++ ".entry.initialized") (state ++ ".entry.closed")
    let _ ← Net.merge initialized (state ++ ".entry.initialized")
    return state ++ ".entry.closed"
  | none => return initialized

/-- Adds the exit of a state; the results are the places where it starts and ends. -/
def layExit (state : String) (exit : Option Fragment) : Build (String × String) := do
  match exit with
  | some f => do
    enclosed f (state ++ ".exit.initialized") (state ++ ".exit.closed")
    return (state ++ ".exit.initialized", state ++ ".exit.closed")
  | none => do
    Net.internalPlace (state ++ ".exit")
    return (state ++ ".exit", state ++ ".exit")

/-- The place of a state that becomes the start of a transition's target. -/
def targetName (state : String) (i : Nat) (target : String) : String :=
  state ++ ".to" ++ toString i ++ "." ++ target

/-- Adds the action of the `i`-th transition; the result is the place where it ends. -/
def layAction (state : String) (i : Nat) (action : Option Fragment) : Build String := do
  let init := state ++ ".t" ++ toString i ++ ".action.initialized"
  Net.internalPlace init
  match action with
  | some f => do
    let done := state ++ ".t" ++ toString i ++ ".action.closed"
    Net.internalPlace done
    let _ ← splice f init done
    return done
  | none => return init

/-- Adds the `i`-th transition of a state from its action to its target. -/
def layTransition (state : String) (exit : String × String) (i : Nat)
    (t : StateTransition Fragment) : Build Unit := do
  let done ← layAction state i t.action
  let wait := state ++ ".t" ++ toString i ++ ".wait"
  let target := targetName state i t.target
  Net.internalPlace wait
  Net.internalPlace target
  let split ← Net.newTransition (state ++ ".t" ++ toString i ++ ".split")
  let leave ← Net.newTransition (state ++ ".t" ++ toString i)
  Net.newArc done split
  Net.newArc split exit.1
  Net.newArc split wait
  Net.newArc wait leave
  Net.newArc exit.2 leave
  Net.newArc leave target

/-- Adds the transitions of a state from the `i`-th on. -/
def layTransitions (state : String) (exit : String × String) :
    Nat → List (StateTransition Fragment) → Build Unit
  | _, [] => return
  | i, t :: ts => do
    layTransition state exit i t
    layTransitions state exit (i + 1) ts

/-- The candidates that wait for a given trigger, or for none. -/
def candidatesOf {α : Type} (key : Option String) (ts : List (StateTransition α)) :
    List Candidate :=
  ts.zipIdx.filterMap fun t =>
    if t.1.trigger = key then some { index := t.2 + 1, guarded := t.1.guarded } else none

/-- The keys of the triggers that the transitions wait for, in order of first use. -/
def triggerKeys {α : Type} (ts : List (StateTransition α)) : List String :=
  (OrderedSet.ofList (ts.filterMap (fun t => t.trigger))).toList

/-- Adds a state's copy of a trigger, from the end of the entry on, and the
chain of the transitions that wait for it. -/
def layTrigger (state entryDone : String) (triggers : List (String × Fragment))
    (ts : List (StateTransition Fragment)) (key : String) : Build Unit := do
  let triggerIn := state ++ ".trigger." ++ key ++ ".in"
  let triggerOut := state ++ ".trigger." ++ key ++ ".out"
  Net.internalPlace triggerIn
  Net.internalPlace triggerOut
  match triggers.lookup key with
  | some f => do
    let _ ← splice f triggerIn triggerOut
  | none => pure ()
  let _ ← Net.merge entryDone triggerIn
  GuardChain.compile { state, label := key, waiting := triggerIn } triggerOut
    (state ++ ".ontrigger." ++ key) (candidatesOf (some key) ts)

/-- Adds the chain of the transitions that wait for no trigger. -/
def layUntriggered (state entryDone : String) (ts : List (StateTransition Fragment)) :
    Build Unit := do
  let candidates := candidatesOf none ts
  if candidates.isEmpty then return
  else
    let trigger := state ++ ".trigger"
    Net.internalPlace trigger
    let _ ← Net.merge entryDone trigger
    GuardChain.compile { state, label := "notrigger", waiting := trigger } trigger
      (state ++ ".onemptytrigger") candidates

/-- Lays out a state. -/
def layState (scope : Scope) (triggers : List (String × Fragment)) (s : State Fragment) :
    Build Unit := do
  let state := scope.name s.id
  let entryDone ← layEntry state s.entry
  if s.isFinal then
    Net.internalPlace (state ++ ".closed")
    let _ ← Net.merge entryDone (state ++ ".closed")
  else
    let exit ← layExit state s.exit
    layTransitions state exit 1 s.transitions
    (triggerKeys s.transitions).forM (layTrigger state entryDone triggers s.transitions)
    layUntriggered state entryDone s.transitions

/-! ## The machine -/

/-- Links the transitions of a state from the `i`-th on to their targets. -/
def linkTransitions (scope : Scope) (id : String) :
    Nat → List (StateTransition Fragment) → Build Unit
  | _, [] => return
  | i, t :: ts => do
    let _ ← Net.merge (targetName (scope.name id) i t.target)
      (scope.name (t.target ++ ".initialized"))
    linkTransitions scope id (i + 1) ts

/-- Links the start of the machine to its initial state. -/
def linkInitial (scope : Scope) : Option String → Build Unit
  | some id => do
    let _ ← Net.merge scope.initialized (scope.name (id ++ ".initialized"))
  | none => return

/-- Links the end of the machine to a final state. -/
def linkFinal (scope : Scope) (s : State Fragment) : Build Unit := do
  let _ ← Net.merge scope.closed (scope.name (s.id ++ ".closed"))

/-- States with transitions that wait on triggers. -/
def stateMachine (initial : Option String) (states : List (State Fragment))
    (triggers : List (String × Fragment)) : Fragment := do
  let scope ← Scope.enter
  states.forM (layState scope triggers)
  linkInitial scope initial
  (states.filter (fun s => s.isFinal)).forM (linkFinal scope)
  (states.filter (fun s => !s.isFinal)).forM
    (fun s => linkTransitions scope s.id 1 s.transitions)

end OpenWorkflow.Fragment.StateMachine
