import OpenWorkflow.Fragment.Basic
import OpenWorkflow.Workflow.Activity

/-!
# Structured control flow

The fragments of sequences, choices, loops and parallel branches, each built
from the fragments of its parts.
-/

namespace OpenWorkflow.Fragment

/-! ## Sequence -/

/-- Adds fragments one after another behind a place; the result is the place
where the last one ends. -/
def chain (last : String) : List Fragment → Build String
  | [] => return last
  | f :: fs => do
    let inner ← child f
    let _ ← Net.merge last inner.initialized
    chain inner.closed fs

/-- One after another. -/
def sequence : List Fragment → Fragment
  | [] => around empty
  | fs => do
    let scope ← Scope.enter
    let last ← chain scope.initialized fs
    let _ ← Net.merge scope.closed last

/-! ## Choice -/

/-- A transition from the condition into a branch, or to the end if there is none. -/
def branch (scope : Scope) (label : String) (f : Option Fragment) : Build Unit := do
  let init ← Net.newTransition (scope.name label)
  Net.newArc (scope.name "condition") init
  match f with
  | some f => do
    let inner ← child f
    Net.newArc init inner.initialized
    let _ ← Net.merge scope.closed inner.closed
  | none => Net.newArc init scope.closed

/-- One of two branches. -/
def conditional (onTrue onFalse : Option Fragment) : Fragment := do
  let scope ← Scope.enter
  let condition := scope.name "condition"
  Net.internalPlace condition
  let eval ← Net.newTransition (scope.name "evalcondition")
  Net.newArc scope.initialized eval
  Net.newArc eval condition
  if onTrue.isNone && onFalse.isNone then
    let finish ← Net.newTransition (scope.name "finish")
    Net.newArc condition finish
    Net.newArc finish scope.closed
  else
    branch scope "initthen" onTrue
    branch scope "initelse" onFalse

/-- Adds the cases of a switch from the `i`-th on; the results are the place
where the last case failed and the places where the cases end. -/
def cases (scope : Scope) : Nat → String → List Fragment → Build (String × List String)
  | _, last, [] => return (last, [])
  | i, last, f :: fs => do
    let state := scope.name ("case" ++ toString i)
    Net.internalPlace state
    let eval ← Net.newTransition (scope.name ("evalcase" ++ toString i))
    let init ← Net.newTransition (scope.name ("initcase" ++ toString i))
    Net.newArc last eval
    Net.newArc eval state
    Net.newArc state init
    let inner ← child f
    Net.newArc init inner.initialized
    let (last, closings) ← cases scope (i + 1) state fs
    return (last, inner.closed :: closings)

/-- The first case that applies, or else the fallback. -/
def switch (fs : List Fragment) (fallback : Option Fragment) : Fragment := do
  let scope ← Scope.enter
  let (last, closings) ← cases scope 1 scope.initialized fs
  let init ← Net.newTransition (scope.name "initdefault")
  Net.newArc last init
  let closings ←
    match fallback with
    | some f => do
      let inner ← child f
      Net.newArc init inner.initialized
      pure (closings ++ [inner.closed])
    | none => do
      Net.newArc init scope.closed
      pure closings
  closings.forM (fun closed => do let _ ← Net.merge scope.closed closed)

/-! ## Loops -/

/-- A loop that tests its condition before each round. -/
def loopBefore (body : Option Fragment) : Fragment := do
  let scope ← Scope.enter
  let condition := scope.name "condition"
  Net.internalPlace condition
  let eval ← Net.newTransition (scope.name "evalcondition")
  let init ← Net.newTransition (scope.name "initactivity")
  let finish ← Net.newTransition (scope.name "endwhile")
  Net.newArc scope.initialized eval
  Net.newArc eval condition
  Net.newArc condition init
  Net.newArc condition finish
  Net.newArc finish scope.closed
  match body with
  | some f => do
    let inner ← child f
    Net.newArc init inner.initialized
    let _ ← Net.merge scope.initialized inner.closed
  | none => Net.newArc init scope.initialized

/-- A loop that tests its condition after each round. -/
def loopAfter (body : Option Fragment) : Fragment := do
  let scope ← Scope.enter
  let condition := scope.name "condition"
  Net.internalPlace condition
  let eval ← Net.newTransition (scope.name "evalcondition")
  let again ← Net.newTransition (scope.name "repeatactivity")
  let finish ← Net.newTransition (scope.name "enddowhile")
  Net.newArc eval condition
  Net.newArc condition again
  Net.newArc again scope.initialized
  Net.newArc condition finish
  Net.newArc finish scope.closed
  match body with
  | some f => do
    let inner ← child f
    Net.newArc inner.closed eval
    let _ ← Net.merge scope.initialized inner.initialized
  | none => Net.newArc scope.initialized eval

/-- A loop. -/
def loop : LoopTest → Option Fragment → Fragment
  | .before, body => loopBefore body
  | .after, body => loopAfter body

/-! ## Parallel branches -/

/-- Adds a branch between a transition that splits control and one that joins it. -/
def parallelBranch (split join : TransitionId) (f : Fragment) : Build Unit := do
  let inner ← child f
  Net.newArc split inner.initialized
  Net.newArc inner.closed join

/-- All at once. -/
def parallel : List Fragment → Fragment
  | [] => around empty
  | [f] => around f
  | fs => do
    let scope ← Scope.enter
    let split ← Net.newTransition (scope.name "split")
    let join ← Net.newTransition (scope.name "join")
    Net.newArc scope.initialized split
    Net.newArc join scope.closed
    fs.forM (parallelBranch split join)

/-! ## Event-driven choice -/

/-- Adds a branch whose trigger starts where the choice starts. -/
def pickBranch (scope : Scope) (b : PickBranch Fragment) : Build Unit := do
  let trigger ← child (orEmpty b.trigger)
  let _ ← Net.merge scope.initialized trigger.initialized
  match b.action with
  | some f => do
    let action ← child f
    let _ ← Net.merge trigger.closed action.initialized
    let _ ← Net.merge scope.closed action.closed
  | none => do
    let _ ← Net.merge scope.closed trigger.closed

/-- The branch whose trigger comes first. -/
def pick : List (PickBranch Fragment) → Fragment
  | [] => around empty
  | bs => do
    let scope ← Scope.enter
    bs.forM (pickBranch scope)

end OpenWorkflow.Fragment
