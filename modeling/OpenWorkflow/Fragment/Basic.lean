import OpenWorkflow.Net.Build

/-!
# Fragments

A fragment is the part of a net that stands for one activity. It takes the
number that the net holds when its construction begins, and names its nodes by
that number. Every fragment has a place `initialized` where control enters and a
place `closed` where it leaves. A fragment inside another gets the next number
and is tied in by merging these two places.
-/

namespace OpenWorkflow

/-- The construction of the fragment for the number that the net holds. -/
abbrev Fragment := Build Unit

/-- The number of a fragment. -/
structure Scope where
  /-- The number. -/
  id : Nat
  deriving DecidableEq

namespace Scope

/-- The name of a node of the fragment. -/
def name (s : Scope) (suffix : String) : String := toString s.id ++ ".internal." ++ suffix

/-- The place where control enters. -/
def initialized (s : Scope) : String := s.name "initialized"

/-- The place where control leaves. -/
def closed (s : Scope) : String := s.name "closed"

/-- Takes the number that the net holds and adds the two boundary places. -/
def enter : Build Scope := do
  let scope : Scope := ⟨(← get).scope⟩
  Net.internalPlace scope.initialized
  Net.internalPlace scope.closed
  return scope

end Scope

namespace Fragment

/-- Adds a fragment under the next number, which is the result. -/
def child (f : Fragment) : Build Scope := do
  let id ← Net.nextScope
  f
  return ⟨id⟩

/-- Adds a fragment under the next number, between two places. -/
def splice (f : Fragment) (entry exit : String) : Build Scope := do
  let inner ← child f
  let _ ← Net.merge entry inner.initialized
  let _ ← Net.merge exit inner.closed
  return inner

/-- A single transition from entry to exit. -/
def step (label : String) : Fragment := do
  let scope ← Scope.enter
  let t ← Net.newTransition (scope.name label)
  Net.newArc scope.initialized t
  Net.newArc t scope.closed

/-- Nothing to do. -/
def empty : Fragment := step "empty"

/-- The fragment, or nothing to do where there is none. -/
def orEmpty (f : Option Fragment) : Fragment := f.getD empty

/-- A fragment around another one that it adds nothing to. -/
def around (f : Fragment) : Fragment := do
  let scope ← Scope.enter
  let _ ← splice f scope.initialized scope.closed

end Fragment

end OpenWorkflow
