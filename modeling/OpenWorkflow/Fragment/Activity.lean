import OpenWorkflow.Fragment.Flowchart
import OpenWorkflow.Fragment.Messaging
import OpenWorkflow.Fragment.StateMachine
import OpenWorkflow.Fragment.Structured

/-!
# The fragment of an activity

`Activity.fragment` goes through the tree and builds the fragment of each
activity from the fragments of its parts.
-/

namespace OpenWorkflow

mutual

/-- The fragment of an activity. -/
def Activity.fragment : Activity → Fragment
  | .atomic a => Fragment.step a.label
  | .empty => Fragment.empty
  | .messaging m => Fragment.messaging m
  | .sequence children => Fragment.sequence (fragments children)
  | .conditional onTrue onFalse =>
    Fragment.conditional (fragment? onTrue) (fragment? onFalse)
  | .switch cases fallback => Fragment.switch (fragments cases) (fragment? fallback)
  | .loop test body => Fragment.loop test (fragment? body)
  | .parallel branches => Fragment.parallel (fragments branches)
  | .pick branches => Fragment.pick (branchFragments branches)
  | .flowchart start nodes => Fragment.Flowchart.flowchart start (nodeFragments nodes)
  | .stateMachine initial states triggers =>
    Fragment.StateMachine.stateMachine initial (stateFragments states)
      (triggerFragments triggers)

/-- The fragments of a list of activities. -/
def fragments : List Activity → List Fragment
  | [] => []
  | a :: as => a.fragment :: fragments as

/-- The fragment of an activity that may be missing. -/
def fragment? : Option Activity → Option Fragment
  | none => none
  | some a => some a.fragment

/-- The branch of a pick with the fragments of its activities. -/
def branchFragment : PickBranch Activity → PickBranch Fragment
  | ⟨trigger, action⟩ => ⟨fragment? trigger, fragment? action⟩

/-- The branches of a pick with the fragments of their activities. -/
def branchFragments : List (PickBranch Activity) → List (PickBranch Fragment)
  | [] => []
  | b :: bs => branchFragment b :: branchFragments bs

/-- The flow node with the fragment of its activity. -/
def nodeFragment : FlowNode Activity → FlowNode Fragment
  | .step id action next => .step id (fragment? action) next
  | .decision id onTrue onFalse => .decision id onTrue onFalse
  | .switch id fallback cases => .switch id fallback cases

/-- The flow nodes with the fragments of their activities. -/
def nodeFragments : List (FlowNode Activity) → List (FlowNode Fragment)
  | [] => []
  | n :: ns => nodeFragment n :: nodeFragments ns

/-- The transition with the fragment of its activity. -/
def transitionFragment : StateTransition Activity → StateTransition Fragment
  | ⟨target, trigger, guarded, action⟩ => ⟨target, trigger, guarded, fragment? action⟩

/-- The transitions with the fragments of their activities. -/
def transitionFragments : List (StateTransition Activity) → List (StateTransition Fragment)
  | [] => []
  | t :: ts => transitionFragment t :: transitionFragments ts

/-- The state with the fragments of its activities. -/
def stateFragment : State Activity → State Fragment
  | ⟨id, isFinal, entry, exit, transitions⟩ =>
    ⟨id, isFinal, fragment? entry, fragment? exit, transitionFragments transitions⟩

/-- The states with the fragments of their activities. -/
def stateFragments : List (State Activity) → List (State Fragment)
  | [] => []
  | s :: ss => stateFragment s :: stateFragments ss

/-- The triggers with the fragments of their activities. -/
def triggerFragments : List (String × Activity) → List (String × Fragment)
  | [] => []
  | t :: ts => triggerFragment t :: triggerFragments ts

/-- The trigger with the fragment of its activity. -/
def triggerFragment : String × Activity → String × Fragment
  | (key, a) => (key, a.fragment)

end

/-- The fragments of a list are those of its members. -/
theorem fragments_eq_map (as : List Activity) : fragments as = as.map Activity.fragment := by
  induction as with
  | nil => rfl
  | cons a as ih => rw [fragments, List.map_cons, ih]

/-- The branches keep their order. -/
theorem branchFragments_eq_map (bs : List (PickBranch Activity)) :
    branchFragments bs = bs.map branchFragment := by
  induction bs with
  | nil => rfl
  | cons b bs ih => rw [branchFragments, List.map_cons, ih]

/-- The nodes keep their order. -/
theorem nodeFragments_eq_map (ns : List (FlowNode Activity)) :
    nodeFragments ns = ns.map nodeFragment := by
  induction ns with
  | nil => rfl
  | cons n ns ih => rw [nodeFragments, List.map_cons, ih]

/-- The transitions keep their order. -/
theorem transitionFragments_eq_map (ts : List (StateTransition Activity)) :
    transitionFragments ts = ts.map transitionFragment := by
  induction ts with
  | nil => rfl
  | cons t ts ih => rw [transitionFragments, List.map_cons, ih]

/-- The states keep their order. -/
theorem stateFragments_eq_map (ss : List (State Activity)) :
    stateFragments ss = ss.map stateFragment := by
  induction ss with
  | nil => rfl
  | cons s ss ih => rw [stateFragments, List.map_cons, ih]

end OpenWorkflow
