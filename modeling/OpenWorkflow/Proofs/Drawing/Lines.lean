import OpenWorkflow.Proofs.Drawing.Basic
import OpenWorkflow.Proofs.Fragment.Walk

/-!
# The drawing of an activity

`Activity.lines` are the lines that the fragment of an activity draws by itself.
They tie in the fragments inside by their numbers, and these follow from how many
fragments come before, so nothing in the lines depends on what the activities
inside do. The drawing of an activity (`Activity.drawing`) is the lines of all
its fragments, each under its number.

Each function below draws what one part of the construction of a fragment does.
Where it has a parameter `k`, this is the last number in use, and the next
fragment inside has `k + 1`.
-/

namespace OpenWorkflow

open Fragment.Flowchart (nodeName)
open Fragment.StateMachine (Candidate GuardChain candidatesOf targetName triggerKeys)

/-! ## Numbers -/

namespace Activity

/-- How many fragments an activity has. -/
def size (a : Activity) : Nat := a.walk.length

/-- How many fragments activities have. -/
def sizes (as : List Activity) : Nat := (as.flatMap walk).length

@[simp] theorem sizes_nil : sizes [] = 0 := rfl

@[simp] theorem sizes_cons (a : Activity) (as : List Activity) :
    sizes (a :: as) = a.size + sizes as := by
  simp [sizes, size]

@[simp] theorem sizes_append (as bs : List Activity) : sizes (as ++ bs) = sizes as + sizes bs := by
  simp [sizes]

theorem size_eq (a : Activity) : a.size = sizes a.built + 1 := by
  rw [size, walk_eq, List.length_cons, sizes]

end Activity

open Activity (sizes)

/-- The lines of parts, each of which has some fragments inside. -/
def numberedLines {α : Type} (lines : Nat → α → List Line) (built : α → List Activity) :
    Nat → List α → List Line
  | _, [] => []
  | k, x :: xs => lines k x ++ numberedLines lines built (k + sizes (built x)) xs

namespace Activity

/-! ## Steps and messages -/

/-- The two ends of a fragment. -/
def endLines (s : Scope) : List Line :=
  [.place s.initialized .internal, .place s.closed .internal]

/-- A transition from one end to the other. -/
def stepLines (s : Scope) (label : String) : List Line :=
  [.transition (s.name label) .internal, .arc .consumes s.initialized (s.name label),
    .arc .produces s.closed (s.name label)]

/-- A fragment tied in between two places. -/
def spliceLines (entry exit : String) (inner : Scope) : List Line :=
  [.joins entry inner.initialized, .joins exit inner.closed]

/-- Which way the arc of a message goes. -/
def messageFlow (m : Messaging) : ArcKind := if m.kind.isInbound then .consumes else .produces

/-- The exchange of a message. -/
def messageLines (s : Scope) (m : Messaging) : List Line :=
  [.place (m.placeName s) m.kind.direction, .port m.port (m.placeName s),
    .transition (s.name m.kind.label) m.kind.direction,
    .arc .consumes s.initialized (s.name m.kind.label),
    .arc .produces s.closed (s.name m.kind.label),
    .arc (messageFlow m) (m.placeName s) (s.name m.kind.label)]

/-! ## Sequence -/

/-- Fragments behind one another. -/
def chainLines : String → Nat → List Activity → List Line
  | _, _, [] => []
  | last, k, a :: as =>
    .joins last (Scope.initialized ⟨k + 1⟩) :: chainLines (Scope.closed ⟨k + 1⟩) (k + a.size) as

/-- Where fragments behind one another end. -/
def chainEnd : String → Nat → List Activity → String
  | last, _, [] => last
  | _, k, a :: as => chainEnd (Scope.closed ⟨k + 1⟩) (k + a.size) as

def sequenceLines (s : Scope) (as : List Activity) : List Line :=
  if as.isEmpty then spliceLines s.initialized s.closed ⟨s.id + 1⟩
  else chainLines s.initialized s.id as ++ [.joins s.closed (chainEnd s.initialized s.id as)]

/-! ## Choice -/

def branchLines (s : Scope) (label : String) (k : Nat) (a : Option Activity) : List Line :=
  .transition (s.name label) .internal :: .arc .consumes (s.name "condition") (s.name label) ::
    if a.isSome then
      [.arc .produces (Scope.initialized ⟨k + 1⟩) (s.name label),
        .joins s.closed (Scope.closed ⟨k + 1⟩)]
    else [.arc .produces s.closed (s.name label)]

def conditionalLines (s : Scope) (onTrue onFalse : Option Activity) : List Line :=
  [.place (s.name "condition") .internal, .transition (s.name "evalcondition") .internal,
    .arc .consumes s.initialized (s.name "evalcondition"),
    .arc .produces (s.name "condition") (s.name "evalcondition")] ++
    if onTrue.isNone && onFalse.isNone then
      [.transition (s.name "finish") .internal,
        .arc .consumes (s.name "condition") (s.name "finish"),
        .arc .produces s.closed (s.name "finish")]
    else
      branchLines s "initthen" s.id onTrue
        ++ branchLines s "initelse" (s.id + sizes onTrue.toList) onFalse

/-- The place where the `i`-th case of a switch has failed. -/
def casePlace (s : Scope) (i : Nat) : String := s.name ("case" ++ toString i)

/-- The cases of a switch from the `i`-th on. -/
def caseLines (s : Scope) : Nat → String → Nat → List Activity → List Line
  | _, _, _, [] => []
  | i, last, k, a :: as =>
    [.place (casePlace s i) .internal,
      .transition (s.name ("evalcase" ++ toString i)) .internal,
      .transition (s.name ("initcase" ++ toString i)) .internal,
      .arc .consumes last (s.name ("evalcase" ++ toString i)),
      .arc .produces (casePlace s i) (s.name ("evalcase" ++ toString i)),
      .arc .consumes (casePlace s i) (s.name ("initcase" ++ toString i)),
      .arc .produces (Scope.initialized ⟨k + 1⟩) (s.name ("initcase" ++ toString i))]
      ++ caseLines s (i + 1) (casePlace s i) (k + a.size) as

/-- The place where the last case has failed. -/
def lastCase (s : Scope) : Nat → String → List Activity → String
  | _, last, [] => last
  | i, _, _ :: as => lastCase s (i + 1) (casePlace s i) as

/-- The places where fragments end. -/
def closings : Nat → List Activity → List String
  | _, [] => []
  | k, a :: as => Scope.closed ⟨k + 1⟩ :: closings (k + a.size) as

theorem closings_append (k : Nat) (as bs : List Activity) :
    closings k (as ++ bs) = closings k as ++ closings (k + sizes as) bs := by
  induction as generalizing k with
  | nil => simp [closings]
  | cons a as ih => simp [closings, ih, Nat.add_assoc]

def switchLines (s : Scope) (as : List Activity) (fallback : Option Activity) : List Line :=
  caseLines s 1 s.initialized s.id as ++
    [.transition (s.name "initdefault") .internal,
      .arc .consumes (lastCase s 1 s.initialized as) (s.name "initdefault"),
      .arc .produces
        (if fallback.isSome then Scope.initialized ⟨s.id + sizes as + 1⟩ else s.closed)
        (s.name "initdefault")] ++
    (closings s.id (as ++ fallback.toList)).map (.joins s.closed ·)

/-! ## Loops -/

def loopLines (s : Scope) : LoopTest → Option Activity → List Line
  | .before, body =>
    [.place (s.name "condition") .internal, .transition (s.name "evalcondition") .internal,
      .transition (s.name "initactivity") .internal, .transition (s.name "endwhile") .internal,
      .arc .consumes s.initialized (s.name "evalcondition"),
      .arc .produces (s.name "condition") (s.name "evalcondition"),
      .arc .consumes (s.name "condition") (s.name "initactivity"),
      .arc .consumes (s.name "condition") (s.name "endwhile"),
      .arc .produces s.closed (s.name "endwhile")] ++
      if body.isSome then
        [.arc .produces (Scope.initialized ⟨s.id + 1⟩) (s.name "initactivity"),
          .joins s.initialized (Scope.closed ⟨s.id + 1⟩)]
      else [.arc .produces s.initialized (s.name "initactivity")]
  | .after, body =>
    [.place (s.name "condition") .internal, .transition (s.name "evalcondition") .internal,
      .transition (s.name "repeatactivity") .internal,
      .transition (s.name "enddowhile") .internal,
      .arc .produces (s.name "condition") (s.name "evalcondition"),
      .arc .consumes (s.name "condition") (s.name "repeatactivity"),
      .arc .produces s.initialized (s.name "repeatactivity"),
      .arc .consumes (s.name "condition") (s.name "enddowhile"),
      .arc .produces s.closed (s.name "enddowhile")] ++
      if body.isSome then
        [.arc .consumes (Scope.closed ⟨s.id + 1⟩) (s.name "evalcondition"),
          .joins s.initialized (Scope.initialized ⟨s.id + 1⟩)]
      else [.arc .consumes s.initialized (s.name "evalcondition")]

/-! ## Parallel branches -/

def parallelBranchLines (s : Scope) (k : Nat) (_ : Activity) : List Line :=
  [.arc .produces (Scope.initialized ⟨k + 1⟩) (s.name "split"),
    .arc .consumes (Scope.closed ⟨k + 1⟩) (s.name "join")]

def parallelLines (s : Scope) : List Activity → List Line
  | [] | [_] => spliceLines s.initialized s.closed ⟨s.id + 1⟩
  | as =>
    [.transition (s.name "split") .internal, .transition (s.name "join") .internal,
      .arc .consumes s.initialized (s.name "split"), .arc .produces s.closed (s.name "join")]
      ++ numberedLines (parallelBranchLines s) (fun a => [a]) s.id as

/-! ## Event-driven choice -/

def pickBranchLines (s : Scope) (k : Nat) (b : PickBranch Activity) : List Line :=
  .joins s.initialized (Scope.initialized ⟨k + 1⟩) ::
    if b.action.isSome then
      [.joins (Scope.closed ⟨k + 1⟩) (Scope.initialized ⟨k + (b.trigger.getD .empty).size + 1⟩),
        .joins s.closed (Scope.closed ⟨k + (b.trigger.getD .empty).size + 1⟩)]
    else [.joins s.closed (Scope.closed ⟨k + 1⟩)]

def pickLines (s : Scope) (bs : List (PickBranch Activity)) : List Line :=
  if bs.isEmpty then spliceLines s.initialized s.closed ⟨s.id + 1⟩
  else numberedLines (pickBranchLines s) PickBranch.built s.id bs

/-! ## Flowcharts -/

/-- The cases of a node from the `i`-th on. -/
def nodeCaseLines (s : Scope) (id : String) : Nat → Nat → String → List Line
  | 0, _, _ => []
  | n + 1, i, last =>
    [.place (nodeName s id ("condition" ++ toString i)) .internal,
      .place (nodeName s id ("case" ++ toString i)) .internal,
      .transition (nodeName s id ("evalcase" ++ toString i)) .internal,
      .transition (nodeName s id ("initcase" ++ toString i)) .internal,
      .arc .consumes last (nodeName s id ("evalcase" ++ toString i)),
      .arc .produces (nodeName s id ("condition" ++ toString i))
        (nodeName s id ("evalcase" ++ toString i)),
      .arc .consumes (nodeName s id ("condition" ++ toString i))
        (nodeName s id ("initcase" ++ toString i)),
      .arc .produces (nodeName s id ("case" ++ toString i))
        (nodeName s id ("initcase" ++ toString i))]
      ++ nodeCaseLines s id n (i + 1) (nodeName s id ("condition" ++ toString i))

/-- The place where the last case of a node has failed. -/
def nodeLastCase (s : Scope) (id : String) : Nat → Nat → String → String
  | 0, _, last => last
  | n + 1, i, _ => nodeLastCase s id n (i + 1) (nodeName s id ("condition" ++ toString i))

/-- A node without its edges. -/
def nodeLines (s : Scope) (k : Nat) : FlowNode Activity → List Line
  | .step id _ _ =>
    [.place (nodeName s id "start") .internal, .place (nodeName s id "next") .internal]
      ++ spliceLines (nodeName s id "start") (nodeName s id "next") ⟨k + 1⟩
  | .decision id _ _ =>
    [.place (nodeName s id "start") .internal, .place (nodeName s id "condition") .internal,
      .place (nodeName s id "true") .internal, .place (nodeName s id "false") .internal,
      .transition (nodeName s id "evalcondition") .internal,
      .transition (nodeName s id "starttrue") .internal,
      .transition (nodeName s id "startfalse") .internal,
      .arc .consumes (nodeName s id "start") (nodeName s id "evalcondition"),
      .arc .produces (nodeName s id "condition") (nodeName s id "evalcondition"),
      .arc .consumes (nodeName s id "condition") (nodeName s id "starttrue"),
      .arc .consumes (nodeName s id "condition") (nodeName s id "startfalse"),
      .arc .produces (nodeName s id "true") (nodeName s id "starttrue"),
      .arc .produces (nodeName s id "false") (nodeName s id "startfalse")]
  | .switch id _ cases =>
    [.place (nodeName s id "start") .internal, .place (nodeName s id "default") .internal]
      ++ nodeCaseLines s id cases.length 1 (nodeName s id "start")
      ++ [.transition (nodeName s id "initdefault") .internal,
        .arc .consumes (nodeLastCase s id cases.length 1 (nodeName s id "start"))
          (nodeName s id "initdefault"),
        .arc .produces (nodeName s id "default") (nodeName s id "initdefault")]

/-- The end of an edge becomes the start of the target, or the end of the flowchart. -/
def edgeLine (s : Scope) (place : String) : Option String → Line
  | some target => .joins place (nodeName s target "start")
  | none => .joins s.closed place

/-- The edges of cases from the `i`-th on. -/
def caseEdgeLines (s : Scope) (id : String) : Nat → List (Option String) → List Line
  | _, [] => []
  | i, edge :: edges =>
    edgeLine s (nodeName s id ("case" ++ toString i)) edge :: caseEdgeLines s id (i + 1) edges

/-- The edges of a node. -/
def edgeLines (s : Scope) : FlowNode Activity → List Line
  | .step id _ next => [edgeLine s (nodeName s id "next") next]
  | .decision id onTrue onFalse =>
    [edgeLine s (nodeName s id "true") onTrue, edgeLine s (nodeName s id "false") onFalse]
  | .switch id fallback cases =>
    edgeLine s (nodeName s id "default") fallback :: caseEdgeLines s id 1 cases

def flowchartLines (s : Scope) (start : Option String) (nodes : List (FlowNode Activity)) :
    List Line :=
  match start with
  | none => spliceLines s.initialized s.closed ⟨s.id + 1⟩
  | some start =>
    numberedLines (nodeLines s) FlowNode.built s.id nodes
      ++ .joins s.initialized (nodeName s start "start") :: nodes.flatMap (edgeLines s)

/-! ## State machines -/

/-- The candidates of a guard chain from the `k`-th on. -/
def candidateLines (c : GuardChain) : Nat → String → List Candidate → List Line
  | _, _, [] => []
  | k, last, b :: bs =>
    .transition (c.name ("start" ++ toString k)) .internal ::
      if b.guarded then
        [.transition (c.name ("eval" ++ toString k)) .internal,
          .transition (c.name ("wrong" ++ toString k)) .internal,
          .place (c.name ("condition" ++ toString k)) .internal,
          .arc .consumes last (c.name ("eval" ++ toString k)),
          .arc .produces (c.name ("condition" ++ toString k)) (c.name ("eval" ++ toString k)),
          .arc .consumes (c.name ("condition" ++ toString k)) (c.name ("wrong" ++ toString k)),
          .arc .consumes (c.name ("condition" ++ toString k)) (c.name ("start" ++ toString k))] ++
          if bs.isEmpty then
            [.arc .produces c.waiting (c.name ("wrong" ++ toString k)),
              .arc .produces (c.action b) (c.name ("start" ++ toString k))]
              ++ candidateLines c (k + 1) last bs
          else
            [.place (c.name ("runcondition" ++ toString (k + 1))) .internal,
              .arc .produces (c.name ("runcondition" ++ toString (k + 1)))
                (c.name ("wrong" ++ toString k)),
              .arc .produces (c.action b) (c.name ("start" ++ toString k))]
              ++ candidateLines c (k + 1) (c.name ("runcondition" ++ toString (k + 1))) bs
      else
        [.arc .consumes last (c.name ("start" ++ toString k)),
          .arc .produces (c.action b) (c.name ("start" ++ toString k))]
          ++ candidateLines c (k + 1) last bs

/-- A guard chain. -/
def guardLines (c : GuardChain) (fired on : String) (bs : List Candidate) : List Line :=
  [.transition on .internal, .place (c.name "runcondition1") .internal, .arc .consumes fired on,
    .arc .produces (c.name "runcondition1") on] ++ candidateLines c 1 (c.name "runcondition1") bs

/-- A fragment between two places of its own. -/
def enclosedLines (entry exit : String) (inner : Scope) : List Line :=
  [.place entry .internal, .place exit .internal] ++ spliceLines entry exit inner

/-- The entry of a state. -/
def entryLines (state : String) (k : Nat) (entry : Option Activity) : List Line :=
  .place (state ++ ".initialized") .internal ::
    if entry.isSome then
      enclosedLines (state ++ ".entry.initialized") (state ++ ".entry.closed") ⟨k + 1⟩
        ++ [.joins (state ++ ".initialized") (state ++ ".entry.initialized")]
    else []

/-- Where the entry of a state ends. -/
def entryEnd (state : String) (entry : Option Activity) : String :=
  if entry.isSome then state ++ ".entry.closed" else state ++ ".initialized"

/-- The exit of a state. -/
def exitLines (state : String) (k : Nat) (exit : Option Activity) : List Line :=
  if exit.isSome then
    enclosedLines (state ++ ".exit.initialized") (state ++ ".exit.closed") ⟨k + 1⟩
  else [.place (state ++ ".exit") .internal]

/-- Where the exit of a state starts and ends. -/
def exitEnds (state : String) (exit : Option Activity) : String × String :=
  if exit.isSome then (state ++ ".exit.initialized", state ++ ".exit.closed")
  else (state ++ ".exit", state ++ ".exit")

/-- The action of the `i`-th transition. -/
def actionLines (state : String) (i k : Nat) (action : Option Activity) : List Line :=
  .place (state ++ ".t" ++ toString i ++ ".action.initialized") .internal ::
    if action.isSome then
      .place (state ++ ".t" ++ toString i ++ ".action.closed") .internal ::
        spliceLines (state ++ ".t" ++ toString i ++ ".action.initialized")
          (state ++ ".t" ++ toString i ++ ".action.closed") ⟨k + 1⟩
    else []

/-- Where the action of the `i`-th transition ends. -/
def actionEnd (state : String) (i : Nat) (action : Option Activity) : String :=
  if action.isSome then state ++ ".t" ++ toString i ++ ".action.closed"
  else state ++ ".t" ++ toString i ++ ".action.initialized"

/-- The `i`-th transition of a state, from its action to the place for its target. -/
def wayLines (state : String) (exit : String × String) (i k : Nat)
    (t : StateTransition Activity) : List Line :=
  actionLines state i k t.action ++
    [.place (state ++ ".t" ++ toString i ++ ".wait") .internal,
      .place (targetName state i t.target) .internal,
      .transition (state ++ ".t" ++ toString i ++ ".split") .internal,
      .transition (state ++ ".t" ++ toString i) .internal,
      .arc .consumes (actionEnd state i t.action) (state ++ ".t" ++ toString i ++ ".split"),
      .arc .produces exit.1 (state ++ ".t" ++ toString i ++ ".split"),
      .arc .produces (state ++ ".t" ++ toString i ++ ".wait")
        (state ++ ".t" ++ toString i ++ ".split"),
      .arc .consumes (state ++ ".t" ++ toString i ++ ".wait") (state ++ ".t" ++ toString i),
      .arc .consumes exit.2 (state ++ ".t" ++ toString i),
      .arc .produces (targetName state i t.target) (state ++ ".t" ++ toString i)]

/-- The transitions of a state from the `i`-th on. -/
def transitionLines (state : String) (exit : String × String) :
    Nat → Nat → List (StateTransition Activity) → List Line
  | _, _, [] => []
  | i, k, t :: ts =>
    wayLines state exit i k t
      ++ transitionLines state exit (i + 1) (k + sizes t.action.toList) ts

/-- A state's copy of a trigger, and what waits for it. -/
def triggerLines (state entryDone : String) (triggers : List (String × Activity))
    (ts : List (StateTransition Activity)) (k : Nat) (key : String) : List Line :=
  [.place (state ++ ".trigger." ++ key ++ ".in") .internal,
    .place (state ++ ".trigger." ++ key ++ ".out") .internal]
    ++ (if (triggers.lookup key).isSome then
        spliceLines (state ++ ".trigger." ++ key ++ ".in") (state ++ ".trigger." ++ key ++ ".out")
          ⟨k + 1⟩
      else [])
    ++ .joins entryDone (state ++ ".trigger." ++ key ++ ".in") ::
      guardLines { state, label := key, waiting := state ++ ".trigger." ++ key ++ ".in" }
        (state ++ ".trigger." ++ key ++ ".out") (state ++ ".ontrigger." ++ key)
        (candidatesOf (some key) ts)

/-- The transitions that wait for no trigger. -/
def untriggeredLines (state entryDone : String) (ts : List (StateTransition Activity)) :
    List Line :=
  if (candidatesOf none ts).isEmpty then []
  else
    [.place (state ++ ".trigger") .internal, .joins entryDone (state ++ ".trigger")] ++
      guardLines { state, label := "notrigger", waiting := state ++ ".trigger" }
        (state ++ ".trigger") (state ++ ".onemptytrigger") (candidatesOf none ts)

/-- A state without its links. -/
def stateLines (s : Scope) (triggers : List (String × Activity)) (k : Nat) (st : State Activity) :
    List Line :=
  entryLines (s.name st.id) k st.entry ++
    if st.isFinal then
      [.place (s.name st.id ++ ".closed") .internal,
        .joins (entryEnd (s.name st.id) st.entry) (s.name st.id ++ ".closed")]
    else
      exitLines (s.name st.id) (k + sizes st.entry.toList) st.exit
        ++ transitionLines (s.name st.id) (exitEnds (s.name st.id) st.exit) 1
          (k + sizes st.entry.toList + sizes st.exit.toList) st.transitions
        ++ numberedLines
          (triggerLines (s.name st.id) (entryEnd (s.name st.id) st.entry) triggers st.transitions)
          (fun key => (triggers.lookup key).toList)
          (k + sizes st.entry.toList + sizes st.exit.toList
            + sizes (st.transitions.flatMap (·.action.toList)))
          (triggerKeys st.transitions)
        ++ untriggeredLines (s.name st.id) (entryEnd (s.name st.id) st.entry) st.transitions

/-- The links of a state's transitions from the `i`-th on. -/
def targetLines (s : Scope) (id : String) : Nat → List (StateTransition Activity) → List Line
  | _, [] => []
  | i, t :: ts =>
    .joins (targetName (s.name id) i t.target) (s.name (t.target ++ ".initialized"))
      :: targetLines s id (i + 1) ts

def machineLines (s : Scope) (initial : Option String) (states : List (State Activity))
    (triggers : List (String × Activity)) : List Line :=
  numberedLines (stateLines s triggers) (State.built triggers) s.id states
    ++ initial.toList.map (fun id => .joins s.initialized (s.name (id ++ ".initialized")))
    ++ (states.filter (·.isFinal)).map (fun st => .joins s.closed (s.name (st.id ++ ".closed")))
    ++ (states.filter (!·.isFinal)).flatMap (fun st => targetLines s st.id 1 st.transitions)

/-! ## Activities -/

/-- What an activity draws besides the ends of its fragment. -/
def innerLines (s : Scope) : Activity → List Line
  | .atomic a => stepLines s a.label
  | .empty => stepLines s "empty"
  | .messaging m => messageLines s m
  | .sequence children => sequenceLines s children
  | .conditional onTrue onFalse => conditionalLines s onTrue onFalse
  | .switch cases fallback => switchLines s cases fallback
  | .loop test body => loopLines s test body
  | .parallel branches => parallelLines s branches
  | .pick branches => pickLines s branches
  | .flowchart start nodes => flowchartLines s start nodes
  | .stateMachine initial states triggers => machineLines s initial states triggers

/-- The lines that the fragment of an activity draws by itself. -/
def lines (a : Activity) (k : Nat) : List Line := endLines ⟨k⟩ ++ innerLines ⟨k⟩ a

/-- The lines of fragments that have the numbers from `k` on. -/
def draw (k : Nat) (as : List Activity) : List Line :=
  (as.zipIdx k).flatMap fun b => b.1.lines b.2

/-- The lines of all fragments of an activity whose own fragment has the number `k`. -/
def drawing (a : Activity) (k : Nat) : List Line := draw k a.walk

/-- A row of fragments is drawn one part after the other. -/
theorem draw_append (k : Nat) (as bs : List Activity) :
    draw k (as ++ bs) = draw k as ++ draw (k + as.length) bs := by
  unfold draw
  rw [List.zipIdx_append, List.flatMap_append]

/-- An activity is drawn by its own lines and those of what is built in it. -/
theorem drawing_eq (a : Activity) (k : Nat) :
    a.drawing k = a.lines k ++ draw (k + 1) (a.built.flatMap walk) := by
  rw [drawing, walk_eq, draw, List.zipIdx_cons, List.flatMap_cons, draw]

/-- The lines of a drawing are those of its fragments. -/
theorem mem_drawing {a : Activity} {k : Nat} {l : Line} :
    l ∈ a.drawing k ↔ ∃ (i : Nat) (b : Activity), a.walk[i]? = some b ∧ l ∈ b.lines (k + i) := by
  unfold drawing draw
  rw [List.mem_flatMap]
  constructor
  · rintro ⟨⟨b, j⟩, hmem, hl⟩
    obtain ⟨i, hget, rfl⟩ := mem_zipIdx_iff.1 hmem
    exact ⟨i, b, hget, hl⟩
  · rintro ⟨i, b, hget, hl⟩
    exact ⟨(b, k + i), mem_zipIdx_iff.2 ⟨i, hget, rfl⟩, hl⟩

end Activity

end OpenWorkflow
