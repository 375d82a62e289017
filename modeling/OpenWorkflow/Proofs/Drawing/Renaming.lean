import OpenWorkflow.Proofs.Channels
import OpenWorkflow.Proofs.Drawing.Forest

/-!
# Fragments under other numbers

The lines of a fragment depend on its number only through the names, and the
numbers of the fragments inside follow on its own. So a renaming that takes each
of these numbers to the one as far behind another number takes the lines to those
that the fragment draws there (`Activity.map_lines`), and with them the whole
drawing (`Activity.map_drawing`).

A message that is not a reply keeps its name wherever it stands. It must not be
named like a reply, for then it would have to be renamed along with that one.
-/

namespace OpenWorkflow

open Fragment.Flowchart (nodeName)
open Fragment.StateMachine (Candidate GuardChain candidatesOf targetName triggerKeys)
open Activity (sizes)

variable {a : Activity} {as : List Activity} {last last' : String}

/-- The line under other names. -/
def Line.map (f : String → String) : Line → Line
  | place n kind => place (f n) kind
  | port label n => port label (f n)
  | transition t kind => transition (f t) kind
  | arc flow n t => arc flow (f n) (f t)
  | joins n n' => joins (f n) (f n')

namespace Line

variable (f : String → String) (n n' : String) (kind : NodeKind)

@[simp] theorem map_place : (place n kind).map f = place (f n) kind := rfl

@[simp] theorem map_port : (port n n').map f = port n (f n') := rfl

@[simp] theorem map_transition : (transition n kind).map f = transition (f n) kind := rfl

@[simp] theorem map_arc (flow : ArcKind) : (arc flow n n').map f = arc flow (f n) (f n') := rfl

@[simp] theorem map_joins : (joins n n').map f = joins (f n) (f n') := rfl

variable {f} in
theorem map_mem {L L' : List Line} (h : L.map (map f) = L') {l : Line} (hl : l ∈ L) :
    l.map f ∈ L' :=
  h ▸ List.mem_map_of_mem hl

end Line

/-- The message is a reply, or it is not named like one. -/
def Messaging.Unmistakable (m : Messaging) : Prop :=
  m.kind.isReply = false → m.operation = "reply" → ∀ k : Nat, m.contract ≠ toString k

/-- The renaming takes what has the one number to what has the other. -/
structure Renumbers (f : String → String) (s s' : Scope) : Prop where
  name : ∀ x, f (s.name x) = s'.name x
  message : ∀ m : Messaging, m.Unmistakable → f (m.placeName s) = m.placeName s'

/-- The renaming takes the `n` numbers from `k` on to those from `k'` on. -/
def Shifts (f : String → String) (k k' n : Nat) : Prop := ∀ i < n, Renumbers f ⟨k + i⟩ ⟨k' + i⟩

variable {f : String → String} {s s' : Scope} {k k' m n : Nat}

theorem Renumbers.initialized (h : Renumbers f s s') : f s.initialized = s'.initialized := h.name _

theorem Renumbers.closed (h : Renumbers f s s') : f s.closed = s'.closed := h.name _

/-- What is behind the number of a fragment is kept. -/
theorem Renumbers.append (h : Renumbers f s s') (x y : String) :
    f (s.name x ++ y) = s'.name x ++ y := by
  rw [Scope.name_append, h.name, Scope.name_append]

theorem Shifts.head (h : Shifts f k k' n) (hn : 0 < n) : Renumbers f ⟨k⟩ ⟨k'⟩ := h 0 hn

/-- A shift of consecutive numbers is one of either part. -/
theorem shifts_add : Shifts f k k' (m + n) ↔ Shifts f k k' m ∧ Shifts f (k + m) (k' + m) n := by
  constructor
  · intro h
    refine ⟨fun i hi => h i (by omega), fun i hi => ?_⟩
    rw [Nat.add_assoc, Nat.add_assoc]
    exact h (m + i) (by omega)
  · rintro ⟨hm, hn⟩ i hi
    by_cases him : i < m
    · exact hm i him
    · have hlast := hn (i - m) (by omega)
      rwa [Nat.add_assoc, Nat.add_assoc, Nat.add_sub_cancel' (by omega)] at hlast

/-- Parts whose lines are renamed one by one. -/
theorem map_numberedLines {α : Type} {lines lines' : Nat → α → List Line}
    {built : α → List Activity} {xs : List α}
    (hlines : ∀ x ∈ xs, ∀ k k', Shifts f (k + 1) (k' + 1) (sizes (built x)) →
      (lines k x).map (Line.map f) = lines' k' x)
    (h : Shifts f (k + 1) (k' + 1) (sizes (xs.flatMap built))) :
    (numberedLines lines built k xs).map (Line.map f) = numberedLines lines' built k' xs := by
  induction xs generalizing k k' with
  | nil => rfl
  | cons x xs ih =>
    rw [List.flatMap_cons, Activity.sizes_append, shifts_add] at h
    obtain ⟨hx, hxs⟩ := h
    rw [Nat.add_right_comm k, Nat.add_right_comm k'] at hxs
    rw [numberedLines, numberedLines, List.map_append, hlines x (List.mem_cons_self ..) k k' hx,
      ih (fun y hy => hlines y (List.mem_cons_of_mem _ hy)) hxs]

namespace Activity

/-! ## Structured control flow -/

section Blocks

variable (hs : Renumbers f s s')
include hs

theorem map_endLines : (endLines s).map (Line.map f) = endLines s' := by
  simp [endLines, hs.initialized, hs.closed]

theorem map_stepLines (label : String) :
    (stepLines s label).map (Line.map f) = stepLines s' label := by
  simp [stepLines, hs.initialized, hs.closed, hs.name]

/-- The lines of a message shift, unless it can be mistaken. -/
theorem map_messageLines {m : Messaging} (hm : m.Unmistakable) :
    (messageLines s m).map (Line.map f) = messageLines s' m := by
  simp [messageLines, hs.initialized, hs.closed, hs.name, hs.message m hm]

theorem map_spliceLines {entry exit entry' exit' : String} (hentry : f entry = entry')
    (hexit : f exit = exit') :
    (spliceLines entry exit s).map (Line.map f) = spliceLines entry' exit' s' := by
  simp [spliceLines, hs.initialized, hs.closed, hentry, hexit]

end Blocks

/-- A chain, and where it ends. -/
theorem map_chainLines (hlast : f last = last') (h : Shifts f (k + 1) (k' + 1) (sizes as)) :
    (chainLines last k as).map (Line.map f) = chainLines last' k' as ∧
      f (chainEnd last k as) = chainEnd last' k' as := by
  induction as generalizing last last' k k' with
  | nil => exact ⟨rfl, hlast⟩
  | cons a as ih =>
    rw [sizes_cons, shifts_add] at h
    obtain ⟨ha, has⟩ := h
    have hhead := ha.head a.size_pos
    rw [Nat.add_right_comm k, Nat.add_right_comm k'] at has
    obtain ⟨hlines, hend⟩ := ih hhead.closed has
    exact ⟨by simp [chainLines, hlast, hhead.initialized, hlines], hend⟩

theorem map_closings (h : Shifts f (k + 1) (k' + 1) (sizes as)) :
    (closings k as).map f = closings k' as := by
  induction as generalizing k k' with
  | nil => rfl
  | cons a as ih =>
    rw [sizes_cons, shifts_add] at h
    obtain ⟨ha, has⟩ := h
    rw [Nat.add_right_comm k, Nat.add_right_comm k'] at has
    simp [closings, (ha.head a.size_pos).closed, ih has]

section Blocks

variable (hs : Renumbers f s s')
include hs

/-- The lines of a sequence shift with the numbers inside. -/
theorem map_sequenceLines (h : Shifts f (s.id + 1) (s'.id + 1) (sizes (sequence as).built)) :
    (sequenceLines s as).map (Line.map f) = sequenceLines s' as := by
  cases as with
  | nil => exact map_spliceLines (h.head (by simp [built, size_pos])) hs.initialized hs.closed
  | cons a as =>
    have hchildren : Shifts f (s.id + 1) (s'.id + 1) (sizes (a :: as)) := h
    obtain ⟨hlines, hend⟩ := map_chainLines hs.initialized hchildren
    simp [sequenceLines, hlines, hend, hs.closed]

theorem map_branchLines (label : String) {a : Option Activity}
    (h : Shifts f (k + 1) (k' + 1) (sizes a.toList)) :
    (branchLines s label k a).map (Line.map f) = branchLines s' label k' a := by
  cases a with
  | none => simp [branchLines, hs.name, hs.closed]
  | some a =>
    have ha := h.head (by simp [size_pos])
    simp [branchLines, hs.name, hs.closed, ha.initialized, ha.closed]

theorem map_conditionalLines {onTrue onFalse : Option Activity}
    (h : Shifts f (s.id + 1) (s'.id + 1) (sizes (conditional onTrue onFalse).built)) :
    (conditionalLines s onTrue onFalse).map (Line.map f)
      = conditionalLines s' onTrue onFalse := by
  rw [built, sizes_append, shifts_add, Nat.add_right_comm, Nat.add_right_comm s'.id] at h
  unfold conditionalLines
  split
  · simp [hs.name, hs.initialized, hs.closed]
  · simp [hs.name, hs.initialized, map_branchLines hs _ h.1, map_branchLines hs _ h.2]

/-- The lines of cases shift with the numbers inside. -/
theorem map_caseLines (i : Nat) (hlast : f last = last')
    (h : Shifts f (k + 1) (k' + 1) (sizes as)) :
    (caseLines s i last k as).map (Line.map f) = caseLines s' i last' k' as ∧
      f (lastCase s i last as) = lastCase s' i last' as := by
  have hcase (i : Nat) : f (casePlace s i) = casePlace s' i := hs.name _
  induction as generalizing i last last' k k' with
  | nil => exact ⟨rfl, hlast⟩
  | cons a as ih =>
    rw [sizes_cons, shifts_add] at h
    obtain ⟨ha, has⟩ := h
    have hhead := ha.head a.size_pos
    rw [Nat.add_right_comm k, Nat.add_right_comm k'] at has
    obtain ⟨hlines, hend⟩ := ih (i + 1) (hcase i) has
    exact ⟨by simp [caseLines, hcase, hs.name, hlast, hhead.initialized, hlines], hend⟩

theorem map_switchLines {fallback : Option Activity}
    (h : Shifts f (s.id + 1) (s'.id + 1) (sizes (switch as fallback).built)) :
    (switchLines s as fallback).map (Line.map f) = switchLines s' as fallback := by
  rw [built] at h
  have hclosings := map_closings h
  rw [sizes_append, shifts_add] at h
  obtain ⟨hlines, hlast⟩ := map_caseLines hs 1 hs.initialized h.1
  have hjoins : (closings s.id (as ++ fallback.toList)).map (Line.map f ∘ (.joins s.closed ·))
      = (closings s'.id (as ++ fallback.toList)).map (.joins s'.closed ·) := by
    rw [← hclosings, List.map_map]
    simp [Function.comp_def, hs.closed]
  cases fallback with
  | none => simpa [switchLines, hlines, hlast, hs.name, hs.closed] using hjoins
  | some b =>
    have hb := h.2.head (by simp [size_pos])
    rw [Nat.add_right_comm, Nat.add_right_comm s'.id] at hb
    simpa [switchLines, hlines, hlast, hs.name, hs.closed, hb.initialized] using hjoins

theorem map_loopLines (test : LoopTest) {body : Option Activity}
    (h : Shifts f (s.id + 1) (s'.id + 1) (sizes (loop test body).built)) :
    (loopLines s test body).map (Line.map f) = loopLines s' test body := by
  cases body with
  | none => cases test <;> simp [loopLines, hs.name, hs.initialized, hs.closed]
  | some a =>
    have ha := h.head (by simp [built, size_pos])
    cases test <;>
      simp [loopLines, hs.name, hs.initialized, hs.closed, ha.initialized, ha.closed]

theorem map_parallelBranchLines (h : Shifts f (k + 1) (k' + 1) (sizes [a])) :
    (parallelBranchLines s k a).map (Line.map f) = parallelBranchLines s' k' a := by
  have ha := h.head (by simp [size_pos])
  simp [parallelBranchLines, hs.name, ha.initialized, ha.closed]

theorem map_parallelLines (h : Shifts f (s.id + 1) (s'.id + 1) (sizes (parallel as).built)) :
    (parallelLines s as).map (Line.map f) = parallelLines s' as := by
  rcases as with _ | ⟨a, _ | ⟨b, as⟩⟩
  · exact map_spliceLines (h.head (by simp [built, size_pos])) hs.initialized hs.closed
  · exact map_spliceLines (h.head (by simp [built, size_pos])) hs.initialized hs.closed
  · have hbranches : Shifts f (s.id + 1) (s'.id + 1)
        (sizes ((a :: b :: as).flatMap fun c => [c])) := by
      simpa [built] using h
    have hlines : (numberedLines (parallelBranchLines s) (fun c => [c]) s.id (a :: b :: as)).map
        (Line.map f) = numberedLines (parallelBranchLines s') _ s'.id (a :: b :: as) :=
      map_numberedLines (fun c _ _ _ hc => map_parallelBranchLines hs hc) hbranches
    simp [parallelLines, hs.name, hs.initialized, hs.closed, hlines]

theorem map_pickBranchLines {b : PickBranch Activity}
    (h : Shifts f (k + 1) (k' + 1) (sizes b.built)) :
    (pickBranchLines s k b).map (Line.map f) = pickBranchLines s' k' b := by
  rw [PickBranch.built, sizes_cons, shifts_add] at h
  have htrigger := h.1.head (size_pos _)
  unfold pickBranchLines
  cases haction : b.action with
  | none => simp [hs.initialized, hs.closed, htrigger.initialized, htrigger.closed]
  | some a =>
    rw [haction, Nat.add_right_comm, Nat.add_right_comm k'] at h
    have ha := h.2.head (by simp [size_pos])
    simp [hs.initialized, hs.closed, htrigger.initialized, htrigger.closed, ha.initialized,
      ha.closed]

theorem map_pickLines {bs : List (PickBranch Activity)}
    (h : Shifts f (s.id + 1) (s'.id + 1) (sizes (pick bs).built)) :
    (pickLines s bs).map (Line.map f) = pickLines s' bs := by
  cases bs with
  | nil => exact map_spliceLines (h.head (by simp [built, size_pos])) hs.initialized hs.closed
  | cons b bs => exact map_numberedLines (fun _ _ _ _ hb => map_pickBranchLines hs hb) h

end Blocks

/-! ## Flowcharts -/

section Flowcharts

variable (hs : Renumbers f s s')
include hs

theorem map_nodeName (id x : String) : f (nodeName s id x) = nodeName s' id x := hs.name _

theorem map_nodeCaseLines (id : String) (n i : Nat) (hlast : f last = last') :
    (nodeCaseLines s id n i last).map (Line.map f) = nodeCaseLines s' id n i last' ∧
      f (nodeLastCase s id n i last) = nodeLastCase s' id n i last' := by
  induction n generalizing i last last' with
  | zero => exact ⟨rfl, hlast⟩
  | succ n ih =>
    obtain ⟨hlines, hend⟩ := ih (i + 1) (map_nodeName hs id ("condition" ++ toString i))
    refine ⟨?_, hend⟩
    rw [nodeCaseLines, nodeCaseLines, List.map_append, hlines]
    simp [map_nodeName hs, hlast]

/-- The lines of a node shift with the numbers inside. -/
theorem map_nodeLines {node : FlowNode Activity}
    (h : Shifts f (k + 1) (k' + 1) (sizes node.built)) :
    (nodeLines s k node).map (Line.map f) = nodeLines s' k' node := by
  cases node with
  | step id action next =>
    have haction := h.head (by simp [FlowNode.built, size_pos])
    simp [nodeLines, map_nodeName hs,
      map_spliceLines haction (map_nodeName hs id "start") (map_nodeName hs id "next")]
  | decision id onTrue onFalse => simp [nodeLines, map_nodeName hs]
  | switch id fallback cases =>
    obtain ⟨hlines, hend⟩ := map_nodeCaseLines hs id cases.length 1 (map_nodeName hs id "start")
    simp [nodeLines, map_nodeName hs, hlines, hend]

theorem map_edgeLine {place place' : String} (hplace : f place = place') (edge : Option String) :
    (edgeLine s place edge).map f = edgeLine s' place' edge := by
  cases edge <;> simp [edgeLine, hplace, map_nodeName hs, hs.closed]

theorem map_edgeLines (node : FlowNode Activity) :
    (edgeLines s node).map (Line.map f) = edgeLines s' node := by
  have hedge (id x : String) := map_edgeLine hs (map_nodeName hs id x)
  have hcases (id : String) (i : Nat) (edges : List (Option String)) :
      (caseEdgeLines s id i edges).map (Line.map f) = caseEdgeLines s' id i edges := by
    induction edges generalizing i with
    | nil => rfl
    | cons edge edges ih => simp [caseEdgeLines, hedge, ih]
  cases node <;> simp [edgeLines, hedge, hcases]

/-- The lines of a flowchart shift with the numbers inside. -/
theorem map_flowchartLines {start : Option String} {nodes : List (FlowNode Activity)}
    (h : Shifts f (s.id + 1) (s'.id + 1) (sizes (flowchart start nodes).built)) :
    (flowchartLines s start nodes).map (Line.map f) = flowchartLines s' start nodes := by
  cases start with
  | none => exact map_spliceLines (h.head (by simp [built, size_pos])) hs.initialized hs.closed
  | some start =>
    have hlines : (numberedLines (nodeLines s) FlowNode.built s.id nodes).map (Line.map f)
        = numberedLines (nodeLines s') FlowNode.built s'.id nodes :=
      map_numberedLines (fun _ _ _ _ hnode => map_nodeLines hs hnode) h
    simp [flowchartLines, hlines, hs.initialized, map_nodeName hs, List.map_flatMap,
      map_edgeLines hs]

end Flowcharts

/-! ## State machines -/

section Machines

variable {state state' : String} (hstate : ∀ y, f (state ++ y) = state' ++ y)
include hstate

theorem map_candidateLines (label : String) {waiting waiting' : String}
    (hwaiting : f waiting = waiting') (hlast : f last = last') (i : Nat) (bs : List Candidate) :
    (candidateLines ⟨state, label, waiting⟩ i last bs).map (Line.map f)
      = candidateLines ⟨state', label, waiting'⟩ i last' bs := by
  have hname (x : String) : f (GuardChain.name ⟨state, label, waiting⟩ x)
      = GuardChain.name ⟨state', label, waiting'⟩ x := by
    simp [GuardChain.name, String.append_assoc, hstate]
  have haction (b : Candidate) : f (GuardChain.action ⟨state, label, waiting⟩ b)
      = GuardChain.action ⟨state', label, waiting'⟩ b := by
    simp [GuardChain.action, String.append_assoc, hstate]
  induction bs generalizing i last last' with
  | nil => rfl
  | cons b bs ih =>
    unfold candidateLines
    split
    · split
      · simp [hname, haction, hlast, hwaiting, ih hlast]
      · simp [hname, haction, hlast, ih (hname _)]
    · simp [hname, haction, hlast, ih hlast]

/-- The lines of a guard chain follow the names at its ends. -/
theorem map_guardLines (label : String) {waiting waiting' fired fired' on on' : String}
    (hwaiting : f waiting = waiting') (hfired : f fired = fired') (hon : f on = on')
    (bs : List Candidate) :
    (guardLines ⟨state, label, waiting⟩ fired on bs).map (Line.map f)
      = guardLines ⟨state', label, waiting'⟩ fired' on' bs := by
  have hname : f (GuardChain.name ⟨state, label, waiting⟩ "runcondition1")
      = GuardChain.name ⟨state', label, waiting'⟩ "runcondition1" := by
    simp [GuardChain.name, String.append_assoc, hstate]
  simp [guardLines, hname, hfired, hon, map_candidateLines hstate label hwaiting hname]

theorem map_enclosedLines {x y : String} (hs : Renumbers f s s') :
    (enclosedLines (state ++ x) (state ++ y) s).map (Line.map f)
      = enclosedLines (state' ++ x) (state' ++ y) s' := by
  simp [enclosedLines, hstate, map_spliceLines hs (hstate x) (hstate y)]

theorem map_entryLines {entry : Option Activity}
    (h : Shifts f (k + 1) (k' + 1) (sizes entry.toList)) :
    (entryLines state k entry).map (Line.map f) = entryLines state' k' entry := by
  cases entry with
  | none => simp [entryLines, hstate]
  | some a =>
    simp [entryLines, hstate, map_enclosedLines hstate (h.head (by simp [size_pos]))]

theorem map_entryEnd (entry : Option Activity) :
    f (entryEnd state entry) = entryEnd state' entry := by
  cases entry <;> simp [entryEnd, hstate]

theorem map_exitLines {exit : Option Activity}
    (h : Shifts f (k + 1) (k' + 1) (sizes exit.toList)) :
    (exitLines state k exit).map (Line.map f) = exitLines state' k' exit := by
  cases exit with
  | none => simp [exitLines, hstate]
  | some a =>
    simp [exitLines, map_enclosedLines hstate (h.head (by simp [size_pos]))]

theorem map_wayLines (exit : Option Activity) (i : Nat) {t : StateTransition Activity}
    (h : Shifts f (k + 1) (k' + 1) (sizes t.action.toList)) :
    (wayLines state (exitEnds state exit) i k t).map (Line.map f)
      = wayLines state' (exitEnds state' exit) i k' t := by
  have hexit : f (exitEnds state exit).1 = (exitEnds state' exit).1 ∧
      f (exitEnds state exit).2 = (exitEnds state' exit).2 := by
    cases exit <;> simp [exitEnds, hstate]
  cases haction : t.action with
  | none =>
    simp [wayLines, actionLines, actionEnd, targetName, haction, String.append_assoc, hstate, hexit]
  | some a =>
    rw [haction] at h
    have ha := h.head (by simp [size_pos])
    simp [wayLines, actionLines, actionEnd, targetName, haction, String.append_assoc, hstate, hexit,
      spliceLines, ha.initialized, ha.closed]

theorem map_transitionLines (exit : Option Activity) (i : Nat)
    {ts : List (StateTransition Activity)}
    (h : Shifts f (k + 1) (k' + 1) (sizes (ts.flatMap (·.action.toList)))) :
    (transitionLines state (exitEnds state exit) i k ts).map (Line.map f)
      = transitionLines state' (exitEnds state' exit) i k' ts := by
  induction ts generalizing i k k' with
  | nil => rfl
  | cons t ts ih =>
    rw [List.flatMap_cons, sizes_append, shifts_add] at h
    obtain ⟨ht, hts⟩ := h
    rw [Nat.add_right_comm k, Nat.add_right_comm k'] at hts
    rw [transitionLines, transitionLines, List.map_append, map_wayLines hstate exit i ht,
      ih (i + 1) hts]

theorem map_triggerLines {entryDone entryDone' : String} (hentry : f entryDone = entryDone')
    (triggers : List (String × Activity)) (ts : List (StateTransition Activity)) (key : String)
    (h : Shifts f (k + 1) (k' + 1) (sizes (triggers.lookup key).toList)) :
    (triggerLines state entryDone triggers ts k key).map (Line.map f)
      = triggerLines state' entryDone' triggers ts k' key := by
  have hin : f (state ++ ".trigger." ++ key ++ ".in") = state' ++ ".trigger." ++ key ++ ".in" := by
    simp only [String.append_assoc, hstate]
  have hout : f (state ++ ".trigger." ++ key ++ ".out")
      = state' ++ ".trigger." ++ key ++ ".out" := by
    simp only [String.append_assoc, hstate]
  have hon : f (state ++ ".ontrigger." ++ key) = state' ++ ".ontrigger." ++ key := by
    simp only [String.append_assoc, hstate]
  have hguard := map_guardLines hstate key hin hout hon (candidatesOf (some key) ts)
  unfold triggerLines
  cases hlookup : triggers.lookup key with
  | none => simp [hin, hout, hentry, hguard]
  | some a =>
    rw [hlookup] at h
    have ha := h.head (by simp [size_pos])
    simp [hin, hout, hentry, hguard, map_spliceLines ha hin hout]

theorem map_untriggeredLines {entryDone entryDone' : String} (hentry : f entryDone = entryDone')
    (ts : List (StateTransition Activity)) :
    (untriggeredLines state entryDone ts).map (Line.map f)
      = untriggeredLines state' entryDone' ts := by
  unfold untriggeredLines
  split
  · rfl
  · simp [hstate, hentry, map_guardLines hstate "notrigger" (hstate ".trigger") (hstate ".trigger")
      (hstate ".onemptytrigger")]

end Machines

section Machines

variable (hs : Renumbers f s s')
include hs

/-- The lines of a state shift with the numbers inside. -/
theorem map_stateLines {triggers : List (String × Activity)} {st : State Activity}
    (h : Shifts f (k + 1) (k' + 1) (sizes (st.built triggers))) :
    (stateLines s triggers k st).map (Line.map f) = stateLines s' triggers k' st := by
  have hstate := hs.append st.id
  have hentry := map_entryEnd hstate st.entry
  rw [State.built, sizes_append, shifts_add] at h
  obtain ⟨hfirst, hrest⟩ := h
  unfold stateLines
  cases hfinal : st.isFinal with
  | true => simp [map_entryLines hstate hfirst, hstate, hentry]
  | false =>
    rw [hfinal, if_neg Bool.false_ne_true, sizes_append, sizes_append, shifts_add, shifts_add,
      List.filterMap_eq_flatMap_toList] at hrest
    simp only [← Nat.add_assoc, Nat.add_right_comm _ 1] at hrest
    obtain ⟨⟨hexit, hways⟩, htriggers⟩ := hrest
    have htriggers := map_numberedLines
      (fun key _ _ _ hkey => map_triggerLines hstate hentry triggers st.transitions key hkey)
      htriggers
    simp [map_entryLines hstate hfirst, map_exitLines hstate hexit,
      map_transitionLines hstate st.exit 1 hways, htriggers, map_untriggeredLines hstate hentry]

theorem map_targetLines (id : String) (i : Nat) (ts : List (StateTransition Activity)) :
    (targetLines s id i ts).map (Line.map f) = targetLines s' id i ts := by
  induction ts generalizing i with
  | nil => rfl
  | cons t ts ih =>
    simp only [targetLines, List.map_cons, Line.map_joins, ih, hs.name, targetName,
      String.append_assoc, hs.append]

/-- The lines of a state machine shift with the numbers inside. -/
theorem map_machineLines {initial : Option String} {states : List (State Activity)}
    {triggers : List (String × Activity)}
    (h : Shifts f (s.id + 1) (s'.id + 1) (sizes (stateMachine initial states triggers).built)) :
    (machineLines s initial states triggers).map (Line.map f)
      = machineLines s' initial states triggers := by
  have hlines : (numberedLines (stateLines s triggers) (State.built triggers) s.id states).map
      (Line.map f) = numberedLines (stateLines s' triggers) _ s'.id states :=
    map_numberedLines (fun _ _ _ _ hst => map_stateLines hs hst) h
  simp [machineLines, hlines, hs.name, hs.initialized, hs.closed, map_targetLines hs,
    List.map_flatMap, Function.comp_def]

end Machines

/-! ## Drawings -/

/-- The messages of an activity are not named like replies. -/
def Unmistakable (a : Activity) : Prop := ∀ m, a = .messaging m → m.Unmistakable

/-- A fragment under another number. -/
theorem map_lines (h : Shifts f k k' a.size) (ha : a.Unmistakable) :
    (a.lines k).map (Line.map f) = a.lines k' := by
  rw [size_eq, Nat.add_comm, shifts_add] at h
  have hs := h.1.head Nat.one_pos
  rw [lines, lines, List.map_append, map_endLines hs]
  congr 1
  cases a with
  | atomic a => exact map_stepLines hs a.label
  | empty => exact map_stepLines hs "empty"
  | messaging m => exact map_messageLines hs (ha m rfl)
  | sequence children => exact map_sequenceLines hs h.2
  | conditional onTrue onFalse => exact map_conditionalLines hs h.2
  | switch cases fallback => exact map_switchLines hs h.2
  | loop test body => exact map_loopLines hs test h.2
  | parallel branches => exact map_parallelLines hs h.2
  | pick branches => exact map_pickLines hs h.2
  | flowchart start nodes => exact map_flowchartLines hs h.2
  | stateMachine initial states triggers => exact map_machineLines hs h.2

/-- Drawings behind one another, under other numbers. -/
theorem map_draw {cs : List Activity}
    (hcs : ∀ c ∈ cs, ∀ k k', Shifts f k k' c.size → (c.drawing k).map (Line.map f) = c.drawing k')
    (h : Shifts f k k' (sizes cs)) :
    (draw k (cs.flatMap walk)).map (Line.map f) = draw k' (cs.flatMap walk) := by
  induction cs generalizing k k' with
  | nil => rfl
  | cons c cs ih =>
    rw [sizes_cons, shifts_add] at h
    obtain ⟨hc, hrest⟩ := List.forall_mem_cons.1 hcs
    rw [List.flatMap_cons, draw_append, draw_append, List.map_append]
    exact congrArg₂ _ (hc k k' h.1) (ih hrest h.2)

/-- **An activity under another number.** A renaming that shifts the numbers of an activity
shifts its drawing. -/
theorem map_drawing (ha : ∀ b ∈ a.walk, b.Unmistakable) (h : Shifts f k k' a.size) :
    (a.drawing k).map (Line.map f) = a.drawing k' := by
  induction a using built_induction generalizing k k' with
  | h a ih =>
    obtain ⟨hhere, hinside⟩ := forall_mem_walk.1 ha
    rw [drawing_eq, drawing_eq, List.map_append, map_lines h hhere]
    rw [size_eq, Nat.add_comm, shifts_add] at h
    rw [map_draw (fun c hc _ _ hshift => ih c hc (hinside c hc) hshift) h.2]

end Activity

/-! ## Renamings -/

namespace Messaging

variable {m m' : Messaging}

/-- A message that cannot be mistaken for a reply is not named like one. -/
theorem Unmistakable.ne_reply (h : m.Unmistakable) (hm : m.kind.isReply = false)
    (hm' : m'.kind.isReply = true) (s s' : Scope) : m.subject s ≠ m'.subject s' := by
  unfold subject
  rw [hm, hm', if_neg Bool.false_ne_true, if_pos rfl, reply_eq]
  intro heq
  -- There is one dot in the name of a reply, so there is none in the contract.
  have hdot : '.' ∉ m.contract.toList := by
    have hcount := congrArg (fun x => x.toList.count '.') heq
    simp only [String.toList_append, List.count_append] at hcount
    have hnumber := List.count_eq_zero.2 (dot_not_mem_toString s'.id)
    have hreply : "reply".toList.count '.' = 0 := by decide
    rw [← List.count_eq_zero]
    omega
  obtain ⟨hcontract, hoperation⟩ := (cut_inj hdot (dot_not_mem_toString _)).1 heq
  exact h hm hoperation s'.id hcontract

/-- The place of a message that is no reply depends on no number. -/
theorem placeName_of_not_isReply (hm : m.kind.isReply = false) (s s' : Scope) :
    m.placeName s = m.placeName s' := by
  rw [placeName_eq_iff, subject, subject, hm]
  exact ⟨rfl, rfl⟩

end Messaging

/-- Numbers can be changed in all names at once. -/
theorem exists_renumbers (φ : Nat → Nat) :
    ∃ f : String → String, ∀ k, Renumbers f ⟨k⟩ ⟨φ k⟩ := by
  have hname (n : String) : ∃ n', (∀ k x, n = Scope.name ⟨k⟩ x → n' = Scope.name ⟨φ k⟩ x) ∧
      ∀ k (m : Messaging), m.Unmistakable → n = m.placeName ⟨k⟩ → n' = m.placeName ⟨φ k⟩ := by
    by_cases hnum : ∃ k x, n = Scope.name ⟨k⟩ x
    · obtain ⟨k, x, rfl⟩ := hnum
      refine ⟨Scope.name ⟨φ k⟩ x, fun k' x' heq => ?_, fun k' m _ heq => ?_⟩
      · obtain ⟨hk, rfl⟩ := Scope.name_inj.1 heq
        rw [Scope.mk.inj hk]
      · exact absurd ⟨_, _, heq.symm⟩ (m.not_isNumbered_placeName ⟨k'⟩)
    · by_cases hreply : ∃ k, ∃ m : Messaging, m.kind.isReply = true ∧ n = m.placeName ⟨k⟩
      · obtain ⟨k, m, hm, rfl⟩ := hreply
        refine ⟨m.placeName ⟨φ k⟩, fun k' x heq => absurd ⟨k', x, heq⟩ hnum, fun k' m' hu heq => ?_⟩
        obtain ⟨hin, hsubject⟩ := Messaging.placeName_eq_iff.1 heq
        cases hm' : m'.kind.isReply with
        | true =>
          have hk := (Messaging.reply_inj hm hm').1 hsubject
          rw [Messaging.placeName_eq_iff, Messaging.reply_inj hm hm', Scope.mk.inj hk]
          exact ⟨hin, rfl⟩
        | false => exact absurd hsubject.symm (hu.ne_reply hm' hm _ _)
      · refine ⟨n, fun k' x heq => absurd ⟨k', x, heq⟩ hnum, fun k' m' _ heq => ?_⟩
        cases hm' : m'.kind.isReply with
        | true => exact absurd ⟨k', m', hm', heq⟩ hreply
        | false => rw [heq, Messaging.placeName_of_not_isReply hm' ⟨k'⟩ ⟨φ k'⟩]
  choose f hf using hname
  exact ⟨f, fun k => ⟨fun x => (hf _).1 k x rfl, fun m hm => (hf _).2 k m hm rfl⟩⟩

end OpenWorkflow
