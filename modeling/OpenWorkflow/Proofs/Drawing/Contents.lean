import Mathlib.Data.List.Nodup
import OpenWorkflow.Proofs.Drawing.Shape

/-!
# What lines put down

`internals`, `ties`, `drawnTransitions` and `drawnArcs` pick the lines of one sort
from a drawing: the internal places, the second sides of joins, the transitions
and the arcs. The internal places that a fragment draws are its two ends and the
places of its activity, in this order (`Activity.internals_lines`). No place of the
whole drawing is drawn twice if and only if no fragment gives a name twice
(`Activity.nodup_internals_iff`).
-/

namespace OpenWorkflow

open Activity (sizes)
open Fragment.Flowchart (nodeName)
open Fragment.StateMachine (Candidate GuardChain candidatesOf targetName triggerKeys)

/-! ## Lines of one sort -/

/-- The internal place that the line puts down. -/
@[simp] def Line.internal? : Line → Option String
  | .place n .internal => some n
  | _ => none

/-- The name that the line joins to another one. -/
@[simp] def Line.tied? : Line → Option String
  | .joins _ n => some n
  | _ => none

/-- The transition that the line puts down. -/
@[simp] def Line.transition? : Line → Option String
  | .transition t _ => some t
  | _ => none

/-- The arc that the line draws. -/
@[simp] def Line.arc? : Line → Option (ArcKind × String × String)
  | .arc flow n t => some (flow, n, t)
  | _ => none

/-- The internal places that lines put down. -/
def internals (L : List Line) : List String := L.filterMap Line.internal?

/-- The names that lines join to others. -/
def ties (L : List Line) : List String := L.filterMap Line.tied?

/-- The transitions that lines put down. -/
def drawnTransitions (L : List Line) : List String := L.filterMap Line.transition?

/-- The arcs that lines draw. -/
def drawnArcs (L : List Line) : List (ArcKind × String × String) := L.filterMap Line.arc?

section Sorts

variable {L L' : List Line} {n t : String}

@[simp] theorem internals_nil : internals [] = [] := rfl

@[simp] theorem internals_cons (l : Line) :
    internals (l :: L) = l.internal?.toList ++ internals L := by
  simp only [internals, List.filterMap_eq_flatMap_toList, List.flatMap_cons]

@[simp] theorem internals_append : internals (L ++ L') = internals L ++ internals L' :=
  List.filterMap_append

/-- The internal places are those that lines put down. -/
theorem mem_internals : n ∈ internals L ↔ .place n .internal ∈ L := by
  unfold internals
  rw [List.mem_filterMap]
  constructor
  · rintro ⟨l, hl, h⟩
    unfold Line.internal? at h
    split at h
    · exact Option.some.inj h ▸ hl
    · cases h
  · exact fun h => ⟨_, h, rfl⟩

@[simp] theorem ties_nil : ties [] = [] := rfl

@[simp] theorem ties_cons (l : Line) : ties (l :: L) = l.tied?.toList ++ ties L := by
  simp only [ties, List.filterMap_eq_flatMap_toList, List.flatMap_cons]

@[simp] theorem ties_append : ties (L ++ L') = ties L ++ ties L' := List.filterMap_append

/-- The ties are the second sides of joins. -/
theorem mem_ties : n ∈ ties L ↔ ∃ m, .joins m n ∈ L := by
  unfold ties
  rw [List.mem_filterMap]
  constructor
  · rintro ⟨l, hl, h⟩
    unfold Line.tied? at h
    split at h
    · exact ⟨_, Option.some.inj h ▸ hl⟩
    · cases h
  · rintro ⟨m, hm⟩
    exact ⟨_, hm, rfl⟩

@[simp] theorem drawnTransitions_nil : drawnTransitions [] = [] := rfl

@[simp] theorem drawnTransitions_cons (l : Line) :
    drawnTransitions (l :: L) = l.transition?.toList ++ drawnTransitions L := by
  simp only [drawnTransitions, List.filterMap_eq_flatMap_toList, List.flatMap_cons]

@[simp] theorem drawnTransitions_append :
    drawnTransitions (L ++ L') = drawnTransitions L ++ drawnTransitions L' :=
  List.filterMap_append

theorem mem_drawnTransitions : t ∈ drawnTransitions L ↔ ∃ kind, .transition t kind ∈ L := by
  unfold drawnTransitions
  rw [List.mem_filterMap]
  constructor
  · rintro ⟨l, hl, h⟩
    unfold Line.transition? at h
    split at h
    · exact ⟨_, Option.some.inj h ▸ hl⟩
    · cases h
  · rintro ⟨kind, hmem⟩
    exact ⟨_, hmem, rfl⟩

@[simp] theorem drawnArcs_nil : drawnArcs [] = [] := rfl

@[simp] theorem drawnArcs_cons (l : Line) : drawnArcs (l :: L) = l.arc?.toList ++ drawnArcs L := by
  simp only [drawnArcs, List.filterMap_eq_flatMap_toList, List.flatMap_cons]

@[simp] theorem drawnArcs_append : drawnArcs (L ++ L') = drawnArcs L ++ drawnArcs L' :=
  List.filterMap_append

theorem mem_drawnArcs {flow : ArcKind} : (flow, n, t) ∈ drawnArcs L ↔ .arc flow n t ∈ L := by
  unfold drawnArcs
  rw [List.mem_filterMap]
  constructor
  · rintro ⟨l, hl, h⟩
    unfold Line.arc? at h
    split at h
    · cases h
      exact hl
    · cases h
  · exact fun h => ⟨_, h, rfl⟩

end Sorts

/-! ## The places of a fragment -/

/-- Parts that put down the same places under any number. -/
theorem internals_numberedLines {α : Type} {lines : Nat → α → List Line} {built : α → List Activity}
    {names : α → List String} (h : ∀ k x, internals (lines k x) = names x) (k : Nat) (xs : List α) :
    internals (numberedLines lines built k xs) = xs.flatMap names := by
  induction xs generalizing k with
  | nil => rfl
  | cons x xs ih => rw [numberedLines, internals_append, h, ih, List.flatMap_cons]

namespace Activity

variable (s : Scope)

/-! ### Structured control flow -/

theorem internals_chainLines (last : String) (k : Nat) (as : List Activity) :
    internals (chainLines last k as) = [] := by
  induction as generalizing last k with
  | nil => rfl
  | cons a as ih => simp [chainLines, ih]

theorem internals_sequenceLines (as : List Activity) : internals (sequenceLines s as) = [] := by
  unfold sequenceLines
  split <;> simp [spliceLines, internals_chainLines]

theorem internals_branchLines (label : String) (k : Nat) (a : Option Activity) :
    internals (branchLines s label k a) = [] := by
  cases a <;> simp [branchLines]

/-- A condition has one place besides its ends. -/
theorem internals_conditionalLines (onTrue onFalse : Option Activity) :
    internals (conditionalLines s onTrue onFalse) = ["condition"].map s.name := by
  unfold conditionalLines
  split <;> simp [internals_branchLines]

/-- Cases have a place each. -/
theorem internals_caseLines (i : Nat) (last : String) (k : Nat) (as : List Activity) :
    internals (caseLines s i last k as) = (casePlaces i as).map s.name := by
  induction as generalizing i last k with
  | nil => rfl
  | cons a as ih => simp [caseLines, casePlaces, casePlace, ih]

theorem internals_switchLines (as : List Activity) (fallback : Option Activity) :
    internals (switchLines s as fallback) = (casePlaces 1 as).map s.name := by
  have hjoins (ns : List String) : internals (ns.map (.joins s.closed ·)) = [] := by
    induction ns with
    | nil => rfl
    | cons n ns ih => simp [ih]
  simp [switchLines, internals_caseLines, hjoins]

theorem internals_loopLines (test : LoopTest) (body : Option Activity) :
    internals (loopLines s test body) = ["condition"].map s.name := by
  cases test <;> cases body <;> simp [loopLines]

theorem internals_parallelLines (as : List Activity) : internals (parallelLines s as) = [] := by
  have hbranch (k : Nat) (a : Activity) : internals (parallelBranchLines s k a) = [] := rfl
  rcases as with _ | ⟨a, _ | ⟨b, as⟩⟩
  · rfl
  · rfl
  · simp [parallelLines, internals_numberedLines hbranch]

theorem internals_pickLines (bs : List (PickBranch Activity)) :
    internals (pickLines s bs) = [] := by
  have hbranch (k : Nat) (b : PickBranch Activity) : internals (pickBranchLines s k b) = [] := by
    unfold pickBranchLines
    split <;> rfl
  unfold pickLines
  split
  · rfl
  · simp [internals_numberedLines hbranch]

/-! ### Flowcharts -/

theorem internals_nodeCaseLines (id : String) (n i : Nat) (last : String) :
    internals (nodeCaseLines s id n i last) = (nodeCasePlaces id n i).map s.name := by
  induction n generalizing i last with
  | zero => rfl
  | succ n ih => simp [nodeCaseLines, nodeCasePlaces, nodeName, ih]

/-- The places of a node of a flowchart. -/
theorem internals_nodeLines (k : Nat) (node : FlowNode Activity) :
    internals (nodeLines s k node) = node.places.map s.name := by
  cases node with
  | step id action next => simp [nodeLines, spliceLines, FlowNode.places, nodeName]
  | decision id onTrue onFalse => simp [nodeLines, FlowNode.places, nodeName]
  | switch id fallback cases =>
    simp [nodeLines, FlowNode.places, nodeName, internals_nodeCaseLines]

theorem internals_edgeLines (node : FlowNode Activity) : internals (edgeLines s node) = [] := by
  have hcases (id : String) (i : Nat) (edges : List (Option String)) :
      internals (caseEdgeLines s id i edges) = [] := by
    induction edges generalizing i with
    | nil => rfl
    | cons edge edges ih => cases edge <;> simp [caseEdgeLines, edgeLine, ih]
  cases node with
  | step id action next => cases next <;> rfl
  | decision id onTrue onFalse => cases onTrue <;> cases onFalse <;> rfl
  | switch id fallback cases => cases fallback <;> simp [edgeLines, edgeLine, hcases]

/-- The places of a flowchart are those of its nodes. -/
theorem internals_flowchartLines (start : String) (nodes : List (FlowNode Activity)) :
    internals (flowchartLines s (some start) nodes)
      = (nodes.flatMap FlowNode.places).map s.name := by
  have hedges : internals (nodes.flatMap (edgeLines s)) = [] := by
    induction nodes with
    | nil => rfl
    | cons node nodes ih => simp [internals_edgeLines, ih]
  simp [flowchartLines, internals_numberedLines (internals_nodeLines s), hedges, List.map_flatMap]

/-! ### State machines -/

/-- Places of a guard chain are numbered with the fragment of the machine. -/
theorem guardName_eq (id label waiting x : String) :
    GuardChain.name ⟨s.name id, label, waiting⟩ x = s.name (State.chainName id label x) := by
  simp only [GuardChain.name, State.chainName, Scope.name_append]

theorem targetName_eq (id : String) (i : Nat) (target : String) :
    targetName (s.name id) i target = s.name (targetName id i target) := by
  simp only [targetName, Scope.name_append]

theorem internals_candidateLines (id label waiting : String) (k : Nat) (last : String)
    (bs : List Candidate) :
    internals (candidateLines ⟨s.name id, label, waiting⟩ k last bs)
      = (State.candidatePlaces id label k bs).map s.name := by
  induction bs generalizing k last with
  | nil => rfl
  | cons b bs ih =>
    rw [candidateLines, State.candidatePlaces]
    split
    · split <;> simp [guardName_eq, ih]
    · simp [ih]

/-- The places of a guard chain. -/
theorem internals_guardLines (id label waiting fired on : String) (bs : List Candidate) :
    internals (guardLines ⟨s.name id, label, waiting⟩ fired on bs)
      = (State.chainPlaces id label bs).map s.name := by
  simp [guardLines, State.chainPlaces, guardName_eq, internals_candidateLines]

theorem internals_entryLines (id : String) (k : Nat) (entry : Option Activity) :
    internals (entryLines (s.name id) k entry) = (State.entryPlaces id entry).map s.name := by
  cases entry <;>
    simp [entryLines, State.entryPlaces, enclosedLines, spliceLines, Scope.name_append]

theorem internals_exitLines (id : String) (k : Nat) (exit : Option Activity) :
    internals (exitLines (s.name id) k exit) = (State.exitPlaces id exit).map s.name := by
  cases exit <;>
    simp [exitLines, State.exitPlaces, enclosedLines, spliceLines, Scope.name_append]

theorem internals_wayLines (id : String) (exit : String × String) (i k : Nat)
    (t : StateTransition Activity) :
    internals (wayLines (s.name id) exit i k t)
      = (State.actionPlaces id i t.action
        ++ [id ++ ".t" ++ toString i ++ ".wait", targetName id i t.target]).map s.name := by
  cases haction : t.action <;>
    simp [wayLines, actionLines, haction, State.actionPlaces, spliceLines, Scope.name_append,
      targetName_eq]

theorem internals_transitionLines (id : String) (exit : String × String) (i k : Nat)
    (ts : List (StateTransition Activity)) :
    internals (transitionLines (s.name id) exit i k ts)
      = (State.transitionPlaces id i ts).map s.name := by
  induction ts generalizing i k with
  | nil => rfl
  | cons t ts ih =>
    simp only [transitionLines, internals_append, internals_wayLines, ih, State.transitionPlaces,
      List.map_append]

theorem internals_triggerLines (id entryDone : String) (triggers : List (String × Activity))
    (ts : List (StateTransition Activity)) (k : Nat) (key : String) :
    internals (triggerLines (s.name id) entryDone triggers ts k key)
      = (State.triggerPlaces id ts key).map s.name := by
  unfold triggerLines
  split <;> simp [State.triggerPlaces, spliceLines, internals_guardLines, Scope.name_append]

theorem internals_untriggeredLines (id entryDone : String)
    (ts : List (StateTransition Activity)) :
    internals (untriggeredLines (s.name id) entryDone ts)
      = (State.untriggeredPlaces id ts).map s.name := by
  unfold untriggeredLines State.untriggeredPlaces
  split <;> simp [internals_guardLines, Scope.name_append]

/-- The places of a state. -/
theorem internals_stateLines (triggers : List (String × Activity)) (k : Nat) (st : State Activity) :
    internals (stateLines s triggers k st) = st.places.map s.name := by
  unfold stateLines State.places
  split
  · simp [internals_entryLines, Scope.name_append]
  · simp [internals_entryLines, internals_exitLines, internals_transitionLines,
      internals_numberedLines (internals_triggerLines s st.id _ triggers st.transitions),
      internals_untriggeredLines, List.map_flatMap]

theorem internals_targetLines (id : String) (i : Nat) (ts : List (StateTransition Activity)) :
    internals (targetLines s id i ts) = [] := by
  induction ts generalizing i with
  | nil => rfl
  | cons t ts ih => simp [targetLines, ih]

/-- The places of a state machine are those of its states. -/
theorem internals_machineLines (initial : Option String) (states : List (State Activity))
    (triggers : List (String × Activity)) :
    internals (machineLines s initial states triggers)
      = (states.flatMap State.places).map s.name := by
  have hfinals (sts : List (State Activity)) :
      internals (sts.map fun st => .joins s.closed (s.name (st.id ++ ".closed"))) = [] := by
    induction sts with
    | nil => rfl
    | cons st sts ih => simp [ih]
  have htargets (sts : List (State Activity)) :
      internals (sts.flatMap fun st => targetLines s st.id 1 st.transitions) = [] := by
    induction sts with
    | nil => rfl
    | cons st sts ih => simp [internals_targetLines, ih]
  cases initial <;>
    simp [machineLines, internals_numberedLines (internals_stateLines s triggers), hfinals,
      htargets, List.map_flatMap]

/-! ### Activities -/

/-- A fragment draws its two ends and the places of its activity. -/
theorem internals_lines (a : Activity) (k : Nat) :
    internals (a.lines k) = ("initialized" :: "closed" :: a.places).map (Scope.name ⟨k⟩) := by
  have hinner : internals (innerLines ⟨k⟩ a) = a.places.map (Scope.name ⟨k⟩) := by
    cases a with
    | atomic a => rfl
    | empty => rfl
    | messaging m =>
      cases hkind : m.kind <;> simp [innerLines, messageLines, places, hkind, MessageKind.direction,
        MessageKind.isInbound]
    | sequence children => exact internals_sequenceLines _ children
    | conditional onTrue onFalse => exact internals_conditionalLines _ onTrue onFalse
    | switch cases fallback => exact internals_switchLines _ cases fallback
    | loop test body => exact internals_loopLines _ test body
    | parallel branches => exact internals_parallelLines _ branches
    | pick branches => exact internals_pickLines _ branches
    | flowchart start nodes =>
      cases start with
      | none => rfl
      | some start => exact internals_flowchartLines _ start nodes
    | stateMachine initial states triggers => exact internals_machineLines _ initial states triggers
  rw [lines, internals_append, hinner]
  rfl

/-- A fragment has a place under its number where its activity has one. -/
theorem place_mem_lines {a : Activity} {k : Nat} {x : String} :
    .place (Scope.name ⟨k⟩ x) .internal ∈ a.lines k ↔
      x ∈ "initialized" :: "closed" :: a.places := by
  rw [← mem_internals, internals_lines]
  exact List.mem_map_of_injective fun x y h => (Scope.name_inj.1 h).2

/-- The two ends of a fragment are among its places. -/
theorem end_mem_internals (a : Activity) (k : Nat) :
    ∀ n ∈ [Scope.initialized ⟨k⟩, Scope.closed ⟨k⟩], n ∈ internals (a.drawing k) := by
  intro n hn
  rw [drawing_eq, internals_append, lines, internals_append]
  exact List.mem_append_left _ (List.mem_append_left _ hn)

/-! ## Numbers -/

/-- The internal places of a fragment have its number. -/
theorem owns_of_internal {a : Activity} {k : Nat} {n : String} (h : n ∈ internals (a.lines k)) :
    Scope.Owns ⟨k⟩ n := by
  rw [internals_lines] at h
  obtain ⟨x, -, rfl⟩ := List.mem_map.1 h
  exact Scope.owns_name ..

/-- What fragments draw under their own numbers is drawn once, if each draws nothing twice. -/
theorem nodup_of_owned {α : Type} {f : Line → Option α} {as : List Activity} {k : Nat}
    (name : α → String) (hnodup : ∀ b ∈ as.zipIdx k, ((b.1.lines b.2).filterMap f).Nodup)
    (howns : ∀ b ∈ as.zipIdx k, ∀ x ∈ (b.1.lines b.2).filterMap f, Scope.Owns ⟨b.2⟩ (name x)) :
    ((draw k as).filterMap f).Nodup := by
  have hnumbers : (as.zipIdx k).Pairwise fun b b' => b.2 ≠ b'.2 := by
    rw [← List.pairwise_map, List.zipIdx_map_snd]
    exact List.nodup_range'
  rw [draw, List.filterMap_flatMap, List.nodup_flatMap]
  refine ⟨hnodup, hnumbers.imp_of_mem fun {b b'} hb hb' hne x hx hx' => hne ?_⟩
  exact congrArg Scope.id ((howns b hb x hx).unique (howns b' hb' x hx'))

/-- A fragment gives no name twice exactly if its activity is unambiguous. -/
theorem nodup_internals_lines {a : Activity} {k : Nat} :
    (internals (a.lines k)).Nodup ↔ a.Unambiguous := by
  rw [internals_lines]
  exact List.nodup_map_iff fun x y h => (Scope.name_inj.1 h).2

/-- No internal place is drawn twice exactly if no fragment gives a name twice. -/
theorem nodup_internals_iff {a : Activity} {k : Nat} :
    (internals (a.drawing k)).Nodup ↔ a.Fine := by
  constructor
  · intro h b hb
    obtain ⟨i, hi⟩ := List.getElem?_of_mem hb
    rw [drawing, draw, internals, List.filterMap_flatMap, List.nodup_flatMap] at h
    exact nodup_internals_lines.1 (h.1 (b, k + i) (mem_zipIdx_iff.2 ⟨i, hi, rfl⟩))
  · intro h
    refine nodup_of_owned id (fun b hb => ?_) fun b _ n hn => owns_of_internal hn
    obtain ⟨i, hi, -⟩ := mem_zipIdx_iff.1 hb
    exact nodup_internals_lines.2 (h b.1 (List.mem_of_getElem? hi))

end Activity

/-- The names that the line gives have numbers up to a bound. -/
def Line.Below (hi : Nat) : Line → Prop
  | .place n _ => ∀ s : Scope, s.Owns n → s.id ≤ hi
  | .transition t _ => ∀ s : Scope, s.Owns t → s.id ≤ hi
  | _ => True

theorem Line.Below.mono {lo hi : Nat} {l : Line} (h : l.Below lo) (hle : lo ≤ hi) : l.Below hi := by
  cases l with
  | place n kind => exact fun s hs => Nat.le_trans (h s hs) hle
  | transition t kind => exact fun s hs => Nat.le_trans (h s hs) hle
  | _ => trivial

namespace Activity

/-- The lines of a fragment put down names with its number. -/
theorem below_lines {a : Activity} {k hi : Nat} (hk : k ≤ hi) {l : Line} (hl : l ∈ a.lines k) :
    l.Below hi := by
  have hown {n : String} (hn : Scope.Owns ⟨k⟩ n) (s : Scope) (hs : s.Owns n) : s.id ≤ hi :=
    hs.unique hn ▸ hk
  cases l with
  | transition t kind => exact hown (owns_of_transition hl)
  | place n kind =>
    rcases lines_cases hl with hinside | ⟨m, -, hl⟩
    · exact hown hinside.2.owns
    · simp only [messageLines, List.mem_cons, Line.place.injEq, List.not_mem_nil, or_false,
        reduceCtorEq] at hl
      exact fun s hs => absurd (hl.1 ▸ hs.isNumbered) (isMessage_placeName m ⟨k⟩).not_isNumbered
  | _ => trivial

/-- Places and transitions have names. -/
theorem name_ne_empty {a : Activity} {k : Nat} {kind : NodeKind} :
    .place "" kind ∉ a.drawing k ∧ .transition "" kind ∉ a.drawing k := by
  have hown {s : Scope} (hs : s.Owns "") : False := by
    obtain ⟨x, hx⟩ := hs
    exact s.name_ne_empty x hx.symm
  constructor
  · intro h
    obtain ⟨i, b, -, hl⟩ := mem_drawing.1 h
    rcases lines_cases hl with hinside | ⟨m, -, hl⟩
    · exact hown hinside.2.owns
    · simp only [messageLines, List.mem_cons, Line.place.injEq, List.not_mem_nil, or_false,
        reduceCtorEq] at hl
      exact (isMessage_placeName m _).ne_empty hl.1.symm
  · intro h
    obtain ⟨i, b, -, hl⟩ := mem_drawing.1 h
    exact hown (owns_of_transition hl)

/-- The lines of a row of fragments put down names with their numbers. -/
theorem below_draw {as : List Activity} {k hi : Nat} (hk : k + as.length ≤ hi + 1) {l : Line}
    (hl : l ∈ draw k as) : l.Below hi := by
  obtain ⟨⟨b, j⟩, hb, hl⟩ := List.mem_flatMap.1 hl
  obtain ⟨i, hi, rfl⟩ := mem_zipIdx_iff.1 hb
  have hlt := (List.getElem?_eq_some_iff.1 hi).1
  exact below_lines (by omega) hl

end Activity

end OpenWorkflow
