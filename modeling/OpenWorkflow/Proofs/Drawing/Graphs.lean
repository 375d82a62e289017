import OpenWorkflow.Proofs.Drawing.Blocks

/-!
# Drawings of flowcharts and state machines

The fragments of graphs draw their nodes one by one and then the links between
them. With them the fragment of every activity draws its lines, and hence, taken
together with what is built inside, its drawing (`Activity.drawn`). Names that are
given twice apart, the only lines at which it may stop are links that lead nowhere.
-/

namespace OpenWorkflow

open Activity Fragment

namespace Draws

variable {loose : Prop} {S : List Resource} {k : Nat} {s : Scope}

/-! ## Flowcharts -/

section flowchart

open Flowchart

/-- A step draws its two places and its action between them. -/
theorem layStep (s : Scope) (id : String) (action : Option Activity) (next : Option String) :
    Draws loose S k (Flowchart.layStep s id (fragment? action)) [action.getD .empty]
      (nodeLines s k (.step id action next)) fun _ => True := by
  unfold Flowchart.layStep
  rw [orEmpty_fragment?]
  exact place (place (discard (splice (by simp) (by simp))))

/-- A decision draws a place for each answer. -/
theorem layDecision (s : Scope) (id : String) (onTrue onFalse : Option String) :
    Draws loose S k (Flowchart.layDecision s id) [] (nodeLines s k (.decision id onTrue onFalse))
      fun _ => True := by
  refine place (place (place (place ?_)))
  refine transition fun eval => transition fun startTrue => transition fun startFalse => ?_
  refine consume (by simp) (by simp) <| produce (by simp) (by simp) ?_
  refine consume (by simp) (by simp) <| consume (by simp) (by simp) ?_
  refine produce (by simp) (by simp) ?_
  exact produces (by simp) (by simp)

/-- Each case of a node draws the places to try and to take it. -/
theorem layCases (s : Scope) (id : String) (n i : Nat) {last : String}
    (hlast : .inside last ∈ S) :
    Draws loose S k (Flowchart.layCases s id n i last) [] (nodeCaseLines s id n i last)
      fun r => r = nodeLastCase s id n i last := by
  induction n generalizing i last S with
  | zero => exact pure rfl
  | succ n ih =>
    refine place (place (transition fun eval => transition fun init => ?_))
    refine consume (by simp) (by simp [hlast]) <| produce (by simp) (by simp) ?_
    refine consume (by simp) (by simp) <| produce (by simp) (by simp) ?_
    exact ih (i + 1) (by simp)

/-- The last place of the cases is the one before them or drawn by one of them. -/
theorem nodeLastCase_eq (s : Scope) (id : String) (n i : Nat) (last : String) :
    nodeLastCase s id n i last = last ∨
      nodeLastCase s id n i last ∈ internals (nodeCaseLines s id n i last) := by
  induction n generalizing i last with
  | zero => exact .inl rfl
  | succ n ih =>
    refine .inr ?_
    rcases ih (i + 1) (nodeName s id ("condition" ++ toString i)) with h | h
    · rw [nodeLastCase, h]
      simp [nodeCaseLines]
    · simp only [nodeCaseLines, nodeLastCase, internals_append]
      exact List.mem_append_right _ h

/-- A switch node draws its cases and what is done otherwise. -/
theorem laySwitch (s : Scope) (id : String) (fallback : Option String)
    (cases : List (Option String)) :
    Draws loose S k (Flowchart.laySwitch s id cases.length) []
      (nodeLines s k (.switch id fallback cases)) fun _ => True := by
  refine place (place (first (layCases s id cases.length 1 (by simp)) fun r hr => ?_))
  subst hr
  refine transition fun init => consume (by simp) ?_ ?_
  · rcases nodeLastCase_eq s id cases.length 1 (nodeName s id "start") with h | h <;> simp [h]
  · exact produces (by simp) (by simp)

/-- A node of a flowchart draws its places and what is built in it. -/
theorem layNode (s : Scope) (n : FlowNode Activity) :
    Draws loose S k (Flowchart.layNode s (nodeFragment n)) n.built (nodeLines s k n)
      fun _ => True := by
  cases n with
  | step id action next => exact layStep s id action next
  | decision id onTrue onFalse => exact layDecision s id onTrue onFalse
  | switch id fallback cases => exact laySwitch s id fallback cases

/-- The place at the end of an edge becomes the place where the edge leads. -/
theorem linkEdge {n : String} {edge : Option String} (hn : .inside n ∈ S)
    (hclosed : .inside s.closed ∈ S)
    (hlinked : ¬ loose → ∀ target ∈ edge, .inside (nodeName s target "start") ∈ S) :
    Draws loose S k (Flowchart.link s n edge) [] [edgeLine s n edge] fun _ => True := by
  cases edge with
  | none => exact discard (joins hclosed hn)
  | some target => exact discard (link hn fun hstrict => hlinked hstrict target rfl)

theorem linkCases {id : String} {i : Nat} {edges : List (Option String)}
    (hn : ∀ k < edges.length, .inside (nodeName s id ("case" ++ toString (i + k))) ∈ S)
    (hclosed : .inside s.closed ∈ S)
    (hlinked : ¬ loose → ∀ target, some target ∈ edges → .inside (nodeName s target "start") ∈ S) :
    Draws loose S k (Flowchart.linkCases s id i edges) [] (caseEdgeLines s id i edges)
      fun _ => True := by
  induction edges generalizing i with
  | nil => exact pure trivial
  | cons edge edges ih =>
    refine cons (linkEdge (hn 0 (by simp)) hclosed fun hstrict target ht => ?_) fun _ => ih ?_ ?_
    · exact hlinked hstrict target (by simp [Option.mem_def.1 ht])
    · intro k hk
      rw [show i + 1 + k = i + (k + 1) by omega]
      exact hn (k + 1) (by simpa using hk)
    · exact fun hstrict target ht => hlinked hstrict target (List.mem_cons_of_mem _ ht)

/-- The edges of a node are joined to where they lead. -/
theorem linkNode {n : FlowNode Activity} (hplaces : ∀ x ∈ n.places, .inside (s.name x) ∈ S)
    (hclosed : .inside s.closed ∈ S)
    (hlinked : ¬ loose → ∀ target ∈ n.targets, .inside (nodeName s target "start") ∈ S) :
    Draws loose S k (Flowchart.linkNode s (nodeFragment n)) [] (edgeLines s n) fun _ => True := by
  have hedge {e : Option String} (he : e ∈ n.edges) (hstrict : ¬ loose) (target : String)
      (ht : target ∈ e) : .inside (nodeName s target "start") ∈ S :=
    hlinked hstrict target (List.mem_filterMap.2 ⟨e, he, ht⟩)
  cases n with
  | step id action next =>
    exact linkEdge (hplaces _ (by simp [FlowNode.places])) hclosed
      (hedge (by simp [FlowNode.edges]))
  | decision id onTrue onFalse =>
    refine cons (linkEdge (hplaces _ ?_) hclosed (hedge ?_)) fun _ => ?_
    · simp [FlowNode.places]
    · simp [FlowNode.edges]
    · exact linkEdge (hplaces _ (by simp [FlowNode.places])) hclosed
        (hedge (by simp [FlowNode.edges]))
  | switch id fallback cases =>
    refine cons (linkEdge (hplaces _ ?_) hclosed (hedge ?_)) fun _ => ?_
    · simp [FlowNode.places]
    · simp [FlowNode.edges]
    · refine linkCases (fun k hk => hplaces _ ?_) hclosed fun hstrict target ht => ?_
      · exact List.mem_append_right _ (mem_nodeCasePlaces hk 1)
      · exact hedge (by simp [FlowNode.edges, ht]) hstrict target rfl

/-- A flowchart draws its nodes and then its edges. -/
theorem flowchart {start : Option String} {nodes : List (FlowNode Activity)}
    (hanchored : ¬ loose → (Activity.flowchart start nodes).Anchored) :
    Draws loose S k (Flowchart.flowchart start (nodeFragments nodes))
      (Activity.built (.flowchart start nodes))
      (endLines ⟨k⟩ ++ flowchartLines ⟨k⟩ start nodes) fun _ => True := by
  cases start with
  | none => exact around .empty
  | some start =>
    rw [nodeFragments_eq_map]
    refine enter (last (forM_map fun n _ k' => layNode ⟨k⟩ n) fun _ _ => ?_)
    have hplace {x : String} (hx : x ∈ "initialized" :: "closed" :: nodes.flatMap FlowNode.places) :
        Resource.inside (Scope.name ⟨k⟩ x) ∈ gains k (nodes.flatMap FlowNode.built)
          (numberedLines (nodeLines ⟨k⟩) FlowNode.built k nodes)
          ++ .inside (Scope.closed ⟨k⟩) :: .inside (Scope.initialized ⟨k⟩) :: S := by
      simp only [List.mem_cons] at hx
      rcases hx with rfl | rfl | hx
      · simp [Scope.initialized]
      · simp [Scope.closed]
      · refine List.mem_append_left _ (inside_mem_gains.2 (.inl ?_))
        rw [internals_numberedLines (internals_nodeLines ⟨k⟩), ← List.map_flatMap]
        exact List.mem_map_of_mem hx
    have hstart (hstrict : ¬ loose) {id : String}
        (hid : id ∈ start :: nodes.flatMap FlowNode.targets) :=
      hplace (hanchored hstrict _ (List.mem_map_of_mem hid))
    refine cons (link (by simp) fun hstrict => hstart hstrict (List.mem_cons_self ..)) fun _ => ?_
    refine forM_flat fun n hn =>
      linkNode (fun x hx => hplace ?_) (by simp) fun hstrict target ht => ?_
    · exact List.mem_cons_of_mem _ (List.mem_cons_of_mem _ (List.mem_flatMap.2 ⟨n, hn, hx⟩))
    · exact hstart hstrict (List.mem_cons_of_mem _ (List.mem_flatMap.2 ⟨n, hn, ht⟩))

end flowchart

/-! ## State machines -/

section machine

open StateMachine

variable {state id entryDone : String} {exit : String × String}
  {ts : List (StateTransition Activity)} {triggers : List (String × Activity)}

/-- The rest of a guard chain draws what its candidates need. -/
theorem candidates {c : GuardChain} (i : Nat) {last : String} {bs : List Candidate}
    (hlast : .inside last ∈ S) (hwaiting : .inside c.waiting ∈ S)
    (hactions : ∀ b ∈ bs, .inside (c.action b) ∈ S) :
    Draws loose S k (c.candidates i last bs) [] (candidateLines c i last bs) fun _ => True := by
  induction bs generalizing i last S with
  | nil => exact pure trivial
  | cons b bs ih =>
    have haction := hactions b (List.mem_cons_self ..)
    have hrest (b' : Candidate) (hb : b' ∈ bs) : .inside (c.action b') ∈ S :=
      hactions b' (List.mem_cons_of_mem _ hb)
    unfold GuardChain.candidates candidateLines
    refine transition fun start => ?_
    split
    · refine transition fun eval => transition fun wrong => place ?_
      refine consume (by simp) (by simp [hlast]) <| produce (by simp) (by simp) ?_
      refine consume (by simp) (by simp) <| consume (by simp) (by simp) ?_
      split
      · refine produce (by simp) (by simp [hwaiting]) <| produce (by simp) (by simp [haction]) ?_
        exact ih (i + 1) (by simp [hlast]) (by simp [hwaiting]) fun b hb => by simp [hrest b hb]
      · refine place (produce (by simp) (by simp) <| produce (by simp) (by simp [haction]) ?_)
        exact ih (i + 1) (by simp) (by simp [hwaiting]) fun b hb => by simp [hrest b hb]
    · refine consume (by simp) (by simp [hlast]) <| produce (by simp) (by simp [haction]) ?_
      exact ih (i + 1) (by simp [hlast]) (by simp [hwaiting]) fun b hb => by simp [hrest b hb]

/-- A guard chain draws its first transition and then its candidates. -/
theorem guardChain {c : GuardChain} {fired : String} (on : String) {bs : List Candidate}
    (hfired : .inside fired ∈ S) (hwaiting : .inside c.waiting ∈ S)
    (hactions : ∀ b ∈ bs, .inside (c.action b) ∈ S) :
    Draws loose S k (c.compile fired on bs) [] (guardLines c fired on bs) fun _ => True := by
  refine transition fun t => place ?_
  refine consume (by simp) (by simp [hfired]) <| produce (by simp) (by simp) ?_
  exact candidates 1 (by simp) (by simp [hwaiting]) fun b hb => by simp [hactions b hb]

theorem enclosed (a : Activity) (entry exit : String) :
    Draws loose S k (StateMachine.enclosed a.fragment entry exit) [a]
      (enclosedLines entry exit ⟨k + 1⟩) fun _ => True :=
  place (place (discard (splice (by simp) (by simp))))

/-- What is done on entry is drawn between two places of the state. -/
theorem layEntry (state : String) (entry : Option Activity) :
    Draws loose S k (StateMachine.layEntry state (fragment? entry)) entry.toList
      (entryLines state k entry) fun r => r = entryEnd state entry := by
  refine place ?_
  cases entry with
  | none => exact pure rfl
  | some a =>
    refine last (enclosed a _ _) fun _ _ => join (by simp) ?_ fun _ => pure rfl
    simp [enclosedLines]

/-- What is done on exit is drawn between two places of the state. -/
theorem layExit (state : String) (exit : Option Activity) :
    Draws loose S k (StateMachine.layExit state (fragment? exit)) exit.toList
      (exitLines state k exit) fun r => r = exitEnds state exit := by
  cases exit with
  | none => exact place (pure rfl)
  | some a => exact map (enclosed a _ _) fun _ _ => rfl

theorem layAction (state : String) (i : Nat) (action : Option Activity) :
    Draws loose S k (StateMachine.layAction state i (fragment? action)) action.toList
      (actionLines state i k action) fun r => r = actionEnd state i action := by
  refine place ?_
  cases action with
  | none => exact pure rfl
  | some a => exact place (map (splice (by simp) (by simp)) fun _ _ => rfl)

/-- A transition of a state draws its action on the way to its target. -/
theorem layTransition (hexit : .inside exit.1 ∈ S) (hexit' : .inside exit.2 ∈ S) (i : Nat)
    (t : StateTransition Activity) :
    Draws loose S k (StateMachine.layTransition state exit i (transitionFragment t))
      t.action.toList (wayLines state exit i k t) fun _ => True := by
  obtain ⟨target, trigger, guarded, action⟩ := t
  refine last (layAction state i action) fun r hr => ?_
  subst hr
  refine place (place (transition fun split => transition fun leave => ?_))
  refine consume (by simp) ?_ <| produce (by simp) (by simp [hexit]) ?_
  · cases action <;> simp [actionEnd, actionLines]
  · refine produce (by simp) (by simp) <| consume (by simp) (by simp) ?_
    refine consume (by simp) (by simp [hexit']) ?_
    exact produces (by simp) (by simp)

/-- The transitions of a state are drawn one after the other. -/
theorem layTransitions (hexit : .inside exit.1 ∈ S) (hexit' : .inside exit.2 ∈ S) (i : Nat)
    (ts : List (StateTransition Activity)) :
    Draws loose S k (StateMachine.layTransitions state exit i (transitionFragments ts))
      (ts.flatMap (·.action.toList)) (transitionLines state exit i k ts) fun _ => True := by
  induction ts generalizing i k S with
  | nil => exact pure trivial
  | cons t ts ih =>
    exact bind (layTransition hexit hexit' i t) fun _ _ =>
      ih (by simp [hexit]) (by simp [hexit']) (i + 1)

/-! ### Triggers -/

theorem trigger_transitionFragment (t : StateTransition Activity) :
    (transitionFragment t).trigger = t.trigger := by
  cases t
  rfl

theorem guarded_transitionFragment (t : StateTransition Activity) :
    (transitionFragment t).guarded = t.guarded := by
  cases t
  rfl

theorem triggerKeys_fragments (ts : List (StateTransition Activity)) :
    triggerKeys (transitionFragments ts) = triggerKeys ts := by
  simp only [triggerKeys, transitionFragments_eq_map, List.filterMap_map, Function.comp_def,
    trigger_transitionFragment]

/-- The candidates of a trigger are those of the activity. -/
theorem candidatesOf_fragments (key : Option String) (ts : List (StateTransition Activity)) :
    candidatesOf key (transitionFragments ts) = candidatesOf key ts := by
  simp only [candidatesOf, transitionFragments_eq_map, List.zipIdx_map, List.filterMap_map,
    Function.comp_def, Prod.map_fst, Prod.map_snd, trigger_transitionFragment,
    guarded_transitionFragment, id_eq]

theorem lookup_triggerFragments (key : String) (triggers : List (String × Activity)) :
    (triggerFragments triggers).lookup key = fragment? (triggers.lookup key) := by
  induction triggers with
  | nil => rfl
  | cons t triggers ih =>
    obtain ⟨k, a⟩ := t
    simp only [triggerFragments, triggerFragment, List.lookup_cons]
    split
    · rfl
    · exact ih

/-- The actions of the candidates have been laid out. -/
theorem inside_action {label waiting : String} {key : Option String}
    (hplaces : ∀ x ∈ State.transitionPlaces id 1 ts, .inside (s.name x) ∈ S) :
    ∀ b ∈ candidatesOf key ts,
      .inside (GuardChain.action ⟨s.name id, label, waiting⟩ b) ∈ S := by
  intro b hb
  obtain ⟨⟨t, k⟩, hmem, hsome⟩ := List.mem_filterMap.1 hb
  have hk := (List.mem_zipIdx hmem).2.1
  split at hsome
  · obtain rfl := Option.some.inj hsome
    simp only [GuardChain.action, Scope.name_append]
    refine hplaces _ ?_
    rw [Nat.add_comm]
    exact State.action_mem_transitionPlaces (by omega) 1
  · cases hsome

/-- A trigger of a state draws its activity and a guard chain. -/
theorem layTrigger (key : String) (hdone : .inside entryDone ∈ S)
    (hplaces : ∀ x ∈ State.transitionPlaces id 1 ts, .inside (s.name x) ∈ S) :
    Draws loose S k (StateMachine.layTrigger (s.name id) entryDone (triggerFragments triggers)
      (transitionFragments ts) key) (triggers.lookup key).toList
      (triggerLines (s.name id) entryDone triggers ts k key) fun _ => True := by
  unfold StateMachine.layTrigger triggerLines
  rw [candidatesOf_fragments, lookup_triggerFragments, List.append_assoc]
  refine place (place ?_)
  cases triggers.lookup key with
  | none =>
    refine join (by simp [hdone]) (by simp) fun _ => ?_
    exact guardChain _ (by simp) (by simp) (inside_action fun x hx => by simp [hplaces x hx])
  | some a =>
    show Draws loose _ k _ [a] (spliceLines _ _ ⟨k + 1⟩ ++ .joins _ _ :: guardLines _ _ _ _) _
    refine last (splice (by simp) (by simp)) fun _ _ => ?_
    refine join (by simp [hdone]) (by simp) fun _ => ?_
    exact guardChain _ (by simp) (by simp) (inside_action fun x hx => by simp [hplaces x hx])

/-- The transitions without a trigger draw one guard chain. -/
theorem layUntriggered (hdone : .inside entryDone ∈ S)
    (hplaces : ∀ x ∈ State.transitionPlaces id 1 ts, .inside (s.name x) ∈ S) :
    Draws loose S k (StateMachine.layUntriggered (s.name id) entryDone (transitionFragments ts)) []
      (untriggeredLines (s.name id) entryDone ts) fun _ => True := by
  unfold StateMachine.layUntriggered untriggeredLines
  rw [candidatesOf_fragments]
  simp only
  split
  · exact pure trivial
  · refine place (join (by simp [hdone]) (by simp) fun _ => ?_)
    exact guardChain _ (by simp) (by simp) (inside_action fun x hx => by simp [hplaces x hx])

/-- All triggers of a state, and the transitions that wait for none. -/
theorem layTriggers (hdone : .inside entryDone ∈ S)
    (hplaces : ∀ x ∈ State.transitionPlaces id 1 ts, .inside (s.name x) ∈ S) :
    Draws loose S k (do
        (triggerKeys ts).forM (StateMachine.layTrigger (s.name id) entryDone
          (triggerFragments triggers) (transitionFragments ts))
        StateMachine.layUntriggered (s.name id) entryDone (transitionFragments ts))
      ((triggerKeys ts).filterMap (fun key => triggers.lookup key))
      (numberedLines (triggerLines (s.name id) entryDone triggers ts)
        (fun key => (triggers.lookup key).toList) k (triggerKeys ts)
        ++ untriggeredLines (s.name id) entryDone ts) fun _ => True := by
  have htriggers : Draws loose S k (((triggerKeys ts).map fun key => key).forM
      (StateMachine.layTrigger (s.name id) entryDone (triggerFragments triggers)
        (transitionFragments ts))) _ _ _ :=
    forM_map fun key _ k' => layTrigger key hdone hplaces
  rw [List.map_id'] at htriggers
  rw [List.filterMap_eq_flatMap_toList]
  refine last htriggers fun _ _ => layUntriggered (by simp [hdone]) fun x hx => ?_
  simp [hplaces x hx]

/-! ### States -/

/-- A state draws entry, exit, transitions and triggers. -/
theorem layState (s : Scope) (triggers : List (String × Activity)) (st : State Activity) :
    Draws loose S k (StateMachine.layState s (triggerFragments triggers) (stateFragment st))
      (st.built triggers) (stateLines s triggers k st) fun _ => True := by
  obtain ⟨id, isFinal, entry, exit, ts⟩ := st
  simp only [StateMachine.layState, stateFragment, State.built, stateLines, triggerKeys_fragments]
  have hdone : entryEnd (s.name id) entry ∈ internals (entryLines (s.name id) k entry) := by
    cases entry <;> simp [entryEnd, entryLines, enclosedLines]
  refine bind (layEntry (s.name id) entry) fun r hr => ?_
  subst hr
  cases isFinal with
  | true => exact place (discard (joins (by simp [hdone]) (by simp)))
  | false =>
    simp only [Bool.false_eq_true, if_false, List.append_assoc]
    refine bind (layExit (s.name id) exit) fun r hr => ?_
    subst hr
    have hexit (k : Nat) :
        (exitEnds (s.name id) exit).1 ∈ internals (exitLines (s.name id) k exit) ∧
        (exitEnds (s.name id) exit).2 ∈ internals (exitLines (s.name id) k exit) := by
      cases exit <;> simp [exitEnds, exitLines, enclosedLines]
    refine bind (layTransitions (by simp [hexit]) (by simp [hexit]) 1 ts) fun _ _ => ?_
    refine layTriggers (by simp [hdone]) fun x hx => ?_
    refine List.mem_append_left _ (inside_mem_gains.2 (.inl ?_))
    rw [internals_transitionLines]
    exact List.mem_map_of_mem hx

theorem isFinal_stateFragment (st : State Activity) : (stateFragment st).isFinal = st.isFinal := by
  cases st
  rfl

theorem id_stateFragment (st : State Activity) : (stateFragment st).id = st.id := by
  cases st
  rfl

theorem transitions_stateFragment (st : State Activity) :
    (stateFragment st).transitions = transitionFragments st.transitions := by
  cases st
  rfl

/-! ### The machine -/

/-- The transitions of a state are joined to the starts of their targets. -/
theorem linkTransitions {i : Nat}
    (hplaces : ∀ x ∈ State.transitionPlaces id i ts, .inside (s.name x) ∈ S)
    (hlinked : ¬ loose → ∀ t ∈ ts, .inside (s.name (t.target ++ ".initialized")) ∈ S) :
    Draws loose S k (StateMachine.linkTransitions s id i (transitionFragments ts)) []
      (targetLines s id i ts) fun _ => True := by
  induction ts generalizing i with
  | nil => exact pure trivial
  | cons t ts ih =>
    obtain ⟨target, trigger, guarded, action⟩ := t
    have hfrom : .inside (targetName (s.name id) i target) ∈ S := by
      rw [targetName_eq]
      exact hplaces _ (by simp [State.transitionPlaces])
    refine cons (link hfrom fun hstrict => hlinked hstrict _ (List.mem_cons_self ..)) fun _ =>
      ih (fun x hx => hplaces x (List.mem_append_right _ hx)) fun hstrict t ht => ?_
    exact hlinked hstrict t (List.mem_cons_of_mem _ ht)

/-- The machine starts where its initial state does. -/
theorem linkInitial {initial : Option String} (hstart : .inside s.initialized ∈ S)
    (hlinked : ¬ loose → ∀ id ∈ initial, .inside (s.name (id ++ ".initialized")) ∈ S) :
    Draws loose S k (StateMachine.linkInitial s initial) []
      (initial.toList.map fun id => .joins s.initialized (s.name (id ++ ".initialized")))
      fun _ => True := by
  cases initial with
  | none => exact pure trivial
  | some id => exact discard (link hstart fun hstrict => hlinked hstrict id rfl)

/-- A state machine draws its states and then the links between them. -/
theorem stateMachine {initial : Option String} {states : List (State Activity)}
    (triggers : List (String × Activity))
    (hanchored : ¬ loose → (Activity.stateMachine initial states triggers).Anchored) :
    Draws loose S k
      (StateMachine.stateMachine initial (stateFragments states) (triggerFragments triggers))
      (states.flatMap (State.built triggers))
      (endLines ⟨k⟩ ++ machineLines ⟨k⟩ initial states triggers) fun _ => True := by
  have hfilter (p : Bool → Bool) : (states.map stateFragment).filter (fun st => p st.isFinal)
      = (states.filter fun st => p st.isFinal).map stateFragment := by
    simp [List.filter_map, Function.comp_def, isFinal_stateFragment]
  unfold machineLines StateMachine.stateMachine
  rw [stateFragments_eq_map, hfilter (fun b => b), hfilter (fun b => !b), List.append_assoc,
    List.append_assoc]
  refine enter (last (forM_map fun st _ k' => layState ⟨k⟩ triggers st) fun _ _ => ?_)
  have hplace {x : String} (hx : x ∈ "initialized" :: "closed" :: states.flatMap State.places) :
      Resource.inside (Scope.name ⟨k⟩ x) ∈ gains k (states.flatMap (State.built triggers))
        (numberedLines (stateLines ⟨k⟩ triggers) (State.built triggers) k states)
        ++ .inside (Scope.closed ⟨k⟩) :: .inside (Scope.initialized ⟨k⟩) :: S := by
    simp only [List.mem_cons] at hx
    rcases hx with rfl | rfl | hx
    · simp [Scope.initialized]
    · simp [Scope.closed]
    · refine List.mem_append_left _ (inside_mem_gains.2 (.inl ?_))
      rw [internals_numberedLines (internals_stateLines ⟨k⟩ triggers), ← List.map_flatMap]
      exact List.mem_map_of_mem hx
  have hstate {st : State Activity} (hst : st ∈ states) {x : String} (hx : x ∈ st.places) :=
    hplace (List.mem_cons_of_mem _ (List.mem_cons_of_mem _ (List.mem_flatMap.2 ⟨st, hst, hx⟩)))
  have hinitialized (hstrict : ¬ loose) {id : String} (hid : id ∈ initial.toList ++
      (states.filter (!·.isFinal)).flatMap (·.transitions.map (·.target))) :=
    hplace (hanchored hstrict _ (List.mem_map_of_mem hid))
  refine first (linkInitial (by simp) fun hstrict id hid => ?_) fun _ _ => ?_
  · exact hinitialized hstrict (List.mem_append_left _ (Option.mem_toList.2 hid))
  rw [List.map_eq_flatMap (f := fun st : State Activity => Line.joins ..)]
  refine first (forM_flat fun st hst => ?_) fun _ _ => forM_flat fun st hst => ?_
  · obtain ⟨hst, hfinal⟩ := List.mem_filter.1 hst
    have hclosed := hstate hst (State.closed_mem_places hfinal)
    unfold linkFinal
    rw [id_stateFragment]
    exact discard (joins (by simp) (List.mem_append_right _ hclosed))
  · obtain ⟨hst', hfinal⟩ := List.mem_filter.1 hst
    rw [id_stateFragment, transitions_stateFragment]
    refine linkTransitions (fun x hx => ?_) fun hstrict t ht => ?_
    · have hx := State.transitionPlaces_subset_places (by simpa using hfinal) hx
      exact List.mem_append_right _ (List.mem_append_right _ (hstate hst' hx))
    · refine List.mem_append_right _ (List.mem_append_right _ (hinitialized hstrict ?_))
      exact List.mem_append_right _ (List.mem_flatMap.2 ⟨st, hst, List.mem_map_of_mem ht⟩)

end machine

/-! ## Activities -/

/-- The fragment of an activity draws the activity's own lines. -/
theorem fragment {a : Activity} (hanchored : ¬ loose → a.Anchored) :
    Draws loose S k a.fragment a.built (a.lines k) fun _ => True := by
  cases a with
  | atomic a => exact step a.label
  | empty => exact step "empty"
  | messaging m => exact messaging m
  | sequence children => exact sequence children
  | conditional onTrue onFalse => exact conditional onTrue onFalse
  | switch cases fallback => exact switch cases fallback
  | loop test body => exact loop test body
  | parallel branches => exact parallel branches
  | pick branches => exact pick branches
  | flowchart start nodes => exact flowchart hanchored
  | stateMachine initial states triggers => exact stateMachine triggers hanchored

end Draws

/-- The fragment of an activity draws the activity, or stops. If all links lead somewhere, it
stops at no other line than that of a name given twice. -/
theorem Activity.drawn {loose : Prop} (a : Activity)
    (hanchored : ¬ loose → ∀ b ∈ a.walk, b.Anchored) : a.Drawn loose := by
  induction a using Activity.built_induction with
  | h a ih =>
    intro net hw
    have hanchored' (hstrict : ¬ loose) := Activity.forall_mem_walk.1 (hanchored hstrict)
    refine (Draws.fragment (S := []) (fun hstrict => (hanchored' hstrict).1) net hw rfl
      (fun _ h => absurd h List.not_mem_nil)
      fun c hc => ih c hc fun hstrict => (hanchored' hstrict).2 c hc).imp
      (fun _ net' h => ?_) fun e net' h => ?_
    · rw [Activity.drawing_eq]
      exact ⟨h.1, h.2.1⟩
    · obtain ⟨l, drawn, rest, htraced, hrefuses, hlines, hbelow⟩ := h
      rw [Activity.drawing_eq]
      refine ⟨l, drawn, rest, htraced, hrefuses, hlines, fun x hx => .inr ?_⟩
      exact (hbelow x hx).elim (Activity.below_lines htraced.scope_le) fun h => h

/-- A finished fragment has drawn its activity. -/
theorem Activity.drawn_loose (a : Activity) : a.Drawn True := a.drawn (absurd trivial ·)

/-- A finished fragment has drawn its activity. -/
theorem Activity.traced_of_ok {a : Activity} {net net' : Net} (hw : net.WellFormed)
    (hok : a.fragment net = .ok () net') : net.Traced (a.drawing net.scope) net' :=
  ((a.drawn_loose net hw).ok hok).1.traced

/-- A finished fragment has given no name twice. -/
theorem Activity.fine_of_ok {a : Activity} {net net' : Net} (hw : net.WellFormed)
    (hok : a.fragment net = .ok () net') : a.Fine :=
  nodup_internals_iff.1 ((traced_of_ok hw hok).nodup_internals hw)

end OpenWorkflow
