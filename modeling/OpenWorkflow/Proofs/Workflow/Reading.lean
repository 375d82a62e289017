import Mathlib.Data.Option.Basic
import OpenWorkflow.Proofs.Workflow.Parsing
import OpenWorkflow.Proofs.Workflow.Tree
import OpenWorkflow.Workflow.Document

/-!
# What a document gives

An activity that has been read is of the type that its tag stands for, its
edges, initial states and targets lead somewhere, and its parts have been read in the same way
(`parseDocument_throughout`).
-/

namespace OpenWorkflow

namespace OrderedMap

variable {κ ν : Type} [DecidableEq κ] {k : κ} {v : ν} {e : κ × ν}

theorem mem_replaceValue {es : List (κ × ν)} (he : e ∈ replaceValue k v es) :
    e = (k, v) ∨ e ∈ es := by
  induction es with
  | nil => cases he
  | cons e' es ih =>
    unfold replaceValue at he
    split at he
    · exact (List.mem_cons.1 he).imp_right (List.mem_cons_of_mem _)
    · rcases List.mem_cons.1 he with rfl | he
      · exact .inr (List.mem_cons_self ..)
      · exact (ih he).imp_right (List.mem_cons_of_mem _)

/-- An entry is the one just stored or was there before. -/
theorem mem_toList_insert {m : OrderedMap κ ν} (he : e ∈ (m.insert k v).toList) :
    e = (k, v) ∨ e ∈ m.toList := by
  unfold insert at he
  split at he
  · exact mem_replaceValue he
  · exact (List.mem_append.1 he).symm.imp_left List.mem_singleton.1

end OrderedMap

end OpenWorkflow

namespace OpenWorkflow.Reader

open OpenWorkflow.Parser (Yields)

variable {T : Markup.Token → Prop} {P : Activity → Prop} {child : ChildReader}

/-- The activity is of the type, linked, and has parts with the property. -/
structure ReadAs (type : ActivityType) (P : Activity → Prop) (a : Activity) : Prop where
  type : a.type = type
  links : a.Links
  parts : ∀ c ∈ a.parts, P c

/-! ## Primitive activities -/

theorem primitive_yields {qname name : String} : Yields T (primitive qname name) fun _ => True :=
  .atStart (.imp .skipElement fun _ _ => trivial) .fail

theorem atomic_yields (a : Atomic) : Yields T (atomic a) (ReadAs (.atomic a) P) :=
  .bind primitive_yields fun _ _ => .pure ⟨rfl, trivial, nofun⟩

theorem messaging_yields (kind : MessageKind) :
    Yields T (messaging kind) fun m => m.kind = kind := by
  refine .bind primitive_yields fun start _ => ?_
  refine .ite (.pure rfl) (.ite .fail ?_)
  split
  · exact .pure rfl
  · exact .pure rfl

/-! ## Structured activities -/

theorem forall_mem_concat {α : Type} {Q : α → Prop} {xs : List α} {x : α} (hxs : ∀ y ∈ xs, Q y)
    (hx : Q x) : ∀ y ∈ xs ++ [x], Q y :=
  List.forall_mem_append.2 ⟨hxs, List.forall_mem_singleton.2 hx⟩

section

variable (hchild : ∀ owner, Yields T (child owner) P)
include hchild

/-- A sequence is read as one, from children that are read. -/
theorem sequence_yields : Yields T (sequence child) (ReadAs .sequence P) := by
  refine element_yields (Q := fun cs => ∀ c ∈ cs, P c) (fun cs hcs => ?_) (by simp) ?_
  · exact .bind (hchild _) fun c hc => .pure (forall_mem_concat hcs hc)
  · exact fun cs hcs => ⟨rfl, trivial, hcs⟩

theorem conditionalPart_yields {b : Option Activity × Option Activity}
    (hb : (∀ c ∈ b.1.toList, P c) ∧ ∀ c ∈ b.2.toList, P c) :
    Yields T (conditionalPart child b) fun b =>
      (∀ c ∈ b.1.toList, P c) ∧ ∀ c ∈ b.2.toList, P c := by
  refine .atStart ?_ (.atStart ?_ (.atStart ?_ .unexpected))
  · exact .bind (wrapped_yields hchild) fun a ha => .pure ⟨ha, hb.2⟩
  · exact .bind (wrapped_yields hchild) fun a ha => .pure ⟨hb.1, ha⟩
  · exact .bind .skipElement fun _ _ => .pure hb

/-- A condition is read as one, from children that are read. -/
theorem conditional_yields : Yields T (conditional child) (ReadAs .conditional P) := by
  refine element_yields (fun b hb => conditionalPart_yields hchild hb) (by simp) ?_
  exact fun b hb => ⟨rfl, trivial, List.forall_mem_append.2 hb⟩

theorem switchPart_yields (hempty : P .empty) {b : List Activity × Option Activity}
    (hb : (∀ c ∈ b.1, P c) ∧ ∀ c ∈ b.2.toList, P c) :
    Yields T (switchPart child b) fun b => (∀ c ∈ b.1, P c) ∧ ∀ c ∈ b.2.toList, P c := by
  refine .atStart ?_ (.atStart ?_ (.atStart ?_ ?_))
  · exact .bind (wrapped_yields hchild) fun a ha => .pure ⟨hb.1, ha⟩
  · exact .bind .skipElement fun _ _ => .pure hb
  · exact .bind .skipElement fun _ _ => .pure ⟨forall_mem_concat hb.1 hempty, hb.2⟩
  · exact .bind (hchild _) fun c hc => .pure ⟨forall_mem_concat hb.1 hc, hb.2⟩

theorem switch_yields (hempty : P .empty) : Yields T (switch child) (ReadAs .switch P) := by
  refine element_yields (fun b hb => switchPart_yields hchild hempty hb) (by simp) ?_
  exact fun b hb => ⟨rfl, trivial, List.forall_mem_append.2 hb⟩

theorem loopPart_yields {name : String} {body : Option Activity}
    (hbody : ∀ c ∈ body.toList, P c) :
    Yields T (loopPart child name body) fun body => ∀ c ∈ body.toList, P c := by
  refine .atStart ?_ (.ite .fail (.atStart ?_ ?_))
  · exact .bind .skipElement fun _ _ => .pure hbody
  · exact wrapped_yields hchild
  · exact .bind (hchild _) fun c hc => .pure (List.forall_mem_singleton.2 hc)

theorem loop_yields (test : LoopTest) : Yields T (loop child test) (ReadAs (.loop test) P) := by
  refine element_yields (fun body hbody => loopPart_yields hchild hbody) (by simp) ?_
  exact fun body hbody => ⟨rfl, trivial, hbody⟩

theorem parallelPart_yields {branches : List Activity} (h : ∀ c ∈ branches, P c) :
    Yields T (parallelPart child branches) fun branches => ∀ c ∈ branches, P c := by
  refine .atStart ?_ ?_
  · exact .bind .skipElement fun _ _ => .pure h
  · exact .bind (hchild _) fun c hc => .pure (forall_mem_concat h hc)

theorem parallel_yields : Yields T (parallel child) (ReadAs .parallel P) := by
  refine element_yields (fun branches h => parallelPart_yields hchild h) (by simp) ?_
  exact fun branches h => ⟨rfl, trivial, h⟩

theorem pickBranchPart_yields {b : PickBranch Activity} (hb : ∀ c ∈ b.parts, P c) :
    Yields T (pickBranchPart child b) fun b => ∀ c ∈ b.parts, P c := by
  obtain ⟨htrigger, haction⟩ := List.forall_mem_append.1 hb
  refine .atStart ?_ (.ite .unexpected (.atStart ?_ ?_))
  · exact .bind (wrapped_yields hchild) fun a ha => .pure (List.forall_mem_append.2 ⟨ha, haction⟩)
  · exact .bind (wrapped_yields hchild) fun a ha => .pure (List.forall_mem_append.2 ⟨htrigger, ha⟩)
  · exact .bind (hchild _) fun c hc =>
      .pure (List.forall_mem_append.2 ⟨htrigger, List.forall_mem_singleton.2 hc⟩)

theorem pickPart_yields {branches : List (PickBranch Activity)}
    (h : ∀ b ∈ branches, ∀ c ∈ b.parts, P c) :
    Yields T (pickPart child branches) fun branches => ∀ b ∈ branches, ∀ c ∈ b.parts, P c := by
  refine .atStart ?_ .unexpected
  have hbranch : Yields T (pickBranch child) fun b => ∀ c ∈ b.parts, P c :=
    element_yields (fun b hb => pickBranchPart_yields hchild hb) (by simp [PickBranch.parts])
      fun b hb => hb
  exact .bind hbranch fun b hb => .pure (forall_mem_concat h hb)

theorem pick_yields : Yields T (pick child) (ReadAs .pick P) := by
  refine element_yields (fun branches h => pickPart_yields hchild h) (by simp) ?_
  exact fun branches h => ⟨rfl, trivial, List.forall_mem_flatMap.2 h⟩

end

/-! ## Flowcharts -/

namespace Flowchart

/-- The activities of the nodes have the property. -/
def Graph.Has (P : Activity → Prop) (g : Graph) : Prop := ∀ n ∈ g.nodes, ∀ c ∈ n.parts, P c

theorem Graph.Has.nodeName {g : Graph} (hg : g.Has P) (name : Option String) :
    (g.nodeName name).2.Has P := by
  cases name <;> exact hg

theorem Graph.Has.push {g : Graph} (hg : g.Has P) {n : FlowNode Activity}
    (hn : ∀ c ∈ n.parts, P c) : (g.push n).Has P := forall_mem_concat hg hn

variable {node : NodeReader}

section

variable (hnode : ∀ g : Graph, g.Has P → Yields T (node g) fun r => r.2.Has P)
include hnode

theorem target_yields {wrapper : String} {g : Graph} (hg : g.Has P) :
    Yields T (target node wrapper g) fun r => r.2.Has P := by
  refine .bind .expectStart fun _ _ => .bind .atEndOf fun _ _ => ?_
  exact .ite (.close hg) (.bind (hnode g hg) fun r hr => .close hr)

theorem stepPart_yields (hchild : ∀ owner, Yields T (child owner) P) {d : StepDraft}
    (hd : d.graph.Has P ∧ ∀ c ∈ d.action.toList, P c) :
    Yields T (stepPart child node d) fun d => d.graph.Has P ∧ ∀ c ∈ d.action.toList, P c := by
  refine .atStart ?_ (.atStart ?_ (.ite ?_ .unexpected))
  · exact .bind .skipElement fun _ _ => .pure hd
  · exact .bind (target_yields hnode hd.1) fun r hr => .pure ⟨hr, hd.2⟩
  · exact .bind (hchild _) fun c hc => .pure ⟨hd.1, List.forall_mem_singleton.2 hc⟩

theorem step_yields (hchild : ∀ owner, Yields T (child owner) P) {g : Graph} (hg : g.Has P) :
    Yields T (step child node g) fun r => r.2.Has P := by
  refine .bind .expectStart fun start _ => ?_
  refine .bind (.untilEnd (fun d hd => stepPart_yields hnode hchild hd) ?_) fun d hd => ?_
  · exact ⟨hg.nodeName _, by simp⟩
  · exact .close (hd.1.push hd.2)

theorem decisionPart_yields {d : DecisionDraft} (hd : d.graph.Has P) :
    Yields T (decisionPart node d) fun d => d.graph.Has P := by
  refine .atStart ?_ (.atStart ?_ (.atStart ?_ (.atStart ?_ .unexpected)))
  · exact .bind (target_yields hnode hd) fun r hr => .pure hr
  · exact .bind (target_yields hnode hd) fun r hr => .pure hr
  · exact .bind .skipElement fun _ _ => .pure hd
  · exact .bind .skipElement fun _ _ => .pure hd

theorem decision_yields {g : Graph} (hg : g.Has P) :
    Yields T (decision node g) fun r => r.2.Has P := by
  refine .bind .expectStart fun start _ => ?_
  refine .bind (.untilEnd (fun d hd => decisionPart_yields hnode hd) (hg.nodeName _)) fun d hd => ?_
  exact .close (hd.push nofun)

theorem switchPart_yields {d : SwitchDraft} (hd : d.graph.Has P) :
    Yields T (switchPart node d) fun d => d.graph.Has P := by
  refine .atStart ?_ (.atStart ?_ (.atStart ?_ ?_))
  · exact .bind (target_yields hnode hd) fun r hr => .pure hr
  · exact .bind .skipElement fun _ _ => .pure hd
  · exact .bind .skipElement fun _ _ => .pure hd
  · exact .bind (hnode _ hd) fun r hr => .pure hr

theorem switch_yields {g : Graph} (hg : g.Has P) :
    Yields T (switch node g) fun r => r.2.Has P := by
  refine .bind .expectStart fun start _ => ?_
  refine .bind (.untilEnd (fun d hd => switchPart_yields hnode hd) (hg.nodeName _)) fun d hd => ?_
  exact .close (hd.push nofun)

theorem part_yields {d : Draft} (hd : d.graph.Has P) :
    Yields T (part node d) fun d => d.graph.Has P := by
  refine .atStart ?_ ?_
  · have hstart (d : Draft) (hd : d.graph.Has P) :
        Yields T (startNode node d) fun d => d.graph.Has P :=
      .bind (hnode _ hd) fun r hr => .pure hr
    exact .bind .nextToken fun _ _ => .bind (.untilEnd hstart hd) fun d hd =>
      .close hd
  · exact .bind (hnode _ hd) fun r hr => .pure hr

end

theorem node_yields (hchild : ∀ owner, Yields T (child owner) P) (n : Nat) (g : Graph)
    (hg : g.Has P) : Yields T (Flowchart.node child n g) fun r => r.2.Has P := by
  induction n generalizing g with
  | zero => exact .fail
  | succ n ih =>
    refine .bind .peekStart fun front _ => ?_
    refine .ite ?_ (.ite ?_ (.ite ?_ (.ite ?_ (.ite ?_ .unexpected))))
    · exact .bind (step_yields ih hchild hg) fun r hr => .pure hr
    · exact .bind (decision_yields ih hg) fun r hr => .pure hr
    · exact .bind (switch_yields ih hg) fun r hr => .pure hr
    · exact .bind reference_yields fun _ _ => .pure hg
    · exact .bind .skipElement fun _ _ => .pure hg

/-- Where no fault is found, the nodes are linked. -/
theorem flowLinked_of_fault? {start : Option String} {nodes : List (FlowNode Activity)}
    (h : fault? start nodes = none) : FlowLinked start nodes := by
  simp only [fault?] at h
  split at h
  · cases h
  · rename_i hrepeated
    have hknown := List.find?_eq_none.1 (Option.map_eq_none_iff.1 h)
    simp only [decide_eq_true_eq, Decidable.not_not] at hknown
    refine ⟨(firstRepeated_eq_none_iff.1 hrepeated).1, fun id hid => ?_, fun n hn id hid => ?_⟩
    · exact hknown id (List.mem_append_right _ (Option.mem_toList.2 hid))
    · exact hknown id (List.mem_append_left _ (List.mem_flatMap.2 ⟨n, hn, hid⟩))

theorem check_yields {fault : Option Fault} : Yields T (check fault) fun _ => fault = none := by
  cases fault with
  | none => exact .pure rfl
  | some fault => exact .fail

/-- A flowchart is read as one, from children that are read. -/
theorem flowchart_yields (hchild : ∀ owner, Yields T (child owner) P) :
    Yields T (flowchart child) (ReadAs .flowchart P) := by
  refine .bind .expectStart fun root _ => .bind .remaining fun n _ => ?_
  have hpart (d : Draft) (hd : d.graph.Has P) :=
    part_yields (node_yields (T := T) hchild (n + 1)) hd
  refine .bind (.untilEnd hpart ?_) fun d hd => ?_
  · exact nofun
  · refine .bind check_yields fun _ hfault => .bind .expectEnd fun _ _ => .pure ⟨rfl, ?_, ?_⟩
    · exact flowLinked_of_fault? hfault
    · exact List.forall_mem_flatMap.2 hd

end Flowchart

/-! ## State machines -/

namespace StateMachine

/-- The activities of the states and triggers have the property. -/
structure Machine.Has (P : Activity → Prop) (m : Machine) : Prop where
  states : ∀ s ∈ m.states, ∀ c ∈ s.parts, P c
  triggers : ∀ e ∈ m.triggers.toList, ∀ c ∈ e.2.toList, P c

namespace Machine.Has

variable {m : Machine}

theorem nameOf (hm : m.Has P) (kind : String) (name : Option String) :
    (m.nameOf kind name).2.Has P := by
  cases name <;> exact ⟨hm.states, hm.triggers⟩

theorem push (hm : m.Has P) {s : State Activity} (hs : ∀ c ∈ s.parts, P c) : (m.push s).Has P :=
  ⟨forall_mem_concat hm.states hs, hm.triggers⟩

theorem insert (hm : m.Has P) {key : String} {a : Option Activity} (ha : ∀ c ∈ a.toList, P c) :
    Has P { m with triggers := m.triggers.insert key a } := by
  refine ⟨hm.states, fun e he => ?_⟩
  rcases OrderedMap.mem_toList_insert he with rfl | he
  · exact ha
  · exact hm.triggers e he

theorem needTrigger (hm : m.Has P) (key : Option String) : (m.needTrigger key).Has P := by
  unfold Machine.needTrigger
  split
  · exact hm
  · split
    · exact hm
    · exact hm.insert (by simp)

end Machine.Has

variable {state : StateReader}

theorem trigger_yields (hchild : ∀ owner, Yields T (child owner) P) {m : Machine} (hm : m.Has P) :
    Yields T (trigger child m) fun r => r.2.Has P := by
  refine .bind .expectStart fun _ _ => .bind .atEndOf fun _ _ => .bind .atStartOf fun _ _ =>
    .bind .atStartOf fun _ _ => ?_
  refine .ite (.close hm) (.ite (.bind .skipElement fun _ _ => .close hm) (.ite ?_ ?_))
  · exact .bind reference_yields fun _ _ => .close hm
  · refine .bind .peekStart fun front _ => .bind (hchild _) fun c hc => .close ?_
    exact (hm.nameOf ..).insert (List.forall_mem_singleton.2 hc)

section

variable (hchild : ∀ owner, Yields T (child owner) P)
  (hstate : ∀ m : Machine, m.Has P → Yields T (state m) fun r => r.2.Has P)
include hchild hstate

theorem transitionPart_yields {d : TransitionDraft}
    (hd : d.machine.Has P ∧ ∀ c ∈ d.action.toList, P c) :
    Yields T (transitionPart child state d) fun d =>
      d.machine.Has P ∧ ∀ c ∈ d.action.toList, P c := by
  refine .atStart ?_ (.atStart ?_ (.atStart ?_ (.atStart ?_ .unexpected)))
  · exact .bind (trigger_yields hchild hd.1) fun r hr => .pure ⟨hr, hd.2⟩
  · exact .bind .skipElement fun _ _ => .pure hd
  · refine .bind .nextToken fun _ _ => .bind .atEndOf fun _ _ => .ite (.close hd) ?_
    exact .bind (hstate _ hd.1) fun r hr => .close ⟨hr, hd.2⟩
  · exact .bind (wrapped_yields hchild) fun a ha => .pure ⟨hd.1, ha⟩

theorem transition_yields {m : Machine} (hm : m.Has P) :
    Yields T (transition child state m) fun r =>
      r.2.Has P ∧ ∀ c ∈ r.1.action.toList, P c := by
  refine .bind .expectStart fun start _ => ?_
  refine .bind (.untilEnd (fun d hd => transitionPart_yields hchild hstate hd) ?_) fun d hd => ?_
  · exact ⟨hm, by simp⟩
  · refine .bind .expectEnd fun _ _ => ?_
    split
    · exact .fail
    · exact .pure ⟨hd.1.needTrigger _, hd.2⟩

/-- The activities of a draft have the property. -/
structure StateDraft.Has (P : Activity → Prop) (d : StateDraft) : Prop where
  machine : d.machine.Has P
  entry : ∀ c ∈ d.entry.toList, P c
  exit : ∀ c ∈ d.exit.toList, P c
  transitions : ∀ t ∈ d.transitions, ∀ c ∈ t.action.toList, P c

theorem statePart_yields {d : StateDraft} (hd : d.Has P) :
    Yields T (statePart child state d) fun d => d.Has P := by
  refine .atStart ?_ (.atStart ?_ (.atStart ?_ .unexpected))
  · exact .bind (wrapped_yields hchild) fun a ha => .pure { hd with entry := ha }
  · exact .bind (wrapped_yields hchild) fun a ha => .pure { hd with exit := ha }
  · have hitem (d : StateDraft) (hd : d.Has P) :
        Yields T (stateTransition child state d) fun d => d.Has P :=
      .bind (transition_yields hchild hstate hd.machine) fun r hr =>
        .pure ⟨hr.1, hd.entry, hd.exit, forall_mem_concat hd.transitions hr.2⟩
    exact .bind .nextToken fun _ _ => .bind (.untilEnd hitem hd) fun d hd =>
      .close hd

end

theorem state_yields (hchild : ∀ owner, Yields T (child owner) P) (n : Nat) (m : Machine)
    (hm : m.Has P) : Yields T (StateMachine.state child n m) fun r => r.2.Has P := by
  induction n generalizing m with
  | zero => exact .fail
  | succ n ih =>
    refine .atStart ?_ ?_
    · exact .bind reference_yields fun _ _ => .pure hm
    · refine .bind .expectStart fun start _ => ?_
      refine .bind (.untilEnd (fun d hd => statePart_yields hchild ih hd) ?_) fun d hd => ?_
      · exact ⟨hm.nameOf .., by simp, by simp, by simp⟩
      · refine .bind .expectEnd fun _ _ => .pure (hd.machine.push ?_)
        exact List.forall_mem_append.2 ⟨List.forall_mem_append.2 ⟨hd.entry, hd.exit⟩,
          List.forall_mem_flatMap.2 hd.transitions⟩

theorem part_yields (hstate : ∀ m : Machine, m.Has P → Yields T (state m) fun r => r.2.Has P)
    {d : Draft} (hd : d.machine.Has P) : Yields T (part state d) fun d => d.machine.Has P := by
  have hinitial (d : Draft) (hd : d.machine.Has P) :
      Yields T (initialState state d) fun d => d.machine.Has P :=
    .bind (hstate _ hd) fun r hr => .pure hr
  have hlisted (d : Draft) (hd : d.machine.Has P) :
      Yields T (listedState state d) fun d => d.machine.Has P :=
    .bind (hstate _ hd) fun r hr => .pure hr
  refine .atStart ?_ (.atStart ?_ (.atStart (hlisted d hd) (.atStart (hlisted d hd) .unexpected)))
  · exact .bind .nextToken fun _ _ => .bind (.untilEnd hinitial hd) fun d hd =>
      .close hd
  · exact .bind .nextToken fun _ _ => .bind (.untilEnd hlisted hd) fun d hd =>
      .close hd

/-- Where no fault is found, the states are linked. -/
theorem machineLinked_of_fault? {initial : Option String} {m : Machine}
    (h : fault? initial m = none) : MachineLinked initial m.states := by
  simp only [fault?] at h
  split at h
  · cases h
  · split at h
    · cases h
    · obtain ⟨hinitial, hrest⟩ := (Option.orElse_eq_none _ _).1 h
      have htargets := ((Option.orElse_eq_none _ _).1 hrest).1
      refine ⟨fun id hid => ?_, fun s hs t ht => ?_⟩
      · rw [Option.mem_def.1 hid] at hinitial
        simp only [initialFault?] at hinitial
        split at hinitial
        · assumption
        · cases hinitial
      · have hnone := List.findSome?_eq_none_iff.1 htargets s hs
        have hknown := List.find?_eq_none.1 (Option.map_eq_none_iff.1 hnone) t ht
        simpa using hknown

theorem check_yields {fault : Option Fault} : Yields T (check fault) fun _ => fault = none := by
  cases fault with
  | none => exact .pure rfl
  | some fault => exact .fail

/-- A state machine is read as one, from children that are read. -/
theorem stateMachine_yields (hchild : ∀ owner, Yields T (child owner) P) :
    Yields T (stateMachine child) (ReadAs .stateMachine P) := by
  refine .bind .expectStart fun root _ => .bind .remaining fun n _ => ?_
  have hpart (d : Draft) (hd : d.machine.Has P) :=
    part_yields (state_yields (T := T) hchild (n + 1)) hd
  refine .bind (.untilEnd hpart ?_) fun d hd => ?_
  · exact ⟨nofun, nofun⟩
  · refine .bind check_yields fun _ hfault => .bind .expectEnd fun _ _ =>
      .pure ⟨rfl, machineLinked_of_fault? hfault, ?_⟩
    refine List.forall_mem_append.2 ⟨List.forall_mem_flatMap.2 hd.states, fun c hc => ?_⟩
    obtain ⟨⟨key, a⟩, ha, rfl⟩ := List.mem_map.1 hc
    obtain ⟨e, he, hsome⟩ := List.mem_filterMap.1 ha
    obtain ⟨b, hb, heq⟩ := Option.map_eq_some_iff.1 hsome
    obtain ⟨-, rfl⟩ := Prod.mk.inj heq
    exact hd.triggers e he b (Option.mem_toList.2 hb)

end StateMachine

end OpenWorkflow.Reader

namespace OpenWorkflow

open OpenWorkflow.Parser (Yields)

variable {T : Markup.Token → Prop}

/-! ## Any activity -/

/-- Every type of activity is read as such. -/
theorem ActivityType.read_yields {P : Activity → Prop} {child : ChildReader}
    (hchild : ∀ owner, Yields T (child owner) P) (hempty : P .empty) (type : ActivityType) :
    Yields T (type.read child) (Reader.ReadAs type P) := by
  cases type with
  | atomic a => exact Reader.atomic_yields a
  | empty => exact .pure ⟨rfl, trivial, nofun⟩
  | messaging kind =>
    exact .bind (Reader.messaging_yields kind) fun m hm =>
      .pure ⟨congrArg ActivityType.messaging hm, trivial, nofun⟩
  | sequence => exact Reader.sequence_yields hchild
  | conditional => exact Reader.conditional_yields hchild
  | switch => exact Reader.switch_yields hchild hempty
  | loop test => exact Reader.loop_yields hchild test
  | parallel => exact Reader.parallel_yields hchild
  | pick => exact Reader.pick_yields hchild
  | flowchart => exact Reader.Flowchart.flowchart_yields hchild
  | stateMachine => exact Reader.StateMachine.stateMachine_yields hchild

/-- The activity itself is linked, and is there because of one of the tags. -/
structure Registry.Reads (r : Registry) (T : Markup.Token → Prop) (a : Activity) : Prop where
  links : a.Links
  tag : a.type = .empty ∨ ∃ t, T t ∧ r.resolve? t.qname = some a.type

theorem Registry.child_yields (r : Registry) (n : Nat) (owner : String) :
    Yields T (r.child n owner) (Activity.Throughout (r.Reads T)) := by
  induction n generalizing owner with
  | zero => exact .fail
  | succ n ih =>
    refine .bind .peekStart fun front hfront => ?_
    split
    · exact .fail
    · rename_i type htype
      have hempty : Activity.Throughout (r.Reads T) .empty := .leaf ⟨trivial, .inl rfl⟩ rfl
      refine (type.read_yields ih hempty).imp fun a ha => ⟨⟨ha.links, ?_⟩, ha.parts⟩
      exact .inr ⟨front, hfront, ha.type ▸ htype⟩

theorem finished_yields : Yields T finished fun _ => True := by
  intro s a s' hs heq
  unfold finished at heq
  split at heq
  · obtain ⟨-, rfl⟩ := EStateM.Result.ok.inj heq
    exact ⟨hs, trivial⟩
  · cases heq

/-- What a document yields has been read throughout. -/
theorem document_yields (r : Registry) :
    Yields T (document r) (Activity.Throughout (r.Reads T)) := by
  refine .bind .peekStart fun root _ => .ite ?_ .fail
  have hchild : Yields T (r.parseChild "Root") (Activity.Throughout (r.Reads T)) :=
    .bind .remaining fun n _ => r.child_yields (n + 1) _
  refine .bind .nextToken fun _ _ => .bind hchild fun a ha => .bind .expectEnd fun _ _ => ?_
  exact .bind finished_yields fun _ _ => .pure ha

/-- Whatever stands in a document that has been read is linked and of a type that one of its tags
stands for. -/
theorem parseDocument_throughout {r : Registry} {tokens : List Markup.Token} {root : Activity}
    (h : parseDocument r tokens = .ok root) : root.Throughout (r.Reads (· ∈ tokens)) := by
  unfold parseDocument at h
  split at h
  · rename_i a s hok
    obtain rfl := Except.ok.inj h
    exact (document_yields r _ _ _ (fun t ht => ht) hok).2
  · cases h

end OpenWorkflow
