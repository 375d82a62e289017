import OpenWorkflow.Proofs.Outcome
import OpenWorkflow.Proofs.Workflow.Reading

/-!
# Names given twice

The places of a fragment are named after the texts of the document: names of
nodes and states, keys of triggers and targets of transitions. In a flowchart a
name and what follows it can be told apart, since nothing that follows has a dot
in it. In a state machine they cannot, so that a state `A` with an entry stands
in the way of a state `A.entry`, and a trigger with the key `notrigger` in the way
of the transitions without trigger.

Main statement: a document that can be read has a net if and only if none of its
state machines gives a name twice (`compile_parseDocument_iff`). It does not hold
without the proviso (`compile_notrigger_fails`).
-/

namespace OpenWorkflow

open OpenWorkflow.Markup (Token Namespace.activities)

/-! ## Numbered places -/

theorem casePlaces_eq_map {α : Type} (cases : List α) (i : Nat) :
    casePlaces i cases = (List.range' i cases.length).map fun j => "case" ++ toString j := by
  induction cases generalizing i with
  | nil => rfl
  | cons c cases ih => rw [casePlaces, ih, List.length_cons, List.range'_succ, List.map_cons]

/-- What follows the name of the node in the names of its places. -/
def FlowNode.suffixes {α : Type} : FlowNode α → List String
  | step _ _ _ => ["start", "next"]
  | decision _ _ _ => ["start", "condition", "true", "false"]
  | switch _ _ cases => ["start", "default"] ++ (List.range' 1 cases.length).flatMap fun j =>
    ["condition" ++ toString j, "case" ++ toString j]

namespace FlowNode

variable {α : Type}

theorem nodeCasePlaces_eq_map (id : String) (n i : Nat) :
    nodeCasePlaces id n i = ((List.range' i n).flatMap fun j =>
      ["condition" ++ toString j, "case" ++ toString j]).map (id ++ "." ++ ·) := by
  induction n generalizing i with
  | zero => rfl
  | succ n ih =>
    rw [nodeCasePlaces, ih, List.range'_succ, List.flatMap_cons, List.map_append]
    rfl

/-- The places of a node are named by its id and a suffix. -/
theorem places_eq_map (n : FlowNode α) : n.places = n.suffixes.map (n.id ++ "." ++ ·) := by
  cases n with
  | step _ _ _ => rfl
  | decision _ _ _ => rfl
  | switch id _ cases =>
    rw [places, nodeCasePlaces_eq_map, suffixes, List.map_append]
    rfl

theorem dot_not_mem_suffix {n : FlowNode α} {x : String} (h : x ∈ n.suffixes) :
    '.' ∉ x.toList := by
  cases n with
  | step _ _ _ => exact (show ∀ x ∈ ["start", "next"], '.' ∉ x.toList by decide) x h
  | decision _ _ _ =>
    exact (show ∀ x ∈ ["start", "condition", "true", "false"], '.' ∉ x.toList by decide) x h
  | switch _ _ cases =>
    rcases List.mem_append.1 h with h | h
    · exact (show ∀ x ∈ ["start", "default"], '.' ∉ x.toList by decide) x h
    · obtain ⟨j, -, h⟩ := List.mem_flatMap.1 h
      rcases List.mem_pair.1 h with rfl | rfl
      · exact Fragment.Flowchart.dot_not_mem_append (by decide) j
      · exact Fragment.Flowchart.dot_not_mem_append (by decide) j

/-- No two places of one node have the same suffix. -/
theorem suffixes_nodup (n : FlowNode α) : n.suffixes.Nodup := by
  cases n with
  | step _ _ _ => exact show ["start", "next"].Nodup by decide
  | decision _ _ _ => exact show ["start", "condition", "true", "false"].Nodup by decide
  | switch _ _ cases =>
    have hcc (i j : Nat) : "condition" ++ toString i ≠ "case" ++ toString j := by
      simp [← String.toList_inj]
    refine List.Nodup.append (by decide) (List.nodup_flatMap.2 ⟨?_, ?_⟩) ?_
    · intro j _
      exact List.nodup_cons.2 ⟨List.mem_singleton.not.2 (hcc j j), List.nodup_singleton _⟩
    · refine List.Pairwise.imp (fun {i j} hij => ?_) List.nodup_range'
      simp only [Function.onFun, List.disjoint_left]
      intro x hi hj
      rcases List.mem_pair.1 hi with rfl | rfl <;> rcases List.mem_pair.1 hj with h | h
      · exact hij (Text.append_toString_inj.1 h)
      · exact hcc i j h
      · exact hcc j i h.symm
      · exact hij (Text.append_toString_inj.1 h)
    · rw [List.disjoint_left]
      intro x hx hmem
      obtain ⟨j, -, h⟩ := List.mem_flatMap.1 hmem
      rcases List.mem_pair.1 hx with rfl | rfl <;> simp [← String.toList_inj] at h

/-- Nodes of different names have no place in common. -/
theorem places_nodup {nodes : List (FlowNode α)} (h : (nodes.map FlowNode.id).Nodup) :
    (nodes.flatMap places).Nodup := by
  refine List.nodup_flatMap.2 ⟨fun n _ => ?_, ?_⟩
  · rw [places_eq_map]
    exact n.suffixes_nodup.map fun x y => String.append_right_inj _ |>.1
  · refine (List.pairwise_map.1 h).imp fun {m n} hne => ?_
    simp only [Function.onFun, List.disjoint_left, places_eq_map]
    intro z hm hn
    obtain ⟨x, hx, rfl⟩ := List.mem_map.1 hm
    obtain ⟨y, hy, heq⟩ := List.mem_map.1 hn
    exact hne (dotted_inj (dot_not_mem_suffix hy) (dot_not_mem_suffix hx) heq).1.symm

end FlowNode

/-! ## Fragments that give each name once -/

namespace Activity

/-- A fragment that is not that of a state machine gives each name once. -/
theorem unambiguous_of_links {a : Activity} (h : a.Links) (htype : a.type ≠ .stateMachine) :
    a.Unambiguous := by
  have hends : ["initialized", "closed"].Nodup := by decide
  have hcondition : ["initialized", "closed", "condition"].Nodup := by decide
  cases a with
  | stateMachine _ _ _ => exact absurd rfl htype
  | switch cases fallback =>
    have hnodup : (casePlaces 1 cases).Nodup := by
      rw [casePlaces_eq_map]
      exact List.Nodup.map (fun i j => Text.append_toString_inj.1) List.nodup_range'
    have hne {x : String} (hx : x = "initialized" ∨ x = "closed") : x ∉ casePlaces 1 cases := by
      rw [casePlaces_eq_map]
      intro hmem
      obtain ⟨j, -, heq⟩ := List.mem_map.1 hmem
      rcases hx with rfl | rfl <;> simp [← String.toList_inj] at heq
    simp only [Unambiguous, places, List.nodup_cons, List.mem_cons, not_or]
    exact ⟨⟨by decide, hne (.inl rfl)⟩, hne (.inr rfl), hnodup⟩
  | flowchart start nodes =>
    cases start with
    | none => exact hends
    | some start =>
      have hne {x : String} (hx : '.' ∉ x.toList) : x ∉ nodes.flatMap FlowNode.places := by
        intro hmem
        obtain ⟨n, -, hn⟩ := List.mem_flatMap.1 hmem
        rw [FlowNode.places_eq_map] at hn
        obtain ⟨y, -, rfl⟩ := List.mem_map.1 hn
        simp at hx
      simp only [Unambiguous, places, List.nodup_cons, List.mem_cons, not_or]
      exact ⟨⟨by decide, hne (by decide)⟩, hne (by decide), FlowNode.places_nodup h.ids⟩
  | conditional _ _ => exact hcondition
  | loop _ _ => exact hcondition
  | _ => exact hends

end Activity

/-! ## Documents with state machines -/

/-- The links of a document that has been read lead somewhere. -/
theorem parseDocument_links {r : Registry} {tokens : List Token} {root : Activity}
    (h : parseDocument r tokens = .ok root) : ∀ b ∈ root.walk, b.Links :=
  Activity.Throughout.walk ((parseDocument_throughout h).imp fun _ hb => hb.links) trivial

/-- **Which documents compile.** A document that can be read has a net if and only if none of its
state machines gives a name twice, and only for a name given twice it can have none. -/
theorem compile_parseDocument_iff {tokens : List Token} {root : Activity}
    (hparse : parseDocument Registry.standard tokens = .ok root) :
    ((∃ net, compile root = .ok net) ↔
        ∀ b ∈ root.walk, b.type = .stateMachine → b.Unambiguous) ∧
      ∀ e, compile root = .error e → ∃ n, e = .net (.duplicatePlace n) := by
  have hlinks := parseDocument_links hparse
  obtain ⟨hfine, herror⟩ := compile_outcome hlinks
  refine ⟨hfine.trans ⟨fun h b hb _ => h b hb, fun h b hb => ?_⟩, herror⟩
  by_cases htype : b.type = .stateMachine
  · exact h b hb htype
  · exact Activity.unambiguous_of_links (hlinks b hb) htype

/-- A state machine with one state, which is left for itself, either on the trigger with the given
key or at once. -/
def loopingMachine (key : String) : Activity :=
  .stateMachine (some "A")
    [⟨"A", false, none, none, [⟨"A", some key, false, none⟩, ⟨"A", none, false, none⟩]⟩]
    [(key, .atomic ⟨Namespace.activities, "Delay", "delay"⟩)]

/-- The document of that state machine. -/
def loopingDocument (key : String) : List Token :=
  [.opening Namespace.activities "Activity",
    (Token.opening Namespace.activities "StateMachine").setAttribute "InitialState"
      "\x7bx:Reference A\x7d",
    (Token.opening Namespace.activities "State").setAttribute "x:Name" "A",
    .opening Namespace.activities "State.Transitions",
    (Token.opening Namespace.activities "Transition").setAttribute "To" "\x7bx:Reference A\x7d",
    .opening Namespace.activities "Transition.Trigger",
    (Token.opening Namespace.activities "Delay").setAttribute "x:Name" key,
    .ending Namespace.activities "Delay", .ending Namespace.activities "Transition.Trigger",
    .ending Namespace.activities "Transition",
    (Token.opening Namespace.activities "Transition").setAttribute "To" "\x7bx:Reference A\x7d",
    .ending Namespace.activities "Transition", .ending Namespace.activities "State.Transitions",
    .ending Namespace.activities "State", .ending Namespace.activities "StateMachine",
    .ending Namespace.activities "Activity"]

/-- With any other key the machine has a net. -/
theorem compile_parseDocument_iff_timer :
    parseDocument Registry.standard (loopingDocument "timer") = .ok (loopingMachine "timer") ∧
      ∃ net, compile (loopingMachine "timer") = .ok net := by
  have hparse : parseDocument Registry.standard (loopingDocument "timer")
      = .ok (loopingMachine "timer") := by
    set_option maxRecDepth 100000 in rfl
  refine ⟨hparse, (compile_parseDocument_iff hparse).1.2 ?_⟩
  refine Activity.forall_mem_walk.2 ⟨fun _ => by decide +kernel, ?_⟩
  have hbuilt : (loopingMachine "timer").built
      = [.atomic ⟨Namespace.activities, "Delay", "delay"⟩] := rfl
  rw [hbuilt]
  exact List.forall_mem_singleton.2 (Activity.forall_mem_walk.2 ⟨nofun, fun _ h => nomatch h⟩)

/-- The key `notrigger` stands in the way of the transition without trigger. -/
theorem compile_notrigger_fails :
    parseDocument Registry.standard (loopingDocument "notrigger")
        = .ok (loopingMachine "notrigger") ∧
      compile (loopingMachine "notrigger")
        = .error (.net (.duplicatePlace "1.internal.A.notrigger.runcondition1")) := by
  constructor
  · set_option maxRecDepth 100000 in rfl
  · decide +kernel

end OpenWorkflow
