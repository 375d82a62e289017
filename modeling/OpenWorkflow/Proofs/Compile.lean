import OpenWorkflow.Proofs.Ambiguity

/-!
# Documents without state machines have a net

Names of nodes, contracts and operations are up to the document, and so are the
nesting of its activities and the graphs of its flowcharts. Still no step of the
construction is refused and the net is consistent, unless there is a state
machine in the document (`compile_parseDocument`).
-/

namespace OpenWorkflow

open OpenWorkflow.Markup (Token Namespace.activities)

/-- **Documents without state machines compile.** A document that can be read gives a net, if no
activity in it is a state machine. -/
theorem compile_parseDocument {tokens : List Token} {root : Activity}
    (hparse : parseDocument Registry.standard tokens = .ok root) (hfree : root.MachineFree) :
    ∃ net, compile root = .ok net := by
  have hlinks := parseDocument_links hparse
  refine (compile_outcome hlinks).1.2 fun b hb => ?_
  exact Activity.unambiguous_of_links (hlinks b hb) (hfree.walk (by decide) b hb)

/-- A flowchart with one node, whose name ends with a dot. -/
theorem compile_parseDocument_flowchart : ∃ root,
    parseDocument Registry.standard
      [.opening Namespace.activities "Activity", .opening Namespace.activities "Flowchart",
        .opening Namespace.activities "Flowchart.StartNode",
        (Token.opening Namespace.activities "FlowStep").setAttribute "x:Name" "start.",
        .opening Namespace.activities "WriteLine", .ending Namespace.activities "WriteLine",
        .ending Namespace.activities "FlowStep",
        .ending Namespace.activities "Flowchart.StartNode",
        .ending Namespace.activities "Flowchart", .ending Namespace.activities "Activity"]
      = .ok root ∧ ∃ net, compile root = .ok net := by
  refine ⟨.flowchart (some "start.") [.step "start."
      (some (.atomic ⟨Namespace.activities, "WriteLine", "writeline"⟩)) none], ?hparse,
    compile_parseDocument ?hparse (.intro (by decide) ?_)⟩
  case hparse => set_option maxRecDepth 100000 in rfl
  exact List.forall_mem_singleton.2 (.leaf (by decide) rfl)

end OpenWorkflow
