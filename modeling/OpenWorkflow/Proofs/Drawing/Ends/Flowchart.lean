import OpenWorkflow.Proofs.Drawing.Ends.Basic

/-!
# What a flowchart ends with

A flowchart ends with the edges that lead nowhere, and no node starts there.
-/

namespace OpenWorkflow.Activity

open Fragment.Flowchart (nodeName)

variable {E : String → Prop} {s : Scope} {v : Bool} {k : Nat} {edges : List (Option String)}
  {last : String}

theorem respects_nodeCaseLines {id : String} {i : Nat} (hlast : ¬ E last)
    (htold : Told E s v (FlowNode.caseEnds id i edges)) :
    Respects E E (nodeCaseLines s id edges.length i last) ∧
      ¬ E (nodeLastCase s id edges.length i last) := by
  induction edges generalizing i last with
  | nil => exact ⟨.nil, hlast⟩
  | cons edge edges ih =>
    simp only [Told, FlowNode.caseEnds, List.forall_mem_cons, Bool.false_eq_true, false_and,
      iff_false] at htold
    obtain ⟨hcondition, -, hrest⟩ := htold
    have hnext : ¬ E (nodeName s id ("condition" ++ i.repr)) := hcondition
    obtain ⟨hlines, hend⟩ := ih hnext hrest
    refine ⟨Respects.append ?_ hlines, hend⟩
    simp [Respects, hlast, hnext]

/-- What a node draws respects the ends. -/
theorem respects_nodeLines {node : FlowNode Activity} (htold : Told E s v node.placeEnds)
    (hseen : Seen E v k node.builtEnds) : Respects E E (nodeLines s k node) := by
  cases node with
  | step id action next =>
    simp only [FlowNode.builtEnds, Seen, Each, and_true] at hseen
    simp only [Told, FlowNode.placeEnds, List.forall_mem_cons, Bool.false_eq_true, false_and,
      iff_false] at htold
    simp [Respects, nodeLines, spliceLines, nodeName, htold, hseen]
  | decision id onTrue onFalse =>
    simp only [Told, FlowNode.placeEnds, List.forall_mem_cons, Bool.false_eq_true, false_and,
      iff_false] at htold
    simp [Respects, nodeLines, nodeName, htold]
  | switch id fallback cases =>
    simp only [FlowNode.placeEnds, told_append] at htold
    obtain ⟨hends, hcases⟩ := htold
    simp only [Told, List.forall_mem_cons, Bool.false_eq_true, false_and, iff_false] at hends
    have hstart : ¬ E (nodeName s id "start") := hends.1
    obtain ⟨hlines, hlast⟩ := respects_nodeCaseLines hstart hcases
    refine Respects.append (Respects.append ?_ hlines) ?_
    · simp [Respects]
    · simp [Respects, hlast]

section edges

variable (hclosed : E s.closed ↔ v = true) (htargets : ∀ id, ¬ E (nodeName s id "start"))
include hclosed htargets

/-- An edge without a target ends the flowchart. -/
theorem respects_edgeLine {place : String} {target : Option String}
    (hplace : E place ↔ target.isNone = true ∧ v = true) :
    Respects E E [edgeLine s place target] := by
  cases target with
  | none => simpa [Respects, edgeLine, hclosed] using hplace.symm
  | some id => simp [Respects, edgeLine, hplace, htargets]

theorem respects_caseEdgeLines {id : String} {i : Nat}
    (htold : Told E s v (FlowNode.caseEnds id i edges)) :
    Respects E E (caseEdgeLines s id i edges) := by
  induction edges generalizing i with
  | nil => exact .nil
  | cons edge edges ih =>
    rw [FlowNode.caseEnds] at htold
    obtain ⟨-, hcase, hrest⟩ := by simpa only [Told, List.forall_mem_cons] using htold
    exact (respects_edgeLine hclosed htargets hcase).append (ih hrest)

theorem respects_edgeLines {node : FlowNode Activity} (htold : Told E s v node.placeEnds) :
    Respects E E (edgeLines s node) := by
  cases node with
  | step id action next =>
    simp only [Told, FlowNode.placeEnds, List.forall_mem_cons] at htold
    exact respects_edgeLine hclosed htargets htold.2.1
  | decision id onTrue onFalse =>
    simp only [Told, FlowNode.placeEnds, List.forall_mem_cons] at htold
    obtain ⟨-, -, htrue, hfalse, -⟩ := htold
    exact (respects_edgeLine hclosed htargets htrue).append
      (respects_edgeLine hclosed htargets hfalse)
  | switch id fallback cases =>
    simp only [FlowNode.placeEnds, told_append] at htold
    obtain ⟨hends, hcases⟩ := htold
    simp only [Told, List.forall_mem_cons] at hends
    exact (respects_edgeLine hclosed htargets hends.2.1).append
      (respects_caseEdgeLines hclosed htargets hcases)

end edges

/-- The start of a node is no end. -/
theorem not_end_start {start id : String} {nodes : List (FlowNode Activity)}
    (honly : ∀ x, E (s.name x) → (x, true) ∈ placeEnds (.flowchart (some start) nodes)) :
    ¬ E (nodeName s id "start") := by
  intro h
  have hmem := honly _ h
  simp only [placeEnds, innerEnds, List.mem_cons, Prod.mk.injEq, Bool.true_eq_false, and_false,
    and_true, false_or] at hmem
  rcases hmem with heq | hmem
  · exact Fragment.Flowchart.nodeName_ne (s := s) (by decide) (congrArg s.name heq)
  · obtain ⟨node, -, hnode⟩ := List.mem_flatMap.1 hmem
    exact node.start_not_end id hnode

/-- A flowchart ends at its open edges. -/
theorem respects_flowchartLines (hinit : ¬ E s.initialized) (hclosed : E s.closed ↔ v = true)
    {start : Option String} {nodes : List (FlowNode Activity)}
    (htold : Told E s v (innerEnds (.flowchart start nodes)))
    (honly : ∀ x, E (s.name x) → (x, true) ∈ placeEnds (.flowchart start nodes))
    (hseen : Seen E v s.id (builtEnds (.flowchart start nodes))) :
    Respects E E (flowchartLines s start nodes) := by
  cases start with
  | none => exact respects_spliceLines hinit hclosed hseen
  | some start =>
    have hnodes : Respects E E (numberedLines (nodeLines s) FlowNode.built s.id nodes) :=
      .numberedLines FlowNode.map_fst_builtEnds hseen fun node hnode k hk =>
        respects_nodeLines (told_flatMap.1 htold node hnode) hk
    have hstart : Respects E E [.joins s.initialized (nodeName s start "start")] := by
      simp [Respects, hinit, not_end_start honly]
    exact hnodes.append (hstart.append (.flatMap fun node hnode =>
      respects_edgeLines hclosed (fun _ => not_end_start honly) (told_flatMap.1 htold node hnode)))

end OpenWorkflow.Activity
