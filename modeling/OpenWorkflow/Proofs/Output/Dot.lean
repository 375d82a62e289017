import Mathlib.Data.List.Forall2
import OpenWorkflow.Output.Dot
import OpenWorkflow.Proofs.Markup.Printing
import OpenWorkflow.Proofs.Net.Consistency
import OpenWorkflow.Proofs.Text.Numeral

/-!
# Drawn nets

The graph of a net shows all of it: its nodes are the live places and the transitions,
and it has an edge for each arc. An arc with an end that is not drawn would have no edge;
in a net that was built step by step there is no such arc.

`Graph.read?` reads a graph from its text. It finds the end of a label by the quote that
no backslash precedes, so a label can hold anything, also what looks like a further line
(`read?_dot`). Hence the text of a net determines its graph.
-/

namespace OpenWorkflow

open OpenWorkflow.Text (Rule)
open OpenWorkflow.Owfn (bind_apply)
open OpenWorkflow.Markup (Takes Stops takes_literal takes_many takes_run1 bind_eq_none
  literal_eq_none orElse_of_some orElse_of_none)

/-! ## Reading a graph from its text -/

namespace Graph

/-- The characters of a label and what stands behind its closing quote. -/
def labelFrom : List Char → Option (List Char × List Char)
  | [] => none
  | '"' :: rest => some ([], rest)
  | '\\' :: 'l' :: rest => (labelFrom rest).map fun r => ('\n' :: r.1, r.2)
  | '\\' :: c :: rest => (labelFrom rest).map fun r => (c :: r.1, r.2)
  | c :: rest => (labelFrom rest).map fun r => (c :: r.1, r.2)

/-- A label up to its closing quote. -/
def label : Rule String := fun cs => (labelFrom cs).map fun r => (String.ofList r.1, r.2)

/-- A number. -/
def number : Rule Nat := do
  let digits ← Rule.run1 Char.isDigit
  StateT.lift (Text.readDigits 10 0 digits.toList)

/-- The word for a shape. -/
def shape : Rule Shape :=
  (do Rule.literal "circle"; return .circle) <|> (do Rule.literal "box"; return .box)

/-- The line of a node. The number is the place of the line in the text. -/
def nodeRule : Rule (String × Shape) := do
  Rule.literal "    "
  let _ ← number
  Rule.literal " [ label = \""
  let label ← label
  Rule.literal " shape = "
  let shape ← shape
  Rule.literal "]\n"
  return (label, shape)

/-- The line of an edge. -/
def edgeRule : Rule (Nat × Nat) := do
  Rule.literal "    "
  let source ← number
  Rule.literal " -> "
  let target ← number
  Rule.literal " [ ]\n"
  return (source, target)

/-- The lines of the nodes, then those of the edges. -/
def graphRule : Rule Graph := do
  Rule.literal "digraph \x7b\n"
  let nodes ← Rule.many nodeRule
  let edges ← Rule.many edgeRule
  Rule.literal "\x7d\n"
  Rule.done
  return { nodes, edges }

/-- The graph that a text in the DOT language shows. -/
def read? (text : String) : Option Graph := Rule.accept? graphRule text

/-- An escaped label is read back. -/
theorem takes_label (s : String) (rest : List Char) :
    Takes label ((escape s).toList ++ ['"']) s rest := by
  have key (cs : List Char) :
      labelFrom (cs.flatMap escapeChar ++ '"' :: rest) = some (cs, rest) := by
    induction cs with
    | nil => rfl
    | cons c cs ih =>
      rw [List.flatMap_cons, List.append_assoc]
      by_cases hquote : c = '"'
      · subst hquote
        have hescape : escapeChar '"' = ['\\', '"'] := rfl
        simp [hescape, labelFrom, ih]
      by_cases hslash : c = '\\'
      · subst hslash
        have hescape : escapeChar '\\' = ['\\', '\\'] := rfl
        simp [hescape, labelFrom, ih]
      by_cases hline : c = '\n'
      · subst hline
        have hescape : escapeChar '\n' = ['\\', 'l'] := rfl
        simp [hescape, labelFrom, ih]
      · have hc : escapeChar c = [c] := by simp [escapeChar, hquote, hslash, hline]
        rw [hc, List.singleton_append, labelFrom, ih]
        · rfl
        all_goals simp [hquote, hslash]
  unfold Takes label escape
  rw [List.append_assoc, String.toList_ofList, List.singleton_append, key]
  simp

theorem takes_number (n : Nat) {rest : List Char} (hrest : Stops Char.isDigit rest) :
    Takes number (toString n).toList n rest := by
  have hne : (toString n).toList ≠ [] := by
    rw [Ne, String.toList_eq_nil_iff]
    exact Text.toString_ne_empty n
  have hrun := takes_run1 hne (fun c => Text.isDigit_of_mem_toString) hrest
  unfold Takes number
  rw [bind_apply, hrun, Option.bind_some]
  show (StateT.lift (Text.readDigits 10 0 (String.ofList (toString n).toList).toList) : Rule Nat)
    rest = _
  rw [String.ofList_toList, Nat.toString_eq_repr, Nat.toList_repr, Text.readDigits_toDigits]
  rfl

theorem takes_shape (s : Shape) (rest : List Char) : Takes shape s.word.toList s rest := by
  cases s with
  | circle => exact orElse_of_some ((takes_literal "circle" rest).map fun _ => Shape.circle)
  | box =>
    unfold Takes shape
    rw [orElse_of_none (bind_eq_none (literal_eq_none rfl))]
    exact (takes_literal "box" rest).map fun _ => Shape.box

/-- A space stands behind each number. -/
theorem stops_space (rest : List Char) : Stops Char.isDigit (' ' :: rest) := by
  intro c hc
  cases hc
  rfl

/-- The line of a node is read back. -/
theorem takes_nodeRule (node : (String × Shape) × Nat) (rest : List Char) :
    Takes nodeRule (nodeLine node).toList node.1 rest := by
  have htext : (nodeLine node).toList
      = "    ".toList ++ ((toString node.2).toList ++ (" [ label = \"".toList
        ++ (((escape node.1.1).toList ++ ['"']) ++ (" shape = ".toList
          ++ (node.1.2.word.toList ++ "]\n".toList))))) := by
    simp [nodeLine]
  rw [htext]
  exact (takes_literal "    " _).bind ((takes_number _ (stops_space _)).bind
    ((takes_literal " [ label = \"" _).bind ((takes_label _ _).bind
      ((takes_literal " shape = " _).bind ((takes_shape _ _).bind
        ((takes_literal "]\n" rest).map fun _ => node.1))))))

/-- The line of an edge is read back. -/
theorem takes_edgeRule (edge : Nat × Nat) (rest : List Char) :
    Takes edgeRule (edgeLine edge).toList edge rest := by
  have htext : (edgeLine edge).toList
      = "    ".toList ++ ((toString edge.1).toList ++ (" -> ".toList
        ++ ((toString edge.2).toList ++ " [ ]\n".toList))) := by
    simp [edgeLine]
  rw [htext]
  exact (takes_literal "    " _).bind ((takes_number _ (stops_space _)).bind
    ((takes_literal " -> " _).bind ((takes_number _ (stops_space _)).bind
      ((takes_literal " [ ]\n" rest).map fun _ => edge))))

/-- The line of an edge has an arrow where that of a node has its label. -/
theorem nodeRule_edgeLine (edge : Nat × Nat) (rest : List Char) :
    nodeRule ((edgeLine edge).toList ++ rest) = none := by
  have htext : (edgeLine edge).toList ++ rest
      = "    ".toList ++ ((toString edge.1).toList ++ (" -> ".toList
        ++ ((toString edge.2).toList ++ (" [ ]\n".toList ++ rest)))) := by
    simp [edgeLine]
  rw [htext]
  exact (takes_literal "    " _).bind_eq_none ((takes_number _ (stops_space _)).bind_eq_none
    (bind_eq_none (literal_eq_none rfl)))

/-- A graph is read back from its text, whatever its labels are. -/
theorem read?_dot (g : Graph) : read? g.dot = some g := by
  have htext : g.dot.toList
      = "digraph \x7b\n".toList ++ (g.nodes.zipIdx.flatMap (fun node => (nodeLine node).toList)
        ++ (g.edges.flatMap (fun edge => (edgeLine edge).toList) ++ "\x7d\n".toList)) := by
    simp [dot, List.flatMap_map]
  have hedges : Takes (Rule.many edgeRule)
      (g.edges.flatMap (fun edge => (edgeLine edge).toList)) g.edges ("\x7d\n".toList ++ []) := by
    have h := takes_many g.edges (fun edge => (edgeLine edge).toList) id
      (fun edge _ => ⟨by simp [edgeLine], takes_edgeRule edge⟩)
      (bind_eq_none (literal_eq_none rfl) : edgeRule ("\x7d\n".toList ++ []) = none)
    rwa [List.map_id] at h
  have hstop : nodeRule (g.edges.flatMap (fun edge => (edgeLine edge).toList)
      ++ "\x7d\n".toList ++ []) = none := by
    cases g.edges with
    | nil => exact bind_eq_none (literal_eq_none rfl)
    | cons edge edges =>
      rw [List.flatMap_cons, List.append_assoc, List.append_assoc]
      exact nodeRule_edgeLine edge _
  have hnodes : Takes (Rule.many nodeRule)
      (g.nodes.zipIdx.flatMap (fun node => (nodeLine node).toList)) g.nodes
      (g.edges.flatMap (fun edge => (edgeLine edge).toList) ++ "\x7d\n".toList ++ []) := by
    have h := takes_many g.nodes.zipIdx (fun node => (nodeLine node).toList) Prod.fst
      (fun node _ => ⟨by simp [nodeLine], takes_nodeRule node⟩) hstop
    rwa [List.zipIdx_map_fst] at h
  have hend : Takes (Rule.literal "\x7d\n" >>= fun _ => Rule.done >>= fun _ =>
      pure { nodes := g.nodes, edges := g.edges }) "\x7d\n".toList g [] := rfl
  have hgraph : graphRule (g.dot.toList ++ []) = some (g, []) := by
    rw [htext]
    exact (takes_literal "digraph \x7b\n" _).bind (hnodes.bind (hedges.bind hend))
  unfold read? Rule.accept?
  rw [← List.append_nil g.dot.toList, hgraph]
  rfl

end Graph

/-! ## The graph of a net -/

/-- The shape for a node. -/
def Node.shape : Node → Shape
  | place _ => .circle
  | transition _ => .box

namespace Net

variable {net : Net}

/-- The nodes in the order in which they are drawn, the places by the lists they are on. -/
theorem ListsAgree.drawnNodes_eq (h : net.ListsAgree) :
    net.drawnNodes
      = (net.internal.toList ++ net.input.toList ++ net.output.toList).map Node.place
        ++ (List.range net.transitions.length).map (fun i => Node.transition ⟨i⟩) := by
  have hlist (kind : NodeKind) :
      (net.livePlaces (net.listed kind)).map Prod.fst = (net.listed kind).toList :=
    map_fst_livePlaces fun id hid => h.live_of_listed hid
  have hplaces : net.places.map Prod.fst
      = net.internal.toList ++ net.input.toList ++ net.output.toList := by
    unfold places
    rw [List.map_append, List.map_append]
    exact congrArg₂ _ (congrArg₂ _ (hlist .internal) (hlist .input)) (hlist .output)
  have htransitions : net.indexedTransitions.map Prod.fst
      = (List.range net.transitions.length).map TransitionId.mk := by
    unfold indexedTransitions
    rw [List.map_map, List.range_eq_range', ← List.zipIdx_map_snd, List.map_map]
    rfl
  unfold drawnNodes
  rw [← hplaces, List.map_map]
  refine congrArg _ ?_
  rw [← Function.comp_def Node.transition Prod.fst, ← List.map_map, htransitions, List.map_map]
  rfl

/-- The nodes that are drawn are the nodes of the net. -/
theorem ListsAgree.mem_drawnNodes (h : net.ListsAgree) {node : Node} :
    node ∈ net.drawnNodes ↔ (net.nodeName? node).isSome = true := by
  unfold drawnNodes
  rw [List.mem_append, List.mem_map, List.mem_map]
  cases node with
  | place id =>
    simp only [nodeName?, placeName?, Option.isSome_map, Node.place.injEq, Option.isSome_iff_exists]
    constructor
    · rintro (⟨x, hx, rfl⟩ | ⟨x, -, hx⟩)
      · exact ⟨x.2, h.mem_places.1 hx⟩
      · cases hx
    · rintro ⟨p, hp⟩
      exact .inl ⟨(id, p), h.mem_places.2 hp, rfl⟩
  | transition id =>
    simp only [nodeName?, Option.isSome_map, Node.transition.injEq, Option.isSome_iff_exists]
    constructor
    · rintro (⟨x, -, hx⟩ | ⟨x, hx, rfl⟩)
      · cases hx
      · exact ⟨x.2, mem_indexedTransitions.1 hx⟩
    · rintro ⟨tr, ht⟩
      exact .inr ⟨(id, tr), mem_indexedTransitions.2 ht, rfl⟩

theorem ListsAgree.nodup_drawnNodes (h : net.ListsAgree) : net.drawnNodes.Nodup := by
  have hplaces : (net.places.map (fun p => Node.place p.1)).Nodup := by
    have := h.nodup_places.map (f := Node.place) fun a b e => Node.place.inj e
    rwa [List.map_map] at this
  have htransitions : (net.indexedTransitions.map (fun t => Node.transition t.1)).Nodup := by
    have hids : (net.indexedTransitions.map Prod.fst).Nodup := nodup_indexedTransitions
    have := hids.map (f := Node.transition) fun a b e => Node.transition.inj e
    rwa [List.map_map] at this
  refine hplaces.append htransitions fun node h1 h2 => ?_
  obtain ⟨x, -, rfl⟩ := List.mem_map.1 h1
  simp at h2

/-- A node is drawn with its name and its shape. -/
theorem ListsAgree.nodes_graph (h : net.ListsAgree) :
    net.graph.nodes.map some
      = net.drawnNodes.map (fun node => (net.nodeName? node).map (·, node.shape)) := by
  unfold graph drawnNodes
  rw [List.map_append, List.map_append]
  refine congrArg₂ _ ?_ ?_
  · rw [List.map_map, List.map_map]
    refine List.map_congr_left fun x hx => ?_
    simp [nodeName?, placeName?, h.mem_places.1 hx, Node.shape]
  · have hsnd : net.indexedTransitions.map Prod.snd = net.transitions := by
      simp [indexedTransitions, Function.comp_def]
    rw [List.map_map, List.map_map]
    nth_rewrite 1 [← hsnd]
    rw [List.map_map]
    refine List.map_congr_left fun x hx => ?_
    simp [nodeName?, mem_indexedTransitions.1 hx, Node.shape]

/-- Both ends of an arc are nodes of the net. -/
theorem Coherent.mem_drawnNodes_of_arc (h : net.Coherent) {arc : Arc} (harc : arc ∈ net.arcs) :
    arc.source ∈ net.drawnNodes ∧ arc.target ∈ net.drawnNodes := by
  rw [h.mem_drawnNodes, h.mem_drawnNodes]
  obtain ⟨flow, p, t, rfl⟩ := h.exists_arc harc
  obtain ⟨⟨place, hp⟩, tr, ht⟩ := h.ends_of_arc harc
  cases flow <;> simp [ArcKind.arc, nodeName?, placeName?, hp, ht]

/-- A node of the net has a number. -/
theorem exists_idxOf?_drawnNodes {node : Node} (h : node ∈ net.drawnNodes) :
    ∃ i, net.drawnNodes.idxOf? node = some i ∧ net.drawnNodes[i]? = some node := by
  obtain ⟨i, hi⟩ := Option.isSome_iff_exists.1 (List.isSome_idxOf?.2 h)
  obtain ⟨hlt, hget, -⟩ := List.idxOf?_eq_some_iff.1 hi
  exact ⟨i, hi, by rw [List.getElem?_eq_getElem hlt, hget]⟩

theorem Coherent.drawnEdge?_eq_some (h : net.Coherent) {arc : Arc} (harc : arc ∈ net.arcs) :
    ∃ edge, net.drawnEdge? arc = some edge
      ∧ net.drawnNodes[edge.1]? = some arc.source ∧ net.drawnNodes[edge.2]? = some arc.target := by
  obtain ⟨hsource, htarget⟩ := h.mem_drawnNodes_of_arc harc
  obtain ⟨s, hs, hs'⟩ := exists_idxOf?_drawnNodes hsource
  obtain ⟨t, ht, ht'⟩ := exists_idxOf?_drawnNodes htarget
  exact ⟨(s, t), by simp [drawnEdge?, hs, ht], hs', ht'⟩

/-- The edges of the graph are those of the arcs, one for each. -/
theorem Coherent.edges_graph (h : net.Coherent) :
    List.Forall₂ (fun arc edge => net.drawnNodes[edge.1]? = some arc.source
      ∧ net.drawnNodes[edge.2]? = some arc.target) net.arcs.toList net.graph.edges := by
  have key (arcs : List Arc) (harcs : ∀ arc ∈ arcs, arc ∈ net.arcs) :
      List.Forall₂ (fun arc edge => net.drawnNodes[edge.1]? = some arc.source
        ∧ net.drawnNodes[edge.2]? = some arc.target) arcs (arcs.filterMap net.drawnEdge?) := by
    induction arcs with
    | nil => exact .nil
    | cons arc arcs ih =>
      obtain ⟨edge, he, hends⟩ := h.drawnEdge?_eq_some (harcs arc (List.mem_cons_self ..))
      rw [List.filterMap_cons, he]
      exact .cons hends (ih fun a ha => harcs a (List.mem_cons_of_mem _ ha))
  exact key net.arcs.toList fun _ => id

/-- After any run of construction steps the drawn nodes are the nodes of the net, each once:
the places by the lists they are on, then the transitions by their handles. The graph has
them with their current names and shapes, and for each arc, in order, the edge that joins
the nodes at its ends. Any graph is read back from its text, so nets with the same text
have the same graph. -/
theorem run_graph (calls : List Call) :
    (run calls).drawnNodes
        = ((run calls).internal.toList ++ (run calls).input.toList
            ++ (run calls).output.toList).map Node.place
          ++ (List.range (run calls).transitions.length).map (fun i => Node.transition ⟨i⟩)
      ∧ (run calls).drawnNodes.Nodup
      ∧ (∀ node, node ∈ (run calls).drawnNodes ↔ ((run calls).nodeName? node).isSome = true)
      ∧ (run calls).graph.nodes.map some
        = (run calls).drawnNodes.map (fun node =>
            ((run calls).nodeName? node).map (·, node.shape))
      ∧ List.Forall₂ (fun arc edge => (run calls).drawnNodes[edge.1]? = some arc.source
          ∧ (run calls).drawnNodes[edge.2]? = some arc.target)
        (run calls).arcs.toList (run calls).graph.edges
      ∧ (∀ g : OpenWorkflow.Graph, Graph.read? g.dot = some g)
      ∧ ∀ calls', (run calls').graph.dot = (run calls).graph.dot →
        (run calls').graph = (run calls).graph := by
  have h := wellFormed_run calls
  refine ⟨h.drawnNodes_eq, h.nodup_drawnNodes, fun node => h.mem_drawnNodes, h.nodes_graph,
    h.edges_graph, Graph.read?_dot, fun calls' heq => ?_⟩
  have hread := Graph.read?_dot (run calls').graph
  rw [heq, Graph.read?_dot] at hread
  exact (Option.some.inj hread).symm

end Net

end OpenWorkflow
