import OpenWorkflow.Net.Basic

/-!
# Nets as graphs

A net is drawn as a graph: a circle for each place, a box for each transition
and an edge for each arc. `Graph.dot` writes a graph in the DOT language.
-/

namespace OpenWorkflow

/-- How a node is drawn. -/
inductive Shape where
  /-- A place. -/
  | circle
  /-- A transition. -/
  | box
  deriving DecidableEq

/-- The word for a shape. -/
def Shape.word : Shape → String
  | circle => "circle"
  | box => "box"

/-- A graph with labelled nodes, numbered from zero. -/
structure Graph where
  /-- The labels and shapes of the nodes. -/
  nodes : List (String × Shape)
  /-- The edges by the numbers of their ends. -/
  edges : List (Nat × Nat)
  deriving DecidableEq

namespace Net

/-- The nodes of a net in the order in which they are drawn. -/
def drawnNodes (net : Net) : List Node :=
  net.places.map (fun p => .place p.1) ++ net.indexedTransitions.map (fun t => .transition t.1)

/-- The edge for an arc; an arc with an end that is not drawn has none. -/
def drawnEdge? (net : Net) (arc : Arc) : Option (Nat × Nat) :=
  match net.drawnNodes.idxOf? arc.source, net.drawnNodes.idxOf? arc.target with
  | some source, some target => some (source, target)
  | _, _ => none

/-- The graph of a net. -/
def graph (net : Net) : Graph where
  nodes := net.places.map (fun p => (p.2.name, .circle))
    ++ net.transitions.map (fun t => (t.name, .box))
  edges := net.arcs.toList.filterMap net.drawnEdge?

end Net

namespace Graph

/-- A character inside a label. -/
def escapeChar (c : Char) : List Char :=
  if c = '"' then ['\\', '"']
  else if c = '\\' then ['\\', '\\']
  else if c = '\n' then ['\\', 'l']
  else [c]

/-- The text of a label. -/
def escape (label : String) : String := String.ofList (label.toList.flatMap escapeChar)

/-- The line of a node. -/
def nodeLine (node : (String × Shape) × Nat) : String :=
  "    " ++ toString node.2 ++ " [ label = \"" ++ escape node.1.1 ++ "\" shape = "
    ++ node.1.2.word ++ "]\n"

/-- The line of an edge. -/
def edgeLine (edge : Nat × Nat) : String :=
  "    " ++ toString edge.1 ++ " -> " ++ toString edge.2 ++ " [ ]\n"

/-- The graph in the DOT language. -/
def dot (g : Graph) : String :=
  "digraph \x7b\n" ++ String.join (g.nodes.zipIdx.map nodeLine)
    ++ String.join (g.edges.map edgeLine) ++ "\x7d\n"

end Graph

end OpenWorkflow
