import OpenWorkflow.Net.Statistics

/-!
# Consistency of a net

A net holds its flow relation three times: as a set of arcs, in the
neighbourhoods of its places and in those of its transitions. `Net.flaws` lists
where the copies disagree, and where an arc, a final set or a name leads to a
node that is not there; `Net.isConsistent` holds when there is nothing to list.
-/

namespace OpenWorkflow

/-- One way in which a net can be inconsistent. -/
inductive Flaw where
  /-- An arc that does not join a place and a transition. -/
  | illegalArc (arc : Arc)
  /-- An arc with an end that is not in the net. -/
  | danglingArc (arc : Arc) (node : Node)
  /-- A neighbourhood lists an arc that the flow relation lacks. -/
  | unmatchedNeighbour (owner : String) (arc : Arc)
  /-- The neighbourhoods of the places do not account for the flow relation. -/
  | arcCount (counted listed : Nat)
  /-- A final set holds a place that is gone. -/
  | staleFinalPlace (set : Nat) (id : PlaceId)
  /-- The index leads to a place that does not carry the name. -/
  | staleName (name : String) (id : PlaceId)
  deriving DecidableEq

namespace Net

/-- Is the node in the net? -/
def hasNode (net : Net) : Node → Bool
  | .place id => (net.place? id).isSome
  | .transition id => (net.transition? id).isSome

/-- What is wrong with an arc of the flow relation. -/
def arcFlaws (net : Net) (arc : Arc) : List Flaw :=
  match arc.source, arc.target with
  | .place _, .place _ => [.illegalArc arc]
  | .transition _, .transition _ => [.illegalArc arc]
  | _, _ =>
    ([arc.source, arc.target].filter (fun node => !net.hasNode node)).map (.danglingArc arc)

/-- The arcs that the neighbourhood of a place lists. -/
def placeArcs (id : PlaceId) (place : Place) : List Arc :=
  place.preset.toList.map (fun t => ⟨.transition t, .place id⟩)
    ++ place.postset.toList.map (fun t => ⟨.place id, .transition t⟩)

/-- The arcs that the neighbourhood of a transition lists. -/
def transitionArcs (id : TransitionId) (transition : Transition) : List Arc :=
  transition.preset.toList.map (fun p => ⟨.place p, .transition id⟩)
    ++ transition.postset.toList.map (fun p => ⟨.transition id, .place p⟩)

/-- The listed arcs that the flow relation lacks. -/
def unmatched (net : Net) (owner : String) (arcs : List Arc) : List Flaw :=
  (arcs.filter (fun arc => arc ∉ net.arcs)).map (.unmatchedNeighbour owner)

/-- The number of arcs that the neighbourhoods of the places account for. -/
def countedArcs (net : Net) : Nat :=
  total (fun p => p.2.preset.size + p.2.postset.size) net.places

/-- Where neighbourhoods and flow relation disagree. -/
def flowFlaws (net : Net) : List Flaw :=
  net.places.flatMap (fun p => net.unmatched p.2.name (placeArcs p.1 p.2))
    ++ net.indexedTransitions.flatMap (fun t => net.unmatched t.2.name (transitionArcs t.1 t.2))
    ++ (if net.countedArcs = net.arcs.size then []
      else [.arcCount net.countedArcs net.arcs.size])

/-- The members of final sets that are gone. -/
def finalFlaws (net : Net) : List Flaw :=
  net.finalSets.zipIdx.flatMap fun set =>
    (set.1.toList.filter (fun id => (net.place? id).isNone)).map (.staleFinalPlace set.2)

/-- Does an entry of the index lead to a live place that carries the name? -/
def isNamed (net : Net) (entry : String × PlaceId) : Bool :=
  match net.place? entry.2 with
  | some place => place.knows entry.1
  | none => false

/-- The entries of the index that lead astray. -/
def nameFlaws (net : Net) : List Flaw :=
  (net.names.toList.filter (fun e => !net.isNamed e)).map (fun e => .staleName e.1 e.2)

/-- Everything that is inconsistent in a net. -/
def flaws (net : Net) : List Flaw :=
  net.arcs.toList.flatMap net.arcFlaws ++ net.flowFlaws ++ net.finalFlaws ++ net.nameFlaws

/-- Is there nothing inconsistent in the net? -/
def isConsistent (net : Net) : Bool := net.flaws.isEmpty

end Net

end OpenWorkflow
