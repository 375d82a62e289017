import OpenWorkflow.Net.Error

/-!
# Building a net

The steps of which every construction of a net consists. A step may be refused;
the net it leaves behind is then part of the result, as it is after a success,
so that a construction can go on from there.

* `newPlace`, `newTransition` and `newArc` add nodes and arcs.
* `merge` makes one place of two: the result answers to every name and handle of
  either, has the arcs of both, the larger marking, and takes their place in the
  final sets.
* `remove` takes a place out.
* `addFinalSet`, `setTokens`, `addPort` and `nextScope` record the rest.
-/

namespace OpenWorkflow

/-- A construction step on a net. -/
abbrev Build (α : Type) := EStateM NetError Net α

namespace Net

/-! ## Changes that cannot fail -/

/-- The handle that the next place gets. -/
def freshPlace (net : Net) : PlaceId := ⟨net.slots.length⟩

/-- The handle that the next transition gets. -/
def freshTransition (net : Net) : TransitionId := ⟨net.transitions.length⟩

/-- Changes the set of places of a kind. -/
def modifyPartition (net : Net) (kind : NodeKind)
    (f : OrderedSet PlaceId → OrderedSet PlaceId) : Net :=
  match kind with
  | .internal | .inOut => { net with internal := f net.internal }
  | .input => { net with input := f net.input }
  | .output => { net with output := f net.output }

/-- Changes a live place. -/
def modifyPlace (net : Net) (id : PlaceId) (f : Place → Place) : Net :=
  match net.slots[id.index]? with
  | some (.live place) => { net with slots := net.slots.set id.index (.live (f place)) }
  | _ => net

/-- Changes a transition. -/
def modifyTransition (net : Net) (id : TransitionId) (f : Transition → Transition) : Net :=
  { net with transitions := net.transitions.modify id.index f }

/-- Gives a place the next slot and lists it under its kind. -/
def appendPlace (net : Net) (place : Place) : Net :=
  let id := net.freshPlace
  let net := { net with slots := net.slots ++ [Slot.live place] }
  net.modifyPartition place.kind (fun s => s.insert id)

/-- Adds a transition without neighbours. -/
def appendTransition (net : Net) (name : String) (kind : NodeKind) : Net :=
  { net with
    transitions := net.transitions ++ [{ name, kind }]
    transitionNames := net.transitionNames.insert name net.freshTransition }

/-- Adds an arc between a place and a transition to the flow relation and to
the neighbourhoods of both. -/
def connect (net : Net) (arc : Arc) : Net :=
  match arc.source, arc.target with
  | .place p, .transition t =>
    let net := net.modifyPlace p (fun x => { x with postset := x.postset.insert t })
    let net := net.modifyTransition t (fun x => { x with preset := x.preset.insert p })
    { net with arcs := net.arcs.insert arc }
  | .transition t, .place p =>
    let net := net.modifyPlace p (fun x => { x with preset := x.preset.insert t })
    let net := net.modifyTransition t (fun x => { x with postset := x.postset.insert p })
    { net with arcs := net.arcs.insert arc }
  | _, _ => net

/-- Takes the arc from a transition to a place out of the flow relation and out
of the transition's neighbourhood. -/
def dropProduced (id : PlaceId) (net : Net) (t : TransitionId) : Net :=
  let net := net.modifyTransition t (fun x => { x with postset := x.postset.erase id })
  { net with arcs := net.arcs.erase ⟨.transition t, .place id⟩ }

/-- Takes the arc from a place to a transition out of the flow relation and out
of the transition's neighbourhood. -/
def dropConsumed (id : PlaceId) (net : Net) (t : TransitionId) : Net :=
  let net := net.modifyTransition t (fun x => { x with preset := x.preset.erase id })
  { net with arcs := net.arcs.erase ⟨.place id, .transition t⟩ }

/-- Takes a name out of the index if it leads to the given place. -/
def forgetName (id : PlaceId) (names : OrderedMap String PlaceId) (name : String) :
    OrderedMap String PlaceId :=
  if names.get? name = some id then names.erase name else names

/-- Takes a live place out of the net and leaves the given mark in its slot.
The result is the place as it was. -/
def detach (net : Net) (id : PlaceId) (mark : Slot) : Option Place × Net :=
  match net.place? id with
  | none => (none, net)
  | some place =>
    let net := { net with slots := net.slots.set id.index mark }
    let net := place.preset.toList.foldl (dropProduced id) net
    let net := place.postset.toList.foldl (dropConsumed id) net
    let net := net.modifyPartition place.kind (fun s => s.erase id)
    (some place, { net with names := place.history.toList.foldl (forgetName id) net.names })

/-- Puts a place in the final sets where one of two others stood. -/
def redirectFinalSets (net : Net) (a b merged : PlaceId) : Net :=
  { net with
    finalSets := net.finalSets.map fun set =>
      if a ∈ set ∨ b ∈ set then set.map (fun p => if p = a ∨ p = b then merged else p) else set }

/-- Every name of the second place and then of the first, whose current name
becomes the current one. -/
def mergedHistory (first second : Place) : OrderedSet String :=
  ((second.history.union first.history).erase first.name).insert first.name

/-- The place that two detached places become, before its arcs are drawn. -/
def mergedPlace (kind : NodeKind) (first second : Place) : Place where
  history := mergedHistory first second
  kind := kind
  tokens := max first.tokens second.tokens
  isFinal := first.isFinal || second.isFinal

/-- Adds the place that two detached places become, with the arcs of both. -/
def absorb (net : Net) (kind : NodeKind) (first second : Place) : Net :=
  let id := net.freshPlace
  let place := mergedPlace kind first second
  let net := { net with
    names := place.history.toList.foldl (fun names name => names.insert name id) net.names }
  let net := net.appendPlace place
  let net := (first.preset.union second.preset).toList.foldl
    (fun net t => net.connect ⟨.transition t, .place id⟩) net
  (first.postset.union second.postset).toList.foldl
    (fun net t => net.connect ⟨.place id, .transition t⟩) net

/-! ## Steps -/

/-- The place that a reference stands for. -/
def locatePlace (ref : PlaceRef) : Build PlaceId := fun net =>
  match net.resolve? ref with
  | some id => .ok id net
  | none => .error (.missingPlace ref.describe) net

/-- The node that an endpoint stands for. -/
def locate : Endpoint → Build Node
  | .place ref => do return .place (← locatePlace ref)
  | .transition id => fun net =>
    if id.index < net.transitions.length then .ok (.transition id) net
    else .error (.missingTransition id.index) net

/-- Adds a place under a name that no place has carried. -/
def newPlace (name : String) (kind : NodeKind) : Build PlaceId := fun net =>
  if name = "" then .error .emptyName net
  else if net.names.contains name then .error (.duplicatePlace name) net
  else
    let id := net.freshPlace
    let net := { net with names := net.names.insert name id }
    .ok id (net.appendPlace (Place.ofName name kind))

/-- Adds an internal place. -/
def internalPlace (name : String) : Build Unit := do
  let _ ← newPlace name .internal

/-- Adds a transition. If there is one of that name, it is used again as it is. -/
def newTransitionOf (name : String) (kind : NodeKind) : Build TransitionId := fun net =>
  if name = "" then .error .emptyName net
  else
    match net.transitionNames.get? name with
    | some id => .ok id net
    | none => .ok net.freshTransition (net.appendTransition name kind)

/-- Adds an internal transition. -/
def newTransition (name : String) : Build TransitionId := newTransitionOf name .internal

/-- Adds an arc, which must join a place and a transition. -/
def newArc (source target : Endpoint) : Build Unit := do
  let source ← locate source
  let target ← locate target
  fun net =>
    match source, target with
    | .place a, .place b =>
      .error (.placeToPlace ((net.placeName? a).getD "") ((net.placeName? b).getD "")) net
    | .transition a, .transition b =>
      .error (.transitionToTransition ((net.nodeName? (.transition a)).getD "")
        ((net.nodeName? (.transition b)).getD "")) net
    | _, _ => .ok () (net.connect ⟨source, target⟩)

/-- The kind of the place that two places become. -/
def mergedKind (a b : PlaceId) : Build NodeKind := fun net =>
  match net.place? a, net.place? b with
  | some first, some second =>
    match first.kind.join? second.kind with
    | some kind => .ok kind net
    | none =>
      .error (.incompatibleMerge first.name first.kind second.name second.kind) net
  | _, _ => .error (.missingPlace (PlaceRef.handle a).describe) net

/-- Takes a live place out of the net. -/
def detached (id : PlaceId) (mark : Slot) : Build (Option Place) := fun net =>
  let result := net.detach id mark
  .ok result.1 result.2

/-- Makes one place of two. The result answers to every name of either and its
current name is that of the first. -/
def merge (p q : PlaceRef) : Build PlaceId := do
  let a ← locatePlace p
  let b ← locatePlace q
  if a = b then return a
  else
    let kind ← mergedKind a b
    let id := (← get).freshPlace
    modify (fun net => net.redirectFinalSets a b id)
    let first ← detached a (.merged id)
    let second ← detached b (.merged id)
    match first, second with
    | some first, some second =>
      modify (fun net => net.absorb kind first second)
      return id
    | _, _ => throw (.missingPlace p.describe)

/-- Takes a place out with every arc that touches it; a reference that leads
nowhere is ignored. -/
def remove (ref : PlaceRef) : Build Unit := fun net =>
  match net.resolve? ref with
  | none => .ok () net
  | some id =>
    match net.detach id .removed with
    | (none, net) => .ok () net
    | (some _, net) =>
      .ok () { net with finalSets := net.finalSets.map (fun set => set.erase id) }

/-- Adds one alternative to the final condition. -/
def addFinalSet (refs : List PlaceRef) : Build Unit := do
  let ids ← refs.mapM locatePlace
  let set := OrderedSet.ofList ids
  if set.isEmpty then throw .emptyFinalSet
  else
    modify fun net =>
      let net := set.toList.foldl
        (fun net id => net.modifyPlace id (fun x => { x with isFinal := true })) net
      { net with finalSets := net.finalSets ++ [set] }

/-- Sets the tokens that a place holds at the start. -/
def setTokens (ref : PlaceRef) (tokens : Nat) : Build Unit := do
  let id ← locatePlace ref
  modify (fun net => net.modifyPlace id (fun x => { x with tokens }))

/-- Lists a place's name under a port. A name leads to its place also after
later merges. -/
def addPort (port name : String) : Build Unit :=
  modify fun net =>
    { net with ports := net.ports.insert port (((net.ports.get? port).getD ∅).insert name) }

/-- Opens the number of the next fragment. -/
def nextScope : Build Nat := fun net =>
  .ok (net.scope + 1) { net with scope := net.scope + 1 }

end Net

end OpenWorkflow
