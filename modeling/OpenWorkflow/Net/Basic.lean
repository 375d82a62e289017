import OpenWorkflow.Data.OrderedMap
import OpenWorkflow.Data.OrderedSet

/-!
# Open workflow nets

A net under construction: places, transitions and the arcs between them, with
interface places through which the net talks to its environment.

Places and transitions are addressed by handles. A place keeps every name it
has ever carried, and the net has an index of all of them, so that a name given
out before two places became one still leads to the place that took over. A
handle of a place that is gone is forwarded in the same way.

* `Net.find?` looks a place up by any of its names.
* `Net.current?` follows a handle to the live place it ended up in.
* `Net.places` lists the live places: internal, then input, then output.
-/

namespace OpenWorkflow

/-- The handle of a place. -/
structure PlaceId where
  /-- The position of the place's slot. -/
  index : Nat
  deriving DecidableEq

/-- The handle of a transition. -/
structure TransitionId where
  /-- The position of the transition. -/
  index : Nat
  deriving DecidableEq

/-- How a node takes part in the exchange with the environment. -/
inductive NodeKind where
  /-- Not at all. -/
  | internal
  /-- It receives. -/
  | input
  /-- It sends. -/
  | output
  /-- It does both. -/
  | inOut
  deriving DecidableEq

namespace NodeKind

/-- The word for the kind. -/
def label : NodeKind → String
  | internal => "internal"
  | input => "input"
  | output => "output"
  | inOut => "input/output"

/-- The kind of a place that two places become: an input and an output place
have no common kind, an internal place takes the kind of the other. -/
def join? : NodeKind → NodeKind → Option NodeKind
  | internal, k => some k
  | k, internal => some k
  | inOut, _ => some inOut
  | _, inOut => some inOut
  | input, input => some input
  | output, output => some output
  | input, output => none
  | output, input => none

end NodeKind

/-- A node of the net. -/
inductive Node where
  /-- A place. -/
  | place (id : PlaceId)
  /-- A transition. -/
  | transition (id : TransitionId)
  deriving DecidableEq

/-- An edge of the flow relation. -/
structure Arc where
  /-- Where it leaves. -/
  source : Node
  /-- Where it arrives. -/
  target : Node
  deriving DecidableEq

/-- A place with its neighbours. -/
structure Place where
  /-- Every name it has carried, the current one last. -/
  history : OrderedSet String
  /-- Its part in the interface. -/
  kind : NodeKind
  /-- The tokens of the initial marking. -/
  tokens : Nat := 0
  /-- Is it in some final set? -/
  isFinal : Bool := false
  /-- The transitions with an arc to it. -/
  preset : OrderedSet TransitionId := ∅
  /-- The transitions with an arc from it. -/
  postset : OrderedSet TransitionId := ∅
  deriving DecidableEq

namespace Place

/-- A fresh place. -/
def ofName (name : String) (kind : NodeKind) : Place :=
  { history := OrderedSet.singleton name, kind }

/-- The current name. -/
def name (p : Place) : String := p.history.newest?.getD ""

/-- Every name the place has carried, newest first. -/
def names (p : Place) : List String := p.history.toList.reverse

/-- Has the place ever carried the name? -/
def knows (p : Place) (name : String) : Bool := decide (name ∈ p.history)

end Place

/-- A transition with its neighbours. -/
structure Transition where
  /-- Its only name. -/
  name : String
  /-- Its part in the interface. -/
  kind : NodeKind
  /-- The places it consumes from. -/
  preset : OrderedSet PlaceId := ∅
  /-- The places it produces to. -/
  postset : OrderedSet PlaceId := ∅
  deriving DecidableEq

/-- What a place's handle leads to. -/
inductive Slot where
  /-- A place of the net. -/
  | live (place : Place)
  /-- The place has become part of another one. -/
  | merged (into : PlaceId)
  /-- The place has been taken out. -/
  | removed
  deriving DecidableEq

/-- Addresses a place by any of its names or by a handle. -/
inductive PlaceRef where
  /-- Any name that the place has carried. -/
  | named (name : String)
  /-- A handle, possibly an old one. -/
  | handle (id : PlaceId)
  deriving DecidableEq

instance : Coe String PlaceRef := ⟨PlaceRef.named⟩

instance : Coe PlaceId PlaceRef := ⟨PlaceRef.handle⟩

/-- How error messages name the place. -/
def PlaceRef.describe : PlaceRef → String
  | .named name => name
  | .handle id => "#" ++ toString id.index

/-- One end of an arc. -/
inductive Endpoint where
  /-- A place. -/
  | place (ref : PlaceRef)
  /-- A transition. -/
  | transition (id : TransitionId)
  deriving DecidableEq

instance : Coe String Endpoint := ⟨fun name => .place (.named name)⟩

instance : Coe TransitionId Endpoint := ⟨Endpoint.transition⟩

/-- A net under construction. -/
structure Net where
  /-- One slot for each place handle given out. -/
  slots : List Slot := []
  /-- The index of all names of live places. -/
  names : OrderedMap String PlaceId := ∅
  /-- The places of kind internal or input/output. -/
  internal : OrderedSet PlaceId := ∅
  /-- The places of kind input. -/
  input : OrderedSet PlaceId := ∅
  /-- The places of kind output. -/
  output : OrderedSet PlaceId := ∅
  /-- The transitions in the order of their handles. -/
  transitions : List Transition := []
  /-- The index of transition names. -/
  transitionNames : OrderedMap String TransitionId := ∅
  /-- The flow relation. -/
  arcs : OrderedSet Arc := ∅
  /-- The final condition: one of these sets is marked. -/
  finalSets : List (OrderedSet PlaceId) := []
  /-- The ports of the interface, with the names of their places. -/
  ports : OrderedMap String (OrderedSet String) := ∅
  /-- The number of the fragment under construction. -/
  scope : Nat := 0
  deriving DecidableEq

namespace Net

/-- The net without nodes. -/
def empty : Net := {}

/-! ## Looking nodes up -/

/-- The live place with the given handle. -/
def place? (net : Net) (id : PlaceId) : Option Place :=
  match net.slots[id.index]? with
  | some (.live place) => some place
  | _ => none

/-- The transition with the given handle. -/
def transition? (net : Net) (id : TransitionId) : Option Transition :=
  net.transitions[id.index]?

/-- The place that has ever carried the name. -/
def find? (net : Net) (name : String) : Option PlaceId := net.names.get? name

/-- The transition with the given name. -/
def findTransition? (net : Net) (name : String) : Option TransitionId :=
  net.transitionNames.get? name

/-- Follows at most `n` forwarding steps from a handle. -/
def follow (net : Net) : Nat → PlaceId → Option PlaceId
  | 0, _ => none
  | n + 1, id =>
    match net.slots[id.index]? with
    | some (.live _) => some id
    | some (.merged into) => follow net n into
    | _ => none

/-- The live place that a handle ended up in. Places are only merged into
later ones, so there are fewer forwarding steps than slots. -/
def current? (net : Net) (id : PlaceId) : Option PlaceId := net.follow net.slots.length id

/-- The handle of the place that a reference stands for. -/
def resolve? (net : Net) : PlaceRef → Option PlaceId
  | .named name => net.find? name
  | .handle id => net.current? id

/-- The place that has ever carried the name. -/
def placeByName? (net : Net) (name : String) : Option Place := (net.find? name).bind net.place?

/-- The current name of a place. -/
def placeName? (net : Net) (id : PlaceId) : Option String := (net.place? id).map Place.name

/-- The name of a node. -/
def nodeName? (net : Net) : Node → Option String
  | .place id => net.placeName? id
  | .transition id => (net.transition? id).map Transition.name

/-! ## Listing nodes -/

/-- The live places among some handles. -/
def livePlaces (net : Net) (ids : OrderedSet PlaceId) : List (PlaceId × Place) :=
  ids.toList.filterMap (fun id => (net.place? id).map (fun p => (id, p)))

/-- All live places: internal, then input, then output. -/
def places (net : Net) : List (PlaceId × Place) :=
  net.livePlaces net.internal ++ net.livePlaces net.input ++ net.livePlaces net.output

/-- The transitions with their handles. -/
def indexedTransitions (net : Net) : List (TransitionId × Transition) :=
  net.transitions.zipIdx.map (fun t => (⟨t.2⟩, t.1))

/-- The places that hold tokens at the start. -/
def marked (net : Net) : List (PlaceId × Place) :=
  net.places.filter (fun p => 0 < p.2.tokens)

/-- The ports with their live places. -/
def portPlaces (net : Net) : List (String × OrderedSet PlaceId) :=
  net.ports.toList.map (fun p => (p.1, OrderedSet.ofList (p.2.toList.filterMap net.find?)))

end Net

end OpenWorkflow
