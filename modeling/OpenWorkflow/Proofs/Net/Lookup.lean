import OpenWorkflow.Net.Build

/-!
# What a change of a net does to its nodes

Every change of a net is read through the same few views: the live place of a
handle (`place?`), the transition of a handle (`transition?`), the indexes of
names (`find?`, `findTransition?`), the lists of places by kind (`listed`) and
membership in the flow relation. For the changes that add to a net this module
says what the views show afterwards:

* `connect` adds one arc to the three copies of the flow relation;
* `addPlace` gives a place the next slot and indexes its names.
-/

namespace OpenWorkflow

namespace OrderedSet

variable {α : Type} [DecidableEq α]

theorem erase_of_not_mem {s : OrderedSet α} {a : α} (h : a ∉ s) : s.erase a = s := by
  apply OrderedSet.ext
  refine List.filter_eq_self.2 fun x hx => ?_
  simpa using fun e : x = a => h (e ▸ hx)

theorem insert_of_mem {s : OrderedSet α} {a : α} (h : a ∈ s) : s.insert a = s := by
  apply OrderedSet.ext
  rw [toList_insert, if_pos (mem_def.1 h)]

@[simp] theorem erase_erase (s : OrderedSet α) (a : α) : (s.erase a).erase a = s.erase a :=
  erase_of_not_mem (by simp)

@[simp] theorem insert_insert (s : OrderedSet α) (a : α) : (s.insert a).insert a = s.insert a :=
  insert_of_mem (by simp)

theorem insertAll_nil (s : OrderedSet α) : s.insertAll [] = s := rfl

theorem insertAll_cons (s : OrderedSet α) (a : α) (as : List α) :
    s.insertAll (a :: as) = (s.insert a).insertAll as := rfl

end OrderedSet

namespace Arc

/-- The arc from a place to a transition. -/
abbrev consumes (p : PlaceId) (t : TransitionId) : Arc := ⟨.place p, .transition t⟩

/-- The arc from a transition to a place. -/
abbrev produces (t : TransitionId) (p : PlaceId) : Arc := ⟨.transition t, .place p⟩

end Arc

/-- Whether a transition consumes from a place or produces to it. -/
inductive ArcKind where
  | consumes
  | produces
  deriving DecidableEq

namespace ArcKind

/-- The arc between a place and a transition. -/
def arc : ArcKind → PlaceId → TransitionId → Arc
  | consumes, p, t => .consumes p t
  | produces, p, t => .produces t p

/-- The step that adds such an arc. -/
def newArc : ArcKind → String → TransitionId → Build Unit
  | consumes, n, t => Net.newArc n t
  | produces, n, t => Net.newArc t n

/-- The transitions that do so to a place. -/
def ofPlace : ArcKind → Place → OrderedSet TransitionId
  | consumes => Place.postset
  | produces => Place.preset

/-- The places to which a transition does so. -/
def ofTransition : ArcKind → Transition → OrderedSet PlaceId
  | consumes => Transition.preset
  | produces => Transition.postset

/-- The place with other transitions that do so to it. -/
def onPlace : ArcKind → (OrderedSet TransitionId → OrderedSet TransitionId) → Place → Place
  | consumes, f, p => { p with postset := f p.postset }
  | produces, f, p => { p with preset := f p.preset }

/-- The transition with other places to which it does so. -/
def onTransition :
    ArcKind → (OrderedSet PlaceId → OrderedSet PlaceId) → Transition → Transition
  | consumes, f, t => { t with preset := f t.preset }
  | produces, f, t => { t with postset := f t.postset }

variable {flow flow' : ArcKind} {p p' : PlaceId} {t t' : TransitionId}

theorem arc_cases (flow : ArcKind) (p : PlaceId) (t : TransitionId) :
    flow.arc p t = .consumes p t ∨ flow.arc p t = .produces t p := by
  cases flow
  · exact .inl rfl
  · exact .inr rfl

/-- Kind and ends can be told from an arc. -/
theorem arc_inj : flow.arc p t = flow'.arc p' t' ↔ flow = flow' ∧ p = p' ∧ t = t' := by
  cases flow <;> cases flow' <;> simp [arc, Arc.consumes, Arc.produces, and_comm]

section onPlace

variable (f g : OrderedSet TransitionId → OrderedSet TransitionId) (q : Place)

theorem onPlace_keeps (flow : ArcKind) :
    (flow.onPlace f q).history = q.history ∧ (flow.onPlace f q).kind = q.kind ∧
      (flow.onPlace f q).tokens = q.tokens ∧ (flow.onPlace f q).isFinal = q.isFinal := by
  cases flow <;> exact ⟨rfl, rfl, rfl, rfl⟩

theorem onPlace_onPlace :
    flow.onPlace f (flow.onPlace g q) = flow.onPlace (fun s => f (g s)) q := by
  cases flow <;> rfl

theorem ofPlace_onPlace : flow'.ofPlace (flow.onPlace f q)
    = if flow' = flow then f (flow'.ofPlace q) else flow'.ofPlace q := by
  cases flow <;> cases flow' <;> rfl

end onPlace

theorem name_onTransition (f : OrderedSet PlaceId → OrderedSet PlaceId) (u : Transition) :
    (flow.onTransition f u).name = u.name ∧ (flow.onTransition f u).kind = u.kind := by
  cases flow <;> exact ⟨rfl, rfl⟩

theorem ofTransition_onTransition (f : OrderedSet PlaceId → OrderedSet PlaceId) (u : Transition) :
    flow'.ofTransition (flow.onTransition f u)
      = if flow' = flow then f (flow'.ofTransition u) else flow'.ofTransition u := by
  cases flow <;> cases flow' <;> rfl

end ArcKind

namespace NodeKind

/-- The kind under which places of a kind are listed. -/
def list : NodeKind → NodeKind
  | inOut => internal
  | kind => kind

end NodeKind

namespace Net

variable (net : Net)

/-- The list in which the places of a kind stand. -/
def listed : NodeKind → OrderedSet PlaceId
  | .internal | .inOut => net.internal
  | .input => net.input
  | .output => net.output

theorem place?_eq_some {id : PlaceId} {p : Place} :
    net.place? id = some p ↔ net.slots[id.index]? = some (.live p) := by
  unfold place?
  split
  · rename_i q h
    simp [h]
  · rename_i h
    simp only [reduceCtorEq, false_iff]
    exact h p

theorem lt_of_place? {id : PlaceId} {p : Place} (h : net.place? id = some p) :
    id.index < net.slots.length := by
  rw [place?_eq_some] at h
  exact (List.getElem?_eq_some_iff.1 h).1

theorem place?_freshPlace : net.place? net.freshPlace = none := by
  cases h : net.place? net.freshPlace with
  | none => rfl
  | some p => exact absurd (net.lt_of_place? h) (Nat.lt_irrefl _)

theorem ne_freshPlace {id : PlaceId} {p : Place} (h : net.place? id = some p) :
    id ≠ net.freshPlace := by
  rintro rfl
  rw [place?_freshPlace] at h
  cases h

/-- Only the slot of a handle decides about its place. -/
theorem place?_congr {net net' : Net} {id : PlaceId}
    (h : net'.slots[id.index]? = net.slots[id.index]?) : net'.place? id = net.place? id := by
  unfold place?
  rw [h]

theorem transition?_congr {net net' : Net} (h : net'.transitions = net.transitions)
    (t : TransitionId) : net'.transition? t = net.transition? t := by
  unfold transition?
  rw [h]

theorem lt_of_transition? {t : TransitionId} {tr : Transition} (h : net.transition? t = some tr) :
    t.index < net.transitions.length := (List.getElem?_eq_some_iff.1 h).1

/-! ## Changing one place or transition -/

section modifyPlace

variable (id : PlaceId) (f : Place → Place)

/-- A modified place is found modified, all others as before. -/
theorem place?_modifyPlace (x : PlaceId) :
    (net.modifyPlace id f).place? x
      = if x = id then (net.place? x).map f else net.place? x := by
  unfold modifyPlace
  split
  · rename_i p hp
    have hlt : id.index < net.slots.length := (List.getElem?_eq_some_iff.1 hp).1
    by_cases hx : x = id
    · subst hx
      rw [if_pos rfl, (net.place?_eq_some).2 hp, Option.map_some, place?_eq_some]
      simp [hlt]
    · rw [if_neg hx]
      refine place?_congr ?_
      have : id.index ≠ x.index := fun e => hx (by cases x; cases id; cases e; rfl)
      simp [this]
  · rename_i h
    have hnone : net.place? id = none := by
      cases hp : net.place? id with
      | none => rfl
      | some p => exact absurd ((net.place?_eq_some).1 hp) (h p)
    by_cases hx : x = id
    · subst hx
      rw [if_pos rfl, hnone]
      rfl
    · rw [if_neg hx]

/-- What the change leaves alone. -/
theorem map_place?_modifyPlace {β : Type} {view : Place → β} (h : ∀ q, view (f q) = view q)
    (x : PlaceId) : ((net.modifyPlace id f).place? x).map view = (net.place? x).map view := by
  rw [place?_modifyPlace]
  split <;> cases net.place? x <;> simp [h]

@[simp] theorem length_slots_modifyPlace :
    (net.modifyPlace id f).slots.length = net.slots.length := by
  unfold modifyPlace
  split <;> simp

/-- Nothing but the slots changes. -/
theorem modifyPlace_eq :
    net.modifyPlace id f = { net with slots := (net.modifyPlace id f).slots } := by
  unfold modifyPlace
  split <;> rfl

@[simp] theorem names_modifyPlace : (net.modifyPlace id f).names = net.names := by
  rw [modifyPlace_eq]

@[simp] theorem listed_modifyPlace (kind : NodeKind) :
    (net.modifyPlace id f).listed kind = net.listed kind := by
  rw [modifyPlace_eq]
  rfl

@[simp] theorem transitions_modifyPlace :
    (net.modifyPlace id f).transitions = net.transitions := by
  rw [modifyPlace_eq]

@[simp] theorem transitionNames_modifyPlace :
    (net.modifyPlace id f).transitionNames = net.transitionNames := by
  rw [modifyPlace_eq]

@[simp] theorem arcs_modifyPlace : (net.modifyPlace id f).arcs = net.arcs := by
  rw [modifyPlace_eq]

@[simp] theorem finalSets_modifyPlace : (net.modifyPlace id f).finalSets = net.finalSets := by
  rw [modifyPlace_eq]

@[simp] theorem ports_modifyPlace : (net.modifyPlace id f).ports = net.ports := by
  rw [modifyPlace_eq]

@[simp] theorem scope_modifyPlace : (net.modifyPlace id f).scope = net.scope := by
  rw [modifyPlace_eq]

end modifyPlace

theorem transition?_modifyTransition (id : TransitionId) (f : Transition → Transition)
    (t : TransitionId) :
    (net.modifyTransition id f).transition? t
      = if t = id then (net.transition? t).map f else net.transition? t := by
  unfold modifyTransition transition?
  simp only [List.getElem?_modify]
  by_cases ht : t = id
  · subst ht
    simp
  · have : id.index ≠ t.index := fun e => ht (by cases t; cases id; cases e; rfl)
    rw [if_neg ht]
    cases net.transitions[t.index]? <;> simp [this]

section modifyPartition

variable (kind : NodeKind) (f : OrderedSet PlaceId → OrderedSet PlaceId)

theorem listed_modifyPartition (k : NodeKind) :
    (net.modifyPartition kind f).listed k
      = if k.list = kind.list then f (net.listed k) else net.listed k := by
  cases kind <;> cases k <;> rfl

@[simp] theorem slots_modifyPartition : (net.modifyPartition kind f).slots = net.slots := by
  cases kind <;> rfl

@[simp] theorem names_modifyPartition : (net.modifyPartition kind f).names = net.names := by
  cases kind <;> rfl

@[simp] theorem transitions_modifyPartition :
    (net.modifyPartition kind f).transitions = net.transitions := by
  cases kind <;> rfl

@[simp] theorem transitionNames_modifyPartition :
    (net.modifyPartition kind f).transitionNames = net.transitionNames := by
  cases kind <;> rfl

@[simp] theorem arcs_modifyPartition : (net.modifyPartition kind f).arcs = net.arcs := by
  cases kind <;> rfl

@[simp] theorem finalSets_modifyPartition :
    (net.modifyPartition kind f).finalSets = net.finalSets := by
  cases kind <;> rfl

@[simp] theorem ports_modifyPartition : (net.modifyPartition kind f).ports = net.ports := by
  cases kind <;> rfl

@[simp] theorem scope_modifyPartition : (net.modifyPartition kind f).scope = net.scope := by
  cases kind <;> rfl

end modifyPartition

/-! ## Adding an arc -/

section connect

variable (flow : ArcKind) (p : PlaceId) (t : TransitionId) (arc : Arc)

theorem place?_connect_eq (x : PlaceId) : (net.connect (flow.arc p t)).place? x
    = (net.modifyPlace p (flow.onPlace (·.insert t))).place? x := by
  cases flow <;> rfl

/-- An arc is noted at its place. -/
theorem place?_connect (x : PlaceId) :
    (net.connect (flow.arc p t)).place? x
      = if x = p then (net.place? x).map (flow.onPlace (·.insert t)) else net.place? x := by
  rw [place?_connect_eq, place?_modifyPlace]

/-- An arc leaves alone what does not depend on the neighbours. -/
theorem map_place?_connect {β : Type} {view : Place → β}
    (h : ∀ f q, view (ArcKind.onPlace flow f q) = view q) (x : PlaceId) :
    ((net.connect (flow.arc p t)).place? x).map view = (net.place? x).map view := by
  rw [place?_connect_eq, map_place?_modifyPlace net p _ (h _)]

/-- An arc is noted at its transition. -/
theorem transition?_connect (x : TransitionId) :
    (net.connect (flow.arc p t)).transition? x
      = if x = t then (net.transition? x).map (flow.onTransition (·.insert p))
        else net.transition? x := by
  have h := transition?_modifyTransition (net.modifyPlace p (flow.onPlace (·.insert t))) t
    (flow.onTransition (·.insert p)) x
  rw [transition?_congr (transitions_modifyPlace net p _) x] at h
  cases flow <;> exact h

@[simp] theorem arcs_connect :
    (net.connect (flow.arc p t)).arcs = net.arcs.insert (flow.arc p t) := by
  cases flow <;> simp [ArcKind.arc, connect, modifyTransition]

@[simp] theorem length_slots_connect : (net.connect arc).slots.length = net.slots.length := by
  unfold connect
  split <;> simp [modifyTransition]

/-- Nothing but the three copies of the flow relation changes. -/
theorem connect_eq :
    net.connect arc =
      { net with
        slots := (net.connect arc).slots
        transitions := (net.connect arc).transitions
        arcs := (net.connect arc).arcs } := by
  unfold connect
  split
  · rw [modifyPlace_eq]
    rfl
  · rw [modifyPlace_eq]
    rfl
  · rfl

@[simp] theorem names_connect : (net.connect arc).names = net.names := by
  rw [connect_eq]

@[simp] theorem listed_connect (kind : NodeKind) :
    (net.connect arc).listed kind = net.listed kind := by
  rw [connect_eq]
  rfl

@[simp] theorem length_transitions_connect :
    (net.connect arc).transitions.length = net.transitions.length := by
  unfold connect
  split <;> simp [modifyTransition]

@[simp] theorem transitionNames_connect :
    (net.connect arc).transitionNames = net.transitionNames := by
  rw [connect_eq]

@[simp] theorem finalSets_connect : (net.connect arc).finalSets = net.finalSets := by
  rw [connect_eq]

@[simp] theorem ports_connect : (net.connect arc).ports = net.ports := by
  rw [connect_eq]

@[simp] theorem scope_connect : (net.connect arc).scope = net.scope := by
  rw [connect_eq]

end connect

/-! ## Adding a place -/

/-- Gives a place the next slot, lists it under its kind and lets all its names
lead to it. -/
def addPlace (place : Place) : Net :=
  { net with
    names := place.history.toList.foldl (fun names name => names.insert name net.freshPlace)
      net.names }.appendPlace place

theorem get?_foldl_insert (id : PlaceId) (xs : List String) (names : OrderedMap String PlaceId)
    (name : String) :
    (xs.foldl (fun names x => names.insert x id) names).get? name
      = if name ∈ xs then some id else names.get? name := by
  induction xs generalizing names with
  | nil => simp
  | cons x xs ih =>
    rw [List.foldl_cons, ih, OrderedMap.get?_insert]
    by_cases hx : name = x
    · simp [hx]
    · simp [hx]

section addPlace

variable (place : Place)

/-- The new place is found under its handle, all others as before. -/
theorem place?_addPlace (x : PlaceId) :
    (net.addPlace place).place? x = if x = net.freshPlace then some place else net.place? x := by
  unfold addPlace appendPlace
  by_cases hx : x = net.freshPlace
  · subst hx
    rw [if_pos rfl, place?_eq_some]
    simp [freshPlace]
  · rw [if_neg hx]
    unfold place?
    have hne : x.index ≠ net.slots.length := fun e => hx (by cases x; cases e; rfl)
    simp only [slots_modifyPartition]
    rcases Nat.lt_or_ge x.index net.slots.length with hlt | hge
    · rw [List.getElem?_append_left hlt]
    · rw [List.getElem?_eq_none (by simp; omega), List.getElem?_eq_none hge]

/-- The new place is found under its names, all others as before. -/
theorem find?_addPlace (name : String) :
    (net.addPlace place).find? name
      = if name ∈ place.history then some net.freshPlace else net.find? name := by
  unfold addPlace appendPlace find?
  rw [names_modifyPartition]
  exact get?_foldl_insert net.freshPlace place.history.toList net.names name

theorem listed_addPlace (kind : NodeKind) :
    (net.addPlace place).listed kind
      = if kind.list = place.kind.list then (net.listed kind).insert net.freshPlace
        else net.listed kind := by
  unfold addPlace appendPlace
  rw [listed_modifyPartition]
  rfl

@[simp] theorem length_slots_addPlace :
    (net.addPlace place).slots.length = net.slots.length + 1 := by
  simp [addPlace, appendPlace]

@[simp] theorem transitions_addPlace : (net.addPlace place).transitions = net.transitions := by
  simp [addPlace, appendPlace]

@[simp] theorem transitionNames_addPlace :
    (net.addPlace place).transitionNames = net.transitionNames := by
  simp [addPlace, appendPlace]

@[simp] theorem arcs_addPlace : (net.addPlace place).arcs = net.arcs := by
  simp [addPlace, appendPlace]

@[simp] theorem finalSets_addPlace : (net.addPlace place).finalSets = net.finalSets := by
  simp [addPlace, appendPlace]

@[simp] theorem ports_addPlace : (net.addPlace place).ports = net.ports := by
  simp [addPlace, appendPlace]

@[simp] theorem scope_addPlace : (net.addPlace place).scope = net.scope := by
  simp [addPlace, appendPlace]

end addPlace

end Net

end OpenWorkflow
