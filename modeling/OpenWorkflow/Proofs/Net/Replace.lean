import OpenWorkflow.Proofs.Net.Lookup

/-!
# Taking places out of a net and putting one in their stead

What the views of a net show when a place leaves it (`without`, the net that
`detach` returns) and when one place with the arcs of two others enters it
(`absorb`). A transition that is no neighbour of the place is left as it is,
down to the order in its sets.
-/

namespace OpenWorkflow

namespace Net

variable (net : Net)

/-! ## Taking a place out -/

/-- What every step keeps, a run of steps keeps. -/
theorem foldl_keeps {α β : Type} (view : Net → β) {step : Net → α → Net}
    (hstep : ∀ net a, view (step net a) = view net) (xs : List α) (net : Net) :
    view (xs.foldl step net) = view net := by
  induction xs generalizing net with
  | nil => rfl
  | cons x xs ih => rw [List.foldl_cons, ih, hstep]

/-- Steps that change one transition each, all in the same way: a change that does
nothing the second time is made at the transitions of the list. -/
theorem transition?_foldl {step : Net → TransitionId → Net} {f : Transition → Transition}
    (hstep : ∀ net a t, (step net a).transition? t
      = if t = a then (net.transition? t).map f else net.transition? t)
    (htwice : ∀ u, f (f u) = f u) (ts : List TransitionId) (net : Net) (t : TransitionId) :
    (ts.foldl step net).transition? t
      = if t ∈ ts then (net.transition? t).map f else net.transition? t := by
  induction ts generalizing net with
  | nil => simp
  | cons a ts ih =>
    rw [List.foldl_cons, ih, hstep]
    by_cases hta : t = a
    · cases net.transition? t <;> simp [hta, htwice]
    · simp [hta]

/-- Steps that drop one arc each, from a transition and from the flow relation. -/
structure Drops (step : Net → TransitionId → Net) (arcOf : TransitionId → Arc)
    (f : Transition → Transition) : Prop where
  transition? : ∀ net a t, (step net a).transition? t
    = if t = a then (net.transition? t).map f else net.transition? t
  twice : ∀ u, f (f u) = f u
  mem_arcs : ∀ net a arc, arc ∈ (step net a).arcs ↔ arc ∈ net.arcs ∧ arc ≠ arcOf a
  rest : ∀ net a, step net a
    = { net with transitions := (step net a).transitions, arcs := (step net a).arcs }

theorem drops_produced (id : PlaceId) : Drops (dropProduced id) (Arc.produces · id)
    fun u => { u with postset := u.postset.erase id } where
  transition? net a := transition?_modifyTransition net a _
  twice u := by rw [OrderedSet.erase_erase]
  mem_arcs _ _ _ := OrderedSet.mem_erase
  rest _ _ := rfl

theorem drops_consumed (id : PlaceId) : Drops (dropConsumed id) (Arc.consumes id)
    fun u => { u with preset := u.preset.erase id } where
  transition? net a := transition?_modifyTransition net a _
  twice u := by rw [OrderedSet.erase_erase]
  mem_arcs _ _ _ := OrderedSet.mem_erase
  rest _ _ := rfl

namespace Drops

variable {net} {ts : List TransitionId} {step : Net → TransitionId → Net}
  {arcOf : TransitionId → Arc} {f : Transition → Transition} (h : Drops step arcOf f)
include h

theorem mem_arcs_foldl (arc : Arc) :
    arc ∈ (ts.foldl step net).arcs ↔ arc ∈ net.arcs ∧ ∀ t ∈ ts, arc ≠ arcOf t := by
  induction ts generalizing net with
  | nil => simp
  | cons a ts ih => rw [List.foldl_cons, ih, h.mem_arcs, List.forall_mem_cons, and_assoc]

theorem foldl_eq :
    ts.foldl step net
      = { net with
          transitions := (ts.foldl step net).transitions
          arcs := (ts.foldl step net).arcs } := by
  induction ts generalizing net with
  | nil => rfl
  | cons a ts ih => rw [List.foldl_cons, ih, h.rest]

end Drops

theorem get?_foldl_forgetName (id : PlaceId) (xs : List String)
    (names : OrderedMap String PlaceId) (name : String) :
    (xs.foldl (forgetName id) names).get? name
      = if name ∈ xs ∧ names.get? name = some id then none else names.get? name := by
  induction xs generalizing names with
  | nil => simp
  | cons x xs ih =>
    have hstep : (forgetName id names x).get? name
        = if name = x ∧ names.get? name = some id then none else names.get? name := by
      unfold forgetName
      by_cases hx : name = x
      · subst hx
        by_cases hid : names.get? name = some id
        · simp [hid, OrderedMap.get?_erase]
        · simp [hid]
      · by_cases hid : names.get? x = some id
        · simp [hid, hx, OrderedMap.get?_erase]
        · simp [hid, hx]
    rw [List.foldl_cons, ih, hstep]
    by_cases hx : name = x <;> by_cases hid : names.get? name = some id <;> simp [hx, hid]

/-- The net without a live place; `mark` stands in the slot. -/
def without (id : PlaceId) (mark : Slot) : Net := (net.detach id mark).2

theorem detach_eq {id : PlaceId} {mark : Slot} {place : Place} (h : net.place? id = some place) :
    net.detach id mark = (some place, net.without id mark) := by
  simp only [without, detach, h]

section without

variable {net} {id : PlaceId} {mark : Slot} {place : Place} (h : net.place? id = some place)
include h

/-- The net after a place has been taken out, change by change. -/
theorem without_eq :
    net.without id mark =
      let marked := { net with slots := net.slots.set id.index mark }
      let dropped := place.postset.toList.foldl (dropConsumed id)
        (place.preset.toList.foldl (dropProduced id) marked)
      { dropped.modifyPartition place.kind (fun s => s.erase id) with
        names := place.history.toList.foldl (forgetName id) net.names } := by
  simp only [without, detach, h, names_modifyPartition]
  rw [(drops_consumed id).foldl_eq, (drops_produced id).foldl_eq]

theorem slots_without : (net.without id mark).slots = net.slots.set id.index mark := by
  rw [without_eq h]
  simp only [slots_modifyPartition]
  rw [(drops_consumed id).foldl_eq, (drops_produced id).foldl_eq]

/-- The detached place is gone, all others are as before. -/
theorem place?_without (hmark : ∀ p, mark ≠ .live p) (x : PlaceId) :
    (net.without id mark).place? x = if x = id then none else net.place? x := by
  have hslots : (net.without id mark).slots = net.slots.set id.index mark := slots_without h
  by_cases hx : x = id
  · subst hx
    rw [if_pos rfl]
    cases hp : (net.without x mark).place? x with
    | none => rfl
    | some p =>
      rw [place?_eq_some, hslots, List.getElem?_set_self (net.lt_of_place? h)] at hp
      exact absurd (Option.some.inj hp) (hmark p)
  · rw [if_neg hx]
    refine place?_congr ?_
    have : id.index ≠ x.index := fun e => hx (by cases x; cases id; cases e; rfl)
    rw [hslots, List.getElem?_set_ne this]

theorem transition?_without (t : TransitionId) :
    (net.without id mark).transition? t
      = (net.transition? t).map (fun u =>
          { u with
            postset := if t ∈ place.preset then u.postset.erase id else u.postset
            preset := if t ∈ place.postset then u.preset.erase id else u.preset }) := by
  rw [without_eq h]
  simp only [transition?, transitions_modifyPartition]
  change (List.foldl _ _ _ : Net).transition? t = _
  rw [transition?_foldl (drops_consumed id).transition? (drops_consumed id).twice,
    transition?_foldl (drops_produced id).transition? (drops_produced id).twice]
  simp only [OrderedSet.mem_def]
  change _ = (net.transition? t).map _
  have : ({ net with slots := net.slots.set id.index mark } : Net).transition? t
      = net.transition? t := rfl
  rw [this]
  by_cases hpre : t ∈ place.preset.toList <;> by_cases hpost : t ∈ place.postset.toList <;>
    cases net.transition? t <;> simp [hpre, hpost]

/-- The arcs that the detached place lists are gone. -/
theorem mem_arcs_without (arc : Arc) :
    arc ∈ (net.without id mark).arcs
      ↔ arc ∈ net.arcs ∧ ∀ flow : ArcKind, ∀ t ∈ flow.ofPlace place, arc ≠ flow.arc id t := by
  rw [without_eq h]
  simp only [arcs_modifyPartition]
  rw [(drops_consumed id).mem_arcs_foldl, (drops_produced id).mem_arcs_foldl, and_assoc]
  refine and_congr_right fun _ => ⟨?_, fun hall => ⟨hall .produces, hall .consumes⟩⟩
  rintro ⟨hproduces, hconsumes⟩ (_ | _)
  · exact hconsumes
  · exact hproduces

/-- The names of the detached place are forgotten. -/
theorem find?_without (name : String) :
    (net.without id mark).find? name
      = if name ∈ place.history ∧ net.find? name = some id then none else net.find? name := by
  rw [without_eq h]
  exact get?_foldl_forgetName id place.history.toList net.names name

theorem listed_without (kind : NodeKind) :
    (net.without id mark).listed kind
      = if kind.list = place.kind.list then (net.listed kind).erase id else net.listed kind := by
  have hlisted : (net.without id mark).listed kind
      = ((place.postset.toList.foldl (dropConsumed id)
          (place.preset.toList.foldl (dropProduced id)
            { net with slots := net.slots.set id.index mark })).modifyPartition place.kind
              (fun s => s.erase id)).listed kind := by
    rw [without_eq h]
    cases kind <;> rfl
  rw [hlisted, listed_modifyPartition, (drops_consumed id).foldl_eq,
    (drops_produced id).foldl_eq]
  cases kind <;> rfl

theorem length_slots_without : (net.without id mark).slots.length = net.slots.length := by
  rw [slots_without h, List.length_set]

theorem transitionNames_without :
    (net.without id mark).transitionNames = net.transitionNames := by
  rw [without_eq h]
  simp only [transitionNames_modifyPartition]
  rw [(drops_consumed id).foldl_eq, (drops_produced id).foldl_eq]

theorem finalSets_without : (net.without id mark).finalSets = net.finalSets := by
  rw [without_eq h]
  simp only [finalSets_modifyPartition]
  rw [(drops_consumed id).foldl_eq, (drops_produced id).foldl_eq]

theorem ports_without : (net.without id mark).ports = net.ports := by
  rw [without_eq h]
  simp only [ports_modifyPartition]
  rw [(drops_consumed id).foldl_eq, (drops_produced id).foldl_eq]

theorem scope_without : (net.without id mark).scope = net.scope := by
  rw [without_eq h]
  simp only [scope_modifyPartition]
  rw [(drops_consumed id).foldl_eq, (drops_produced id).foldl_eq]

end without

/-! ## Adding the arcs of a place -/

/-- Adds arcs one after another. -/
def connectAll (arcs : List Arc) : Net := arcs.foldl connect net

section connectAll

variable (arcs : List Arc)

theorem connectAll_cons (arc : Arc) :
    net.connectAll (arc :: arcs) = (net.connect arc).connectAll arcs := rfl

@[simp] theorem length_slots_connectAll : (net.connectAll arcs).slots.length = net.slots.length :=
  foldl_keeps (·.slots.length) length_slots_connect arcs net

@[simp] theorem names_connectAll : (net.connectAll arcs).names = net.names :=
  foldl_keeps (·.names) names_connect arcs net

@[simp] theorem transitionNames_connectAll :
    (net.connectAll arcs).transitionNames = net.transitionNames :=
  foldl_keeps (·.transitionNames) transitionNames_connect arcs net

@[simp] theorem finalSets_connectAll : (net.connectAll arcs).finalSets = net.finalSets :=
  foldl_keeps (·.finalSets) finalSets_connect arcs net

@[simp] theorem ports_connectAll : (net.connectAll arcs).ports = net.ports :=
  foldl_keeps (·.ports) ports_connect arcs net

@[simp] theorem scope_connectAll : (net.connectAll arcs).scope = net.scope :=
  foldl_keeps (·.scope) scope_connect arcs net

end connectAll

section neighbours

variable (flow : ArcKind) (id : PlaceId) (ts : List TransitionId)

theorem place?_connectAll (x : PlaceId) :
    (net.connectAll (ts.map (flow.arc id))).place? x
      = if x = id then (net.place? x).map (flow.onPlace (·.insertAll ts)) else net.place? x := by
  induction ts generalizing net with
  | nil =>
    cases flow <;> cases h : net.place? x <;>
      simp [connectAll, h, ArcKind.onPlace, OrderedSet.insertAll_nil]
  | cons t ts ih =>
    rw [List.map_cons, connectAll_cons, ih, place?_connect]
    by_cases hx : x = id
    · cases net.place? x <;> simp [hx, ArcKind.onPlace_onPlace, OrderedSet.insertAll_cons]
    · simp [hx]

theorem transition?_connectAll (t : TransitionId) :
    (net.connectAll (ts.map (flow.arc id))).transition? t
      = if t ∈ ts then (net.transition? t).map (flow.onTransition (·.insert id))
        else net.transition? t := by
  rw [connectAll, List.foldl_map]
  refine transition?_foldl (fun net a => transition?_connect net flow id a) (fun u => ?_) ts net t
  cases flow <;> simp only [ArcKind.onTransition, OrderedSet.insert_insert]

end neighbours

/-- Two places become one: the new place is added, then its arcs. -/
theorem absorb_eq (kind : NodeKind) (first second : Place) :
    net.absorb kind first second
      = ((net.addPlace (mergedPlace kind first second)).connectAll
          ((first.preset.union second.preset).toList.map
            (ArcKind.produces.arc net.freshPlace))).connectAll
          ((first.postset.union second.postset).toList.map
            (ArcKind.consumes.arc net.freshPlace)) := by
  unfold connectAll absorb addPlace
  rw [List.foldl_map, List.foldl_map]
  rfl

section absorb

variable (kind : NodeKind) (first second : Place)

/-- The place that two places become, with its arcs. -/
def united (kind : NodeKind) (first second : Place) : Place :=
  { mergedPlace kind first second with
    preset := OrderedSet.insertAll ∅ (first.preset.union second.preset).toList
    postset := OrderedSet.insertAll ∅ (first.postset.union second.postset).toList }

/-- The new place has what the two others had. -/
theorem place?_absorb (x : PlaceId) :
    (net.absorb kind first second).place? x
      = if x = net.freshPlace then some (united kind first second) else net.place? x := by
  rw [absorb_eq, place?_connectAll, place?_connectAll, place?_addPlace]
  by_cases hx : x = net.freshPlace
  · simp only [hx, if_true, Option.map_some]
    rfl
  · simp only [hx, if_false]

theorem transition?_absorb (t : TransitionId) :
    (net.absorb kind first second).transition? t
      = (net.transition? t).map (fun u =>
          { u with
            postset := if t ∈ first.preset ∨ t ∈ second.preset then u.postset.insert net.freshPlace
              else u.postset
            preset := if t ∈ first.postset ∨ t ∈ second.postset then u.preset.insert net.freshPlace
              else u.preset }) := by
  rw [absorb_eq, transition?_connectAll, transition?_connectAll,
    transition?_congr (transitions_addPlace net _)]
  simp only [← OrderedSet.mem_def, OrderedSet.mem_union]
  by_cases hpre : t ∈ first.preset ∨ t ∈ second.preset <;>
    by_cases hpost : t ∈ first.postset ∨ t ∈ second.postset <;>
    cases net.transition? t <;> simp [hpre, hpost, ArcKind.onTransition]

theorem find?_absorb (name : String) :
    (net.absorb kind first second).find? name
      = if name ∈ mergedHistory first second then some net.freshPlace else net.find? name := by
  have hnames : (net.absorb kind first second).names
      = (net.addPlace (mergedPlace kind first second)).names := by
    rw [absorb_eq, names_connectAll, names_connectAll]
  unfold find?
  rw [hnames]
  exact find?_addPlace net (mergedPlace kind first second) name

@[simp] theorem length_slots_absorb :
    (net.absorb kind first second).slots.length = net.slots.length + 1 := by
  rw [absorb_eq, length_slots_connectAll, length_slots_connectAll, length_slots_addPlace]

@[simp] theorem transitionNames_absorb :
    (net.absorb kind first second).transitionNames = net.transitionNames := by
  rw [absorb_eq, transitionNames_connectAll, transitionNames_connectAll,
    transitionNames_addPlace]

@[simp] theorem finalSets_absorb :
    (net.absorb kind first second).finalSets = net.finalSets := by
  rw [absorb_eq, finalSets_connectAll, finalSets_connectAll, finalSets_addPlace]

@[simp] theorem ports_absorb : (net.absorb kind first second).ports = net.ports := by
  rw [absorb_eq, ports_connectAll, ports_connectAll, ports_addPlace]

@[simp] theorem scope_absorb : (net.absorb kind first second).scope = net.scope := by
  rw [absorb_eq, scope_connectAll, scope_connectAll, scope_addPlace]

end absorb

theorem mem_mergedHistory {first second : Place} {name : String} :
    name ∈ mergedHistory first second ↔ name ∈ first.history ∨ name ∈ second.history
      ∨ name = first.name := by
  simp only [mergedHistory, OrderedSet.mem_insert, OrderedSet.mem_erase, OrderedSet.mem_union]
  by_cases h : name = first.name <;> simp [h, or_comm]

end Net

end OpenWorkflow
