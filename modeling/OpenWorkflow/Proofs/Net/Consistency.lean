import Mathlib.Data.List.Nodup
import OpenWorkflow.Net.Consistency
import OpenWorkflow.Net.Statistics
import OpenWorkflow.Proofs.Net.Calls

/-!
# Well-formed nets are consistent

The list of live places and the three copies of the flow relation, read as
lists. In a well-formed net the flow relation is a permutation of the arcs that
the places list and of those that the transitions list, so all three have the
same length. This is what `flaws` tests, one condition for each test
(`Checked`, `isConsistent_iff`), so it finds nothing to report.

The main result, `run_agrees`, collects what holds of a net after any run of
construction steps.
-/

namespace OpenWorkflow

variable {α β : Type} {arc : Arc}

namespace Net

variable {net : Net}

/-! ## The list of live places -/

theorem mem_livePlaces {ids : OrderedSet PlaceId} {x : PlaceId × Place} :
    x ∈ net.livePlaces ids ↔ x.1 ∈ ids ∧ net.place? x.1 = some x.2 := by
  obtain ⟨id, p⟩ := x
  unfold livePlaces
  rw [List.mem_filterMap]
  constructor
  · rintro ⟨y, hy, he⟩
    obtain ⟨q, hq, he⟩ := Option.map_eq_some_iff.1 he
    obtain ⟨rfl, rfl⟩ := Prod.mk.inj he
    exact ⟨hy, hq⟩
  · rintro ⟨hid, hp⟩
    exact ⟨id, hid, by rw [hp, Option.map_some]⟩

/-- The places on a list of a well-formed net are exactly the handles there. -/
theorem map_fst_livePlaces {ids : OrderedSet PlaceId}
    (h : ∀ id ∈ ids, ∃ p, net.place? id = some p) :
    (net.livePlaces ids).map Prod.fst = ids.toList := by
  have key : ∀ xs : List PlaceId, (∀ id ∈ xs, ∃ p, net.place? id = some p) →
      (xs.filterMap (fun id => (net.place? id).map (fun p => (id, p)))).map Prod.fst = xs := by
    intro xs hxs
    induction xs with
    | nil => rfl
    | cons x xs ih =>
      obtain ⟨p, hp⟩ := hxs x (List.mem_cons_self ..)
      rw [List.filterMap_cons, hp, Option.map_some, List.map_cons,
        ih fun id hid => hxs id (List.mem_cons_of_mem _ hid)]
  exact key ids.toList h

theorem ListsAgree.live_of_listed (h : net.ListsAgree) {kind : NodeKind} {id : PlaceId}
    (hid : id ∈ net.listed kind) : ∃ p, net.place? id = some p :=
  let ⟨p, hp, _⟩ := h.listed.1 hid
  ⟨p, hp⟩

/-- `places` lists the live places and nothing else. -/
theorem ListsAgree.mem_places (h : net.ListsAgree) {x : PlaceId × Place} :
    x ∈ net.places ↔ net.place? x.1 = some x.2 := by
  unfold places
  rw [List.mem_append, List.mem_append, mem_livePlaces, mem_livePlaces, mem_livePlaces]
  constructor
  · rintro ((⟨-, hp⟩ | ⟨-, hp⟩) | ⟨-, hp⟩) <;> exact hp
  · intro hp
    have hmem : x.1 ∈ net.listed x.2.kind := h.listed.2 ⟨x.2, hp, rfl⟩
    cases hk : x.2.kind <;> rw [hk] at hmem
    · exact .inl (.inl ⟨hmem, hp⟩)
    · exact .inl (.inr ⟨hmem, hp⟩)
    · exact .inr ⟨hmem, hp⟩
    · exact .inl (.inl ⟨hmem, hp⟩)

/-- No place is listed twice, since its kind says where it stands. -/
theorem ListsAgree.nodup_places (h : net.ListsAgree) : (net.places.map Prod.fst).Nodup := by
  have hlist (kind : NodeKind) :
      (net.livePlaces (net.listed kind)).map Prod.fst = (net.listed kind).toList :=
    map_fst_livePlaces fun id hid => h.live_of_listed hid
  have hkind (k k' : NodeKind) (id : PlaceId) (hid : id ∈ net.listed k)
      (hid' : id ∈ net.listed k') : k.list = k'.list := by
    obtain ⟨p, hp, hk⟩ := h.listed.1 hid
    obtain ⟨q, hq, hk'⟩ := h.listed.1 hid'
    rw [hp] at hq
    rw [← hk, ← hk', Option.some.inj hq]
  have hplaces : net.places.map Prod.fst = (net.listed .internal).toList
      ++ (net.listed .input).toList ++ (net.listed .output).toList := by
    rw [← hlist, ← hlist, ← hlist, ← List.map_append, ← List.map_append]
    rfl
  rw [hplaces]
  refine List.Nodup.append (List.Nodup.append (OrderedSet.nodup _) (OrderedSet.nodup _) ?_)
    (OrderedSet.nodup _) ?_
  · intro id h1 h2
    exact absurd (hkind .internal .input id h1 h2) (by decide)
  · intro id h1 h2
    rcases List.mem_append.1 h1 with h1 | h1
    · exact absurd (hkind .internal .output id h1 h2) (by decide)
    · exact absurd (hkind .input .output id h1 h2) (by decide)

/-- Looking a name up in the index is the same as looking through all places. -/
theorem Coherent.find?_eq_scan (h : net.Coherent) (name : String) :
    net.find? name = (net.places.find? (fun p => p.2.knows name)).map Prod.fst := by
  cases hs : net.places.find? (fun p => p.2.knows name) with
  | some x =>
    have hx : net.place? x.1 = some x.2 := h.mem_places.1 (List.mem_of_find?_eq_some hs)
    have hknows : x.2.knows name = true := by
      have := List.find?_some hs
      simpa using this
    rw [Option.map_some]
    exact h.find_of_mem hx (by simpa [Place.knows] using hknows)
  | none =>
    rw [Option.map_none]
    cases hf : net.find? name with
    | none => rfl
    | some id =>
      obtain ⟨p, hp, hn⟩ := h.find.1 hf
      have hmem : (id, p) ∈ net.places := h.mem_places.2 hp
      exact absurd hn (by simpa [Place.knows] using List.find?_eq_none.1 hs (id, p) hmem)

/-- No two transitions share a name. -/
theorem TransitionsAgree.nodup_names (h : net.TransitionsAgree) :
    (net.transitions.map Transition.name).Nodup := by
  rw [List.nodup_iff_getElem?_ne_getElem?]
  intro i j hij hj heq
  rw [List.length_map] at hj
  have hi : i < net.transitions.length := Nat.lt_trans hij hj
  have hname (k : Nat) (hk : k < net.transitions.length) :
      net.findTransition? net.transitions[k].name = some ⟨k⟩ :=
    h.indexed.2 ⟨_, List.getElem?_eq_getElem hk, rfl⟩
  have hsame : net.transitions[i].name = net.transitions[j].name := by
    simpa [List.getElem?_map, List.getElem?_eq_getElem hi, List.getElem?_eq_getElem hj] using heq
  have := hname i hi
  rw [hsame, hname j hj] at this
  have := TransitionId.mk.inj (Option.some.inj this)
  omega

/-! ## The flow relation as a list -/

/-- The transitions are listed with their handles. -/
theorem mem_indexedTransitions {x : TransitionId × Transition} :
    x ∈ net.indexedTransitions ↔ net.transition? x.1 = some x.2 := by
  obtain ⟨t, tr⟩ := x
  unfold indexedTransitions transition?
  rw [List.mem_map]
  constructor
  · rintro ⟨y, hy, he⟩
    obtain ⟨rfl, rfl⟩ := Prod.mk.inj he
    exact List.mk_mem_zipIdx_iff_getElem?.1 hy
  · intro ht
    exact ⟨(tr, t.index), List.mk_mem_zipIdx_iff_getElem?.2 ht, rfl⟩

theorem nodup_indexedTransitions : (net.indexedTransitions.map Prod.fst).Nodup := by
  have hmap : net.indexedTransitions.map Prod.fst
      = (net.transitions.zipIdx.map Prod.snd).map TransitionId.mk := by
    rw [indexedTransitions, List.map_map, List.map_map]
    rfl
  rw [hmap, List.zipIdx_map_snd]
  exact (List.nodup_range').map fun a b e => TransitionId.mk.inj e

/-- The arcs that a place lists. -/
theorem mem_placeArcs {id : PlaceId} {p : Place} :
    arc ∈ placeArcs id p ↔ (∃ t ∈ p.preset, arc = .produces t id)
      ∨ ∃ t ∈ p.postset, arc = .consumes id t := by
  simp [placeArcs, OrderedSet.mem_def, eq_comm]

/-- The arcs that a transition lists. -/
theorem mem_transitionArcs {t : TransitionId} {tr : Transition} :
    arc ∈ transitionArcs t tr ↔ (∃ p ∈ tr.preset, arc = .consumes p t)
      ∨ ∃ p ∈ tr.postset, arc = .produces t p := by
  simp [transitionArcs, OrderedSet.mem_def, eq_comm]

theorem nodup_placeArcs (id : PlaceId) (p : Place) : (placeArcs id p).Nodup := by
  refine List.Nodup.append ?_ ?_ ?_
  · exact p.preset.nodup.map fun a b e => by simpa using e
  · exact p.postset.nodup.map fun a b e => by simpa using e
  · intro arc h1 h2
    obtain ⟨t, -, rfl⟩ := List.mem_map.1 h1
    simp at h2

theorem nodup_transitionArcs (t : TransitionId) (tr : Transition) :
    (transitionArcs t tr).Nodup := by
  refine List.Nodup.append ?_ ?_ ?_
  · exact tr.preset.nodup.map fun a b e => by simpa using e
  · exact tr.postset.nodup.map fun a b e => by simpa using e
  · intro arc h1 h2
    obtain ⟨p, -, rfl⟩ := List.mem_map.1 h1
    simp at h2

/-- Lists of arcs put together without repetition, when each arc tells which
owner it comes from. -/
theorem nodup_flatMap_arcs {xs : List (α × β)} {f : α × β → List Arc} (owner : Arc → Option α)
    (hxs : (xs.map Prod.fst).Nodup) (hf : ∀ x, (f x).Nodup)
    (howner : ∀ x, ∀ arc ∈ f x, owner arc = some x.1) : (xs.flatMap f).Nodup := by
  rw [List.nodup_flatMap]
  refine ⟨fun x _ => hf x, ?_⟩
  refine List.Pairwise.imp ?_ (List.pairwise_map.1 hxs)
  intro x y hxy arc hx hy
  exact hxy (Option.some.inj ((howner x arc hx).symm.trans (howner y arc hy)))

/-- The place at one end of an arc. -/
def placeEnd : Arc → Option PlaceId
  | ⟨.place p, .transition _⟩ => some p
  | ⟨.transition _, .place p⟩ => some p
  | _ => none

/-- The transition at one end of an arc. -/
def transitionEnd : Arc → Option TransitionId
  | ⟨.place _, .transition t⟩ => some t
  | ⟨.transition t, .place _⟩ => some t
  | _ => none

theorem placeEnd_of_mem (x : PlaceId × Place) (arc : Arc) (harc : arc ∈ placeArcs x.1 x.2) :
    placeEnd arc = some x.1 := by
  rcases mem_placeArcs.1 harc with ⟨t, -, rfl⟩ | ⟨t, -, rfl⟩ <;> rfl

theorem transitionEnd_of_mem (x : TransitionId × Transition) (arc : Arc)
    (harc : arc ∈ transitionArcs x.1 x.2) : transitionEnd arc = some x.1 := by
  rcases mem_transitionArcs.1 harc with ⟨p, -, rfl⟩ | ⟨p, -, rfl⟩ <;> rfl

theorem nodup_listed_transitions :
    (net.indexedTransitions.flatMap (fun x => transitionArcs x.1 x.2)).Nodup :=
  nodup_flatMap_arcs transitionEnd nodup_indexedTransitions (fun x => nodup_transitionArcs x.1 x.2)
    transitionEnd_of_mem

theorem length_placeArcs (id : PlaceId) (p : Place) :
    (placeArcs id p).length = p.preset.size + p.postset.size := by
  simp [placeArcs, OrderedSet.size]

theorem length_flatMap_eq_total (f : α → List β) (xs : List α) :
    (xs.flatMap f).length = total (fun x => (f x).length) xs := by
  induction xs with
  | nil => rfl
  | cons x xs ih => rw [List.flatMap_cons, List.length_append, ih]; rfl

theorem total_map (count : β → Nat) (f : α → β) (xs : List α) :
    total count (xs.map f) = total (fun x => count (f x)) xs :=
  List.foldr_map ..

/-- The arcs that the transitions list, as many as they count. -/
theorem length_listed_transitions :
    (net.indexedTransitions.flatMap (fun x => transitionArcs x.1 x.2)).length
      = total (fun tr => tr.preset.size + tr.postset.size) net.transitions := by
  have hmap : net.indexedTransitions.map Prod.snd = net.transitions := by
    simp [indexedTransitions, Function.comp_def]
  rw [length_flatMap_eq_total, ← hmap, total_map]
  simp [transitionArcs, OrderedSet.size]

/-- The flow relation is what the places list. -/
theorem Coherent.perm_placeArcs (h : net.Coherent) :
    net.arcs.toList.Perm (net.places.flatMap (fun p => placeArcs p.1 p.2)) := by
  have hnodup : (net.places.flatMap (fun p => placeArcs p.1 p.2)).Nodup :=
    nodup_flatMap_arcs placeEnd h.nodup_places (fun x => nodup_placeArcs x.1 x.2) placeEnd_of_mem
  refine (List.perm_ext_iff_of_nodup net.arcs.nodup hnodup).2 fun arc => ?_
  rw [List.mem_flatMap]
  constructor
  · intro harc
    rcases h.bipartite harc with ⟨p, t, rfl⟩ | ⟨t, p, rfl⟩
    · obtain ⟨place, hp, ht⟩ := h.consumes_place.1 harc
      exact ⟨(p, place), h.mem_places.2 hp, mem_placeArcs.2 (.inr ⟨t, ht, rfl⟩)⟩
    · obtain ⟨place, hp, ht⟩ := h.produces_place.1 harc
      exact ⟨(p, place), h.mem_places.2 hp, mem_placeArcs.2 (.inl ⟨t, ht, rfl⟩)⟩
  · rintro ⟨x, hx, harc⟩
    have hp := h.mem_places.1 hx
    rcases mem_placeArcs.1 harc with ⟨t, ht, rfl⟩ | ⟨t, ht, rfl⟩
    · exact h.produces_place.2 ⟨x.2, hp, ht⟩
    · exact h.consumes_place.2 ⟨x.2, hp, ht⟩

/-- The flow relation is what the transitions list. -/
theorem Coherent.perm_transitionArcs (h : net.Coherent) :
    net.arcs.toList.Perm (net.indexedTransitions.flatMap (fun t => transitionArcs t.1 t.2)) := by
  refine (List.perm_ext_iff_of_nodup net.arcs.nodup nodup_listed_transitions).2 fun arc => ?_
  rw [List.mem_flatMap]
  constructor
  · intro harc
    rcases h.bipartite harc with ⟨p, t, rfl⟩ | ⟨t, p, rfl⟩
    · obtain ⟨tr, ht, hp⟩ := h.consumes_transition.1 harc
      exact ⟨(t, tr), mem_indexedTransitions.2 ht, mem_transitionArcs.2 (.inl ⟨p, hp, rfl⟩)⟩
    · obtain ⟨tr, ht, hp⟩ := h.produces_transition.1 harc
      exact ⟨(t, tr), mem_indexedTransitions.2 ht, mem_transitionArcs.2 (.inr ⟨p, hp, rfl⟩)⟩
  · rintro ⟨x, hx, harc⟩
    have ht := mem_indexedTransitions.1 hx
    rcases mem_transitionArcs.1 harc with ⟨p, hp, rfl⟩ | ⟨p, hp, rfl⟩
    · exact h.consumes_transition.2 ⟨x.2, ht, hp⟩
    · exact h.produces_transition.2 ⟨x.2, ht, hp⟩

/-- The places account for every arc once. -/
theorem Coherent.countedArcs_eq (h : net.Coherent) : net.countedArcs = net.arcs.size := by
  have hlen := h.perm_placeArcs.length_eq
  rw [length_flatMap_eq_total] at hlen
  unfold countedArcs OrderedSet.size
  rw [hlen]
  simp [placeArcs]

/-- The transitions account for every arc once. -/
theorem Coherent.size_arcs (h : net.Coherent) :
    net.arcs.size = total (fun t => t.preset.size + t.postset.size) net.transitions :=
  h.perm_transitionArcs.length_eq.trans length_listed_transitions

/-! ## The check -/

/-- The arc has a live place at one end and a transition of the net at the other. -/
def Joins (net : Net) (arc : Arc) : Prop :=
  (∃ p place t tr, arc = .consumes p t ∧ net.place? p = some place ∧ net.transition? t = some tr)
    ∨ ∃ p place t tr, arc = .produces t p ∧ net.place? p = some place ∧ net.transition? t = some tr

/-- What is tested of a net. -/
structure Checked (net : Net) : Prop where
  joins : ∀ arc ∈ net.arcs, net.Joins arc
  places : ∀ x ∈ net.places, ∀ arc ∈ placeArcs x.1 x.2, arc ∈ net.arcs
  transitions : ∀ x ∈ net.indexedTransitions, ∀ arc ∈ transitionArcs x.1 x.2, arc ∈ net.arcs
  counted : net.countedArcs = net.arcs.size
  finals : ∀ set ∈ net.finalSets, ∀ id ∈ set, ∃ p, net.place? id = some p
  names : ∀ name id, net.find? name = some id → ∃ p, net.place? id = some p ∧ name ∈ p.history

/-! ### One law for each test -/

theorem arcFlaws_eq_nil_iff {arc : Arc} : net.arcFlaws arc = [] ↔ net.Joins arc := by
  obtain ⟨source, target⟩ := arc
  cases source with
  | place p =>
    cases target with
    | place q => simp [arcFlaws, Joins]
    | transition t =>
      cases hp : net.place? p <;> cases ht : net.transition? t <;>
        simp [arcFlaws, Joins, hasNode, hp, ht]
  | transition t =>
    cases target with
    | place p =>
      cases hp : net.place? p <;> cases ht : net.transition? t <;>
        simp [arcFlaws, Joins, hasNode, hp, ht]
    | transition u => simp [arcFlaws, Joins]

theorem unmatched_eq_nil_iff {owner : String} {arcs : List Arc} :
    net.unmatched owner arcs = [] ↔ ∀ arc ∈ arcs, arc ∈ net.arcs := by
  unfold unmatched
  rw [List.map_eq_nil_iff, List.filter_eq_nil_iff]
  simp

/-- What it means that the check of arcs finds nothing. -/
theorem flowFlaws_eq_nil_iff :
    net.flowFlaws = [] ↔ (∀ x ∈ net.places, ∀ arc ∈ placeArcs x.1 x.2, arc ∈ net.arcs)
      ∧ (∀ x ∈ net.indexedTransitions, ∀ arc ∈ transitionArcs x.1 x.2, arc ∈ net.arcs)
      ∧ net.countedArcs = net.arcs.size := by
  unfold flowFlaws
  rw [List.append_eq_nil_iff, List.append_eq_nil_iff, List.flatMap_eq_nil_iff,
    List.flatMap_eq_nil_iff, and_assoc]
  simp only [unmatched_eq_nil_iff, ite_eq_left_iff, reduceCtorEq, imp_false, not_not]

/-- What it means that the check of final sets finds nothing. -/
theorem finalFlaws_eq_nil_iff :
    net.finalFlaws = [] ↔ ∀ set ∈ net.finalSets, ∀ id ∈ set, ∃ p, net.place? id = some p := by
  have hset (set : OrderedSet PlaceId) (i : Nat) :
      (set.toList.filter (fun id => (net.place? id).isNone)).map (Flaw.staleFinalPlace i) = []
        ↔ ∀ id ∈ set, ∃ p, net.place? id = some p := by
    rw [List.map_eq_nil_iff, List.filter_eq_nil_iff]
    refine forall₂_congr fun id _ => ?_
    cases net.place? id <;> simp
  unfold finalFlaws
  rw [List.flatMap_eq_nil_iff]
  constructor
  · intro h set hmem
    obtain ⟨i, hi⟩ := List.mem_iff_getElem?.1 hmem
    exact (hset set i).1 (h (set, i) (List.mk_mem_zipIdx_iff_getElem?.2 hi))
  · intro h x hx
    exact (hset x.1 x.2).2 (h x.1 (List.fst_mem_of_mem_zipIdx hx))

/-- What it means that the check of names finds nothing. -/
theorem nameFlaws_eq_nil_iff :
    net.nameFlaws = [] ↔ ∀ name id, net.find? name = some id →
      ∃ p, net.place? id = some p ∧ name ∈ p.history := by
  have hentry (name : String) (id : PlaceId) : net.isNamed (name, id) = true
      ↔ ∃ p, net.place? id = some p ∧ name ∈ p.history := by
    cases hp : net.place? id <;> simp [isNamed, hp, Place.knows]
  unfold nameFlaws
  rw [List.map_eq_nil_iff, List.filter_eq_nil_iff]
  constructor
  · intro h name id hfind
    have hmem : (name, id) ∈ net.names.toList := OrderedMap.get?_eq_some_iff.1 hfind
    exact (hentry name id).1 (by simpa using h (name, id) hmem)
  · rintro h ⟨name, id⟩ hmem
    have hnamed := (hentry name id).2 (h name id (OrderedMap.get?_eq_some_iff.2 hmem))
    simp [hnamed]

/-- Nothing is listed exactly when every test is passed. -/
theorem isConsistent_iff : net.isConsistent = true ↔ net.Checked := by
  have harcs : net.arcs.toList.flatMap net.arcFlaws = [] ↔ ∀ arc ∈ net.arcs, net.Joins arc := by
    rw [List.flatMap_eq_nil_iff]
    exact forall₂_congr fun arc _ => arcFlaws_eq_nil_iff
  unfold isConsistent flaws
  rw [List.isEmpty_iff, List.append_eq_nil_iff, List.append_eq_nil_iff, List.append_eq_nil_iff,
    harcs, flowFlaws_eq_nil_iff, finalFlaws_eq_nil_iff, nameFlaws_eq_nil_iff]
  constructor
  · rintro ⟨⟨⟨hjoins, hplaces, htransitions, hcounted⟩, hfinals⟩, hnames⟩
    exact ⟨hjoins, hplaces, htransitions, hcounted, hfinals, hnames⟩
  · intro h
    exact ⟨⟨⟨h.joins, h.places, h.transitions, h.counted⟩, h.finals⟩, h.names⟩

/-- There is nothing to report about a well-formed net. -/
theorem WellFormed.isConsistent (h : net.WellFormed) : net.isConsistent = true := by
  refine isConsistent_iff.2 ⟨fun arc harc => ?_, fun x hx arc harc => ?_, fun x hx arc harc => ?_,
    h.countedArcs_eq, fun _ hset _ hid => h.live hset hid, fun _ _ hfind => h.find.1 hfind⟩
  · obtain ⟨flow, p, t, rfl⟩ := h.exists_arc harc
    obtain ⟨⟨place, hp⟩, tr, ht⟩ := h.ends_of_arc harc
    cases flow with
    | consumes => exact .inl ⟨p, place, t, tr, rfl, hp, ht⟩
    | produces => exact .inr ⟨p, place, t, tr, rfl, hp, ht⟩
  · exact h.perm_placeArcs.mem_iff.2 (List.mem_flatMap.2 ⟨x, hx, harc⟩)
  · exact h.perm_transitionArcs.mem_iff.2 (List.mem_flatMap.2 ⟨x, hx, harc⟩)

/-! ## Every run -/

/-- After any run of construction steps, refused ones included: the views of
the net agree, no name belongs to two live places, the index agrees with a
search through all places, no place stands on two lists, the flow relation has
as many arcs as the neighbourhoods of the transitions, no two transitions share
a name, and the net is consistent. -/
theorem run_agrees (calls : List Call) :
    (run calls).WellFormed
      ∧ (∀ id id' p p' name, (run calls).place? id = some p → (run calls).place? id' = some p' →
          name ∈ p.history → name ∈ p'.history → id = id')
      ∧ (∀ name, (run calls).find? name
          = ((run calls).places.find? (fun p => p.2.knows name)).map Prod.fst)
      ∧ ((run calls).places.map Prod.fst).Nodup
      ∧ (run calls).arcs.size
          = total (fun t => t.preset.size + t.postset.size) (run calls).transitions
      ∧ ((run calls).transitions.map Transition.name).Nodup
      ∧ (run calls).isConsistent = true := by
  have h := wellFormed_run calls
  exact ⟨h, fun _ _ _ _ _ hp hp' hn hn' => h.eq_of_mem hp hp' hn hn', h.find?_eq_scan,
    h.nodup_places, h.size_arcs, h.nodup_names, h.isConsistent⟩

end Net

end OpenWorkflow
