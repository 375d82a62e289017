import Mathlib.Data.List.Perm.Subperm
import OpenWorkflow.Proofs.Net.Consistency

/-!
# What the check of a net establishes

A net is consistent when `flaws` lists nothing. This module says what that means for a net of any
making, also one whose views disagree, in the terms of `Checked`, which has one condition for each
of the tests (`isConsistent_iff`).

The check compares neighbourhoods with the flow relation in one direction only, and counts. The
count settles the other direction for places: arcs that are listed once each, all of them in the
flow relation and as many as it holds, are all of it (`Checked.placeMirrors`). It is a count of
what places list. Transitions are compared in one direction and never counted, so a transition may
list fewer arcs than it has (`Checked.transitionMirrors_iff`), and a place that stands on two lists
is counted twice, which can make up for an arc that no place lists (`isConsistent_unmirrored`).
-/

namespace OpenWorkflow

variable {p : PlaceId} {tr : Transition} {t : TransitionId}

namespace Net

variable (net : Net)

/-- The place lists the arcs at it, neither fewer nor more. -/
def PlaceMirrors (p : PlaceId) (place : Place) : Prop :=
  ∀ t, (.consumes p t ∈ net.arcs ↔ t ∈ place.postset)
    ∧ (.produces t p ∈ net.arcs ↔ t ∈ place.preset)

/-- The transition lists the arcs at it, neither fewer nor more. -/
def TransitionMirrors (t : TransitionId) (tr : Transition) : Prop :=
  ∀ p, (.consumes p t ∈ net.arcs ↔ p ∈ tr.preset) ∧ (.produces t p ∈ net.arcs ↔ p ∈ tr.postset)

variable {net}

/-! ## Counting -/

/-- Arcs without repetition, all of them in the flow relation and as many as it holds, are the
whole flow relation. -/
theorem perm_arcs_of_count {arcs : List Arc} (hnodup : arcs.Nodup)
    (hsub : ∀ arc ∈ arcs, arc ∈ net.arcs) (hcount : arcs.length = net.arcs.size) :
    arcs.Perm net.arcs.toList :=
  (List.subperm_of_subset hnodup hsub).perm_of_length_le (Nat.le_of_eq hcount.symm)

/-- If owners list the whole flow relation, an arc is listed by the owner that stands at its end. -/
theorem mem_of_owner {α β : Type} {xs : List (α × β)} {f : α × β → List Arc}
    {owner : Arc → Option α} (hxs : (xs.map Prod.fst).Nodup)
    (howner : ∀ x, ∀ arc ∈ f x, owner arc = some x.1)
    (hperm : (xs.flatMap f).Perm net.arcs.toList) {x : α × β} (hx : x ∈ xs) {arc : Arc}
    (harc : arc ∈ net.arcs) (hend : owner arc = some x.1) : arc ∈ f x := by
  obtain ⟨y, hy, hlisted⟩ := List.mem_flatMap.1 (hperm.mem_iff.2 harc)
  have hyx : y.1 = x.1 := Option.some.inj ((howner y arc hlisted).symm.trans hend)
  rwa [List.inj_on_of_nodup_map hxs hy hx hyx] at hlisted

namespace Checked

variable (h : net.Checked)
include h

/-- If no place stands on two lists, what the places list is the flow relation. -/
theorem perm_listed_places (hnodup : (net.places.map Prod.fst).Nodup) :
    (net.places.flatMap (fun x => placeArcs x.1 x.2)).Perm net.arcs.toList := by
  refine perm_arcs_of_count ?_ ?_ ?_
  · exact nodup_flatMap_arcs placeEnd hnodup (fun x => nodup_placeArcs x.1 x.2) placeEnd_of_mem
  · intro arc harc
    obtain ⟨x, hx, harc⟩ := List.mem_flatMap.1 harc
    exact h.places x hx arc harc
  · rw [length_flatMap_eq_total, ← h.counted]
    simp only [length_placeArcs, countedArcs]

/-- A listed place lists every arc at it. -/
theorem placeMirrors (hnodup : (net.places.map Prod.fst).Nodup) {place : Place}
    (hp : (p, place) ∈ net.places) : net.PlaceMirrors p place := by
  have howner (arc : Arc) (harc : arc ∈ net.arcs) (hend : placeEnd arc = some p) :
      arc ∈ placeArcs p place :=
    mem_of_owner hnodup placeEnd_of_mem (h.perm_listed_places hnodup) hp harc hend
  intro t
  constructor
  · constructor
    · intro harc
      simpa [placeArcs, OrderedSet.mem_def] using howner _ harc rfl
    · intro ht
      exact h.places _ hp _ (mem_placeArcs.2 (.inr ⟨t, ht, rfl⟩))
  · constructor
    · intro harc
      simpa [placeArcs, OrderedSet.mem_def] using howner _ harc rfl
    · intro ht
      exact h.places _ hp _ (mem_placeArcs.2 (.inl ⟨t, ht, rfl⟩))

theorem of_mem_preset (ht : net.transition? t = some tr) (hp : p ∈ tr.preset) :
    .consumes p t ∈ net.arcs :=
  h.transitions (t, tr) (mem_indexedTransitions.2 ht) _ (mem_transitionArcs.2 (.inl ⟨p, hp, rfl⟩))

theorem of_mem_postset (ht : net.transition? t = some tr) (hp : p ∈ tr.postset) :
    .produces t p ∈ net.arcs :=
  h.transitions (t, tr) (mem_indexedTransitions.2 ht) _ (mem_transitionArcs.2 (.inr ⟨p, hp, rfl⟩))

/-- If the transitions list as many arcs as there are, each of them lists all its arcs. -/
theorem transitionMirrors
    (hcount : total (fun tr => tr.preset.size + tr.postset.size) net.transitions = net.arcs.size)
    (ht : net.transition? t = some tr) : net.TransitionMirrors t tr := by
  have hperm : (net.indexedTransitions.flatMap (fun x => transitionArcs x.1 x.2)).Perm
      net.arcs.toList := by
    refine perm_arcs_of_count nodup_listed_transitions ?_ (length_listed_transitions.trans hcount)
    intro arc harc
    obtain ⟨x, hx, harc⟩ := List.mem_flatMap.1 harc
    exact h.transitions x hx arc harc
  have howner (arc : Arc) (harc : arc ∈ net.arcs) (hend : transitionEnd arc = some t) :
      arc ∈ transitionArcs t tr :=
    mem_of_owner (x := (t, tr)) nodup_indexedTransitions transitionEnd_of_mem hperm
      (mem_indexedTransitions.2 ht) harc hend
  intro p
  constructor
  · constructor
    · intro harc
      simpa [transitionArcs, OrderedSet.mem_def] using howner _ harc rfl
    · exact h.of_mem_preset ht
  · constructor
    · intro harc
      simpa [transitionArcs, OrderedSet.mem_def] using howner _ harc rfl
    · exact h.of_mem_postset ht

/-- The transitions list all their arcs exactly when they list as many as there are. -/
theorem transitionMirrors_iff :
    (∀ t tr, net.transition? t = some tr → net.TransitionMirrors t tr)
      ↔ total (fun tr => tr.preset.size + tr.postset.size) net.transitions = net.arcs.size := by
  constructor
  · intro hmirrors
    -- both lists are free of repetitions and hold the same arcs
    have hperm : (net.indexedTransitions.flatMap (fun x => transitionArcs x.1 x.2)).Perm
        net.arcs.toList := by
      refine (List.perm_ext_iff_of_nodup nodup_listed_transitions net.arcs.nodup).2 fun arc => ?_
      rw [List.mem_flatMap]
      constructor
      · rintro ⟨x, hx, harc⟩
        exact h.transitions x hx arc harc
      · intro harc
        rcases h.joins arc harc with ⟨p, -, t, tr, rfl, -, ht⟩ | ⟨p, -, t, tr, rfl, -, ht⟩
        · have hp := (hmirrors t tr ht p).1.1 harc
          exact ⟨(t, tr), mem_indexedTransitions.2 ht, mem_transitionArcs.2 (.inl ⟨p, hp, rfl⟩)⟩
        · have hp := (hmirrors t tr ht p).2.1 harc
          exact ⟨(t, tr), mem_indexedTransitions.2 ht, mem_transitionArcs.2 (.inr ⟨p, hp, rfl⟩)⟩
    exact length_listed_transitions.symm.trans hperm.length_eq
  · intro hcount t tr ht
    exact h.transitionMirrors hcount ht

end Checked

/-! ## What a consistent net guarantees -/

/-- In a consistent net, however it was made: every arc joins a live place and a transition; a
place lists only arcs that there are, and if no place stands on two lists, all those at it; a
transition lists only arcs that there are, and all of them list all theirs exactly when they list
as many as there are; final sets hold live places, and a name leads to a live place that carries
it. -/
theorem isConsistent_guarantees (net : Net) (h : net.isConsistent = true) :
    (∀ arc ∈ net.arcs, net.Joins arc)
      ∧ (∀ p place t, (p, place) ∈ net.places →
          (t ∈ place.postset → .consumes p t ∈ net.arcs)
            ∧ (t ∈ place.preset → .produces t p ∈ net.arcs))
      ∧ ((net.places.map Prod.fst).Nodup →
          ∀ p place, (p, place) ∈ net.places → net.PlaceMirrors p place)
      ∧ (∀ t tr p, net.transition? t = some tr →
          (p ∈ tr.preset → .consumes p t ∈ net.arcs)
            ∧ (p ∈ tr.postset → .produces t p ∈ net.arcs))
      ∧ ((∀ t tr, net.transition? t = some tr → net.TransitionMirrors t tr)
          ↔ total (fun tr => tr.preset.size + tr.postset.size) net.transitions = net.arcs.size)
      ∧ (∀ set ∈ net.finalSets, ∀ id ∈ set, ∃ p, net.place? id = some p)
      ∧ (∀ name id, net.find? name = some id →
          ∃ p, net.place? id = some p ∧ name ∈ p.history) := by
  have hc := isConsistent_iff.1 h
  refine ⟨hc.joins, ?_, fun hnodup p place hp => hc.placeMirrors hnodup hp, ?_,
    hc.transitionMirrors_iff, hc.finals, hc.names⟩
  · intro p place t hp
    exact ⟨fun ht => hc.places _ hp _ (mem_placeArcs.2 (.inr ⟨t, ht, rfl⟩)),
      fun ht => hc.places _ hp _ (mem_placeArcs.2 (.inl ⟨t, ht, rfl⟩))⟩
  · intro t tr p ht
    exact ⟨hc.of_mem_preset ht, hc.of_mem_postset ht⟩

/-- A place and a transition with an arc between them that only the place lists. -/
def lopsided : Net where
  slots := [.live { history := .singleton "p", kind := .internal, postset := .singleton ⟨0⟩ }]
  names := .ofList [("p", ⟨0⟩)]
  internal := .singleton ⟨0⟩
  transitions := [{ name := "t", kind := .internal }]
  transitionNames := .ofList [("t", ⟨0⟩)]
  arcs := .singleton (.consumes ⟨0⟩ ⟨0⟩)
  finalSets := [.singleton ⟨0⟩]

/-- A transition with an arc from each of two places; the first stands on two lists, the second
does not list its arc. -/
def doubled : Net where
  slots := [.live { history := .singleton "p", kind := .internal, postset := .singleton ⟨0⟩ },
    .live { history := .singleton "q", kind := .output }]
  names := .ofList [("p", ⟨0⟩), ("q", ⟨1⟩)]
  internal := .singleton ⟨0⟩
  input := .singleton ⟨0⟩
  output := .singleton ⟨1⟩
  transitions := [{ name := "t", kind := .internal, preset := .ofList [⟨0⟩, ⟨1⟩] }]
  transitionNames := .ofList [("t", ⟨0⟩)]
  arcs := .ofList [.consumes ⟨0⟩ ⟨0⟩, .consumes ⟨1⟩ ⟨0⟩]

/-- The check does not see an arc that its transition does not list, nor one that its place does
not list if another place stands on two lists. -/
theorem isConsistent_unmirrored :
    (lopsided.isConsistent = true
        ∧ ∃ tr, lopsided.transition? ⟨0⟩ = some tr ∧ .consumes ⟨0⟩ ⟨0⟩ ∈ lopsided.arcs
          ∧ ⟨0⟩ ∉ tr.preset)
      ∧ (doubled.isConsistent = true
        ∧ ∃ place, (⟨1⟩, place) ∈ doubled.places ∧ .consumes ⟨1⟩ ⟨0⟩ ∈ doubled.arcs
          ∧ ⟨0⟩ ∉ place.postset) :=
  ⟨⟨by decide, _, rfl, by decide, by decide⟩, by decide,
    { history := .singleton "q", kind := .output }, by decide, by decide, by decide⟩

/-- A net that passes the check although a transition does not list its arcs. -/
theorem isConsistent_guarantees_lopsided :
    lopsided.isConsistent = true ∧ (lopsided.places.map Prod.fst).Nodup
      ∧ (∀ p place, (p, place) ∈ lopsided.places → lopsided.PlaceMirrors p place)
      ∧ ¬ ∀ t tr, lopsided.transition? t = some tr → lopsided.TransitionMirrors t tr := by
  have hconsistent : lopsided.isConsistent = true := by decide
  have hnodup : (lopsided.places.map Prod.fst).Nodup := by decide
  obtain ⟨-, -, hplaces, -, htransitions, -, -⟩ := isConsistent_guarantees lopsided hconsistent
  refine ⟨hconsistent, hnodup, hplaces hnodup, ?_⟩
  rw [htransitions]
  decide

end Net

end OpenWorkflow
