import OpenWorkflow.Proofs.Net.Replace

/-!
# Well-formed nets

A net keeps its nodes and arcs in several views at once: the slots of its
places, the index of names, the lists of places by kind, the flow relation, the
neighbourhoods of places and those of transitions. `Coherent` says that these
views show one and the same graph, and `WellFormed` adds that the final sets do.

Each change that adds to a net or takes from it keeps the net coherent. The
final sets are apart because a merge lets them point at the new place before
that place is there.
-/

namespace OpenWorkflow

namespace Net

/-- The index leads from a name to the live place that carries it. -/
structure NamesAgree (net : Net) : Prop where
  find : ∀ {name id}, net.find? name = some id ↔ ∃ p, net.place? id = some p ∧ name ∈ p.history
  current : ∀ {id p}, net.place? id = some p → p.name ∈ p.history

/-- Each list holds the live places of its kind. -/
structure ListsAgree (net : Net) : Prop where
  listed : ∀ {kind id},
    id ∈ net.listed kind ↔ ∃ p, net.place? id = some p ∧ p.kind.list = kind.list

/-- The three copies of the flow relation are one relation between places and
transitions. -/
structure FlowAgrees (net : Net) : Prop where
  bipartite : ∀ {arc}, arc ∈ net.arcs →
    (∃ p t, arc = .consumes p t) ∨ ∃ t p, arc = .produces t p
  consumes_place : ∀ {p t},
    .consumes p t ∈ net.arcs ↔ ∃ place, net.place? p = some place ∧ t ∈ place.postset
  consumes_transition : ∀ {p t},
    .consumes p t ∈ net.arcs ↔ ∃ tr, net.transition? t = some tr ∧ p ∈ tr.preset
  produces_place : ∀ {p t},
    .produces t p ∈ net.arcs ↔ ∃ place, net.place? p = some place ∧ t ∈ place.preset
  produces_transition : ∀ {p t},
    .produces t p ∈ net.arcs ↔ ∃ tr, net.transition? t = some tr ∧ p ∈ tr.postset

namespace FlowAgrees

variable {net : Net} {flow : ArcKind} {p : PlaceId} {t : TransitionId}

/-- The two laws about places as one. -/
theorem place_iff (h : net.FlowAgrees) :
    flow.arc p t ∈ net.arcs ↔ ∃ place, net.place? p = some place ∧ t ∈ flow.ofPlace place := by
  cases flow with
  | consumes => exact h.consumes_place
  | produces => exact h.produces_place

/-- The two laws about transitions as one. -/
theorem transition_iff (h : net.FlowAgrees) :
    flow.arc p t ∈ net.arcs ↔ ∃ tr, net.transition? t = some tr ∧ p ∈ flow.ofTransition tr := by
  cases flow with
  | consumes => exact h.consumes_transition
  | produces => exact h.produces_transition

/-- An arc goes between a place and a transition. -/
theorem exists_arc (h : net.FlowAgrees) {arc : Arc} (harc : arc ∈ net.arcs) :
    ∃ (flow : ArcKind) (p : PlaceId) (t : TransitionId), arc = flow.arc p t := by
  rcases h.bipartite harc with ⟨p, t, rfl⟩ | ⟨t, p, rfl⟩
  · exact ⟨.consumes, p, t, rfl⟩
  · exact ⟨.produces, p, t, rfl⟩

theorem of_kinds (hexists : ∀ arc ∈ net.arcs, ∃ (flow : ArcKind) (p : PlaceId) (t : TransitionId),
      arc = flow.arc p t)
    (hplace : ∀ (flow : ArcKind) (p : PlaceId) (t : TransitionId),
      flow.arc p t ∈ net.arcs ↔ ∃ place, net.place? p = some place ∧ t ∈ flow.ofPlace place)
    (htransition : ∀ (flow : ArcKind) (p : PlaceId) (t : TransitionId),
      flow.arc p t ∈ net.arcs ↔ ∃ tr, net.transition? t = some tr ∧ p ∈ flow.ofTransition tr) :
    net.FlowAgrees where
  bipartite harc := by
    obtain ⟨flow, p, t, rfl⟩ := hexists _ harc
    exact (flow.arc_cases p t).imp (fun h => ⟨p, t, h⟩) fun h => ⟨t, p, h⟩
  consumes_place := hplace .consumes _ _
  consumes_transition := htransition .consumes _ _
  produces_place := hplace .produces _ _
  produces_transition := htransition .produces _ _

/-- An arc has a place and a transition of the net at its ends. -/
theorem ends_of_arc (h : net.FlowAgrees) (harc : flow.arc p t ∈ net.arcs) :
    (∃ place, net.place? p = some place) ∧ ∃ tr, net.transition? t = some tr := by
  obtain ⟨place, hp, -⟩ := h.place_iff.1 harc
  obtain ⟨tr, ht, -⟩ := h.transition_iff.1 harc
  exact ⟨⟨place, hp⟩, tr, ht⟩

end FlowAgrees

/-- Transitions have names, and the index leads from a name to the one
transition that has it. -/
structure TransitionsAgree (net : Net) : Prop where
  named : ∀ {t tr}, net.transition? t = some tr → tr.name ≠ ""
  indexed : ∀ {name t},
    net.findTransition? name = some t ↔ ∃ tr, net.transition? t = some tr ∧ tr.name = name

/-- The views of the graph show the same graph. -/
structure Coherent (net : Net) : Prop extends
  NamesAgree net, ListsAgree net, FlowAgrees net, TransitionsAgree net

/-- Final sets hold live places, and a live place is flagged exactly when some
final set holds it. -/
structure FinalsAgree (net : Net) : Prop where
  live : ∀ {set}, set ∈ net.finalSets → ∀ {id}, id ∈ set → ∃ p, net.place? id = some p
  flagged : ∀ {id p}, net.place? id = some p →
    (p.isFinal = true ↔ ∃ set ∈ net.finalSets, id ∈ set)

/-- A net all of whose views agree. -/
structure WellFormed (net : Net) : Prop extends Coherent net, FinalsAgree net

/-- The empty net is well formed. -/
theorem wellFormed_empty : WellFormed empty where
  find := by simp [find?, empty, place?]
  current := by simp [empty, place?]
  listed := by
    intro kind id
    cases kind <;> simp [listed, empty, place?]
  bipartite := by simp [empty]
  consumes_place := by simp [empty, place?]
  consumes_transition := by simp [empty, transition?]
  produces_place := by simp [empty, place?]
  produces_transition := by simp [empty, transition?]
  named := by simp [empty, transition?]
  indexed := by simp [findTransition?, empty, transition?]
  live := by simp [empty]
  flagged := by simp [empty, place?]

/-- The final sets have no part in coherence. -/
theorem Coherent.setFinals {net : Net} (h : net.Coherent) (sets : List (OrderedSet PlaceId)) :
    Coherent { net with finalSets := sets } where
  find := h.find
  current := h.current
  listed := h.listed
  bipartite := h.bipartite
  consumes_place := h.consumes_place
  consumes_transition := h.consumes_transition
  produces_place := h.produces_place
  produces_transition := h.produces_transition
  named := h.named
  indexed := h.indexed

namespace NamesAgree

variable {net : Net} (h : net.NamesAgree)
include h

/-- A name in use leads to a live place. -/
theorem live_of_find {name : String} {id : PlaceId} (hf : net.find? name = some id) :
    ∃ p, net.place? id = some p :=
  let ⟨p, hp, _⟩ := h.find.1 hf
  ⟨p, hp⟩

theorem find_of_mem {id : PlaceId} {p : Place} (hp : net.place? id = some p) {name : String}
    (hn : name ∈ p.history) : net.find? name = some id :=
  h.find.2 ⟨p, hp, hn⟩

/-- A place is found under its current name. -/
theorem find_name {id : PlaceId} {p : Place} (hp : net.place? id = some p) :
    net.find? p.name = some id :=
  h.find_of_mem hp (h.current hp)

/-- No name belongs to two live places. -/
theorem eq_of_mem {id id' : PlaceId} {p p' : Place} (hp : net.place? id = some p)
    (hp' : net.place? id' = some p') {name : String} (hn : name ∈ p.history)
    (hn' : name ∈ p'.history) : id = id' :=
  Option.some.inj ((h.find_of_mem hp hn).symm.trans (h.find_of_mem hp' hn'))

end NamesAgree

/-- Following a handle ends at a live place, if it ends. -/
theorem live_of_follow {net : Net} {n : Nat} {id x : PlaceId} (h : net.follow n id = some x) :
    ∃ p, net.place? x = some p := by
  induction n generalizing id with
  | zero => cases h
  | succ n ih =>
    unfold follow at h
    split at h
    · rename_i p hp
      cases h
      exact ⟨p, (net.place?_eq_some).2 hp⟩
    · exact ih h
    · cases h

/-- Whatever a reference stands for is live. -/
theorem live_of_resolve {net : Net} (hn : net.NamesAgree) {ref : PlaceRef} {x : PlaceId}
    (h : net.resolve? ref = some x) : ∃ p, net.place? x = some p := by
  cases ref with
  | named name => exact hn.live_of_find h
  | handle id => exact live_of_follow h

/-- Names of transitions stay indexed when no transition changes its name. -/
theorem TransitionsAgree.congr {net net' : Net} (h : net.TransitionsAgree)
    (hnames : net'.transitionNames = net.transitionNames)
    (ht : ∀ t, (net'.transition? t).map Transition.name = (net.transition? t).map Transition.name) :
    net'.TransitionsAgree := by
  have hname : ∀ t name, (∃ tr, net'.transition? t = some tr ∧ tr.name = name)
      ↔ ∃ tr, net.transition? t = some tr ∧ tr.name = name := by
    intro t name
    rw [← Option.map_eq_some_iff, ← Option.map_eq_some_iff, ht]
  constructor
  · intro t tr htr hempty
    obtain ⟨tr₀, htr₀, he⟩ := (hname t "").1 ⟨tr, htr, hempty⟩
    exact h.named htr₀ he
  · intro name t
    rw [hname, ← h.indexed]
    unfold findTransition?
    rw [hnames]

/-! ## Adding a place -/

section addPlace

variable {net : Net} {place : Place}

theorem NamesAgree.addPlace (h : net.NamesAgree) (hname : place.name ∈ place.history)
    (hfresh : ∀ n ∈ place.history, net.find? n = none) : (net.addPlace place).NamesAgree where
  find := by
    intro name id
    rw [find?_addPlace, place?_addPlace]
    by_cases hn : name ∈ place.history
    · rw [if_pos hn]
      constructor
      · intro hid
        rw [if_pos (Option.some.inj hid).symm]
        exact ⟨place, rfl, hn⟩
      · rintro ⟨p, hp, hnp⟩
        by_cases hid : id = net.freshPlace
        · rw [hid]
        · rw [if_neg hid] at hp
          exact absurd (h.find_of_mem hp hnp) (by rw [hfresh name hn]; simp)
    · rw [if_neg hn, h.find]
      by_cases hid : id = net.freshPlace
      · subst hid
        simp [hn, place?_freshPlace]
      · rw [if_neg hid]
  current := by
    intro id p hp
    rw [place?_addPlace] at hp
    split at hp
    · rwa [← Option.some.inj hp]
    · exact h.current hp

theorem ListsAgree.addPlace (h : net.ListsAgree) : (net.addPlace place).ListsAgree where
  listed := by
    intro kind id
    rw [listed_addPlace, place?_addPlace]
    by_cases hid : id = net.freshPlace
    · subst hid
      have hnot : net.freshPlace ∉ net.listed kind := by
        intro hm
        obtain ⟨p, hp, -⟩ := h.listed.1 hm
        rw [place?_freshPlace] at hp
        cases hp
      by_cases hk : kind.list = place.kind.list
      · simp [hk]
      · simp [hk, hnot, Ne.symm hk]
    · by_cases hk : kind.list = place.kind.list <;> simp [hk, hid, h.listed]

theorem FlowAgrees.addPlace (h : net.FlowAgrees) (hpre : place.preset = ∅)
    (hpost : place.postset = ∅) : (net.addPlace place).FlowAgrees := by
  refine .of_kinds ?_ (fun flow p t => ?_) fun flow p t => ?_
  · rw [arcs_addPlace]
    exact fun _ => h.exists_arc
  · rw [arcs_addPlace, place?_addPlace, h.place_iff]
    by_cases hp : p = net.freshPlace
    · subst hp
      cases flow <;> simp [place?_freshPlace, ArcKind.ofPlace, hpre, hpost]
    · rw [if_neg hp]
  · rw [arcs_addPlace, transition?_congr (transitions_addPlace net place)]
    exact h.transition_iff

/-- A place without arcs whose names are new fits into a coherent net. -/
theorem Coherent.addPlace (h : net.Coherent) (hpre : place.preset = ∅) (hpost : place.postset = ∅)
    (hname : place.name ∈ place.history) (hfresh : ∀ n ∈ place.history, net.find? n = none) :
    (net.addPlace place).Coherent where
  toNamesAgree := h.toNamesAgree.addPlace hname hfresh
  toListsAgree := h.toListsAgree.addPlace
  toFlowAgrees := h.toFlowAgrees.addPlace hpre hpost
  toTransitionsAgree := h.toTransitionsAgree.congr (transitionNames_addPlace net place)
    fun t => by rw [transition?_congr (transitions_addPlace net place)]

end addPlace

/-! ## Changing a place -/

section modifyPlace

variable {net net' : Net}

/-- Names and lists stay in agreement when the live places keep names and kinds. -/
theorem NamesAgree.congr (h : net.NamesAgree) (hnames : net'.names = net.names)
    (hp : ∀ id, (net'.place? id).map Place.history = (net.place? id).map Place.history) :
    net'.NamesAgree := by
  have hmem : ∀ id name, (∃ p, net'.place? id = some p ∧ name ∈ p.history)
      ↔ ∃ p, net.place? id = some p ∧ name ∈ p.history := by
    intro id name
    have := hp id
    cases h' : net'.place? id <;> cases h₀ : net.place? id <;> simp_all
  constructor
  · intro name id
    rw [hmem, ← h.find]
    unfold find?
    rw [hnames]
  · intro id p hp'
    have hhist := hp id
    rw [hp', Option.map_some] at hhist
    obtain ⟨q, hq, he⟩ := Option.map_eq_some_iff.1 hhist.symm
    have hname : p.name = q.name := by
      unfold Place.name
      rw [he]
    rw [hname, ← he]
    exact h.current hq

theorem ListsAgree.congr (h : net.ListsAgree) (hlisted : ∀ k, net'.listed k = net.listed k)
    (hp : ∀ id, (net'.place? id).map Place.kind = (net.place? id).map Place.kind) :
    net'.ListsAgree where
  listed := by
    intro kind id
    rw [hlisted, h.listed]
    have := hp id
    cases h' : net'.place? id <;> cases h₀ : net.place? id <;> simp_all

/-- The flow relation does not depend on the marks of places. -/
theorem FlowAgrees.congr (h : net.FlowAgrees) (harcs : net'.arcs = net.arcs)
    (htr : net'.transitions = net.transitions)
    (hp : ∀ id, (net'.place? id).map (fun p => (p.preset, p.postset))
      = (net.place? id).map (fun p => (p.preset, p.postset))) :
    net'.FlowAgrees := by
  refine .of_kinds ?_ (fun flow p t => ?_) fun flow p t => ?_
  · rw [harcs]
    exact fun _ => h.exists_arc
  · rw [harcs, h.place_iff]
    have := hp p
    cases flow <;> cases h' : net'.place? p <;> cases h₀ : net.place? p <;>
      simp_all [ArcKind.ofPlace]
  · rw [harcs, transition?_congr htr]
    exact h.transition_iff

/-- A change of tokens and flags keeps a net coherent. -/
theorem Coherent.modifyPlace (h : net.Coherent) (id : PlaceId) {f : Place → Place}
    (hhist : ∀ p, (f p).history = p.history) (hkind : ∀ p, (f p).kind = p.kind)
    (hpre : ∀ p, (f p).preset = p.preset) (hpost : ∀ p, (f p).postset = p.postset) :
    (net.modifyPlace id f).Coherent where
  toNamesAgree := h.toNamesAgree.congr (names_modifyPlace net id f)
    (map_place?_modifyPlace net id f hhist)
  toListsAgree := h.toListsAgree.congr (listed_modifyPlace net id f)
    (map_place?_modifyPlace net id f hkind)
  toFlowAgrees := h.toFlowAgrees.congr (arcs_modifyPlace net id f)
    (transitions_modifyPlace net id f)
    (map_place?_modifyPlace net id f fun p => by rw [hpre, hpost])
  toTransitionsAgree := h.toTransitionsAgree.congr (transitionNames_modifyPlace net id f)
    fun t => by rw [transition?_congr (transitions_modifyPlace net id f)]

end modifyPlace

/-! ## Adding an arc -/

section connect

variable {net : Net} {flow : ArcKind} {p : PlaceId} {t : TransitionId} {place : Place}
  {tr : Transition}

/-- A new arc is noted at both ends and in the flow relation. -/
theorem FlowAgrees.connect (h : net.FlowAgrees) (hp : net.place? p = some place)
    (ht : net.transition? t = some tr) : (net.connect (flow.arc p t)).FlowAgrees := by
  refine .of_kinds (fun arc harc => ?_) (fun flow' q u => ?_) fun flow' q u => ?_
  · rw [arcs_connect, OrderedSet.mem_insert] at harc
    rcases harc with harc | rfl
    · exact h.exists_arc harc
    · exact ⟨flow, p, t, rfl⟩
  · rw [arcs_connect, OrderedSet.mem_insert, h.place_iff, ArcKind.arc_inj, place?_connect]
    by_cases hq : q = p
    · subst hq
      by_cases hflow : flow' = flow <;> simp [hp, hflow, ArcKind.ofPlace_onPlace]
    · simp [hq]
  · rw [arcs_connect, OrderedSet.mem_insert, h.transition_iff, ArcKind.arc_inj, transition?_connect]
    by_cases hu : u = t
    · subst hu
      by_cases hflow : flow' = flow <;> simp [ht, hflow, ArcKind.ofTransition_onTransition]
    · simp [hu]

/-- An arc between nodes of the net fits into a coherent net. -/
theorem Coherent.connect (h : net.Coherent) (hp : net.place? p = some place)
    (ht : net.transition? t = some tr) : (net.connect (flow.arc p t)).Coherent where
  toNamesAgree := h.toNamesAgree.congr (names_connect net _)
    (map_place?_connect net flow p t fun f q => (ArcKind.onPlace_keeps f q _).1)
  toListsAgree := h.toListsAgree.congr (listed_connect net _)
    (map_place?_connect net flow p t fun f q => (ArcKind.onPlace_keeps f q _).2.1)
  toFlowAgrees := h.toFlowAgrees.connect hp ht
  toTransitionsAgree := by
    refine h.toTransitionsAgree.congr (transitionNames_connect net _) fun x => ?_
    rw [transition?_connect]
    split <;> cases net.transition? x <;> simp [ArcKind.name_onTransition]

end connect

/-! ## Adding a transition -/

section appendTransition

variable {net : Net} {name : String} {kind : NodeKind}

theorem transition?_appendTransition (t : TransitionId) :
    (net.appendTransition name kind).transition? t
      = if t = net.freshTransition then some { name, kind } else net.transition? t := by
  unfold transition? appendTransition
  by_cases ht : t = net.freshTransition
  · subst ht
    simp [freshTransition]
  · have hne : t.index ≠ net.transitions.length := fun e => ht (by cases t; cases e; rfl)
    rw [if_neg ht]
    rcases Nat.lt_or_ge t.index net.transitions.length with hlt | hge
    · rw [List.getElem?_append_left hlt]
    · rw [List.getElem?_eq_none (by simp; omega), List.getElem?_eq_none hge]

theorem transition?_freshTransition : net.transition? net.freshTransition = none := by
  simp [transition?, freshTransition]

/-- A transition under a new name fits into a coherent net. -/
theorem Coherent.appendTransition (h : net.Coherent) (hname : name ≠ "")
    (hfresh : net.findTransition? name = none) : (net.appendTransition name kind).Coherent where
  find := h.find
  current := h.current
  listed := h.listed
  toFlowAgrees := by
    refine .of_kinds (fun _ => h.exists_arc) (fun _ _ _ => h.place_iff) fun flow p t => ?_
    rw [transition?_appendTransition]
    refine h.transition_iff.trans ?_
    by_cases ht : t = net.freshTransition
    · subst ht
      cases flow <;> simp [transition?_freshTransition, ArcKind.ofTransition]
    · rw [if_neg ht]
  named := by
    intro t tr htr
    rw [transition?_appendTransition] at htr
    split at htr
    · rwa [← Option.some.inj htr]
    · exact h.named htr
  indexed := by
    intro x t
    have hget : (net.appendTransition name kind).findTransition? x
        = if x = name then some net.freshTransition else net.findTransition? x :=
      OrderedMap.get?_insert net.transitionNames name x net.freshTransition
    rw [hget, transition?_appendTransition]
    by_cases ht : t = net.freshTransition
    · subst ht
      by_cases hx : x = name
      · simp [hx]
      · simp [hx, Ne.symm hx, h.indexed, transition?_freshTransition]
    · rw [if_neg ht]
      by_cases hx : x = name
      · subst hx
        rw [if_pos rfl, ← h.indexed, hfresh]
        simp [Ne.symm ht]
      · rw [if_neg hx, h.indexed]

end appendTransition

/-! ## Taking a place out -/

section without

variable {net : Net} {id : PlaceId} {mark : Slot} {place : Place}

theorem NamesAgree.without (h : net.NamesAgree) (hp : net.place? id = some place)
    (hmark : ∀ p, mark ≠ .live p) : (net.without id mark).NamesAgree where
  find := by
    intro name x
    rw [find?_without hp, place?_without hp hmark]
    by_cases hn : name ∈ place.history
    · have hf : net.find? name = some id := h.find_of_mem hp hn
      rw [if_pos ⟨hn, hf⟩]
      simp only [reduceCtorEq, false_iff]
      rintro ⟨q, hq, hnq⟩
      split at hq
      · cases hq
      · rename_i hx
        exact hx (h.eq_of_mem hq hp hnq hn)
    · rw [if_neg (fun hc => hn hc.1), h.find]
      by_cases hx : x = id
      · subst hx
        simp [hp, hn]
      · rw [if_neg hx]
  current := by
    intro x q hq
    rw [place?_without hp hmark] at hq
    split at hq
    · cases hq
    · exact h.current hq

theorem ListsAgree.without (h : net.ListsAgree) (hp : net.place? id = some place)
    (hmark : ∀ p, mark ≠ .live p) : (net.without id mark).ListsAgree where
  listed := by
    intro kind x
    rw [listed_without hp, place?_without hp hmark]
    by_cases hx : x = id
    · subst hx
      by_cases hk : kind.list = place.kind.list
      · simp [hk]
      · have : x ∉ net.listed kind := by
          intro hm
          obtain ⟨q, hq, hqk⟩ := h.listed.1 hm
          rw [hp] at hq
          exact hk (Option.some.inj hq ▸ hqk.symm)
        simp [hk, this]
    · by_cases hk : kind.list = place.kind.list <;> simp [hk, hx, h.listed]

/-- The arcs of a detached place are dropped everywhere. -/
theorem FlowAgrees.without (h : net.FlowAgrees) (hp : net.place? id = some place)
    (hmark : ∀ p, mark ≠ .live p) : (net.without id mark).FlowAgrees := by
  have hof {flow : ArcKind} {t : TransitionId} :
      flow.arc id t ∈ net.arcs ↔ t ∈ flow.ofPlace place := by
    rw [h.place_iff]
    simp [hp]
  -- An arc survives exactly when it does not touch the place.
  have hmem {flow : ArcKind} {q : PlaceId} {t : TransitionId} :
      flow.arc q t ∈ (net.without id mark).arcs ↔ flow.arc q t ∈ net.arcs ∧ q ≠ id := by
    rw [mem_arcs_without hp]
    refine and_congr_right fun hm => ⟨?_, fun hq flow' u _ heq => hq (ArcKind.arc_inj.1 heq).2.1⟩
    rintro hn rfl
    exact hn flow t (hof.1 hm) rfl
  refine .of_kinds (fun arc harc => ?_) (fun flow q t => ?_) fun flow q t => ?_
  · exact h.exists_arc ((mem_arcs_without hp arc).1 harc).1
  · rw [hmem, h.place_iff, place?_without hp hmark]
    by_cases hq : q = id <;> simp [hq]
  · have hne : flow.arc q t ∈ net.arcs → t ∉ flow.ofPlace place → q ≠ id := by
      rintro hm ht rfl
      exact ht (hof.1 hm)
    rw [hmem]
    rw [h.transition_iff] at hne ⊢
    rw [transition?_without hp]
    by_cases ht : t ∈ flow.ofPlace place <;> cases flow <;>
      cases htr : net.transition? t <;> simp_all [ArcKind.ofPlace, ArcKind.ofTransition]

/-- A net stays coherent when a place leaves it. -/
theorem Coherent.without (h : net.Coherent) (hp : net.place? id = some place)
    (hmark : ∀ p, mark ≠ .live p) : (net.without id mark).Coherent where
  toNamesAgree := h.toNamesAgree.without hp hmark
  toListsAgree := h.toListsAgree.without hp hmark
  toFlowAgrees := h.toFlowAgrees.without hp hmark
  toTransitionsAgree := by
    refine h.toTransitionsAgree.congr (transitionNames_without hp) fun t => ?_
    rw [transition?_without hp]
    cases net.transition? t <;> rfl

end without

end Net

end OpenWorkflow
