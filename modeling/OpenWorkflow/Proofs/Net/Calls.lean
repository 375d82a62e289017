import OpenWorkflow.Proofs.Net.Merge

/-!
# Runs of construction steps

A `Call` is one use of a construction step, with any names and any handles, also
ones that lead nowhere. For each step there is one lemma that says everything
the step can do (`newPlace_cases`, `newArc_cases`, …): it is refused and the net
is as before, or it succeeds and the net is a known change of the one before.
Together they say that a call makes one of ten changes (`change_apply`), so that
what every change keeps holds after any run (`run_induction`): a net is well
formed (`wellFormed_run`) and its tokens are words (`tokensFit_run`).
-/

namespace OpenWorkflow

/-- The net that a step leaves behind, be it refused or not. -/
def Build.after {α : Type} (b : Build α) (net : Net) : Net :=
  match b net with
  | .ok _ net => net
  | .error _ net => net

/-- One use of a construction step. Token counts are 32-bit words. -/
inductive Call where
  /-- Adds a place. -/
  | newPlace (name : String) (kind : NodeKind)
  /-- Adds a transition. -/
  | newTransition (name : String) (kind : NodeKind)
  /-- Adds an arc. -/
  | newArc (source target : Endpoint)
  /-- Makes one place of two. -/
  | merge (p q : PlaceRef)
  /-- Takes a place out. -/
  | remove (ref : PlaceRef)
  /-- Adds an alternative to the final condition. -/
  | addFinalSet (refs : List PlaceRef)
  /-- Sets the tokens of a place. -/
  | setTokens (ref : PlaceRef) (tokens : UInt32)
  /-- Lists a name under a port. -/
  | addPort (port name : String)
  /-- Opens the next number. -/
  | nextScope
  deriving DecidableEq

/-- The net after a call. -/
def Call.apply : Call → Net → Net
  | .newPlace name kind => (Net.newPlace name kind).after
  | .newTransition name kind => (Net.newTransitionOf name kind).after
  | .newArc source target => (Net.newArc source target).after
  | .merge p q => (Net.merge p q).after
  | .remove ref => (Net.remove ref).after
  | .addFinalSet refs => (Net.addFinalSet refs).after
  | .setTokens ref tokens => (Net.setTokens ref tokens.toNat).after
  | .addPort port name => (Net.addPort port name).after
  | .nextScope => Net.nextScope.after

namespace Net

/-- The net after a run of calls that starts from nothing. -/
def run (calls : List Call) : Net := calls.foldl (fun net call => call.apply net) empty

variable {net : Net}

/-! ## What a step can do -/

/-- A place is made, or its name is refused and nothing changes. -/
theorem newPlace_cases (name : String) (kind : NodeKind) (net : Net) :
    (name ≠ "" ∧ net.find? name = none
        ∧ newPlace name kind net = .ok net.freshPlace (net.addPlace (.ofName name kind)))
      ∨ ∃ e, newPlace name kind net = .error e net := by
  unfold newPlace
  by_cases hname : name = ""
  · exact .inr ⟨_, if_pos hname⟩
  · rw [if_neg hname]
    by_cases hdup : net.names.contains name
    · exact .inr ⟨_, if_pos hdup⟩
    · refine .inl ⟨hname, ?_, if_neg hdup⟩
      rw [OrderedMap.contains, Bool.not_eq_true, Option.isSome_eq_false_iff,
        Option.isNone_iff_eq_none] at hdup
      exact hdup

theorem newTransitionOf_cases (name : String) (kind : NodeKind) (net : Net) :
    (name ≠ "" ∧ net.findTransition? name = none
        ∧ newTransitionOf name kind net
          = .ok net.freshTransition (net.appendTransition name kind))
      ∨ (∃ t, net.findTransition? name = some t ∧ newTransitionOf name kind net = .ok t net)
      ∨ ∃ e, newTransitionOf name kind net = .error e net := by
  unfold newTransitionOf
  by_cases hname : name = ""
  · exact .inr (.inr ⟨_, if_pos hname⟩)
  · rw [if_neg hname]
    cases hf : net.transitionNames.get? name with
    | some t => exact .inr (.inl ⟨t, hf, rfl⟩)
    | none => exact .inl ⟨hname, hf, rfl⟩

/-- An endpoint is a live place or a transition, or it is refused. -/
theorem locate_cases (hn : net.NamesAgree) (e : Endpoint) :
    (∃ id p, net.place? id = some p ∧ locate e net = .ok (.place id) net)
      ∨ (∃ t tr, net.transition? t = some tr ∧ locate e net = .ok (.transition t) net)
      ∨ ∃ err, locate e net = .error err net := by
  cases e with
  | place ref =>
    cases hr : net.resolve? ref with
    | some id =>
      obtain ⟨p, hp⟩ := live_of_resolve hn hr
      refine .inl ⟨id, p, hp, ?_⟩
      simp only [locate, locatePlace, bind, EStateM.bind, hr]
      rfl
    | none =>
      refine .inr (.inr ⟨.missingPlace ref.describe, ?_⟩)
      simp only [locate, locatePlace, bind, EStateM.bind, hr]
  | transition t =>
    unfold locate
    by_cases ht : t.index < net.transitions.length
    · refine .inr (.inl ⟨t, net.transitions[t.index], ?_, if_pos ht⟩)
      exact List.getElem?_eq_getElem ht
    · exact .inr (.inr ⟨_, if_neg ht⟩)

/-- An arc is drawn between a place and a transition, or refused. -/
theorem newArc_cases (hn : net.NamesAgree) (source target : Endpoint) :
    (∃ (flow : ArcKind) (p : PlaceId) (place : Place) (t : TransitionId) (tr : Transition),
        net.place? p = some place ∧ net.transition? t = some tr
          ∧ newArc source target net = .ok () (net.connect (flow.arc p t)))
      ∨ ∃ e, newArc source target net = .error e net := by
  obtain ⟨p, place, hp, hs⟩ | ⟨t, tr, ht, hs⟩ | ⟨e, hs⟩ := locate_cases hn source
  · obtain ⟨q, place', hq, ht⟩ | ⟨t, tr, htr, ht⟩ | ⟨e, ht⟩ := locate_cases hn target
    · refine .inr ⟨.placeToPlace ((net.placeName? p).getD "") ((net.placeName? q).getD ""), ?_⟩
      simp only [newArc, bind, EStateM.bind, hs, ht]
    · refine .inl ⟨.consumes, p, place, t, tr, hp, htr, ?_⟩
      simp only [newArc, bind, EStateM.bind, hs, ht, ArcKind.arc]
    · refine .inr ⟨e, ?_⟩
      simp only [newArc, bind, EStateM.bind, hs, ht]
  · obtain ⟨q, place', hq, ht'⟩ | ⟨u, tr', htr, ht'⟩ | ⟨e, ht'⟩ := locate_cases hn target
    · refine .inl ⟨.produces, q, place', t, tr, hq, ht, ?_⟩
      simp only [newArc, bind, EStateM.bind, hs, ht', ArcKind.arc]
    · refine .inr ⟨.transitionToTransition ((net.nodeName? (.transition t)).getD "")
        ((net.nodeName? (.transition u)).getD ""), ?_⟩
      simp only [newArc, bind, EStateM.bind, hs, ht']
    · refine .inr ⟨e, ?_⟩
      simp only [newArc, bind, EStateM.bind, hs, ht']
  · refine .inr ⟨e, ?_⟩
    simp only [newArc, bind, EStateM.bind, hs]

/-- A live place is removed, or nothing changes. -/
theorem remove_cases (hn : net.NamesAgree) (ref : PlaceRef) :
    (∃ id p, net.resolve? ref = some id ∧ net.place? id = some p
        ∧ remove ref net
          = .ok () { net.without id .removed with
              finalSets := net.finalSets.map (fun set => set.erase id) })
      ∨ (net.resolve? ref = none ∧ remove ref net = .ok () net) := by
  cases hr : net.resolve? ref with
  | none =>
    refine .inr ⟨rfl, ?_⟩
    simp only [remove, hr]
  | some id =>
    obtain ⟨p, hp⟩ := live_of_resolve hn hr
    refine .inl ⟨id, p, rfl, hp, ?_⟩
    simp only [remove, hr, detach_eq _ hp, finalSets_without hp]

/-- Looking up a list of references does not change the net. -/
theorem mapM_locatePlace_cases (hn : net.NamesAgree) (refs : List PlaceRef) :
    (∃ ids, (∀ id ∈ ids, ∃ p, net.place? id = some p)
        ∧ refs.mapM locatePlace net = .ok ids net)
      ∨ ∃ e, refs.mapM locatePlace net = .error e net := by
  induction refs with
  | nil => exact .inl ⟨[], by simp, rfl⟩
  | cons ref refs ih =>
    rw [List.mapM_cons]
    cases hr : net.resolve? ref with
    | none =>
      refine .inr ⟨.missingPlace ref.describe, Build.bind_error ?_⟩
      simp only [locatePlace, hr]
    | some id =>
      obtain ⟨p, hp⟩ := live_of_resolve hn hr
      have hl : locatePlace ref net = .ok id net := by simp only [locatePlace, hr]
      rw [Build.bind_ok hl]
      obtain ⟨ids, hids, hm⟩ | ⟨e, hm⟩ := ih
      · refine .inl ⟨id :: ids, ?_, Build.bind_ok hm⟩
        intro x hx
        rcases List.mem_cons.1 hx with rfl | hx
        · exact ⟨p, hp⟩
        · exact hids x hx
      · exact .inr ⟨e, Build.bind_error hm⟩

/-- Flags some places as final. -/
def flagAll (net : Net) (ids : List PlaceId) : Net :=
  ids.foldl (fun net id => net.modifyPlace id (fun x => { x with isFinal := true })) net

theorem addFinalSet_cases (hn : net.NamesAgree) (refs : List PlaceRef) :
    (∃ set : OrderedSet PlaceId, set.isEmpty = false ∧ (∀ id ∈ set, ∃ p, net.place? id = some p)
        ∧ addFinalSet refs net
          = .ok () { net.flagAll set.toList with
              finalSets := (net.flagAll set.toList).finalSets ++ [set] })
      ∨ ∃ e, addFinalSet refs net = .error e net := by
  obtain ⟨ids, hids, hm⟩ | ⟨e, hm⟩ := mapM_locatePlace_cases hn refs
  · have hadd := Build.bind_ok (f := fun ids =>
      let set := OrderedSet.ofList ids
      if set.isEmpty then throw .emptyFinalSet
      else
        modify fun net =>
          { net.flagAll set.toList with
            finalSets := (net.flagAll set.toList).finalSets ++ [set] }) hm
    by_cases hset : (OrderedSet.ofList ids).isEmpty
    · refine .inr ⟨.emptyFinalSet, hadd.trans ?_⟩
      simp only [hset, if_true]
      rfl
    · refine .inl ⟨OrderedSet.ofList ids, by simpa using hset, ?_, hadd.trans ?_⟩
      · intro id hid
        exact hids id (OrderedSet.mem_ofList.1 hid)
      · simp only [hset]
        rfl
  · exact .inr ⟨e, Build.bind_error hm⟩

theorem setTokens_ok {ref : PlaceRef} {id : PlaceId} (hr : net.resolve? ref = some id)
    (tokens : Nat) :
    setTokens ref tokens net = .ok () (net.modifyPlace id (fun x => { x with tokens })) := by
  simp only [setTokens, locatePlace, bind, EStateM.bind, hr]
  rfl

theorem setTokens_cases (ref : PlaceRef) (tokens : Nat) (net : Net) :
    (∃ id, net.resolve? ref = some id
        ∧ setTokens ref tokens net = .ok () (net.modifyPlace id (fun x => { x with tokens })))
      ∨ ∃ e, setTokens ref tokens net = .error e net := by
  cases hr : net.resolve? ref with
  | none =>
    refine .inr ⟨.missingPlace ref.describe, ?_⟩
    simp only [setTokens, locatePlace, bind, EStateM.bind, hr]
  | some id => exact .inl ⟨id, rfl, setTokens_ok hr tokens⟩

/-! ## What a step keeps -/

/-- The final sets stay right when the same places are live and flagged. -/
theorem FinalsAgree.congr {net net' : Net} (h : net.FinalsAgree)
    (hsets : net'.finalSets = net.finalSets)
    (hp : ∀ id, (net'.place? id).map Place.isFinal = (net.place? id).map Place.isFinal) :
    net'.FinalsAgree := by
  constructor
  · intro set hset id hid
    rw [hsets] at hset
    obtain ⟨p, hp₀⟩ := h.live hset hid
    have hid' := hp id
    rw [hp₀, Option.map_some] at hid'
    obtain ⟨q, hq, -⟩ := Option.map_eq_some_iff.1 hid'
    exact ⟨q, hq⟩
  · intro id p hp'
    have hid' := hp id
    rw [hp', Option.map_some] at hid'
    obtain ⟨q, hq, he⟩ := Option.map_eq_some_iff.1 hid'.symm
    rw [hsets, ← he]
    exact h.flagged hq

/-- A new place with fresh names keeps a net well formed. -/
theorem WellFormed.addPlace {place : Place} (h : net.WellFormed) (hpre : place.preset = ∅)
    (hpost : place.postset = ∅) (hfinal : place.isFinal = false)
    (hname : place.name ∈ place.history) (hfresh : ∀ n ∈ place.history, net.find? n = none) :
    (net.addPlace place).WellFormed where
  toCoherent := h.toCoherent.addPlace hpre hpost hname hfresh
  live := by
    intro set hset id hid
    rw [finalSets_addPlace] at hset
    obtain ⟨p, hp⟩ := h.live hset hid
    rw [place?_addPlace, if_neg (net.ne_freshPlace hp)]
    exact ⟨p, hp⟩
  flagged := by
    intro id p hp
    rw [place?_addPlace] at hp
    rw [finalSets_addPlace]
    by_cases hid : id = net.freshPlace
    · rw [if_pos hid] at hp
      rw [← Option.some.inj hp, hfinal]
      simp only [Bool.false_eq_true, false_iff]
      rintro ⟨set, hset, hmem⟩
      obtain ⟨q, hq⟩ := h.live hset hmem
      exact net.ne_freshPlace hq hid
    · rw [if_neg hid] at hp
      exact h.flagged hp

/-- A fresh place under a new name. -/
theorem WellFormed.newPlace {name : String} (kind : NodeKind) (h : net.WellFormed)
    (hfresh : net.find? name = none) : (net.addPlace (.ofName name kind)).WellFormed := by
  refine h.addPlace rfl rfl rfl ?_ ?_
  · simp [Place.name, Place.ofName, OrderedSet.newest?, OrderedSet.mem_def]
  · intro n hn
    rw [List.mem_singleton.1 hn, hfresh]

/-- A new transition with a fresh name keeps a net well formed. -/
theorem WellFormed.appendTransition {name : String} {kind : NodeKind} (h : net.WellFormed)
    (hname : name ≠ "") (hfresh : net.findTransition? name = none) :
    (net.appendTransition name kind).WellFormed where
  toCoherent := h.toCoherent.appendTransition hname hfresh
  live := h.live
  flagged := h.flagged

/-- A new arc keeps a net well formed. -/
theorem WellFormed.connect {p : PlaceId} {t : TransitionId} {place : Place} {tr : Transition}
    (h : net.WellFormed) (flow : ArcKind) (hp : net.place? p = some place)
    (ht : net.transition? t = some tr) : (net.connect (flow.arc p t)).WellFormed where
  toCoherent := h.toCoherent.connect hp ht
  toFinalsAgree := h.toFinalsAgree.congr (finalSets_connect net _)
    (map_place?_connect net flow p t fun f q => (ArcKind.onPlace_keeps f q _).2.2.2)

/-- Removing a place keeps a net well formed. -/
theorem WellFormed.removed {id : PlaceId} {p : Place} (h : net.WellFormed)
    (hp : net.place? id = some p) :
    WellFormed { net.without id .removed with
      finalSets := net.finalSets.map (fun set => set.erase id) } := by
  have hplace (x : PlaceId) :
      (net.without id .removed).place? x = if x = id then none else net.place? x :=
    place?_without hp (by simp) x
  exact {
    toCoherent := (h.toCoherent.without hp (by simp)).setFinals _
    live := by
      intro set hset x hx
      obtain ⟨set₀, hset₀, rfl⟩ := List.mem_map.1 hset
      obtain ⟨hx₀, hne⟩ := OrderedSet.mem_erase.1 hx
      obtain ⟨q, hq⟩ := h.live hset₀ hx₀
      exact ⟨q, (hplace x).trans ((if_neg hne).trans hq)⟩
    flagged := by
      intro x q hq
      have hq' := (hplace x).symm.trans hq
      split at hq'
      · cases hq'
      · rename_i hne
        rw [h.flagged hq']
        constructor
        · rintro ⟨set, hset, hmem⟩
          exact ⟨set.erase id, List.mem_map_of_mem hset, OrderedSet.mem_erase.2 ⟨hmem, hne⟩⟩
        · rintro ⟨set, hset, hmem⟩
          obtain ⟨set₀, hset₀, rfl⟩ := List.mem_map.1 hset
          exact ⟨set₀, hset₀, (OrderedSet.mem_erase.1 hmem).1⟩ }

theorem place?_flagAll (ids : List PlaceId) (x : PlaceId) :
    (net.flagAll ids).place? x
      = if x ∈ ids then (net.place? x).map (fun p => { p with isFinal := true })
        else net.place? x := by
  induction ids generalizing net with
  | nil => simp [flagAll]
  | cons id ids ih =>
    have hstep : net.flagAll (id :: ids)
        = (net.modifyPlace id (fun p => { p with isFinal := true })).flagAll ids := rfl
    rw [hstep, ih, place?_modifyPlace]
    by_cases hx : x = id
    · cases net.place? x <;> simp [hx]
    · simp [hx]

theorem finalSets_flagAll (ids : List PlaceId) :
    (net.flagAll ids).finalSets = net.finalSets :=
  foldl_keeps (·.finalSets) (fun net id => finalSets_modifyPlace net id _) ids net

theorem Coherent.flagAll (h : net.Coherent) (ids : List PlaceId) : (net.flagAll ids).Coherent := by
  induction ids generalizing net with
  | nil => exact h
  | cons id ids ih =>
    exact ih (h.modifyPlace id (fun _ => rfl) (fun _ => rfl) (fun _ => rfl) fun _ => rfl)

/-- A new final set of live places keeps a net well formed. -/
theorem WellFormed.addFinalSet {set : OrderedSet PlaceId} (h : net.WellFormed)
    (hset : ∀ id ∈ set, ∃ p, net.place? id = some p) :
    WellFormed { net.flagAll set.toList with
      finalSets := (net.flagAll set.toList).finalSets ++ [set] } := by
  have hplace (x : PlaceId) : (net.flagAll set.toList).place? x
      = if x ∈ set then (net.place? x).map (fun p => { p with isFinal := true })
        else net.place? x := place?_flagAll set.toList x
  have hsets : (net.flagAll set.toList).finalSets ++ [set] = net.finalSets ++ [set] := by
    rw [finalSets_flagAll]
  exact {
    toCoherent := (h.toCoherent.flagAll set.toList).setFinals _
    live := by
      intro s hs x hx
      rw [hsets, List.mem_append, List.mem_singleton] at hs
      obtain ⟨p, hp⟩ : ∃ p, net.place? x = some p := by
        rcases hs with hs | rfl
        · exact h.live hs hx
        · exact hset x hx
      have hx' := hplace x
      rw [hp] at hx'
      split at hx'
      · exact ⟨_, hx'⟩
      · exact ⟨p, hx'⟩
    flagged := by
      intro x q hq
      have hq' := (hplace x).symm.trans hq
      rw [hsets]
      by_cases hx : x ∈ set
      · rw [if_pos hx] at hq'
        obtain ⟨p, -, rfl⟩ := Option.map_eq_some_iff.1 hq'
        simp only [true_iff]
        exact ⟨set, by simp, hx⟩
      · rw [if_neg hx] at hq'
        rw [h.flagged hq']
        constructor
        · rintro ⟨s, hs, hmem⟩
          exact ⟨s, List.mem_append_left _ hs, hmem⟩
        · rintro ⟨s, hs, hmem⟩
          rw [List.mem_append, List.mem_singleton] at hs
          rcases hs with hs | rfl
          · exact ⟨s, hs, hmem⟩
          · exact absurd hmem hx }

/-- Tokens do not matter for well-formedness. -/
theorem WellFormed.setTokens (h : net.WellFormed) (id : PlaceId) (tokens : Nat) :
    (net.modifyPlace id (fun x => { x with tokens })).WellFormed where
  toCoherent := h.toCoherent.modifyPlace id (fun _ => rfl) (fun _ => rfl) (fun _ => rfl)
    fun _ => rfl
  toFinalsAgree := h.toFinalsAgree.congr (finalSets_modifyPlace net id _)
    (map_place?_modifyPlace net id _ fun _ => rfl)

/-- Ports and numbers have no part in it. -/
theorem WellFormed.relabel (h : net.WellFormed) (ports : OrderedMap String (OrderedSet String))
    (scope : Nat) : WellFormed { net with ports, scope } where
  find := h.find
  current := h.current
  listed := h.listed
  bipartite := h.bipartite
  consumes_place := h.consumes_place
  consumes_transition := h.consumes_transition
  produces_place := h.produces_place
  produces_transition := h.produces_transition
  named := h.named
  indexed := h.indexed
  live := h.live
  flagged := h.flagged

/-! ## Calls and runs -/

/-- What one call can make of a net. -/
inductive Change (net : Net) : Net → Prop where
  /-- Nothing. -/
  | same : Change net net
  /-- A place more. -/
  | place {name : String} (kind : NodeKind) :
    net.find? name = none → Change net (net.addPlace (.ofName name kind))
  /-- A transition more. -/
  | transition {name : String} (kind : NodeKind) :
    name ≠ "" → net.findTransition? name = none → Change net (net.appendTransition name kind)
  /-- An arc from a place more. -/
  | consumes {p : PlaceId} {place : Place} {t : TransitionId} {tr : Transition} :
    net.place? p = some place → net.transition? t = some tr →
      Change net (net.connect (.consumes p t))
  /-- An arc to a place more. -/
  | produces {p : PlaceId} {place : Place} {t : TransitionId} {tr : Transition} :
    net.place? p = some place → net.transition? t = some tr →
      Change net (net.connect (.produces t p))
  /-- One place where there were two. -/
  | merged {a b : PlaceId} {kind : NodeKind} {first second : Place} :
    net.Mergeable a b kind first second → Change net (net.unify kind a b first second)
  /-- A place less. -/
  | removed {id : PlaceId} {p : Place} :
    net.place? id = some p →
      Change net { net.without id .removed with
        finalSets := net.finalSets.map (fun set => set.erase id) }
  /-- A final set more. -/
  | finals {set : OrderedSet PlaceId} :
    (∀ id ∈ set, ∃ p, net.place? id = some p) →
      Change net { net.flagAll set.toList with
        finalSets := (net.flagAll set.toList).finalSets ++ [set] }
  /-- Other tokens on a place. -/
  | tokens (id : PlaceId) (count : UInt32) :
    Change net (net.modifyPlace id (fun x => { x with tokens := count.toNat }))
  /-- Other ports, another number. -/
  | labels (ports : OrderedMap String (OrderedSet String)) (scope : Nat) :
    Change net { net with ports, scope }

theorem Change.of_ok {α : Type} {b : Build α} {a : α} {net' : Net} (hb : b net = .ok a net')
    (h : net.Change net') : net.Change (b.after net) := by
  unfold Build.after
  rwa [hb]

theorem Change.of_error {α : Type} {b : Build α} (hb : ∃ e, b net = .error e net) :
    net.Change (b.after net) := by
  obtain ⟨e, he⟩ := hb
  unfold Build.after
  rw [he]
  exact .same

/-- A call makes one of the changes. -/
theorem change_apply (hn : net.NamesAgree) (call : Call) : net.Change (call.apply net) := by
  cases call with
  | newPlace name kind =>
    obtain ⟨-, hfresh, ho⟩ | he := newPlace_cases name kind net
    · exact .of_ok ho (.place kind hfresh)
    · exact .of_error he
  | newTransition name kind =>
    obtain ⟨hname, hfresh, ho⟩ | ⟨t, -, ho⟩ | he := newTransitionOf_cases name kind net
    · exact .of_ok ho (.transition kind hname hfresh)
    · exact .of_ok ho .same
    · exact .of_error he
  | newArc source target =>
    obtain ⟨_ | _, p, place, t, tr, hp, ht, ho⟩ | he := newArc_cases hn source target
    · exact .of_ok ho (.consumes hp ht)
    · exact .of_ok ho (.produces hp ht)
    · exact .of_error he
  | merge p q =>
    obtain ⟨a, -, -, ho⟩ | ⟨a, b, kind, first, second, -, -, hm, ho⟩ | he := merge_cases hn p q
    · exact .of_ok ho .same
    · exact .of_ok ho (.merged hm)
    · exact .of_error he
  | remove ref =>
    obtain ⟨id, p, -, hp, ho⟩ | ⟨-, ho⟩ := remove_cases hn ref
    · exact .of_ok ho (.removed hp)
    · exact .of_ok ho .same
  | addFinalSet refs =>
    obtain ⟨set, -, hset, ho⟩ | he := addFinalSet_cases hn refs
    · exact .of_ok ho (.finals hset)
    · exact .of_error he
  | setTokens ref tokens =>
    obtain ⟨id, -, ho⟩ | he := setTokens_cases ref tokens.toNat net
    · exact .of_ok ho (.tokens id tokens)
    · exact .of_error he
  | addPort port name => exact .labels _ _
  | nextScope => exact .labels _ _

/-- Every change keeps a net well formed. -/
theorem WellFormed.change {net' : Net} (h : net.WellFormed) (hc : net.Change net') :
    net'.WellFormed := by
  cases hc with
  | same => exact h
  | place kind hfresh => exact h.newPlace kind hfresh
  | transition kind hname hfresh => exact h.appendTransition hname hfresh
  | consumes hp ht => exact h.connect .consumes hp ht
  | produces hp ht => exact h.connect .produces hp ht
  | merged hm => exact hm.wellFormed_unify h
  | removed hp => exact h.removed hp
  | finals hset => exact h.addFinalSet hset
  | tokens id count => exact h.setTokens id count.toNat
  | labels ports scope => exact h.relabel ports scope

theorem run_append_singleton (calls : List Call) (call : Call) :
    run (calls ++ [call]) = call.apply (run calls) := by
  unfold run
  rw [List.foldl_append]
  rfl

/-- A property of well-formed nets that the empty net has and every change
keeps holds after any run. -/
theorem run_induction {P : Net → Prop} (hempty : P empty)
    (hstep : ∀ net net' : Net, net.WellFormed → P net → net.Change net' → P net')
    (calls : List Call) : P (run calls) := by
  have key : ∀ net : Net, net.WellFormed → P net →
      P (calls.foldl (fun net call => call.apply net) net) := by
    induction calls with
    | nil => exact fun _ _ h => h
    | cons call calls ih =>
      intro net hw h
      have hc := change_apply hw.toNamesAgree call
      exact ih _ (hw.change hc) (hstep net _ hw h hc)
  exact key empty wellFormed_empty hempty

/-- After any run the net is well formed. -/
theorem wellFormed_run (calls : List Call) : (run calls).WellFormed :=
  run_induction wellFormed_empty (fun _ _ hw _ hc => hw.change hc) calls

/-! ## Tokens -/

/-- Does every place hold a number of tokens that fits in a word? -/
def TokensFit (net : Net) : Prop := ∀ id p, net.place? id = some p → p.tokens < UInt32.size

theorem TokensFit.congr {net net' : Net} (h : net.TokensFit)
    (hp : ∀ id, (net'.place? id).map Place.tokens = (net.place? id).map Place.tokens) :
    net'.TokensFit := by
  intro id p hp'
  have hid := hp id
  rw [hp', Option.map_some] at hid
  obtain ⟨q, hq, he⟩ := Option.map_eq_some_iff.1 hid.symm
  rw [← he]
  exact h id q hq

/-- The larger of two numbers that fit fits, and no other change makes a new number. -/
theorem TokensFit.change {net' : Net} (h : net.TokensFit) (hc : net.Change net') :
    net'.TokensFit := by
  cases hc with
  | same => exact h
  | place kind hfresh =>
    intro id p hp
    rw [place?_addPlace] at hp
    split at hp
    · rw [← Option.some.inj hp]
      exact Nat.two_pow_pos 32
    · exact h id p hp
  | transition kind hname hfresh => exact h
  | consumes hp ht =>
    exact h.congr
      (map_place?_connect net .consumes _ _ fun f q => (ArcKind.onPlace_keeps f q _).2.2.1)
  | produces hp ht =>
    exact h.congr
      (map_place?_connect net .produces _ _ fun f q => (ArcKind.onPlace_keeps f q _).2.2.1)
  | @merged a b kind first second hm =>
    intro id p hp
    rcases hm.place?_unify_cases hp with ⟨-, rfl⟩ | ⟨-, hp⟩
    · exact Nat.max_lt.2 ⟨h a first hm.left, h b second hm.right⟩
    · exact h id p hp
  | removed hp =>
    intro x q hq
    have hq' := (place?_without hp (by simp) x).symm.trans hq
    split at hq'
    · cases hq'
    · exact h x q hq'
  | @finals set hset =>
    refine h.congr fun x => ?_
    refine (congrArg (Option.map Place.tokens) (place?_flagAll set.toList x)).trans ?_
    split <;> cases net.place? x <;> rfl
  | tokens id count =>
    intro x q hq
    rw [place?_modifyPlace] at hq
    split at hq
    · obtain ⟨p, -, rfl⟩ := Option.map_eq_some_iff.1 hq
      exact count.toNat_lt_size
    · exact h x q hq
  | labels ports scope => exact h

/-- After any run every number of tokens fits in a word. -/
theorem tokensFit_run (calls : List Call) : (run calls).TokensFit :=
  run_induction (fun id p hp => by simp [place?, empty] at hp) (fun _ _ _ h hc => h.change hc) calls

end Net

end OpenWorkflow
