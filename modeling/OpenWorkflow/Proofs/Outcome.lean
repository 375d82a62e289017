import OpenWorkflow.Compile
import OpenWorkflow.Proofs.Fragment.Containment
import OpenWorkflow.Proofs.Net.Consistency

/-!
# How compilation ends

An activity whose edges, initial states and targets all lead to places has a net
if and only if no fragment of it gives a name twice, and a name given twice is
the only reason for which it can have none (`compile_anchored`). They do where
they name nodes and states (`compile_outcome`).

The net is drawn by the fragment, inside the two boundary places, and by the merges
that tie the fragment in (`bounded_ends`). If the construction stops, it does so
where a name is given again (`Net.Stops.duplicate`).
-/

namespace OpenWorkflow

variable {root : Activity}

namespace Net

/-! ## The boundary places -/

/-- The two boundary places, the first of which is marked and the second final. -/
def outer : Net :=
  Build.after (do
    let scope ← Scope.enter
    Net.setTokens scope.initialized 1
    Net.addFinalSet [PlaceRef.named scope.closed] : Build Unit) Net.empty

/-- A net is built between the two boundary places. -/
theorem bounded_outer (root : Activity) : bounded root Net.empty = (do
    let _ ← Fragment.splice root.fragment (Scope.initialized ⟨0⟩) (Scope.closed ⟨0⟩)) outer := by
  have henter : Scope.enter Net.empty = .ok ⟨0⟩ (Scope.enter.after Net.empty) := rfl
  unfold bounded outer
  rw [Build.bind_ok henter]
  rfl

/-- The net that the fragment between the boundary places begins with. -/
def inside : Net := { outer with scope := outer.scope + 1 }

/-- No name with the net's number or a later one is in use. -/
structure Ready (net : Net) : Prop where
  wellFormed : net.WellFormed
  place : ∀ {k x}, net.scope ≤ k → net.find? (Scope.name ⟨k⟩ x) = none
  transition : ∀ {k x}, net.scope ≤ k → net.findTransition? (Scope.name ⟨k⟩ x) = none

theorem wellFormed_outer : outer.WellFormed :=
  wellFormed_run [.newPlace (Scope.initialized ⟨0⟩) .internal,
    .newPlace (Scope.closed ⟨0⟩) .internal, .setTokens (.named (Scope.initialized ⟨0⟩)) 1,
    .addFinalSet [.named (Scope.closed ⟨0⟩)]]

/-- A fragment can be built between the boundary places. -/
theorem ready_inside : inside.Ready where
  wellFormed := wellFormed_outer.relabel outer.ports _
  place {k x} hk := by
    have hnames : inside.names = ((∅ : OrderedMap String PlaceId).insert
        (Scope.initialized ⟨0⟩) ⟨0⟩).insert (Scope.closed ⟨0⟩) ⟨1⟩ := rfl
    have hne (y : String) : Scope.name ⟨k⟩ x ≠ Scope.name ⟨0⟩ y := by
      intro heq
      have hid : k = 0 := congrArg Scope.id (Scope.name_inj.1 heq).1
      exact Nat.not_succ_le_zero _ (Nat.le_trans hk (Nat.le_of_eq hid))
    simp [find?, hnames, OrderedMap.get?_insert, hne, Scope.initialized, Scope.closed]
  transition _ := rfl

/-- Both boundary places are internal. -/
theorem leadsInside_outer {n : String} (hn : n = Scope.initialized ⟨0⟩ ∨ n = Scope.closed ⟨0⟩) :
    outer.LeadsInside n := by
  rcases hn with rfl | rfl
  · exact ⟨⟨0⟩, rfl, _, rfl, rfl⟩
  · exact ⟨⟨1⟩, rfl, _, rfl, rfl⟩

end Net

/-! ## The whole net -/

/-- The construction of an activity between the boundary places draws the activity and the two
joins that tie it in, or it stops. -/
theorem bounded_ends (loose : Prop) (hanchored : ¬ loose → ∀ b ∈ root.walk, b.Anchored) :
    (bounded root).Ends Net.empty
      (fun _ net => Net.outer.Traced
        (Activity.spliceLines (Scope.initialized ⟨0⟩) (Scope.closed ⟨0⟩) ⟨1⟩
          ++ root.drawing 1) net)
      (Net.outer.Stops loose
        (Activity.spliceLines (Scope.initialized ⟨0⟩) (Scope.closed ⟨0⟩) ⟨1⟩)
        (root.drawing 1)) := by
  have hsplice : Draws loose [.inside (Scope.initialized ⟨0⟩), .inside (Scope.closed ⟨0⟩)] 0
      (Fragment.splice root.fragment (Scope.initialized ⟨0⟩) (Scope.closed ⟨0⟩) >>= fun _ =>
        pure ()) [root] _ fun _ => True :=
    .discard (.splice (by simp) (by simp))
  have hinside (n : String) (hn : n = Scope.initialized ⟨0⟩ ∨ n = Scope.closed ⟨0⟩) :
      Net.outer.Has loose (.inside n) := fun _ => Net.leadsInside_outer hn
  have hends := hsplice Net.outer Net.wellFormed_outer (by decide +kernel)
    (by simp [hinside]) (List.forall_mem_singleton.2 (root.drawn hanchored))
  rw [Nat.zero_add, List.flatMap_singleton] at hends
  unfold Build.Ends
  rw [Net.bounded_outer]
  exact hends.imp (fun _ _ h => h.1.traced) fun _ _ h => h

/-- If all links lead somewhere, the construction stops where a name is given again. -/
theorem Net.Stops.duplicate {net net' : Net} {L M : List Line} {e : NetError}
    (h : net.Stops False L M e net') (hw : net.WellFormed)
    (hclear : ∀ n kind, .place n kind ∈ L ++ M → n ≠ "" ∧ (Line.place n kind).Clear net)
    (hnamed : ∀ t kind, .transition t kind ∈ L ++ M → t ≠ "") :
    ¬ (internals (L ++ M)).Nodup ∧ ∃ n, e = .duplicatePlace n := by
  obtain ⟨l, drawn, rest, htraced, hrefuses, hlines, -⟩ := h
  have hl : l ∈ L ++ M := hlines.mem_iff.1 (List.mem_cons_self ..)
  cases hrefuses with
  | link h => exact h.elim
  | place => exact absurd rfl (hclear _ _ hl).1
  | transition => exact absurd rfl (hnamed _ _ hl)
  | @again n hknows =>
    refine ⟨fun hnodup => ?_, n, rfl⟩
    have hfresh := ((hclear _ _ hl).2.resolve_right fun h => h.1 rfl).2
    -- The place that was there has been drawn before, and it is no interface place.
    obtain ⟨kind, hmem⟩ :=
      ((htraced.knows_iff hw).1 hknows).resolve_left (by simp [Net.Knows, hfresh])
    have hdrawn := (hclear n kind (hlines.mem_iff.1 (by simp [hmem]))).2
    obtain ⟨rfl, -⟩ := hdrawn.resolve_right fun h => hfresh.2 h.2
    have hagain : (internals (.place n .internal :: (drawn ++ rest))).Nodup :=
      (hlines.filterMap _).nodup_iff.2 hnodup
    rw [internals_cons, internals_append] at hagain
    simp [mem_internals.2 hmem] at hagain

/-- **How compilation ends.** Where all links lead to places, an activity has a net exactly if no
fragment of it gives a name twice, and no other error can occur. -/
theorem compile_anchored (hlinks : ∀ b ∈ root.walk, b.Anchored) :
    ((∃ net, compile root = .ok net) ↔ root.Fine) ∧
      ∀ e, compile root = .error e → ∃ n, e = .net (.duplicatePlace n) := by
  have hends := bounded_ends False fun _ => hlinks
  have hclear (n : String) (kind : NodeKind) (hl : .place n kind ∈ Activity.spliceLines
      (Scope.initialized ⟨0⟩) (Scope.closed ⟨0⟩) ⟨1⟩ ++ root.drawing 1) :
      n ≠ "" ∧ (Line.place n kind).Clear Net.outer := by
    have hl : .place n kind ∈ root.drawing 1 := by simpa [Activity.spliceLines] using hl
    have hclear : (Line.place n kind).Clear Net.inside :=
      Activity.clear_drawing (fun _ _ => Net.ready_inside.place)
        (fun _ _ => Net.ready_inside.transition) hl
    refine ⟨?_, hclear⟩
    rintro rfl
    exact Activity.name_ne_empty.1 hl
  have hnamed (t : String) (kind : NodeKind) (hl : .transition t kind ∈ Activity.spliceLines
      (Scope.initialized ⟨0⟩) (Scope.closed ⟨0⟩) ⟨1⟩ ++ root.drawing 1) : t ≠ "" := by
    rintro rfl
    exact Activity.name_ne_empty.2 (by simpa [Activity.spliceLines] using hl)
  cases hrun : bounded root Net.empty with
  | error e net =>
    obtain ⟨hnot, n, rfl⟩ := (hends.error hrun).duplicate Net.wellFormed_outer hclear hnamed
    have herr : compile root = .error (.net (.duplicatePlace n)) := by
      simp only [compile, hrun]
    rw [herr]
    refine ⟨iff_of_false ?_ fun hfine => hnot ?_, ?_⟩
    · rintro ⟨net, h⟩
      cases h
    · exact Activity.nodup_internals_iff.2 hfine
    · rintro e ⟨⟩
      exact ⟨n, rfl⟩
  | ok _ net =>
    have htraced := hends.ok hrun
    have hok : compile root = .ok net := by
      simp only [compile, hrun, (htraced.wellFormed Net.wellFormed_outer).isConsistent, if_true]
    rw [hok]
    refine ⟨iff_of_true ⟨net, rfl⟩ ((Activity.nodup_internals_iff (k := 1)).1 ?_), ?_⟩
    · exact htraced.nodup_internals Net.wellFormed_outer
    · rintro e ⟨⟩

/-- Links that lead to nodes and states lead to places. -/
theorem Activity.Links.anchored {a : Activity} (h : a.Links) : a.Anchored := by
  cases a with
  | flowchart start nodes =>
    have h : FlowLinked start nodes := h
    cases start with
    | none => exact fun _ hx => absurd hx List.not_mem_nil
    | some start =>
      have hnode {id : String} (hid : id ∈ nodes.map FlowNode.id) :
          id ++ "." ++ "start" ∈ nodes.flatMap FlowNode.places := by
        obtain ⟨n, hn, rfl⟩ := List.mem_map.1 hid
        exact List.mem_flatMap.2 ⟨n, hn, FlowNode.start_mem_places n⟩
      intro x hx
      obtain ⟨id, hid, rfl⟩ := List.mem_map.1 hx
      refine List.mem_cons_of_mem _ (List.mem_cons_of_mem _ (hnode ?_))
      rcases List.mem_cons.1 hid with rfl | hid
      · exact h.start _ rfl
      · obtain ⟨n, hn, hid⟩ := List.mem_flatMap.1 hid
        exact h.targets n hn id hid
  | stateMachine initial states triggers =>
    have h : MachineLinked initial states := h
    have hstate {id : String} (hid : id ∈ states.map State.id) :
        id ++ ".initialized" ∈ states.flatMap State.places := by
      obtain ⟨st, hst, rfl⟩ := List.mem_map.1 hid
      exact List.mem_flatMap.2 ⟨st, hst, State.initialized_mem_places st⟩
    intro x hx
    obtain ⟨id, hid, rfl⟩ := List.mem_map.1 hx
    refine List.mem_cons_of_mem _ (List.mem_cons_of_mem _ (hstate ?_))
    rcases List.mem_append.1 hid with hid | hid
    · exact h.initial id (Option.mem_toList.1 hid)
    · obtain ⟨st, hst, hid⟩ := List.mem_flatMap.1 hid
      obtain ⟨t, ht, rfl⟩ := List.mem_map.1 hid
      exact h.targets st (List.mem_filter.1 hst).1 t ht
  | _ => exact fun _ hx => absurd hx List.not_mem_nil

/-- Where all links lead to nodes and states, a name given twice is the only thing that can go
wrong. -/
theorem compile_outcome (hlinks : ∀ b ∈ root.walk, b.Links) :
    ((∃ net, compile root = .ok net) ↔ root.Fine) ∧
      ∀ e, compile root = .error e → ∃ n, e = .net (.duplicatePlace n) :=
  compile_anchored fun b hb => (hlinks b hb).anchored

end OpenWorkflow
