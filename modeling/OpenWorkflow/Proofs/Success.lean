import OpenWorkflow.Proofs.Drawing.Census

/-!
# Which activities have a net

An activity has a net exactly if none of its fragments gives a name twice and the
links of its graphs lead to places (`compile_ok_iff`). That this is enough is how
compilation ends (`compile_anchored`); that it is needed can be read off the net.
A fragment that has been built has given no name twice, and every link of a graph
is drawn as a join (`Activity.joins_mem_lines`), both sides of which are in the
net.

The condition does not depend on the order in which the parts of an activity are
declared.
-/

namespace OpenWorkflow

open Fragment.Flowchart (nodeName)

namespace Activity

/-! ## Links are joins -/

theorem joins_mem_edgeLines (s : Scope) {n : FlowNode Activity} {target : String}
    (h : target ∈ n.targets) : ∃ p, .joins p (nodeName s target "start") ∈ edgeLines s n := by
  have hcases (id : String) (i : Nat) (edges : List (Option String)) (h : some target ∈ edges) :
      ∃ p, .joins p (nodeName s target "start") ∈ caseEdgeLines s id i edges := by
    induction edges generalizing i with
    | nil => cases h
    | cons edge edges ih =>
      rcases List.mem_cons.1 h with rfl | h
      · exact ⟨_, List.mem_cons_self ..⟩
      · obtain ⟨p, hp⟩ := ih (i + 1) h
        exact ⟨p, List.mem_cons_of_mem _ hp⟩
  obtain ⟨edge, hedge, rfl⟩ := List.mem_filterMap.1 h
  cases n with
  | step id action next =>
    obtain rfl := List.mem_singleton.1 hedge
    exact ⟨_, List.mem_cons_self ..⟩
  | decision id onTrue onFalse =>
    rcases List.mem_pair.1 hedge with rfl | rfl
    · exact ⟨_, List.mem_cons_self ..⟩
    · exact ⟨_, List.mem_cons_of_mem _ (List.mem_cons_self ..)⟩
  | switch id fallback cases =>
    rcases List.mem_cons.1 hedge with rfl | hedge
    · exact ⟨_, List.mem_cons_self ..⟩
    · obtain ⟨p, hp⟩ := hcases id 1 cases hedge
      exact ⟨p, List.mem_cons_of_mem _ hp⟩

theorem joins_mem_targetLines (s : Scope) (id : String) (i : Nat)
    {ts : List (StateTransition Activity)} {t : StateTransition Activity} (ht : t ∈ ts) :
    ∃ p, .joins p (s.name (t.target ++ ".initialized")) ∈ targetLines s id i ts := by
  induction ts generalizing i with
  | nil => cases ht
  | cons t' ts ih =>
    rcases List.mem_cons.1 ht with rfl | ht
    · exact ⟨_, List.mem_cons_self ..⟩
    · obtain ⟨p, hp⟩ := ih (i + 1) ht
      exact ⟨p, List.mem_cons_of_mem _ hp⟩

/-- Each link of a graph is drawn as a join with the place that it leads to. -/
theorem joins_mem_lines {a : Activity} {x : String} (h : x ∈ a.linkNames) (k : Nat) :
    ∃ p, .joins p (Scope.name ⟨k⟩ x) ∈ a.lines k := by
  suffices hinner : ∃ p, .joins p (Scope.name ⟨k⟩ x) ∈ innerLines ⟨k⟩ a by
    obtain ⟨p, hp⟩ := hinner
    exact ⟨p, List.mem_append_right _ hp⟩
  cases a with
  | flowchart start nodes =>
    cases start with
    | none => cases h
    | some start =>
      obtain ⟨id, hid, rfl⟩ := List.mem_map.1 h
      rcases List.mem_cons.1 hid with rfl | hid
      · exact ⟨_, List.mem_append_right _ (List.mem_cons_self ..)⟩
      · obtain ⟨n, hn, hid⟩ := List.mem_flatMap.1 hid
        obtain ⟨p, hp⟩ := joins_mem_edgeLines ⟨k⟩ hid
        exact ⟨p, List.mem_append_right _
          (List.mem_cons_of_mem _ (List.mem_flatMap.2 ⟨n, hn, hp⟩))⟩
  | stateMachine initial states triggers =>
    obtain ⟨id, hid, rfl⟩ := List.mem_map.1 h
    rcases List.mem_append.1 hid with hid | hid
    · refine ⟨Scope.initialized ⟨k⟩, List.mem_append_left _ (List.mem_append_left _ ?_)⟩
      exact List.mem_append_right _ (List.mem_map.2 ⟨id, hid, rfl⟩)
    · obtain ⟨st, hst, hid⟩ := List.mem_flatMap.1 hid
      obtain ⟨t, ht, rfl⟩ := List.mem_map.1 hid
      obtain ⟨p, hp⟩ := joins_mem_targetLines ⟨k⟩ st.id 1 ht
      exact ⟨p, List.mem_append_right _ (List.mem_flatMap.2 ⟨st, hst, hp⟩)⟩
  | _ => cases h

/-- A place that is drawn under the number of a fragment is drawn by this fragment. -/
theorem place_mem_sheet {root b : Activity} {i : Nat} {x : String} {kind : NodeKind}
    (hb : root.walk[i]? = some b) (h : .place (Scope.name ⟨1 + i⟩ x) kind ∈ root.sheet) :
    x ∈ "initialized" :: "closed" :: b.places := by
  have hinternal : kind = .internal := by
    rcases place_cases h with ⟨hkind, -⟩ | ⟨s, m, -, heq, -⟩
    · exact hkind
    · exact absurd (heq ▸ isNumbered_name _ x) (m.not_isNumbered_placeName s)
  subst hinternal
  have howns := Scope.owns_name ⟨1 + i⟩ x
  rw [← mem_internals, internals_sheet, List.mem_append] at h
  rcases h with h | h
  · obtain ⟨i', b', hb', hl⟩ := mem_drawing.1 (mem_internals.1 h)
    have heq := howns.unique (owns_of_internal (mem_internals.2 hl))
    injection heq with heq
    obtain rfl : i = i' := by omega
    obtain rfl := Option.some.inj (hb.symm.trans hb')
    exact place_mem_lines.1 hl
  · have hend : Scope.IsEnd ⟨0⟩ (Scope.name ⟨1 + i⟩ x) := by simpa [Scope.IsEnd] using h
    have heq := howns.unique hend.owns
    injection heq with heq
    omega

end Activity

/-- An activity with a net gives no name twice. -/
theorem compile_fine {root : Activity} {net : Net} (h : compile root = .ok net) : root.Fine := by
  obtain ⟨inner, tied, hinner, -⟩ := compile_splices h
  exact Activity.fine_of_ok Net.ready_inside.wellFormed hinner

/-- **Which activities have a net.** These are the ones in which no fragment gives a name twice
and all links lead to places. -/
theorem compile_ok_iff {root : Activity} :
    (∃ net, compile root = .ok net) ↔ root.Fine ∧ ∀ b ∈ root.walk, b.Anchored := by
  constructor
  · rintro ⟨net, hok⟩
    refine ⟨compile_fine hok, fun b hb x hx => ?_⟩
    have hshows := compile_shows hok
    obtain ⟨i, hi⟩ := List.getElem?_of_mem hb
    obtain ⟨p, hp⟩ := Activity.joins_mem_lines hx (1 + i)
    have hjoins : .joins p (Scope.name ⟨1 + i⟩ x) ∈ root.sheet :=
      List.mem_cons_of_mem _ (List.mem_cons_of_mem _
        (List.mem_append_left _ (Activity.mem_drawing.2 ⟨i, b, hi, hp⟩)))
    obtain ⟨kind, hplace⟩ := hshows.known.1 (hshows.ties hjoins).2
    exact Activity.place_mem_sheet hi hplace
  · rintro ⟨hfine, hanchored⟩
    exact (compile_anchored hanchored).1.2 hfine

end OpenWorkflow
