import OpenWorkflow.Proofs.Drawing.Forest
import OpenWorkflow.Proofs.Interface

/-!
# Counting what is drawn

A net that shows a drawing has as many transitions as the drawing has lines for
them, provided that each is drawn once, and as many arcs, provided that no two
lines draw the same arc (`Net.Shows.length_transitions`, `Net.Shows.size_arcs`).
In the drawing of a structured activity this is so
(`Activity.nodup_drawnTransitions_sheet`, `Activity.eq_of_arcs`). Its internal places
are one for each root of the forest of joins, so there are as many as names less
joins (`Net.Shows.size_internal`).
-/

namespace OpenWorkflow

open Activity (starts endLines messageLines messageFlow)

variable {a : Activity} {as cs : List Activity} {k : Nat} {n t : String}

/-- A set and a list are as large if their members can be matched one by one. -/
theorem OrderedSet.size_eq_of_matching {α β : Type} {s : OrderedSet α} {ys : List β}
    {R : α → β → Prop} (hnodup : ys.Nodup) (hto : ∀ x ∈ s, ∃ y ∈ ys, R x y)
    (hfrom : ∀ y ∈ ys, ∃ x ∈ s, R x y) (hinj : ∀ x x' y, R x y → R x' y → x = x')
    (hinj' : ∀ x, ∀ y ∈ ys, ∀ y' ∈ ys, R x y → R x y' → y = y') : s.size = ys.length := by
  have hle : s.size ≤ OrderedSet.size ⟨ys, hnodup⟩ := size_le_of_matching hto hinj
  have hge : OrderedSet.size ⟨ys, hnodup⟩ ≤ s.size := by
    apply size_le_of_matching (R := fun y x => R x y ∧ y ∈ ys)
    · intro y hy
      obtain ⟨x, hx, hxy⟩ := hfrom y hy
      exact ⟨x, hx, hxy, hy⟩
    · rintro y y' x ⟨hxy, hy⟩ ⟨hxy', hy'⟩
      exact hinj' x y hy y' hy' hxy hxy'
  exact Nat.le_antisymm hle hge

/-! ## Nets that show a drawing -/

namespace Net.Shows

variable {net : Net} {L : List Line} (h : net.Shows L)
include h

/-- There is a transition for each line that puts one down. -/
theorem length_transitions (hnodup : (drawnTransitions L).Nodup) :
    net.transitions.length = (drawnTransitions L).length := by
  have hperm : (net.transitions.map Transition.name).Perm (drawnTransitions L) := by
    refine (List.perm_ext_iff_of_nodup h.wellFormed.nodup_names hnodup).2 fun t => ?_
    rw [mem_drawnTransitions, ← h.transition, Option.isSome_iff_exists, List.mem_map]
    constructor
    · rintro ⟨tr, htr, rfl⟩
      obtain ⟨i, hi⟩ := List.mem_iff_getElem?.1 htr
      exact ⟨⟨i⟩, h.wellFormed.indexed.2 ⟨tr, hi, rfl⟩⟩
    · rintro ⟨u, hu⟩
      obtain ⟨tr, htr, rfl⟩ := h.wellFormed.indexed.1 hu
      exact ⟨tr, List.mem_of_getElem? htr, rfl⟩
  rw [← hperm.length_eq, List.length_map]

/-- There is an arc for each line that draws one, if no two lines draw the same. -/
theorem size_arcs (hnodup : (drawnArcs L).Nodup)
    (hapart : ∀ flow n n' t, .arc flow n t ∈ L → .arc flow n' t ∈ L → Joined L n n' → n = n') :
    net.arcs.size = (drawnArcs L).length := by
  apply OrderedSet.size_eq_of_matching
    (R := fun arc x => ∃ p u, net.find? x.2.1 = some p ∧ net.findTransition? x.2.2 = some u ∧
      arc = x.1.arc p u) hnodup
  · intro arc harc
    obtain ⟨flow, p, u, rfl⟩ : ∃ (flow : ArcKind) (p : PlaceId) (u : TransitionId),
        arc = flow.arc p u := by
      rcases h.wellFormed.bipartite harc with ⟨p, u, rfl⟩ | ⟨u, p, rfl⟩
      · exact ⟨.consumes, p, u, rfl⟩
      · exact ⟨.produces, p, u, rfl⟩
    obtain ⟨n, t, hp, hu, hline⟩ := h.arc.1 harc
    exact ⟨(flow, n, t), mem_drawnArcs.2 hline, p, u, hp, hu, rfl⟩
  · rintro ⟨flow, n, t⟩ hx
    have hline := mem_drawnArcs.1 hx
    obtain ⟨hn, ht⟩ := h.ends hline
    obtain ⟨p, hp⟩ := knows_iff.1 hn
    obtain ⟨u, hu⟩ := Option.isSome_iff_exists.1 ht
    exact ⟨flow.arc p u, h.arc.2 ⟨n, t, hp, hu, hline⟩, p, u, hp, hu, rfl⟩
  · rintro arc arc' x ⟨p, u, hp, hu, rfl⟩ ⟨p', u', hp', hu', rfl⟩
    rw [Option.some.inj (hp.symm.trans hp'), Option.some.inj (hu.symm.trans hu')]
  · rintro arc ⟨flow, n, t⟩ hx ⟨flow', n', t'⟩ hx' ⟨p, u, hp, hu, rfl⟩ ⟨p', u', hp', hu', heq⟩
    obtain ⟨rfl, rfl, rfl⟩ := ArcKind.arc_inj.1 heq
    obtain rfl : t = t' := h.wellFormed.name_inj hu hu'
    have hjoined := (h.joined (knows_of_find hp) (knows_of_find hp')).1 (hp.trans hp'.symm)
    rw [hapart flow n n' t (mem_drawnArcs.1 hx) (mem_drawnArcs.1 hx') hjoined]

end Net.Shows

/-- The names of internal places that no line joins to a name before them. -/
def freeNames (L : List Line) : List String := (internals L).filter (· ∉ ties L)

/-- The free names are those of internal places that no line joins to another. -/
theorem mem_freeNames {L : List Line} : n ∈ freeNames L ↔ n ∈ internals L ∧ n ∉ ties L := by
  simp [freeNames]

namespace Net.Shows

variable {root : Activity} {net : Net} (h : net.Shows root.sheet)
include h

/-- The internal places of an activity are known by the names with a number. -/
theorem mem_internals_iff : n ∈ internals root.sheet ↔ IsNumbered n ∧ net.Knows n := by
  rw [mem_internals]
  constructor
  · intro hline
    refine ⟨?_, h.known.2 ⟨_, hline⟩⟩
    rcases Activity.place_cases hline with ⟨-, hn⟩ | ⟨s, m, -, -, hkind⟩
    · exact hn
    · exact absurd hkind.symm m.direction_ne_internal
  · rintro ⟨hn, hknows⟩
    obtain ⟨kind, hline⟩ := h.known.1 hknows
    rcases Activity.place_cases hline with ⟨rfl, -⟩ | ⟨s, m, -, rfl, -⟩
    · exact hline
    · exact absurd hn (m.not_isNumbered_placeName s)

/-- The names of internal places are the free ones and those that lines join to others. -/
theorem perm_freeNames (hforest : Forest root.sheet) (hnodup : (internals root.sheet).Nodup) :
    (internals root.sheet).Perm (freeNames root.sheet ++ ties root.sheet) := by
  refine (List.perm_ext_iff_of_nodup hnodup ?_).2 fun n => ?_
  · exact (hnodup.filter _).append hforest.once fun n hn hn' => (mem_freeNames.1 hn).2 hn'
  · rw [List.mem_append, mem_freeNames]
    constructor
    · intro hn
      by_cases htied : n ∈ ties root.sheet
      · exact .inr htied
      · exact .inl ⟨hn, htied⟩
    · rintro (hn | hn)
      · exact hn.1
      · obtain ⟨m, hm⟩ := mem_ties.1 hn
        exact h.mem_internals_iff.2 ⟨(Activity.isNumbered_of_joins hm).2, (h.ties hm).2⟩

/-- Every internal place has a free name. -/
theorem exists_freeName (hforest : Forest root.sheet) {p : PlaceId} (hp : p ∈ net.internal) :
    ∃ n ∈ freeNames root.sheet, net.find? n = some p := by
  obtain ⟨place, hplace, hlist⟩ := (Net.mem_internal h.wellFormed.toListsAgree).1 hp
  obtain ⟨n, hn, hline⟩ := h.kind hplace
  have hkind : place.kind = .internal := by
    cases hk : place.kind with
    | internal => rfl
    | inOut => exact absurd hk (h.ne_inOut hplace)
    | input => simp [hk, NodeKind.list] at hlist
    | output => simp [hk, NodeKind.list] at hlist
  have hnumbered := (h.mem_internals_iff.1 (mem_internals.2 (hkind ▸ hline))).1
  obtain ⟨r, hr, hjoined, hfree⟩ := hforest.exists_root hnumbered
  have hknows : net.Knows r := by
    refine (hjoined.invariant fun a b hab => ?_).2 (knows_of_find hn)
    exact iff_of_true (h.ties hab).1 (h.ties hab).2
  refine ⟨r, mem_freeNames.2 ⟨h.mem_internals_iff.2 ⟨hr, hknows⟩, hfree⟩, ?_⟩
  rw [(h.joined hknows (knows_of_find hn)).2 hjoined]
  exact hn

/-- The internal places of the net of an activity are the roots of the forest of joins. -/
theorem size_internal (hforest : Forest root.sheet) (hnodup : (internals root.sheet).Nodup) :
    net.internal.size + (ties root.sheet).length = (internals root.sheet).length := by
  have hsize : net.internal.size = (freeNames root.sheet).length := by
    apply OrderedSet.size_eq_of_matching (R := fun p n => net.find? n = some p) (hnodup.filter _)
    · exact fun p hp => h.exists_freeName hforest hp
    · intro n hn
      obtain ⟨hnumbered, hknows⟩ := h.mem_internals_iff.1 (mem_freeNames.1 hn).1
      obtain ⟨p, hp⟩ := knows_iff.1 hknows
      obtain ⟨place, hplace⟩ := h.wellFormed.live_of_find hp
      refine ⟨p, (Net.mem_internal h.wellFormed.toListsAgree).2 ⟨place, hplace, ?_⟩, hp⟩
      rw [(h.internal_iff hp hplace).2 hnumbered]
      rfl
    · exact fun p p' n hp hp' => Option.some.inj (hp.symm.trans hp')
    · intro p n hn n' hn' hp hp'
      exact hforest.eq_of_joined (mem_freeNames.1 hn).2 (mem_freeNames.1 hn').2
        ((h.joined (knows_of_find hp) (knows_of_find hp')).1 (hp.trans hp'.symm))
  rw [hsize, ← List.length_append, (h.perm_freeNames hforest hnodup).length_eq]

end Net.Shows

/-! ## Transitions of structured activities -/

namespace Activity

section Transitions

variable (s : Scope)

theorem drawnTransitions_chainLines (last : String) (k : Nat) (as : List Activity) :
    drawnTransitions (chainLines last k as) = [] := by
  induction as generalizing last k with
  | nil => rfl
  | cons a as ih => simp [chainLines, ih]

theorem drawnTransitions_sequenceLines (as : List Activity) :
    drawnTransitions (sequenceLines s as) = [] := by
  unfold sequenceLines
  split <;> simp [spliceLines, drawnTransitions_chainLines]

theorem drawnTransitions_joins (ns : List String) :
    drawnTransitions (ns.map (.joins s.closed ·)) = [] := by
  induction ns with
  | nil => rfl
  | cons n ns ih => simp [ih]

/-- The transitions of the cases of a switch. -/
theorem drawnTransitions_caseLines (i : Nat) (last : String) (k : Nat) (as : List Activity) :
    drawnTransitions (caseLines s i last k as) = (List.range' i as.length).flatMap fun j =>
      [s.name ("evalcase" ++ toString j), s.name ("initcase" ++ toString j)] := by
  induction as generalizing i last k with
  | nil => rfl
  | cons a as ih => simp [caseLines, ih, List.range'_succ]

theorem drawnTransitions_switchLines (as : List Activity) (fallback : Option Activity) :
    drawnTransitions (switchLines s as fallback) = ((List.range' 1 as.length).flatMap fun j =>
      [s.name ("evalcase" ++ toString j), s.name ("initcase" ++ toString j)])
        ++ [s.name "initdefault"] := by
  simp [switchLines, drawnTransitions_caseLines, drawnTransitions_joins]

/-- No transition of a switch is drawn twice. -/
theorem nodup_drawnTransitions_switchLines (as : List Activity) (fallback : Option Activity) :
    (drawnTransitions (switchLines s as fallback)).Nodup := by
  have hne (i j : Nat) : "evalcase" ++ toString i ≠ "initcase" ++ toString j := by
    simp [← String.toList_inj]
  rw [drawnTransitions_switchLines]
  refine List.Nodup.append (List.nodup_flatMap.2 ⟨?_, ?_⟩) (List.nodup_singleton _) ?_
  · intro j _
    simp only [List.nodup_cons, List.mem_singleton, Scope.name_inj]
    exact ⟨fun h => hne j j h.2, List.not_mem_nil, List.nodup_nil⟩
  · refine List.Pairwise.imp (fun {i j} hij => ?_) List.nodup_range'
    simp only [Function.onFun, List.disjoint_left, List.mem_cons, List.not_mem_nil, or_false]
    rintro x (rfl | rfl) (h | h)
    · exact hij (Text.append_toString_inj.1 (Scope.name_inj.1 h).2)
    · exact hne i j (Scope.name_inj.1 h).2
    · exact hne j i (Scope.name_inj.1 h).2.symm
    · exact hij (Text.append_toString_inj.1 (Scope.name_inj.1 h).2)
  · rw [List.disjoint_singleton]
    intro hmem
    obtain ⟨j, -, h⟩ := List.mem_flatMap.1 hmem
    simp only [List.mem_cons, List.not_mem_nil, or_false, Scope.name_inj] at h
    rcases h with ⟨-, h⟩ | ⟨-, h⟩ <;> simp [← String.toList_inj] at h

/-- Parallel branches draw the transitions that split and join. -/
theorem drawnTransitions_parallelLines (h : 2 ≤ as.length) :
    drawnTransitions (parallelLines s as) = [s.name "split", s.name "join"] := by
  have hbranches (k : Nat) (as : List Activity) : drawnTransitions
      (numberedLines (parallelBranchLines s) (fun a => [a]) k as) = [] := by
    induction as generalizing k with
    | nil => rfl
    | cons a as ih => simp [numberedLines, parallelBranchLines, ih]
  rcases as with _ | ⟨a, _ | ⟨b, as⟩⟩
  · simp at h
  · simp at h
  · simp [parallelLines, hbranches]

theorem drawnTransitions_pickLines (bs : List (PickBranch Activity)) :
    drawnTransitions (pickLines s bs) = [] := by
  have hbranches (k : Nat) : drawnTransitions
      (numberedLines (pickBranchLines s) PickBranch.built k bs) = [] := by
    induction bs generalizing k with
    | nil => rfl
    | cons b bs ih =>
      rw [numberedLines, drawnTransitions_append, ih, List.append_nil]
      unfold pickBranchLines
      split <;> rfl
  unfold pickLines
  split
  · rfl
  · exact hbranches s.id

end Transitions

/-- The fragment of a structured activity draws no transition twice. -/
theorem nodup_drawnTransitions_lines (h : a.IsBlock) (k : Nat) :
    (drawnTransitions (a.lines k)).Nodup := by
  have hends : drawnTransitions (endLines ⟨k⟩) = [] := rfl
  rw [lines, drawnTransitions_append, hends, List.nil_append]
  cases a with
  | atomic a => exact List.nodup_singleton _
  | empty => exact List.nodup_singleton _
  | messaging m => exact List.nodup_singleton _
  | sequence children =>
    rw [innerLines, drawnTransitions_sequenceLines]
    exact List.nodup_nil
  | conditional onTrue onFalse =>
    cases onTrue <;> cases onFalse <;>
      simp [innerLines, conditionalLines, branchLines, Scope.name_inj]
  | switch cases fallback => exact nodup_drawnTransitions_switchLines ⟨k⟩ cases fallback
  | loop test body =>
    cases test <;> cases body <;> simp [innerLines, loopLines, Scope.name_inj]
  | parallel branches =>
    rcases branches with _ | ⟨a, _ | ⟨b, as⟩⟩
    · exact List.nodup_nil
    · exact List.nodup_nil
    · rw [innerLines, drawnTransitions_parallelLines _ (by simp)]
      simp [Scope.name_inj]
  | pick branches =>
    rw [innerLines, drawnTransitions_pickLines]
    exact List.nodup_nil
  | flowchart start nodes => exact absurd rfl h.1
  | stateMachine initial states triggers => exact absurd rfl h.2

/-! ## Arcs of structured activities -/

section Arcs

variable (s : Scope)

theorem drawnArcs_chainLines (last : String) (k : Nat) (as : List Activity) :
    drawnArcs (chainLines last k as) = [] := by
  induction as generalizing last k with
  | nil => rfl
  | cons a as ih => simp [chainLines, ih]

theorem drawnArcs_sequenceLines (as : List Activity) : drawnArcs (sequenceLines s as) = [] := by
  unfold sequenceLines
  split <;> simp [spliceLines, drawnArcs_chainLines]

/-- The kinds of arcs at each transition of a list, one of either kind. -/
def oneWay (ts : List String) : List (ArcKind × String) :=
  ts.flatMap fun t => [(.consumes, t), (.produces, t)]

theorem nodup_oneWay {ts : List String} (h : ts.Nodup) : (oneWay ts).Nodup := by
  refine List.nodup_flatMap.2 ⟨fun t _ => by simp, h.imp fun {t t'} hne => ?_⟩
  simp only [Function.onFun, List.disjoint_left, List.mem_cons, List.not_mem_nil, or_false]
  rintro x (rfl | rfl) (h | h) <;> injection h with _ h <;> exact hne h

/-- The kind of an arc and its transition. -/
def arcKey (x : ArcKind × String × String) : ArcKind × String := (x.1, x.2.2)

theorem map_arcKey_caseLines (i : Nat) (last : String) (k : Nat) (as : List Activity) :
    (drawnArcs (caseLines s i last k as)).map arcKey
      = oneWay (drawnTransitions (caseLines s i last k as)) := by
  induction as generalizing i last k with
  | nil => rfl
  | cons a as ih =>
    rw [caseLines, drawnArcs_append, drawnTransitions_append, List.map_append, ih, oneWay, oneWay,
      List.flatMap_append]
    rfl

theorem map_arcKey_switchLines (as : List Activity) (fallback : Option Activity) :
    (drawnArcs (switchLines s as fallback)).map arcKey
      = oneWay (drawnTransitions (switchLines s as fallback)) := by
  have hjoins (ns : List String) : drawnArcs (ns.map (.joins s.closed ·)) = [] := by
    induction ns with
    | nil => rfl
    | cons n ns ih => simp [ih]
  simp only [switchLines, drawnArcs_append, drawnTransitions_append, List.map_append,
    map_arcKey_caseLines, hjoins, drawnTransitions_joins, oneWay, List.flatMap_append]
  rfl

theorem drawnArcs_parallelLines (h : 2 ≤ as.length) :
    drawnArcs (parallelLines s as)
      = [(.consumes, s.initialized, s.name "split"), (.produces, s.closed, s.name "join")]
        ++ (starts (s.id + 1) as).flatMap fun j =>
          [(.produces, Scope.initialized ⟨j⟩, s.name "split"),
            (.consumes, Scope.closed ⟨j⟩, s.name "join")] := by
  have hbranches (k : Nat) (as : List Activity) :
      drawnArcs (numberedLines (parallelBranchLines s) (fun a => [a]) k as)
        = (starts (k + 1) as).flatMap fun j =>
          [(.produces, Scope.initialized ⟨j⟩, s.name "split"),
            (.consumes, Scope.closed ⟨j⟩, s.name "join")] := by
    induction as generalizing k with
    | nil => rfl
    | cons a as ih =>
      rw [numberedLines, drawnArcs_append, ih, starts, List.flatMap_cons]
      simp [parallelBranchLines, Nat.add_right_comm]
  rcases as with _ | ⟨a, _ | ⟨b, as⟩⟩
  · simp at h
  · simp at h
  · simp [parallelLines, hbranches]

theorem drawnArcs_pickLines (bs : List (PickBranch Activity)) :
    drawnArcs (pickLines s bs) = [] := by
  have hbranches (k : Nat) :
      drawnArcs (numberedLines (pickBranchLines s) PickBranch.built k bs) = [] := by
    induction bs generalizing k with
    | nil => rfl
    | cons b bs ih =>
      rw [numberedLines, drawnArcs_append, ih, List.append_nil]
      unfold pickBranchLines
      split <;> rfl
  unfold pickLines
  split
  · rfl
  · exact hbranches s.id

end Arcs

/-- No arc is drawn twice. Two arcs of one kind at one transition lead to the same name, or one of
them to a message, or both to ends of fragments inside that the lines join to nothing. -/
structure Fans (k : Nat) (cs : List Activity) (L : List Line) : Prop where
  once : (drawnArcs L).Nodup
  apart : ∀ {flow n n' t}, .arc flow n t ∈ L → .arc flow n' t ∈ L →
    n = n' ∨ ¬ (IsNumbered n ↔ IsNumbered n') ∨ (ties L = [] ∧
      (∃ j ∈ starts k cs, Scope.IsEnd ⟨j⟩ n) ∧ ∃ j ∈ starts k cs, Scope.IsEnd ⟨j⟩ n')

/-- At each transition there is at most one arc of a kind. -/
theorem Fans.of_nodup_keys {L : List Line} (h : ((drawnArcs L).map arcKey).Nodup) :
    Fans k cs L where
  once := h.of_map
  apart {flow n n' t} hn hn' := by
    have heq := List.inj_on_of_nodup_map h (mem_drawnArcs.2 hn) (mem_drawnArcs.2 hn') rfl
    injection heq with _ heq
    injection heq with heq
    exact .inl heq

theorem fans_messageLines (s : Scope) (m : Messaging) : Fans k cs (messageLines s m) := by
  have hmessage := m.not_isNumbered_placeName s
  have hinit : s.initialized ≠ m.placeName s := fun h => hmessage (h ▸ isNumbered_initialized s)
  have hclosed : s.closed ≠ m.placeName s := fun h => hmessage (h ▸ isNumbered_closed s)
  refine ⟨?_, fun {flow n n' t} hn hn' => ?_⟩
  · cases messageFlow m <;> simp [messageLines, hinit, hclosed]
  · simp only [messageLines, List.mem_cons, Line.arc.injEq, List.not_mem_nil, or_false, false_or,
      reduceCtorEq] at hn hn'
    rcases hn with ⟨hflow, rfl, -⟩ | ⟨hflow, rfl, -⟩ | ⟨-, rfl, -⟩ <;>
      rcases hn' with ⟨hflow', rfl, -⟩ | ⟨hflow', rfl, -⟩ | ⟨-, rfl, -⟩
    · exact .inl rfl
    · cases hflow.symm.trans hflow'
    · exact .inr (.inl fun hiff => hmessage (hiff.1 (isNumbered_initialized s)))
    · cases hflow.symm.trans hflow'
    · exact .inl rfl
    · exact .inr (.inl fun hiff => hmessage (hiff.1 (isNumbered_closed s)))
    · exact .inr (.inl fun hiff => hmessage (hiff.2 (isNumbered_initialized s)))
    · exact .inr (.inl fun hiff => hmessage (hiff.2 (isNumbered_closed s)))
    · exact .inl rfl

theorem nodup_starts (k : Nat) (as : List Activity) : (starts k as).Nodup :=
  (nodup_starts_innerNumbers (fun c _ k => c.nodup_innerNumbers k) k).1.of_append_left

/-- The arcs of parallel branches fan out and in. -/
theorem fans_parallelLines (s : Scope) (h : 2 ≤ as.length) :
    Fans (s.id + 1) as (parallelLines s as) := by
  have hne : s.name "split" ≠ s.name "join" := by
    rw [Ne, Scope.name_inj]
    simp
  refine ⟨?_, fun {flow n n' t} hn hn' => ?_⟩
  · rw [drawnArcs_parallelLines s h]
    refine List.Nodup.append (by simp) (List.nodup_flatMap.2 ⟨fun j _ => by simp, ?_⟩) ?_
    · refine (nodup_starts (s.id + 1) as).imp fun {j j'} hjj => ?_
      simp only [Function.onFun, List.disjoint_left, List.mem_cons, List.not_mem_nil, or_false]
      rintro x (rfl | rfl) (h | h) <;> simp only [Prod.mk.injEq, reduceCtorEq, false_and] at h
      · exact hjj (congrArg Scope.id (Scope.name_inj.1 h.2.1).1)
      · exact hjj (congrArg Scope.id (Scope.name_inj.1 h.2.1).1)
    · rw [List.disjoint_left]
      intro x hx hx'
      obtain ⟨j, -, hx'⟩ := List.mem_flatMap.1 hx'
      simp only [List.mem_cons, List.not_mem_nil, or_false] at hx hx'
      rcases hx with rfl | rfl <;> rcases hx' with h | h <;>
        simp only [Prod.mk.injEq, reduceCtorEq, false_and] at h
      · exact hne h.2.2
      · exact hne h.2.2.symm
  · rw [← mem_drawnArcs, drawnArcs_parallelLines s h] at hn hn'
    simp only [List.cons_append, List.nil_append, List.mem_cons, List.mem_flatMap, Prod.mk.injEq,
      List.not_mem_nil, or_false] at hn hn'
    have hties := ties_parallelLines s h
    -- Where there are several arcs, they lead to the branches.
    rcases hn with ⟨rfl, rfl, rfl⟩ | ⟨rfl, rfl, rfl⟩ | ⟨j, hj, ⟨rfl, rfl, rfl⟩ | ⟨rfl, rfl, rfl⟩⟩
    · rcases hn' with ⟨-, rfl, -⟩ | ⟨hflow, -⟩ | ⟨j', -, ⟨hflow, -⟩ | ⟨-, -, ht⟩⟩
      · exact .inl rfl
      · cases hflow
      · cases hflow
      · exact absurd ht hne
    · rcases hn' with ⟨hflow, -⟩ | ⟨-, rfl, -⟩ | ⟨j', -, ⟨-, -, ht⟩ | ⟨hflow, -⟩⟩
      · cases hflow
      · exact .inl rfl
      · exact absurd ht.symm hne
      · cases hflow
    · rcases hn' with ⟨hflow, -⟩ | ⟨-, -, ht⟩ | ⟨j', hj', ⟨-, rfl, -⟩ | ⟨hflow, -⟩⟩
      · cases hflow
      · exact absurd ht hne
      · exact .inr (.inr ⟨hties, ⟨j, hj, .inl rfl⟩, j', hj', .inl rfl⟩)
      · cases hflow
    · rcases hn' with ⟨-, -, ht⟩ | ⟨hflow, -⟩ | ⟨j', hj', ⟨hflow, -⟩ | ⟨-, rfl, -⟩⟩
      · exact absurd ht.symm hne
      · cases hflow
      · cases hflow
      · exact .inr (.inr ⟨hties, ⟨j, hj, .inr rfl⟩, j', hj', .inr rfl⟩)

/-- The ends of a fragment have no part in its arcs. -/
theorem Fans.lines {j : Nat} (h : Fans j cs (innerLines ⟨k⟩ a)) : Fans j cs (a.lines k) := by
  have hends {flow : ArcKind} {n t : String} (harc : .arc flow n t ∈ a.lines k) :
      .arc flow n t ∈ innerLines ⟨k⟩ a := by
    simpa [Activity.lines, endLines] using harc
  exact ⟨h.once, fun hn hn' => h.apart (hends hn) (hends hn')⟩

/-- It has several branches at the same time. -/
def Forks (a : Activity) : Prop := ∃ as, a = .parallel as ∧ 2 ≤ as.length

/-- Where control does not fork, a transition has at most one arc of a kind inside the net. -/
theorem fans_lines_of_not_forks (h : a.IsBlock) (hforks : ¬ a.Forks) (k : Nat) {j : Nat} :
    Fans j cs (a.lines k) := by
  refine Fans.lines ?_
  have hnone {L : List Line} (hL : drawnArcs L = []) : Fans j cs L := by
    refine .of_nodup_keys ?_
    rw [hL]
    exact List.nodup_nil
  cases a with
  | atomic a =>
    refine .of_nodup_keys ?_
    simp [innerLines, stepLines, arcKey]
  | empty =>
    refine .of_nodup_keys ?_
    simp [innerLines, stepLines, arcKey]
  | messaging m => exact fans_messageLines ⟨k⟩ m
  | sequence children => exact hnone (drawnArcs_sequenceLines ⟨k⟩ children)
  | conditional onTrue onFalse =>
    refine .of_nodup_keys ?_
    cases onTrue <;> cases onFalse <;>
      simp [innerLines, conditionalLines, branchLines, arcKey, Scope.name_inj]
  | switch cases fallback =>
    refine .of_nodup_keys ?_
    rw [innerLines, map_arcKey_switchLines]
    exact nodup_oneWay (nodup_drawnTransitions_switchLines ⟨k⟩ cases fallback)
  | loop test body =>
    refine .of_nodup_keys ?_
    cases test <;> cases body <;> simp [innerLines, loopLines, arcKey, Scope.name_inj]
  | parallel branches =>
    rcases branches with _ | ⟨a, _ | ⟨b, as⟩⟩
    · exact hnone rfl
    · exact hnone rfl
    · exact absurd ⟨_, rfl, by simp⟩ hforks
  | pick branches => exact hnone (drawnArcs_pickLines ⟨k⟩ branches)
  | flowchart start nodes => exact absurd rfl h.1
  | stateMachine initial states triggers => exact absurd rfl h.2

/-- The fragment of a structured activity draws no arc twice. -/
theorem fans_lines (h : a.IsBlock) (k : Nat) : Fans (k + 1) a.built (a.lines k) := by
  by_cases hforks : a.Forks
  · obtain ⟨as, rfl, hlen⟩ := hforks
    have hbuilt : (parallel as).built = as := by
      rcases as with _ | ⟨a, _ | ⟨b, as⟩⟩
      · simp at hlen
      · rfl
      · rfl
    rw [hbuilt]
    exact (fans_parallelLines ⟨k⟩ hlen).lines
  · exact fans_lines_of_not_forks h hforks k

/-! ## The whole drawing -/

section Sheet

variable {root : Activity}

theorem isBlock_of_mem_zipIdx (h : ∀ b ∈ root.walk, b.IsBlock) {b : Activity × Nat}
    (hb : b ∈ root.walk.zipIdx k) : b.1.IsBlock := by
  obtain ⟨i, hi, -⟩ := mem_zipIdx_iff.1 hb
  exact h b.1 (List.mem_of_getElem? hi)

theorem drawnTransitions_sheet (root : Activity) :
    drawnTransitions root.sheet = drawnTransitions (root.drawing 1) := by
  simp [sheet, endLines]

theorem drawnArcs_sheet (root : Activity) : drawnArcs root.sheet = drawnArcs (root.drawing 1) := by
  simp [sheet, endLines]

/-- The places of the sheet are those of the drawing and the boundary. -/
theorem internals_sheet (root : Activity) : internals root.sheet
    = internals (root.drawing 1) ++ [Scope.initialized ⟨0⟩, Scope.closed ⟨0⟩] := by
  simp [sheet, endLines]

/-- If no fragment gives a name twice, no internal place is drawn twice. -/
theorem nodup_internals_sheet (h : root.Fine) : (internals root.sheet).Nodup := by
  rw [internals_sheet]
  refine (nodup_internals_iff.2 h).append (by simp [Scope.initialized_ne_closed]) ?_
  -- The boundary has a lower number than anything inside.
  intro n hn hn'
  have hend : Scope.IsEnd ⟨0⟩ n := by simpa [Scope.IsEnd] using hn'
  obtain ⟨i, b, -, hl⟩ := mem_drawing.1 (mem_internals.1 hn)
  have heq := hend.owns.unique (owns_of_internal (mem_internals.2 hl))
  injection heq with heq
  omega

/-- In the drawing of a structured activity no transition is drawn twice. -/
theorem nodup_drawnTransitions_sheet (h : ∀ b ∈ root.walk, b.IsBlock) :
    (drawnTransitions root.sheet).Nodup := by
  rw [drawnTransitions_sheet]
  refine nodup_of_owned id (fun b hb => ?_) fun b _ t ht => ?_
  · exact nodup_drawnTransitions_lines (isBlock_of_mem_zipIdx h hb) b.2
  · obtain ⟨kind, hline⟩ := mem_drawnTransitions.1 ht
    exact owns_of_transition hline

/-- No arc of a block activity is drawn twice. -/
theorem nodup_drawnArcs_sheet (h : ∀ b ∈ root.walk, b.IsBlock) : (drawnArcs root.sheet).Nodup := by
  rw [drawnArcs_sheet]
  refine nodup_of_owned (fun x => x.2.2) (fun b hb => ?_) fun b _ x hx => ?_
  · exact (fans_lines (isBlock_of_mem_zipIdx h hb) b.2).once
  · exact owns_of_arc (mem_drawnArcs.1 hx)

/-- Two lines of the drawing of a structured activity that draw arcs of one kind between one
transition and names that are joined are the same. -/
theorem eq_of_arcs (h : ∀ b ∈ root.walk, b.IsBlock) {flow : ArcKind} {n' : String}
    (hn : .arc flow n t ∈ root.sheet) (hn' : .arc flow n' t ∈ root.sheet)
    (hj : Joined root.sheet n n') : n = n' := by
  rw [← mem_drawnArcs, drawnArcs_sheet, mem_drawnArcs, mem_drawing] at hn hn'
  obtain ⟨i, b, hb, hl⟩ := hn
  obtain ⟨i', b', hb', hl'⟩ := hn'
  obtain rfl : i = i' := by
    have heq := (owns_of_arc hl).unique (owns_of_arc hl')
    injection heq with heq
    omega
  obtain rfl := Option.some.inj (hb.symm.trans hb')
  have hblock := h b (List.mem_of_getElem? hb)
  rcases (fans_lines hblock _).apart hl hl' with
    heq | hnum | ⟨hties, ⟨j, hj', hend⟩, j', hj'', hend'⟩
  · exact heq
  · refine absurd (hj.invariant fun a b hab => ?_) hnum
    exact iff_of_true (isNumbered_of_joins hab).1 (isNumbered_of_joins hab).2
  · -- The ends of the branches are roots.
    have hroot {m : String} {j : Nat} (hj : j ∈ starts (1 + i + 1) b.built)
        (hend : Scope.IsEnd ⟨j⟩ m) : m ∉ ties root.sheet := by
      have hrange := bounds_of_mem_starts hj
      rw [ties_sheet, List.mem_cons, List.mem_cons, not_or, not_or]
      have houter {x : String} (hx : Scope.Owns ⟨1⟩ x) : m ≠ x := by
        rintro rfl
        have heq := hend.owns.unique hx
        injection heq with heq
        omega
      refine ⟨houter (Scope.owns_closed _), houter (Scope.owns_initialized _), fun hm => ?_⟩
      obtain ⟨i', b', j', hb', hm, hj', hend'⟩ := exists_of_mem_ties h hm
      have heq := hend.owns.unique hend'.owns
      injection heq with heq
      obtain ⟨rfl, rfl⟩ := eq_of_innerNumbers hb hb' hj (heq ▸ hj')
      rw [hties] at hm
      cases hm
    exact (forest_sheet h).eq_of_joined (hroot hj' hend) (hroot hj'' hend') hj

end Sheet

end Activity

end OpenWorkflow
