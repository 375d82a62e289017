import OpenWorkflow.Proofs.Outcome

/-!
# The boundary of the net

The net of an activity starts from one token and ends in one final set of one
place. Both are put down before the fragment of the activity is built, and the
two places do not outlive the merges that tie the fragment in; `Net.Bounds` says
what survives them. A fragment leaves the boundary alone
(`Net.Framed.bounds`), and each of the two merges moves it to the place that
takes over (`Net.Bounds.unify`), so it is what it was when the net is finished
(`compile_bounds`).
-/

namespace OpenWorkflow

open Net (outer)

variable {root : Activity}

namespace Net

variable {net : Net} {i c a b : PlaceId} {kind : NodeKind} {first second : Place}

/-- One place holds the only token, another is the only final one. While they are different
places, they go by the names they were given at the start. -/
structure Bounds (net : Net) (i c : PlaceId) : Prop where
  first : net.find? (Scope.initialized ⟨0⟩) = some i
  last : net.find? (Scope.closed ⟨0⟩) = some c
  tokens : ∀ {id p}, net.place? id = some p → p.tokens = if id = i then 1 else 0
  finals : net.finalSets = [OrderedSet.singleton c]
  flagged : ∀ {id p}, net.place? id = some p → (p.isFinal = true ↔ id = c)
  named : i ≠ c → ∀ {p q}, net.place? i = some p → net.place? c = some q →
    p.name = Scope.initialized ⟨0⟩ ∧ q.name = Scope.closed ⟨0⟩

/-- The boundary as it is put down. -/
theorem bounds_outer : outer.Bounds ⟨0⟩ ⟨1⟩ := by
  have hall : ∀ x ∈ outer.places, x.2.tokens = (if x.1 = ⟨0⟩ then 1 else 0) ∧
      (x.2.isFinal = true ↔ x.1 = ⟨1⟩) ∧ (x.1 = ⟨0⟩ → x.2.name = Scope.initialized ⟨0⟩) ∧
      (x.1 = ⟨1⟩ → x.2.name = Scope.closed ⟨0⟩) := by decide +kernel
  have hplace {id : PlaceId} {p : Place} (hp : outer.place? id = some p) :=
    hall (id, p) (wellFormed_outer.mem_places.2 hp)
  exact {
    first := by decide +kernel
    last := by decide +kernel
    tokens := fun hp => (hplace hp).1
    finals := by decide +kernel
    flagged := fun hp => (hplace hp).2.1
    named := fun _ _ _ hp hq => ⟨(hplace hp).2.2.1 rfl, (hplace hq).2.2.2 rfl⟩ }

/-- A single token stays where it was or is on the new place. -/
theorem Mergeable.tokens_unify (hm : net.Mergeable a b kind first second) {o : PlaceId}
    (hfresh : o ≠ net.freshPlace)
    (h : ∀ {id p}, net.place? id = some p → p.tokens = if id = o then 1 else 0) {id : PlaceId}
    {p : Place} (hp : (net.unify kind a b first second).place? id = some p) :
    p.tokens = if id = redirect a b net.freshPlace o then 1 else 0 := by
  have hleft := h hm.left
  have hright := h hm.right
  have hab := hm.ne
  rw [hm.place?_unify] at hp
  split at hp
  · rename_i hid
    have hmax : (united kind first second).tokens = max first.tokens second.tokens := rfl
    rw [← Option.some.inj hp, hmax, hid]
    unfold redirect
    grind
  · split at hp
    · cases hp
    · rw [h hp]
      unfold redirect
      grind

/-- The names of the merged place end with that of the first one. -/
theorem Mergeable.name_unify (hm : net.Mergeable a b kind first second) {id : PlaceId} {p q : Place}
    (hb : id ≠ b) (hp : net.place? id = some p)
    (hq : (net.unify kind a b first second).place? (redirect a b net.freshPlace id) = some q) :
    q.name = p.name := by
  by_cases ha : id = a
  · subst ha
    rw [redirect_left, hm.place?_unify, if_pos rfl] at hq
    obtain rfl := Option.some.inj hq
    obtain rfl := Option.some.inj (hm.left.symm.trans hp)
    exact mergedPlace_name kind first second
  · rw [redirect_of_ne ha hb, hm.place?_unify_of_ne hp ha hb] at hq
    rw [Option.some.inj hq]

/-- A merge that the final place does not go second in, and the marked place only with the final
place before it. -/
theorem Bounds.unify (h : net.Bounds i c) (hw : net.WellFormed)
    (hm : net.Mergeable a b kind first second) (hc : c ≠ b) (hi : i = b → c = a) :
    (net.unify kind a b first second).Bounds (redirect a b net.freshPlace i)
      (redirect a b net.freshPlace c) := by
  obtain ⟨pi, hpi⟩ := hw.live_of_find h.first
  obtain ⟨pc, hpc⟩ := hw.live_of_find h.last
  have hfind := hm.find?_unify hw.toNamesAgree
  refine ⟨?_, ?_, ?_, ?_, ?_, ?_⟩
  · rw [hfind, h.first, Option.map_some]
  · rw [hfind, h.last, Option.map_some]
  · exact hm.tokens_unify (net.ne_freshPlace hpi) h.tokens
  · rw [hm.finalSets_unify, h.finals, List.map_singleton]
    congr 1
    split
    · rfl
    · rename_i hout
      rw [redirect_of_ne]
      · rintro rfl
        exact hout (.inl (List.mem_singleton_self _))
      · exact hc
  · intro id p hp
    have hflag : (united kind first second).isFinal = true
        ↔ first.isFinal = true ∨ second.isFinal = true := by
      simp [united, mergedPlace]
    constructor
    · intro hfinal
      obtain ⟨id', ⟨p', hp', hfinal'⟩, rfl⟩ :=
        (hm.property_unify (Q := fun p => p.isFinal = true) hflag).1 ⟨p, hp, hfinal⟩
      rw [(h.flagged hp').1 hfinal']
    · rintro rfl
      obtain ⟨q, hq, hfinal⟩ := (hm.property_unify (Q := fun p => p.isFinal = true) hflag).2
        ⟨c, ⟨pc, hpc, (h.flagged hpc).2 rfl⟩, rfl⟩
      rwa [Option.some.inj (hp.symm.trans hq)]
  · intro hne p q hp hq
    have hic : i ≠ c := fun hic => hne (by rw [hic])
    -- Were the marked place the second one, it would become the final place.
    have hib : i ≠ b := by
      intro hib
      refine hne ?_
      rw [hib, hi hib, redirect_left, redirect_right]
    obtain ⟨hi', hc'⟩ := h.named hic hpi hpc
    exact ⟨(hm.name_unify hib hpi hp).trans hi', (hm.name_unify hc hpc hq).trans hc'⟩

end Net

/-- A fragment has no part in the boundary. -/
theorem Net.Framed.bounds {base net : Net} {L : List Line} {i c : PlaceId}
    (h : base.Framed L net) (hw : base.WellFormed) (hbase : base.Bounds i c) : net.Bounds i c := by
  obtain ⟨pi, hpi⟩ := hw.live_of_find hbase.first
  obtain ⟨pc, hpc⟩ := hw.live_of_find hbase.last
  -- A place of the net is an old one with its tokens and flag, or new and without either.
  have hplace {id : PlaceId} {p : Place} (hp : net.place? id = some p) :
      (∃ p', base.place? id = some p' ∧ p.history = p'.history ∧ p.tokens = p'.tokens ∧
        p.isFinal = p'.isFinal) ∨ (id ≠ i ∧ id ≠ c ∧ p.tokens = 0 ∧ p.isFinal = false) := by
    refine (h.old_or_new hp).imp_right fun hge => ⟨?_, ?_, h.clean hp hge⟩
    · rintro rfl
      exact absurd (base.lt_of_place? hpi) (Nat.not_lt.2 hge)
    · rintro rfl
      exact absurd (base.lt_of_place? hpc) (Nat.not_lt.2 hge)
  refine ⟨h.find? hw hbase.first, h.find? hw hbase.last, ?_, h.finals.trans hbase.finals, ?_, ?_⟩
  · intro id p hp
    rcases hplace hp with ⟨p', hp', -, htokens, -⟩ | ⟨hi, -, htokens, -⟩
    · rw [htokens]
      exact hbase.tokens hp'
    · rw [htokens, if_neg hi]
  · intro id p hp
    rcases hplace hp with ⟨p', hp', -, -, hfinal⟩ | ⟨-, hc, -, hfinal⟩
    · rw [hfinal]
      exact hbase.flagged hp'
    · simp [hfinal, hc]
  · intro hic p q hp hq
    have hsame {id : PlaceId} {old new : Place} (hold : base.place? id = some old)
        (hnew : net.place? id = some new) : new.name = old.name := by
      obtain ⟨p', hp', hhist, -⟩ := h.shared hold
      obtain rfl := Option.some.inj (hnew.symm.trans hp')
      unfold Place.name
      rw [hhist]
    rw [hsame hpi hp, hsame hpc hq]
    exact hbase.named hic hpi hpc

/-! ## The whole net -/

/-- A net is made by the fragment and two merges, which tie its ends to the boundary. -/
theorem compile_splices {net : Net} (h : compile root = .ok net) :
    ∃ inner tied, root.fragment Net.inside = .ok () inner ∧
      (∃ m, Net.merge (Scope.initialized ⟨0⟩) (Scope.initialized ⟨1⟩) inner = .ok m tied) ∧
      ∃ m, Net.merge (Scope.closed ⟨0⟩) (Scope.closed ⟨1⟩) tied = .ok m net := by
  have hrun : bounded root Net.empty = .ok () net := by
    unfold compile at h
    cases hrun : bounded root Net.empty with
    | error e net' =>
      rw [hrun] at h
      cases h
    | ok _ net' =>
      rw [hrun] at h
      simp only at h
      split at h
      · cases h
        rfl
      · cases h
  rw [Net.bounded_outer] at hrun
  obtain ⟨_, _, hsplice, hpure⟩ := Build.of_bind_ok hrun
  cases hpure
  obtain ⟨s, inner, hchild, hmerges⟩ := Build.of_bind_ok hsplice
  obtain ⟨m, tied, hfirst, hrest⟩ := Build.of_bind_ok hmerges
  obtain ⟨m', _, hsecond, hpure⟩ := Build.of_bind_ok hrest
  cases hpure
  obtain ⟨_, _, hnext, hbody⟩ := Build.of_bind_ok hchild
  cases hnext
  obtain ⟨_, _, hfragment, hpure⟩ := Build.of_bind_ok hbody
  cases hpure
  have hscope : outer.scope = 0 := by decide +kernel
  rw [hscope] at hfirst hsecond
  exact ⟨_, tied, hfragment, ⟨m, hfirst⟩, m', hsecond⟩

/-- A merge of a boundary place with a place inside. The final place comes last, when the place
inside may be the marked one. -/
theorem Net.Bounds.merge {net net' : Net} {i c m : PlaceId} {p q : String} (h : net.Bounds i c)
    (hw : net.WellFormed) (hok : Net.merge p q net = .ok m net')
    (hq : (net.find? q ≠ some i ∧ net.find? q ≠ some c) ∨ p = Scope.closed ⟨0⟩) :
    net'.WellFormed ∧ ∃ i c, net'.Bounds i c := by
  rcases Net.of_merge_ok hw.toNamesAgree hok with
    ⟨a, -, -, rfl⟩ | ⟨a, b, kind, first, second, ha, hb, hm, rfl⟩
  · exact ⟨hw, i, c, h⟩
  · have ha' : net.find? p = some a := ha
    have hb' : net.find? q = some b := hb
    refine ⟨hm.wellFormed_unify hw, _, _, h.unify hw hm ?_ ?_⟩
    · rcases hq with ⟨-, hqc⟩ | rfl
      · rintro rfl
        exact hqc hb'
      · rw [Option.some.inj (h.last.symm.trans ha')]
        exact hm.ne
    · intro hib
      rcases hq with ⟨hqi, -⟩ | rfl
      · exact absurd (hib ▸ hb') hqi
      · exact Option.some.inj (h.last.symm.trans ha')

/-- The net of an activity has a boundary. -/
theorem compile_bounds {net : Net} (h : compile root = .ok net) :
    net.WellFormed ∧ ∃ i c, net.Bounds i c := by
  obtain ⟨inner, tied, hinner, ⟨m, hfirst⟩, m', hlast⟩ := compile_splices h
  have hready := Net.ready_inside
  have hframed : Net.inside.Framed (root.drawing 1) inner :=
    (Activity.traced_of_ok hready.wellFormed hinner).framed hready.wellFormed fun l hl =>
      Activity.clear_drawing (fun _ _ => hready.place) (fun _ _ => hready.transition) hl
  have hbase : Net.inside.Bounds ⟨0⟩ ⟨1⟩ := by
    have hb := Net.bounds_outer
    exact ⟨hb.first, hb.last, hb.tokens, hb.finals, hb.flagged, hb.named⟩
  -- The places of the fragment are none of the boundary.
  have hnew {id : PlaceId} {n : String} (hn : Net.inside.find? n = some id) :
      inner.find? (Scope.initialized ⟨1⟩) ≠ some id := by
    intro hid
    obtain ⟨p, hp⟩ := hready.wellFormed.live_of_find hn
    have hfresh : Net.inside.find? (Scope.initialized ⟨1⟩) = none :=
      hready.place (by decide +kernel)
    exact absurd (Net.lt_of_place? _ hp)
      (Nat.not_lt.2 (hframed.le_of_find? hready.wellFormed hfresh hid))
  obtain ⟨hw, i, c, hbounds⟩ := (hframed.bounds hready.wellFormed hbase).merge hframed.wellFormed
    hfirst (.inl ⟨hnew hbase.first, hnew hbase.last⟩)
  exact hbounds.merge hw hlast (.inr rfl)

/-- An activity whose net can be computed has one. -/
theorem exists_of_isOk (h : (compile root).isOk = true) : ∃ net, compile root = .ok net := by
  cases hnet : compile root with
  | ok net => exact ⟨net, rfl⟩
  | error e =>
    rw [hnet] at h
    cases h

/-- **The boundary survives.** The net of an activity has one token, on the place that is found
under the name of the start, and one final set, which holds the place found under the name of the
end and no other; that place alone is flagged. If the two differ, these names are their current
ones. -/
theorem compile_boundary {root : Activity} {net : Net} (h : compile root = .ok net) :
    ∃ i c p q, net.find? "0.internal.initialized" = some i ∧ net.place? i = some p ∧
      net.find? "0.internal.closed" = some c ∧ net.place? c = some q ∧
      p.tokens = 1 ∧ (∀ id x, net.place? id = some x → x.tokens ≠ 0 → id = i) ∧
      net.finalSets = [OrderedSet.singleton c] ∧
      (∀ id x, net.place? id = some x → (x.isFinal = true ↔ id = c)) ∧
      (i ≠ c → p.name = "0.internal.initialized" ∧ q.name = "0.internal.closed") := by
  obtain ⟨hw, i, c, hbounds⟩ := compile_bounds h
  obtain ⟨p, hp⟩ := hw.live_of_find hbounds.first
  obtain ⟨q, hq⟩ := hw.live_of_find hbounds.last
  refine ⟨i, c, p, q, hbounds.first, hp, hbounds.last, hq, ?_, ?_, hbounds.finals, ?_, ?_⟩
  · rw [hbounds.tokens hp, if_pos rfl]
  · intro id x hx htokens
    by_contra hid
    rw [hbounds.tokens hx, if_neg hid] at htokens
    exact htokens rfl
  · exact fun id x hx => hbounds.flagged hx
  · exact fun hic => hbounds.named hic hp hq

/-- A request, and then a state machine that begins where it ends. -/
theorem compile_boundary_request :
    ∃ net, compile (.sequence [.messaging ⟨.receive, "Bank", "open"⟩,
        .stateMachine (some "idle") [⟨"idle", true, none, none, []⟩] []]) = .ok net ∧
      ∃ i c p q, net.find? "0.internal.initialized" = some i ∧ net.place? i = some p ∧
        net.find? "0.internal.closed" = some c ∧ net.place? c = some q ∧
        p.tokens = 1 ∧ (∀ id x, net.place? id = some x → x.tokens ≠ 0 → id = i) ∧
        net.finalSets = [OrderedSet.singleton c] ∧
        (∀ id x, net.place? id = some x → (x.isFinal = true ↔ id = c)) ∧
        (i ≠ c → p.name = "0.internal.initialized" ∧ q.name = "0.internal.closed") := by
  obtain ⟨net, hok⟩ : ∃ net, compile (.sequence [.messaging ⟨.receive, "Bank", "open"⟩,
      .stateMachine (some "idle") [⟨"idle", true, none, none, []⟩] []]) = .ok net :=
    exists_of_isOk (by decide +kernel)
  exact ⟨net, hok, compile_boundary hok⟩

end OpenWorkflow
