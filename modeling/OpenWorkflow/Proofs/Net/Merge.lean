import OpenWorkflow.Proofs.Net.WellFormed

/-!
# Making one place of two

`unify` is the net after two different live places have become one. In terms of
the views of the net it is the quotient by that identification: names, arcs and
final sets are those of the old net with `redirect` applied to every place, and
what does not touch the two places is as it was. A well-formed net stays well
formed, and `merge_eq` says when `merge` arrives there.
-/

namespace OpenWorkflow

variable {α β : Type} {net' : Net} {p q : PlaceRef} {f : α → Build β}

/-- A step that succeeds hands its result and its net to what follows. -/
theorem Build.bind_ok {x : Build α} {net : Net} {a : α} (h : x net = .ok a net') :
    (x >>= f) net = f a net' := by
  simp only [bind, EStateM.bind, h]

theorem Build.bind_error {x : Build α} {net : Net} {e : NetError} (h : x net = .error e net') :
    (x >>= f) net = .error e net' := by
  simp only [bind, EStateM.bind, h]

/-- Two steps succeed only if each of them does. -/
theorem Build.of_bind_ok {x : Build α} {net : Net} {b : β} (h : (x >>= f) net = .ok b net') :
    ∃ a mid, x net = .ok a mid ∧ f a mid = .ok b net' := by
  cases hx : x net with
  | ok a mid => exact ⟨a, mid, rfl, (Build.bind_ok hx).symm.trans h⟩
  | error e mid =>
    rw [Build.bind_error hx] at h
    cases h

/-- A construction that can be computed succeeds, and what can be computed of its result holds. -/
theorem Build.exists_of_test (x : Build α) (net : Net) (test : α → Net → Bool)
    (h : (match x net with
      | .ok a net' => test a net'
      | .error .. => false) = true) : ∃ a net', x net = .ok a net' ∧ test a net' = true := by
  cases hx : x net with
  | ok a net' => exact ⟨a, net', rfl, by rwa [hx] at h⟩
  | error e net' =>
    rw [hx] at h
    cases h

namespace Net

/-- Where a place goes when `a` and `b` become `m`. -/
def redirect (a b m x : PlaceId) : PlaceId := if x = a ∨ x = b then m else x

section redirect

variable {a b m x y : PlaceId}

theorem redirect_left : redirect a b m a = m := if_pos (.inl rfl)

theorem redirect_right : redirect a b m b = m := if_pos (.inr rfl)

theorem redirect_of_ne (ha : x ≠ a) (hb : x ≠ b) : redirect a b m x = x :=
  if_neg fun h => h.elim ha hb

/-- Apart from the two places nothing is identified. -/
theorem redirect_eq_redirect_iff (hx : x ≠ m) (hy : y ≠ m) :
    redirect a b m x = redirect a b m y ↔ x = y ∨ (x = a ∨ x = b) ∧ (y = a ∨ y = b) := by
  unfold redirect
  by_cases hxab : x = a ∨ x = b <;> by_cases hyab : y = a ∨ y = b
  · simp [hxab, hyab]
  · simp only [hxab, hyab, if_true, if_false, and_false, or_false]
    exact ⟨fun h => absurd h.symm hy, fun h => absurd (h ▸ hxab) hyab⟩
  · simp only [hxab, hyab, if_true, if_false, false_and, or_false]
    exact ⟨fun h => absurd h hx, fun h => absurd (h ▸ hyab) hxab⟩
  · simp [hxab, hyab]

/-- A set in which each of the two places gives way to the new one. -/
theorem mem_redirected {set : OrderedSet PlaceId} :
    x ∈ (if a ∈ set ∨ b ∈ set then set.map (redirect a b m) else set)
      ↔ ∃ y ∈ set, redirect a b m y = x := by
  split
  · rw [OrderedSet.mem_map]
  · rename_i hab
    -- Neither place is in the set, so nothing in it is redirected.
    have hid : ∀ y ∈ set, redirect a b m y = y := by
      intro y hy
      refine redirect_of_ne ?_ ?_
      · rintro rfl
        exact hab (.inl hy)
      · rintro rfl
        exact hab (.inr hy)
    constructor
    · intro hx
      exact ⟨x, hx, hid x hx⟩
    · rintro ⟨y, hy, rfl⟩
      rwa [hid y hy]

end redirect

variable (net : Net)

/-- The net after the places `a` and `b` have become one of the given kind. -/
def unify (kind : NodeKind) (a b : PlaceId) (first second : Place) : Net :=
  (((net.redirectFinalSets a b net.freshPlace).without a (.merged net.freshPlace)).without b
    (.merged net.freshPlace)).absorb kind first second

/-- What makes two places fit for a merge. -/
structure Mergeable (a b : PlaceId) (kind : NodeKind) (first second : Place) : Prop where
  ne : a ≠ b
  left : net.place? a = some first
  right : net.place? b = some second
  kind : first.kind.join? second.kind = some kind

variable {net} {a b : PlaceId} {kind : NodeKind} {first second : Place}

namespace Mergeable

variable (h : net.Mergeable a b kind first second)
include h

theorem place?_left : (net.redirectFinalSets a b net.freshPlace).place? a = some first := h.left

/-- The second place is still there when the first has left. -/
theorem place?_right : ((net.redirectFinalSets a b net.freshPlace).without a
    (.merged net.freshPlace)).place? b = some second := by
  rw [place?_without h.place?_left (by simp), if_neg h.ne.symm]
  exact h.right

theorem freshPlace_eq : (((net.redirectFinalSets a b net.freshPlace).without a
    (.merged net.freshPlace)).without b (.merged net.freshPlace)).freshPlace
      = net.freshPlace := by
  refine congrArg PlaceId.mk ?_
  rw [length_slots_without h.place?_right, length_slots_without h.place?_left]
  rfl

/-- The new place is there, the two old ones are gone. -/
theorem place?_unify (x : PlaceId) :
    (net.unify kind a b first second).place? x
      = if x = net.freshPlace then some (united kind first second)
        else if x = a ∨ x = b then none else net.place? x := by
  unfold unify
  rw [place?_absorb, h.freshPlace_eq]
  by_cases hm : x = net.freshPlace
  · rw [if_pos hm, if_pos hm]
  · rw [if_neg hm, if_neg hm, place?_without h.place?_right (by simp),
      place?_without h.place?_left (by simp)]
    by_cases hb : x = b
    · simp [hb]
    · by_cases ha : x = a
      · simp [ha]
      · simp only [ha, hb, if_false, or_self]
        rfl

/-- A live place is the one that the merge makes, or it was there and is neither of the two. -/
theorem place?_unify_cases {x : PlaceId} {p : Place}
    (hp : (net.unify kind a b first second).place? x = some p) :
    (x = net.freshPlace ∧ p = united kind first second) ∨
      ((x ≠ a ∧ x ≠ b) ∧ net.place? x = some p) := by
  rw [h.place?_unify] at hp
  split at hp
  · exact .inl ⟨‹_›, (Option.some.inj hp).symm⟩
  · split at hp
    · cases hp
    · rename_i hab
      exact .inr ⟨not_or.1 hab, hp⟩

theorem place?_unify_of_ne {x : PlaceId} {p : Place} (hp : net.place? x = some p) (ha : x ≠ a)
    (hb : x ≠ b) : (net.unify kind a b first second).place? x = some p := by
  rw [h.place?_unify, if_neg (net.ne_freshPlace hp), if_neg (not_or.2 ⟨ha, hb⟩), hp]

/-- A property that two places hand on to the place they become: what has it
afterwards is where something went that had it before. -/
theorem property_unify {Q : Place → Prop}
    (hQ : Q (united kind first second) ↔ Q first ∨ Q second) {id : PlaceId} :
    (∃ p, (net.unify kind a b first second).place? id = some p ∧ Q p)
      ↔ ∃ id', (∃ p, net.place? id' = some p ∧ Q p) ∧ redirect a b net.freshPlace id' = id := by
  constructor
  · rintro ⟨p, hp, hq⟩
    rcases h.place?_unify_cases hp with ⟨hid, rfl⟩ | ⟨hab, hp⟩
    · rcases hQ.1 hq with hq | hq
      · exact ⟨a, ⟨first, h.left, hq⟩, redirect_left.trans hid.symm⟩
      · exact ⟨b, ⟨second, h.right, hq⟩, redirect_right.trans hid.symm⟩
    · exact ⟨id, ⟨p, hp, hq⟩, redirect_of_ne hab.1 hab.2⟩
  · rintro ⟨id', ⟨p, hp, hq⟩, rfl⟩
    by_cases hab : id' = a ∨ id' = b
    · refine ⟨united kind first second, ?_, hQ.2 ?_⟩
      · rw [redirect, if_pos hab, h.place?_unify, if_pos rfl]
      · rcases hab with rfl | rfl
        · obtain rfl := Option.some.inj (h.left.symm.trans hp)
          exact .inl hq
        · obtain rfl := Option.some.inj (h.right.symm.trans hp)
          exact .inr hq
    · refine ⟨p, ?_, hq⟩
      rw [redirect, if_neg hab, h.place?_unify, if_neg (net.ne_freshPlace hp), if_neg hab, hp]

/-- A live place is listed under its name, so the merged history has no further names. -/
theorem mem_mergedHistory_iff (hn : net.NamesAgree) {name : String} :
    name ∈ mergedHistory first second ↔ name ∈ first.history ∨ name ∈ second.history := by
  rw [mem_mergedHistory]
  constructor
  · rintro (h1 | h1 | rfl)
    · exact .inl h1
    · exact .inr h1
    · exact .inl (hn.current h.left)
  · rintro (h1 | h1)
    · exact .inl h1
    · exact .inr (.inl h1)

/-- The surviving place answers to the names of both. -/
theorem find?_unify (hn : net.NamesAgree) (name : String) :
    (net.unify kind a b first second).find? name
      = (net.find? name).map (redirect a b net.freshPlace) := by
  have hmem : name ∈ mergedHistory first second
      ↔ name ∈ first.history ∨ name ∈ second.history := h.mem_mergedHistory_iff hn
  unfold unify
  rw [find?_absorb, h.freshPlace_eq]
  by_cases hm : name ∈ mergedHistory first second
  · rw [if_pos hm]
    rcases hmem.1 hm with h1 | h1
    · rw [hn.find_of_mem h.left h1, Option.map_some, redirect_left]
    · rw [hn.find_of_mem h.right h1, Option.map_some, redirect_right]
  · have h1 : name ∉ first.history := fun hc => hm (hmem.2 (.inl hc))
    have h2 : name ∉ second.history := fun hc => hm (hmem.2 (.inr hc))
    rw [if_neg hm, find?_without h.place?_right, if_neg (fun hc => h2 hc.1),
      find?_without h.place?_left, if_neg (fun hc => h1 hc.1)]
    change net.find? name = _
    cases hf : net.find? name with
    | none => rfl
    | some x =>
      obtain ⟨p, hp, hnp⟩ := hn.find.1 hf
      have hxa : x ≠ a := by
        rintro rfl
        exact h1 (Option.some.inj (h.left.symm.trans hp) ▸ hnp)
      have hxb : x ≠ b := by
        rintro rfl
        exact h2 (Option.some.inj (h.right.symm.trans hp) ▸ hnp)
      rw [Option.map_some, redirect_of_ne hxa hxb]

theorem transition?_unify (t : TransitionId) :
    (net.unify kind a b first second).transition? t
      = (net.transition? t).map (fun u =>
          { u with
            postset :=
              let rest := if t ∈ first.preset then u.postset.erase a else u.postset
              let rest := if t ∈ second.preset then rest.erase b else rest
              if t ∈ first.preset ∨ t ∈ second.preset then rest.insert net.freshPlace else rest
            preset :=
              let rest := if t ∈ first.postset then u.preset.erase a else u.preset
              let rest := if t ∈ second.postset then rest.erase b else rest
              if t ∈ first.postset ∨ t ∈ second.postset then rest.insert net.freshPlace
              else rest }) := by
  unfold unify
  rw [transition?_absorb, h.freshPlace_eq, transition?_without h.place?_right,
    transition?_without h.place?_left, Option.map_map, Option.map_map]
  rfl

/-- A transition that neither place is a neighbour of stays as it is. -/
theorem transition?_unify_of_not_mem {t : TransitionId} (h1 : t ∉ first.preset)
    (h2 : t ∉ second.preset) (h3 : t ∉ first.postset) (h4 : t ∉ second.postset) :
    (net.unify kind a b first second).transition? t = net.transition? t := by
  rw [h.transition?_unify]
  cases net.transition? t <;> simp [h1, h2, h3, h4]

/-- The final sets name the new place for the old ones. -/
theorem finalSets_unify :
    (net.unify kind a b first second).finalSets
      = net.finalSets.map fun set =>
          if a ∈ set ∨ b ∈ set then set.map (redirect a b net.freshPlace) else set := by
  unfold unify
  rw [finalSets_absorb, finalSets_without h.place?_right, finalSets_without h.place?_left]
  rfl

theorem length_slots_unify :
    (net.unify kind a b first second).slots.length = net.slots.length + 1 := by
  unfold unify
  rw [length_slots_absorb, length_slots_without h.place?_right, length_slots_without h.place?_left]
  rfl

theorem transitionNames_unify :
    (net.unify kind a b first second).transitionNames = net.transitionNames := by
  unfold unify
  rw [transitionNames_absorb, transitionNames_without h.place?_right,
    transitionNames_without h.place?_left]
  rfl

theorem scope_unify : (net.unify kind a b first second).scope = net.scope := by
  unfold unify
  rw [scope_absorb, scope_without h.place?_right, scope_without h.place?_left]
  rfl

theorem ports_unify : (net.unify kind a b first second).ports = net.ports := by
  unfold unify
  rw [ports_absorb, ports_without h.place?_right, ports_without h.place?_left]
  rfl

end Mergeable

/-! ## The merged net is well formed -/

theorem Coherent.connectAll {flow : ArcKind} {id : PlaceId} {ts : List TransitionId}
    (h : net.Coherent) (hp : ∃ p, net.place? id = some p)
    (ht : ∀ t ∈ ts, ∃ tr, net.transition? t = some tr) :
    (net.connectAll (ts.map (flow.arc id))).Coherent := by
  induction ts generalizing net with
  | nil => exact h
  | cons t ts ih =>
    obtain ⟨p, hp⟩ := hp
    obtain ⟨tr, htr⟩ := ht t (List.mem_cons_self ..)
    refine ih (h.connect hp htr) ⟨flow.onPlace (·.insert t) p, ?_⟩ fun x hx => ?_
    · rw [place?_connect, if_pos rfl, hp]
      rfl
    · obtain ⟨u, hu⟩ := ht x (List.mem_cons_of_mem _ hx)
      rw [transition?_connect, hu]
      split
      · exact ⟨_, rfl⟩
      · exact ⟨u, rfl⟩

/-- The merged place goes by the name of the first one. -/
theorem mergedPlace_name (kind : NodeKind) (first second : Place) :
    (mergedPlace kind first second).name = first.name := by
  have hlast : (mergedHistory first second).toList
      = ((second.history.union first.history).erase first.name).toList ++ [first.name] := by
    unfold mergedHistory
    rw [OrderedSet.toList_insert, if_neg]
    simp [OrderedSet.erase]
  unfold Place.name OrderedSet.newest? mergedPlace
  rw [hlast, List.getLast?_concat]
  rfl

/-- The place of two takes its names, which are free, and arcs to transitions
that exist. -/
theorem Coherent.absorb (h : net.Coherent)
    (hfree : ∀ n ∈ mergedHistory first second, net.find? n = none)
    (hpre : ∀ t, t ∈ first.preset ∨ t ∈ second.preset → ∃ tr, net.transition? t = some tr)
    (hpost : ∀ t, t ∈ first.postset ∨ t ∈ second.postset → ∃ tr, net.transition? t = some tr) :
    (net.absorb kind first second).Coherent := by
  rw [absorb_eq]
  have hadd : (net.addPlace (mergedPlace kind first second)).Coherent := by
    refine h.addPlace rfl rfl ?_ hfree
    rw [mergedPlace_name]
    exact mem_mergedHistory.2 (.inr (.inr rfl))
  have htr (t : TransitionId) :
      (net.addPlace (mergedPlace kind first second)).transition? t = net.transition? t :=
    transition?_congr (transitions_addPlace net _) t
  have hplace : (net.addPlace (mergedPlace kind first second)).place? net.freshPlace
      = some (mergedPlace kind first second) := by
    rw [place?_addPlace, if_pos rfl]
  refine (hadd.connectAll ⟨_, hplace⟩ ?_).connectAll ?_ ?_
  · intro t ht
    rw [htr]
    exact hpre t (OrderedSet.mem_union.1 ht)
  · rw [place?_connectAll, if_pos rfl, hplace]
    exact ⟨_, rfl⟩
  · intro t ht
    rw [transition?_connectAll, htr]
    obtain ⟨u, hu⟩ := hpost t (OrderedSet.mem_union.1 ht)
    rw [hu]
    split
    · exact ⟨_, rfl⟩
    · exact ⟨u, rfl⟩

namespace Mergeable

variable (h : net.Mergeable a b kind first second)
include h

/-- Making one place of two keeps a net coherent. -/
theorem coherent_unify (hc : net.Coherent) : (net.unify kind a b first second).Coherent := by
  have hc0 : (net.redirectFinalSets a b net.freshPlace).Coherent := hc.setFinals _
  have hc2 : (((net.redirectFinalSets a b net.freshPlace).without a
      (.merged net.freshPlace)).without b (.merged net.freshPlace)).Coherent :=
    (hc0.without h.place?_left (by simp)).without h.place?_right (by simp)
  have htr : ∀ t, (∃ tr, net.transition? t = some tr) → ∃ tr,
      (((net.redirectFinalSets a b net.freshPlace).without a (.merged net.freshPlace)).without b
        (.merged net.freshPlace)).transition? t = some tr := by
    rintro t ⟨tr, ht⟩
    have ht' : (net.redirectFinalSets a b net.freshPlace).transition? t = some tr := ht
    rw [transition?_without h.place?_right, transition?_without h.place?_left, ht']
    exact ⟨_, rfl⟩
  have hexists {x : PlaceId} {p : Place} (hp : net.place? x = some p) (flow : ArcKind)
      {t : TransitionId} (ht : t ∈ flow.ofPlace p) : ∃ tr, net.transition? t = some tr :=
    (hc.ends_of_arc (hc.place_iff.2 ⟨p, hp, ht⟩)).2
  refine hc2.absorb ?_ ?_ ?_
  · intro n hn
    rw [find?_without h.place?_right, find?_without h.place?_left]
    have hf : (net.redirectFinalSets a b net.freshPlace).find? n = net.find? n := rfl
    rcases (h.mem_mergedHistory_iff hc.toNamesAgree).1 hn with h1 | h1
    · have := hc.find_of_mem h.left h1
      simp [hf, h1, this]
    · have := hc.find_of_mem h.right h1
      simp [hf, h1, this, h.ne.symm]
  · rintro t (ht | ht)
    · exact htr t (hexists h.left .produces ht)
    · exact htr t (hexists h.right .produces ht)
  · rintro t (ht | ht)
    · exact htr t (hexists h.left .consumes ht)
    · exact htr t (hexists h.right .consumes ht)

theorem mem_finalSets_unify {x : PlaceId} :
    (∃ set ∈ (net.unify kind a b first second).finalSets, x ∈ set)
      ↔ ∃ set ∈ net.finalSets, ∃ y ∈ set, redirect a b net.freshPlace y = x := by
  rw [h.finalSets_unify]
  constructor
  · rintro ⟨set, hset', hx⟩
    obtain ⟨set₀, hset₀, rfl⟩ := List.mem_map.1 hset'
    exact ⟨set₀, hset₀, mem_redirected.1 hx⟩
  · rintro ⟨set, hset', hx⟩
    exact ⟨_, List.mem_map_of_mem hset', mem_redirected.2 hx⟩

/-- The final sets follow the places that became one. -/
theorem finalsAgree_unify (hf : net.FinalsAgree) :
    (net.unify kind a b first second).FinalsAgree := by
  have hflag := fun (x : PlaceId) => h.mem_finalSets_unify (x := x)
  constructor
  · intro set hset x hx
    obtain ⟨set₀, hset₀, y, hy, rfl⟩ := (hflag x).1 ⟨set, hset, hx⟩
    obtain ⟨p, hp⟩ := hf.live hset₀ hy
    rw [h.place?_unify]
    unfold redirect
    split
    · rw [if_pos rfl]
      exact ⟨_, rfl⟩
    · rename_i hy'
      rw [if_neg (net.ne_freshPlace hp)]
      exact ⟨p, hp⟩
  · intro x p hp
    rw [hflag]
    rw [h.place?_unify] at hp
    by_cases hm : x = net.freshPlace
    · subst hm
      rw [if_pos rfl] at hp
      have hor : p.isFinal = (first.isFinal || second.isFinal) := by
        rw [← Option.some.inj hp]
        rfl
      rw [hor, Bool.or_eq_true, hf.flagged h.left, hf.flagged h.right]
      constructor
      · rintro (⟨set, hset, hmem⟩ | ⟨set, hset, hmem⟩)
        · exact ⟨set, hset, a, hmem, redirect_left⟩
        · exact ⟨set, hset, b, hmem, redirect_right⟩
      · rintro ⟨set, hset, y, hy, he⟩
        by_cases hya : y = a
        · exact .inl ⟨set, hset, hya ▸ hy⟩
        · by_cases hyb : y = b
          · exact .inr ⟨set, hset, hyb ▸ hy⟩
          · rw [redirect_of_ne hya hyb] at he
            obtain ⟨q, hq⟩ := hf.live hset hy
            exact absurd he (net.ne_freshPlace hq)
    · rw [if_neg hm] at hp
      split at hp
      · cases hp
      · rename_i hx
        rw [hf.flagged hp]
        refine exists_congr fun set => and_congr_right fun hset => ?_
        constructor
        · intro hmem
          exact ⟨x, hmem, redirect_of_ne (fun e => hx (.inl e)) fun e => hx (.inr e)⟩
        · rintro ⟨y, hy, he⟩
          unfold redirect at he
          split at he
          · exact absurd he.symm hm
          · rwa [← he]

/-- A merge keeps a net well formed. -/
theorem wellFormed_unify (hw : net.WellFormed) : (net.unify kind a b first second).WellFormed where
  toCoherent := h.coherent_unify hw.toCoherent
  toFinalsAgree := h.finalsAgree_unify hw.toFinalsAgree

end Mergeable

/-! ## The step -/

/-- Two references to different places of kinds that have a common kind: the
step succeeds, and its value is the new place. -/
theorem merge_ok (h : net.Mergeable a b kind first second) (hp : net.resolve? p = some a)
    (hq : net.resolve? q = some b) :
    merge p q net = .ok net.freshPlace (net.unify kind a b first second) := by
  have hlocate {ref : PlaceRef} {id : PlaceId} (hr : net.resolve? ref = some id) :
      locatePlace ref net = .ok id net := by
    simp only [locatePlace, hr]
  have hkind : mergedKind a b net = .ok kind net := by
    simp only [mergedKind, h.left, h.right, h.kind]
  have hmodify : (modify (fun net' => net'.redirectFinalSets a b net.freshPlace) : Build Unit) net
      = .ok () (net.redirectFinalSets a b net.freshPlace) := rfl
  have hfirst : detached a (.merged net.freshPlace) (net.redirectFinalSets a b net.freshPlace)
      = .ok (some first)
        ((net.redirectFinalSets a b net.freshPlace).without a (.merged net.freshPlace)) := by
    simp only [detached, detach_eq _ h.place?_left]
  have hsecond : detached b (.merged net.freshPlace)
        ((net.redirectFinalSets a b net.freshPlace).without a (.merged net.freshPlace))
      = .ok (some second) (((net.redirectFinalSets a b net.freshPlace).without a
        (.merged net.freshPlace)).without b (.merged net.freshPlace)) := by
    simp only [detached, detach_eq _ h.place?_right]
  refine (Build.bind_ok (hlocate hp)).trans ((Build.bind_ok (hlocate hq)).trans ?_)
  rw [if_neg h.ne]
  refine (Build.bind_ok hkind).trans ((Build.bind_ok rfl).trans ((Build.bind_ok hmodify).trans ?_))
  exact (Build.bind_ok hfirst).trans (Build.bind_ok hsecond)

/-- Two references to one place: nothing is done. -/
theorem merge_self (hp : net.resolve? p = some a) (hq : net.resolve? q = some a) :
    merge p q net = .ok a net := by
  simp only [merge, locatePlace, bind, EStateM.bind, hp, hq, if_true]
  rfl

/-- Every other merge is refused and changes nothing. -/
theorem merge_cases (hc : net.NamesAgree) (p q : PlaceRef) :
    (∃ a, net.resolve? p = some a ∧ net.resolve? q = some a ∧ merge p q net = .ok a net)
      ∨ (∃ a b kind first second, net.resolve? p = some a ∧ net.resolve? q = some b
          ∧ net.Mergeable a b kind first second
          ∧ merge p q net = .ok net.freshPlace (net.unify kind a b first second))
      ∨ ∃ e, merge p q net = .error e net := by
  cases hp : net.resolve? p with
  | none =>
    refine .inr (.inr ⟨.missingPlace p.describe, ?_⟩)
    simp only [merge, locatePlace, bind, EStateM.bind, hp]
  | some a =>
    cases hq : net.resolve? q with
    | none =>
      refine .inr (.inr ⟨.missingPlace q.describe, ?_⟩)
      simp only [merge, locatePlace, bind, EStateM.bind, hp, hq]
    | some b =>
      by_cases hab : a = b
      · subst hab
        exact .inl ⟨a, rfl, rfl, merge_self hp hq⟩
      · obtain ⟨first, hfirst⟩ := live_of_resolve hc hp
        obtain ⟨second, hsecond⟩ := live_of_resolve hc hq
        cases hk : first.kind.join? second.kind with
        | some kind =>
          have h : net.Mergeable a b kind first second := ⟨hab, hfirst, hsecond, hk⟩
          exact .inr (.inl ⟨a, b, kind, first, second, rfl, rfl, h, merge_ok h hp hq⟩)
        | none =>
          refine .inr (.inr
            ⟨.incompatibleMerge first.name first.kind second.name second.kind, ?_⟩)
          simp only [merge, locatePlace, mergedKind, bind, EStateM.bind, hp, hq, hab, if_false,
            hfirst, hsecond, hk]

/-- What a merge that succeeds has done. -/
theorem of_merge_ok (hc : net.NamesAgree) {m : PlaceId} (h : merge p q net = .ok m net') :
    (∃ a, net.resolve? p = some a ∧ net.resolve? q = some a ∧ net' = net)
      ∨ ∃ a b kind first second, net.resolve? p = some a ∧ net.resolve? q = some b
          ∧ net.Mergeable a b kind first second ∧ net' = net.unify kind a b first second := by
  rcases merge_cases hc p q with ⟨a, hp, hq, hok⟩ | ⟨a, b, kind, first, second, hp, hq, hm, hok⟩
    | ⟨e, herr⟩
  · rw [hok] at h
    cases h
    exact .inl ⟨_, hp, hq, rfl⟩
  · rw [hok] at h
    cases h
    exact .inr ⟨a, b, kind, first, second, hp, hq, hm, rfl⟩
  · rw [herr] at h
    cases h

end Net

end OpenWorkflow
