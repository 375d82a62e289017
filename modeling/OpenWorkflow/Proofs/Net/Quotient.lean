import OpenWorkflow.Proofs.Drawing.Basic
import OpenWorkflow.Proofs.Net.Consistency
import OpenWorkflow.Proofs.Net.Handles

/-!
# A merge is a quotient

Two places that are merged are torn down and a third one is set up in their
stead. All in all that is the quotient of the net by the identification of the
two: whatever refers to either of them, be it a name, a handle, an arc or a final
set, refers to the new place afterwards, and nothing else is touched.

`IsQuotient` lists what that means for every part of a net, sizes included. The
sizes come from two lists of the live places, before and after, that differ by
the two places and the new one (`Mergeable.perm_places` and
`Mergeable.perm_places_unify`). An arc is lost only where both places had one to
the same transition in the same direction.

The main result, `merge_isQuotient`, holds of every net that construction steps
can lead to.
-/

namespace OpenWorkflow

/-! ## Common members -/

namespace OrderedSet

variable {α : Type} [DecidableEq α]

/-- The members of the first set that are in the second one too. -/
def inter (s t : OrderedSet α) : OrderedSet α :=
  ⟨s.toList.filter (fun x => x ∈ t), s.nodup.filter _⟩

/-- Putting two sets together loses as many members as they have in common. -/
theorem size_add_size_inter {s t u : OrderedSet α} (h : ∀ x, x ∈ u ↔ x ∈ s ∨ x ∈ t) :
    u.size + (s.inter t).size = s.size + t.size := by
  have hunion : u.toList.Perm (t.toList ++ s.toList.filter (fun x => !decide (x ∈ t))) := by
    refine (List.perm_ext_iff_of_nodup u.nodup ?_).2 fun x => ?_
    · refine t.nodup.append (s.nodup.filter _) fun x hx hx' => ?_
      have hnot := (List.mem_filter.1 hx').2
      simp [mem_def, hx] at hnot
    · rw [← mem_def, h]
      by_cases hx : x ∈ t <;> simp [← mem_def, hx]
  have hsplit := (List.filter_append_perm (fun x => decide (x ∈ t)) s.toList).length_eq
  have hlen := hunion.length_eq
  rw [List.length_append] at hsplit hlen
  simp only [size, inter]
  omega

end OrderedSet

/-- The sum of a count does not depend on the order. -/
theorem total_perm {α : Type} {count : α → Nat} {xs ys : List α} (h : xs.Perm ys) :
    total count xs = total count ys := by
  unfold total
  exact h.foldr_eq' (fun x _ y _ z => by omega) 0

namespace Net

variable {net : Net} {a b : PlaceId} {kind : NodeKind} {first second : Place}

/-! ## The places before and after -/

theorem ListsAgree.nodup_livePlaces (h : net.ListsAgree) : net.places.Nodup :=
  h.nodup_places.of_map

/-- The count of places is the number of live places. -/
theorem ListsAgree.length_places (h : net.ListsAgree) :
    net.places.length = net.statistics.places := by
  have hlist (kind : NodeKind) :
      (net.livePlaces (net.listed kind)).length = (net.listed kind).size := by
    have hmap := map_fst_livePlaces fun id (hid : id ∈ net.listed kind) => h.live_of_listed hid
    rw [OrderedSet.size, ← hmap, List.length_map]
  unfold places statistics
  rw [List.length_append, List.length_append]
  exact congrArg₂ (· + ·) (congrArg₂ (· + ·) (hlist .internal) (hlist .input)) (hlist .output)

/-- How many arcs a place has. -/
def degree (x : PlaceId × Place) : Nat := x.2.preset.size + x.2.postset.size

/-- The live places apart from two. -/
def placesBut (net : Net) (a b : PlaceId) : List (PlaceId × Place) :=
  net.places.filter (fun x => x.1 ≠ a ∧ x.1 ≠ b)

namespace Mergeable

variable (h : net.Mergeable a b kind first second)
include h

theorem perm_places (hl : net.ListsAgree) :
    net.places.Perm ((a, first) :: (b, second) :: net.placesBut a b) := by
  have hnodup : ((a, first) :: (b, second) :: net.placesBut a b).Nodup := by
    simp [placesBut, h.ne, hl.nodup_livePlaces.filter]
  refine (List.perm_ext_iff_of_nodup hl.nodup_livePlaces hnodup).2 fun x => ?_
  obtain ⟨id, p⟩ := x
  rw [List.mem_cons, List.mem_cons, placesBut, List.mem_filter, hl.mem_places]
  by_cases ha : id = a
  · subst ha
    simp [h.left, h.ne, eq_comm (a := first)]
  · by_cases hb : id = b
    · subst hb
      simp [h.right, ha, eq_comm (a := second)]
    · simp [ha, hb]

/-- The places after a merge are the others and the new one. -/
theorem perm_places_unify (hw : net.WellFormed) :
    (net.unify kind a b first second).places.Perm
      ((net.freshPlace, united kind first second) :: net.placesBut a b) := by
  have hl := (h.wellFormed_unify hw).toListsAgree
  have hfresh {p : Place} : (net.freshPlace, p) ∉ net.placesBut a b := fun hmem =>
    net.ne_freshPlace (hw.mem_places.1 (List.mem_filter.1 hmem).1) rfl
  have hnodup : ((net.freshPlace, united kind first second) :: net.placesBut a b).Nodup :=
    List.nodup_cons.2 ⟨hfresh, hw.nodup_livePlaces.filter _⟩
  refine (List.perm_ext_iff_of_nodup hl.nodup_livePlaces hnodup).2 fun x => ?_
  obtain ⟨id, p⟩ := x
  rw [List.mem_cons, hl.mem_places, h.place?_unify]
  by_cases hid : id = net.freshPlace
  · subst hid
    simp [hfresh, eq_comm]
  · by_cases hab : id = a ∨ id = b
    · simp only [hid, if_false, hab, if_true, reduceCtorEq, false_iff]
      rintro (heq | hmem)
      · exact hid (Prod.mk.inj heq).1
      · rcases hab with rfl | rfl <;> simp [placesBut] at hmem
    · obtain ⟨ha, hb⟩ := not_or.1 hab
      simp [hid, ha, hb, placesBut, hw.mem_places]

/-- One place fewer. -/
theorem places_unify (hw : net.WellFormed) :
    (net.unify kind a b first second).statistics.places + 1 = net.statistics.places := by
  have hold := (h.perm_places hw.toListsAgree).length_eq
  have hnew := (h.perm_places_unify hw).length_eq
  rw [hw.length_places, List.length_cons, List.length_cons] at hold
  rw [(h.wellFormed_unify hw).length_places, List.length_cons] at hnew
  omega

/-- An arc fewer for every transition that both places had an arc to, or from. -/
theorem arcs_unify (hw : net.WellFormed) :
    (net.unify kind a b first second).statistics.arcs
        + ((first.preset.inter second.preset).size + (first.postset.inter second.postset).size)
      = net.statistics.arcs := by
  have hold : net.arcs.size = (first.preset.size + first.postset.size)
      + ((second.preset.size + second.postset.size) + total degree (net.placesBut a b)) := by
    rw [← hw.countedArcs_eq, countedArcs, total_perm (h.perm_places hw.toListsAgree)]
    rfl
  have hnew : (net.unify kind a b first second).arcs.size
      = ((united kind first second).preset.size + (united kind first second).postset.size)
        + total degree (net.placesBut a b) := by
    rw [← (h.wellFormed_unify hw).countedArcs_eq, countedArcs, total_perm (h.perm_places_unify hw)]
    rfl
  have hpre : (united kind first second).preset.size + (first.preset.inter second.preset).size
      = first.preset.size + second.preset.size :=
    OrderedSet.size_add_size_inter fun t => additive_preset t kind first second h.kind
  have hpost : (united kind first second).postset.size + (first.postset.inter second.postset).size
      = first.postset.size + second.postset.size :=
    OrderedSet.size_add_size_inter fun t => additive_postset t kind first second h.kind
  simp only [statistics]
  omega

end Mergeable

/-! ## References -/

/-- A reference that stood for either place stands for the new one, every other for what it
stood for. Only the handle of the new place is new. -/
theorem Mergeable.resolve?_unify (h : net.Mergeable a b kind first second) (hw : net.WellFormed)
    (ha : net.Ascending) {ref : PlaceRef} (href : ref ≠ .handle net.freshPlace) :
    (net.unify kind a b first second).resolve? ref
      = (net.resolve? ref).map (redirect a b net.freshPlace) := by
  cases ref with
  | named n => exact h.find?_unify hw.toNamesAgree n
  | handle x =>
    have hne : x.index ≠ net.slots.length := fun heq => href (by cases x; cases heq; rfl)
    rcases Nat.lt_or_ge x.index net.slots.length with hlt | hge
    · exact (ha.change (.merged h)).current?_eq (h.forwards_unify ha (ha.forwards_current x) hlt)
    · have hnone {net' : Net} (hout : net'.slots.length ≤ x.index) : net'.current? x = none := by
        rw [Option.eq_none_iff_forall_ne_some]
        intro y hy
        exact absurd (lt_of_current hy) (Nat.not_lt.2 hout)
      have hlen := h.length_slots_unify
      have hnew : (net.unify kind a b first second).current? x = none := hnone (by omega)
      have hold : net.current? x = none := hnone hge
      simp [resolve?, hnew, hold]

/-! ## The quotient -/

/-- The node with `m` in the stead of `a` and of `b`. -/
def redirectNode (a b m : PlaceId) : Node → Node
  | .place x => .place (redirect a b m x)
  | .transition t => .transition t

/-- The arc with `m` in the stead of `a` and of `b`. -/
def redirectArc (a b m : PlaceId) (arc : Arc) : Arc :=
  ⟨redirectNode a b m arc.source, redirectNode a b m arc.target⟩

theorem redirectArc_arc (flow : ArcKind) (m x : PlaceId) (t : TransitionId) :
    redirectArc a b m (flow.arc x t) = flow.arc (redirect a b m x) t := by
  cases flow <;> rfl

/-- The arcs are those of the old net, redirected. -/
theorem Mergeable.mem_arcs_unify_iff (h : net.Mergeable a b kind first second)
    (hw : net.WellFormed) {arc : Arc} :
    arc ∈ (net.unify kind a b first second).arcs ↔
      ∃ old ∈ net.arcs, redirectArc a b net.freshPlace old = arc := by
  constructor
  · intro harc
    obtain ⟨flow, x, t, rfl⟩ := (h.wellFormed_unify hw).exists_arc harc
    obtain ⟨y, hy, rfl⟩ := (h.mem_arcs_unify hw).1 harc
    exact ⟨flow.arc y t, hy, redirectArc_arc ..⟩
  · rintro ⟨old, hold, rfl⟩
    obtain ⟨flow, x, t, rfl⟩ := hw.exists_arc hold
    rw [redirectArc_arc]
    exact (h.mem_arcs_unify hw).2 ⟨x, hold, rfl⟩

/-- The place is what the two become. -/
structure IsUnited (kind : NodeKind) (first second place : Place) : Prop where
  name : place.name = first.name
  history : ∀ n, n ∈ place.history ↔ n ∈ first.history ∨ n ∈ second.history
  kind : place.kind = kind
  tokens : place.tokens = max first.tokens second.tokens
  isFinal : place.isFinal = (first.isFinal || second.isFinal)
  preset : ∀ t, t ∈ place.preset ↔ t ∈ first.preset ∨ t ∈ second.preset
  postset : ∀ t, t ∈ place.postset ↔ t ∈ first.postset ∨ t ∈ second.postset

/-- The second net is the first one with the places `a` and `b` as one place `m`. -/
structure IsQuotient (net net' : Net) (kind : NodeKind) (a b m : PlaceId) (first second : Place) :
    Prop where
  wellFormed : net'.WellFormed
  /-- The handle has not been given out before. -/
  fresh : net.slots.length ≤ m.index
  handle : net'.resolve? m = some m
  names : ∀ n, n ∈ first.history ∨ n ∈ second.history → net'.resolve? n = some m
  /-- References to either place lead to the new one, and all others where they led. -/
  resolve : ∀ ref, ref ≠ .handle m → net'.resolve? ref = (net.resolve? ref).map (redirect a b m)
  united : ∃ place, net'.place? m = some place ∧ IsUnited kind first second place
  gone : net'.place? a = none ∧ net'.place? b = none
  /-- Every other place is as it was. -/
  others : ∀ x, x ≠ a → x ≠ b → x ≠ m → net'.place? x = net.place? x
  arcs : ∀ arc, arc ∈ net'.arcs ↔ ∃ old ∈ net.arcs, redirectArc a b m old = arc
  finals : List.Forall₂ (fun s s' => ∀ z, z ∈ s' ↔ ∃ y ∈ s, redirect a b m y = z)
    net.finalSets net'.finalSets
  /-- Transitions keep handle, name and kind. -/
  transitions : net'.transitions.map Transition.label = net.transitions.map Transition.label
  ports : net'.ports = net.ports
  scope : net'.scope = net.scope
  placeCount : net'.statistics.places + 1 = net.statistics.places
  arcCount : net'.statistics.arcs
      + ((first.preset.inter second.preset).size + (first.postset.inter second.postset).size)
    = net.statistics.arcs

/-- What two places become has what both had. -/
theorem Mergeable.isUnited (h : net.Mergeable a b kind first second) (hn : net.NamesAgree) :
    IsUnited kind first second (united kind first second) where
  name := mergedPlace_name kind first second
  history _ := h.mem_mergedHistory_iff hn
  kind := rfl
  tokens := rfl
  isFinal := rfl
  preset t := additive_preset t kind first second h.kind
  postset t := additive_postset t kind first second h.kind

/-- A merge is a quotient of the net. -/
theorem Mergeable.isQuotient (h : net.Mergeable a b kind first second) (hw : net.WellFormed)
    (ha : net.Ascending) :
    IsQuotient net (net.unify kind a b first second) kind a b net.freshPlace first second := by
  have hn := hw.toNamesAgree
  have hplace : (net.unify kind a b first second).place? net.freshPlace
      = some (Net.united kind first second) := by rw [h.place?_unify, if_pos rfl]
  have hgone {x : PlaceId} {p : Place} (hp : net.place? x = some p) (hx : x = a ∨ x = b) :
      (net.unify kind a b first second).place? x = none := by
    rw [h.place?_unify, if_neg (net.ne_freshPlace hp), if_pos hx]
  -- A merge is the simplest of all collapses.
  have hcollapse := (Collapse.refl hw).unify h
  exact {
    wellFormed := hcollapse.wellFormed
    fresh := Nat.le_refl _
    handle := (ha.change (.merged h)).current?_live hplace
    names := by
      intro n hmem
      have hfind : (net.unify kind a b first second).find? n
          = (net.find? n).map (redirect a b net.freshPlace) := h.find?_unify hn n
      rcases hmem with hmem | hmem
      · rw [hn.find_of_mem h.left hmem, Option.map_some, redirect_left] at hfind
        exact hfind
      · rw [hn.find_of_mem h.right hmem, Option.map_some, redirect_right] at hfind
        exact hfind
    resolve := fun ref href => h.resolve?_unify hw ha href
    united := ⟨_, hplace, h.isUnited hn⟩
    gone := ⟨hgone h.left (.inl rfl), hgone h.right (.inr rfl)⟩
    others := by
      intro x hxa hxb hxm
      rw [h.place?_unify, if_neg hxm, if_neg (not_or.2 ⟨hxa, hxb⟩)]
    arcs := fun _ => h.mem_arcs_unify_iff hw
    finals := hcollapse.finals
    transitions := hcollapse.transitions
    ports := h.ports_unify
    scope := h.scope_unify
    placeCount := h.places_unify hw
    arcCount := h.arcs_unify hw }

/-- **A merge is a quotient.** In every net that construction steps lead to, two references to
different places of kinds that have a common kind can be merged. The result is the handle of a new
place, and the net is the old one with the two places identified. -/
theorem merge_isQuotient (calls : List Call) {p q : PlaceRef}
    (hp : (run calls).resolve? p = some a) (hq : (run calls).resolve? q = some b) (hne : a ≠ b)
    (hfirst : (run calls).place? a = some first) (hsecond : (run calls).place? b = some second)
    (hkind : first.kind.join? second.kind = some kind) :
    ∃ m net', merge p q (run calls) = .ok m net' ∧
      IsQuotient (run calls) net' kind a b m first second := by
  have hm : (run calls).Mergeable a b kind first second := ⟨hne, hfirst, hsecond, hkind⟩
  exact ⟨_, _, merge_ok hm hp hq, hm.isQuotient (wellFormed_run calls) (ascending_run calls)⟩

/-- A place that two others have become, and a third one. A transition takes from both and puts
back on the first, and a final set holds both. -/
def sharedTransition : List Call :=
  [.newPlace "a" .internal, .newPlace "b" .internal, .newPlace "c" .input,
    .newTransition "t" .internal, .newTransition "u" .internal, .newArc "a" (.transition ⟨0⟩),
    .newArc (.transition ⟨0⟩) "a", .newArc "c" (.transition ⟨0⟩), .newArc (.transition ⟨1⟩) "c",
    .setTokens "b" 2, .addFinalSet ["b", "c"], .merge "a" "b"]

/-- The first place goes by the handle of one that it came from, the second by its name. -/
theorem merge_isQuotient_sharedTransition :
    ∃ first second, (run sharedTransition).resolve? (⟨1⟩ : PlaceId) = some ⟨3⟩ ∧
      (run sharedTransition).resolve? "c" = some ⟨2⟩ ∧
      (run sharedTransition).place? ⟨3⟩ = some first ∧
      (run sharedTransition).place? ⟨2⟩ = some second ∧
      first.kind.join? second.kind = some .input ∧
      (first.postset.inter second.postset).size = 1 ∧
      ∃ m net', merge (⟨1⟩ : PlaceId) "c" (run sharedTransition) = .ok m net' ∧
        IsQuotient (run sharedTransition) net' .input ⟨3⟩ ⟨2⟩ m first second := by
  have hp : (run sharedTransition).resolve? (⟨1⟩ : PlaceId) = some ⟨3⟩ := by decide
  have hq : (run sharedTransition).resolve? "c" = some ⟨2⟩ := by decide
  have hfirst : (run sharedTransition).place? ⟨3⟩ = some
      ⟨⟨["b", "a"], by decide⟩, .internal, 2, true, .singleton ⟨0⟩, .singleton ⟨0⟩⟩ := by decide
  have hsecond : (run sharedTransition).place? ⟨2⟩ = some
      ⟨.singleton "c", .input, 0, true, .singleton ⟨1⟩, .singleton ⟨0⟩⟩ := by decide
  exact ⟨_, _, hp, hq, hfirst, hsecond, by decide, by decide,
    merge_isQuotient sharedTransition hp hq (by decide) hfirst hsecond (by decide)⟩

end Net

end OpenWorkflow
