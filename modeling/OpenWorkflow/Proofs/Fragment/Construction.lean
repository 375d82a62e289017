import OpenWorkflow.Proofs.Fragment.Names
import OpenWorkflow.Proofs.Net.Calls

/-!
# The steps of a construction

What the calls that build a fragment do to a net: when they succeed, which names
they add, what an arc changes, and which places are internal after a merge.
-/

namespace OpenWorkflow

variable {net' : Net} {id : PlaceId} {n : String}

namespace Build

variable {α β : Type} {b : Build α} {f : α → Build β} {net : Net} {P : α → Net → Prop}
  {E : NetError → Net → Prop}

/-- How the construction ends: value and net are as described, or else error and net are. -/
def Ends (b : Build α) (net : Net) (P : α → Net → Prop) (E : NetError → Net → Prop) : Prop :=
  match b net with
  | .ok a net' => P a net'
  | .error e net' => E e net'

namespace Ends

theorem of_ok {a : α} (hb : b net = .ok a net') (hP : P a net') : b.Ends net P E := by
  simp only [Ends, hb]
  exact hP

theorem of_error {e : NetError} (hb : b net = .error e net') (hE : E e net') :
    b.Ends net P E := by
  simp only [Ends, hb]
  exact hE

theorem ok {a : α} (h : b.Ends net P E) (hb : b net = .ok a net') : P a net' := by
  simpa only [Ends, hb] using h

theorem error {e : NetError} (h : b.Ends net P E) (hb : b net = .error e net') : E e net' := by
  simpa only [Ends, hb] using h

/-- The ending of a construction can be weakened. -/
theorem imp {P' : α → Net → Prop} {E' : NetError → Net → Prop} (h : b.Ends net P E)
    (hP : ∀ a net', P a net' → P' a net') (hE : ∀ e net', E e net' → E' e net') :
    b.Ends net P' E' := by
  cases hb : b net with
  | ok a net' => exact of_ok hb (hP a net' (h.ok hb))
  | error e net' => exact of_error hb (hE e net' (h.error hb))

/-- One construction after another. -/
theorem bind {R : β → Net → Prop} (h : b.Ends net P E)
    (hf : ∀ a net', P a net' → (f a).Ends net' R E) : (b >>= f).Ends net R E := by
  cases hb : b net with
  | ok a net' =>
    have hrest := hf a net' (h.ok hb)
    unfold Ends at hrest ⊢
    rwa [bind_ok hb]
  | error e net' => exact of_error (bind_error hb) (h.error hb)

end Ends

end Build

namespace Net

/-- The name has a number between two bounds. -/
def Numbered (lo hi : Nat) (n : String) : Prop := ∃ k x, lo ≤ k ∧ k ≤ hi ∧ n = Scope.name ⟨k⟩ x

theorem numbered_name {lo hi : Nat} {s : Scope} {x : String} :
    Numbered lo hi (s.name x) ↔ lo ≤ s.id ∧ s.id ≤ hi := by
  constructor
  · rintro ⟨k, y, h1, h2, h⟩
    obtain ⟨rfl, -⟩ := Scope.name_inj.1 h
    exact ⟨h1, h2⟩
  · rintro ⟨h1, h2⟩
    exact ⟨s.id, x, h1, h2, rfl⟩

/-- The place is live and internal. -/
def Inner (net : Net) (id : PlaceId) : Prop :=
  ∃ p, net.place? id = some p ∧ p.kind.list = .internal

/-- Some place answers to the name. -/
def Knows (net : Net) (n : String) : Prop := (net.find? n).isSome

/-- The name leads to an internal place. -/
def LeadsInside (net : Net) (n : String) : Prop := ∃ id, net.find? n = some id ∧ net.Inner id

/-- The internal list holds the places of internal kind. -/
theorem mem_internal {net : Net} (h : net.ListsAgree) : id ∈ net.internal ↔ net.Inner id :=
  show id ∈ net.listed .internal ↔ _ from h.listed

/-- A transition that is as it was has no arc to a place that was not there. -/
theorem FlowAgrees.not_mem_of_new {base net : Net} (h : net.FlowAgrees) (hbase : base.FlowAgrees)
    {t : TransitionId} {tr : Transition} (ht : base.transition? t = some tr)
    (ht' : net.transition? t = some tr) {p : PlaceId} {place : Place}
    (hp : net.place? p = some place) (hnew : base.slots.length ≤ p.index) :
    t ∉ place.preset ∧ t ∉ place.postset := by
  have hnot (flow : ArcKind) : t ∉ flow.ofPlace place := by
    intro hmem
    obtain ⟨u, hu, hof⟩ := h.transition_iff.1 (h.place_iff.2 ⟨place, hp, hmem⟩)
    obtain rfl := Option.some.inj (ht'.symm.trans hu)
    obtain ⟨q, hq, -⟩ := hbase.place_iff.1 (hbase.transition_iff.2 ⟨tr, ht, hof⟩)
    exact absurd (base.lt_of_place? hq) (Nat.not_lt.2 hnew)
  exact ⟨hnot .produces, hnot .consumes⟩

/-! ## New places and arcs -/

section calls

variable {net : Net}

theorem find?_addPlace_ofName (name n : String) (kind : NodeKind) :
    (net.addPlace (.ofName name kind)).find? n
      = if n = name then some net.freshPlace else net.find? n := by
  have hmem : n ∈ (Place.ofName name kind).history ↔ n = name := List.mem_singleton
  rw [find?_addPlace]
  simp only [hmem]

theorem find?_addPlace_of_some {name : String} {kind : NodeKind} (hfresh : net.find? name = none)
    (hf : net.find? n = some id) : (net.addPlace (.ofName name kind)).find? n = some id := by
  rw [find?_addPlace_ofName, if_neg, hf]
  rintro rfl
  rw [hfresh] at hf
  cases hf

/-- A place can be made under a fresh name. -/
theorem newPlace_ok {name : String} (kind : NodeKind) (hname : name ≠ "")
    (hfresh : net.find? name = none) :
    newPlace name kind net = .ok net.freshPlace (net.addPlace (.ofName name kind)) := by
  unfold newPlace
  have hdup : net.names.contains name = false := by
    rw [OrderedMap.contains]
    exact Option.isSome_eq_false_iff.2 (Option.isNone_iff_eq_none.2 hfresh)
  rw [if_neg hname, hdup, if_neg Bool.false_ne_true]
  rfl

theorem locate_named {p : PlaceId} (hf : net.find? n = some p) :
    locate n net = .ok (.place p) net := by
  have hl : locatePlace (.named n) net = .ok p net := by simp only [locatePlace, resolve?, hf]
  exact Build.bind_ok hl

/-- An arc can be drawn between nodes that are there. -/
theorem newArc_ok {p : PlaceId} {t : TransitionId} (flow : ArcKind) (hf : net.find? n = some p)
    (ht : t.index < net.transitions.length) :
    flow.newArc n t net = .ok () (net.connect (flow.arc p t)) := by
  have hl : locate t net = .ok (.transition t) net := if_pos ht
  cases flow <;>
    simp only [ArcKind.newArc, newArc, bind, EStateM.bind, locate_named hf, hl, ArcKind.arc]

end calls

/-! ## What an arc changes -/

section connect

variable {net : Net} {flow : ArcKind} {p x : PlaceId} {t u : TransitionId}

/-- A place may get a neighbour, but nothing else about it changes. -/
theorem exists_place?_connect {q : Place} (hq : net.place? x = some q) :
    ∃ q', (net.connect (flow.arc p t)).place? x = some q' ∧ q'.history = q.history ∧
      q'.kind = q.kind ∧ q'.tokens = q.tokens ∧ q'.isFinal = q.isFinal := by
  rw [place?_connect, hq]
  split
  · exact ⟨_, rfl, flow.onPlace_keeps ..⟩
  · exact ⟨q, rfl, rfl, rfl, rfl, rfl⟩

theorem exists_place?_of_connect {q' : Place}
    (hq' : (net.connect (flow.arc p t)).place? x = some q') :
    ∃ q, net.place? x = some q ∧ q'.history = q.history ∧ q'.kind = q.kind ∧
      q'.tokens = q.tokens ∧ q'.isFinal = q.isFinal := by
  rw [place?_connect] at hq'
  split at hq'
  · obtain ⟨q, hq, rfl⟩ := Option.map_eq_some_iff.1 hq'
    exact ⟨q, hq, flow.onPlace_keeps ..⟩
  · exact ⟨q', hq', rfl, rfl, rfl, rfl⟩

/-- Transitions keep their names and kinds. -/
theorem exists_transition?_of_connect {tr' : Transition}
    (htr' : (net.connect (flow.arc p t)).transition? u = some tr') :
    ∃ tr, net.transition? u = some tr ∧ tr'.name = tr.name ∧ tr'.kind = tr.kind := by
  rw [transition?_connect] at htr'
  split at htr'
  · obtain ⟨tr, htr, rfl⟩ := Option.map_eq_some_iff.1 htr'
    exact ⟨tr, htr, ArcKind.name_onTransition ..⟩
  · exact ⟨tr', htr', rfl, rfl⟩

end connect

/-! ## One place in the place of two -/

/-- Internal places can always become one. -/
theorem Inner.mergeable {net : Net} {a b : PlaceId} (ha : net.Inner a) (hb : net.Inner b)
    (hne : a ≠ b) : ∃ kind first second, net.Mergeable a b kind first second := by
  obtain ⟨first, hfirst, hk⟩ := ha
  obtain ⟨second, hsecond, hk'⟩ := hb
  obtain ⟨kind, hkind⟩ : ∃ kind, first.kind.join? second.kind = some kind := by
    revert hk hk'
    cases first.kind <;> cases second.kind <;> simp [NodeKind.list, NodeKind.join?]
  exact ⟨kind, first, second, hne, hfirst, hsecond, hkind⟩

theorem list_join {k k' kind : NodeKind} (hk : k.list = .internal) (hk' : k'.list = .internal)
    (h : k.join? k' = some kind) : kind.list = .internal := by
  cases k <;> cases k' <;> simp_all [NodeKind.list, NodeKind.join?] <;> subst h <;> rfl

namespace Mergeable

variable {net : Net} {a b : PlaceId} {kind : NodeKind} {first second : Place}
  (h : net.Mergeable a b kind first second)
include h

theorem inner_left_iff : net.Inner a ↔ first.kind.list = .internal := by
  unfold Inner
  rw [h.left]
  simp

theorem inner_right_iff : net.Inner b ↔ second.kind.list = .internal := by
  unfold Inner
  rw [h.right]
  simp

/-- The internal places after a merge of two of them. -/
theorem inner_unify (ha : net.Inner a) (hb : net.Inner b) :
    (net.unify kind a b first second).Inner id
      ↔ ∃ id', net.Inner id' ∧ redirect a b net.freshPlace id' = id := by
  constructor
  · rintro ⟨p, hp, hk⟩
    rcases h.place?_unify_cases hp with ⟨hid, -⟩ | ⟨hab, hp⟩
    · exact ⟨a, ha, redirect_left.trans hid.symm⟩
    · exact ⟨id, ⟨p, hp, hk⟩, redirect_of_ne hab.1 hab.2⟩
  · rintro ⟨id', hin, rfl⟩
    by_cases hab : id' = a ∨ id' = b
    · refine ⟨united kind first second, ?_, ?_⟩
      · rw [redirect, if_pos hab, h.place?_unify, if_pos rfl]
      · exact list_join (h.inner_left_iff.1 ha) (h.inner_right_iff.1 hb) h.kind
    · obtain ⟨p, hp, hk⟩ := hin
      refine ⟨p, ?_, hk⟩
      rw [redirect, if_neg hab, h.place?_unify, if_neg (net.ne_freshPlace hp), if_neg hab, hp]

end Mergeable

end Net

end OpenWorkflow
