import OpenWorkflow.Proofs.Drawing.Basic
import OpenWorkflow.Proofs.Net.Consistency

/-!
# Nets as drawings

A drawing need not begin with an empty net: every well-formed net is shown by
lines of its own (`WellFormed.shows_lines`), one for each name of a place, each
tie between the names of one place, each transition, arc and entry of a port.
What is drawn on top of the net is then shown by these lines and the new ones.
-/

namespace OpenWorkflow

variable {place : Place} {n : String} {tr : Transition}

namespace Net

/-! ## Arcs and neighbours -/

section FlowAgrees

variable {net : Net} (h : net.FlowAgrees) {p : PlaceId} {t : TransitionId}
include h

/-- A transition has a place as a neighbour where there is an arc for it. -/
theorem FlowAgrees.mem_ofTransition (flow : ArcKind) (ht : net.transition? t = some tr) :
    p ∈ flow.ofTransition tr ↔ flow.arc p t ∈ net.arcs := by
  rw [h.transition_iff]
  simp [ht]

theorem FlowAgrees.mem_preset (ht : net.transition? t = some tr) :
    p ∈ tr.preset ↔ ArcKind.consumes.arc p t ∈ net.arcs := h.mem_ofTransition .consumes ht

theorem FlowAgrees.mem_postset (ht : net.transition? t = some tr) :
    p ∈ tr.postset ↔ ArcKind.produces.arc p t ∈ net.arcs := h.mem_ofTransition .produces ht

theorem FlowAgrees.mem_ofPlace (flow : ArcKind) (hp : net.place? p = some place) :
    t ∈ flow.ofPlace place ↔ flow.arc p t ∈ net.arcs := by
  rw [h.place_iff]
  simp [hp]

theorem FlowAgrees.mem_place_preset (hp : net.place? p = some place) :
    t ∈ place.preset ↔ ArcKind.produces.arc p t ∈ net.arcs := h.mem_ofPlace .produces hp

theorem FlowAgrees.mem_place_postset (hp : net.place? p = some place) :
    t ∈ place.postset ↔ ArcKind.consumes.arc p t ∈ net.arcs := h.mem_ofPlace .consumes hp

end FlowAgrees

/-! ## The lines of a net -/

/-- Lines that show a net as it is. -/
def lines (net : Net) : List Line :=
  (net.places.flatMap fun x => x.2.history.toList.flatMap fun n =>
      [.place n x.2.kind, .joins x.2.name n])
    ++ (net.indexedTransitions.flatMap fun x => .transition x.2.name x.2.kind ::
      ((x.2.preset.toList.filterMap net.placeName?).map (.arc .consumes · x.2.name)
        ++ (x.2.postset.toList.filterMap net.placeName?).map (.arc .produces · x.2.name)))
    ++ net.ports.toList.flatMap fun x => x.2.toList.map (.port x.1 ·)

namespace WellFormed

variable {net : Net} (hw : net.WellFormed)
include hw

/-- A net draws a place for each of its names. -/
theorem place_mem_lines {kind : NodeKind} :
    .place n kind ∈ net.lines ↔
      ∃ id p, net.place? id = some p ∧ n ∈ p.history ∧ kind = p.kind := by
  simp [lines, hw.mem_places, OrderedSet.mem_def]

/-- A net joins all names of a place to the current one. -/
theorem joins_mem_lines {n' : String} :
    .joins n n' ∈ net.lines ↔ ∃ id p, net.place? id = some p ∧ n' ∈ p.history ∧ n = p.name := by
  simp [lines, hw.mem_places, OrderedSet.mem_def]

omit hw in
theorem transition_mem_lines {t : String} {kind : NodeKind} :
    .transition t kind ∈ net.lines ↔
      ∃ u tr, net.transition? u = some tr ∧ t = tr.name ∧ kind = tr.kind := by
  simp [lines, mem_indexedTransitions]

/-- A net draws its arcs between current names. -/
theorem arc_mem_lines {flow : ArcKind} {t : String} :
    .arc flow n t ∈ net.lines ↔ ∃ p place u tr, net.place? p = some place ∧ n = place.name ∧
      net.transition? u = some tr ∧ t = tr.name ∧ flow.arc p u ∈ net.arcs := by
  have hpre {u : TransitionId} {tr : Transition} (hu : net.transition? u = some tr) (p : PlaceId) :
      p ∈ tr.preset.toList ↔ ArcKind.consumes.arc p u ∈ net.arcs := hw.mem_preset hu
  have hpost {u : TransitionId} {tr : Transition} (hu : net.transition? u = some tr) (p : PlaceId) :
      p ∈ tr.postset.toList ↔ ArcKind.produces.arc p u ∈ net.arcs := hw.mem_postset hu
  have hmem : .arc flow n t ∈ net.lines ↔ ∃ u tr, net.transition? u = some tr ∧ t = tr.name ∧
      ∃ p, flow.arc p u ∈ net.arcs ∧ net.placeName? p = some n := by
    cases flow <;> simp [lines, mem_indexedTransitions] <;> grind
  rw [hmem]
  constructor
  · rintro ⟨u, tr, hu, ht, p, harc, hn⟩
    obtain ⟨place, hp, rfl⟩ := Option.map_eq_some_iff.1 hn
    exact ⟨p, place, u, tr, hp, rfl, hu, ht, harc⟩
  · rintro ⟨p, place, u, tr, hp, rfl, hu, ht, harc⟩
    exact ⟨u, tr, hu, ht, p, harc, by rw [placeName?, hp]; rfl⟩

omit hw in
theorem port_mem_lines {port : String} :
    .port port n ∈ net.lines ↔ ∃ names, net.ports.get? port = some names ∧ n ∈ names := by
  simp [lines, OrderedMap.get?_eq_some_iff, OrderedSet.mem_def]

/-- Every net is shown by lines. -/
theorem shows_lines : net.Shows net.lines where
  known {n} := by
    rw [knows_iff]
    simp only [hw.place_mem_lines, hw.find]
    constructor
    · rintro ⟨id, p, hp, hn⟩
      exact ⟨p.kind, id, p, hp, hn, rfl⟩
    · rintro ⟨_, id, p, hp, hn, -⟩
      exact ⟨id, p, hp, hn⟩
  kind {p place} hp :=
    ⟨place.name, hw.find_name hp, hw.place_mem_lines.2 ⟨p, place, hp, hw.current hp, rfl⟩⟩
  ties {n n'} hjoins := by
    obtain ⟨id, p, hp, hn', rfl⟩ := hw.joins_mem_lines.1 hjoins
    exact ⟨knows_of_find (hw.find_name hp), knows_of_find (hw.find_of_mem hp hn')⟩
  joined {n n'} hn hn' := by
    constructor
    · intro heq
      obtain ⟨id, hid⟩ := knows_iff.1 hn
      obtain ⟨p, hp, hmem⟩ := hw.find.1 hid
      obtain ⟨p', hp', hmem'⟩ := hw.find.1 (heq ▸ hid)
      obtain rfl := Option.some.inj (hp.symm.trans hp')
      exact (Joined.of_mem (hw.joins_mem_lines.2 ⟨id, p, hp, hmem, rfl⟩)).symm.trans
        (.of_mem (hw.joins_mem_lines.2 ⟨id, p, hp, hmem', rfl⟩))
    · intro hj
      refine ((hj.invariant (P := fun m => net.find? n = net.find? m) fun a b hab => ?_).1 rfl)
      obtain ⟨id, p, hp, hb, rfl⟩ := hw.joins_mem_lines.1 hab
      rw [hw.find_name hp, hw.find_of_mem hp hb]
  transition {t} := by
    rw [Option.isSome_iff_exists]
    simp only [transition_mem_lines, hw.indexed]
    constructor
    · rintro ⟨u, tr, hu, rfl⟩
      exact ⟨tr.kind, u, tr, hu, rfl, rfl⟩
    · rintro ⟨_, u, tr, hu, rfl, -⟩
      exact ⟨u, tr, hu, rfl⟩
  transition_kind {u tr} hu := transition_mem_lines.2 ⟨u, tr, hu, rfl, rfl⟩
  ends {flow n t} harc := by
    obtain ⟨p, place, u, tr, hp, rfl, hu, rfl, -⟩ := hw.arc_mem_lines.1 harc
    exact ⟨knows_of_find (hw.find_name hp),
      Option.isSome_iff_exists.2 ⟨u, hw.indexed.2 ⟨tr, hu, rfl⟩⟩⟩
  arc {flow p u} := by
    constructor
    · intro harc
      obtain ⟨⟨place, hp⟩, tr, hu⟩ := hw.ends_of_arc harc
      exact ⟨place.name, tr.name, hw.find_name hp, hw.indexed.2 ⟨tr, hu, rfl⟩,
        hw.arc_mem_lines.2 ⟨p, place, u, tr, hp, rfl, hu, rfl, harc⟩⟩
    · rintro ⟨n, t, hn, ht, hline⟩
      obtain ⟨p', place, u', tr, hp, rfl, hu, rfl, harc⟩ := hw.arc_mem_lines.1 hline
      obtain rfl := Option.some.inj ((hw.find_name hp).symm.trans hn)
      obtain rfl := Option.some.inj ((hw.indexed.2 ⟨tr, hu, rfl⟩).symm.trans ht)
      exact harc
  port {port n} := port_mem_lines.symm
  wellFormed := hw

end WellFormed

end Net

end OpenWorkflow
