import OpenWorkflow.Proofs.Drawing.Activity
import OpenWorkflow.Proofs.Drawing.Nets
import OpenWorkflow.Proofs.Drawing.Shape

/-!
# The interface of the net

The environment meets a net at its interface places. These come from the messages
of the activity and from nothing else: all other lines of the drawing stay inside
the net, joins tie only numbered names together, and no message is named like
that (`Activity.sheet_cases`). So the place of a message is found under one name
(`Shows.eq_placeName`), its kind is the direction of the message
(`Shows.kind_of_find`), and an arc touches it only at the transition of such a
message and only in that direction (`Shows.transition_cases`).
-/

namespace OpenWorkflow

open Activity (endLines messageLines messageFlow)

variable {flow : ArcKind} {id : PlaceId} {tr : Transition} {t : TransitionId}

/-- The kind of the places that arcs of one kind lead to the environment. -/
def ArcKind.direction : ArcKind → NodeKind
  | consumes => .input
  | produces => .output

theorem ArcKind.direction_ne_internal (flow : ArcKind) : flow.direction ≠ .internal := by
  cases flow <;> simp [direction]

theorem ArcKind.direction_ne_inOut (flow : ArcKind) : flow.direction ≠ .inOut := by
  cases flow <;> simp [direction]

theorem ArcKind.direction_inj {flow' : ArcKind} :
    flow.direction = flow'.direction ↔ flow = flow' := by
  cases flow <;> cases flow' <;> simp [direction]

/-! ## Names of messages -/

namespace Messaging

/-- The name of a message's place tells which way the message goes. -/
theorem isInbound_eq_of_placeName_eq {m m' : Messaging} {s s' : Scope}
    (h : m.placeName s = m'.placeName s') : m.kind.isInbound = m'.kind.isInbound := by
  have hhead (m : Messaging) (s : Scope) :
      (m.placeName s).toList.head? = some (if m.kind.isInbound then 'i' else 'o') := by
    unfold placeName
    cases m.kind.isReply <;> cases m.kind.isInbound <;> simp
  have heq := hhead m s
  rw [h, hhead m' s'] at heq
  cases hm : m.kind.isInbound <;> cases hm' : m'.kind.isInbound <;> simp [hm, hm'] at heq ⊢

/-- A message that comes in is consumed, one that goes out is produced. -/
theorem direction_eq (m : Messaging) : m.kind.direction = (messageFlow m).direction := by
  unfold MessageKind.direction messageFlow
  split <;> rfl

/-- Places of messages have no number. -/
theorem not_isNumbered_placeName (m : Messaging) (s : Scope) : ¬ IsNumbered (m.placeName s) :=
  (isMessage_placeName m s).not_isNumbered

end Messaging

/-! ## Messages of an activity -/

namespace Activity

variable {root : Activity} {s : Scope} {m m' : Messaging} {l : Line}

/-- The fragment with the number exchanges the message. -/
def Exchanges (root : Activity) (s : Scope) (m : Messaging) : Prop :=
  ∃ i, root.walk[i]? = some (.messaging m) ∧ s = ⟨1 + i⟩

theorem Exchanges.unique (h : root.Exchanges s m) (h' : root.Exchanges s m') : m = m' := by
  obtain ⟨i, hi, rfl⟩ := h
  obtain ⟨i', hi', hs⟩ := h'
  obtain rfl : i = i' := by
    injection hs with hs
    omega
  rw [hi] at hi'
  injection hi' with heq
  injection heq

theorem Exchanges.mem_sheet (h : root.Exchanges s m) (hl : l ∈ messageLines s m) :
    l ∈ root.sheet := by
  obtain ⟨i, hi, rfl⟩ := h
  have hdrawing : l ∈ root.drawing 1 := mem_drawing.2 ⟨i, _, hi, List.mem_append_right _ hl⟩
  exact List.mem_cons_of_mem _ (List.mem_cons_of_mem _ (List.mem_append_left _ hdrawing))

/-- A line of the whole drawing belongs to the fragment of a message or stays inside the net. -/
theorem sheet_cases (hl : l ∈ root.sheet) :
    (∃ s m, root.Exchanges s m ∧ l ∈ endLines s ++ messageLines s m) ∨
      ∃ ts s, (∀ x ∈ ts, ∃ b ∈ root.walk, x ∈ b.texts) ∧ (∀ m, ¬ root.Exchanges s m) ∧
        l.Inside ts s := by
  have houter (m : Messaging) : ¬ root.Exchanges ⟨0⟩ m := by
    rintro ⟨i, -, hs⟩
    injection hs with hs
    omega
  have hbound (hl : l.Inside [] ⟨0⟩) : ∃ ts s, (∀ x ∈ ts, ∃ b ∈ root.walk, x ∈ b.texts) ∧
      (∀ m, ¬ root.Exchanges s m) ∧ l.Inside ts s :=
    ⟨[], ⟨0⟩, fun _ hx => absurd hx List.not_mem_nil, houter, hl⟩
  simp only [sheet, List.mem_cons, List.mem_append] at hl
  rcases hl with rfl | rfl | hl | hl
  · exact .inr (hbound (by simp))
  · exact .inr (hbound (by simp))
  · obtain ⟨i, b, hb, hl⟩ := mem_drawing.1 hl
    by_cases hm : ∃ m, b = .messaging m
    · obtain ⟨m, rfl⟩ := hm
      exact .inl ⟨⟨1 + i⟩, m, ⟨i, hb, rfl⟩, hl⟩
    · refine .inr ⟨b.texts, ⟨1 + i⟩, fun x hx => ⟨b, List.mem_of_getElem? hb, hx⟩, ?_,
        (neat_lines (fun m hbm => hm ⟨m, hbm⟩) (1 + i) l hl).1⟩
      rintro m ⟨i', hi', hs⟩
      obtain rfl : i = i' := by
        injection hs with hs
        omega
      exact hm ⟨m, Option.some.inj (hb.symm.trans hi')⟩
  · exact .inr (hbound (neat_endLines _ l hl).1)

/-- Joins tie numbered names. -/
theorem isNumbered_of_joins {n n' : String} (h : .joins n n' ∈ root.sheet) :
    IsNumbered n ∧ IsNumbered n' := by
  rcases sheet_cases h with ⟨s, m, -, hl⟩ | ⟨ts, s, -, -, hn, hn'⟩
  · simp [endLines, messageLines] at hl
  · exact ⟨hn.isNumbered, hn'.isNumbered⟩

/-- A place of the drawing is inside the net, or belongs to a message. -/
theorem place_cases {n : String} {kind : NodeKind} (h : .place n kind ∈ root.sheet) :
    (kind = .internal ∧ IsNumbered n) ∨
      ∃ s m, root.Exchanges s m ∧ n = m.placeName s ∧ kind = m.kind.direction := by
  rcases sheet_cases h with ⟨s, m, hx, hl⟩ | ⟨ts, s, -, -, hkind, hn⟩
  · simp only [endLines, messageLines, List.cons_append, List.nil_append, List.mem_cons,
      Line.place.injEq, List.not_mem_nil, or_false, reduceCtorEq] at hl
    rcases hl with ⟨rfl, rfl⟩ | ⟨rfl, rfl⟩ | ⟨rfl, rfl⟩
    · exact .inl ⟨rfl, isNumbered_initialized s⟩
    · exact .inl ⟨rfl, isNumbered_closed s⟩
    · exact .inr ⟨s, m, hx, rfl, rfl⟩
  · exact .inl ⟨hkind, hn.owns.isNumbered⟩

/-- A port of the drawing lists the place of a message. -/
theorem exchanges_of_port {port n : String} (h : .port port n ∈ root.sheet) :
    ∃ s m, root.Exchanges s m ∧ n = m.placeName s := by
  rcases sheet_cases h with ⟨s, m, hx, hl⟩ | ⟨ts, s, -, -, hl⟩
  · simp only [endLines, messageLines, List.cons_append, List.nil_append, List.mem_cons,
      Line.port.injEq, List.not_mem_nil, or_false, false_or, reduceCtorEq] at hl
    exact ⟨s, m, hx, hl.2⟩
  · exact hl.elim

/-- An arc of the drawing goes to a place inside the net, or it is that of a message. -/
theorem arc_cases {n t : String} (h : .arc flow n t ∈ root.sheet) :
    IsNumbered n ∨ ∃ s m, root.Exchanges s m ∧ flow = messageFlow m ∧ n = m.placeName s ∧
      t = s.name m.kind.label := by
  rcases sheet_cases h with ⟨s, m, hx, hl⟩ | ⟨ts, s, -, -, hn, -⟩
  · simp only [endLines, messageLines, List.cons_append, List.nil_append, List.mem_cons,
      Line.arc.injEq, List.not_mem_nil, or_false, false_or, reduceCtorEq] at hl
    rcases hl with ⟨-, rfl, -⟩ | ⟨-, rfl, -⟩ | ⟨rfl, rfl, rfl⟩
    · exact .inl (isNumbered_initialized s)
    · exact .inl (isNumbered_closed s)
    · exact .inr ⟨s, m, hx, rfl, rfl, rfl⟩
  · exact .inl hn.isNumbered

/-- A transition of the drawing is inside the net and has no message, or it is that of one. -/
theorem transition_cases {t : String} {kind : NodeKind} (h : .transition t kind ∈ root.sheet) :
    (kind = .internal ∧ ∀ s m, root.Exchanges s m → t ≠ s.name m.kind.label) ∨
      ∃ s m, root.Exchanges s m ∧ t = s.name m.kind.label ∧ kind = m.kind.direction := by
  rcases sheet_cases h with ⟨s, m, hx, hl⟩ | ⟨ts, s, -, hs, hkind, ht⟩
  · simp only [endLines, messageLines, List.cons_append, List.nil_append, List.mem_cons,
      Line.transition.injEq, List.not_mem_nil, or_false, false_or, reduceCtorEq] at hl
    exact .inr ⟨s, m, hx, hl⟩
  · refine .inl ⟨hkind, ?_⟩
    rintro s' m hx rfl
    exact hs m (ht.owns.unique (s'.owns_name _) ▸ hx)

end Activity

/-! ## The net of an activity -/

/-- The net meets its environment at the place. -/
def Net.IsInterface (net : Net) (id : PlaceId) : Prop :=
  ∃ p, net.place? id = some p ∧ p.kind ≠ .internal

namespace Net.Shows

variable {root : Activity} {net : Net} (h : net.Shows root.sheet) {n n' : String} {p : PlaceId}
  {place : Place} {s : Scope} {m : Messaging}
include h

/-- A place has numbered names only, or none. -/
theorem isNumbered_iff (hn : net.find? n = some p) (hn' : net.find? n' = some p) :
    IsNumbered n ↔ IsNumbered n' := by
  have hjoined := (h.joined (knows_of_find hn) (knows_of_find hn')).1 (hn.trans hn'.symm)
  refine hjoined.invariant fun a b hab => ?_
  obtain ⟨ha, hb⟩ := Activity.isNumbered_of_joins hab
  exact iff_of_true ha hb

/-- The place of a message has one name. -/
theorem eq_placeName (hp : net.find? (m.placeName s) = some p) (hn : net.find? n = some p) :
    n = m.placeName s := by
  have hjoined := (h.joined (knows_of_find hp) (knows_of_find hn)).1 (hp.trans hn.symm)
  refine hjoined.eq_of_untied fun a b hab => ?_
  obtain ⟨ha, hb⟩ := Activity.isNumbered_of_joins hab
  constructor
  · rintro rfl
    exact m.not_isNumbered_placeName s ha
  · rintro rfl
    exact m.not_isNumbered_placeName s hb

/-- The internal places are those with a number. -/
theorem internal_iff (hn : net.find? n = some p) (hp : net.place? p = some place) :
    place.kind = .internal ↔ IsNumbered n := by
  obtain ⟨n', hn', hline⟩ := h.kind hp
  rw [h.isNumbered_iff hn hn']
  rcases Activity.place_cases hline with ⟨hkind, hnum⟩ | ⟨s, m, -, rfl, hkind⟩
  · exact iff_of_true hkind hnum
  · rw [hkind]
    exact iff_of_false m.direction_ne_internal (m.not_isNumbered_placeName s)

/-- A place that is not internal is that of a message. -/
theorem exchanges_of_kind (hp : net.place? p = some place) (hkind : place.kind ≠ .internal) :
    ∃ s m, root.Exchanges s m ∧ net.find? (m.placeName s) = some p ∧
      place.kind = m.kind.direction := by
  obtain ⟨n, hn, hline⟩ := h.kind hp
  rcases Activity.place_cases hline with ⟨hkind', -⟩ | ⟨s, m, hx, rfl, hkind'⟩
  · exact absurd hkind' hkind
  · exact ⟨s, m, hx, hn, hkind'⟩

/-- The place of a message takes the direction of the message. -/
theorem kind_of_find (hn : net.find? (m.placeName s) = some p) (hp : net.place? p = some place) :
    place.kind = m.kind.direction := by
  have hkind : place.kind ≠ .internal := by
    rw [Ne, h.internal_iff hn hp]
    exact m.not_isNumbered_placeName s
  obtain ⟨s', m', -, hn', hkind'⟩ := h.exchanges_of_kind hp hkind
  have heq := Messaging.isInbound_eq_of_placeName_eq (h.eq_placeName hn hn')
  rw [hkind', MessageKind.direction, MessageKind.direction, heq]

/-- Every message of the activity has its place. -/
theorem find_of_exchanges (hx : root.Exchanges s m) :
    ∃ p place, net.find? (m.placeName s) = some p ∧ net.place? p = some place := by
  have hknown : net.Knows (m.placeName s) :=
    h.known.2 ⟨_, hx.mem_sheet (List.mem_cons_self ..)⟩
  obtain ⟨p, hp⟩ := knows_iff.1 hknown
  obtain ⟨place, hplace⟩ := h.wellFormed.live_of_find hp
  exact ⟨p, place, hp, hplace⟩

/-- An arc at the place of a message goes the way of the message, and comes from the transition
of a message with that place. -/
theorem arc_of_find {u : TransitionId} (hp : net.find? (m.placeName s) = some p)
    (harc : flow.arc p u ∈ net.arcs) :
    flow = messageFlow m ∧ ∃ s' m', root.Exchanges s' m' ∧ m'.placeName s' = m.placeName s ∧
      net.findTransition? (s'.name m'.kind.label) = some u := by
  obtain ⟨n, t, hn, hu, hline⟩ := h.arc.1 harc
  obtain rfl := h.eq_placeName hp hn
  rcases Activity.arc_cases hline with hnum | ⟨s', m', hx, rfl, hname, rfl⟩
  · exact absurd hnum (m.not_isNumbered_placeName s)
  · have heq := Messaging.isInbound_eq_of_placeName_eq hname
    exact ⟨by rw [messageFlow, messageFlow, heq], s', m', hx, hname.symm, hu⟩

/-- The transition of a message has the arc of the message. -/
theorem arc_of_exchanges (hx : root.Exchanges s m) (hp : net.find? (m.placeName s) = some p) :
    ∃ u, net.findTransition? (s.name m.kind.label) = some u ∧
      (messageFlow m).arc p u ∈ net.arcs := by
  have hline : .arc (messageFlow m) (m.placeName s) (s.name m.kind.label) ∈ root.sheet :=
    hx.mem_sheet (by simp [messageLines])
  obtain ⟨u, hu⟩ := Option.isSome_iff_exists.1 (h.ends hline).2
  exact ⟨u, hu, h.arc.2 ⟨_, _, hp, hu, hline⟩⟩

/-- A transition exchanges nothing, or it has the arc of one message. -/
theorem transition_cases {u : TransitionId} (hu : net.transition? u = some tr) :
    (tr.kind = .internal ∧ ∀ (flow : ArcKind) p, net.IsInterface p → flow.arc p u ∉ net.arcs) ∨
      ∃ m p, tr.kind = m.kind.direction ∧ net.IsInterface p ∧
        ∀ (flow : ArcKind) q, net.IsInterface q →
          (flow.arc q u ∈ net.arcs ↔ flow = messageFlow m ∧ q = p) := by
  have hname : net.findTransition? tr.name = some u := h.wellFormed.indexed.2 ⟨tr, hu, rfl⟩
  -- An arc between the transition and the place of a message shows which message it is.
  have hmessage {flow : ArcKind} {q : PlaceId} (hq : net.IsInterface q)
      (harc : flow.arc q u ∈ net.arcs) : ∃ s m, root.Exchanges s m ∧
        tr.name = s.name m.kind.label ∧ flow = messageFlow m ∧
        net.find? (m.placeName s) = some q := by
    obtain ⟨place, hplace, hkind⟩ := hq
    obtain ⟨s, m, -, hfind, -⟩ := h.exchanges_of_kind hplace hkind
    obtain ⟨rfl, s', m', hx, heq, hu'⟩ := h.arc_of_find hfind harc
    have hin := Messaging.isInbound_eq_of_placeName_eq heq
    exact ⟨s', m', hx, h.wellFormed.name_inj hname hu', by rw [messageFlow, messageFlow, hin],
      heq ▸ hfind⟩
  rcases Activity.transition_cases (h.transition_kind hu) with
    ⟨hkind, hnone⟩ | ⟨s, m, hx, ht, hkind⟩
  · refine .inl ⟨hkind, fun flow q hq harc => ?_⟩
    obtain ⟨s, m, hx, ht, -⟩ := hmessage hq harc
    exact hnone s m hx ht
  · obtain ⟨p, place, hp, hplace⟩ := h.find_of_exchanges hx
    refine .inr ⟨m, p, hkind, ⟨place, hplace, ?_⟩, fun flow q hq => ⟨fun harc => ?_, ?_⟩⟩
    · rw [h.kind_of_find hp hplace]
      exact m.direction_ne_internal
    · obtain ⟨s', m', hx', ht', rfl, hq'⟩ := hmessage hq harc
      obtain ⟨rfl, -⟩ := Scope.name_inj.1 (ht.symm.trans ht')
      obtain rfl := hx.unique hx'
      exact ⟨rfl, Option.some.inj (hq'.symm.trans hp)⟩
    · rintro ⟨rfl, rfl⟩
      obtain ⟨u', hu', harc⟩ := h.arc_of_exchanges hx hp
      rw [← ht, hname] at hu'
      exact Option.some.inj hu' ▸ harc

end Net.Shows

/-! ## Discipline -/

namespace Net

/-- What the environment can rely on. Interface places are input or output places and are not
used for anything else; a transition exchanges at most one message, which its kind tells; and
the ports list the interface places and nothing else. -/
structure Disciplined (net : Net) : Prop where
  place_kind : ∀ {id p}, net.place? id = some p → p.kind ≠ .inOut
  input : ∀ {id p}, net.place? id = some p → p.kind = .input → p.preset = ∅ ∧ p.postset ≠ ∅
  output : ∀ {id p}, net.place? id = some p → p.kind = .output → p.postset = ∅ ∧ p.preset ≠ ∅
  unmarked : ∀ {id p}, net.place? id = some p → p.kind ≠ .internal →
    p.tokens = 0 ∧ p.isFinal = false ∧ ∀ set ∈ net.finalSets, ¬ id ∈ set
  transition_kind : ∀ {t tr}, net.transition? t = some tr → tr.kind ≠ .inOut
  touches : ∀ {t tr a b}, net.transition? t = some tr → net.IsInterface a → net.IsInterface b →
    a ∈ tr.preset ∨ a ∈ tr.postset → b ∈ tr.preset ∨ b ∈ tr.postset → a = b
  consumes : ∀ {t tr}, net.transition? t = some tr →
    ((∃ a, a ∈ tr.preset ∧ net.IsInterface a) ↔ tr.kind = .input)
  produces : ∀ {t tr}, net.transition? t = some tr →
    ((∃ a, a ∈ tr.postset ∧ net.IsInterface a) ↔ tr.kind = .output)
  silent : ∀ {t tr}, net.transition? t = some tr →
    ((∀ a, a ∈ tr.preset ∨ a ∈ tr.postset → ¬ net.IsInterface a) ↔ tr.kind = .internal)
  ported : ∀ {id}, net.IsInterface id → ∃ x ∈ net.portPlaces, id ∈ x.2
  members : ∀ x ∈ net.ports.toList, ∀ n, n ∈ x.2 → ∃ id, net.find? n = some id ∧ net.IsInterface id

namespace Shows

variable {root : Activity} {net : Net} (h : net.Shows root.sheet)
include h

/-- At an interface place there are arcs, and all go one way. -/
theorem one_way (flow : ArcKind) {p : Place} (hp : net.place? id = some p)
    (hkind : p.kind = flow.direction) : (∃ u, flow.arc id u ∈ net.arcs) ∧
      ∀ (flow' : ArcKind) u, flow'.arc id u ∈ net.arcs → flow' = flow := by
  obtain ⟨s, m, hx, hfind, hdir⟩ :=
    h.exchanges_of_kind hp (hkind ▸ flow.direction_ne_internal)
  rw [hkind, m.direction_eq, ArcKind.direction_inj] at hdir
  obtain ⟨u, -, harc⟩ := h.arc_of_exchanges hx hfind
  exact ⟨⟨u, hdir ▸ harc⟩, fun flow' u' harc' => hdir ▸ (h.arc_of_find hfind harc').1⟩

theorem ne_inOut {p : Place} (hp : net.place? id = some p) : p.kind ≠ .inOut := by
  intro hkind
  obtain ⟨s, m, -, -, hdir⟩ := h.exchanges_of_kind hp (by simp [hkind])
  rw [hkind, m.direction_eq] at hdir
  exact ArcKind.direction_ne_inOut _ hdir.symm

/-- A place with a name of a message has no part in the boundary. -/
theorem ne_of_numbered {i : PlaceId} {p : Place} {n : String} (hp : net.place? id = some p)
    (hkind : p.kind ≠ .internal) (hn : IsNumbered n) (hi : net.find? n = some i) : id ≠ i := by
  rintro rfl
  exact hkind ((h.internal_iff hi hp).2 hn)

/-- Every interface place is listed under a port. -/
theorem ported (hid : net.IsInterface id) : ∃ x ∈ net.portPlaces, id ∈ x.2 := by
  obtain ⟨p, hp, hkind⟩ := hid
  obtain ⟨s, m, hx, hfind, -⟩ := h.exchanges_of_kind hp hkind
  have hline : .port m.port (m.placeName s) ∈ root.sheet := hx.mem_sheet (by simp [messageLines])
  obtain ⟨names, hget, hmem⟩ := h.port.2 hline
  refine ⟨_, List.mem_map.2 ⟨(m.port, names), OrderedMap.get?_eq_some_iff.1 hget, rfl⟩, ?_⟩
  exact OrderedSet.mem_ofList.2 (List.mem_filterMap.2 ⟨_, hmem, hfind⟩)

theorem members {x : String × OrderedSet String} (hx : x ∈ net.ports.toList) {n : String}
    (hn : n ∈ x.2) : ∃ id, net.find? n = some id ∧ net.IsInterface id := by
  have hline := h.port.1 ⟨x.2, OrderedMap.get?_eq_some_iff.2 hx, hn⟩
  obtain ⟨s, m, hex, rfl⟩ := Activity.exchanges_of_port hline
  obtain ⟨id, p, hfind, hp⟩ := h.find_of_exchanges hex
  refine ⟨id, hfind, p, hp, ?_⟩
  rw [h.kind_of_find hfind hp]
  exact m.direction_ne_internal

/-- A transition exchanges a message in one direction exactly when it is of that kind. -/
theorem exchanges_iff (ht : net.transition? t = some tr) (flow : ArcKind) :
    (∃ a, flow.arc a t ∈ net.arcs ∧ net.IsInterface a) ↔ tr.kind = flow.direction := by
  rcases h.transition_cases ht with ⟨hkind, hnone⟩ | ⟨m, p, hkind, hp, hone⟩
  · refine iff_of_false ?_ (hkind ▸ flow.direction_ne_internal.symm)
    rintro ⟨a, harc, ha⟩
    exact hnone flow a ha harc
  · rw [hkind, m.direction_eq, ArcKind.direction_inj]
    constructor
    · rintro ⟨a, harc, ha⟩
      exact ((hone flow a ha).1 harc).1.symm
    · rintro rfl
      exact ⟨p, (hone _ p hp).2 ⟨rfl, rfl⟩, hp⟩

theorem transition_ne_inOut (ht : net.transition? t = some tr) : tr.kind ≠ .inOut := by
  rcases h.transition_cases ht with ⟨hkind, -⟩ | ⟨m, p, hkind, -⟩
  · simp [hkind]
  · rw [hkind, m.direction_eq]
    exact ArcKind.direction_ne_inOut _

/-- A transition exchanges one message at most. -/
theorem touches (ht : net.transition? t = some tr) {a b : PlaceId} {flow' : ArcKind}
    (ha : net.IsInterface a) (hb : net.IsInterface b) (harc : flow.arc a t ∈ net.arcs)
    (harc' : flow'.arc b t ∈ net.arcs) : a = b := by
  rcases h.transition_cases ht with ⟨-, hnone⟩ | ⟨m, p, -, -, hone⟩
  · exact absurd harc (hnone flow a ha)
  · rw [((hone flow a ha).1 harc).2, ((hone flow' b hb).1 harc').2]

end Shows

end Net

/-- **Interface discipline.** The net of an activity meets its environment in a regular way. -/
theorem compile_disciplined {root : Activity} {net : Net} (hok : compile root = .ok net) :
    net.Disciplined := by
  have h := compile_shows hok
  obtain ⟨hw, i, c, hbounds⟩ := compile_bounds hok
  refine ⟨h.ne_inOut, ?_, ?_, ?_, h.transition_ne_inOut, ?_, ?_, ?_, ?_, h.ported,
    fun x hx n hn => h.members hx hn⟩
  · intro id p hp hkind
    obtain ⟨⟨u, hu⟩, hall⟩ := h.one_way .consumes hp hkind
    rw [Ne, OrderedSet.eq_empty_iff, OrderedSet.eq_empty_iff]
    refine ⟨fun t ht => ?_, fun hempty => hempty u ((hw.mem_place_postset hp).2 hu)⟩
    cases hall _ t ((hw.mem_place_preset hp).1 ht)
  · intro id p hp hkind
    obtain ⟨⟨u, hu⟩, hall⟩ := h.one_way .produces hp hkind
    rw [Ne, OrderedSet.eq_empty_iff, OrderedSet.eq_empty_iff]
    refine ⟨fun t ht => ?_, fun hempty => hempty u ((hw.mem_place_preset hp).2 hu)⟩
    cases hall _ t ((hw.mem_place_postset hp).1 ht)
  · intro id p hp hkind
    have hi : id ≠ i := h.ne_of_numbered hp hkind (isNumbered_initialized _) hbounds.first
    have hc : id ≠ c := h.ne_of_numbered hp hkind (isNumbered_closed _) hbounds.last
    refine ⟨by rw [hbounds.tokens hp, if_neg hi], ?_, ?_⟩
    · rw [← Bool.not_eq_true, hbounds.flagged hp]
      exact hc
    · rw [hbounds.finals]
      intro set hset hmem
      obtain rfl := List.mem_singleton.1 hset
      exact hc (List.mem_singleton.1 hmem)
  · intro t tr a b ht ha hb hta htb
    rw [hw.mem_preset ht, hw.mem_postset ht] at hta htb
    rcases hta with hta | hta <;> rcases htb with htb | htb <;> exact h.touches ht ha hb hta htb
  · intro t tr ht
    simp only [hw.mem_preset ht]
    exact h.exchanges_iff ht .consumes
  · intro t tr ht
    simp only [hw.mem_postset ht]
    exact h.exchanges_iff ht .produces
  · intro t tr ht
    have hin := h.exchanges_iff ht .consumes
    have hout := h.exchanges_iff ht .produces
    simp only [hw.mem_preset ht, hw.mem_postset ht]
    constructor
    · intro hnone
      -- Of the four kinds, only the internal one is left.
      cases hkind : tr.kind with
      | internal => rfl
      | inOut => exact absurd hkind (h.transition_ne_inOut ht)
      | input =>
        obtain ⟨a, harc, ha⟩ := hin.2 hkind
        exact absurd ha (hnone a (.inl harc))
      | output =>
        obtain ⟨a, harc, ha⟩ := hout.2 hkind
        exact absurd ha (hnone a (.inr harc))
    · rintro hkind a (harc | harc) ha
      · exact ArcKind.direction_ne_internal _ ((hin.1 ⟨a, harc, ha⟩).symm.trans hkind)
      · exact ArcKind.direction_ne_internal _ ((hout.1 ⟨a, harc, ha⟩).symm.trans hkind)

/-- Two requests that share a channel, one in a loop, and an answer. -/
theorem compile_disciplined_requests :
    ∃ net, compile (.sequence [.messaging ⟨.receive, "Bank", "open"⟩,
        .loop .before (some (.messaging ⟨.receive, "Bank", "open"⟩)),
        .messaging ⟨.sendReply, "C", ""⟩]) = .ok net ∧ net.Disciplined := by
  obtain ⟨net, hok⟩ : ∃ net, compile (.sequence [.messaging ⟨.receive, "Bank", "open"⟩,
      .loop .before (some (.messaging ⟨.receive, "Bank", "open"⟩)),
      .messaging ⟨.sendReply, "C", ""⟩]) = .ok net :=
    exists_of_isOk (by decide +kernel)
  exact ⟨net, hok, compile_disciplined hok⟩

end OpenWorkflow
