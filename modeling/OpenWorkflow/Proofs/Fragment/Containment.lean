import OpenWorkflow.Proofs.Drawing.Frame
import OpenWorkflow.Proofs.Drawing.Graphs

/-!
# What a fragment leaves alone

The construction of a fragment draws lines of its activity. In a net where no name
has the number of the net or a later one, these are clear of all that is there but
places for messages (`Activity.clear_drawing`). So the fragment, be it finished or
refused at some point, has added only numbered nodes and places for its own
messages, and all else is as it was (`Activity.fragment_contained`).
-/

namespace OpenWorkflow

variable {a : Activity} {net net' : Net} {n : String} {L : List Line}

/-- What the construction of the fragment of an activity leaves of a net, and what it adds. -/
structure Activity.Contained (a : Activity) (net net' : Net) : Prop where
  wellFormed : net'.WellFormed
  scope : net.scope ≤ net'.scope
  /-- New places are numbered, or they are for a message of the activity. -/
  places : ∀ {id p}, net'.place? id = some p → net.place? id = none →
    (p.kind = .internal ∧ ∀ n ∈ p.history, Net.Numbered net.scope net'.scope n) ∨
    ∃ n ∈ a.messageNames net.scope, ∀ n', n' ∈ p.history ↔ n' = n
  /-- New transitions are numbered. -/
  transitions : ∀ {t tr}, net'.transition? t = some tr → net.transition? t = none →
    Net.Numbered net.scope net'.scope tr.name
  /-- Places are as they were, with their names, tokens and neighbours. -/
  place : ∀ {id p}, net.place? id = some p → (∀ n ∈ a.messageNames net.scope, n ∉ p.history) →
    net'.place? id = some p
  /-- Places for messages get new neighbours at most. -/
  message : ∀ {id p}, net.place? id = some p → ∃ p', net'.place? id = some p' ∧
    p'.history = p.history ∧ p'.kind = p.kind ∧ p'.tokens = p.tokens ∧ p'.isFinal = p.isFinal
  transition : ∀ {t tr}, net.transition? t = some tr → net'.transition? t = some tr
  finalSets : net'.finalSets = net.finalSets

/-- The names of the places that messages of the activity use. -/
theorem Activity.mem_messageNames {k : Nat} :
    n ∈ a.messageNames k ↔ ∃ (i : Nat) (m : Messaging),
      a.walk[i]? = some (.messaging m) ∧ n = m.placeName ⟨k + i⟩ := by
  unfold Activity.messageNames
  rw [List.mem_filterMap]
  constructor
  · rintro ⟨⟨b, j⟩, hmem, hsome⟩
    obtain ⟨i, hget, rfl⟩ := mem_zipIdx_iff.1 hmem
    cases b with
    | messaging m => exact ⟨i, m, hget, (Option.some.inj hsome).symm⟩
    | _ => cases hsome
  · rintro ⟨i, m, hi, rfl⟩
    exact ⟨(.messaging m, k + i), mem_zipIdx_iff.2 ⟨i, hi, rfl⟩, rfl⟩

/-! ## The lines of an activity -/

namespace Activity

/-- A place with the name of a message is one of the activity's messages. -/
theorem mem_messageNames_of_place {k : Nat} {kind : NodeKind} (hn : IsMessage n)
    (h : .place n kind ∈ a.drawing k) : n ∈ a.messageNames k := by
  obtain ⟨i, b, hb, hl⟩ := mem_drawing.1 h
  rcases lines_cases hl with hinside | ⟨m, rfl, hmessage⟩
  · exact absurd hinside.2.owns.isNumbered hn.not_isNumbered
  · simp only [messageLines, List.mem_cons, Line.place.injEq, List.not_mem_nil, or_false,
      reduceCtorEq] at hmessage
    exact mem_messageNames.2 ⟨i, m, hb, hmessage.1⟩

/-- An arc goes to a numbered place, or it is that of a message. -/
theorem numberedFrom_or_message_of_arc {k : Nat} {flow : ArcKind} {t : String}
    (h : .arc flow n t ∈ a.drawing k) : NumberedFrom k n ∨ n ∈ a.messageNames k := by
  obtain ⟨i, b, hb, hl⟩ := mem_drawing.1 h
  have hk : k ≤ k + i := Nat.le_add_right ..
  rcases lines_cases hl with ⟨⟨s, hs, hown⟩, -⟩ | ⟨m, rfl, hmessage⟩
  · exact .inl ⟨s, Nat.le_trans hk hs, hown⟩
  · simp only [messageLines, List.mem_cons, Line.arc.injEq, List.not_mem_nil, or_false, false_or,
      reduceCtorEq] at hmessage
    rcases hmessage with ⟨-, rfl, -⟩ | ⟨-, rfl, -⟩ | ⟨-, rfl, -⟩
    · exact .inl (numberedFrom_initialized.2 hk)
    · exact .inl (numberedFrom_closed.2 hk)
    · exact .inr (mem_messageNames.2 ⟨i, m, hb, rfl⟩)

section Clear

variable (hplaces : ∀ k x, net.scope ≤ k → net.find? (Scope.name ⟨k⟩ x) = none)
include hplaces

/-- No place has the number of the net or a later one. -/
theorem find?_of_numberedFrom (hn : NumberedFrom net.scope n) : net.find? n = none := by
  obtain ⟨s, hs, x, rfl⟩ := hn
  exact hplaces s.id x hs

/-- Lines of an activity are clear of a net in which no name has its number or a later one. -/
theorem clear_drawing
    (htransitions : ∀ k x, net.scope ≤ k → net.findTransition? (Scope.name ⟨k⟩ x) = none)
    {l : Line} (hl : l ∈ a.drawing net.scope) : l.Clear net := by
  obtain ⟨i, b, hb, hline⟩ := mem_drawing.1 hl
  have hk : net.scope ≤ net.scope + i := Nat.le_add_right ..
  have htransition {t : String} (ht : Scope.Owns ⟨net.scope + i⟩ t) :
      net.findTransition? t = none := by
    obtain ⟨x, rfl⟩ := ht
    exact htransitions _ x hk
  have hnumbered {m : String} (hm : NumberedFrom (net.scope + i) m) :
      net.find? m = none ∧ ¬ IsMessage m := by
    obtain ⟨s, hs, hown⟩ := hm
    exact ⟨find?_of_numberedFrom hplaces ⟨s, Nat.le_trans hk hs, hown⟩,
      fun h => h.not_isNumbered hown.isNumbered⟩
  cases l with
  | port port n => trivial
  | transition t kind => exact htransition (owns_of_transition hline)
  | arc flow n t => exact htransition (owns_of_arc hline)
  | place n kind =>
    rcases lines_cases hline with hinside | ⟨m, -, hmessage⟩
    · exact .inl ⟨hinside.1, hnumbered hinside.2.owns.numberedFrom⟩
    · simp only [messageLines, List.mem_cons, Line.place.injEq, List.not_mem_nil, or_false,
        reduceCtorEq] at hmessage
      obtain ⟨rfl, rfl⟩ := hmessage
      exact .inr ⟨m.direction_ne_internal, isMessage_placeName m _⟩
  | joins n n' =>
    rcases lines_cases hline with hinside | ⟨m, -, hmessage⟩
    · exact ⟨hnumbered hinside.1, hnumbered hinside.2⟩
    · simp [messageLines] at hmessage

/-- What lines of the activity lead to stays in the frame. -/
theorem contained_of_framed (hw : net.WellFormed) (h : net.Framed L net')
    (hscope : net.scope ≤ net'.scope)
    (hL : ∀ l ∈ L, l ∈ a.drawing net.scope ∧ l.Below net'.scope) : a.Contained net net' where
  wellFormed := h.wellFormed
  scope := hscope
  places {id p} hp hnone := by
    have hnew : net.slots.length ≤ id.index := by
      refine (h.old_or_new hp).resolve_left ?_
      rintro ⟨p', hp', -⟩
      rw [hnone] at hp'
      cases hp'
    refine (h.named hp hnew).imp (And.imp_right fun hnames n hn => ?_) ?_
    · obtain ⟨hdrawing, hbelow⟩ := hL _ (hnames n hn)
      obtain ⟨i, b, -, hl⟩ := mem_drawing.1 hdrawing
      have hown := owns_of_internal (mem_internals.2 hl)
      obtain ⟨x, rfl⟩ := hown
      exact Net.numbered_name.2 ⟨Nat.le_add_right .., hbelow _ (Scope.owns_name ..)⟩
    · rintro ⟨n, hmessage, hmem, hhist⟩
      exact ⟨n, mem_messageNames_of_place hmessage (hL _ hmem).1, hhist⟩
  transitions {t tr} ht hnone := by
    have hnew : net.transitions.length ≤ t.index := by
      refine Nat.le_of_not_lt fun hlt => ?_
      rw [Net.transition?, List.getElem?_eq_getElem hlt] at hnone
      cases hnone
    obtain ⟨kind, hmem⟩ := h.transitions ht hnew
    obtain ⟨hdrawing, hbelow⟩ := hL _ hmem
    obtain ⟨i, b, -, hl⟩ := mem_drawing.1 hdrawing
    obtain ⟨x, hx⟩ := owns_of_transition hl
    have hid := hbelow _ ⟨x, hx⟩
    rw [hx]
    exact Net.numbered_name.2 ⟨Nat.le_add_right .., hid⟩
  place {id p} hp hmsg := by
    refine h.kept hp fun n hn flow t hmem => ?_
    rcases numberedFrom_or_message_of_arc (hL _ hmem).1 with hnumbered | hmessage
    · have hnone := find?_of_numberedFrom hplaces hnumbered
      rw [hw.find_of_mem hp hn] at hnone
      cases hnone
    · exact hmsg n hmessage hn
  message := h.shared
  transition := h.transition
  finalSets := h.finals

end Clear

end Activity

/-- **A fragment stays in its frame.** Take any net that construction steps can lead to, in which
no name has the number of the net or a later one. The fragment of an activity, finished or not,
leaves everything as it was except for places of its messages, and what it adds is numbered. If
it is finished, its two ends are there. -/
theorem Activity.fragment_contained (a : Activity) (calls : List Call)
    (hplaces : ∀ k x, (Net.run calls).scope ≤ k →
      (Net.run calls).find? (Scope.name ⟨k⟩ x) = none)
    (htransitions : ∀ k x, (Net.run calls).scope ≤ k →
      (Net.run calls).findTransition? (Scope.name ⟨k⟩ x) = none) :
    a.Contained (Net.run calls) (a.fragment.after (Net.run calls)) ∧
      ∀ net', a.fragment (Net.run calls) = .ok () net' →
        ∀ n ∈ [Scope.initialized ⟨(Net.run calls).scope⟩, Scope.closed ⟨(Net.run calls).scope⟩],
          ∃ id p, net'.find? n = some id ∧ net'.place? id = some p := by
  have hw := Net.wellFormed_run calls
  -- Links may lead nowhere.
  have hdrawn := a.drawn_loose (Net.run calls) hw
  have hcontained {L : List Line} {net' : Net} (htraced : (Net.run calls).Traced L net')
      (hL : ∀ l ∈ L, l ∈ a.drawing (Net.run calls).scope ∧ l.Below net'.scope) :
      a.Contained (Net.run calls) net' :=
    contained_of_framed hplaces hw (htraced.framed hw fun l hl =>
      clear_drawing hplaces htransitions (hL l hl).1) htraced.scope_le hL
  unfold Build.after
  cases hrun : a.fragment (Net.run calls) with
  | error e net' =>
    obtain ⟨l, drawn, rest, htraced, -, hlines, hbelow⟩ := hdrawn.error hrun
    refine ⟨hcontained htraced fun x hx => ⟨?_, (hbelow x hx).resolve_left List.not_mem_nil⟩,
      fun _ h => nomatch h⟩
    exact hlines.mem_iff.1 (List.mem_cons_of_mem _ (List.mem_append_left _ hx))
  | ok _ net' =>
    obtain ⟨hext, hscope⟩ := hdrawn.ok hrun
    refine ⟨hcontained hext.traced fun x hx => ⟨hx, below_draw (Nat.le_of_eq ?_) hx⟩, ?_⟩
    · rw [hscope, Nat.add_assoc, ← a.size_eq]
      rfl
    · rintro _ ⟨⟩ n hn
      have hknows : net'.Knows n := hext.traced.knows hw (.inr (end_mem_internals a _ n hn))
      obtain ⟨id, hid⟩ := Option.isSome_iff_exists.1 hknows
      obtain ⟨p, hp⟩ := (hext.traced.wellFormed hw).live_of_find hid
      exact ⟨id, p, hid, hp⟩

/-- Numbered names begin with a digit. -/
theorem Scope.name_ne_of_head (hn : (n.toList.head?.all fun c => !c.isDigit) = true) (s : Scope)
    (x : String) : s.name x ≠ n := by
  rintro rfl
  obtain ⟨c, cs, hlist, hdigit⟩ := s.head_name x
  rw [hlist] at hn
  simp [hdigit] at hn

/-- Entries that do not begin with a digit have no numbered name. -/
theorem lookup_name_eq_none {α : Type} {s : Scope} {x : String} {entries : List (String × α)}
    (h : entries.all fun e => e.1.toList.head?.all fun c => !c.isDigit) :
    entries.lookup (s.name x) = none := by
  induction entries with
  | nil => rfl
  | cons e entries ih =>
    rw [List.all_cons, Bool.and_eq_true] at h
    have hne : (s.name x == e.1) = false := by
      rw [beq_eq_false_iff_ne]
      exact s.name_ne_of_head h.1 x
    rw [List.lookup_cons, hne]
    exact ih h.2

/-- A request for which the net has a place, and its reply. -/
theorem Activity.fragment_contained_reply :
    let calls : List Call := [.newPlace "in.Bank.open" .input, .newPlace "done" .internal,
      .newTransition "open" .input, .newArc "in.Bank.open" (⟨0⟩ : TransitionId), .nextScope]
    let a : Activity := .sequence [.messaging ⟨.receive, "Bank", "open"⟩,
      .messaging { kind := .sendReply }]
    (∀ k x, (Net.run calls).scope ≤ k → (Net.run calls).find? (Scope.name ⟨k⟩ x) = none) ∧
      (∀ k x, (Net.run calls).scope ≤ k →
        (Net.run calls).findTransition? (Scope.name ⟨k⟩ x) = none) ∧
      a.Contained (Net.run calls) (a.fragment.after (Net.run calls)) ∧
      ∃ net', a.fragment (Net.run calls) = .ok () net' ∧
        ∀ n ∈ [Scope.initialized ⟨1⟩, Scope.closed ⟨1⟩],
          ∃ id p, net'.find? n = some id ∧ net'.place? id = some p := by
  intro calls a
  have hfind (n : String) : (Net.run calls).find? n
      = [("in.Bank.open", ⟨0⟩), ("done", ⟨1⟩)].lookup n := rfl
  have hfindTransition (n : String) :
      (Net.run calls).findTransition? n = [("open", ⟨0⟩)].lookup n := rfl
  have hplaces (k : Nat) (x : String) (_ : (Net.run calls).scope ≤ k) :
      (Net.run calls).find? (Scope.name ⟨k⟩ x) = none := by
    rw [hfind]
    exact lookup_name_eq_none (by decide)
  have htransitions (k : Nat) (x : String) (_ : (Net.run calls).scope ≤ k) :
      (Net.run calls).findTransition? (Scope.name ⟨k⟩ x) = none := by
    rw [hfindTransition]
    exact lookup_name_eq_none (by decide)
  obtain ⟨hcontained, hends⟩ := a.fragment_contained calls hplaces htransitions
  obtain ⟨⟨⟩, net', hok, -⟩ := a.fragment.exists_of_test (Net.run calls) (fun _ _ => true)
    (by subst calls a; decide +kernel)
  exact ⟨hplaces, htransitions, hcontained, net', hok, hends net' hok⟩

end OpenWorkflow
