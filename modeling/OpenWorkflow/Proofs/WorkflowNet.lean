import OpenWorkflow.Proofs.Ambiguity
import OpenWorkflow.Proofs.Drawing.Ends
import OpenWorkflow.Proofs.Interface

/-!
# Workflow nets

A workflow net starts in one place and ends in another that nothing leaves. The
places where a fragment ends have a name among the ends of its activity
(`Activity.ends`); those where it starts have none. No line ties the two kinds of
names together or consumes from an end, so this is what the fragment leaves
behind wherever it is built (`Activity.fragment_boundary`), and what the whole net
looks like in the end. Two things are taken for granted of a state machine. It
does not start in a final state with nothing to do, for then its two ends would
become one place. And the states that it names are there, which is checked when a
document is read (`parseDocument_links`) but not when it is compiled: a name that
is no state's can be that of another place, even of the end
(`compile_workflow_dangling`).
-/

namespace OpenWorkflow

open Activity (endLines messageLines)

namespace Net

variable {net : Net} {L : List Line} {E : String → Prop} {first last : String}

/-- The two names lead to different places, and nothing consumes from the second one. -/
def Parts (net : Net) (first last : String) : Prop :=
  ∃ i c p, net.find? first = some i ∧ net.find? last = some c ∧ i ≠ c ∧
    net.place? c = some p ∧ p.postset = ∅

/-- A place with a name among the ends has no other name, and nothing consumes from it. -/
theorem Shows.parts (h : net.Shows L) (hE : Respects E E L) (hfirst : net.Knows first)
    (hlast : net.Knows last) (hout : ¬ E first) (hin : E last) : net.Parts first last := by
  obtain ⟨i, hi⟩ := knows_iff.1 hfirst
  obtain ⟨c, hc⟩ := knows_iff.1 hlast
  obtain ⟨p, hp⟩ := h.wellFormed.live_of_find hc
  have hsame {n : String} (hn : net.find? n = some c) : E n := by
    have hjoined := (h.joined hlast (knows_of_find hn)).1 (hc.trans hn.symm)
    exact (hjoined.invariant fun a b hab => hE _ hab).1 hin
  refine ⟨i, c, p, hi, hc, ?_, hp, ?_⟩
  · rintro rfl
    exact hout (hsame hi)
  · rw [OrderedSet.eq_empty_iff]
    intro t ht
    obtain ⟨n, name, hn, -, hline⟩ := h.arc.1 ((h.wellFormed.mem_place_postset hp).1 ht)
    exact hE _ hline (hsame hn)

/-- A net in which no end has a name respects the ends. -/
theorem Shows.respects (h : net.Shows L) (hE : ∀ n, E n → net.find? n = none) : Respects E E L := by
  have hunknown {n : String} (hn : net.Knows n) : ¬ E n := by
    intro hEn
    rw [Knows, hE n hEn] at hn
    cases hn
  intro l hl
  cases l with
  | joins n n' => exact iff_of_false (hunknown (h.ties hl).1) (hunknown (h.ties hl).2)
  | arc flow n t =>
    cases flow with
    | consumes => exact hunknown (h.ends hl).1
    | produces => trivial
  | _ => trivial

end Net

/-! ## Fragments -/

/-- The fragment of an activity, wherever it is built, starts in one place and ends in another
that nothing leaves. -/
theorem Activity.fragment_boundary {a : Activity} {net net' : Net} (hw : net.WellFormed)
    (hplaces : ∀ k x, net.scope ≤ k → net.find? (Scope.name ⟨k⟩ x) = none)
    (hlinks : ∀ b ∈ a.walk, b.type = .stateMachine → b.Links) (hopens : ∀ b ∈ a.walk, b.Opens)
    (hok : a.fragment net = .ok () net') :
    net'.Parts (Scope.initialized ⟨net.scope⟩) (Scope.closed ⟨net.scope⟩) := by
  have hfine := fine_of_ok hw hok
  have htraced := traced_of_ok hw hok
  have hshows := htraced.shows hw.shows_lines
  obtain ⟨hclosed, hinit⟩ := ends_closed hfine net.scope
  refine hshows.parts ((respects_drawing hlinks hopens (fun _ => isNumbered_of_ends)
    (spread_ends hfine _)).append (hw.shows_lines.respects ?_)) ?_ ?_ hinit hclosed
  · rintro n ⟨i, b, x, -, -, rfl⟩
    exact hplaces _ _ (Nat.le_add_right ..)
  · exact htraced.knows hw (.inr (end_mem_internals a _ _ (by simp)))
  · exact htraced.knows hw (.inr (end_mem_internals a _ _ (by simp)))

/-! ## The whole net -/

namespace Activity

variable {root : Activity}

/-- The names of the places that the whole net ends with. -/
def finals (root : Activity) (n : String) : Prop := root.ends 1 n ∨ n = Scope.closed ⟨0⟩

theorem not_finals_initialized : ¬ root.finals (Scope.initialized ⟨0⟩) := by
  rintro (h | h)
  · exact not_ends_of_lt Nat.zero_lt_one _ h
  · exact Scope.initialized_ne_closed _ h

/-- Inside the boundary, the ends are those of the activity. -/
theorem finals_name_iff {k : Nat} (hk : 1 ≤ k) {x : String} :
    root.finals (Scope.name ⟨k⟩ x) ↔ root.ends 1 (Scope.name ⟨k⟩ x) := by
  refine or_iff_left fun heq => ?_
  obtain ⟨hscope, -⟩ := Scope.name_inj.1 heq
  injection hscope with hscope
  omega

theorem isNumbered_of_finals {n : String} (h : root.finals n) : IsNumbered n := by
  rcases h with h | rfl
  · exact isNumbered_of_ends h
  · exact isNumbered_closed _

/-- The whole drawing respects the ends of the net. -/
theorem respects_sheet (hfine : root.Fine)
    (hlinks : ∀ b ∈ root.walk, b.type = .stateMachine → b.Links)
    (hopens : ∀ b ∈ root.walk, b.Opens) : Respects root.finals root.finals root.sheet := by
  obtain ⟨hclosed, hinit⟩ := ends_closed hfine 1
  have hspread : Spread root.finals 1 (root.walkEnds true) := by
    intro i b v hi
    obtain ⟨htold, honly⟩ := spread_ends hfine 1 i b v hi
    refine ⟨fun x hx => ?_, fun x hx => honly x ((finals_name_iff (Nat.le_add_right ..)).1 hx)⟩
    rw [finals_name_iff (Nat.le_add_right ..)]
    exact htold x hx
  have hinit' : ¬ root.finals (Scope.initialized ⟨1⟩) := by
    rw [Scope.initialized, finals_name_iff (Nat.le_refl 1)]
    exact hinit
  intro l hl
  simp only [sheet, List.mem_cons, List.mem_append] at hl
  rcases hl with rfl | rfl | hl | hl
  · exact iff_of_true (.inr rfl) (.inl hclosed)
  · exact iff_of_false not_finals_initialized hinit'
  · exact respects_drawing hlinks hopens (fun _ => isNumbered_of_finals) hspread l hl
  · simp only [endLines, List.mem_cons, List.not_mem_nil, or_false] at hl
    rcases hl with rfl | rfl <;> trivial

/-- Every transition of the drawing has an arc of either kind inside the net. -/
theorem arc_of_transition {t : String} {kind : NodeKind}
    (h : .transition t kind ∈ root.sheet) (flow : ArcKind) :
    ∃ n, IsNumbered n ∧ .arc flow n t ∈ root.sheet := by
  have hsheet {l : Line} (hl : l ∈ root.drawing 1) : l ∈ root.sheet :=
    List.mem_cons_of_mem _ (List.mem_cons_of_mem _ (List.mem_append_left _ hl))
  have hline : .transition t kind ∈ root.drawing 1 := by
    simpa [sheet, endLines] using h
  obtain ⟨i, b, hb, hl⟩ := mem_drawing.1 hline
  by_cases hm : ∃ m, b = .messaging m
  · obtain ⟨m, rfl⟩ := hm
    have ht : t = Scope.name ⟨1 + i⟩ m.kind.label := by
      simp only [lines, innerLines, endLines, messageLines, List.cons_append, List.nil_append,
        List.mem_cons, Line.transition.injEq, List.not_mem_nil, or_false, false_or,
        reduceCtorEq] at hl
      exact hl.1
    subst ht
    cases flow with
    | consumes =>
      refine ⟨Scope.initialized ⟨1 + i⟩, isNumbered_initialized _, hsheet ?_⟩
      refine mem_drawing.2 ⟨i, _, hb, ?_⟩
      simp [lines, innerLines, messageLines]
    | produces =>
      refine ⟨Scope.closed ⟨1 + i⟩, isNumbered_closed _, hsheet ?_⟩
      refine mem_drawing.2 ⟨i, _, hb, ?_⟩
      simp [lines, innerLines, messageLines]
  · have hneat := neat_lines (fun m hbm => hm ⟨m, hbm⟩) (1 + i)
    have harc : HasArc (b.lines (1 + i)) flow t := by
      cases flow with
      | consumes => exact (hneat _ hl).2.1
      | produces => exact (hneat _ hl).2.2
    obtain ⟨n, hn⟩ := harc
    exact ⟨n, (hneat _ hn).1.1.isNumbered, hsheet (mem_drawing.2 ⟨i, b, hb, hn⟩)⟩

/-- What is built in something built in an activity is built in the activity. -/
theorem walk_subset {a b : Activity} (h : b ∈ a.walk) : b.walk ⊆ a.walk := by
  induction a using Activity.built_induction with
  | h a ih =>
    rw [walk_eq, List.mem_cons] at h
    rcases h with rfl | h
    · exact List.Subset.refl _
    · obtain ⟨c, hc, hb⟩ := List.mem_flatMap.1 h
      intro d hd
      rw [walk_eq]
      exact List.mem_cons_of_mem _ (List.mem_flatMap.2 ⟨c, hc, ih c hc hb hd⟩)

end Activity

/-- Every transition has an arc of either kind to an internal place. -/
theorem Net.Shows.internal_arc {root : Activity} {net : Net} (h : net.Shows root.sheet)
    {t : TransitionId} {tr : Transition} (ht : net.transition? t = some tr) (flow : ArcKind) :
    ∃ a p, flow.arc a t ∈ net.arcs ∧ net.place? a = some p ∧ p.kind = .internal := by
  obtain ⟨n, hn, hline⟩ := Activity.arc_of_transition (h.transition_kind ht) flow
  obtain ⟨a, ha⟩ := Net.knows_iff.1 (h.ends hline).1
  obtain ⟨p, hp⟩ := h.wellFormed.live_of_find ha
  have hname : net.findTransition? tr.name = some t := h.wellFormed.indexed.2 ⟨tr, ht, rfl⟩
  exact ⟨a, p, h.arc.2 ⟨n, tr.name, ha, hname, hline⟩, hp, (h.internal_iff ha hp).2 hn⟩

/-- **Workflow nets.** If an activity has been read from a document, or its state machines name
states that are there, and no state machine is over as soon as it starts, the net of the activity
starts in one place and ends in another that nothing leaves, and each transition consumes from an
internal place and produces to one. And so it is for every fragment of the activity when it is
finished: in whatever net it is built, as long as no place there has the number of the net or a
later one, its two ends differ and nothing leaves the second one. -/
theorem compile_workflow {root : Activity} {net : Net} (hok : compile root = .ok net)
    (hread : (∃ r tokens, parseDocument r tokens = .ok root) ∨
      ∀ b ∈ root.walk, b.type = .stateMachine → b.Links)
    (hopens : ∀ b ∈ root.walk, b.Opens) :
    net.Parts "0.internal.initialized" "0.internal.closed" ∧
      (∀ t tr, net.transition? t = some tr →
        (∃ a p, a ∈ tr.preset ∧ net.place? a = some p ∧ p.kind = .internal) ∧
          ∃ a p, a ∈ tr.postset ∧ net.place? a = some p ∧ p.kind = .internal) ∧
      ∀ b ∈ root.walk, ∀ before after : Net, before.WellFormed →
        (∀ k x, before.scope ≤ k → before.find? (Scope.name ⟨k⟩ x) = none) →
        b.fragment before = .ok () after →
          after.Parts (Scope.initialized ⟨before.scope⟩) (Scope.closed ⟨before.scope⟩) := by
  have hlinks : ∀ b ∈ root.walk, b.type = .stateMachine → b.Links := by
    rcases hread with ⟨r, tokens, hparse⟩ | hlinks
    · exact fun b hb _ => parseDocument_links hparse b hb
    · exact hlinks
  have h := compile_shows hok
  have hw := h.wellFormed
  obtain ⟨inner, tied, hinner, -⟩ := compile_splices hok
  have hfine := Activity.fine_of_ok Net.ready_inside.wellFormed hinner
  obtain ⟨-, i, c, hbounds⟩ := compile_bounds hok
  refine ⟨?_, ?_, ?_⟩
  · exact h.parts (Activity.respects_sheet hfine hlinks hopens) (Net.knows_of_find hbounds.first)
      (Net.knows_of_find hbounds.last) Activity.not_finals_initialized (.inr rfl)
  · intro t tr ht
    obtain ⟨a, p, harc, hp⟩ := h.internal_arc ht .consumes
    obtain ⟨a', p', harc', hp'⟩ := h.internal_arc ht .produces
    exact ⟨⟨a, p, (hw.mem_preset ht).2 harc, hp⟩, a', p', (hw.mem_postset ht).2 harc', hp'⟩
  · intro b hb before after hbefore hplaces hb'
    have hsub := Activity.walk_subset hb
    exact Activity.fragment_boundary hbefore hplaces
      (fun c hc => hlinks c (hsub hc)) (fun c hc => hopens c (hsub hc)) hb'

/-- A request, and then a state machine that goes on to a final state with nothing to do. The
fragment of both, when it is finished, and the whole net. -/
theorem compile_workflow_machine :
    let root : Activity := .sequence [.messaging ⟨.receive, "Bank", "open"⟩,
      .stateMachine (some "idle") [⟨"idle", false, none, none, [⟨"done", none, false, none⟩]⟩,
        ⟨"done", true, none, none, []⟩] []]
    (∀ b ∈ root.walk, b.type = .stateMachine → b.Links) ∧ (∀ b ∈ root.walk, b.Opens) ∧
      ∃ inner net, root.fragment Net.inside = .ok () inner ∧ compile root = .ok net ∧
        inner.Parts "1.internal.initialized" "1.internal.closed" ∧
        net.Parts "0.internal.initialized" "0.internal.closed" := by
  intro root
  have hlinks : ∀ b ∈ root.walk, b.type = .stateMachine → b.Links := by
    simp [root, Activity.walk_eq, Activity.built, State.built, Activity.Links,
      Fragment.StateMachine.triggerKeys]
    exact fun _ => ⟨by simp, by simp⟩
  have hopens : ∀ b ∈ root.walk, b.Opens := by
    simp [root, Activity.walk_eq, Activity.built, State.built, Activity.Opens,
      Fragment.StateMachine.triggerKeys]
  obtain ⟨net, hok⟩ : ∃ net, compile root = .ok net := exists_of_isOk (by decide +kernel)
  obtain ⟨inner, -, hinner, -⟩ := compile_splices hok
  obtain ⟨hparts, -, hfragments⟩ := compile_workflow hok (.inr hlinks) hopens
  have hroot : root ∈ root.walk := by
    rw [Activity.walk_eq]
    exact List.mem_cons_self ..
  exact ⟨hlinks, hopens, inner, net, hinner, hok, hfragments root hroot _ _
    Net.ready_inside.wellFormed (fun _ _ => Net.ready_inside.place) hinner, hparts⟩

/-- A state machine that starts in a state which is not there. The start of that state would have
the name of the target of a transition, which leads to a final state with nothing to do: the net
ends where it starts. -/
theorem compile_workflow_dangling :
    let root : Activity := .stateMachine (some "y.to1.f")
      [⟨"y", false, none, none, [⟨"f.initialized", none, false, none⟩]⟩,
        ⟨"f.initialized", true, none, none, []⟩] []
    (∀ b ∈ root.walk, b.Opens) ∧ ∃ net, compile root = .ok net ∧
      ¬ net.Parts "0.internal.initialized" "0.internal.closed" := by
  intro root
  refine ⟨?_, ?_⟩
  · simp [root, Activity.walk_eq, Activity.built, State.built, Activity.Opens,
      Fragment.StateMachine.triggerKeys]
  · obtain ⟨net, hok, hone⟩ : ∃ net, compile root = .ok net ∧
        net.find? "0.internal.initialized" = net.find? "0.internal.closed" := by
      have hone : (compile root).toOption.map (fun net =>
          net.find? "0.internal.initialized" == net.find? "0.internal.closed") = some true := by
        decide +kernel
      cases hok : compile root with
      | error e => rw [hok] at hone; cases hone
      | ok net =>
        rw [hok] at hone
        exact ⟨net, rfl, eq_of_beq (Option.some.inj hone)⟩
    refine ⟨net, hok, ?_⟩
    rintro ⟨i, c, p, hi, hc, hne, -⟩
    rw [← hone, hi] at hc
    exact hne (Option.some.inj hc)

end OpenWorkflow
