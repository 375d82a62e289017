import OpenWorkflow.Proofs.Ambiguity
import OpenWorkflow.Proofs.Drawing.Census
import OpenWorkflow.Proofs.Soundness

/-!
# The size of a structured workflow

How large the net of a structured activity is follows from the activity alone.
`Activity.tally` counts, by recursion on the tree, the internal places between the
two ends of the fragment, its transitions and its arcs.

A fragment draws its own lines besides those of the fragments inside, and each
join takes away one place; what is left is the tally (`Activity.addsUp_lines` for
one fragment, `Activity.addsUp_drawing` for all of them). A structured activity
draws nothing twice, so this is the size of its net (`compile_size`).
-/

namespace OpenWorkflow

/-- The size of a fragment without its two ends. -/
@[ext]
structure Tally where
  /-- The internal places between the ends. -/
  inner : Nat
  /-- The transitions. -/
  transitions : Nat
  /-- The arcs. -/
  arcs : Nat
  deriving DecidableEq

namespace Tally

instance : Add Tally where
  add x y := ⟨x.inner + y.inner, x.transitions + y.transitions, x.arcs + y.arcs⟩

@[simp] theorem inner_add (x y : Tally) : (x + y).inner = x.inner + y.inner := rfl

@[simp] theorem transitions_add (x y : Tally) :
    (x + y).transitions = x.transitions + y.transitions := rfl

@[simp] theorem arcs_add (x y : Tally) : (x + y).arcs = x.arcs + y.arcs := rfl

/-- A single transition from one end to the other. -/
def step : Tally := ⟨0, 1, 2⟩

end Tally

mutual

/-- The size of the fragment of a structured activity. -/
def Activity.tally : Activity → Tally
  | .atomic _ | .empty => .step
  | .messaging _ => ⟨0, 1, 3⟩
  | .sequence [] => .step
  | .sequence (a :: as) => ⟨as.length, 0, 0⟩ + tallies 0 (a :: as)
  | .conditional none none => ⟨1, 2, 4⟩
  | .conditional onTrue onFalse => ⟨1, 3, 6⟩ + tally? onTrue + tally? onFalse
  | .switch cases fallback =>
    ⟨cases.length, 2 * cases.length + 1, 4 * cases.length + 2⟩ + tallies 1 cases + tally? fallback
  | .loop _ body => ⟨1, 3, 6⟩ + tally? body
  | .parallel [] => .step
  | .parallel [a] => a.tally
  | .parallel (a :: b :: as) => ⟨0, 2, 2 + 2 * (as.length + 2)⟩ + tallies 2 (a :: b :: as)
  | .pick [] => .step
  | .pick (b :: bs) => branchTallies (b :: bs)
  | .flowchart _ _ | .stateMachine _ _ _ => ⟨0, 0, 0⟩

/-- The size of fragments, with some more places for each. -/
def tallies (extra : Nat) : List Activity → Tally
  | [] => ⟨0, 0, 0⟩
  | a :: as => ⟨extra, 0, 0⟩ + a.tally + tallies extra as

/-- The size of a fragment that may be missing, with one end. -/
def tally? : Option Activity → Tally
  | none => ⟨0, 0, 0⟩
  | some a => ⟨1, 0, 0⟩ + a.tally

/-- The size of a branch of a pick. -/
def branchTally : PickBranch Activity → Tally
  | ⟨none, action⟩ => .step + tally? action
  | ⟨some trigger, action⟩ => trigger.tally + tally? action

/-- The size of the branches of a pick. -/
def branchTallies : List (PickBranch Activity) → Tally
  | [] => ⟨0, 0, 0⟩
  | b :: bs => branchTally b + branchTallies bs

end

namespace Activity

/-! ## Sums -/

theorem tallies_append (extra : Nat) (as bs : List Activity) :
    tallies extra (as ++ bs) = tallies extra as + tallies extra bs := by
  induction as with
  | nil => ext <;> simp [tallies]
  | cons a as ih => ext <;> simp [tallies, ih, Nat.add_assoc]

/-- The places added for each member can be counted apart. -/
theorem tallies_eq (extra : Nat) (as : List Activity) :
    tallies extra as = ⟨extra * as.length, 0, 0⟩ + tallies 0 as := by
  induction as with
  | nil => ext <;> simp [tallies]
  | cons a as ih =>
    rw [tallies, ih]
    ext <;> simp [tallies, Nat.mul_succ]
    omega

theorem tally?_eq (a : Option Activity) : tally? a = tallies 1 a.toList := by
  cases a with
  | none => rfl
  | some a => ext <;> simp [tally?, tallies]

/-- One of the ends of each fragment in a pick is an end of the pick, or of another fragment. -/
theorem branchTallies_add (bs : List (PickBranch Activity)) :
    branchTallies bs + ⟨bs.length, 0, 0⟩ = tallies 1 (bs.flatMap PickBranch.built) := by
  have hbranch (b : PickBranch Activity) : branchTally b + ⟨1, 0, 0⟩ = tallies 1 b.built := by
    rcases b with ⟨_ | trigger, action⟩ <;>
      simp only [branchTally, PickBranch.built, tallies, tally?_eq] <;> ext <;>
      simp [tally] <;> omega
  induction bs with
  | nil => rfl
  | cons b bs ih =>
    rw [List.flatMap_cons, tallies_append, ← hbranch, ← ih, branchTallies]
    ext <;> simp
    omega

/-! ## The lines of one fragment -/

/-- Lines, and what the fragments inside amount to, make up a size. A fragment inside brings its
two ends with it, and each join takes away a place. -/
structure AddsUp (L : List Line) (cs : List Activity) (t : Tally) : Prop where
  inner : (internals L).length + (tallies 2 cs).inner = 2 + t.inner + (ties L).length
  transitions : (drawnTransitions L).length + (tallies 2 cs).transitions = t.transitions
  arcs : (drawnArcs L).length + (tallies 2 cs).arcs = t.arcs

theorem length_casePlaces {α : Type} (i : Nat) (cases : List α) :
    (casePlaces i cases).length = cases.length := by
  induction cases generalizing i with
  | nil => rfl
  | cons a cases ih => simp [casePlaces, ih]

/-- A fragment has two ends and the places of its activity. -/
theorem length_internals_lines (a : Activity) (k : Nat) :
    (internals (a.lines k)).length = 2 + a.places.length := by
  rw [internals_lines, List.length_map, List.length_cons, List.length_cons, Nat.add_comm 2]

theorem length_ties_chainLines (last : String) (k : Nat) (as : List Activity) :
    (ties (chainLines last k as)).length = as.length := by
  induction as generalizing last k with
  | nil => rfl
  | cons a as ih => simp [chainLines, ih]

theorem length_closings (k : Nat) (as : List Activity) : (closings k as).length = as.length := by
  induction as generalizing k with
  | nil => rfl
  | cons a as ih => simp [closings, ih]

theorem length_ties_joins (n : String) (ns : List String) :
    (ties (ns.map (.joins n ·))).length = ns.length := by
  induction ns with
  | nil => rfl
  | cons m ns ih => simp [ih]

theorem length_starts (k : Nat) (as : List Activity) : (starts k as).length = as.length := by
  induction as generalizing k with
  | nil => rfl
  | cons a as ih => simp [starts, ih]

/-- The joins of a pick: two for each branch, and one more for each action. -/
theorem length_ties_pickBranches (s : Scope) (k : Nat) (bs : List (PickBranch Activity)) :
    (ties (numberedLines (pickBranchLines s) PickBranch.built k bs)).length
      = bs.length + (bs.flatMap PickBranch.built).length := by
  induction bs generalizing k with
  | nil => rfl
  | cons b bs ih =>
    have hbranch : (ties (pickBranchLines s k b)).length = 1 + b.built.length := by
      rcases b with ⟨trigger, _ | action⟩ <;> simp [pickBranchLines, PickBranch.built]
    rw [numberedLines, ties_append, List.length_append, hbranch, ih, List.flatMap_cons,
      List.length_append, List.length_cons]
    omega

theorem addsUp_stepLines (k : Nat) (label : String) :
    AddsUp (endLines ⟨k⟩ ++ stepLines ⟨k⟩ label) [] .step := by
  constructor <;> rfl

theorem addsUp_messaging (k : Nat) (m : Messaging) :
    AddsUp ((messaging m).lines k) [] (messaging m).tally := by
  constructor
  · rw [length_internals_lines]
    rfl
  · rfl
  · rfl

/-- A fragment that only ties in another one has the size of that one. -/
theorem addsUp_spliceLines (k : Nat) (inner : Scope) (a : Activity) :
    AddsUp (endLines ⟨k⟩ ++ spliceLines (Scope.initialized ⟨k⟩) (Scope.closed ⟨k⟩) inner) [a]
      a.tally := by
  constructor <;> simp [endLines, spliceLines, tallies]
  omega

/-- The lines of a sequence add up to its tally. -/
theorem addsUp_sequence (k : Nat) (as : List Activity) :
    AddsUp ((sequence as).lines k) (sequence as).built (sequence as).tally := by
  cases as with
  | nil => exact addsUp_spliceLines k _ .empty
  | cons a as =>
    constructor
    · rw [length_internals_lines, tallies_eq 2]
      simp [lines, innerLines, endLines, sequenceLines, length_ties_chainLines, places, built,
        tally]
      omega
    · rw [lines, drawnTransitions_append, innerLines, drawnTransitions_sequenceLines, tallies_eq 2]
      simp [endLines, built, tally]
    · rw [lines, drawnArcs_append, innerLines, drawnArcs_sequenceLines, tallies_eq 2]
      simp [endLines, built, tally]

/-- The lines of a condition add up to its tally. -/
theorem addsUp_conditional (k : Nat) (onTrue onFalse : Option Activity) :
    AddsUp ((conditional onTrue onFalse).lines k) (conditional onTrue onFalse).built
      (conditional onTrue onFalse).tally := by
  cases onTrue with
  | none =>
    cases onFalse with
    | none => constructor <;> rfl
    | some b =>
      constructor <;> simp [lines, innerLines, endLines, conditionalLines, branchLines, built,
        tally, tally?, tallies]
      omega
  | some a =>
    cases onFalse with
    | none =>
      constructor <;> simp [lines, innerLines, endLines, conditionalLines, branchLines, built,
        tally, tally?, tallies]
      omega
    | some b =>
      constructor <;> simp [lines, innerLines, endLines, conditionalLines, branchLines, built,
        tally, tally?, tallies] <;> omega

/-- The lines of a switch add up to its tally. -/
theorem addsUp_switch (k : Nat) (cases : List Activity) (fallback : Option Activity) :
    AddsUp ((switch cases fallback).lines k) (switch cases fallback).built
      (switch cases fallback).tally := by
  constructor
  · rw [length_internals_lines, tallies_eq 2]
    simp only [lines, innerLines, switchLines, ties_append, ties_caseLines, List.length_append,
      length_ties_joins, length_closings]
    simp [endLines, places, built, tally, length_casePlaces, tally?_eq, tallies_append,
      tallies_eq 1]
    omega
  · rw [lines, drawnTransitions_append, innerLines, drawnTransitions_switchLines, tallies_eq 2]
    simp [endLines, built, tally, tally?_eq, tallies_append, tallies_eq 1]
    omega
  · have harcs := congrArg List.length (map_arcKey_switchLines ⟨k⟩ cases fallback)
    rw [drawnTransitions_switchLines] at harcs
    rw [lines, drawnArcs_append, innerLines, tallies_eq 2]
    simp [oneWay] at harcs
    simp [endLines, built, tally, tally?_eq, tallies_append, tallies_eq 1, harcs]
    omega

/-- The lines of a loop add up to its tally. -/
theorem addsUp_loop (k : Nat) (test : LoopTest) (body : Option Activity) :
    AddsUp ((loop test body).lines k) (loop test body).built (loop test body).tally := by
  cases test <;> cases body <;> constructor <;>
    simp [lines, innerLines, endLines, loopLines, built, tally, tally?, tallies] <;> omega

/-- The lines of parallel branches add up to their tally. -/
theorem addsUp_parallel (k : Nat) (as : List Activity) :
    AddsUp ((parallel as).lines k) (parallel as).built (parallel as).tally := by
  rcases as with _ | ⟨a, _ | ⟨b, as⟩⟩
  · exact addsUp_spliceLines k _ .empty
  · exact addsUp_spliceLines k _ a
  · have hlen : 2 ≤ (a :: b :: as).length := by simp
    constructor
    · rw [length_internals_lines, lines, innerLines, ties_append, ties_parallelLines _ hlen]
      simp [endLines, places, built, tally]
    · rw [lines, drawnTransitions_append, innerLines, drawnTransitions_parallelLines _ hlen]
      simp [endLines, built, tally]
    · rw [lines, drawnArcs_append, innerLines, drawnArcs_parallelLines _ hlen]
      simp [endLines, built, tally, length_starts]
      omega

theorem addsUp_pick (k : Nat) (bs : List (PickBranch Activity)) :
    AddsUp ((pick bs).lines k) (pick bs).built (pick bs).tally := by
  cases bs with
  | nil => exact addsUp_spliceLines k _ .empty
  | cons b bs =>
    have hsum := branchTallies_add (b :: bs)
    rw [tallies_eq 1, Tally.ext_iff] at hsum
    constructor
    · rw [length_internals_lines, tallies_eq 2, lines, innerLines, ties_append, pickLines,
        if_neg (by simp), List.length_append, length_ties_pickBranches]
      simp [endLines, places, built, tally] at hsum ⊢
      omega
    · rw [lines, drawnTransitions_append, innerLines, drawnTransitions_pickLines, tallies_eq 2]
      simp [endLines, built, tally] at hsum ⊢
      omega
    · rw [lines, drawnArcs_append, innerLines, drawnArcs_pickLines, tallies_eq 2]
      simp [endLines, built, tally] at hsum ⊢
      omega

/-- The fragment of a structured activity adds its own lines to the fragments inside. -/
theorem addsUp_lines {a : Activity} (h : a.IsBlock) (k : Nat) :
    AddsUp (a.lines k) a.built a.tally := by
  cases a with
  | atomic a => exact addsUp_stepLines k a.label
  | empty => exact addsUp_stepLines k "empty"
  | messaging m => exact addsUp_messaging k m
  | sequence children => exact addsUp_sequence k children
  | conditional onTrue onFalse => exact addsUp_conditional k onTrue onFalse
  | switch cases fallback => exact addsUp_switch k cases fallback
  | loop test body => exact addsUp_loop k test body
  | parallel branches => exact addsUp_parallel k branches
  | pick branches => exact addsUp_pick k branches
  | flowchart _ _ => exact absurd rfl h.1
  | stateMachine _ _ _ => exact absurd rfl h.2

/-! ## The lines of all fragments -/

/-- Fragments, each of which adds up, amount to their sizes and their ends. -/
theorem length_draw {cs : List Activity} (h : ∀ c ∈ cs, ∀ k, AddsUp (c.drawing k) [] c.tally)
    (k : Nat) :
    (internals (draw k (cs.flatMap walk))).length
        = (tallies 2 cs).inner + (ties (draw k (cs.flatMap walk))).length ∧
      (drawnTransitions (draw k (cs.flatMap walk))).length = (tallies 2 cs).transitions ∧
      (drawnArcs (draw k (cs.flatMap walk))).length = (tallies 2 cs).arcs := by
  induction cs generalizing k with
  | nil => exact ⟨rfl, rfl, rfl⟩
  | cons c cs ih =>
    obtain ⟨hc, hcs⟩ := List.forall_mem_cons.1 h
    obtain ⟨hinner, htransitions, harcs⟩ := ih hcs (k + c.walk.length)
    obtain ⟨hinner', htransitions', harcs'⟩ := hc k
    unfold drawing at hinner' htransitions' harcs'
    rw [List.flatMap_cons, draw_append]
    simp [tallies] at hinner' htransitions' harcs' ⊢
    omega

/-- **The lines of a structured activity add up to its size.** -/
theorem addsUp_drawing {a : Activity} (h : ∀ b ∈ a.walk, b.IsBlock) (k : Nat) :
    AddsUp (a.drawing k) [] a.tally := by
  induction a using built_induction generalizing k with
  | h a ih =>
    obtain ⟨ha, hbuilt⟩ := forall_mem_walk.1 h
    obtain ⟨hinner, htransitions, harcs⟩ := addsUp_lines ha k
    obtain ⟨hinner', htransitions', harcs'⟩ :=
      length_draw (fun c hc k => ih c hc (hbuilt c hc) k) (k + 1)
    constructor <;> simp [drawing_eq, tallies] <;> omega

/-! ## Messages -/

/-- The names of the messages that an activity receives, or of those that it sends. -/
def exchanged (root : Activity) (flow : ArcKind) : List String :=
  (root.walk.zipIdx 1).filterMap fun b =>
    match b.1 with
    | .messaging m => if messageFlow m = flow then some (m.placeName ⟨b.2⟩) else none
    | _ => none

/-- The names of the places that arcs of one kind lead to. -/
theorem mem_exchanged {root : Activity} {flow : ArcKind} {n : String} :
    n ∈ root.exchanged flow ↔
      ∃ s m, root.Exchanges s m ∧ messageFlow m = flow ∧ n = m.placeName s := by
  simp only [exchanged, List.mem_filterMap, Prod.exists, mem_zipIdx_iff]
  constructor
  · rintro ⟨b, j, ⟨i, hi, rfl⟩, hn⟩
    cases b with
    | messaging m =>
      simp only [Option.ite_none_right_eq_some, Option.some.injEq] at hn
      exact ⟨_, m, ⟨i, hi, rfl⟩, hn.1, hn.2.symm⟩
    | _ => cases hn
  · rintro ⟨s, m, ⟨i, hi, rfl⟩, hflow, rfl⟩
    exact ⟨_, _, ⟨i, hi, rfl⟩, by simp [hflow]⟩

end Activity

theorem ArcKind.list_eq_direction_list {flow : ArcKind} {kind : NodeKind} :
    kind.list = flow.direction.list ↔ kind = flow.direction := by
  cases flow <;> cases kind <;> decide

/-- The places of the messages in one direction are as many as their names. -/
theorem Net.Shows.size_listed {root : Activity} {net : Net} (h : net.Shows root.sheet)
    (flow : ArcKind) :
    (net.listed flow.direction).size = (OrderedSet.ofList (root.exchanged flow)).size := by
  apply OrderedSet.size_eq_of_matching (R := fun p n => net.find? n = some p)
    (OrderedSet.ofList (root.exchanged flow)).nodup
  · intro p hp
    obtain ⟨place, hplace, hlist⟩ := h.wellFormed.listed.1 hp
    have hdir := ArcKind.list_eq_direction_list.1 hlist
    obtain ⟨s, m, hx, hfind, hkind⟩ :=
      h.exchanges_of_kind hplace (hdir ▸ flow.direction_ne_internal)
    refine ⟨m.placeName s, ?_, hfind⟩
    rw [hdir, m.direction_eq, ArcKind.direction_inj] at hkind
    exact OrderedSet.mem_ofList.2 (Activity.mem_exchanged.2 ⟨s, m, hx, hkind.symm, rfl⟩)
  · intro n hn
    obtain ⟨s, m, hx, hflow, rfl⟩ := Activity.mem_exchanged.1 (OrderedSet.mem_ofList.1 hn)
    obtain ⟨p, place, hp, hplace⟩ := h.find_of_exchanges hx
    refine ⟨p, h.wellFormed.listed.2 ⟨place, hplace, ?_⟩, hp⟩
    rw [h.kind_of_find hp hplace, m.direction_eq, hflow]
  · intro p p' n hn hn'
    exact Option.some.inj (hn.symm.trans hn')
  · intro p n hn n' _ hp hp'
    obtain ⟨s, m, -, -, rfl⟩ := Activity.mem_exchanged.1 (OrderedSet.mem_ofList.1 hn)
    exact (h.eq_placeName hp hp').symm

/-! ## The size of the net -/

/-- The number of internal places, transitions and arcs of the net of a structured activity. -/
theorem Net.Shows.tally {root : Activity} {net : Net} (h : net.Shows root.sheet)
    (hblock : ∀ b ∈ root.walk, b.IsBlock) :
    net.internal.size = 2 + root.tally.inner ∧ net.transitions.length = root.tally.transitions ∧
      net.arcs.size = root.tally.arcs := by
  obtain ⟨hinner, htransitions, harcs⟩ := Activity.addsUp_drawing hblock 1
  have hinternal := h.size_internal (Activity.forest_sheet hblock)
    (Activity.nodup_internals_sheet (Activity.fine_of_isBlock hblock))
  rw [Activity.internals_sheet, Activity.ties_sheet] at hinternal
  rw [h.length_transitions (Activity.nodup_drawnTransitions_sheet hblock),
    h.size_arcs (Activity.nodup_drawnArcs_sheet hblock) fun _ _ _ _ => Activity.eq_of_arcs hblock,
    Activity.drawnTransitions_sheet, Activity.drawnArcs_sheet]
  simp [tallies] at hinternal hinner htransitions harcs
  omega

/-- **The size of a structured workflow.** An activity that is built, however nested, from
sequences, choices, loops, parallel branches, picks and primitive activities has a net whose
size its tally gives: the two ends and the places between them are its internal places, and the
names of the messages it receives and sends count its input and output places. -/
theorem compile_size {t : Activity} (ht : t.Structured) :
    ∃ net, compile t = .ok net ∧ net.internal.size = 2 + t.tally.inner ∧
      net.input.size = (OrderedSet.ofList (t.exchanged .consumes)).size ∧
      net.output.size = (OrderedSet.ofList (t.exchanged .produces)).size ∧
      net.transitions.length = t.tally.transitions ∧ net.arcs.size = t.tally.arcs := by
  obtain ⟨net, hok⟩ := ht.compile
  have hshows := compile_shows hok
  obtain ⟨hinternal, htransitions, harcs⟩ := hshows.tally ht.isBlock
  exact ⟨net, hok, hinternal, hshows.size_listed .consumes, hshows.size_listed .produces,
    htransitions, harcs⟩

/-- A loop around two parallel branches, one of which waits for a message. -/
theorem compile_size_loop :
    ∃ net, compile (.loop .before (some (.parallel [.atomic ⟨"", "Assign", "assign"⟩,
        .pick [⟨some (.messaging ⟨.receive, "C", "order"⟩), some .empty⟩]]))) = .ok net ∧
      net.internal.size = 9 ∧ net.transitions.length = 8 ∧ net.arcs.size = 19 := by
  obtain ⟨net, hok, hinternal, -, -, htransitions, harcs⟩ := compile_size
    (t := .loop .before (some (.parallel [.atomic ⟨"", "Assign", "assign"⟩,
      .pick [⟨some (.messaging ⟨.receive, "C", "order"⟩), some .empty⟩]])))
    (.intro (by decide) (List.forall_mem_singleton.2 (.intro (by decide) (List.forall_mem_cons.2
      ⟨.leaf (by decide) rfl, List.forall_mem_singleton.2 (.intro (by decide)
        (List.forall_mem_cons.2 ⟨.leaf (by decide) rfl,
          List.forall_mem_singleton.2 (.leaf (by decide) rfl)⟩))⟩))))
  exact ⟨net, hok, hinternal, htransitions, harcs⟩

end OpenWorkflow
