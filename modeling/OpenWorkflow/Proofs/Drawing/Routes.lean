import OpenWorkflow.Proofs.Drawing.Routes.Choices

/-!
# Ways through a fragment

The lines of a structured activity draw its edges (`Activity.edges`) and no others
(`Activity.paved_lines`), and each edge lies on a way from one end of the fragment
to the other (`Activity.route_edges`). All structured activities are like that but
for parallel branches, of which there are two at least (`Activity.Forks`).
-/

namespace OpenWorkflow.Activity

variable {n' : String} {s : Scope}

/-! ## Loops -/

/-- The edges to the end, and those by which it starts again. -/
def loopEdges (s : Scope) : LoopTest → Option Activity → List Edge
  | .before, none =>
    [⟨.step (s.name "evalcondition"), s.initialized, s.name "condition"⟩,
      ⟨.step (s.name "endwhile"), s.name "condition", s.closed⟩] ++
      [⟨.step (s.name "initactivity"), s.name "condition", s.initialized⟩]
  | .before, some a =>
    [⟨.step (s.name "evalcondition"), s.initialized, s.name "condition"⟩,
      ⟨.step (s.name "endwhile"), s.name "condition", s.closed⟩] ++
      [⟨.step (s.name "initactivity"), s.name "condition", Scope.initialized ⟨s.id + 1⟩⟩,
        ⟨.inside a (s.id + 1), Scope.initialized ⟨s.id + 1⟩, s.initialized⟩]
  | .after, none =>
    [⟨.step (s.name "evalcondition"), s.initialized, s.name "condition"⟩,
      ⟨.step (s.name "enddowhile"), s.name "condition", s.closed⟩] ++
      [⟨.step (s.name "repeatactivity"), s.name "condition", s.initialized⟩]
  | .after, some a =>
    [⟨.inside a (s.id + 1), s.initialized, Scope.closed ⟨s.id + 1⟩⟩,
      ⟨.step (s.name "evalcondition"), Scope.closed ⟨s.id + 1⟩, s.name "condition"⟩,
      ⟨.step (s.name "enddowhile"), s.name "condition", s.closed⟩] ++
      [⟨.step (s.name "repeatactivity"), s.name "condition", s.initialized⟩]

section loop

variable (s : Scope)

theorem ne_inside {n : String} (hn : s.Owns n) (hn' : Scope.Owns ⟨s.id + 1⟩ n') : n ≠ n' :=
  ne_of_owns hn hn' (Nat.ne_of_lt (Nat.lt_succ_self _))

/-- The lines of a loop are paved by its edges. -/
theorem paved_loopLines (test : LoopTest) (body : Option Activity) :
    Paved s.Owns (s.id + 1) body.toList (loopLines s test body) (loopEdges s test body) := by
  have hinit := initialized_ne_condition s
  have hclosed := condition_ne_closed s
  have hends := Scope.initialized_ne_closed ⟨s.id + 1⟩
  have hopen := ne_inside s (s.owns_name "condition") (Scope.owns_initialized _)
  have hclose := ne_inside s (s.owns_name "condition") (Scope.owns_closed _)
  have hback := ne_inside s s.owns_initialized (Scope.owns_initialized _)
  have hforth := ne_inside s s.owns_initialized (Scope.owns_closed _)
  refine ⟨?_, ?_, ?_, ?_, ?_⟩
  · cases test <;> cases body <;>
      simp [loopEdges, loopLines, Edge.Drawn, Tied, hinit, hinit.symm, hclosed, hopen, hclose.symm,
        hback.symm, hforth]
  · cases test <;> cases body <;>
      simp [loopEdges, loopLines, IsNode, starts, Scope.IsEnd, hends, hends.symm]
  · cases test <;> cases body <;>
      simp [loopEdges, loopLines, IsNode, starts, Scope.IsEnd, hends, hends.symm]
  · cases test <;> cases body <;> exact (List.Perm.swap ..).cons _
  · cases test <;> cases body <;> rfl

/-- The edges of a loop lead from its start to its end. -/
theorem route_loopEdges (test : LoopTest) (body : Option Activity) :
    Route (loopEdges s test body) s.initialized s.closed := by
  have hinit := initialized_ne_condition s
  have hclosed := condition_ne_closed s
  have hends := s.initialized_ne_closed
  have hforth (w w' : Way) : Route [⟨w, s.initialized, s.name "condition"⟩,
      ⟨w', s.name "condition", s.closed⟩] s.initialized s.closed :=
    (Route.single w hinit).series (.single w' hclosed) (List.forall_mem_singleton.2 hends)
  have hagain (w w' w'' : Way) : Route ([⟨w, s.initialized, s.name "condition"⟩,
      ⟨w', s.name "condition", s.closed⟩] ++ [⟨w'', s.name "condition", s.initialized⟩])
      s.initialized s.closed :=
    (hforth w w').loop (.single w'' hinit.symm) (.edge (List.mem_cons_self ..))
      (List.forall_mem_singleton.2 hclosed)
  cases test with
  | before =>
    cases body with
    | none => exact hagain _ _ _
    | some a =>
      have hinner := Scope.owns_initialized ⟨s.id + 1⟩
      refine (hforth _ _).loop ((Route.single _ (ne_inside s (s.owns_name _) hinner)).series
        (.single _ (ne_inside s s.owns_initialized hinner).symm) ?_)
        (.edge (List.mem_cons_self ..)) ?_
      · exact List.forall_mem_singleton.2 hinit.symm
      · exact List.forall_mem_cons.2 ⟨hclosed, List.forall_mem_singleton.2
          (ne_inside s s.owns_closed hinner).symm⟩
  | after =>
    cases body with
    | none => exact hagain _ _ _
    | some a =>
      have hinner := Scope.owns_closed ⟨s.id + 1⟩
      have hrest (w w' : Way) : Route [⟨w, Scope.closed ⟨s.id + 1⟩, s.name "condition"⟩,
          ⟨w', s.name "condition", s.closed⟩] (Scope.closed ⟨s.id + 1⟩) s.closed :=
        (Route.single w (ne_inside s (s.owns_name _) hinner).symm).series (.single w' hclosed)
          (List.forall_mem_singleton.2 (ne_inside s s.owns_closed hinner).symm)
      refine ((Route.single _ (ne_inside s s.owns_initialized hinner)).series (hrest _ _)
        (List.forall_mem_singleton.2 hends)).loop (.single _ hinit.symm) ?_
        (List.forall_mem_singleton.2 hclosed)
      exact (Leads.edge (List.mem_cons_self ..)).trans
        (Leads.edge (List.mem_cons_of_mem _ (List.mem_cons_self ..)))

end loop

/-! ## Event-driven choice -/

/-- The edges of branches, in each of which control waits for the trigger first. -/
def pickEdges (s : Scope) : Nat → List (PickBranch Activity) → List Edge
  | _, [] => []
  | k, b :: bs =>
    chainEdges s.closed s.initialized k b.built ++ pickEdges s (k + sizes b.built) bs

theorem pickBranchLines_eq (s : Scope) (k : Nat) (b : PickBranch Activity) :
    pickBranchLines s k b = chainLines s.initialized k b.built
      ++ [.joins s.closed (chainEnd s.initialized k b.built)] := by
  obtain ⟨trigger, action⟩ := b
  cases action <;> rfl

/-- A chain from one end of the fragment to the other. -/
theorem paved_ends {as : List Activity} (hne : as ≠ []) {k : Nat} (hk : s.id ≤ k) :
    Paved s.Owns (k + 1) as (chainLines s.initialized k as
      ++ [.joins s.closed (chainEnd s.initialized k as)])
      (chainEdges s.closed s.initialized k as) := by
  refine (paved_chainLines hne hk hk s.owns_initialized s.owns_closed
    s.initialized_ne_closed).mono ?_
  rintro n (rfl | rfl)
  · exact s.owns_initialized
  · exact s.owns_closed

theorem route_ends {as : List Activity} (hne : as ≠ []) {k : Nat} (hk : s.id ≤ k) :
    Route (chainEdges s.closed s.initialized k as) s.initialized s.closed :=
  route_chainEdges hne hk hk s.owns_initialized s.owns_closed s.initialized_ne_closed

theorem paved_pickBranches (bs : List (PickBranch Activity)) {k : Nat} (hk : s.id ≤ k) :
    Paved s.Owns (k + 1) (bs.flatMap PickBranch.built)
      (numberedLines (pickBranchLines s) PickBranch.built k bs) (pickEdges s k bs) := by
  induction bs generalizing k with
  | nil => exact .nil rfl
  | cons b bs ih =>
    have hrest := ih (k := k + sizes b.built) (by omega)
    have htie : Tying _ _
        (numberedLines (pickBranchLines s) PickBranch.built (k + sizes b.built) bs) :=
      Tying.numberedLines (fun b _ k hk => tying_pickBranchLines hk b) (by omega)
    rw [Nat.add_right_comm] at hrest htie
    rw [List.flatMap_cons, numberedLines, pickEdges]
    refine Paved.append ?_ hrest (tying_pickBranchLines hk b) htie
    rw [pickBranchLines_eq]
    exact paved_ends (List.cons_ne_nil _ _) hk

/-- Every choice by triggers has a way through. -/
theorem route_pickEdges {bs : List (PickBranch Activity)} (hne : bs ≠ []) {k : Nat}
    (hk : s.id ≤ k) : Route (pickEdges s k bs) s.initialized s.closed := by
  induction bs generalizing k with
  | nil => exact absurd rfl hne
  | cons b bs ih =>
    have hfirst : Route (chainEdges s.closed s.initialized k b.built) _ _ :=
      route_ends (List.cons_ne_nil _ _) hk
    cases bs with
    | nil =>
      rw [pickEdges, pickEdges, List.append_nil]
      exact hfirst
    | cons c bs => exact hfirst.choice (ih (List.cons_ne_nil c bs) (by omega))

/-! ## Activities -/

/-- The edges of the graph that a fragment draws, if control does not fork in it. -/
def edges (s : Scope) : Activity → List Edge
  | .atomic a => [⟨.step (s.name a.label), s.initialized, s.closed⟩]
  | .empty => [⟨.step (s.name "empty"), s.initialized, s.closed⟩]
  | .messaging m => [⟨.step (s.name m.kind.label), s.initialized, s.closed⟩]
  | .conditional onTrue onFalse => conditionalEdges s onTrue onFalse
  | .switch cases fallback => switchEdges s cases fallback
  | .loop test body => loopEdges s test body
  | .pick (b :: bs) => pickEdges s s.id (b :: bs)
  | a => chainEdges s.closed s.initialized s.id a.built

/-- A name of the fragment itself, or an end of a fragment inside that it joins to no other. -/
abbrev Node (a : Activity) (k : Nat) (n : String) : Prop :=
  IsNode (Scope.Owns ⟨k⟩) (k + 1) a.built (a.lines k) n

section edges

variable {a : Activity} (h : a.IsBlock) (hforks : ¬ a.Forks)
include h hforks

/-- Where control does not fork, the lines of a structured activity draw its edges. -/
theorem paved_lines (k : Nat) :
    Paved (Scope.Owns ⟨k⟩) (k + 1) a.built (a.lines k) (a.edges ⟨k⟩) := by
  have hends : Paved (Scope.Owns ⟨k⟩) (k + 1) [] (endLines ⟨k⟩) [] := .nil rfl
  refine Paved.prepend ?_ hends rfl
  cases a with
  | atomic a => exact paved_stepLines _ _
  | empty => exact paved_stepLines _ _
  | messaging m =>
    exact paved_step (Scope.owns_initialized _) (Scope.owns_closed _)
      (Scope.initialized_ne_closed _) (by simp [innerLines, messageLines])
      (by simp [innerLines, messageLines]) rfl
  | sequence children =>
    cases children with
    | nil => exact paved_ends (List.cons_ne_nil _ _) (Nat.le_refl _)
    | cons c cs => exact paved_ends (List.cons_ne_nil _ _) (Nat.le_refl _)
  | conditional onTrue onFalse => exact paved_conditionalLines _ onTrue onFalse
  | switch cases fallback => exact paved_switchLines _ cases fallback
  | loop test body => exact paved_loopLines _ test body
  | parallel branches =>
    rcases branches with _ | ⟨b, _ | ⟨c, bs⟩⟩
    · exact paved_ends (List.cons_ne_nil _ _) (Nat.le_refl _)
    · exact paved_ends (List.cons_ne_nil _ _) (Nat.le_refl _)
    · exact absurd ⟨_, rfl, by simp⟩ hforks
  | pick branches =>
    cases branches with
    | nil => exact paved_ends (List.cons_ne_nil _ _) (Nat.le_refl _)
    | cons b bs => exact paved_pickBranches (b :: bs) (Nat.le_refl _)
  | flowchart start nodes => exact absurd rfl h.1
  | stateMachine initial states triggers => exact absurd rfl h.2

/-- They lead from one end of the fragment to the other. -/
theorem route_edges (s : Scope) : Route (a.edges s) s.initialized s.closed := by
  have hends := s.initialized_ne_closed
  cases a with
  | atomic a => exact .single _ hends
  | empty => exact .single _ hends
  | messaging m => exact .single _ hends
  | sequence children =>
    refine route_ends ?_ (Nat.le_refl _)
    cases children <;> exact List.cons_ne_nil _ _
  | conditional onTrue onFalse => exact route_conditionalEdges s onTrue onFalse
  | switch cases fallback => exact route_switchEdges s cases fallback
  | loop test body => exact route_loopEdges s test body
  | parallel branches =>
    refine route_ends ?_ (Nat.le_refl _)
    rcases branches with _ | ⟨b, _ | ⟨c, bs⟩⟩ <;> exact List.cons_ne_nil _ _
  | pick branches =>
    cases branches with
    | nil => exact route_ends (List.cons_ne_nil _ _) (Nat.le_refl _)
    | cons b bs => exact route_pickEdges (List.cons_ne_nil b bs) (Nat.le_refl _)
  | flowchart start nodes => exact absurd rfl h.1
  | stateMachine initial states triggers => exact absurd rfl h.2

end edges

end OpenWorkflow.Activity
