import OpenWorkflow.Proofs.Drawing.Rules

/-!
# Drawings of steps, messages and structured control flow

The fragments of steps, messages, sequences, choices, loops and parallel branches
draw the lines that `Activity.lines` has for them.
-/

namespace OpenWorkflow

theorem Messaging.direction_ne_internal (m : Messaging) : m.kind.direction ≠ .internal := by
  cases m.kind <;> decide

namespace Draws

open Activity Fragment

variable {loose : Prop} {S : List Resource} {k : Nat}

/-! ## Steps and messages -/

theorem step (label : String) :
    Draws loose S k (Fragment.step label) [] (endLines ⟨k⟩ ++ stepLines ⟨k⟩ label)
      fun _ => True := by
  refine enter (transition fun t => ?_)
  refine consume (by simp) (by simp) ?_
  exact produces (by simp) (by simp)

/-- A fragment around another one. -/
theorem around (a : Activity) :
    Draws loose S k (Fragment.around a.fragment) [a]
      (endLines ⟨k⟩ ++ spliceLines (Scope.initialized ⟨k⟩) (Scope.closed ⟨k⟩) ⟨k + 1⟩)
      fun _ => True :=
  enter (discard (splice (by simp) (by simp)))

theorem messageArc {n t : String} {u : TransitionId} (ht : .handle t u ∈ S) (hn : .known n ∈ S)
    (m : Messaging) :
    Draws loose S k (if m.kind.isInbound then Net.newArc n u else Net.newArc u n) []
      [.arc (messageFlow m) n t] fun _ => True := by
  unfold messageFlow
  cases m.kind.isInbound with
  | true => exact arc .consumes ht (.inr hn)
  | false => exact arc .produces ht (.inr hn)

/-- A message draws its place, its port, its transition and the arcs between them. -/
theorem messaging (m : Messaging) :
    Draws loose S k (Fragment.messaging m) [] (endLines ⟨k⟩ ++ messageLines ⟨k⟩ m)
      fun _ => True := by
  refine enter (interfacePlace m.direction_ne_internal (cons addPort fun _ => ?_))
  refine transitionOf fun t => ?_
  refine consume (by simp) (by simp) <| produce (by simp) (by simp) ?_
  exact messageArc (by simp) (by simp) m

/-! ## Sequence -/

/-- The ends of fragments inside are among the places that these have put down. -/
theorem closings_subset (k : Nat) (as : List Activity) :
    closings k as ⊆ internals (draw (k + 1) (as.flatMap walk)) := by
  induction as generalizing k with
  | nil => exact List.nil_subset _
  | cons a as ih =>
    have hlines : draw (k + 1) ((a :: as).flatMap walk)
        = a.drawing (k + 1) ++ draw (k + a.size + 1) (as.flatMap walk) := by
      rw [List.flatMap_cons, draw_append, drawing, Nat.add_right_comm]
      rfl
    rw [hlines, internals_append]
    refine List.cons_subset.2 ⟨List.mem_append_left _ ?_, fun n hn => ?_⟩
    · rw [drawing_eq, internals_append, internals_lines]
      exact List.mem_append_left _ (List.mem_map_of_mem (by simp))
    · exact List.mem_append_right _ (ih (k + a.size) hn)

/-- A chain ends where it began or where one of its fragments ends. -/
theorem chainEnd_eq (last : String) (k : Nat) (as : List Activity) :
    chainEnd last k as = last ∨ chainEnd last k as ∈ closings k as := by
  induction as generalizing last k with
  | nil => exact .inl rfl
  | cons a as ih =>
    refine .inr ?_
    rcases ih (Scope.closed ⟨k + 1⟩) (k + a.size) with h | h
    · exact h ▸ List.mem_cons_self ..
    · exact List.mem_cons_of_mem _ h

/-- Fragments behind one another draw the joins between them. -/
theorem chain {last : String} (hlast : .inside last ∈ S) (as : List Activity) :
    Draws loose S k (Fragment.chain last (fragments as)) as (chainLines last k as)
      fun r => r = chainEnd last k as := by
  induction as generalizing k last S with
  | nil => exact pure rfl
  | cons a as ih => exact child (join (by simp [hlast]) (by simp) fun _ => ih (by simp))

/-- A sequence draws a chain between its ends. -/
theorem sequence (as : List Activity) :
    Draws loose S k (Fragment.sequence (fragments as)) (if as.isEmpty then [.empty] else as)
      (endLines ⟨k⟩ ++ sequenceLines ⟨k⟩ as) fun _ => True := by
  cases as with
  | nil => exact around .empty
  | cons a as =>
    refine enter (last (chain (by simp) (a :: as)) fun r hr => ?_)
    subst hr
    refine discard (joins (by simp) ?_)
    rcases chainEnd_eq (Scope.initialized ⟨k⟩) k (a :: as) with h | h
    · simp [h]
    · exact List.mem_append_left _ (inside_mem_gains.2 (.inr (closings_subset k _ h)))

/-! ## Choice -/

/-- A branch of a condition is drawn with the transition that takes it. -/
theorem branch {s : Scope} (hcondition : .inside (s.name "condition") ∈ S)
    (hclosed : .inside s.closed ∈ S) (label : String) (a : Option Activity) :
    Draws loose S k (Fragment.branch s label (fragment? a)) a.toList (branchLines s label k a)
      fun _ => True := by
  refine transition fun init => consume (by simp) (by simp [hcondition]) ?_
  cases a with
  | none => exact produces (by simp) (by simp [hclosed])
  | some a =>
    refine child (produce (by simp) (by simp) ?_)
    exact discard (joins (by simp [hclosed]) (by simp))

/-- A condition draws its two branches. -/
theorem conditional (onTrue onFalse : Option Activity) :
    Draws loose S k (Fragment.conditional (fragment? onTrue) (fragment? onFalse))
      (onTrue.toList ++ onFalse.toList) (endLines ⟨k⟩ ++ conditionalLines ⟨k⟩ onTrue onFalse)
      fun _ => True := by
  refine enter (place (transition fun eval => ?_))
  refine consume (by simp) (by simp) <| produce (by simp) (by simp) ?_
  have hnone : ((fragment? onTrue).isNone && (fragment? onFalse).isNone)
      = (onTrue.isNone && onFalse.isNone) := by
    cases onTrue <;> cases onFalse <;> rfl
  rw [hnone]
  split
  · rename_i hboth
    rw [Bool.and_eq_true, Option.isNone_iff_eq_none, Option.isNone_iff_eq_none] at hboth
    obtain ⟨rfl, rfl⟩ := hboth
    refine transition fun finish => consume (by simp) (by simp) ?_
    exact produces (by simp) (by simp)
  · show Draws _ _ k _ _ (branchLines ⟨k⟩ "initthen" k onTrue
      ++ branchLines ⟨k⟩ "initelse" (k + sizes onTrue.toList) onFalse) _
    exact bind (branch (by simp) (by simp) "initthen" onTrue) fun _ _ =>
      branch (by simp) (by simp) "initelse" onFalse

/-- The last case place is the one before the cases or drawn by one of them. -/
theorem lastCase_eq (s : Scope) (i : Nat) (last : String) (k : Nat) (as : List Activity) :
    lastCase s i last as = last ∨ lastCase s i last as ∈ internals (caseLines s i last k as) := by
  induction as generalizing i last k with
  | nil => exact .inl rfl
  | cons a as ih =>
    refine .inr ?_
    rcases ih (i + 1) (casePlace s i) (k + a.size) with h | h
    · simp [caseLines, lastCase, h]
    · simp [caseLines, lastCase, h]

/-- Each case draws its place, the transition that tries it and the one that takes it. -/
theorem cases (s : Scope) (i : Nat) {last : String} (hlast : .inside last ∈ S)
    (as : List Activity) :
    Draws loose S k (Fragment.cases s i last (fragments as)) as (caseLines s i last k as)
      fun r => r = (lastCase s i last as, closings k as) := by
  induction as generalizing k i last S with
  | nil => exact pure rfl
  | cons a as ih =>
    refine place (transition fun eval => transition fun init => ?_)
    refine consume (by simp) (by simp [hlast]) <| produce (by simp) (by simp) ?_
    refine consume (by simp) (by simp) <| child (produce (by simp) (by simp) ?_)
    refine map (g := fun r => (r.1, Scope.closed ⟨k + 1⟩ :: r.2)) (ih (i + 1) ?_) ?_
    · simp
    · rintro _ rfl
      rfl

/-- The ends of all cases become the end of the switch. -/
theorem closeAll {s : Scope} (hclosed : .inside s.closed ∈ S) {ends : List String}
    (hends : ∀ n ∈ ends, .inside n ∈ S) :
    Draws loose S k (ends.forM fun closed => do let _ ← Net.merge s.closed closed) []
      (ends.map (.joins s.closed ·)) fun _ => True := by
  rw [List.map_eq_flatMap]
  have h : Draws loose S k ((ends.map id).forM fun closed => do
      let _ ← Net.merge s.closed closed) [] (ends.flatMap fun n => [.joins s.closed n])
      fun _ => True :=
    forM_flat fun n hn => discard (joins hclosed (hends n hn))
  rwa [List.map_id] at h

/-- A switch draws its cases, what is done otherwise and the joins at the end. -/
theorem switch (as : List Activity) (a : Option Activity) :
    Draws loose S k (Fragment.switch (fragments as) (fragment? a)) (as ++ a.toList)
      (endLines ⟨k⟩ ++ switchLines ⟨k⟩ as a) fun _ => True := by
  unfold switchLines
  rw [List.append_assoc]
  refine enter (bind (cases ⟨k⟩ 1 (by simp) as) fun r hr => ?_)
  subst hr
  have hlast : Resource.inside (lastCase ⟨k⟩ 1 (Scope.initialized ⟨k⟩) as)
      ∈ gains k as (caseLines ⟨k⟩ 1 (Scope.initialized ⟨k⟩) k as)
        ++ .inside (Scope.closed ⟨k⟩) :: .inside (Scope.initialized ⟨k⟩) :: S := by
    rcases lastCase_eq ⟨k⟩ 1 (Scope.initialized ⟨k⟩) k as with h | h <;> simp [h]
  have hclosings {n : String} (hn : n ∈ closings k as) :
      Resource.inside n ∈ gains k as (caseLines ⟨k⟩ 1 (Scope.initialized ⟨k⟩) k as) :=
    inside_mem_gains.2 (.inr (closings_subset k as hn))
  refine transition fun init => consume (by simp) (List.mem_cons_of_mem _ hlast) ?_
  cases a with
  | none =>
    refine produce (by simp) (by simp) ?_
    rw [Option.toList_none, List.append_nil]
    exact closeAll (by simp) fun n hn => by simp [hclosings hn]
  | some a =>
    refine child (produce (by simp) (by simp) ?_)
    rw [Option.toList_some, closings_append]
    refine closeAll (by simp) fun n hn => ?_
    rcases List.mem_append.1 hn with hn | hn
    · simp [hclosings hn]
    · rw [List.mem_singleton.1 hn]
      simp

/-! ## Loops -/

/-- A loop draws the place of its condition and the way back. -/
theorem loop (test : LoopTest) (body : Option Activity) :
    Draws loose S k (Fragment.loop test (fragment? body)) body.toList
      (endLines ⟨k⟩ ++ loopLines ⟨k⟩ test body) fun _ => True := by
  cases test with
  | before =>
    refine enter (place ?_)
    refine transition fun eval => transition fun init => transition fun finish => ?_
    refine consume (by simp) (by simp) <| produce (by simp) (by simp) ?_
    refine consume (by simp) (by simp) <| consume (by simp) (by simp) ?_
    refine produce (by simp) (by simp) ?_
    cases body with
    | none => exact produces (by simp) (by simp)
    | some a =>
      refine child (produce (by simp) (by simp) ?_)
      exact discard (joins (by simp) (by simp))
  | after =>
    refine enter (place ?_)
    refine transition fun eval => transition fun again => transition fun finish => ?_
    refine produce (by simp) (by simp) <| consume (by simp) (by simp) ?_
    refine produce (by simp) (by simp) <| consume (by simp) (by simp) ?_
    refine produce (by simp) (by simp) ?_
    cases body with
    | none => exact consumes (by simp) (by simp)
    | some a =>
      refine child (consume (by simp) (by simp) ?_)
      exact discard (joins (by simp) (by simp))

/-! ## Parallel branches -/

/-- A branch is drawn between the transitions that split and join. -/
theorem parallelBranch {s : Scope} {split join : TransitionId}
    (hsplit : .handle (s.name "split") split ∈ S) (hjoin : .handle (s.name "join") join ∈ S)
    (a : Activity) :
    Draws loose S k (Fragment.parallelBranch split join a.fragment) [a] (parallelBranchLines s k a)
      fun _ => True :=
  child (produce (by simp [hsplit]) (by simp) <| consumes (by simp [hjoin]) (by simp))

/-- Parallel branches draw a split and a join. -/
theorem parallel (as : List Activity) :
    Draws loose S k (Fragment.parallel (fragments as)) (if as.isEmpty then [.empty] else as)
      (endLines ⟨k⟩ ++ parallelLines ⟨k⟩ as) fun _ => True := by
  match as with
  | [] => exact around .empty
  | [a] => exact around a
  | a :: b :: as =>
    refine enter (transition fun split => transition fun join => ?_)
    refine consume (by simp) (by simp) <| produce (by simp) (by simp) ?_
    have hbranches : Draws loose (.handle (Scope.name ⟨k⟩ "join") join ::
          .handle (Scope.name ⟨k⟩ "split") split :: .inside (Scope.closed ⟨k⟩) ::
          .inside (Scope.initialized ⟨k⟩) :: S) k
        (((a :: b :: as).map Activity.fragment).forM (Fragment.parallelBranch split join))
        ((a :: b :: as).flatMap fun a => [a])
        (numberedLines (parallelBranchLines ⟨k⟩) (fun a => [a]) k (a :: b :: as)) fun _ => True :=
      forM_map fun c _ k' => parallelBranch (s := ⟨k⟩) (by simp) (by simp) c
    rw [List.flatMap_singleton', ← fragments_eq_map] at hbranches
    exact hbranches

/-! ## Event-driven choice -/

theorem orEmpty_fragment? (a : Option Activity) :
    orEmpty (fragment? a) = (a.getD .empty).fragment := by
  cases a <;> rfl

/-- A branch is joined to the start by its trigger. -/
theorem pickBranch {s : Scope} (hinitialized : .inside s.initialized ∈ S)
    (hclosed : .inside s.closed ∈ S) (b : PickBranch Activity) :
    Draws loose S k (Fragment.pickBranch s (branchFragment b)) b.built (pickBranchLines s k b)
      fun _ => True := by
  obtain ⟨trigger, action⟩ := b
  unfold Fragment.pickBranch PickBranch.built
  simp only [branchFragment, orEmpty_fragment?]
  refine child (join (by simp [hinitialized]) (by simp) fun _ => ?_)
  cases action with
  | none => exact discard (joins (by simp [hclosed]) (by simp))
  | some a =>
    refine child (join (by simp) (by simp) fun _ => ?_)
    exact discard (joins (by simp [hclosed]) (by simp))

/-- A choice by triggers draws its branches. -/
theorem pick (bs : List (PickBranch Activity)) :
    Draws loose S k (Fragment.pick (branchFragments bs))
      (if bs.isEmpty then [.empty] else bs.flatMap PickBranch.built)
      (endLines ⟨k⟩ ++ pickLines ⟨k⟩ bs) fun _ => True := by
  cases bs with
  | nil => exact around .empty
  | cons b bs =>
    rw [branchFragments_eq_map]
    exact enter (forM_map fun b _ k' => pickBranch (s := ⟨k⟩) (by simp) (by simp) b)

end Draws

end OpenWorkflow
