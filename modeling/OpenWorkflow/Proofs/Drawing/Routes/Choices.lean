import OpenWorkflow.Proofs.Drawing.Routes.Basic

/-!
# Ways through steps and choices

The edges of a step, of a choice between two branches, and of one between the
cases of a switch.
-/

namespace OpenWorkflow.Activity

variable {cs ds : List Activity} {L : List Line} {n' : String} {s : Scope}

/-- A transition between places of the fragment, which other lines may put down. -/
theorem paved_step {k : Nat} {t n : String} (hn : s.Owns n) (hn' : s.Owns n') (hne : n ≠ n')
    (hpre : .arc .consumes n t ∈ L) (hpost : .arc .produces n' t ∈ L)
    (hsteps : drawnTransitions L = [t]) : Paved s.Owns k [] L [⟨.step t, n, n'⟩] where
  drawn := List.forall_mem_singleton.2 ⟨hne, hpre, hpost⟩
  entry := List.forall_mem_singleton.2 (.inl hn)
  exit := List.forall_mem_singleton.2 (.inl hn')
  steps := .of_eq hsteps
  inside := rfl

/-- The lines of a step are paved by one edge. -/
theorem paved_stepLines (s : Scope) (label : String) {k : Nat} :
    Paved s.Owns k [] (stepLines s label) [⟨.step (s.name label), s.initialized, s.closed⟩] :=
  paved_step s.owns_initialized s.owns_closed s.initialized_ne_closed (by simp [stepLines])
    (by simp [stepLines]) rfl

/-- A place of the fragment, or where a fragment inside begins. -/
def Enters (s : Scope) (k : Nat) (cs : List Activity) (n : String) : Prop :=
  s.Owns n ∨ ∃ j ∈ starts k cs, n = Scope.initialized ⟨j⟩

theorem Enters.append {k : Nat} {n : String} (h : Enters s k cs n ∨ Enters s (k + sizes cs) ds n) :
    Enters s k (cs ++ ds) n := by
  unfold Enters
  rw [starts_append]
  rcases h with (h | ⟨j, hj, heq⟩) | h | ⟨j, hj, heq⟩
  · exact .inl h
  · exact .inr ⟨j, List.mem_append_left _ hj, heq⟩
  · exact .inl h
  · exact .inr ⟨j, List.mem_append_right _ hj, heq⟩

/-- Where only the ends of fragments are joined to other names, their starts are nodes. -/
theorem Enters.isNode {k : Nat} {n : String} (h : Enters s k cs n)
    (hties : ∀ n ∈ ties L, ∃ j, n = Scope.closed ⟨j⟩) : IsNode s.Owns k cs L n := by
  refine h.imp_right fun ⟨j, hj, heq⟩ => ⟨⟨j, hj, .inl heq⟩, fun hn => ?_⟩
  obtain ⟨j', rfl⟩ := hties n hn
  simp [Scope.initialized, Scope.closed, Scope.name_inj] at heq

/-- The edges of one of several alternatives. -/
def branchEdges (s : Scope) (label entry : String) (k : Nat) : Option Activity → List Edge
  | none => [⟨.step (s.name label), entry, s.closed⟩]
  | some a =>
    [⟨.step (s.name label), entry, Scope.initialized ⟨k + 1⟩⟩,
      ⟨.inside a (k + 1), Scope.initialized ⟨k + 1⟩, s.closed⟩]

section branch

variable (label : String) {entry : String} {k : Nat} (hentry : s.Owns entry)
  (hne : entry ≠ s.closed) (hk : s.id ≤ k)
include hentry hne hk

theorem drawn_branchEdges {a : Option Activity} (hpre : .arc .consumes entry (s.name label) ∈ L)
    (hpost : .arc .produces (if a.isSome then Scope.initialized ⟨k + 1⟩ else s.closed)
      (s.name label) ∈ L)
    (hjoins : ∀ n ∈ closings k a.toList, .joins s.closed n ∈ L) :
    ∀ g ∈ branchEdges s label entry k a,
      g.Drawn L ∧ Enters s (k + 1) a.toList g.entry ∧ Enters s (k + 1) a.toList g.exit := by
  cases a with
  | none =>
    exact List.forall_mem_singleton.2
      ⟨⟨hne, hpre, hpost⟩, .inl hentry, .inl s.owns_closed⟩
  | some a =>
    have hinit := Scope.owns_initialized ⟨k + 1⟩
    have hopens : Enters s (k + 1) [a] (Scope.initialized ⟨k + 1⟩) :=
      .inr ⟨k + 1, List.mem_cons_self .., rfl⟩
    refine List.forall_mem_cons.2 ⟨⟨⟨?_, hpre, hpost⟩, .inl hentry, hopens⟩,
      List.forall_mem_singleton.2 ⟨⟨?_, .inl rfl, .inr ?_⟩, hopens, .inl s.owns_closed⟩⟩
    · exact ne_of_owns hentry hinit (by omega)
    · exact ne_of_owns hinit s.owns_closed (by omega)
    · exact hjoins _ (List.mem_cons_self ..)

/-- A branch of a condition has a way through. -/
theorem route_branchEdges (a : Option Activity) :
    Route (branchEdges s label entry k a) entry s.closed := by
  cases a with
  | none => exact .single _ hne
  | some a =>
    have hinit := Scope.owns_initialized ⟨k + 1⟩
    exact (Route.single _ (ne_of_owns hentry hinit (by omega))).series
      (.single _ (ne_of_owns hinit s.owns_closed (by omega)))
      (List.forall_mem_singleton.2 hne)

end branch

theorem condition_ne_closed (s : Scope) : s.name "condition" ≠ s.closed := by
  simp [Scope.closed, Scope.name_inj]

theorem initialized_ne_condition (s : Scope) : s.initialized ≠ s.name "condition" := by
  simp [Scope.initialized, Scope.name_inj]

theorem paved_branchLines {k : Nat} (hk : s.id ≤ k) (label : String) (a : Option Activity) :
    Paved s.Owns (k + 1) a.toList (branchLines s label k a)
      (branchEdges s label (s.name "condition") k a) := by
  have hdrawn := drawn_branchEdges label (L := branchLines s label k a) (a := a)
    (s.owns_name "condition") (condition_ne_closed s) hk (by simp [branchLines])
    (by cases a <;> simp [branchLines]) (by cases a <;> simp [branchLines, closings])
  have hties : ∀ n ∈ ties (branchLines s label k a), ∃ j, n = Scope.closed ⟨j⟩ := by
    cases a with
    | none => exact fun n hn => absurd hn List.not_mem_nil
    | some a => exact List.forall_mem_singleton.2 ⟨k + 1, rfl⟩
  refine ⟨fun g hg => (hdrawn g hg).1, fun g hg => (hdrawn g hg).2.1.isNode hties,
    fun g hg => (hdrawn g hg).2.2.isNode hties, ?_, ?_⟩
  · cases a <;> exact .refl _
  · cases a <;> rfl

def conditionalEdges (s : Scope) (onTrue onFalse : Option Activity) : List Edge :=
  [⟨.step (s.name "evalcondition"), s.initialized, s.name "condition"⟩] ++
    if onTrue.isNone && onFalse.isNone then
      [⟨.step (s.name "finish"), s.name "condition", s.closed⟩]
    else
      branchEdges s "initthen" (s.name "condition") s.id onTrue
        ++ branchEdges s "initelse" (s.name "condition") (s.id + sizes onTrue.toList) onFalse

/-- The lines of a condition are paved by its edges. -/
theorem paved_conditionalLines (s : Scope) (onTrue onFalse : Option Activity) :
    Paved s.Owns (s.id + 1) (onTrue.toList ++ onFalse.toList) (conditionalLines s onTrue onFalse)
      (conditionalEdges s onTrue onFalse) := by
  unfold conditionalLines conditionalEdges
  refine Paved.prepend ?_ (paved_step s.owns_initialized (s.owns_name _)
    (initialized_ne_condition s) (by simp) (by simp) rfl) rfl
  split
  · rename_i hnone
    obtain ⟨rfl, rfl⟩ : onTrue = none ∧ onFalse = none := by simpa using hnone
    exact paved_step (s.owns_name _) s.owns_closed (condition_ne_closed s) (by simp) (by simp) rfl
  · have hle : s.id ≤ s.id + sizes onTrue.toList := Nat.le_add_right ..
    have hsecond := paved_branchLines hle "initelse" onFalse
    have htie := tying_branchLines hle "initelse" onFalse
    rw [Nat.add_right_comm] at hsecond htie
    exact (paved_branchLines (Nat.le_refl _) "initthen" onTrue).append hsecond
      (tying_branchLines (Nat.le_refl _) "initthen" onTrue) htie

/-- The edges of a condition lead from its start to its end. -/
theorem route_conditionalEdges (s : Scope) (onTrue onFalse : Option Activity) :
    Route (conditionalEdges s onTrue onFalse) s.initialized s.closed := by
  unfold conditionalEdges
  refine (Route.single _ (initialized_ne_condition s)).series ?_
    (List.forall_mem_singleton.2 s.initialized_ne_closed)
  have hcondition := s.owns_name "condition"
  split
  · exact .single _ (condition_ne_closed s)
  · exact (route_branchEdges _ hcondition (condition_ne_closed s) (Nat.le_refl _) onTrue).choice
      (route_branchEdges _ hcondition (condition_ne_closed s) (Nat.le_add_right ..) onFalse)

/-! ## Cases -/

/-- The edges of the cases of a switch from the `i`-th on. -/
def caseEdges (s : Scope) : Nat → String → Nat → List Activity → List Edge
  | _, _, _, [] => []
  | i, last, k, a :: as =>
    ⟨.step (s.name ("evalcase" ++ toString i)), last, casePlace s i⟩ ::
      (branchEdges s ("initcase" ++ toString i) (casePlace s i) k (some a)
        ++ caseEdges s (i + 1) (casePlace s i) (k + a.size) as)

def switchEdges (s : Scope) (as : List Activity) (fallback : Option Activity) : List Edge :=
  caseEdges s 1 s.initialized s.id as
    ++ branchEdges s "initdefault" (lastCase s 1 s.initialized as) (s.id + sizes as) fallback

/-- A place of a switch before that of the `i`-th case. -/
def BeforeCase (s : Scope) (i : Nat) (n : String) : Prop :=
  n = s.initialized ∨ ∃ j < i, n = casePlace s j

namespace BeforeCase

variable {i : Nat} {n : String} (h : BeforeCase s i n)
include h

theorem owns : s.Owns n := by
  rcases h with rfl | ⟨j, -, rfl⟩
  · exact s.owns_initialized
  · exact s.owns_name _

theorem ne_closed : n ≠ s.closed := by
  rcases h with rfl | ⟨j, -, rfl⟩
  · exact s.initialized_ne_closed
  · rw [Ne, casePlace, Scope.closed, Scope.name_inj]
    simp [← String.toList_inj]

theorem ne_casePlace : n ≠ casePlace s i := by
  rcases h with rfl | ⟨j, hj, rfl⟩
  · rw [Ne, casePlace, Scope.initialized, Scope.name_inj]
    simp [← String.toList_inj]
  · intro heq
    exact Nat.ne_of_lt hj (Text.append_toString_inj.1 (Scope.name_inj.1 heq).2)

end BeforeCase

theorem beforeCase_casePlace (s : Scope) (i : Nat) : BeforeCase s (i + 1) (casePlace s i) :=
  .inr ⟨i, Nat.lt_succ_self i, rfl⟩

/-- The last place of cases comes before the next one. -/
theorem beforeCase_lastCase {i : Nat} {last : String} (h : BeforeCase s i last)
    (as : List Activity) : ∃ j, BeforeCase s j (lastCase s i last as) := by
  induction as generalizing i last with
  | nil => exact ⟨i, h⟩
  | cons a as ih => exact ih (beforeCase_casePlace s i)

theorem drawn_caseEdges {i k : Nat} {last : String} {as : List Activity}
    (hlast : BeforeCase s i last) (hk : s.id ≤ k) (hlines : caseLines s i last k as ⊆ L)
    (hjoins : ∀ n ∈ closings k as, .joins s.closed n ∈ L) :
    ∀ g ∈ caseEdges s i last k as,
      g.Drawn L ∧ Enters s (k + 1) as g.entry ∧ Enters s (k + 1) as g.exit := by
  induction as generalizing i last k with
  | nil => exact fun g hg => absurd hg List.not_mem_nil
  | cons a as ih =>
    have hcase := beforeCase_casePlace s i
    rw [caseLines, List.append_subset] at hlines
    rw [closings, List.forall_mem_cons] at hjoins
    simp only [List.cons_subset, List.nil_subset, and_true] at hlines
    obtain ⟨⟨-, -, -, heval, hfail, hcond, hopen⟩, hrest⟩ := hlines
    have hmore {n : String} (hn : Enters s (k + 1) [a] n ∨ Enters s (k + a.size + 1) as n) :
        Enters s (k + 1) (a :: as) n := by
      rw [Nat.add_right_comm, show a.size = sizes [a] by simp] at hn
      exact Enters.append hn
    refine List.forall_mem_cons.2 ⟨⟨⟨hlast.ne_casePlace, heval, hfail⟩, .inl hlast.owns,
      .inl hcase.owns⟩, List.forall_mem_append.2 ⟨fun g hg => ?_, fun g hg => ?_⟩⟩
    · obtain ⟨hdrawn, hentry, hexit⟩ := drawn_branchEdges _ (a := some a) hcase.owns
        hcase.ne_closed hk hcond hopen (List.forall_mem_singleton.2 hjoins.1) g hg
      exact ⟨hdrawn, hmore (.inl hentry), hmore (.inl hexit)⟩
    · obtain ⟨hdrawn, hentry, hexit⟩ := ih hcase (by omega) hrest hjoins.2 g hg
      exact ⟨hdrawn, hmore (.inr hentry), hmore (.inr hexit)⟩

/-- The steps among the edges of cases are their transitions. -/
theorem steps_caseEdges (i : Nat) (last : String) (k : Nat) (as : List Activity) :
    drawnTransitions (caseLines s i last k as)
      = (caseEdges s i last k as).filterMap Edge.step? := by
  induction as generalizing i last k with
  | nil => rfl
  | cons a as ih =>
    rw [caseLines, caseEdges, drawnTransitions_append, ih, ← List.cons_append,
      List.filterMap_append]
    rfl

/-- The edges of cases go through all of their fragments. -/
theorem inside_caseEdges (i : Nat) (last : String) (k : Nat) (as : List Activity) :
    numbered (k + 1) as = (caseEdges s i last k as).filterMap Edge.inside? := by
  induction as generalizing i last k with
  | nil => rfl
  | cons a as ih =>
    rw [numbered, caseEdges, ← List.cons_append, List.filterMap_append, ← ih,
      Nat.add_right_comm]
    rfl

theorem mem_closings {k : Nat} {as : List Activity} {n : String} (h : n ∈ closings k as) :
    ∃ j, n = Scope.closed ⟨j⟩ := by
  induction as generalizing k with
  | nil => cases h
  | cons a as ih =>
    rcases List.mem_cons.1 h with rfl | h
    · exact ⟨k + 1, rfl⟩
    · exact ih h

/-- The lines of a switch are paved by its edges. -/
theorem paved_switchLines (s : Scope) (as : List Activity) (fallback : Option Activity) :
    Paved s.Owns (s.id + 1) (as ++ fallback.toList) (switchLines s as fallback)
      (switchEdges s as fallback) := by
  have hfirst : BeforeCase s 1 s.initialized := .inl rfl
  obtain ⟨i, hlast⟩ := beforeCase_lastCase hfirst as
  have hjoins : ∀ n ∈ closings s.id as ++ closings (s.id + sizes as) fallback.toList,
      .joins s.closed n ∈ switchLines s as fallback := by
    intro n hn
    rw [← closings_append] at hn
    exact List.mem_append_right _ (List.mem_map_of_mem hn)
  have hties : ∀ n ∈ ties (switchLines s as fallback), ∃ j, n = Scope.closed ⟨j⟩ := by
    have hmap (ns : List String) : ties (ns.map (.joins s.closed ·)) = ns := by
      simp [ties, List.filterMap_map, Function.comp_def]
    intro n hn
    rw [switchLines, ties_append, ties_append, ties_caseLines, hmap] at hn
    exact mem_closings hn
  have hopens {n : String} (hn : Enters s (s.id + 1) as n ∨
      Enters s (s.id + sizes as + 1) fallback.toList n) :
      Enters s (s.id + 1) (as ++ fallback.toList) n := by
    rw [Nat.add_right_comm] at hn
    exact .append hn
  have hcases := drawn_caseEdges (L := switchLines s as fallback) hfirst (Nat.le_refl _)
    (fun l hl => List.mem_append_left _ (List.mem_append_left _ hl))
    fun n hn => hjoins n (List.mem_append_left _ hn)
  have hdefault := drawn_branchEdges "initdefault" (L := switchLines s as fallback)
    hlast.owns hlast.ne_closed (Nat.le_add_right s.id (sizes as)) (by simp [switchLines])
    (by simp [switchLines]) fun n hn => hjoins n (List.mem_append_right _ hn)
  refine ⟨?_, ?_, ?_, ?_, ?_⟩
  · exact List.forall_mem_append.2 ⟨fun g hg => (hcases g hg).1, fun g hg => (hdefault g hg).1⟩
  · exact List.forall_mem_append.2 ⟨fun g hg => (hopens (.inl (hcases g hg).2.1)).isNode hties,
      fun g hg => (hopens (.inr (hdefault g hg).2.1)).isNode hties⟩
  · exact List.forall_mem_append.2 ⟨fun g hg => (hopens (.inl (hcases g hg).2.2)).isNode hties,
      fun g hg => (hopens (.inr (hdefault g hg).2.2)).isNode hties⟩
  · rw [switchLines, switchEdges, drawnTransitions_append, drawnTransitions_append,
      drawnTransitions_joins, steps_caseEdges, List.filterMap_append, List.append_nil]
    cases fallback <;> exact .refl _
  · rw [switchEdges, List.filterMap_append, numbered_append, ← inside_caseEdges, Nat.add_right_comm]
    cases fallback <;> rfl

/-- If what follows the cases is a route, so are the cases with it. -/
theorem route_caseEdges {i k : Nat} {last : String} {as : List Activity} {rest : List Edge}
    (hlast : BeforeCase s i last) (hk : s.id ≤ k) (h : Route rest (lastCase s i last as) s.closed) :
    Route (caseEdges s i last k as ++ rest) last s.closed := by
  induction as generalizing i last k with
  | nil => exact h
  | cons a as ih =>
    have hcase := beforeCase_casePlace s i
    have hbranch := route_branchEdges ("initcase" ++ toString i) hcase.owns
      hcase.ne_closed hk (some a)
    rw [caseEdges, List.cons_append, List.append_assoc]
    exact (Route.single _ hlast.ne_casePlace).series (hbranch.choice (ih hcase (by omega) h))
      (List.forall_mem_singleton.2 hlast.ne_closed)

/-- The edges of a switch lead from its start to its end. -/
theorem route_switchEdges (s : Scope) (as : List Activity) (fallback : Option Activity) :
    Route (switchEdges s as fallback) s.initialized s.closed := by
  have hfirst : BeforeCase s 1 s.initialized := .inl rfl
  obtain ⟨i, hlast⟩ := beforeCase_lastCase hfirst as
  exact route_caseEdges hfirst (Nat.le_refl _)
    (route_branchEdges _ hlast.owns hlast.ne_closed (Nat.le_add_right ..) fallback)

end OpenWorkflow.Activity
