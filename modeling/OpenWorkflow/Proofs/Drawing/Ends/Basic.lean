import OpenWorkflow.Proofs.Drawing.Contents

/-!
# What a fragment ends with

The place where a fragment ends is tied to others: to those where the fragments
inside end that come last, to open edges of a flowchart, to final states. Every
activity sorts its places (`Activity.placeEnds`) and the activities built in it
(`Activity.builtEnds`) into those it ends with and the others.

Lines respect a set of names if no join leaves it and nothing consumes from a
name in it (`Respects`). That the lines of an activity do so is shown for any set
that is sorted as the activity says: `Told` for the places of the fragment, `Seen`
for the ends of those inside. Here are the laws of `Respects` and the structured
activities.
-/

namespace OpenWorkflow

open Activity (sizes)
open Fragment.Flowchart (nodeName)
open Fragment.StateMachine (Candidate GuardChain targetName triggerKeys)

variable {a : Activity} {cs : List (Activity × Bool)} {edges : List (Option String)}
  {states : List (State Activity)} {as : List Activity} {initial : Option String} {last x : String}

/-! ## What a fragment ends with -/

/-- The last item is at the end. -/
def lastly {α : Type} : List α → List (α × Bool)
  | [] => []
  | [a] => [(a, true)]
  | a :: b :: as => (a, false) :: lastly (b :: as)

/-- A branch ends with its action or, without one, with its trigger. -/
def PickBranch.builtEnds (b : PickBranch Activity) : List (Activity × Bool) :=
  (b.trigger.getD .empty, b.action.isNone) :: b.action.toList.map (·, true)

namespace FlowNode

/-- A step is at the end if nothing comes next. -/
def builtEnds : FlowNode Activity → List (Activity × Bool)
  | step _ action next => [(action.getD .empty, next.isNone)]
  | decision _ _ _ | switch _ _ _ => []

/-- The places of cases from the `i`-th on. -/
def caseEnds (id : String) : Nat → List (Option String) → List (String × Bool)
  | _, [] => []
  | i, edge :: edges =>
    (id ++ "." ++ ("condition" ++ toString i), false)
      :: (id ++ "." ++ ("case" ++ toString i), edge.isNone) :: caseEnds id (i + 1) edges

/-- An edge is at the end if it leads nowhere. -/
def placeEnds {α : Type} : FlowNode α → List (String × Bool)
  | step id _ next => [(id ++ "." ++ "start", false), (id ++ "." ++ "next", next.isNone)]
  | decision id onTrue onFalse =>
    [(id ++ "." ++ "start", false), (id ++ "." ++ "condition", false),
      (id ++ "." ++ "true", onTrue.isNone), (id ++ "." ++ "false", onFalse.isNone)]
  | switch id fallback cases =>
    [(id ++ "." ++ "start", false), (id ++ "." ++ "default", fallback.isNone)]
      ++ caseEnds id 1 cases

end FlowNode

namespace State

variable {α : Type}

/-- The machine is over as soon as it enters the state. -/
def isOver (st : State α) : Bool := st.isFinal && st.entry.isNone

/-- A final state ends with its entry. -/
def builtEnds (triggers : List (String × Activity)) (st : State Activity) :
    List (Activity × Bool) :=
  (st.built triggers).map (·, st.isFinal)

/-- The places of the entry. -/
def entryEnds (st : State α) : List (String × Bool) :=
  (st.id ++ ".initialized", st.isOver) ::
    if st.entry.isSome then
      [(st.id ++ ".entry.initialized", false), (st.id ++ ".entry.closed", st.isFinal)]
    else []

/-- The places of the transitions from the `i`-th on. One that leads to the end is there. -/
def transitionEnds (atEnd : String → Bool) (id : String) :
    Nat → List (StateTransition α) → List (String × Bool)
  | _, [] => []
  | i, t :: ts =>
    (actionPlaces id i t.action).map (·, false)
      ++ [(id ++ ".t" ++ toString i ++ ".wait", false), (targetName id i t.target, atEnd t.target)]
      ++ transitionEnds atEnd id (i + 1) ts

/-- The places of the state. -/
def placeEnds (atEnd : String → Bool) (st : State α) : List (String × Bool) :=
  st.entryEnds ++
    if st.isFinal then [(st.id ++ ".closed", true)]
    else
      (exitPlaces st.id st.exit).map (·, false) ++ transitionEnds atEnd st.id 1 st.transitions
        ++ ((triggerKeys st.transitions).flatMap (triggerPlaces st.id st.transitions)).map
          (·, false)
        ++ (untriggeredPlaces st.id st.transitions).map (·, false)

end State

namespace Activity

/-- The machine is over as soon as it enters a state of the name. -/
def isOver (states : List (State Activity)) (id : String) : Bool :=
  states.any fun st => decide (st.id = id) && st.isOver

/-- The activities built in an activity, and whether it ends with them. -/
def builtEnds : Activity → List (Activity × Bool)
  | .atomic _ | .empty | .messaging _ => []
  | .sequence children => if children.isEmpty then [(.empty, true)] else lastly children
  | .conditional onTrue onFalse => (onTrue.toList ++ onFalse.toList).map (·, true)
  | .switch cases fallback => (cases ++ fallback.toList).map (·, true)
  | .loop _ body => body.toList.map (·, false)
  | .parallel [] => [(.empty, true)]
  | .parallel [a] => [(a, true)]
  | .parallel branches => branches.map (·, false)
  | .pick branches =>
    if branches.isEmpty then [(.empty, true)] else branches.flatMap PickBranch.builtEnds
  | .flowchart none _ => [(.empty, true)]
  | .flowchart (some _) nodes => nodes.flatMap FlowNode.builtEnds
  | .stateMachine _ states triggers => states.flatMap (State.builtEnds triggers)

/-- The places of a fragment besides its two ends, and whether it ends with them. -/
def innerEnds : Activity → List (String × Bool)
  | .flowchart (some _) nodes => nodes.flatMap FlowNode.placeEnds
  | .stateMachine _ states _ => states.flatMap (State.placeEnds (isOver states))
  | a => a.places.map (·, false)

/-- The places of a fragment, and whether it ends with them. -/
def placeEnds (a : Activity) : List (String × Bool) :=
  ("initialized", false) :: ("closed", true) :: a.innerEnds

end Activity

theorem map_fst_map_pair {α : Type} (b : Bool) (xs : List α) :
    (xs.map (·, b)).map Prod.fst = xs := by
  simp [Function.comp_def]

theorem map_fst_flatMap {α β : Type} {f : α → List (β × Bool)} {g : α → List β} {xs : List α}
    (h : ∀ x ∈ xs, (f x).map Prod.fst = g x) : (xs.flatMap f).map Prod.fst = xs.flatMap g := by
  rw [List.map_flatMap]
  exact List.flatMap_congr h

theorem map_fst_lastly {α : Type} (as : List α) : (lastly as).map Prod.fst = as := by
  fun_induction lastly as with
  | case1 => rfl
  | case2 a => rfl
  | case3 a b as ih => rw [List.map_cons, ih]

theorem PickBranch.map_fst_builtEnds (b : PickBranch Activity) :
    b.builtEnds.map Prod.fst = b.built := by
  rw [builtEnds, List.map_cons, map_fst_map_pair, built]

theorem FlowNode.map_fst_builtEnds (node : FlowNode Activity) :
    node.builtEnds.map Prod.fst = node.built := by
  cases node <;> rfl

theorem FlowNode.map_fst_caseEnds (id : String) (i : Nat) (edges : List (Option String)) :
    (caseEnds id i edges).map Prod.fst = nodeCasePlaces id edges.length i := by
  induction edges generalizing i with
  | nil => rfl
  | cons edge edges ih => simp [caseEnds, nodeCasePlaces, ih]

/-- All places of a node are sorted. -/
theorem FlowNode.map_fst_placeEnds (node : FlowNode Activity) :
    node.placeEnds.map Prod.fst = node.places := by
  cases node with
  | step id action next => rfl
  | decision id onTrue onFalse => rfl
  | switch id fallback cases => simp [placeEnds, places, map_fst_caseEnds]

theorem FlowNode.exists_of_caseEnd {id : String} {i : Nat} (h : (x, true) ∈ caseEnds id i edges) :
    ∃ j : Nat, x = id ++ "." ++ ("case" ++ toString j) := by
  induction edges generalizing i with
  | nil => cases h
  | cons edge edges ih =>
    simp only [caseEnds, List.mem_cons, Prod.mk.injEq, reduceCtorEq, and_false, false_or] at h
    rcases h with ⟨rfl, -⟩ | h
    · exact ⟨i, rfl⟩
    · exact ih h

/-- No node starts at the end. -/
theorem FlowNode.start_not_end (node : FlowNode Activity) (id : String) :
    (id ++ "." ++ "start", true) ∉ node.placeEnds := by
  have hne {id' y : String} (hy : '.' ∉ y.toList) (hstart : "start" ≠ y) :
      id ++ "." ++ "start" ≠ id' ++ "." ++ y := fun heq =>
    hstart (dotted_inj (by decide) hy heq).2
  intro h
  cases node with
  | step id' action next =>
    simp only [placeEnds, List.mem_cons, Prod.mk.injEq, reduceCtorEq, and_false, false_or,
      List.not_mem_nil, or_false] at h
    exact hne (by decide) (by decide) h.1
  | decision id' onTrue onFalse =>
    simp only [placeEnds, List.mem_cons, Prod.mk.injEq, reduceCtorEq, and_false, false_or,
      List.not_mem_nil, or_false] at h
    rcases h with h | h
    · exact hne (by decide) (by decide) h.1
    · exact hne (by decide) (by decide) h.1
  | switch id' fallback cases =>
    simp only [placeEnds, List.mem_append, List.mem_cons, Prod.mk.injEq, reduceCtorEq, and_false,
      false_or, List.not_mem_nil, or_false] at h
    rcases h with h | h
    · exact hne (by decide) (by decide) h.1
    · obtain ⟨j, heq⟩ := exists_of_caseEnd h
      refine hne (Fragment.Flowchart.dot_not_mem_append (by decide) j) ?_ heq
      intro hstart
      have hlist := congrArg String.toList hstart
      simp at hlist

theorem State.map_fst_transitionEnds {α : Type} (atEnd : String → Bool) (id : String) (i : Nat)
    (ts : List (StateTransition α)) :
    (transitionEnds atEnd id i ts).map Prod.fst = transitionPlaces id i ts := by
  induction ts generalizing i with
  | nil => rfl
  | cons t ts ih =>
    rw [transitionEnds, List.map_append, List.map_append, map_fst_map_pair, ih]
    rfl

/-- All places of a state are sorted. -/
theorem State.map_fst_placeEnds {α : Type} (atEnd : String → Bool) (st : State α) :
    (st.placeEnds atEnd).map Prod.fst = st.places := by
  have hentry : st.entryEnds.map Prod.fst = entryPlaces st.id st.entry := by
    unfold entryEnds entryPlaces
    split <;> rfl
  unfold placeEnds places
  rw [List.map_append, hentry]
  split
  · rfl
  · simp only [List.map_append, map_fst_map_pair, map_fst_transitionEnds]

namespace Activity

/-- All activities that are built are sorted. -/
theorem map_fst_builtEnds (a : Activity) : a.builtEnds.map Prod.fst = a.built := by
  cases a with
  | atomic a => rfl
  | empty => rfl
  | messaging m => rfl
  | sequence children =>
    rw [builtEnds, built]
    split
    · rfl
    · exact map_fst_lastly children
  | conditional onTrue onFalse => exact map_fst_map_pair ..
  | switch cases fallback => exact map_fst_map_pair ..
  | loop test body => exact map_fst_map_pair ..
  | parallel branches =>
    rcases branches with _ | ⟨a, _ | ⟨b, branches⟩⟩
    · rfl
    · rfl
    · exact map_fst_map_pair false (a :: b :: branches)
  | pick branches =>
    rw [builtEnds, built]
    split
    · rfl
    · exact map_fst_flatMap fun b _ => b.map_fst_builtEnds
  | flowchart start nodes =>
    cases start with
    | none => rfl
    | some start => exact map_fst_flatMap fun node _ => node.map_fst_builtEnds
  | stateMachine initial states triggers =>
    exact map_fst_flatMap fun st _ => map_fst_map_pair ..

theorem mem_built_of_builtEnds {c : Activity × Bool} (h : c ∈ a.builtEnds) : c.1 ∈ a.built := by
  rw [← map_fst_builtEnds]
  exact List.mem_map_of_mem h

/-- All places of an activity are sorted. -/
theorem map_fst_placeEnds (a : Activity) :
    a.placeEnds.map Prod.fst = "initialized" :: "closed" :: a.places := by
  have hinner : a.innerEnds.map Prod.fst = a.places := by
    cases a with
    | flowchart start nodes =>
      cases start with
      | none => rfl
      | some start => exact map_fst_flatMap fun node _ => node.map_fst_placeEnds
    | stateMachine initial states triggers =>
      exact map_fst_flatMap fun st _ => st.map_fst_placeEnds _
    | _ => exact map_fst_map_pair ..
  rw [placeEnds, List.map_cons, List.map_cons, hinner]

end Activity

/-! ## Sets of names that are sorted so -/

/-- The line ties no name of the first set to another and takes nothing from the second set. -/
@[simp] def Line.Respects (E F : String → Prop) : Line → Prop
  | .joins n n' => E n ↔ E n'
  | .arc .consumes n _ => ¬ F n
  | _ => True

/-- No line ties a name of the first set to another or takes something from the second set. -/
def Respects (E F : String → Prop) (L : List Line) : Prop := ∀ l ∈ L, l.Respects E F

/-- The places of a fragment are ends as the list says, if the fragment is one. -/
def Told (E : String → Prop) (s : Scope) (v : Bool) (xs : List (String × Bool)) : Prop :=
  ∀ x ∈ xs, E (s.name x.1) ↔ x.2 = true ∧ v = true

/-- The names of a fragment are ends as its activity says, if the fragment is one. -/
structure Sorted (E : String → Prop) (s : Scope) (v : Bool) (a : Activity) : Prop where
  told : Told E s v a.placeEnds
  only : ∀ x, E (s.name x) → (x, true) ∈ a.placeEnds

/-- The fragments inside, which have the numbers after `k`, are as the predicate says. -/
def Each (P : Nat → Activity × Bool → Prop) : Nat → List (Activity × Bool) → Prop
  | _, [] => True
  | k, c :: cs => P (k + 1) c ∧ Each P (k + c.1.size) cs

/-- The fragments inside end at ends as the list says, if the fragment around them does. -/
def Seen (E : String → Prop) (v : Bool) : Nat → List (Activity × Bool) → Prop :=
  Each fun k c =>
    ¬ E (Scope.initialized ⟨k⟩) ∧ (E (Scope.closed ⟨k⟩) ↔ c.2 = true ∧ v = true)

/-- The fragments inside start and end in the set as the list says. -/
def Framed (E : String → Prop) : Nat → List (Activity × Bool) → Prop :=
  Each fun k c => (E (Scope.initialized ⟨k⟩) ↔ c.2 = true) ∧ (E (Scope.closed ⟨k⟩) ↔ c.2 = true)

section Laws

variable {E F : String → Prop} {s : Scope} {v : Bool} {k : Nat} {P Q : Nat → Activity × Bool → Prop}

theorem Respects.nil : Respects E F [] := List.forall_mem_nil _

theorem Respects.append {L L' : List Line} (h : Respects E F L) (h' : Respects E F L') :
    Respects E F (L ++ L') :=
  List.forall_mem_append.2 ⟨h, h'⟩

theorem Respects.flatMap {α : Type} {lines : α → List Line} {xs : List α}
    (h : ∀ x ∈ xs, Respects E F (lines x)) : Respects E F (xs.flatMap lines) :=
  List.forall_mem_flatMap.2 h

theorem told_append {xs ys : List (String × Bool)} :
    Told E s v (xs ++ ys) ↔ Told E s v xs ∧ Told E s v ys := List.forall_mem_append

theorem told_flatMap {α : Type} {f : α → List (String × Bool)} {xs : List α} :
    Told E s v (xs.flatMap f) ↔ ∀ x ∈ xs, Told E s v (f x) := List.forall_mem_flatMap

/-- Places that are not at the end. -/
theorem told_false {xs : List String} :
    Told E s v (xs.map (·, false)) ↔ ∀ x ∈ xs, ¬ E (s.name x) := by
  simp [Told]

theorem each_append {ds : List (Activity × Bool)} :
    Each P k (cs ++ ds) ↔ Each P k cs ∧ Each P (k + sizes (cs.map Prod.fst)) ds := by
  induction cs generalizing k with
  | nil => simp [Each]
  | cons c cs ih => simp [Each, ih, and_assoc, Nat.add_assoc]

theorem Each.imp (h : Each P k cs) (hP : ∀ c ∈ cs, ∀ k, P k c → Q k c) : Each Q k cs := by
  induction cs generalizing k with
  | nil => trivial
  | cons c cs ih =>
    rw [List.forall_mem_cons] at hP
    exact ⟨hP.1 _ h.1, ih h.2 hP.2⟩

theorem Seen.framed (h : Seen E v k (as.map (·, false))) : Framed E k (as.map (·, false)) :=
  h.imp fun c hc k hk => by
    obtain ⟨a, -, rfl⟩ := List.mem_map.1 hc
    simpa using hk

/-- Parts with fragments inside. -/
theorem Respects.numberedLines {α : Type} {lines : Nat → α → List Line}
    {built : α → List Activity} {ends : α → List (Activity × Bool)}
    (hends : ∀ x, (ends x).map Prod.fst = built x) {xs : List α}
    (heach : Each P k (xs.flatMap ends))
    (h : ∀ x ∈ xs, ∀ k, Each P k (ends x) → Respects E F (lines k x)) :
    Respects E F (numberedLines lines built k xs) := by
  induction xs generalizing k with
  | nil => exact .nil
  | cons x xs ih =>
    rw [List.flatMap_cons, each_append, hends] at heach
    exact (h x (List.mem_cons_self ..) k heach.1).append
      (ih heach.2 fun y hy => h y (List.mem_cons_of_mem _ hy))

end Laws

namespace Activity

variable {E : String → Prop} {s : Scope} {v : Bool} {k : Nat}

/-! ## Steps and structured control flow -/

/-- The last of fragments behind one another is at the end. -/
theorem respects_chainLines (hne : as ≠ []) (hlast : ¬ E last) (hseen : Seen E v k (lastly as)) :
    Respects E E (chainLines last k as) ∧ (E (chainEnd last k as) ↔ v = true) := by
  induction as generalizing last k with
  | nil => exact absurd rfl hne
  | cons a as ih =>
    cases as with
    | nil =>
      simp only [lastly, Seen, Each, true_and, and_true] at hseen
      exact ⟨by simp [Respects, chainLines, hlast, hseen], hseen.2⟩
    | cons b as =>
      simp only [lastly, Seen, Each, Bool.false_eq_true, false_and, iff_false] at hseen
      obtain ⟨⟨hfirst, hend⟩, hrest⟩ := hseen
      obtain ⟨hlines, hchain⟩ := ih (List.cons_ne_nil _ _) hend hrest
      refine ⟨?_, hchain⟩
      have hjoin : Respects E E [.joins last (Scope.initialized ⟨k + 1⟩)] := by
        simp [Respects, hlast, hfirst]
      exact hjoin.append hlines

section Ends

variable (hinit : ¬ E s.initialized) (hclosed : E s.closed ↔ v = true)

include hinit

theorem respects_stepLines (label : String) : Respects E E (stepLines s label) := by
  simp [Respects, stepLines, hinit]

/-- Interface places are no ends. -/
theorem respects_messageLines (hnumbered : ∀ n, E n → IsNumbered n) (m : Messaging) :
    Respects E E (messageLines s m) := by
  have hplace : ¬ E (m.placeName s) := fun h =>
    (isMessage_placeName m s).not_isNumbered (hnumbered _ h)
  cases hflow : messageFlow m <;> simp [Respects, messageLines, hflow, hinit, hplace]

include hclosed

theorem respects_spliceLines {c : Activity} (hseen : Seen E v k [(c, true)]) :
    Respects E E (spliceLines s.initialized s.closed ⟨k + 1⟩) := by
  simp only [Seen, Each, true_and, and_true] at hseen
  simp [Respects, spliceLines, hinit, hclosed, hseen]

/-- The end of a sequence is that of its last activity. -/
theorem respects_sequenceLines
    (hseen : Seen E v s.id (if as.isEmpty then [(.empty, true)] else lastly as)) :
    Respects E E (sequenceLines s as) := by
  unfold sequenceLines
  split
  · rename_i h
    rw [if_pos h] at hseen
    exact respects_spliceLines hinit hclosed hseen
  · rename_i h
    rw [if_neg h] at hseen
    obtain ⟨hlines, hend⟩ :=
      respects_chainLines (fun hnil => h (by rw [hnil]; rfl)) hinit hseen
    refine hlines.append ?_
    simp [Respects, hclosed, hend]

omit hinit in
theorem respects_branchLines (label : String) (hcondition : ¬ E (s.name "condition"))
    {a : Option Activity} (hseen : Seen E v k (a.toList.map (·, true))) :
    Respects E E (branchLines s label k a) := by
  cases a with
  | none => simp [Respects, branchLines, hcondition]
  | some a =>
    simp only [Option.toList_some, List.map_cons, List.map_nil, Seen, Each, true_and,
      and_true] at hseen
    simp [Respects, branchLines, hcondition, hclosed, hseen]

/-- A condition ends where its branches end. -/
theorem respects_conditionalLines (hcondition : ¬ E (s.name "condition"))
    {onTrue onFalse : Option Activity}
    (hseen : Seen E v s.id ((onTrue.toList ++ onFalse.toList).map (·, true))) :
    Respects E E (conditionalLines s onTrue onFalse) := by
  rw [List.map_append, Seen, each_append, map_fst_map_pair] at hseen
  unfold conditionalLines
  refine Respects.append (by simp [Respects, hinit]) ?_
  split
  · simp [Respects, hcondition]
  · exact (respects_branchLines hclosed _ hcondition hseen.1).append
      (respects_branchLines hclosed _ hcondition hseen.2)

omit hinit hclosed in
/-- The cases of a switch. -/
theorem respects_caseLines {i : Nat} (hlast : ¬ E last)
    (hplaces : ∀ x ∈ casePlaces i as, ¬ E (s.name x)) :
    Respects E E (caseLines s i last k as) ∧ ¬ E (lastCase s i last as) := by
  induction as generalizing i last k with
  | nil => exact ⟨.nil, hlast⟩
  | cons a as ih =>
    rw [casePlaces, List.forall_mem_cons] at hplaces
    obtain ⟨hlines, hend⟩ := ih (k := k + a.size) hplaces.1 hplaces.2
    refine ⟨Respects.append ?_ hlines, hend⟩
    have hcase : ¬ E (casePlace s i) := hplaces.1
    simp [Respects, hlast, hcase]

omit hinit in
theorem respects_closings (hseen : Seen E v k (as.map (·, true))) :
    Respects E E ((closings k as).map (.joins s.closed ·)) := by
  induction as generalizing k with
  | nil => exact .nil
  | cons a as ih =>
    simp only [List.map_cons, Seen, Each, true_and] at hseen
    have hjoin : Respects E E [.joins s.closed (Scope.closed ⟨k + 1⟩)] := by
      simp [Respects, hclosed, hseen.1.2]
    exact hjoin.append (ih hseen.2)

/-- A switch ends where its cases end. -/
theorem respects_switchLines {fallback : Option Activity}
    (hplaces : ∀ x ∈ casePlaces 1 as, ¬ E (s.name x))
    (hseen : Seen E v s.id ((as ++ fallback.toList).map (·, true))) :
    Respects E E (switchLines s as fallback) := by
  obtain ⟨hlines, hlast⟩ := respects_caseLines (k := s.id) hinit hplaces
  refine (hlines.append ?_).append (respects_closings hclosed hseen)
  simp [Respects, hlast]

omit hclosed in
/-- The body of a loop does not end the loop. -/
theorem respects_loopLines (test : LoopTest) (hcondition : ¬ E (s.name "condition"))
    {body : Option Activity} (hseen : Seen E v s.id (body.toList.map (·, false))) :
    Respects E E (loopLines s test body) := by
  cases body with
  | none => cases test <;> simp [Respects, loopLines, hinit, hcondition]
  | some body =>
    simp only [Option.toList_some, List.map_cons, List.map_nil, Seen, Each, Bool.false_eq_true,
      false_and, iff_false, and_true] at hseen
    cases test <;> simp [Respects, loopLines, hinit, hcondition, hseen]

/-- Parallel branches end before the join. -/
theorem respects_parallelLines (hseen : Seen E v s.id (builtEnds (.parallel as))) :
    Respects E E (parallelLines s as) := by
  match as with
  | [] => exact respects_spliceLines hinit hclosed hseen
  | [a] => exact respects_spliceLines hinit hclosed hseen
  | a :: b :: as =>
    have hseen' : Seen E v s.id ((a :: b :: as).flatMap fun c => [(c, false)]) := by
      rw [← List.map_eq_flatMap]
      exact hseen
    refine Respects.append ?_ (.numberedLines (fun _ => rfl) hseen' fun c _ k hc => ?_)
    · simp [Respects, hinit]
    simp only [Each, Bool.false_eq_true, false_and, iff_false, and_true] at hc
    simp [Respects, parallelBranchLines, hc]

/-- A choice by triggers ends where its branches end. -/
theorem respects_pickLines {bs : List (PickBranch Activity)}
    (hseen : Seen E v s.id (builtEnds (.pick bs))) : Respects E E (pickLines s bs) := by
  rw [builtEnds] at hseen
  unfold pickLines
  split
  · rename_i h
    rw [if_pos h] at hseen
    exact respects_spliceLines hinit hclosed hseen
  · rename_i h
    rw [if_neg h] at hseen
    refine .numberedLines PickBranch.map_fst_builtEnds hseen fun b _ k hb => ?_
    obtain ⟨trigger, action⟩ := b
    cases action with
    | none =>
      simp only [PickBranch.builtEnds, Option.isNone_none, Option.toList_none, List.map_nil, Each,
        true_and, and_true] at hb
      simp [Respects, pickBranchLines, hinit, hclosed, hb]
    | some action =>
      simp only [PickBranch.builtEnds, Option.isNone_some, Option.toList_some, List.map_cons,
        List.map_nil, Each, Bool.false_eq_true, false_and, iff_false, true_and, and_true] at hb
      simp [Respects, pickBranchLines, hinit, hclosed, hb]

end Ends

end Activity

end OpenWorkflow
