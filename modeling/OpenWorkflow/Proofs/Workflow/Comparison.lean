import Mathlib.Data.Option.Basic
import OpenWorkflow.Proofs.Workflow.Locality
import OpenWorkflow.Workflow.Registry

/-!
# Readers compared step by step

The same reader can be run on two documents, or with two bounds on how deep it may go. A
`Comparison` is a relation between the steps of two such runs for which there is a law for each
primitive step and each way of combining steps; then every reader is related to itself
(`Comparison.below_child`). What a reader does has to be followed only once for all comparisons.
-/

namespace OpenWorkflow

open OpenWorkflow.Markup (Token activityName languageName)

variable {fault : Fault} {k k' : Nat}

/-- The elements that flowcharts consist of. -/
def Markup.flowNames : List String := ["Flowchart", "FlowStep", "FlowDecision", "FlowSwitch"]

/-- Where a step begins or ends: in front of an element, in front of one that begins with the
same tag in both runs, in an element or behind it. -/
inductive Stage where
  | before
  | opened
  | inside
  | behind

/-- A way to compare two runs, element by element. Each element has a level, which bounds the
number of its tags. -/
structure Comparison where
  Level : Type
  /-- Elements of the first level can stand in those of the second. -/
  lt : Level → Level → Prop
  trans {i j k : Level} : lt i j → lt j k → lt i k
  /-- From one stage of an element the two steps reach another, with the same value, or both
  fail. -/
  Rel (i : Level) (A B : Stage) {α : Type} (p q : Parser α) : Prop
  /-- If a tag of this name is in front, then it is the same tag in both runs. -/
  Sees : Stage → String → Prop
  /-- The bounds of the two runs allow for the elements of a level. -/
  Fits : Level → Nat → Nat → Prop
  /-- The two steps do the same where the front tags are not the same. -/
  Meets (i : Level) {α : Type} (p q : Parser α) : Prop
  sees_activity {name : String} : name ∉ Markup.flowNames → Sees .before (activityName name)
  sees_language {name : String} : Sees .before (languageName name)
  sees_opened {qname : String} : Sees .opened qname
  fits_lt {i j : Level} {k k' : Nat} : lt i j → Fits j k k' →
    ∃ l l', k = l + 1 ∧ k' = l' + 1 ∧ Fits i l l'
  of_before {i : Level} {B : Stage} {α : Type} {p q : Parser α} :
    Rel i .before B p q → Rel i .opened B p q
  pure {i : Level} {A : Stage} {α : Type} {a : α} : Rel i A A (Pure.pure a) (Pure.pure a)
  bind {i : Level} {A B B' : Stage} {α β : Type} {p q : Parser α} {g h : α → Parser β} :
    Rel i A B p q → (∀ a, Rel i B B' (g a) (h a)) → Rel i A B' (p >>= g) (q >>= h)
  fail {i : Level} {A B : Stage} {α : Type} {fault : Fault} {owner : String} :
    fault.isRefusal = true →
      Rel i A B (Parser.fail fault owner : Parser α) (Parser.fail fault owner)
  unexpected {i : Level} {B : Stage} {α : Type} {owner : String} :
    Rel i .before B (Parser.unexpected owner : Parser α) (Parser.unexpected owner)
  atEndOf {i : Level} {qname : String} :
    Rel i .inside .inside (Parser.atEndOf qname) (Parser.atEndOf qname)
  atStartOf {i : Level} {A : Stage} {qname : String} : A ≠ .behind →
    Rel i A A (Parser.atStartOf qname) (Parser.atStartOf qname)
  atOpened {i : Level} {A B : Stage} {α : Type} {qname : String} {p q p' q' : Parser α} :
    Sees A qname → Rel i .opened B p q → Rel i A B p' q' →
      Rel i A B (do if ← Parser.atStartOf qname then p else p')
        (do if ← Parser.atStartOf qname then q else q')
  peekStart {i : Level} {α : Type} {owner : String} {g h : Token → Parser α} :
    Meets i (Parser.peekStart owner >>= g) (Parser.peekStart owner >>= h) →
      (∀ t, Rel i .opened .behind (g t) (h t)) →
      Rel i .before .behind (Parser.peekStart owner >>= g) (Parser.peekStart owner >>= h)
  /-- The front tags have the same label, if not more. -/
  peekLabel {i : Level} {B : Stage} {α : Type} {owner : String} {g h : Token → Parser α} :
    (∀ t t', t.attribute? "x:Name" = t'.attribute? "x:Name" → Rel i .inside B (g t) (h t')) →
      Rel i .inside B (Parser.peekStart owner >>= g) (Parser.peekStart owner >>= h)
  nextToken {i : Level} {owner : String} :
    Rel i .opened .inside (Parser.nextToken owner) (Parser.nextToken owner)
  expectStart {i : Level} {A : Stage} {qname owner : String} : Sees A qname →
    Rel i A .inside (Parser.expectStart qname owner) (Parser.expectStart qname owner)
  expectEnd {i : Level} {qname owner : String} :
    Rel i .inside .behind (Parser.expectEnd qname owner) (Parser.expectEnd qname owner)
  skipElement {i : Level} {owner : String} :
    Rel i .before .behind (do let _ ← Parser.skipElement owner)
      (do let _ ← Parser.skipElement owner)
  skipOpened {i : Level} {owner : String} :
    Rel i .opened .behind (Parser.skipElement owner) (Parser.skipElement owner)
  /-- An element that stands in another one. -/
  part {i : Level} {α : Type} {p q : Parser α} :
    (∀ j, lt j i → Rel j .before .behind p q) → Rel i .inside .inside p q
  untilEnd {i : Level} {σ : Type} {qname owner : String} {item item' : σ → Parser σ} :
    (∀ j, lt j i → ∀ a, Rel j .before .behind (item a) (item' a)) → ∀ a,
      Rel i .inside .inside (Parser.untilEnd qname owner item a)
        (Parser.untilEnd qname owner item' a)
  remaining {i : Level} {α : Type} {F G : Nat → Parser α} :
    (∀ j k k', (∀ l, lt l j → lt l i) → Fits j (k + 1) (k' + 1) →
      Rel j .inside .behind (F k) (G k')) →
      Rel i .inside .behind (Parser.remaining >>= F) (Parser.remaining >>= G)

namespace Comparison

variable (C : Comparison) {i j : C.Level} {A B : Stage} {α β σ ι : Type} {p q p' q' : Parser α}
  {child child' : ChildReader} {qname owner name : String}

/-- The two readers do the same on all elements that can stand in one of the level. -/
def Below (i : C.Level) (f g : ι → Parser α) : Prop :=
  ∀ j, C.lt j i → ∀ x, C.Rel j .before .behind (f x) (g x)

variable {C} in
theorem Below.mono {f g : ι → Parser α} (h : C.Below i f g) (hj : ∀ l, C.lt l j → C.lt l i) :
    C.Below j f g :=
  fun l hl => h l (hj l hl)

variable {C} in
theorem Below.lt {f g : ι → Parser α} (h : C.Below i f g) (hj : C.lt j i) : C.Below j f g :=
  h.mono fun _ hl => C.trans hl hj

theorem ite {c : Prop} [Decidable c] (hp : C.Rel i A B p q) (hq : C.Rel i A B p' q') :
    C.Rel i A B (if c then p else p') (if c then q else q') := by
  split
  · exact hp
  · exact hq

/-- One way or the other, as the front tag says. -/
theorem atStart (hp : C.Rel i .before B p q) (hq : C.Rel i .before B p' q') :
    C.Rel i .before B (do if ← Parser.atStartOf qname then p else p')
      (do if ← Parser.atStartOf qname then q else q') :=
  C.bind (C.atStartOf nofun) fun _ => C.ite hp hq

/-- A value that is there when the element ends. -/
theorem close {a : α} : C.Rel i .inside .behind
    (do let _ ← Parser.expectEnd qname owner; return a)
    (do let _ ← Parser.expectEnd qname owner; return a) :=
  C.bind C.expectEnd fun _ => C.pure

/-- An element that is skipped. -/
theorem skip (h : C.Rel i .behind B p q) : C.Rel i .before B
    (do let _ ← Parser.skipElement owner; p) (do let _ ← Parser.skipElement owner; q) := by
  have hskip : C.Rel i .before .behind (do let _ ← Parser.skipElement owner)
      (do let _ ← Parser.skipElement owner) := C.skipElement
  simpa only [bind_assoc, pure_bind] using C.bind hskip fun _ => h

/-- An element that is skipped in another one. -/
theorem skipInside (h : C.Rel i .inside B p q) : C.Rel i .inside B
    (do let _ ← Parser.skipElement owner; p) (do let _ ← Parser.skipElement owner; q) := by
  have hskip : C.Rel i .inside .inside (do let _ ← Parser.skipElement owner)
      (do let _ ← Parser.skipElement owner) := C.part fun _ _ => C.skipElement
  simpa only [bind_assoc, pure_bind] using C.bind hskip fun _ => h

/-! ## Parts of activities -/

theorem reference : C.Rel i .before .behind (Reader.reference owner) (Reader.reference owner) := by
  refine C.bind (C.expectStart C.sees_language) fun start =>
    C.bind (C.untilEnd (fun _ _ _ => C.skipElement) ()) fun _ => C.bind C.expectEnd fun _ => ?_
  split
  · exact C.pure
  · exact C.fail rfl

theorem primitive (hA : C.Sees A qname) :
    C.Rel i A .behind (Reader.primitive qname name) (Reader.primitive qname name) :=
  C.atOpened hA C.skipOpened (C.fail rfl)

theorem messaging (kind : MessageKind)
    (hA : C.Sees A (Markup.qualify Markup.Namespace.serviceModel kind.name)) :
    C.Rel i A .behind (Reader.messaging kind) (Reader.messaging kind) := by
  refine C.bind (C.primitive hA) fun start => C.ite C.pure (C.ite (C.fail rfl) ?_)
  split
  · exact C.pure
  · exact C.pure

section Structured

variable {C} (h : C.Below i child child')
include h

theorem Below.wrapped (hname : name ∉ Markup.flowNames) : C.Rel i .before .behind
    (Reader.wrapped child (activityName name) owner)
    (Reader.wrapped child' (activityName name) owner) := by
  refine C.bind (C.expectStart (C.sees_activity hname)) fun _ => C.bind C.atEndOf fun _ =>
    C.bind (C.atStartOf nofun) fun _ => ?_
  refine C.ite C.close (C.ite (C.skipInside C.close) ?_)
  exact C.bind (C.part fun j hj => h j hj owner) fun _ => C.close

/-! ## Structured activities -/

/-- Readers of sequences are related if readers of children are. -/
theorem Below.sequence (hA : C.Sees A (activityName "Sequence")) :
    C.Rel i A .behind (Reader.sequence child) (Reader.sequence child') :=
  C.bind (C.expectStart hA) fun _ =>
    C.bind (C.untilEnd (fun j hj _ => C.bind (h j hj _) fun _ => C.pure) _) fun _ => C.close

theorem Below.conditionalPart :
    C.Below i (Reader.conditionalPart child) (Reader.conditionalPart child') := by
  intro j hj b
  refine C.atStart ?_ (C.atStart ?_ (C.atStart (C.skip C.pure) C.unexpected))
  · exact C.bind ((h.lt hj).wrapped (by decide)) fun _ => C.pure
  · exact C.bind ((h.lt hj).wrapped (by decide)) fun _ => C.pure

/-- Readers of conditions are related if readers of children are. -/
theorem Below.conditional (hA : C.Sees A (activityName "If")) :
    C.Rel i A .behind (Reader.conditional child) (Reader.conditional child') :=
  C.bind (C.expectStart hA) fun _ => C.bind (C.untilEnd h.conditionalPart _) fun _ => C.close

theorem Below.switchPart : C.Below i (Reader.switchPart child) (Reader.switchPart child') := by
  intro j hj parts
  refine C.atStart ?_ (C.atStart (C.skip C.pure) (C.atStart (C.skip C.pure) ?_))
  · exact C.bind ((h.lt hj).wrapped (by decide)) fun _ => C.pure
  · exact C.bind (h j hj _) fun _ => C.pure

/-- Readers of switches are related if readers of children are. -/
theorem Below.switch (hA : C.Sees A (activityName "Switch")) :
    C.Rel i A .behind (Reader.switch child) (Reader.switch child') :=
  C.bind (C.expectStart hA) fun _ => C.bind (C.untilEnd h.switchPart _) fun _ => C.close

theorem Below.loopPart (test : LoopTest) :
    C.Below i (Reader.loopPart child test.name) (Reader.loopPart child' test.name) := by
  intro j hj body
  refine C.atStart (C.skip C.pure) (C.ite (C.fail rfl) (C.atStart ?_ ?_))
  · refine (h.lt hj).wrapped ?_
    cases test <;> decide
  · exact C.bind (h j hj _) fun _ => C.pure

/-- Readers of loops are related if readers of children are. -/
theorem Below.loop (test : LoopTest) (hA : C.Sees A (activityName test.name)) :
    C.Rel i A .behind (Reader.loop child test) (Reader.loop child' test) :=
  C.bind (C.expectStart hA) fun _ => C.bind (C.untilEnd (h.loopPart test) _) fun _ => C.close

theorem Below.parallelPart :
    C.Below i (Reader.parallelPart child) (Reader.parallelPart child') :=
  fun j hj _ => C.atStart (C.skip C.pure) (C.bind (h j hj _) fun _ => C.pure)

/-- Readers of parallel branches are related if readers of children are. -/
theorem Below.parallel (hA : C.Sees A (activityName "Parallel")) :
    C.Rel i A .behind (Reader.parallel child) (Reader.parallel child') :=
  C.bind (C.expectStart hA) fun _ => C.bind (C.untilEnd h.parallelPart _) fun _ => C.close

theorem Below.pickBranchPart :
    C.Below i (Reader.pickBranchPart child) (Reader.pickBranchPart child') := by
  intro j hj b
  refine C.atStart ?_ (C.ite C.unexpected (C.atStart ?_ ?_))
  · exact C.bind ((h.lt hj).wrapped (by decide)) fun _ => C.pure
  · exact C.bind ((h.lt hj).wrapped (by decide)) fun _ => C.pure
  · exact C.bind (h j hj _) fun _ => C.pure

theorem Below.pickPart : C.Below i (Reader.pickPart child) (Reader.pickPart child') := by
  intro j hj branches
  refine C.atStart (C.bind (?_ : C.Rel j .before .behind _ _) fun _ => C.pure) C.unexpected
  exact C.bind (C.expectStart (C.sees_activity (by decide))) fun _ =>
    C.bind (C.untilEnd (h.lt hj).pickBranchPart _) fun _ => C.close

/-- Readers of choices are related if readers of children are. -/
theorem Below.pick (hA : C.Sees A (activityName "Pick")) :
    C.Rel i A .behind (Reader.pick child) (Reader.pick child') :=
  C.bind (C.expectStart hA) fun _ => C.bind (C.untilEnd h.pickPart _) fun _ => C.close

end Structured

/-! ## Flowcharts -/

section Flowcharts

open Reader.Flowchart

variable {C} {node node' : NodeReader}

/-- The readers of nodes do the same where the front tags are not the same. -/
def MeetsNodes (C : Comparison) (i : C.Level) (child child' : ChildReader) : Prop :=
  ∀ j l k k' g, C.lt j i → C.lt j l → C.Fits l k k' →
    C.Meets j (Reader.Flowchart.node child k g) (Reader.Flowchart.node child' k' g)

section

variable (hnode : C.Below i node node')
include hnode

theorem Below.target (hname : name ∉ Markup.flowNames) (g : Reader.Flowchart.Graph) :
    C.Rel i .before .behind (target node (activityName name) g)
      (target node' (activityName name) g) := by
  refine C.bind (C.expectStart (C.sees_activity hname)) fun _ => C.bind C.atEndOf fun _ =>
    C.ite C.close ?_
  exact C.bind (C.part fun j hj => hnode j hj g) fun _ => C.close

theorem Below.stepPart (h : C.Below i child child') :
    C.Below i (stepPart child node) (stepPart child' node') := by
  intro j hj d
  refine C.atStart (C.skip C.pure) (C.atStart ?_ (C.ite ?_ C.unexpected))
  · exact C.bind ((hnode.lt hj).target (by decide) _) fun _ => C.pure
  · exact C.bind (h j hj _) fun _ => C.pure

theorem Below.step (h : C.Below i child child') (g : Reader.Flowchart.Graph) :
    C.Rel i .opened .behind (step child node g) (step child' node' g) :=
  C.bind (C.expectStart C.sees_opened) fun _ =>
    C.bind (C.untilEnd (hnode.stepPart h) _) fun _ => C.close

theorem Below.decisionPart : C.Below i (decisionPart node) (decisionPart node') := by
  intro j hj d
  refine C.atStart ?_ (C.atStart ?_
    (C.atStart (C.skip C.pure) (C.atStart (C.skip C.pure) C.unexpected)))
  · exact C.bind ((hnode.lt hj).target (by decide) _) fun _ => C.pure
  · exact C.bind ((hnode.lt hj).target (by decide) _) fun _ => C.pure

theorem Below.decision (g : Reader.Flowchart.Graph) :
    C.Rel i .opened .behind (decision node g) (decision node' g) :=
  C.bind (C.expectStart C.sees_opened) fun _ =>
    C.bind (C.untilEnd hnode.decisionPart _) fun _ => C.close

theorem Below.flowSwitchPart : C.Below i (Reader.Flowchart.switchPart node)
    (Reader.Flowchart.switchPart node') := by
  intro j hj d
  refine C.atStart ?_ (C.atStart (C.skip C.pure) (C.atStart (C.skip C.pure) ?_))
  · exact C.bind ((hnode.lt hj).target (by decide) _) fun _ => C.pure
  · exact C.bind (hnode j hj _) fun _ => C.pure

theorem Below.flowSwitch (g : Reader.Flowchart.Graph) :
    C.Rel i .opened .behind (Reader.Flowchart.switch node g) (Reader.Flowchart.switch node' g) :=
  C.bind (C.expectStart C.sees_opened) fun _ =>
    C.bind (C.untilEnd hnode.flowSwitchPart _) fun _ => C.close

theorem Below.startNode : C.Below i (startNode node) (startNode node') :=
  fun j hj _ => C.bind (hnode j hj _) fun _ => C.pure

theorem Below.flowchartPart :
    C.Below i (Reader.Flowchart.part node) (Reader.Flowchart.part node') := by
  intro j hj d
  refine C.atOpened (C.sees_activity (by decide)) ?_ ?_
  · exact C.bind C.nextToken fun _ =>
      C.bind (C.untilEnd (hnode.lt hj).startNode _) fun _ => C.close
  · exact C.bind (hnode j hj _) fun _ => C.pure

end

/-- Readers of nodes are related if readers of children are. -/
theorem Below.nodes (h : C.Below i child child') (hmeets : C.MeetsNodes i child child')
    (hfits : C.Fits i k k') :
    C.Below i (Reader.Flowchart.node child k) (Reader.Flowchart.node child' k') := by
  induction k generalizing i k' with
  | zero =>
    intro j hj
    obtain ⟨l, l', hl, -⟩ := C.fits_lt hj hfits
    cases hl
  | succ k ih =>
    intro j hj g
    have hmeet := hmeets j i (k + 1) k' g hj hj hfits
    obtain ⟨l, l', hl, rfl, hfits⟩ := C.fits_lt hj hfits
    obtain rfl := Nat.succ.inj hl
    have hinner := ih (h.lt hj) (fun x y m m' g hx => hmeets x y m m' g (C.trans hx hj)) hfits
    refine C.peekStart hmeet fun front => ?_
    refine C.ite ?_ (C.ite ?_ (C.ite ?_ (C.ite ?_ (C.ite ?_ (C.of_before C.unexpected)))))
    · exact C.bind (hinner.step (h.lt hj) g) fun _ => C.pure
    · exact C.bind (hinner.decision g) fun _ => C.pure
    · exact C.bind (hinner.flowSwitch g) fun _ => C.pure
    · exact C.bind (C.of_before C.reference) fun _ => C.pure
    · exact C.bind C.skipOpened fun _ => C.pure

theorem isRefusal_of_flowchartFault {start : Option String} {nodes : List (FlowNode Activity)}
    (h : fault ∈ fault? start nodes) : fault.isRefusal = true := by
  simp only [fault?] at h
  split at h
  · obtain rfl := Option.some.inj h
    rfl
  · obtain ⟨id, -, rfl⟩ := Option.map_eq_some_iff.1 h
    rfl

theorem flowchartCheck {fault : Option Fault} (h : ∀ x ∈ fault, x.isRefusal = true) :
    C.Rel i A A (check fault) (check fault) := by
  cases fault with
  | none => exact C.pure
  | some fault => exact C.fail (h fault rfl)

/-- Readers of flowcharts are related if readers of children are. -/
theorem Below.flowchart (hA : C.Sees A (activityName "Flowchart")) (h : C.Below i child child')
    (hmeets : C.MeetsNodes i child child') :
    C.Rel i A .behind (flowchart child) (flowchart child') := by
  refine C.bind (C.expectStart hA) fun root => C.remaining fun j k k' hj hfits => ?_
  have hnode := (h.mono hj).nodes (fun x y m m' g hx => hmeets x y m m' g (hj x hx)) hfits
  refine C.bind (C.untilEnd hnode.flowchartPart _) fun d => ?_
  exact C.bind (flowchartCheck fun _ => isRefusal_of_flowchartFault) fun _ => C.close

end Flowcharts

/-! ## State machines -/

section StateMachines

open Reader.StateMachine

variable {C} {state state' : StateReader}

theorem Below.trigger (h : C.Below i child child') (m : Machine) :
    C.Rel i .before .behind (trigger child m) (trigger child' m) := by
  refine C.bind (C.expectStart (C.sees_activity (by decide))) fun _ => C.bind C.atEndOf fun _ =>
    C.bind (C.atStartOf nofun) fun _ => C.bind (C.atStartOf nofun) fun _ => ?_
  refine C.ite C.close (C.ite (C.skipInside C.close) (C.ite ?_ ?_))
  · exact C.bind (C.part fun _ _ => C.reference) fun _ => C.close
  · refine C.peekLabel fun front front' hlabel => ?_
    rw [hlabel]
    exact C.bind (C.part fun j hj => h j hj _) fun _ => C.close

section

variable (hstate : C.Below i state state')
include hstate

theorem Below.initialState : C.Below i (initialState state) (initialState state') :=
  fun j hj _ => C.bind (hstate j hj _) fun _ => C.pure

theorem Below.listedState : C.Below i (listedState state) (listedState state') :=
  fun j hj _ => C.bind (hstate j hj _) fun _ => C.pure

theorem Below.machinePart : C.Below i (Reader.StateMachine.part state)
    (Reader.StateMachine.part state') := by
  intro j hj d
  refine C.atOpened (C.sees_activity (by decide)) ?_
    (C.atOpened (C.sees_activity (by decide)) ?_
      (C.atStart (hstate.listedState j hj d) (C.atStart (hstate.listedState j hj d) C.unexpected)))
  · exact C.bind C.nextToken fun _ =>
      C.bind (C.untilEnd (hstate.lt hj).initialState _) fun _ => C.close
  · exact C.bind C.nextToken fun _ =>
      C.bind (C.untilEnd (hstate.lt hj).listedState _) fun _ => C.close

variable (h : C.Below i child child')
include h

theorem Below.transitionPart :
    C.Below i (transitionPart child state) (transitionPart child' state') := by
  intro j hj d
  refine C.atStart ?_ (C.atStart (C.skip C.pure) (C.atOpened (C.sees_activity (by decide)) ?_
    (C.atStart ?_ C.unexpected)))
  · exact C.bind ((h.lt hj).trigger _) fun _ => C.pure
  · refine C.bind C.nextToken fun _ => C.bind C.atEndOf fun _ => C.ite C.close ?_
    exact C.bind (C.part fun l hl => hstate l (C.trans hl hj) _) fun _ => C.close
  · exact C.bind ((h.lt hj).wrapped (by decide)) fun _ => C.pure

theorem Below.transition (m : Machine) :
    C.Rel i .before .behind (transition child state m) (transition child' state' m) := by
  refine C.bind (C.expectStart (C.sees_activity (by decide))) fun start =>
    C.bind (C.untilEnd (hstate.transitionPart h) _) fun d => C.bind C.expectEnd fun _ => ?_
  split
  · exact C.fail rfl
  · exact C.pure

theorem Below.stateTransition :
    C.Below i (stateTransition child state) (stateTransition child' state') :=
  fun _ hj _ => C.bind ((hstate.lt hj).transition (h.lt hj) _) fun _ => C.pure

theorem Below.statePart : C.Below i (statePart child state) (statePart child' state') := by
  intro j hj d
  refine C.atStart ?_ (C.atStart ?_ (C.atOpened (C.sees_activity (by decide)) ?_ C.unexpected))
  · exact C.bind ((h.lt hj).wrapped (by decide)) fun _ => C.pure
  · exact C.bind ((h.lt hj).wrapped (by decide)) fun _ => C.pure
  · exact C.bind C.nextToken fun _ =>
      C.bind (C.untilEnd ((hstate.lt hj).stateTransition (h.lt hj)) _) fun _ => C.close

end

/-- Readers of states are related if readers of children are. -/
theorem Below.states (h : C.Below i child child') (hfits : C.Fits i k k') :
    C.Below i (Reader.StateMachine.state child k) (Reader.StateMachine.state child' k') := by
  induction k generalizing i k' with
  | zero =>
    intro j hj
    obtain ⟨l, l', hl, -⟩ := C.fits_lt hj hfits
    cases hl
  | succ k ih =>
    intro j hj m
    obtain ⟨l, l', hl, rfl, hfits⟩ := C.fits_lt hj hfits
    obtain rfl := Nat.succ.inj hl
    refine C.atStart (C.bind C.reference fun _ => C.pure) ?_
    exact C.bind (C.expectStart (C.sees_activity (by decide))) fun _ =>
      C.bind (C.untilEnd ((ih (h.lt hj) hfits).statePart (h.lt hj)) _) fun _ => C.close

theorem isRefusal_of_initialFault {known : List String} {initial : Option String}
    (h : fault ∈ initialFault? known initial) : fault.isRefusal = true := by
  unfold initialFault? at h
  split at h
  · obtain rfl := Option.some.inj h
    rfl
  · split at h
    · cases h
    · obtain rfl := Option.some.inj h
      rfl

theorem isRefusal_of_machineFault {initial : Option String} {m : Machine}
    (h : fault ∈ fault? initial m) : fault.isRefusal = true := by
  simp only [fault?] at h
  split at h
  · obtain rfl := Option.some.inj h
    rfl
  · split at h
    · obtain rfl := Option.some.inj h
      rfl
    · rcases (Option.orElse_eq_some ..).1 h with h | ⟨-, h⟩
      · exact isRefusal_of_initialFault h
      · rcases (Option.orElse_eq_some ..).1 h with h | ⟨-, h⟩
        · obtain ⟨s, -, hs⟩ := List.exists_of_findSome?_eq_some h
          obtain ⟨t, -, rfl⟩ := Option.map_eq_some_iff.1 hs
          rfl
        · obtain ⟨t, -, rfl⟩ := Option.map_eq_some_iff.1 h
          rfl

theorem machineCheck {fault : Option Fault} (h : ∀ x ∈ fault, x.isRefusal = true) :
    C.Rel i A A (check fault) (check fault) := by
  cases fault with
  | none => exact C.pure
  | some fault => exact C.fail (h fault rfl)

/-- Readers of state machines are related if readers of children are. -/
theorem Below.stateMachine (hA : C.Sees A (activityName "StateMachine"))
    (h : C.Below i child child') :
    C.Rel i A .behind (stateMachine child) (stateMachine child') := by
  refine C.bind (C.expectStart hA) fun root => C.remaining fun j k k' hj hfits => ?_
  refine C.bind (C.untilEnd ((h.mono hj).states hfits).machinePart _) fun d => ?_
  exact C.bind (machineCheck fun _ => isRefusal_of_machineFault) fun _ => C.close

end StateMachines

/-! ## Any activity -/

/-- The empty activity has no markup; each other type is read from one element. -/
theorem Below.read {C : Comparison} {i : C.Level} (h : C.Below i child child')
    (hmeets : C.MeetsNodes i child child') {type : ActivityType} (htype : type ≠ .empty)
    (hA : C.Sees A type.qname) : C.Rel i A .behind (type.read child) (type.read child') := by
  cases type with
  | empty => exact absurd rfl htype
  | atomic a => exact C.bind (C.primitive hA) fun _ => C.pure
  | messaging kind => exact C.bind (C.messaging kind hA) fun _ => C.pure
  | sequence => exact h.sequence hA
  | conditional => exact h.conditional hA
  | switch => exact h.switch hA
  | loop test => exact h.loop test hA
  | parallel => exact h.parallel hA
  | pick => exact h.pick hA
  | flowchart => exact h.flowchart hA hmeets
  | stateMachine => exact h.stateMachine hA

/-- Activities are read the same, whatever the bounds on their depth are, if this is so where the
front tags are not the same. -/
theorem below_child {reg : Registry} (hreg : ∀ qname, reg.resolve? qname ≠ some .empty)
    (hmeets : ∀ i j k k' owner, C.lt i j → C.Fits j k k' → C.Meets i (reg.child k owner) (reg.child
      k' owner)) (hnodes : ∀ i k k', C.Fits i k k' → C.MeetsNodes i (reg.child k) (reg.child k'))
    (hfits : C.Fits i k k') : C.Below i (reg.child k) (reg.child k') := by
  induction k generalizing i k' with
  | zero =>
    intro j hj
    obtain ⟨l, l', hl, -⟩ := C.fits_lt hj hfits
    cases hl
  | succ k ih =>
    intro j hj owner
    have hmeet := hmeets j i (k + 1) k' owner hj hfits
    obtain ⟨l, l', hl, rfl, hfits⟩ := C.fits_lt hj hfits
    obtain rfl := Nat.succ.inj hl
    refine C.peekStart hmeet fun front => ?_
    split
    · exact C.fail rfl
    · rename_i type htype
      exact (ih hfits).read (hnodes j k l' hfits) (fun hempty => hreg front.qname (hempty ▸ htype))
        C.sees_opened

end Comparison

end OpenWorkflow
