import OpenWorkflow.Proofs.Workflow.Forest
import OpenWorkflow.Proofs.Workflow.TagNames

/-!
# Which activities an element holds

The elements that stand for activities in the element of an activity are those of a
registered name; they stand directly in it, or in elements that only structure it, such
as property elements and the nodes of a graph. What is in a condition, in a reference or
in a primitive activity is not read. The name of the element in which it stands directly
gives the role of an activity (`Tree.inner`).

Some property elements can be given only once. Where one is given again, what it holds
replaces what the earlier one held. The triggers of a state machine are kept under keys,
and one that is given later replaces an earlier one of the same key. A transition waits
for the key that was read last in it, so a trigger can be left that none waits for.
`Tree.sights` goes through an element once and lists what is met there, with what is
needed to tell what stays. `Tree.kept` are the elements that are neither replaced nor
left. They are all there are if nothing is replaced (`Tree.kept_perm_inner`).
-/

namespace OpenWorkflow

open OpenWorkflow.Markup (Token Tree activityName languageName)

variable {α : Type} {name qname : String} {t : Tree}

/-- The part that an activity plays in the one that holds it. -/
inductive Role where
  /-- One of the activities of a sequence. -/
  | child
  /-- The branch for when the condition holds. -/
  | onTrue
  /-- The branch for when it does not. -/
  | onFalse
  /-- A case. -/
  | case
  /-- The case for when no other applies. -/
  | fallback
  /-- What is repeated. -/
  | body
  /-- What runs beside others. -/
  | branch
  /-- What is waited for. -/
  | trigger
  /-- What runs on a step, a transition or after a trigger. -/
  | action
  /-- What runs on arrival. -/
  | entry
  /-- What runs on departure. -/
  | exit
  deriving DecidableEq

/-- The roles of the activities that stand in an element of the given name. -/
def Role.table : List (String × Role) :=
  [("Sequence", .child), ("If.Then", .onTrue), ("If.Else", .onFalse), ("Switch", .case),
    ("Switch.Default", .fallback), ("While", .body), ("While.Body", .body), ("DoWhile", .body),
    ("DoWhile.Body", .body), ("Parallel", .branch), ("PickBranch.Trigger", .trigger),
    ("PickBranch", .action), ("PickBranch.Action", .action), ("FlowStep", .action),
    ("State.Entry", .entry), ("State.Exit", .exit), ("Transition.Trigger", .trigger),
    ("Transition.Action", .action)]

/-- The role of an activity that stands in the given element. -/
def Role.within (holder : String) : Role :=
  ((table.find? fun x => activityName x.1 == holder).map Prod.snd).getD .child

/-- The keys of the triggers that the transitions out of states wait for. -/
def awaited (states : List (State Activity)) : List String :=
  states.flatMap fun s => s.transitions.filterMap StateTransition.trigger

/-- The activities that an activity holds, with their roles; nothing to do is no activity. A state
machine holds the triggers that a transition waits for. -/
def Activity.held : Activity → List (Role × Activity)
  | .atomic _ | .empty | .messaging _ => []
  | .sequence children => children.map (Role.child, ·)
  | .conditional onTrue onFalse =>
    onTrue.toList.map (Role.onTrue, ·) ++ onFalse.toList.map (Role.onFalse, ·)
  | .switch cases fallback =>
    (cases.filter fun a => a.type ≠ .empty).map (Role.case, ·)
      ++ fallback.toList.map (Role.fallback, ·)
  | .loop _ body => body.toList.map (Role.body, ·)
  | .parallel branches => branches.map (Role.branch, ·)
  | .pick branches => branches.flatMap fun b =>
      b.trigger.toList.map (Role.trigger, ·) ++ b.action.toList.map (Role.action, ·)
  | .flowchart _ nodes => nodes.flatMap fun n => n.parts.map (Role.action, ·)
  | .stateMachine _ states triggers =>
    (states.flatMap fun s => s.entry.toList.map (Role.entry, ·) ++ s.exit.toList.map (Role.exit, ·)
        ++ s.transitions.flatMap fun t => t.action.toList.map (Role.action, ·))
      ++ (triggers.filter fun x => (awaited states).contains x.1).map fun x => (Role.trigger, x.2)

/-- Of the entries under one key the last ones. -/
def latest {α : Type} : List (String × α) → List (String × α)
  | [] => []
  | x :: xs => if xs.any (fun y => y.1 == x.1) then latest xs else x :: latest xs

namespace Markup.Tree

/-! ## Names -/

/-- The property elements whose content is not read. -/
def skippedProperties : List String :=
  ["If.Condition", "Switch.Expression", "While.Condition", "DoWhile.Condition",
    "Parallel.CompletionCondition", "FlowDecision.Condition", "FlowSwitch.Expression",
    "Transition.Condition"]

/-- The elements of the markup language; their content is not read. -/
def skippedMarks : List String := ["Null", "Reference", "Key"]

/-- The elements whose content is not read. -/
def skippedNames : List String :=
  skippedProperties.map activityName ++ skippedMarks.map languageName

/-- The property elements of which a later one replaces an earlier one. -/
def singleProperties : List String :=
  ["If.Then", "If.Else", "Switch.Default", "PickBranch.Trigger", "State.Entry", "State.Exit",
    "Transition.Trigger", "Transition.Action"]

/-- Is the content of an element of the name not read? -/
def isSkipped (qname : String) : Bool := skippedNames.contains qname

/-- Is it the name of an activity? -/
def isActivity (qname : String) : Bool := (Registry.standard.resolve? qname).isSome

/-- Is it the name of an activity in which none is read? -/
def isPrimitive (qname : String) : Bool :=
  (Registry.standard.resolve? qname).any fun type => !type.isComposite

/-- The slot that a property element fills, if it can be given only once. -/
def slot? (t : Tree) : Option String :=
  if (singleProperties.map activityName).contains t.qname then some t.qname else none

/-- Does one of the later elements fill the same slot? -/
def isReplaced (t : Tree) (later : List Tree) : Bool :=
  t.slot?.isSome && later.any fun u => u.slot? == t.slot?

/-- The elements that structure an activity: the activities in them belong to it. -/
def structuring : List String :=
  ["If.Then", "If.Else", "Switch.Default", "While.Body", "DoWhile.Body", "PickBranch",
    "PickBranch.Trigger", "PickBranch.Action", "Flowchart.StartNode", "FlowStep",
    "FlowStep.Next", "FlowDecision", "FlowDecision.True", "FlowDecision.False", "FlowSwitch",
    "FlowSwitch.Default", "StateMachine.InitialState", "StateMachine.States", "State",
    "State.Entry", "State.Exit", "State.Transitions", "Transition", "Transition.Trigger",
    "Transition.To", "Transition.Action"]

theorem isSkipped_activityName (name : String) :
    isSkipped (activityName name) = skippedProperties.contains name := by
  rw [Bool.eq_iff_iff]
  simp [isSkipped, skippedNames]

theorem isSkipped_property (h : name ∈ skippedProperties) :
    isSkipped (activityName name) = true := by
  rw [isSkipped_activityName, List.contains_iff_mem]
  exact h

theorem isSkipped_languageName (h : name ∈ skippedMarks) :
    isSkipped (languageName name) = true := by
  simp only [isSkipped, skippedNames, List.contains_eq_mem, List.mem_append, List.mem_map,
    decide_eq_true_eq]
  exact .inr ⟨name, h, rfl⟩

theorem isPrimitive_of_isActivity (h : isActivity qname = false) : isPrimitive qname = false := by
  rw [isActivity, Option.isSome_eq_false_iff, Option.isNone_iff_eq_none] at h
  rw [isPrimitive, h, Option.any_none]

theorem slot?_activityName (h : t.qname = activityName name) :
    t.slot? = if name ∈ singleProperties then some (activityName name) else none := by
  simp [slot?, h]

theorem slot?_of_not_single (ht : t.qname = activityName name) (h : name ∉ singleProperties) :
    t.slot? = none := by
  rw [slot?_activityName ht, if_neg h]

/-- What structures an activity is read and is no activity. -/
theorem structuring_names (h : name ∈ structuring) :
    isSkipped (activityName name) = false ∧ isActivity (activityName name) = false := by
  have hskipped : structuring.all (fun name => !skippedProperties.contains name) = true := by
    decide +kernel
  have hstandard : structuring.all
      (fun name => !(Registry.standardTypes.map ActivityType.name).contains name) = true := by
    decide +kernel
  have hunread := List.all_eq_true.1 hskipped name h
  have hother := List.all_eq_true.1 hstandard name h
  rw [Bool.not_eq_true'] at hunread hother
  refine ⟨isSkipped_activityName name ▸ hunread, ?_⟩
  rw [isActivity, Registry.resolve?_eq_none (by simpa using hother), Option.isSome_none]

theorem isPrimitive_structuring (h : name ∈ structuring) :
    isPrimitive (activityName name) = false :=
  isPrimitive_of_isActivity (structuring_names h).2

/-- What is not read is no activity. -/
theorem isActivity_of_isSkipped (h : isSkipped qname = true) : isActivity qname = false := by
  simp only [isSkipped, skippedNames, List.contains_eq_mem, List.mem_append, List.mem_map,
    decide_eq_true_eq] at h
  rcases h with ⟨name, hname, rfl⟩ | ⟨name, -, rfl⟩
  · have hdots : skippedProperties.all (fun name => name.toList.contains '.') = true := by
      decide +kernel
    have hdot := List.all_eq_true.1 hdots name hname
    rw [isActivity, Registry.resolve?_property (by simpa using hdot), Option.isSome_none]
  · rw [isActivity, Registry.resolve?_languageName, Option.isSome_none]

theorem isSkipped_of_isActivity (h : isActivity qname = true) : isSkipped qname = false := by
  cases hskipped : isSkipped qname with
  | false => rfl
  | true => exact h.symm.trans (isActivity_of_isSkipped hskipped)

/-- What is not read and what is an activity fills no slot. -/
theorem slot?_eq_none (h : isSkipped t.qname = true ∨ isActivity t.qname = true) :
    t.slot? = none := by
  unfold slot?
  split
  · next hsingle =>
    have hsubset : singleProperties.all (fun name => structuring.contains name) = true := by
      decide +kernel
    obtain ⟨name, hname, hqname⟩ := List.mem_map.1 (List.contains_iff_mem.1 hsingle)
    have hstructuring := List.all_eq_true.1 hsubset name hname
    obtain ⟨hread, hother⟩ := structuring_names (List.contains_iff_mem.1 hstructuring)
    rw [← hqname, hread, hother] at h
    rcases h with h | h <;> cases h
  · rfl

/-- The name that a reference element refers to. -/
def reference? (t : Tree) : Option String :=
  if t.qname = languageName "Reference" then
    (t.start.attribute? "Reference").map Reader.referenceName
  else none

end Markup.Tree

/-! ## Sights -/

/-- What is met in an element that is read. -/
inductive Markup.Sight where
  /-- An element of an activity, in an element of the given name. -/
  | activity (holder : String) (t : Tree)
  /-- An element of a state. -/
  | state (t : Tree)
  /-- A reference to the trigger with the given key. -/
  | key (name : String)

namespace Markup.Sight

variable {n : Nat} {xs ys : List (Bool × Sight)}

/-- The element of an activity, with its role. -/
def activity? : Sight → Option (Role × Tree)
  | .activity holder t => some (Role.within holder, t)
  | .state _ | .key _ => none

/-- Is it the trigger of a transition? -/
def isTrigger : Sight → Bool
  | .activity holder _ => holder == activityName "Transition.Trigger"
  | .state _ | .key _ => false

/-- How many names are generated for it: states and triggers need one. -/
def generates (x : Sight) : Nat :=
  match x with
  | .state t => if (t.start.attribute? "x:Name").isNone then 1 else 0
  | .activity _ t => if x.isTrigger && (t.start.attribute? "x:Name").isNone then 1 else 0
  | .key _ => 0

/-- The key of a trigger, with the trigger if it is given here, when `n` names have been generated
before. -/
def key? (n : Nat) (x : Sight) : Option (String × Option Tree) :=
  match x with
  | .state _ => none
  | .activity _ t =>
    if x.isTrigger then
      some ((t.start.attribute? "x:Name").getD ("__trigger" ++ toString (n + 1)), some t)
    else none
  | .key name => some (name, none)

/-- How many names are generated for what is met. -/
def generated : List (Bool × Sight) → Nat
  | [] => 0
  | x :: xs => x.2.generates + generated xs

/-- The keys of what is met, each with whether it stays. -/
def keys (n : Nat) : List (Bool × Sight) → List (Bool × String × Option Tree)
  | [] => []
  | x :: xs => (x.2.key? n).toList.map (x.1, ·) ++ keys (n + x.2.generates) xs

/-- The triggers under their keys. -/
def triggers (n : Nat) (xs : List (Bool × Sight)) : List (String × Tree) :=
  (keys n xs).filterMap fun x => x.2.2.map (x.2.1, ·)

/-- The keys that transitions wait for. -/
def waits (n : Nat) (xs : List (Bool × Sight)) : List String :=
  ((keys n xs).filter Prod.fst).map fun x => x.2.1

/-- The elements of activities, with their roles. -/
def inner (xs : List (Bool × Sight)) : List (Role × Tree) := xs.filterMap fun x => x.2.activity?

/-- The elements of activities that stay, but for triggers. -/
def slotted (xs : List (Bool × Sight)) : List (Role × Tree) :=
  inner (xs.filter fun x => x.1 && !x.2.isTrigger)

/-- The same things, none of which stays if they are replaced. -/
def goneIf (replaced : Bool) (xs : List (Bool × Sight)) : List (Bool × Sight) :=
  xs.map fun x => (x.1 && !replaced, x.2)

theorem generated_append : generated (xs ++ ys) = generated xs + generated ys := by
  induction xs with
  | nil => exact (Nat.zero_add _).symm
  | cons x xs ih => rw [List.cons_append, generated, generated, ih, Nat.add_assoc]

theorem keys_append : keys n (xs ++ ys) = keys n xs ++ keys (n + generated xs) ys := by
  induction xs generalizing n with
  | nil => rfl
  | cons x xs ih =>
    rw [List.cons_append, keys, keys, ih, List.append_assoc, Nat.add_assoc]
    rfl

/-- The triggers of two rows, the second counted on. -/
theorem triggers_append :
    triggers n (xs ++ ys) = triggers n xs ++ triggers (n + generated xs) ys := by
  rw [triggers, keys_append, List.filterMap_append]
  rfl

theorem generated_goneIf (b : Bool) : generated (goneIf b xs) = generated xs := by
  induction xs with
  | nil => rfl
  | cons x xs ih => rw [generated, ← ih, goneIf, List.map_cons, generated]; rfl

theorem inner_goneIf (b : Bool) : inner (goneIf b xs) = inner xs := by
  rw [inner, goneIf, List.filterMap_map]
  rfl

theorem triggers_goneIf (b : Bool) : triggers n (goneIf b xs) = triggers n xs := by
  have hkeys : keys n (goneIf b xs) = (keys n xs).map fun x => (x.1 && !b, x.2) := by
    induction xs generalizing n with
    | nil => rfl
    | cons x xs ih =>
      rw [goneIf, List.map_cons, keys, keys, List.map_append, ← ih, List.map_map]
      rfl
  rw [triggers, hkeys, List.filterMap_map]
  rfl

/-- Triggers are the activities that are given as triggers. -/
theorem map_triggers : (triggers n xs).map (fun x => (Role.trigger, x.2))
    = inner (xs.filter fun x => x.2.isTrigger) := by
  induction xs generalizing n with
  | nil => rfl
  | cons x xs ih =>
    have hcons : triggers n (x :: xs)
        = ((x.2.key? n).bind fun y => y.2.map (y.1, ·)).toList
          ++ triggers (n + x.2.generates) xs := by
      rw [triggers, keys, List.filterMap_append]
      cases x.2.key? n with
      | none => rfl
      | some y => cases hy : y.2 <;> simp [hy, triggers]
    rw [hcons, List.map_append, ih]
    obtain ⟨b, x⟩ := x
    cases x with
    | state t => rfl
    | key name => rfl
    | activity holder t =>
      by_cases h : holder = activityName "Transition.Trigger"
      · subst h
        simp [key?, isTrigger, inner, activity?, Role.within, Role.table]
      · simp [key?, isTrigger, inner, h]

/-- If everything stays, each trigger is waited for. -/
theorem fst_mem_waits (h : ∀ x ∈ xs, x.1 = true) : ∀ x ∈ triggers n xs, x.1 ∈ waits n xs := by
  have hkeys : ∀ y ∈ keys n xs, y.1 = true := by
    induction xs generalizing n with
    | nil => exact fun y hy => absurd hy List.not_mem_nil
    | cons x xs ih =>
      rw [List.forall_mem_cons] at h
      refine List.forall_mem_append.2 ⟨fun y hy => ?_, ih h.2⟩
      obtain ⟨z, -, rfl⟩ := List.mem_map.1 hy
      exact h.1
  intro x hx
  obtain ⟨y, hy, hxy⟩ := List.mem_filterMap.1 hx
  obtain ⟨u, -, rfl⟩ := Option.map_eq_some_iff.1 hxy
  exact List.mem_map.2 ⟨y, List.mem_filter.2 ⟨hy, hkeys y hy⟩, rfl⟩

end Markup.Sight

namespace Markup.Tree

open Sight (goneIf)

/-- What is met of an element that stands in the given one, where `inside` is what is met inside. -/
def seen (holder : String) (t : Tree) (inside : List (Bool × Sight)) : List (Bool × Sight) :=
  if isSkipped t.qname then
    if holder = activityName "Transition.Trigger" then
      t.reference?.toList.map fun name => (true, .key name)
    else []
  else if isActivity t.qname then [(true, .activity holder t)]
  else if t.qname = activityName "State" then (true, .state t) :: inside
  else inside

/-- The trigger that an attribute of a transition refers to; it counts if no other is given. -/
def attributed (start : Token) (children : List Tree) : List (Bool × Sight) :=
  if start.qname = activityName "Transition" then
    ((start.attribute? "Trigger").map Reader.referenceName).toList.map fun name =>
      (!children.any fun u => u.slot? == some (activityName "Transition.Trigger"), .key name)
  else []

mutual

/-- What is met in an element, each with whether it stays. What is in a property element does not
if the property is given again. -/
def sights : Tree → List (Bool × Sight)
  | .node start children _ _ _ =>
    if isPrimitive start.qname then []
    else attributed start children ++ sightsAll start.qname children

/-- What is met in a row of elements in the given one. -/
def sightsAll (holder : String) : List Tree → List (Bool × Sight)
  | [] => []
  | t :: ts => goneIf (isReplaced t ts) (seen holder t (sights t)) ++ sightsAll holder ts

end

/-- The elements of the activities in an element, with their roles. -/
def inner (t : Tree) : List (Role × Tree) := Sight.inner t.sights

/-- The elements of the activities in an element that are neither replaced nor left. Of the
triggers under one key the last is kept, if a transition waits for the key. -/
def kept (t : Tree) : List (Role × Tree) :=
  Sight.slotted t.sights ++ ((latest (Sight.triggers 0 t.sights)).filter fun x =>
    (Sight.waits 0 t.sights).contains x.1).map fun x => (Role.trigger, x.2)

/-- Nothing is replaced, and no two triggers have the same key. -/
structure Unrepeated (t : Tree) : Prop where
  stays : ∀ x ∈ t.sights, x.1 = true
  keys : ((Sight.triggers 0 t.sights).map Prod.fst).Nodup

end Markup.Tree

/-! ## What is kept -/

/-- Of different keys each entry is the last. -/
theorem latest_of_nodup {xs : List (String × α)} (h : (xs.map Prod.fst).Nodup) :
    latest xs = xs := by
  induction xs with
  | nil => rfl
  | cons x xs ih =>
    rw [List.map_cons, List.nodup_cons] at h
    have hfresh : xs.any (fun y => y.1 == x.1) = false := by
      rw [List.any_eq_false]
      intro y hy hkey
      exact h.1 (beq_iff_eq.1 hkey ▸ List.mem_map_of_mem hy)
    rw [latest, hfresh, if_neg Bool.false_ne_true, ih h.2]

theorem latest_subset (xs : List (String × α)) : latest xs ⊆ xs := by
  induction xs with
  | nil => exact List.Subset.refl _
  | cons x xs ih =>
    rw [latest]
    split
    · exact List.subset_cons_of_subset x ih
    · exact List.cons_subset_cons x ih

/-- Does no entry have the key? -/
def unclaimed {α β : Type} (ys : List (String × β)) (x : String × α) : Bool :=
  !ys.any fun y => y.1 == x.1

/-- Later entries take the place of earlier ones. -/
theorem latest_append (xs ys : List (String × α)) :
    latest (xs ++ ys) = (latest xs).filter (unclaimed ys) ++ latest ys := by
  induction xs with
  | nil => rfl
  | cons x xs ih =>
    rw [List.cons_append, latest, latest, List.any_append, ih]
    cases hxs : xs.any (fun y => y.1 == x.1) with
    | true => simp only [Bool.true_or, ite_true]
    | false =>
      cases hys : ys.any (fun y => y.1 == x.1) <;>
        simp only [unclaimed, hys, Bool.false_or, Bool.false_eq_true, ite_false, ite_true,
          List.filter_cons, Bool.not_true, Bool.not_false, List.cons_append]

namespace Markup.Tree

/-- What is kept is among what is there. -/
theorem kept_subset (t : Tree) : t.kept ⊆ t.inner := by
  have hfilter (p : Bool × Sight → Bool) : Sight.inner (t.sights.filter p) ⊆ t.inner :=
    List.filterMap_subset _ (List.filter_subset_self _)
  refine List.append_subset.2 ⟨hfilter _, ?_⟩
  refine List.Subset.trans (List.map_subset _ (List.Subset.trans (List.filter_subset_self _)
    (latest_subset _))) ?_
  rw [Sight.map_triggers]
  exact hfilter _

/-- If nothing is replaced and no key is given twice, everything is kept. -/
theorem kept_perm_inner (h : t.Unrepeated) : t.kept.Perm t.inner := by
  have hwaits : (Sight.triggers 0 t.sights).filter (fun x => (Sight.waits 0 t.sights).contains x.1)
      = Sight.triggers 0 t.sights :=
    List.filter_eq_self.2 fun x hx => List.contains_iff_mem.2 (Sight.fst_mem_waits h.stays x hx)
  have hstays : t.sights.filter (fun x => x.1 && !x.2.isTrigger)
      = t.sights.filter fun x => !x.2.isTrigger :=
    List.filter_congr fun x hx => by rw [h.stays x hx, Bool.true_and]
  rw [kept, latest_of_nodup h.keys, hwaits, Sight.map_triggers, Sight.slotted, hstays, Sight.inner,
    Sight.inner, ← List.filterMap_append]
  refine (List.perm_append_comm.trans ?_).filterMap _
  exact List.filter_append_perm _ t.sights

end Markup.Tree

end OpenWorkflow
