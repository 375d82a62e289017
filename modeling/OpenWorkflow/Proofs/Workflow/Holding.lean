import OpenWorkflow.Proofs.Workflow.MachineDrafts

/-!
# No activity is lost that is neither replaced nor left

Every element of an activity in an element that is read is itself read as an activity.
The activity read from the element holds, at every depth and in the role that the place
of the element gives it, what is read from each element that is kept, and nothing else.
What is not kept is replaced by a later element, or a trigger that no transition waits
for. If nothing is replaced and no key of a trigger is given twice, all activities read
are held.

Without that proviso an activity can be lost: a second property element silently takes
the place of the first.
-/

namespace OpenWorkflow

open OpenWorkflow.Markup (Token Tree activityName)
open OpenWorkflow.Markup.Tree
open OpenWorkflow.Parser (Spans)
open OpenWorkflow.Reader (Collects)
open OpenWorkflow.Markup.Namespace (activities)

/-! ## One level -/

theorem primitive_spans (qname name : String) :
    Spans (Reader.primitive qname name) fun _ _ => True :=
  .atStart (.imp .skipElement fun _ _ _ _ => trivial) .fail

theorem messaging_spans (kind : MessageKind) :
    Spans (Reader.messaging kind) fun _ _ => True := by
  refine .andThen (primitive_spans _ _) fun t start _ => .ite (.pure trivial) (.ite .fail ?_)
  split
  · exact .pure trivial
  · exact .pure trivial

/-- The activity read from an element of a type holds what is kept of the element. -/
theorem ActivityType.read_collects {type : ActivityType} (htype : type ∈ Registry.standardTypes) :
    Spans (type.read Registry.standard.parseChild) fun t a =>
      t.qname = type.qname → Collects t a := by
  have hprimitive {t : Tree} {a : Activity} (ht : t.qname = type.qname)
      (hother : type.isComposite = false) (ha : a.held = []) : Collects t a := by
    have hskip : isPrimitive t.qname = true := by
      rw [isPrimitive, ht, Registry.resolve?_qname htype, Option.any_some, hother, Bool.not_false]
    have hsights : t.sights = [] := by
      obtain ⟨start, children, stop, hstart, hstop⟩ := t
      rw [sights]
      exact if_pos hskip
    constructor
    · rw [Tree.inner, hsights]
      exact fun x hx => absurd hx List.not_mem_nil
    · rw [ha, kept, hsights]
      exact .refl _
  cases type with
  | atomic a =>
    exact .andThen (primitive_spans _ _) fun t _ _ => .pure fun ht => hprimitive ht rfl rfl
  | empty => exact absurd rfl (Registry.ne_empty_of_mem_standardTypes htype)
  | messaging kind =>
    exact .andThen (messaging_spans kind) fun t _ _ => .pure fun ht => hprimitive ht rfl rfl
  | sequence => exact .imp Reader.sequence_spans fun _ _ h _ => h
  | conditional => exact .imp Reader.conditional_spans fun _ _ h _ => h
  | switch => exact .imp Reader.switch_spans fun _ _ h _ => h
  | loop test => exact .imp (Reader.loop_spans test) fun _ _ h _ => h
  | parallel => exact .imp Reader.parallel_spans fun _ _ h _ => h
  | pick => exact .imp Reader.pick_spans fun _ _ h _ => h
  | flowchart => exact .imp Reader.Flowchart.flowchart_spans fun _ _ h _ => h
  | stateMachine => exact .imp Reader.StateMachine.stateMachine_spans fun _ _ h _ => h

/-- The activity that an element is read as holds what is kept of the element. -/
theorem Markup.Tree.held_of_activity? {t : Tree} {a : Activity} (h : t.activity? = some a) :
    Collects t a := by
  have hread : ∃ s, Registry.standard.parseChild "" ⟨t.tokens, 0⟩ = .ok a s := by
    unfold activity? at h
    split at h
    · next b s hrun =>
      obtain rfl := Option.some.inj h
      exact ⟨s, hrun⟩
    · cases h
  obtain ⟨s, hrun⟩ := hread
  obtain ⟨v, hv⟩ := t.exists_tokens
  rw [hv] at hrun
  obtain ⟨hstart, hresolve⟩ := Registry.parseChild_type hrun
  obtain ⟨hmem, hqname⟩ := Registry.resolve?_standard hresolve
  rw [Registry.parseChild_eq_read Registry.resolve?_standard_ne_empty hstart hresolve, ← hv] at hrun
  obtain ⟨u, htokens, hu⟩ := ActivityType.read_collects hmem _ _ _ hrun
  obtain ⟨rfl, -⟩ := tokens_append_inj t u [] s.tokens ((List.append_nil _).trans htokens)
  exact hu hqname.symm

/-! ## All levels -/

/-- The element is reached through elements of activities in one another, in the given roles. -/
inductive Markup.Tree.Reaches (sel : Tree → List (Role × Tree)) : List Role → Tree → Tree → Prop
  | here (t : Tree) : Reaches sel [] t t
  | step {role : Role} {path : List Role} {t u v : Tree} (hstep : (role, u) ∈ sel t)
      (hrest : Reaches sel path u v) : Reaches sel (role :: path) t v

/-- The activity holds another one through activities in one another, in the given roles. -/
inductive Activity.Holds : List Role → Activity → Activity → Prop
  | here (a : Activity) : Holds [] a a
  | step {role : Role} {path : List Role} {a b c : Activity} (hstep : (role, b) ∈ a.held)
      (hrest : Holds path b c) : Holds (role :: path) a c

namespace Markup.Tree

variable {t u : Tree} {path : List Role} {a b : Activity}

/-- In an element that is read every element of an activity is read. -/
theorem Reaches.read (h : Reaches Tree.inner path t u) (ha : t.activity? = some a) :
    ∃ b, u.activity? = some b := by
  induction h generalizing a with
  | here t => exact ⟨a, ha⟩
  | step hstep _ ih =>
    obtain ⟨b, hb⟩ := Option.isSome_iff_exists.1 ((held_of_activity? ha).readable _ hstep)
    exact ih hb

/-- What is kept is held. -/
theorem Reaches.holds (h : Reaches Tree.kept path t u) (ha : t.activity? = some a)
    (hb : u.activity? = some b) : a.Holds path b := by
  induction h generalizing a with
  | here t =>
    obtain rfl := Option.some.inj (ha.symm.trans hb)
    exact .here a
  | @step role path t v u hstep _ ih =>
    have hcollects := held_of_activity? ha
    obtain ⟨c, hc⟩ := Option.isSome_iff_exists.1 (hcollects.readable _ (kept_subset t hstep))
    have hmem : (role, c) ∈ readAll t.kept :=
      List.mem_filterMap.2 ⟨(role, v), hstep, by rw [hc, Option.map_some]⟩
    exact .step (hcollects.entries.mem_iff.2 hmem) (ih hc hb)

/-- What is held has been read and is kept. -/
theorem reaches_of_holds (h : a.Holds path b) (ha : t.activity? = some a) :
    ∃ u, Reaches Tree.kept path t u ∧ u.activity? = some b := by
  induction h generalizing t with
  | here a => exact ⟨t, .here t, ha⟩
  | step hstep _ ih =>
    have hmem := (held_of_activity? ha).entries.mem_iff.1 hstep
    obtain ⟨⟨role, v⟩, hv, hread⟩ := List.mem_filterMap.1 hmem
    obtain ⟨c, hc, hpair⟩ := Option.map_eq_some_iff.1 hread
    obtain ⟨rfl, rfl⟩ := Prod.mk.inj hpair
    obtain ⟨u, hreaches, hu⟩ := ih hc
    exact ⟨u, .step hv hreaches, hu⟩

/-- If nothing is replaced, everything is kept at every level. -/
theorem Reaches.kept (h : Reaches Tree.inner path t u)
    (hunrepeated : ∀ path u, Reaches Tree.inner path t u → u.Unrepeated) :
    Reaches Tree.kept path t u := by
  induction h with
  | here t => exact .here t
  | step hstep _ ih =>
    have hkept := (kept_perm_inner (hunrepeated _ _ (.here _))).mem_iff.2 hstep
    exact .step hkept (ih fun path u hu => hunrepeated _ u (.step hstep hu))

end Markup.Tree

/-- What is read in the element is held by the activity, unless it is replaced or left.

All elements of activities in the element are read. The activity holds what is read from those that
are kept at every level, each in its roles, and nothing else. If nothing is replaced and no key is
given twice, these are all. -/
structure Activity.ReadFrom (a : Activity) (t : Tree) : Prop where
  activity : t.activity? = some a
  read : ∀ path u, Reaches Tree.inner path t u → ∃ b, u.activity? = some b ∧
    b.held.Perm (readAll u.kept)
  held_of_kept : ∀ path u b, Reaches Tree.kept path t u → u.activity? = some b → a.Holds path b
  kept_of_held : ∀ path b, a.Holds path b → ∃ u, Reaches Tree.kept path t u ∧ u.activity? = some b
  unrepeated : (∀ path u, Reaches Tree.inner path t u → u.Unrepeated) →
    ∀ path u, Reaches Tree.inner path t u → ∃ b, u.activity? = some b ∧
      b.held.Perm (readAll u.inner) ∧ a.Holds path b

namespace Registry

/-- **No activity is lost that is neither replaced nor left.** An activity is read from an element,
and it holds what is read inside the element and kept there. -/
theorem parseChild_readFrom {owner : String} {s s' : TokenStream} {a : Activity}
    (h : standard.parseChild owner s = .ok a s') :
    ∃ t : Tree, s.tokens = t.tokens ++ s'.tokens ∧ a.ReadFrom t := by
  obtain ⟨t, htokens, ht⟩ := Reader.parseChild_spans owner _ _ _ h
  refine ⟨t, htokens, ht.activity, fun path u hu => ?_, ?_, ?_, fun hunrepeated path u hu => ?_⟩
  · obtain ⟨b, hb⟩ := hu.read ht.activity
    exact ⟨b, hb, (held_of_activity? hb).entries⟩
  · exact fun path u b hu hb => hu.holds ht.activity hb
  · exact fun path b hb => reaches_of_holds hb ht.activity
  · obtain ⟨b, hb⟩ := hu.read ht.activity
    refine ⟨b, hb, ?_, (hu.kept hunrepeated).holds ht.activity hb⟩
    exact (held_of_activity? hb).entries.trans
      ((kept_perm_inner (hunrepeated path u hu)).filterMap _)

/-- A choice between two branches in a sequence. -/
theorem parseChild_readFrom_branches :
    let ts : List Token := [.opening activities "Sequence",
      .opening activities "If", .opening activities "If.Then",
      .opening activities "WriteLine", .ending activities "WriteLine",
      .ending activities "If.Then", .opening activities "If.Else",
      .opening activities "Delay", .ending activities "Delay",
      .ending activities "If.Else", .ending activities "If",
      .ending activities "Sequence"]
    let a : Activity := .sequence [.conditional
      (some (.atomic ⟨activities, "WriteLine", "writeline"⟩))
      (some (.atomic ⟨activities, "Delay", "delay"⟩))]
    standard.parseChild "Root" (.ofList ts) = .ok a ⟨[], 12⟩ ∧
      ∃ t : Tree, ts = t.tokens ++ [] ∧ a.ReadFrom t := by
  intro ts a
  have hread : standard.parseChild "Root" (.ofList ts) = .ok a ⟨[], 12⟩ := by
    set_option maxRecDepth 100000 in rfl
  exact ⟨hread, parseChild_readFrom hread⟩

/-- A choice whose first branch is given twice is read, and the activity of the first is lost. -/
theorem parseChild_drops_branch :
    let element (name : String) (children : List Tree) : Tree :=
      .node (.opening activities name) children (.ending activities name)
        rfl rfl
    let line := element "WriteLine" []
    let t := element "If" [element "If.Then" [line], element "If.Then" [element "Delay" []]]
    let a : Activity := .atomic ⟨activities, "WriteLine", "writeline"⟩
    let b : Activity := .atomic ⟨activities, "Delay", "delay"⟩
    standard.parseChild "Root" (.ofList t.tokens) = .ok (.conditional (some b) none) ⟨[], 10⟩ ∧
      (Role.onTrue, line) ∈ t.inner ∧ line.activity? = some a ∧
      (Role.onTrue, a) ∉ (Activity.conditional (some b) none).held := by
  intro element line t a b
  have hinner : t.inner = [(Role.onTrue, line), (Role.onTrue, element "Delay" [])] := by
    set_option maxRecDepth 100000 in rfl
  refine ⟨?_, hinner ▸ List.mem_cons_self, ?_, ?_⟩
  · set_option maxRecDepth 100000 in rfl
  · set_option maxRecDepth 100000 in rfl
  · simp [Activity.held, a, b]

end Registry

end OpenWorkflow
