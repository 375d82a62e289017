import OpenWorkflow.Proofs.Workflow.Drafts

/-!
# What structured activities and flowcharts hold

Structured activities and flowcharts hold the activities of the elements that are not
replaced, in their roles.
-/

namespace OpenWorkflow.Reader

open OpenWorkflow.Markup (Token Tree Sight activityName languageName)
open OpenWorkflow.Markup.Tree
open OpenWorkflow.Parser (Chain Closes Ends Spans Stays)
open OpenWorkflow.Reader.StateMachine (Machine)

variable {σ : Type} {V : View σ} {holder name : String} {t : Tree} {a : Activity}

/-! ## Structured activities -/

/-- The elements of activities in the element are read, and the activity holds what is kept. -/
structure Collects (t : Tree) (a : Activity) : Prop where
  readable : ∀ x ∈ t.inner, x.2.activity?.isSome
  entries : a.held.Perm (readAll t.kept)

theorem Moves.collects {m : Machine} {l : List Item} (type : ActivityType)
    (htype : type.isComposite = true) (ht : t.qname = type.qname)
    (h : Moves (sightsAll type.qname t.children) {} [] m l)
    (ha : a.held.Perm (Item.held l ++ firing m (Item.awaited l))) : Collects t a := by
  obtain ⟨hother, hactivity⟩ := composite_names type htype
  rw [← ht] at hother hactivity
  have hne : t.qname ≠ activityName "Transition" := by
    intro hname
    rw [hname, (structuring_names (by decide)).2] at hactivity
    cases hactivity
  rw [← ht, ← sights_eq_sightsAll hother hne] at h
  exact ⟨h.readable, ha.trans h.kept⟩

/-- An activity without a machine collects what the loop over its children brings. -/
theorem composite_spans {item : σ → Parser σ} {init : σ} {qname owner : String}
    {result : σ → Activity} (V : View σ) (type : ActivityType) (htype : type.isComposite = true)
    (hqname : type.qname = qname) (hmachine : ∀ d, V.machine d = {}) (hinit : V.content init = [])
    (hitem : ∀ d, Spans (item d) (V.Step qname d))
    (hresult : ∀ d, (result d).held.Perm (Item.held ((V.content d).map Prod.snd))) :
    Spans (do
      let _ ← Parser.expectStart qname owner
      let d ← Parser.untilEnd qname owner item init
      let _ ← Parser.expectEnd qname owner
      return result d) Collects := by
  subst hqname
  refine element_spans V [] (fun _ => hinit) hitem fun t d ht h => ?_
  rw [hmachine, hmachine] at h
  exact h.collects type htype ht ((List.append_nil _).symm ▸ hresult d)

/-- An element that is skipped leaves a draft as it is. -/
theorem skip_spans {qname owner : String} (h : isSkipped qname = true)
    (hholder : holder ≠ activityName "Transition.Trigger") (d : σ) :
    Spans (do let _ ← Parser.skipElement owner; return d)
      fun t d' => t.qname = qname → V.Step holder d t d' :=
  .andThen .skipElement fun _ _ _ => .pure fun ht => .skipped (ht ▸ h) hholder rfl rfl

/-- An activity adds to what a draft holds. -/
theorem StandsFor.step {d d' : σ} {l : List Item} (h : StandsFor t a)
    (hholder : holder ≠ activityName "Transition.Trigger") (k : List Slotted)
    (hmachine : V.machine d' = V.machine d) (hk : V.content d = k ++ free l)
    (hk' : V.content d' = k ++ free (l ++ [.activity (Role.within holder) a])) :
    V.Step holder d t d' :=
  .grows (slot?_eq_none (.inr h.name)) (hmachine ▸ h.moves hholder _ l) k hk hk'

/-- Activities in a row, in one role. -/
def row (role : Role) : View (List Activity) where
  content as := free (as.map (.activity role))

theorem child_spans {role : Role} (hrole : Role.within holder = role)
    (hholder : holder ≠ activityName "Transition.Trigger") (owner : String) (as : List Activity) :
    Spans (do return as ++ [← Registry.standard.parseChild owner])
      ((row role).Step holder as) := by
  refine .andThen (parseChild_spans owner) fun t a ht => .pure (ht.step hholder [] rfl rfl ?_)
  simp [row, hrole]

/-- A sequence collects what is met in its element. -/
theorem sequence_spans : Spans (sequence Registry.standard.parseChild) Collects := by
  refine composite_spans (row .child) .sequence rfl rfl (fun _ => rfl) rfl
    (child_spans ?_ (by simp) _) fun as => ?_
  · simp [Role.within, Role.table]
  · simp [row, Activity.held]

/-- A condition collects what is met in its element. -/
theorem conditional_spans : Spans (conditional Registry.standard.parseChild) Collects := by
  refine composite_spans
    { content := fun d => filled "If.Then" d.1 ++ (filled "If.Else" d.2 ++ free []) } .conditional
    rfl rfl (fun _ => rfl) rfl (fun d => ?_) fun d => ?_
  · refine .atStart ?_ (.atStart ?_ (.atStart
      (skip_spans (isSkipped_property (by decide)) (by simp) d) .unexpected))
    · refine .andThen (wrapped_spans "If" (by decide) (by decide)) fun t x hx => .pure fun ht => ?_
      refine .refills (by decide) ht [] ?_ rfl rfl (hx {} _)
      exact filter_placed_append (by decide) ht (by decide) (filter_free _) _
    · refine .andThen (wrapped_spans "If" (by decide) (by decide)) fun t x hx => .pure fun ht => ?_
      refine .refills (by decide) ht (filled "If.Then" d.1) ?_ rfl rfl (hx {} _)
      exact filter_placed_append (by decide) ht (by decide) (filter_free _) _
  · simp [filled, Activity.held, Role.within, Role.table]

theorem switch_spans : Spans (switch Registry.standard.parseChild) Collects := by
  -- Nothing to do keeps its place among the cases, but it is no activity.
  let cases (as : List Activity) : List Item :=
    (as.filter fun a => a.type ≠ .empty).map (.activity .case)
  refine composite_spans { content := fun d => filled "Switch.Default" d.2 ++ free (cases d.1) }
    .switch rfl rfl (fun _ => rfl) rfl (fun d => ?_) fun d => ?_
  · refine .atStart ?_ (.atStart (skip_spans (isSkipped_property (by decide)) (by simp) d)
      (.atStart ?_ ?_))
    · refine .andThen (wrapped_spans "Switch" (by decide) (by decide)) fun t x hx =>
        .pure fun ht => .refills (by decide) ht [] ?_ rfl rfl (hx {} _)
      simp
    · refine .andThen .skipElement fun t _ _ => .pure fun ht =>
        .skipped (ht ▸ isSkipped_languageName (by decide)) (by simp) ?_ rfl
      simp [cases, Activity.type]
    · refine .andThen (parseChild_spans _) fun t a ht => .pure (ht.step (by simp) _ rfl rfl ?_)
      simp [cases, ht.ne_empty, Role.within, Role.table]
  · simp only [List.map_append, filled, map_snd_placed, map_snd_free, Item.held_append]
    refine .trans ?_ List.perm_append_comm
    simp [cases, Activity.held, Role.within, Role.table]

theorem loop_spans (test : LoopTest) :
    Spans (loop Registry.standard.parseChild test) Collects := by
  have hroles : Role.within (activityName test.name) = .body ∧
      Role.within (activityName (test.name ++ ".Body")) = .body := by
    cases test <;> simp [Role.within, Role.table, LoopTest.name]
  have hbody : test.name ++ ".Body" ∈ Tree.structuring := by cases test <;> decide +kernel
  have hholder : activityName test.name ≠ activityName "Transition.Trigger" := by
    cases test <;> simp [LoopTest.name]
  refine composite_spans { content := fun d => free (d.toList.map (.activity .body)) } (.loop test)
    rfl rfl (fun _ => rfl) rfl (fun d => ?_) fun d => ?_
  · refine .atStart (skip_spans (isSkipped_property ?_) hholder d)
      (.ite (fun _ => .fail) fun hnone => ?_)
    · cases test <;> decide +kernel
    · -- A second body is refused, so that a body fills no slot.
      obtain rfl : d = none := by simpa using hnone
      refine .atStart ?_ ?_
      · refine .imp (wrapped_spans test.name hbody ?_) fun t x hx ht => ?_
        · cases test <;> decide +kernel
        · have hslot := slot?_of_not_single ht (by cases test <;> decide +kernel)
          exact .grows hslot (hroles.2 ▸ hx {} _) [] rfl rfl
      · refine .andThen (parseChild_spans _) fun t a ht => .pure ?_
        exact ht.step (l := []) hholder [] rfl rfl (by simp [hroles.1])
  · simp [Activity.held]

theorem parallel_spans : Spans (parallel Registry.standard.parseChild) Collects := by
  refine composite_spans (row .branch) .parallel rfl rfl (fun _ => rfl) rfl (fun as => .atStart
    (skip_spans (isSkipped_property (by decide)) (by simp) as) (child_spans ?_ (by simp) _ as))
    fun as => ?_
  · simp [Role.within, Role.table]
  · simp [row, Activity.held]

/-- The activities of a branch. -/
def branchItems (b : PickBranch Activity) : List Item :=
  b.trigger.toList.map (.activity .trigger) ++ b.action.toList.map (.activity .action)

theorem pickBranch_spans : Spans (pickBranch Registry.standard.parseChild) fun t b =>
    t.qname = activityName "PickBranch" ∧
      Moves (sightsAll (activityName "PickBranch") t.children) {} [] {} (branchItems b) := by
  have hroles : Role.within (activityName "PickBranch.Trigger") = .trigger ∧
      Role.within (activityName "PickBranch.Action") = .action ∧
      Role.within (activityName "PickBranch") = .action := by
    simp [Role.within, Role.table]
  let V : View (PickBranch Activity) :=
    { content := fun b =>
        filled "PickBranch.Trigger" b.trigger ++ free (b.action.toList.map (.activity .action)) }
  refine element_spans V [] (fun _ => rfl) (fun b => ?_) fun t b ht h => ⟨ht, ?_⟩
  · refine .atStart ?_ (.ite (fun _ => .unexpected) fun hnone => ?_)
    · refine .andThen (wrapped_spans "Pick" (by decide) (by decide)) fun t x hx =>
        .pure fun ht => .refills (by decide) ht [] ?_ rfl rfl (hx {} _)
      simp
    · -- As with the body of a loop, a second action is refused; a second trigger is not.
      obtain ⟨trigger, action⟩ := b
      obtain rfl : action = none := by simpa using hnone
      refine .atStart ?_ ?_
      · refine .andThen (wrapped_spans "Pick" (by decide) (by decide)) fun t x hx =>
          .pure fun ht => .grows (slot?_of_not_single ht (by decide)) (hroles.2.1 ▸ hx {} _) _
            rfl rfl
      · refine .andThen (parseChild_spans _) fun t a ht => .pure ?_
        exact ht.step (by simp) _ rfl rfl (hroles.2.2 ▸ rfl)
  · simpa only [V, branchItems, List.map_append, filled, map_snd_placed, map_snd_free, hroles.1]
      using h

theorem pick_spans : Spans (pick Registry.standard.parseChild) Collects := by
  refine composite_spans { content := fun bs => free (bs.flatMap branchItems) } .pick rfl rfl
    (fun _ => rfl) rfl (fun bs => ?_) fun bs => ?_
  · refine .atStart (.andThen pickBranch_spans fun t b hb => .pure fun _ => ?_) .unexpected
    have hbranch := hb.2.extend (bs.flatMap branchItems)
    rw [List.append_nil] at hbranch
    refine .grows (slot?_of_not_single hb.1 (by decide))
      (.structuring (by decide) (by decide) hb.1 hbranch) [] rfl ?_
    simp
  · simp [branchItems, Activity.held]

theorem reference_spans (owner : String) :
    Spans (reference owner) fun t key => t.qname = languageName "Reference" ∧
      t.reference? = some key := by
  have hitem (_ : Unit) : Spans (do let _ ← Parser.skipElement owner) fun _ (_ : Unit) => True :=
    .andThen .skipElement fun _ _ _ => .pure trivial
  refine .expectStart fun start => .untilEnd hitem fun ts _ _ => .expectEnd fun _ => ?_
  split
  · next value hvalue =>
    refine .pure fun t hstart _ ht => ⟨ht, ?_⟩
    rw [reference?, if_pos ht, hstart, hvalue, Option.map_some]
  · exact .fail

/-! ## Flowcharts -/

namespace Flowchart

/-- The activities of a node. -/
def nodeItems (n : FlowNode Activity) : List Item := n.parts.map (.activity .action)

/-- The activities of a graph. -/
def Graph.items (g : Graph) : List Item := g.nodes.flatMap nodeItems

@[simp] theorem items_push (g : Graph) (n : FlowNode Activity) :
    (g.push n).items = g.items ++ nodeItems n := by
  simp [Graph.items, Graph.push]

@[simp] theorem items_nodeName (g : Graph) (name : Option String) :
    (g.nodeName name).2.items = g.items := by
  cases name <;> rfl

/-- The nodes bring their activities, wherever they stand. -/
def NodesMove (node : NodeReader) : Prop :=
  ∀ g holder, holder ≠ activityName "Transition.Trigger" → Spans (node g) fun t x =>
    t.slot? = none ∧ Moves (t.sightsIn holder) {} g.items {} x.2.items

variable {node : NodeReader}

theorem target_spans (hnode : NodesMove node) (hname : name ∈ Tree.structuring)
    (hother : name ∉ singleProperties ++ ["State", "Transition"]) (g : Graph) :
    Spans (target node (activityName name) g) fun t x => t.slot? = none ∧
      ∀ holder, Moves (t.sightsIn holder) {} g.items {} x.2.items := by
  rw [List.mem_append, not_or] at hother
  have htrigger : activityName name ≠ activityName "Transition.Trigger" := by
    rw [Ne, Markup.activityName_inj]
    rintro rfl
    exact hother.1 (by decide)
  refine .expectStart fun start => .before .look fun _ _ => .ite (fun _ => .none (.close ?_))
    fun _ => .one (hnode g _ htrigger) fun u x hx => .close ?_
  · intro t _ hchildren ht
    refine ⟨slot?_of_not_single ht hother.1, fun holder => .structuring hname hother.2 ht ?_⟩
    rw [hchildren]
    exact .none _ _
  · intro t _ hchildren ht
    refine ⟨slot?_of_not_single ht hother.1, fun holder => .structuring hname hother.2 ht ?_⟩
    rw [hchildren, sightsAll_singleton]
    exact hx.2

/-- A step that is being read, and the graph around it. -/
def stepView : View StepDraft where
  content d := free (d.action.toList.map (.activity .action) ++ d.graph.items)

theorem stepPart_spans (hnode : NodesMove node) (d : StepDraft) :
    Spans (stepPart Registry.standard.parseChild node d)
      (stepView.Step (activityName "FlowStep") d) := by
  refine .atStart (skip_spans (isSkipped_languageName (by decide)) (by simp) d)
    (.atStart ?_ (.ite (fun hnone => ?_) fun _ => .unexpected))
  · exact .andThen (target_spans hnode (by decide) (by decide) _) fun t x hx => .pure fun _ =>
      .grows hx.1 ((hx.2 _).extend _) [] rfl rfl
  · refine .andThen (parseChild_spans _) fun t a ht => .pure ?_
    obtain ⟨graph, action, next⟩ := d
    obtain rfl : action = none := by simpa using hnone
    have hrole : Role.within (activityName "FlowStep") = .action := by
      simp [Role.within, Role.table]
    have hmoves := (hrole ▸ ht.moves (by simp) {} graph.items).congr rfl rfl
      (List.perm_append_singleton ..).symm
    exact .grows (slot?_eq_none (.inr ht.name)) hmoves [] rfl rfl

/-- A node that is read in a loop is put behind the nodes inside it. -/
theorem node_spans {σ : Type} {V : View σ} {item : σ → Parser σ} {init : Token → σ}
    {result : Token → σ → String × Graph} (hname : name ∈ Tree.structuring)
    (hother : name ∉ singleProperties ++ ["State", "Transition"]) (g : Graph)
    (hmachine : ∀ d, V.machine d = {}) (hinit : ∀ start, V.content (init start) = free g.items)
    (hitem : ∀ d, Spans (item d) (V.Step (activityName name) d))
    (hresult : ∀ start d, (result start d).2.items.Perm ((V.content d).map Prod.snd)) :
    Spans (do
      let start ← Parser.expectStart (activityName name) owner
      let d ← Parser.untilEnd (activityName name) owner item (init start)
      let _ ← Parser.expectEnd (activityName name) owner
      return result start d) fun t x => t.slot? = none ∧
        ∀ holder, Moves (t.sightsIn holder) {} g.items {} x.2.items := by
  rw [List.mem_append, not_or] at hother
  refine element_spans V g.items hinit hitem fun t d ht h => ?_
  refine ⟨slot?_of_not_single ht hother.1, fun holder => .structuring hname hother.2 ht ?_⟩
  rw [hmachine, hmachine] at h
  exact h.congr rfl rfl (hresult t.start d)

theorem step_spans (hnode : NodesMove node) (g : Graph) :
    Spans (step Registry.standard.parseChild node g) fun t x => t.slot? = none ∧
      ∀ holder, Moves (t.sightsIn holder) {} g.items {} x.2.items := by
  refine node_spans (by decide) (by decide) g (fun _ => rfl)
    (fun start => congrArg free (items_nodeName g _)) (stepPart_spans hnode) fun start d => ?_
  rw [items_push, stepView, map_snd_free]
  exact List.perm_append_comm

/-- The parts of the other nodes change the graph. -/
def graphView {σ : Type} (graph : σ → Graph) : View σ where
  content d := free (graph d).items

theorem decision_spans (hnode : NodesMove node) (g : Graph) :
    Spans (decision node g) fun t x => t.slot? = none ∧
      ∀ holder, Moves (t.sightsIn holder) {} g.items {} x.2.items := by
  refine node_spans (V := graphView DecisionDraft.graph) (by decide) (by decide) g (fun _ => rfl)
    (fun start => congrArg free (items_nodeName g _)) (fun d => ?_) fun start d => ?_
  · refine .atStart ?_ (.atStart ?_ (.atStart (skip_spans ?_ (by simp) d)
      (.atStart (skip_spans ?_ (by simp) d) .unexpected)))
    · exact .andThen (target_spans hnode (by decide) (by decide) _) fun t x hx =>
        .pure fun _ => .grows hx.1 (hx.2 _) [] rfl rfl
    · exact .andThen (target_spans hnode (by decide) (by decide) _) fun t x hx =>
        .pure fun _ => .grows hx.1 (hx.2 _) [] rfl rfl
    · exact isSkipped_property (by decide)
    · exact isSkipped_languageName (by decide)
  · simp [graphView, nodeItems, FlowNode.parts]

theorem switch_spans (hnode : NodesMove node) (g : Graph) :
    Spans (switch node g) fun t x => t.slot? = none ∧
      ∀ holder, Moves (t.sightsIn holder) {} g.items {} x.2.items := by
  refine node_spans (V := graphView SwitchDraft.graph) (by decide) (by decide) g (fun _ => rfl)
    (fun start => congrArg free (items_nodeName g _)) (fun d => ?_) fun start d => ?_
  · refine .atStart ?_ (.atStart (skip_spans ?_ (by simp) d)
      (.atStart (skip_spans ?_ (by simp) d) ?_))
    · exact .andThen (target_spans hnode (by decide) (by decide) _) fun t x hx =>
        .pure fun _ => .grows hx.1 (hx.2 _) [] rfl rfl
    · exact isSkipped_property (by decide)
    · exact isSkipped_languageName (by decide)
    · exact .andThen (hnode d.graph _ (by simp)) fun t x hx => .pure (.grows hx.1 hx.2 [] rfl rfl)
  · simp [graphView, nodeItems, FlowNode.parts]

theorem nodes_move (n : Nat) : NodesMove (Flowchart.node Registry.standard.parseChild n) := by
  induction n with
  | zero => exact fun _ _ _ => .fail
  | succ n ih =>
    intro g holder hholder
    have hskipped {t : Tree} (ht : isSkipped t.qname = true) : t.slot? = none ∧
        Moves (t.sightsIn holder) {} g.items {} g.items :=
      ⟨slot?_eq_none (.inl ht), .skipped ht hholder _ _⟩
    refine .peekStart fun front => .ite (fun _ => ?_) fun _ => .ite (fun _ => ?_) fun _ =>
      .ite (fun _ => ?_) fun _ => .ite (fun _ => ?_) fun _ => .ite (fun hnull => ?_) fun _ =>
      .unexpected
    · exact .andThen (step_spans ih g) fun t x hx => .pure fun _ => ⟨hx.1, hx.2 _⟩
    · exact .andThen (decision_spans ih g) fun t x hx => .pure fun _ => ⟨hx.1, hx.2 _⟩
    · exact .andThen (switch_spans ih g) fun t x hx => .pure fun _ => ⟨hx.1, hx.2 _⟩
    · exact .andThen (reference_spans owner) fun t x ht => .pure fun _ =>
        hskipped (ht.1 ▸ isSkipped_languageName (by decide))
    · refine .andThen .skipElement fun t _ _ => .pure fun hfront => hskipped ?_
      rw [qname, hfront, hnull]
      exact isSkipped_languageName (by decide)

theorem check_stays (fault : Option Fault) : Stays (check fault) fun _ => True := by
  cases fault with
  | none => exact .pure trivial
  | some fault => exact .fail

theorem flowchart_spans : Spans (flowchart Registry.standard.parseChild) Collects := by
  have hnodes {n : Nat} {holder : String} (hholder : holder ≠ activityName "Transition.Trigger")
      (d : Draft) : Spans (Flowchart.node Registry.standard.parseChild n d.graph) fun t x =>
        ∀ start, (graphView Draft.graph).Step holder d t ⟨x.2, start⟩ :=
    .imp (nodes_move n d.graph holder hholder) fun t x hx start => .grows hx.1 hx.2 [] rfl rfl
  refine .expectStart fun start => .before .look fun n _ => loop_closes (graphView Draft.graph) []
    rfl (fun d => .atOpened ?_ ?_) fun ts d h => .after (check_stays _) fun _ _ => .close ?_
  · refine element_spans (graphView Draft.graph) d.graph.items (fun _ => rfl)
      (fun d => .andThen (hnodes (by simp) d) fun t x hx => .pure (hx _)) fun t d' ht h => ?_
    refine .grows (slot?_of_not_single ht (by decide))
      (.structuring (by decide) (by decide) ht ?_) [] rfl rfl
    simpa [graphView] using h
  · exact .andThen (hnodes (by simp) d) fun t x hx => .pure (hx _)
  · rintro t - rfl ht
    refine h.collects .flowchart rfl ht (.of_eq ?_)
    simp [graphView, Graph.items, nodeItems, Activity.held, firing, StateMachine.givenTriggers]

end Flowchart

end OpenWorkflow.Reader
