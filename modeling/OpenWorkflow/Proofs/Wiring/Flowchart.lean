import Mathlib.Order.Nat
import OpenWorkflow.Proofs.Drawing.Locality

/-!
# The wiring of flowcharts

Which names of a flowchart lead to one place. The edges tie the names of its own
places together as the flowchart says (`Flowchart.Wired`), and an action ties the
two ends of its step together if its own two ends have become one place. No more
names become one (`Flowchart.find_eq_iff_wired`): seen from the flowchart, every name
in an action stands for the end of the step that it is tied to (`Flowchart.Stands`),
and no join leads from what stands for one class of names to what stands for another.
-/

namespace OpenWorkflow

open Activity Fragment
open Fragment.Flowchart (nodeName layNode)

/-! ## Edges -/

namespace FlowNode

variable {α : Type}

/-- The places where the edges of cases from the `i`-th on begin, and where they lead. -/
def caseOuts (id : String) : Nat → List (Option String) → List (String × Option String)
  | _, [] => []
  | i, edge :: edges => (id ++ "." ++ ("case" ++ toString i), edge) :: caseOuts id (i + 1) edges

/-- The places where the edges of a node begin, and where they lead. -/
def outs : FlowNode α → List (String × Option String)
  | step id _ next => [(id ++ "." ++ "next", next)]
  | decision id onTrue onFalse =>
    [(id ++ "." ++ "true", onTrue), (id ++ "." ++ "false", onFalse)]
  | switch id fallback cases => (id ++ "." ++ "default", fallback) :: caseOuts id 1 cases

end FlowNode

namespace Fragment.Flowchart

/-- The construction of a flowchart up to the moment when the action of a step behind other nodes
has been built; the result is the scope of the action. -/
def upToAction (pre : List (FlowNode Fragment)) (id : String) (action : Option Fragment) :
    Build Scope := do
  let scope ← Scope.enter
  pre.forM (layNode scope)
  Net.internalPlace (nodeName scope id "start")
  Net.internalPlace (nodeName scope id "next")
  child (orEmpty action)

/-- When the action of the step has been built, its two ends are one place. -/
def Collapses (net : Net) (pre : List (FlowNode Activity)) (id : String)
    (action : Option Activity) : Prop :=
  ∃ inner mid p, upToAction (nodeFragments pre) id (fragment? action) net = .ok inner mid ∧
    mid.find? inner.initialized = some p ∧ mid.find? inner.closed = some p

/-- What a flowchart ties together that is built in the net. -/
inductive Wired (net : Net) (start : String) (nodes : List (FlowNode Activity)) :
    String → String → Prop where
  /-- The flowchart begins with its first node. -/
  | entry : Wired net start nodes (Scope.initialized ⟨net.scope⟩)
      (nodeName ⟨net.scope⟩ start "start")
  /-- An edge leads to the start of its target. -/
  | edge {node : FlowNode Activity} {out target : String} :
    node ∈ nodes → (out, some target) ∈ node.outs →
      Wired net start nodes (Scope.name ⟨net.scope⟩ out) (nodeName ⟨net.scope⟩ target "start")
  /-- An edge without target leads to the end of the flowchart. -/
  | exit {node : FlowNode Activity} {out : String} :
    node ∈ nodes → (out, none) ∈ node.outs →
      Wired net start nodes (Scope.name ⟨net.scope⟩ out) (Scope.closed ⟨net.scope⟩)
  /-- A step is passed through if its action is. -/
  | pass {pre post : List (FlowNode Activity)} {id : String} {action : Option Activity}
      {next : Option String} :
    nodes = pre ++ .step id action next :: post → Collapses net pre id action →
      Wired net start nodes (nodeName ⟨net.scope⟩ id "start") (nodeName ⟨net.scope⟩ id "next")

end Fragment.Flowchart

/-! ## The joins of a flowchart -/

namespace Activity

variable {s : Scope} {k : Nat} {x y : String}

theorem caseEdgeLines_eq (s : Scope) (id : String) (i : Nat) (edges : List (Option String)) :
    caseEdgeLines s id i edges
      = (FlowNode.caseOuts id i edges).map fun o => edgeLine s (s.name o.1) o.2 := by
  induction edges generalizing i with
  | nil => rfl
  | cons edge edges ih =>
    rw [caseEdgeLines, ih]
    rfl

theorem edgeLines_eq (s : Scope) (node : FlowNode Activity) :
    edgeLines s node = node.outs.map fun o => edgeLine s (s.name o.1) o.2 := by
  cases node with
  | step id action next => rfl
  | decision id onTrue onFalse => rfl
  | switch id fallback cases =>
    rw [edgeLines, caseEdgeLines_eq]
    rfl

theorem joins_not_mem_nodeCaseLines (s : Scope) (id : String) (n i : Nat) (last : String) :
    .joins x y ∉ nodeCaseLines s id n i last := by
  induction n generalizing i last with
  | zero => simp [nodeCaseLines]
  | succ n ih => simp [nodeCaseLines, ih]

/-- A node joins something only if it is a step: its places to the two ends of its action. -/
theorem joins_mem_nodeLines {node : FlowNode Activity} :
    .joins x y ∈ nodeLines s k node ↔ ∃ id action next, node = .step id action next ∧
      .joins x y ∈ spliceLines (nodeName s id "start") (nodeName s id "next") ⟨k + 1⟩ := by
  cases node with
  | step id action next => simp [nodeLines]
  | decision id onTrue onFalse => simp [nodeLines]
  | switch id fallback cases => simp [nodeLines, joins_not_mem_nodeCaseLines]

/-- A step of a flowchart with the number `k` has the name, and its action has the number `j`. -/
def HasStep (k : Nat) (nodes : List (FlowNode Activity)) (j : Nat) (c : Activity) (id : String) :
    Prop :=
  ∃ pre action next post, nodes = pre ++ .step id action next :: post ∧
    c = action.getD .empty ∧ j = k + 1 + sizes (pre.flatMap FlowNode.built)

variable {start : String} {nodes : List (FlowNode Activity)}

/-- What a flowchart joins: its steps with their actions, its edges, its start. -/
theorem joins_mem_lines_flowchart :
    .joins x y ∈ (flowchart (some start) nodes).lines k ↔
      (∃ j c id, HasStep k nodes j c id ∧
        .joins x y ∈ spliceLines (nodeName ⟨k⟩ id "start") (nodeName ⟨k⟩ id "next") ⟨j⟩) ∨
      (x = Scope.initialized ⟨k⟩ ∧ y = nodeName ⟨k⟩ start "start") ∨
      ∃ node ∈ nodes, ∃ o ∈ node.outs, .joins x y = edgeLine ⟨k⟩ (Scope.name ⟨k⟩ o.1) o.2 := by
  have hnodes : .joins x y ∈ numberedLines (nodeLines ⟨k⟩) FlowNode.built k nodes ↔
      ∃ j c id, HasStep k nodes j c id ∧
        .joins x y ∈ spliceLines (nodeName ⟨k⟩ id "start") (nodeName ⟨k⟩ id "next") ⟨j⟩ := by
    rw [mem_numberedLines]
    constructor
    · rintro ⟨pre, node, post, hsplit, hline⟩
      obtain ⟨id, action, next, rfl, hsplice⟩ := joins_mem_nodeLines.1 hline
      rw [Nat.add_right_comm] at hsplice
      exact ⟨_, _, id, ⟨pre, action, next, post, hsplit, rfl, rfl⟩, hsplice⟩
    · rintro ⟨j, c, id, ⟨pre, action, next, post, hsplit, rfl, rfl⟩, hline⟩
      refine ⟨pre, _, post, hsplit, joins_mem_nodeLines.2 ⟨id, action, next, rfl, ?_⟩⟩
      rwa [Nat.add_right_comm]
  have hedges : .joins x y ∈ nodes.flatMap (edgeLines ⟨k⟩) ↔
      ∃ node ∈ nodes, ∃ o ∈ node.outs, .joins x y = edgeLine ⟨k⟩ (Scope.name ⟨k⟩ o.1) o.2 := by
    simp only [List.mem_flatMap, edgeLines_eq, List.mem_map, eq_comm]
  simp [lines, endLines, innerLines, flowchartLines, hnodes, hedges]

/-- A drawing of a flowchart is its own lines and those of the actions of its steps. -/
theorem mem_drawing_flowchart {l : Line} :
    l ∈ (flowchart (some start) nodes).drawing k ↔
      l ∈ (flowchart (some start) nodes).lines k ∨
        ∃ j c id, HasStep k nodes j c id ∧ l ∈ c.drawing j := by
  rw [drawing_eq, List.mem_append]
  apply or_congr_right
  rw [show (flowchart (some start) nodes).built = nodes.flatMap FlowNode.built from rfl, draw_parts,
    mem_numberedLines]
  constructor
  · rintro ⟨pre, node, post, hsplit, hline⟩
    cases node with
    | step id action next =>
      have hdrawing : l ∈ draw _ ([action.getD .empty].flatMap walk) := hline
      rw [List.flatMap_singleton] at hdrawing
      exact ⟨_, _, id, ⟨pre, action, next, post, hsplit, rfl, rfl⟩, hdrawing⟩
    | decision id onTrue onFalse => cases hline
    | switch id fallback cases => cases hline
  · rintro ⟨j, c, id, ⟨pre, action, next, post, hsplit, rfl, rfl⟩, hline⟩
    refine ⟨pre, _, post, hsplit, ?_⟩
    show l ∈ draw _ ([action.getD .empty].flatMap walk)
    rw [List.flatMap_singleton]
    exact hline

/-- Actions of different steps have no number in common. -/
theorem HasStep.unique {j j' : Nat} {c c' : Activity} {id id' : String}
    (h : HasStep k nodes j c id) (h' : HasStep k nodes j' c' id') (hx : Within j c.size x)
    (hx' : Within j' c'.size x) : j = j' ∧ c = c' ∧ id = id' := by
  obtain ⟨pre, action, next, post, hsplit, rfl, rfl⟩ := h
  obtain ⟨pre', action', next', post', hsplit', rfl, rfl⟩ := h'
  obtain ⟨hlt, hlt'⟩ := hx.disjoint hx'
  have hsizes (id : String) (action : Option Activity) (next : Option String) :
      sizes (FlowNode.step id action next).built = (action.getD .empty).size := by
    rw [FlowNode.built, sizes_cons, sizes_nil, Nat.add_zero]
  obtain ⟨rfl, hstep, rfl⟩ := split_unique FlowNode.built hsplit hsplit' (by rw [hsizes]; omega)
    (by rw [hsizes]; omega)
  obtain ⟨rfl, rfl, rfl⟩ := FlowNode.step.inj hstep
  exact ⟨rfl, rfl, rfl⟩

theorem HasStep.lt {j : Nat} {c : Activity} {id : String} (h : HasStep k nodes j c id) : k < j := by
  obtain ⟨pre, action, next, post, -, -, rfl⟩ := h
  omega

theorem HasStep.le {j : Nat} {c : Activity} {id : String} (h : HasStep k nodes j c id) :
    j + c.size ≤ k + (flowchart (some start) nodes).size := by
  obtain ⟨pre, action, next, post, rfl, rfl, rfl⟩ := h
  rw [size_eq (flowchart ..)]
  show _ ≤ k + (sizes ((pre ++ .step id action next :: post).flatMap FlowNode.built) + 1)
  rw [List.flatMap_append, List.flatMap_cons, sizes_append, sizes_append, FlowNode.built,
    sizes_cons]
  omega

/-- No name of the flowchart is one of an action. -/
theorem HasStep.not_owns {j : Nat} {c : Activity} {id : String} (h : HasStep k nodes j c id)
    (hx : Within j c.size x) : ¬ Scope.Owns ⟨k⟩ x := by
  rintro ⟨y, rfl⟩
  have hlt := h.lt
  have hle := (within_name_iff.1 hx).1
  omega

end Activity

/-! ## Actions that collapse -/

theorem Build.of_forM_append_ok {α : Type} {f : α → Build PUnit} {xs ys : List α} {net net' : Net}
    (h : (xs ++ ys).forM f net = .ok () net') :
    ∃ mid, xs.forM f net = .ok () mid ∧ ys.forM f mid = .ok () net' := by
  induction xs generalizing net with
  | nil => exact ⟨net, rfl, h⟩
  | cons x xs ih =>
    obtain ⟨_, mid, hx, hrest⟩ := Build.of_bind_ok h
    obtain ⟨mid', hxs, hys⟩ := ih hrest
    exact ⟨mid', (Build.bind_ok hx).trans hxs, hys⟩

namespace Fragment.Flowchart

variable {net net' : Net} {start id : String} {nodes pre post : List (FlowNode Activity)}
  {action : Option Activity} {next : Option String}

/-- If a flowchart is finished, the actions of its steps are. -/
theorem upToAction_ok (hsplit : nodes = pre ++ .step id action next :: post)
    (hok : flowchart (some start) (nodeFragments nodes) net = .ok () net') :
    ∃ inner mid, upToAction (nodeFragments pre) id (fragment? action) net = .ok inner mid := by
  rw [nodeFragments_eq_map, hsplit, List.map_append, List.map_cons] at hok
  obtain ⟨scope, entered, henter, hok⟩ := Build.of_bind_ok hok
  obtain ⟨_, laid, hlay, -⟩ := Build.of_bind_ok hok
  obtain ⟨before, hpre, hrest⟩ := Build.of_forM_append_ok hlay
  obtain ⟨_, after, hstep, -⟩ := Build.of_bind_ok hrest
  obtain ⟨_, started, hstart, hstep⟩ := Build.of_bind_ok hstep
  obtain ⟨_, ended, hnext, hstep⟩ := Build.of_bind_ok hstep
  obtain ⟨_, tied, hsplice, -⟩ := Build.of_bind_ok hstep
  obtain ⟨inner, built, hchild, -⟩ := Build.of_bind_ok hsplice
  refine ⟨inner, built, ?_⟩
  unfold upToAction
  rw [nodeFragments_eq_map, Build.bind_ok henter, Build.bind_ok hpre, Build.bind_ok hstart,
    Build.bind_ok hnext]
  exact hchild

/-- What is drawn up to the action of a step. -/
def linesUpToAction (k : Nat) (pre : List (FlowNode Activity)) (id : String)
    (action : Option Activity) : List Line :=
  (endLines ⟨k⟩ ++ (numberedLines (nodeLines ⟨k⟩) FlowNode.built k pre
    ++ [.place (nodeName ⟨k⟩ id "start") .internal, .place (nodeName ⟨k⟩ id "next") .internal]))
    ++ draw (k + 1) ((pre.flatMap FlowNode.built ++ [action.getD .empty]).flatMap walk)

theorem traced_upToAction {inner : Scope} {mid : Net} (hw : net.WellFormed)
    (hrun : upToAction (nodeFragments pre) id (fragment? action) net = .ok inner mid) :
    net.Traced (linesUpToAction net.scope pre id action) mid ∧
      inner = ⟨net.scope + 1 + sizes (pre.flatMap FlowNode.built)⟩ := by
  have hdraws (k : Nat) : Draws True [] k (upToAction (nodeFragments pre) id (fragment? action))
      (pre.flatMap FlowNode.built ++ [action.getD .empty])
      (endLines ⟨k⟩ ++ (numberedLines (nodeLines ⟨k⟩) FlowNode.built k pre ++
        [.place (nodeName ⟨k⟩ id "start") .internal, .place (nodeName ⟨k⟩ id "next") .internal]))
      fun inner => inner = ⟨k + sizes (pre.flatMap FlowNode.built) + 1⟩ := by
    rw [nodeFragments_eq_map]
    unfold upToAction
    rw [Draws.orEmpty_fragment?, ← bind_pure (child (action.getD .empty).fragment)]
    refine .enter (.bind (.forM_map fun n _ k' => .layNode ⟨k⟩ n) fun _ _ => ?_)
    exact .place (.place (.child (.pure rfl)))
  obtain ⟨hextends, -, hinner⟩ := (hdraws net.scope net hw rfl
    (fun _ h => absurd h List.not_mem_nil) fun a _ => a.drawn_loose).ok hrun
  rw [Nat.add_right_comm] at hinner
  exact ⟨hextends.traced, hinner⟩

/-- The action of the step is there, and besides what it joins, only the nodes before it join
something. -/
theorem mem_linesUpToAction {k : Nat} {l : Line} :
    (l ∈ (action.getD .empty).drawing (k + 1 + sizes (pre.flatMap FlowNode.built)) →
      l ∈ linesUpToAction k pre id action) ∧
    ∀ x y, l = .joins x y → l ∈ linesUpToAction k pre id action →
      l ∈ (action.getD .empty).drawing (k + 1 + sizes (pre.flatMap FlowNode.built)) ∨
        l ∈ (Activity.flowchart (some id) pre).drawing k := by
  have hlines : linesUpToAction k pre id action = (endLines ⟨k⟩ ++
      (numberedLines (nodeLines ⟨k⟩) FlowNode.built k pre
        ++ [.place (nodeName ⟨k⟩ id "start") .internal, .place (nodeName ⟨k⟩ id "next") .internal]))
      ++ (draw (k + 1) ((pre.flatMap FlowNode.built).flatMap walk)
        ++ (action.getD .empty).drawing (k + 1 + sizes (pre.flatMap FlowNode.built))) := by
    unfold linesUpToAction
    rw [List.flatMap_append, List.flatMap_singleton, draw_append]
    rfl
  constructor
  · intro hl
    rw [hlines]
    exact List.mem_append_right _ (List.mem_append_right _ hl)
  · rintro x y rfl hl
    simp only [hlines, endLines, List.mem_append, List.mem_cons, reduceCtorEq, List.not_mem_nil,
      or_false, false_or] at hl
    rw [drawing_eq (Activity.flowchart (some id) pre)]
    rcases hl with hl | hl | hl
    · exact .inr (List.mem_append_left _ (List.mem_append_right _ (List.mem_append_left _ hl)))
    · exact .inr (List.mem_append_right _ hl)
    · exact .inl hl

/-- The ends of an action become one place if the action joins them. -/
theorem collapses_iff (hw : net.WellFormed)
    (hplaces : ∀ k x, net.scope ≤ k → net.find? (Scope.name ⟨k⟩ x) = none)
    (hsplit : nodes = pre ++ .step id action next :: post)
    (hok : flowchart (some start) (nodeFragments nodes) net = .ok () net') {j : Nat}
    (hj : j = net.scope + 1 + sizes (pre.flatMap FlowNode.built)) :
    Collapses net pre id action ↔ Joined ((action.getD .empty).drawing j)
      (Scope.initialized ⟨j⟩) (Scope.closed ⟨j⟩) := by
  obtain ⟨inner, mid, hrun⟩ := upToAction_ok hsplit hok
  obtain ⟨htraced, hinner⟩ := traced_upToAction hw hrun
  rw [← hj] at hinner
  have hshows := htraced.shows hw.shows_lines
  have hknows {z : String} (hz : z ∈ "initialized" :: "closed" :: (action.getD .empty).places) :
      mid.Knows (Scope.name ⟨j⟩ z) := by
    refine hshows.known.2 ⟨.internal, List.mem_append_left _ (mem_linesUpToAction.1 ?_)⟩
    rw [← hj, drawing_eq]
    exact List.mem_append_left _ (place_mem_lines.2 hz)
  have hinit : mid.Knows (Scope.initialized ⟨j⟩) := hknows (by simp)
  have hclosed : mid.Knows (Scope.closed ⟨j⟩) := hknows (by simp)
  -- Nothing else that has been drawn touches the names of the action.
  have hjoined : Joined (linesUpToAction net.scope pre id action ++ net.lines)
      (Scope.initialized ⟨j⟩) (Scope.closed ⟨j⟩) ↔ Joined ((action.getD .empty).drawing j)
        (Scope.initialized ⟨j⟩) (Scope.closed ⟨j⟩) := by
    constructor
    · intro h
      have hmono : Joined ((action.getD .empty).drawing j ++
          ((Activity.flowchart (some id) pre).drawing net.scope ++ net.lines))
          (Scope.initialized ⟨j⟩) (Scope.closed ⟨j⟩) := by
        refine h.mono fun x y hxy => ?_
        rcases List.mem_append.1 hxy with hxy | hxy
        · have hor := mem_linesUpToAction.2 x y rfl hxy
          rw [← hj] at hor
          simp only [List.mem_append]
          exact hor.imp_right .inl
        · simp [hxy]
      have hsize : 0 < (action.getD .empty).size := by
        rw [size_eq]
        omega
      refine hmono.of_untouched (P := Within j (action.getD .empty).size)
        (fun _ _ => within_of_joins_drawing) (fun x y hxy => ?_)
        (within_name_iff.2 ⟨j.le_refl, by omega⟩)
      rcases List.mem_append.1 hxy with hxy | hxy
      · obtain ⟨hx, hy⟩ := within_of_joins_drawing hxy
        have hbefore : net.scope + (Activity.flowchart (some id) pre).size = j := by
          rw [size_eq, hj]
          show net.scope + (sizes (pre.flatMap FlowNode.built) + 1) = _
          omega
        exact ⟨fun h => absurd (hx.disjoint h).2 (by omega),
          fun h => absurd (hy.disjoint h).2 (by omega)⟩
      · obtain ⟨hx, hy⟩ := hw.shows_lines.ties hxy
        exact ⟨fun h => h.not_knows hplaces (by omega) hx,
          fun h => h.not_knows hplaces (by omega) hy⟩
    · intro h
      refine h.mono fun x y hxy => List.mem_append_left _ (mem_linesUpToAction.1 ?_)
      rwa [← hj]
  rw [← hjoined, ← hshows.joined hinit hclosed]
  obtain ⟨p, hp⟩ := Net.knows_iff.1 hinit
  constructor
  · rintro ⟨inner', mid', q, hrun', hq, hq'⟩
    rw [hrun] at hrun'
    cases hrun'
    rw [← hinner]
    exact hq.trans hq'.symm
  · intro heq
    exact ⟨inner, mid, p, hrun, hinner ▸ hp, hinner ▸ heq ▸ hp⟩

/-! ## Names that stand for names of the flowchart -/

/-- The end of a step that an end of its action is joined to. -/
inductive StepEnd : String → String → Prop where
  | start : StepEnd "initialized" "start"
  | next : StepEnd "closed" "next"

/-- Seen from the flowchart with the number `k`, its own names stand for themselves, and what an
action joins to one of its ends stands for that end of the step. -/
inductive Stands (k : Nat) (nodes : List (FlowNode Activity)) : String → String → Prop where
  | own {n : String} : Scope.Owns ⟨k⟩ n → Stands k nodes n n
  | inner {j : Nat} {c : Activity} {id n x z : String} : HasStep k nodes j c id → StepEnd z x →
    Joined (c.drawing j) n (Scope.name ⟨j⟩ z) → Stands k nodes n (nodeName ⟨k⟩ id x)

variable {k j : Nat} {c : Activity} {n n' o o' x y z : String}

theorem within_of_joined (h : Joined (c.drawing j) n (Scope.name ⟨j⟩ z)) : Within j c.size n := by
  refine (h.invariant (P := Within j c.size) fun a b hab => ?_).2
    (within_name_iff.2 ⟨j.le_refl, ?_⟩)
  · obtain ⟨ha, hb⟩ := within_of_joins_drawing hab
    exact iff_of_true ha hb
  · rw [size_eq]
    omega

theorem Stands.within (start : String) (h : Stands k nodes n o) :
    Within k (Activity.flowchart (some start) nodes).size n := by
  cases h with
  | own hown =>
    obtain ⟨x, rfl⟩ := hown
    refine within_name_iff.2 ⟨k.le_refl, ?_⟩
    rw [size_eq]
    omega
  | inner hstep _ hjoin =>
    exact (within_of_joined hjoin).mono hstep.lt.le hstep.le

/-- What an action joins stands for the same. -/
theorem Stands.of_joins (hstep : HasStep k nodes j c id) (hjoins : Joined (c.drawing j) n n')
    (hn : Within j c.size n) (h : Stands k nodes n o) : Stands k nodes n' o := by
  cases h with
  | own hown => exact absurd hown (hstep.not_owns hn)
  | inner hstep' hend hjoin =>
    obtain ⟨rfl, rfl, rfl⟩ := hstep.unique hstep' hn (within_of_joined hjoin)
    exact .inner hstep hend (hjoins.symm.trans hjoin)

section

variable (hw : net.WellFormed)
  (hplaces : ∀ k x, net.scope ≤ k → net.find? (Scope.name ⟨k⟩ x) = none)
  (hok : flowchart (some start) (nodeFragments nodes) net = .ok () net')

include hw hplaces hok

/-- Ends that an action joins are wired. -/
theorem wired_of_joined (hstep : HasStep net.scope nodes j c id)
    (hjoin : Joined (c.drawing j) (Scope.initialized ⟨j⟩) (Scope.closed ⟨j⟩)) :
    Wired net start nodes (nodeName ⟨net.scope⟩ id "start") (nodeName ⟨net.scope⟩ id "next") := by
  obtain ⟨pre, action, next, post, hsplit, rfl, hj⟩ := hstep
  exact .pass hsplit ((collapses_iff hw hplaces hsplit hok hj).2 hjoin)

/-- A name stands for one name, up to what is wired. -/
theorem Stands.unique (h : Stands net.scope nodes n o) (h' : Stands net.scope nodes n o') :
    Relation.EqvGen (Wired net start nodes) o o' := by
  cases h with
  | own hown =>
    cases h' with
    | own => exact .refl n
    | inner hstep _ hjoin => exact absurd hown (hstep.not_owns (within_of_joined hjoin))
  | inner hstep hend hjoin =>
    have hn := within_of_joined hjoin
    cases h' with
    | own hown => exact absurd hown (hstep.not_owns hn)
    | inner hstep' hend' hjoin' =>
      obtain ⟨rfl, rfl, rfl⟩ := hstep.unique hstep' hn (within_of_joined hjoin')
      have hends := hjoin.symm.trans hjoin'
      cases hend with
      | start =>
        cases hend' with
        | start => exact .refl _
        | next => exact .rel _ _ (wired_of_joined hw hplaces hok hstep hends)
      | next =>
        cases hend' with
        | start => exact .symm _ _ (.rel _ _ (wired_of_joined hw hplaces hok hstep hends.symm))
        | next => exact .refl _

omit hok in
/-- A join leads between names that stand for wired names, or it stays in an action, or among the
names that were there before. -/
theorem stands_of_joins
    (h : .joins x y ∈ (Activity.flowchart (some start) nodes).drawing net.scope ++ net.lines) :
    (∃ o o', Stands net.scope nodes x o ∧ Stands net.scope nodes y o' ∧
        Relation.EqvGen (Wired net start nodes) o o') ∨
      ∀ o, Stands net.scope nodes x o ↔ Stands net.scope nodes y o := by
  rcases List.mem_append.1 h with h | h
  · rcases mem_drawing_flowchart.1 h with h | ⟨j, c, id, hstep, h⟩
    · refine .inl ?_
      rcases joins_mem_lines_flowchart.1 h with ⟨j, c, id, hstep, h⟩ | ⟨rfl, rfl⟩ |
        ⟨node, hnode, ⟨out, target⟩, hout, h⟩
      · simp only [spliceLines, List.mem_cons, Line.joins.injEq, List.not_mem_nil, or_false] at h
        rcases h with ⟨rfl, rfl⟩ | ⟨rfl, rfl⟩
        · exact ⟨_, _, .own (Scope.owns_name ..), .inner hstep .start (.refl _), .refl _⟩
        · exact ⟨_, _, .own (Scope.owns_name ..), .inner hstep .next (.refl _), .refl _⟩
      · exact ⟨_, _, .own (Scope.owns_name ..), .own (Scope.owns_name ..), .rel _ _ .entry⟩
      · cases target with
        | some target =>
          obtain ⟨rfl, rfl⟩ := Line.joins.inj h
          exact ⟨_, _, .own (Scope.owns_name ..), .own (Scope.owns_name ..),
            .rel _ _ (.edge hnode hout)⟩
        | none =>
          obtain ⟨rfl, rfl⟩ := Line.joins.inj h
          exact ⟨_, _, .own (Scope.owns_name ..), .own (Scope.owns_name ..),
            .symm _ _ (.rel _ _ (.exit hnode hout))⟩
    · obtain ⟨hx, hy⟩ := within_of_joins_drawing h
      have hjoin : Joined (c.drawing j) x y := .of_mem h
      exact .inr fun o => ⟨.of_joins hstep hjoin hx, .of_joins hstep hjoin.symm hy⟩
  · obtain ⟨hx, hy⟩ := hw.shows_lines.ties h
    exact .inr fun o => iff_of_false
      (fun hstands => (hstands.within start).not_knows hplaces le_rfl hx)
      fun hstands => (hstands.within start).not_knows hplaces le_rfl hy

/-- The flowchart joins only such names of its own that are wired. -/
theorem eqvGen_of_joined (hx : Scope.Owns ⟨net.scope⟩ x) (hy : Scope.Owns ⟨net.scope⟩ y)
    (h : Joined ((Activity.flowchart (some start) nodes).drawing net.scope ++ net.lines) x y) :
    Relation.EqvGen (Wired net start nodes) x y := by
  -- The names that stand for one wired to `x` are closed under joins.
  have hiff := h.invariant (P := fun m => ∃ o, Stands net.scope nodes m o ∧
    Relation.EqvGen (Wired net start nodes) x o) fun a b hab => by
      rcases stands_of_joins hw hplaces hab with ⟨o, o', ho, ho', hwired⟩ | hsame
      · constructor
        · rintro ⟨oa, hoa, hx⟩
          exact ⟨o', ho', hx.trans _ _ _ ((hoa.unique hw hplaces hok ho).trans _ _ _ hwired)⟩
        · rintro ⟨ob, hob, hx⟩
          exact ⟨o, ho, hx.trans _ _ _ ((hob.unique hw hplaces hok ho').trans _ _ _ hwired.symm)⟩
      · simp only [hsame]
  obtain ⟨o, ho, hwired⟩ := hiff.1 ⟨x, .own hx, .refl x⟩
  exact hwired.trans _ _ _ (ho.unique hw hplaces hok (.own hy))

/-- The flowchart joins what is wired. -/
theorem joined_of_wired (h : Wired net start nodes x y) :
    Joined ((Activity.flowchart (some start) nodes).drawing net.scope) x y := by
  have hline {a b : String} (h : .joins a b ∈ (Activity.flowchart (some start) nodes).lines
      net.scope) : Joined ((Activity.flowchart (some start) nodes).drawing net.scope) a b :=
    .of_mem (mem_drawing_flowchart.2 (.inl h))
  cases h with
  | entry => exact hline (joins_mem_lines_flowchart.2 (.inr (.inl ⟨rfl, rfl⟩)))
  | edge hnode hout =>
    exact hline (joins_mem_lines_flowchart.2 (.inr (.inr ⟨_, hnode, _, hout, rfl⟩)))
  | exit hnode hout =>
    exact (hline (joins_mem_lines_flowchart.2 (.inr (.inr ⟨_, hnode, _, hout, rfl⟩)))).symm
  | @pass pre post id action next hsplit hcollapses =>
    have hstep : HasStep net.scope nodes _ _ id := ⟨pre, action, next, post, hsplit, rfl, rfl⟩
    have hinner := (collapses_iff hw hplaces hsplit hok rfl).1 hcollapses
    have hentry := hline (joins_mem_lines_flowchart.2 (.inl ⟨_, _, _, hstep, .head _⟩))
    have hexit := hline (joins_mem_lines_flowchart.2 (.inl ⟨_, _, _, hstep, .tail _ (.head _)⟩))
    refine hentry.trans (Joined.trans ?_ hexit.symm)
    exact hinner.mono fun a b hab => mem_drawing_flowchart.2 (.inr ⟨_, _, _, hstep, hab⟩)

/-- Wired names are joined. -/
theorem joined_of_eqvGen (h : Relation.EqvGen (Wired net start nodes) x y) :
    Joined ((Activity.flowchart (some start) nodes).drawing net.scope) x y := by
  induction h with
  | rel a b hab => exact joined_of_wired hw hplaces hok hab
  | refl a => exact .refl a
  | symm a b _ ih => exact ih.symm
  | trans a b c _ _ hab hbc => exact hab.trans hbc

end

/-- **The wiring of a flowchart is exact.** Take any net that construction steps can lead to, in
which no place has the number of the net or a later one, and a flowchart with a first node that
is finished there. All its places are found, and two of them are one place just if the
wiring ties their names together. -/
theorem find_eq_iff_wired (calls : List Call)
    (hplaces : ∀ k x, (Net.run calls).scope ≤ k →
      (Net.run calls).find? (Scope.name ⟨k⟩ x) = none)
    (hok : (Activity.flowchart (some start) nodes).fragment (Net.run calls) = .ok () net')
    (hx : x ∈ "initialized" :: "closed" :: nodes.flatMap FlowNode.places)
    (hy : y ∈ "initialized" :: "closed" :: nodes.flatMap FlowNode.places) :
    ∃ p q, net'.find? (Scope.name ⟨(Net.run calls).scope⟩ x) = some p ∧
      net'.find? (Scope.name ⟨(Net.run calls).scope⟩ y) = some q ∧
      (p = q ↔ Relation.EqvGen (Wired (Net.run calls) start nodes)
        (Scope.name ⟨(Net.run calls).scope⟩ x) (Scope.name ⟨(Net.run calls).scope⟩ y)) := by
  have hw := Net.wellFormed_run calls
  have hflowchart : flowchart (some start) (nodeFragments nodes) (Net.run calls)
    = .ok () net' := hok
  have hshows := (traced_of_ok hw hok).shows hw.shows_lines
  have hknows {z : String} (hz : z ∈ "initialized" :: "closed" :: nodes.flatMap FlowNode.places) :
      net'.Knows (Scope.name ⟨(Net.run calls).scope⟩ z) := by
    refine hshows.known.2 ⟨.internal, List.mem_append_left _ ?_⟩
    exact mem_drawing_flowchart.2 (.inl (place_mem_lines.2 hz))
  obtain ⟨p, hp⟩ := Net.knows_iff.1 (hknows hx)
  obtain ⟨q, hq⟩ := Net.knows_iff.1 (hknows hy)
  refine ⟨p, q, hp, hq, ?_⟩
  rw [← Option.some.injEq, ← hp, ← hq, hshows.joined (hknows hx) (hknows hy)]
  constructor
  · exact eqvGen_of_joined hw hplaces hflowchart (Scope.owns_name ..) (Scope.owns_name ..)
  · intro hwired
    exact (joined_of_eqvGen hw hplaces hflowchart hwired).mono fun _ _ => List.mem_append_left _

/-- A loop through a step without effect: the step is passed through, and there is no way out but
the decision. -/
theorem find_eq_iff_wired_loop :
    let calls : List Call := [.newPlace "done" .internal, .nextScope]
    let idle : Activity := .stateMachine (some "off") [⟨"off", true, none, none, []⟩] []
    let nodes : List (FlowNode Activity) := [.step "idle" (some idle) (some "check"),
      .decision "check" none (some "idle")]
    (∀ k x, (Net.run calls).scope ≤ k → (Net.run calls).find? (Scope.name ⟨k⟩ x) = none) ∧
      ∃ net', (Activity.flowchart (some "idle") nodes).fragment (Net.run calls) = .ok () net' ∧
        net'.find? (Scope.name ⟨1⟩ "initialized") = net'.find? (Scope.name ⟨1⟩ "check.start") ∧
        ¬ Relation.EqvGen (Wired (Net.run calls) "idle" nodes) (Scope.name ⟨1⟩ "initialized")
          (Scope.name ⟨1⟩ "closed") := by
  intro calls idle nodes
  have hplaces (k : Nat) (x : String) (_ : (Net.run calls).scope ≤ k) :
      (Net.run calls).find? (Scope.name ⟨k⟩ x) = none := by
    show [("done", (⟨0⟩ : PlaceId))].lookup (Scope.name ⟨k⟩ x) = none
    exact lookup_name_eq_none (by decide)
  obtain ⟨⟨⟩, net', hok, hne⟩ := (Activity.flowchart (some "idle") nodes).fragment.exists_of_test
    (Net.run calls) (fun _ net' => net'.find? (Scope.name ⟨1⟩ "initialized")
      != net'.find? (Scope.name ⟨1⟩ "closed")) (by subst calls idle nodes; decide +kernel)
  have hcollapses : Collapses (Net.run calls) [] "idle" (some idle) := by
    obtain ⟨inner, mid, hrun, hends⟩ :=
      (upToAction (nodeFragments []) "idle" (fragment? (some idle))).exists_of_test (Net.run calls)
        (fun inner mid => (mid.find? inner.initialized).isSome
          && mid.find? inner.initialized == mid.find? inner.closed)
        (by subst calls idle; decide +kernel)
    rw [Bool.and_eq_true, beq_iff_eq, Option.isSome_iff_exists] at hends
    obtain ⟨⟨p, hp⟩, heq⟩ := hends
    exact ⟨inner, mid, p, hrun, hp, heq ▸ hp⟩
  refine ⟨hplaces, net', hok, ?_, ?_⟩
  · obtain ⟨p, q, hp, hq, hiff⟩ := find_eq_iff_wired calls hplaces hok
      (x := "initialized") (y := "check.start") (by decide) (by decide)
    have hpass : Wired (Net.run calls) "idle" nodes (Scope.name ⟨1⟩ "idle.start")
        (Scope.name ⟨1⟩ "idle.next") := .pass rfl hcollapses
    have hedge : Wired (Net.run calls) "idle" nodes (Scope.name ⟨1⟩ "idle.next")
        (nodeName ⟨1⟩ "check" "start") :=
      @Wired.edge _ _ _ _ "idle.next" "check" (.head _) (.head _)
    have heq : p = q := by
      refine hiff.2 (.trans _ _ _ (.rel _ _ .entry) ?_)
      exact .trans _ _ _ (.rel _ _ hpass) (.rel _ _ hedge)
    exact hp.trans (heq ▸ hq.symm)
  · obtain ⟨p, q, hp, hq, hiff⟩ := find_eq_iff_wired calls hplaces hok
      (x := "initialized") (y := "closed") (by decide) (by decide)
    intro hwired
    exact bne_iff_ne.1 hne (hp.trans (hiff.2 hwired ▸ hq.symm))

end Fragment.Flowchart

end OpenWorkflow
