import OpenWorkflow.Proofs.Drawing.Lines
import OpenWorkflow.Proofs.Fragment.Names

/-!
# What the lines of an activity look like

Apart from the exchange of a message, an activity draws only inside the net. Its
places and transitions are internal, have the number of its fragment and are
spelled with its texts, its arcs and joins go between places with this or a later
number, and each of its transitions has an arc on either side
(`Activity.neat_lines`). The lines of a message differ by the interface place, its
port and one arc.
-/

namespace OpenWorkflow

open Fragment.Flowchart (nodeName)
open Fragment.StateMachine (Candidate GuardChain candidatesOf targetName triggerKeys)

variable {c : GuardChain} {last : String} {ts : List String}

/-! ## Numbered names -/

/-- The name has the number of the fragment. -/
def Scope.Owns (s : Scope) (n : String) : Prop := ∃ x, n = s.name x

/-- The name has a number. -/
def IsNumbered (n : String) : Prop := ∃ s : Scope, s.Owns n

/-- The name has the number or a later one. -/
def NumberedFrom (k : Nat) (n : String) : Prop := ∃ s : Scope, k ≤ s.id ∧ s.Owns n

namespace Scope

variable {s : Scope} {n : String}

@[simp] theorem owns_name (s : Scope) (x : String) : s.Owns (s.name x) := ⟨x, rfl⟩

@[simp] theorem owns_initialized (s : Scope) : s.Owns s.initialized := ⟨_, rfl⟩

@[simp] theorem owns_closed (s : Scope) : s.Owns s.closed := ⟨_, rfl⟩

@[simp] theorem owns_nodeName (s : Scope) (id x : String) : s.Owns (nodeName s id x) := ⟨_, rfl⟩

@[simp] theorem Owns.append (h : s.Owns n) (x : String) : s.Owns (n ++ x) := by
  obtain ⟨y, rfl⟩ := h
  exact ⟨y ++ x, by simp only [name, String.append_assoc]⟩

theorem Owns.isNumbered (h : s.Owns n) : IsNumbered n := ⟨s, h⟩

theorem Owns.numberedFrom (h : s.Owns n) : NumberedFrom s.id n := ⟨s, Nat.le_refl _, h⟩

/-- A name has one number only. -/
theorem Owns.unique {s' : Scope} (h : s.Owns n) (h' : s'.Owns n) : s = s' := by
  obtain ⟨x, rfl⟩ := h
  obtain ⟨y, heq⟩ := h'
  exact (name_inj.1 heq).1

end Scope

@[simp] theorem isNumbered_name (s : Scope) (x : String) : IsNumbered (s.name x) := ⟨s, x, rfl⟩

@[simp] theorem isNumbered_initialized (s : Scope) : IsNumbered s.initialized := ⟨s, _, rfl⟩

@[simp] theorem isNumbered_closed (s : Scope) : IsNumbered s.closed := ⟨s, _, rfl⟩

@[simp] theorem isNumbered_nodeName (s : Scope) (id x : String) : IsNumbered (nodeName s id x) :=
  ⟨s, _, rfl⟩

theorem NumberedFrom.isNumbered {k : Nat} {n : String} (h : NumberedFrom k n) : IsNumbered n :=
  h.imp fun _ hs => hs.2

@[simp] theorem numberedFrom_name {k : Nat} {s : Scope} {x : String} :
    NumberedFrom k (s.name x) ↔ k ≤ s.id := by
  constructor
  · rintro ⟨s', hk, howns⟩
    exact howns.unique (s.owns_name x) ▸ hk
  · exact fun hk => ⟨s, hk, s.owns_name x⟩

@[simp] theorem numberedFrom_initialized {k : Nat} {s : Scope} :
    NumberedFrom k s.initialized ↔ k ≤ s.id := numberedFrom_name

@[simp] theorem numberedFrom_closed {k : Nat} {s : Scope} : NumberedFrom k s.closed ↔ k ≤ s.id :=
  numberedFrom_name

@[simp] theorem numberedFrom_nodeName {k : Nat} {s : Scope} {id x : String} :
    NumberedFrom k (nodeName s id x) ↔ k ≤ s.id := numberedFrom_name

/-- Names of messages are not numbered. -/
theorem IsMessage.not_isNumbered {n : String} (h : IsMessage n) : ¬ IsNumbered n := by
  rintro ⟨s, x, heq⟩
  exact h.ne_name s x heq

/-! ## Letters of names -/

/-- The letters in the parts of names that are the same for all fragments. -/
def isPlain (c : Char) : Bool := c.isLower || c.isDigit || c == '.'

/-- The name is spelled with plain letters and those of the texts. -/
def Spelled (ts : List String) (n : String) : Prop :=
  ∀ c ∈ n.toList, isPlain c ∨ ∃ t ∈ ts, c ∈ t.toList

section Spelled

variable {n x y : String}

@[simp] theorem spelled_append : Spelled ts (x ++ y) ↔ Spelled ts x ∧ Spelled ts y := by
  simp only [Spelled, String.toList_append, List.mem_append, or_imp, forall_and]

@[simp] theorem spelled_of_plain (h : n.toList.all isPlain = true) : Spelled ts n :=
  fun c hc => .inl (List.all_eq_true.1 h c hc)

theorem spelled_of_mem (h : n ∈ ts) : Spelled ts n := fun _ hc => .inr ⟨n, h, hc⟩

@[simp] theorem spelled_repr (k : Nat) : Spelled ts k.repr := by
  refine fun c hc => .inl ?_
  simp [isPlain, Text.isDigit_of_mem_toString hc]

@[simp] theorem spelled_name {s : Scope} : Spelled ts (s.name x) ↔ Spelled ts x := by
  unfold Scope.name
  simp +decide

end Spelled

/-- A name of the fragment that is spelled with the texts. -/
structure Named (ts : List String) (s : Scope) (n : String) : Prop where
  owns : s.Owns n
  spelled : Spelled ts n

section Named

variable {s : Scope} {n x y : String}

@[simp] theorem named_name : Named ts s (s.name x) ↔ Spelled ts x :=
  ⟨fun h => spelled_name.1 h.spelled, fun h => ⟨s.owns_name x, spelled_name.2 h⟩⟩

@[simp] theorem named_initialized (s : Scope) : Named ts s s.initialized :=
  named_name.2 (spelled_of_plain (by decide))

@[simp] theorem named_closed (s : Scope) : Named ts s s.closed :=
  named_name.2 (spelled_of_plain (by decide))

@[simp] theorem named_nodeName :
    Named ts s (nodeName s x y) ↔ Spelled ts x ∧ Spelled ts y := by
  simp +decide [nodeName]

@[simp] theorem Named.append (h : Named ts s n) (hx : Spelled ts x) : Named ts s (n ++ x) :=
  ⟨h.owns.append x, spelled_append.2 ⟨h.spelled, hx⟩⟩

theorem Named.numberedFrom (h : Named ts s n) : NumberedFrom s.id n := h.owns.numberedFrom

end Named

/-! ## Lines inside the net -/

/-- A line of the fragment that has to do with the inside of the net only, spelled with the
texts. -/
@[simp] def Line.Inside (ts : List String) (s : Scope) : Line → Prop
  | .place n kind => kind = .internal ∧ Named ts s n
  | .port _ _ => False
  | .transition t kind => kind = .internal ∧ Named ts s t
  | .arc _ n t => NumberedFrom s.id n ∧ Named ts s t
  | .joins n n' => NumberedFrom s.id n ∧ NumberedFrom s.id n'

/-- Some arc of the kind is drawn at the transition. -/
def HasArc (L : List Line) (flow : ArcKind) (t : String) : Prop := ∃ n, .arc flow n t ∈ L

section HasArc

variable {L : List Line} {flow : ArcKind} {t : String}

@[simp] theorem hasArc_place {n : String} {kind : NodeKind} :
    HasArc (.place n kind :: L) flow t ↔ HasArc L flow t := by
  simp [HasArc]

@[simp] theorem hasArc_transition {t' : String} {kind : NodeKind} :
    HasArc (.transition t' kind :: L) flow t ↔ HasArc L flow t := by
  simp [HasArc]

@[simp] theorem hasArc_joins {n n' : String} :
    HasArc (.joins n n' :: L) flow t ↔ HasArc L flow t := by
  simp [HasArc]

@[simp] theorem hasArc_arc {flow' : ArcKind} {n t' : String} :
    HasArc (.arc flow' n t' :: L) flow t ↔ (flow = flow' ∧ t = t') ∨ HasArc L flow t := by
  simp [HasArc, exists_or]

end HasArc

/-- A transition that the line puts down is on the way from one place to another. -/
@[simp] def Line.Wired (L : List Line) : Line → Prop
  | .transition t _ => HasArc L .consumes t ∧ HasArc L .produces t
  | _ => True

theorem Line.Wired.mono {L L' : List Line} {l : Line} (h : l.Wired L) (hsub : L ⊆ L') :
    l.Wired L' := by
  cases l with
  | transition t kind =>
    obtain ⟨⟨n, hn⟩, n', hn'⟩ := h
    exact ⟨⟨n, hsub hn⟩, n', hsub hn'⟩
  | _ => exact h

/-- The lines have to do with the inside of the net only, and no transition is loose. -/
def Neat (ts : List String) (s : Scope) (L : List Line) : Prop :=
  ∀ l ∈ L, l.Inside ts s ∧ l.Wired L

namespace Neat

variable {s : Scope} {L L' : List Line}

theorem nil : Neat ts s [] := by
  simp [Neat]

theorem append (h : Neat ts s L) (h' : Neat ts s L') : Neat ts s (L ++ L') := by
  intro l hl
  rcases List.mem_append.1 hl with hl | hl
  · exact (h l hl).imp_right (.mono · (List.subset_append_left ..))
  · exact (h' l hl).imp_right (.mono · (List.subset_append_right ..))

theorem numberedLines {α : Type} {lines : Nat → α → List Line} {built : α → List Activity}
    {xs : List α} {k : Nat} (h : ∀ x ∈ xs, ∀ k, s.id ≤ k → Neat ts s (lines k x))
    (hk : s.id ≤ k) : Neat ts s (numberedLines lines built k xs) := by
  induction xs generalizing k with
  | nil => exact nil
  | cons x xs ih =>
    exact (h x (List.mem_cons_self ..) k hk).append
      (ih (fun y hy => h y (List.mem_cons_of_mem _ hy)) (Nat.le_add_right_of_le hk))

theorem flatMap {α : Type} {lines : α → List Line} {xs : List α}
    (h : ∀ x ∈ xs, Neat ts s (lines x)) : Neat ts s (xs.flatMap lines) := by
  induction xs with
  | nil => exact nil
  | cons x xs ih =>
    exact (h x (List.mem_cons_self ..)).append (ih fun y hy => h y (List.mem_cons_of_mem _ hy))

end Neat

namespace Activity

variable {s : Scope} {k : Nat}

/-! ## Steps and structured control flow -/

theorem neat_endLines (s : Scope) : Neat ts s (endLines s) := by
  simp [Neat, endLines]

theorem neat_stepLines (s : Scope) {label : String} (hlabel : Spelled ts label) :
    Neat ts s (stepLines s label) := by
  simp [Neat, stepLines, hlabel]

theorem neat_spliceLines {entry exit : String} (hentry : NumberedFrom s.id entry)
    (hexit : NumberedFrom s.id exit) (hk : s.id ≤ k) :
    Neat ts s (spliceLines entry exit ⟨k + 1⟩) := by
  simp [Neat, spliceLines, hentry, hexit, Nat.le_add_right_of_le hk]

/-- A fragment between the two ends of another one. -/
theorem neat_around (s : Scope) : Neat ts s (spliceLines s.initialized s.closed ⟨s.id + 1⟩) :=
  neat_spliceLines (by simp) (by simp) (Nat.le_refl _)

/-- The joins of a chain are inside the net. -/
theorem neat_chainLines (hlast : NumberedFrom s.id last) (hk : s.id ≤ k) (as : List Activity) :
    Neat ts s (chainLines last k as) ∧ NumberedFrom s.id (chainEnd last k as) := by
  induction as generalizing last k with
  | nil => exact ⟨.nil, hlast⟩
  | cons a as ih =>
    have hnext : s.id ≤ k + 1 := Nat.le_add_right_of_le hk
    have hjoin : Neat ts s [.joins last (Scope.initialized ⟨k + 1⟩)] := by
      simp [Neat, hlast, hnext]
    obtain ⟨hrest, hend⟩ :=
      ih (numberedFrom_closed.2 hnext) (Nat.le_add_right_of_le hk)
    exact ⟨hjoin.append hrest, hend⟩

theorem neat_sequenceLines (s : Scope) (as : List Activity) : Neat ts s (sequenceLines s as) := by
  unfold sequenceLines
  split
  · exact neat_around s
  · have hstart : NumberedFrom s.id s.initialized := by simp
    obtain ⟨hchain, hend⟩ := neat_chainLines hstart (Nat.le_refl _) as
    refine hchain.append ?_
    simp [Neat, hend]

theorem neat_branchLines {label : String} (hlabel : Spelled ts label) (hk : s.id ≤ k)
    (a : Option Activity) : Neat ts s (branchLines s label k a) := by
  cases a <;> simp [Neat, branchLines, hlabel, Nat.le_add_right_of_le hk]

/-- The lines of a condition are inside the net. -/
theorem neat_conditionalLines (s : Scope) (onTrue onFalse : Option Activity) :
    Neat ts s (conditionalLines s onTrue onFalse) := by
  unfold conditionalLines
  refine Neat.append (by simp +decide [Neat]) ?_
  split
  · simp +decide [Neat]
  · exact Neat.append (neat_branchLines (by simp +decide) (Nat.le_refl _) _)
      (neat_branchLines (by simp +decide) (Nat.le_add_right ..) _)

theorem neat_caseLines (s : Scope) (i : Nat) (hlast : NumberedFrom s.id last) (hk : s.id ≤ k)
    (as : List Activity) : Neat ts s (caseLines s i last k as) := by
  induction as generalizing i last k with
  | nil => exact .nil
  | cons a as ih =>
    refine Neat.append ?_ (ih (i + 1) (by simp [casePlace]) (Nat.le_add_right_of_le hk))
    simp +decide [Neat, casePlace, hlast, Nat.le_add_right_of_le hk]

theorem numberedFrom_lastCase (i : Nat) (hlast : NumberedFrom s.id last) (as : List Activity) :
    NumberedFrom s.id (lastCase s i last as) := by
  induction as generalizing i last with
  | nil => exact hlast
  | cons a as ih => exact ih (i + 1) (by simp [casePlace])

theorem numberedFrom_closings {as : List Activity} {n : String} (hk : s.id ≤ k)
    (h : n ∈ closings k as) : NumberedFrom s.id n := by
  induction as generalizing k with
  | nil => cases h
  | cons a as ih =>
    rcases List.mem_cons.1 h with rfl | h
    · simpa using Nat.le_add_right_of_le hk
    · exact ih (Nat.le_add_right_of_le hk) h

/-- The lines of a switch are inside the net. -/
theorem neat_switchLines (s : Scope) (as : List Activity) (fallback : Option Activity) :
    Neat ts s (switchLines s as fallback) := by
  have hstart : NumberedFrom s.id s.initialized := by simp
  unfold switchLines
  refine ((neat_caseLines s 1 hstart (Nat.le_refl _) as).append ?_).append ?_
  · have hlast := numberedFrom_lastCase 1 hstart as
    have hnext : s.id ≤ s.id + sizes as + 1 := by omega
    cases fallback <;> simp +decide [Neat, hlast, hnext]
  · intro l hl
    obtain ⟨n, hn, rfl⟩ := List.mem_map.1 hl
    simp [numberedFrom_closings (Nat.le_refl _) hn]

/-- The lines of a loop are inside the net. -/
theorem neat_loopLines (s : Scope) (test : LoopTest) (body : Option Activity) :
    Neat ts s (loopLines s test body) := by
  cases test <;> cases body <;> simp +decide [Neat, loopLines]

/-- The lines of parallel branches are inside the net. -/
theorem neat_parallelLines (s : Scope) (as : List Activity) : Neat ts s (parallelLines s as) := by
  match as with
  | [] => exact neat_around s
  | [a] => exact neat_around s
  | a :: b :: as =>
    -- The arcs of the first branch are enough for both transitions.
    have hfirst : Neat ts s ([.transition (s.name "split") .internal,
        .transition (s.name "join") .internal, .arc .consumes s.initialized (s.name "split"),
        .arc .produces s.closed (s.name "join")] ++ parallelBranchLines s s.id a) := by
      simp +decide [Neat, parallelBranchLines]
    refine hfirst.append (.numberedLines (fun c _ k hk => ?_) (Nat.le_add_right ..))
    simp +decide [Neat, parallelBranchLines, Nat.le_add_right_of_le hk]

/-- The lines of a choice by triggers are inside the net. -/
theorem neat_pickLines (s : Scope) (bs : List (PickBranch Activity)) :
    Neat ts s (pickLines s bs) := by
  unfold pickLines
  split
  · exact neat_around s
  · refine .numberedLines (fun b _ k hk => ?_) (Nat.le_refl _)
    obtain ⟨trigger, action⟩ := b
    have hnext : s.id ≤ k + 1 := Nat.le_add_right_of_le hk
    have hlast : s.id ≤ k + (trigger.getD .empty).size + 1 := by omega
    cases action <;> simp [Neat, pickBranchLines, hnext, hlast]

/-! ## Flowcharts -/

theorem neat_nodeCaseLines {id : String} (hid : Spelled ts id) (n i : Nat)
    (hlast : NumberedFrom s.id last) : Neat ts s (nodeCaseLines s id n i last) ∧
      NumberedFrom s.id (nodeLastCase s id n i last) := by
  induction n generalizing i last with
  | zero => exact ⟨.nil, hlast⟩
  | succ n ih =>
    have hnext : NumberedFrom s.id (nodeName s id ("condition" ++ toString i)) := by simp
    obtain ⟨hrest, hend⟩ := ih (i + 1) hnext
    refine ⟨Neat.append ?_ hrest, hend⟩
    simp +decide [Neat, hlast, hid]

/-- The lines of a node are inside the net and spelled with its id. -/
theorem neat_nodeLines {node : FlowNode Activity} (hid : Spelled ts node.id) (hk : s.id ≤ k) :
    Neat ts s (nodeLines s k node) := by
  cases node with
  | step id inner next =>
    have hid : Spelled ts id := hid
    simp +decide [Neat, nodeLines, spliceLines, hid, Nat.le_add_right_of_le hk]
  | decision id onTrue onFalse =>
    have hid : Spelled ts id := hid
    simp +decide [Neat, nodeLines, hid]
  | switch id fallback cases =>
    have hid : Spelled ts id := hid
    have hstart : NumberedFrom s.id (nodeName s id "start") := by simp
    obtain ⟨hcases, hlast⟩ := neat_nodeCaseLines hid cases.length 1 hstart
    refine Neat.append (Neat.append ?_ hcases) ?_
    · simp +decide [Neat, hid]
    · simp +decide [Neat, hlast, hid]

theorem neat_edgeLine {place : String} (hplace : NumberedFrom s.id place)
    (target : Option String) : Neat ts s [edgeLine s place target] := by
  cases target <;> simp [Neat, edgeLine, hplace]

theorem neat_caseEdgeLines (id : String) (i : Nat) (edges : List (Option String)) :
    Neat ts s (caseEdgeLines s id i edges) := by
  induction edges generalizing i with
  | nil => exact .nil
  | cons edge edges ih => exact (neat_edgeLine (by simp) edge).append (ih (i + 1))

theorem neat_edgeLines (s : Scope) (node : FlowNode Activity) : Neat ts s (edgeLines s node) := by
  have hedge (id label : String) (target : Option String) :
      Neat ts s [edgeLine s (nodeName s id label) target] := neat_edgeLine (by simp) target
  cases node with
  | step id inner next => exact hedge id "next" next
  | decision id onTrue onFalse => exact (hedge id "true" onTrue).append (hedge id "false" onFalse)
  | switch id fallback cases =>
    exact (hedge id "default" fallback).append (neat_caseEdgeLines id 1 cases)

/-- The lines of a flowchart are inside the net. -/
theorem neat_flowchartLines (s : Scope) {start : Option String} {nodes : List (FlowNode Activity)}
    (hids : start.isSome → ∀ node ∈ nodes, Spelled ts node.id) :
    Neat ts s (flowchartLines s start nodes) := by
  cases start with
  | none => exact neat_around s
  | some start =>
    have hstart : Neat ts s [.joins s.initialized (nodeName s start "start")] := by
      simp [Neat]
    have hnodes : Neat ts s (numberedLines (nodeLines s) FlowNode.built s.id nodes) :=
      .numberedLines (fun node hnode k hk => neat_nodeLines (hids rfl node hnode) hk)
        (Nat.le_refl _)
    exact hnodes.append (hstart.append (.flatMap fun node _ => neat_edgeLines s node))

/-! ## State machines -/

section StateMachine

variable {state : String} (hstate : Named ts s state)
include hstate

theorem named_guardName (hc : c.state = state) (hlabel : Spelled ts c.label) {x : String}
    (hx : Spelled ts x) : Named ts s (c.name x) := by
  rw [GuardChain.name, hc]
  exact ⟨(((hstate.owns.append _).append _).append _).append _,
    by simp +decide [hstate.spelled, hlabel, hx]⟩

theorem neat_candidateLines (hc : c.state = state) (hlabel : Spelled ts c.label)
    (hwaiting : NumberedFrom s.id c.waiting) (k : Nat) (hlast : NumberedFrom s.id last)
    (bs : List Candidate) : Neat ts s (candidateLines c k last bs) := by
  have haction (b : Candidate) : NumberedFrom s.id (c.action b) := by
    rw [GuardChain.action, hc]
    exact (((hstate.owns.append _).append _).append _).numberedFrom
  have hname {x : String} (hx : x.toList.all isPlain = true) (i : Nat) :
      Named ts s (c.name (x ++ i.repr)) :=
    named_guardName hstate hc hlabel (by simp [hx])
  have hstart := hname (x := "start") (by decide)
  have heval := hname (x := "eval") (by decide)
  have hwrong := hname (x := "wrong") (by decide)
  have hcondition := hname (x := "condition") (by decide)
  have hrun := hname (x := "runcondition") (by decide)
  induction bs generalizing k last with
  | nil => exact .nil
  | cons b bs ih =>
    rw [candidateLines]
    split
    · split
      · rw [← List.append_assoc, ← List.cons_append]
        refine Neat.append ?_ (ih (k + 1) hlast)
        simp [Neat, hstart, heval, hwrong, hcondition, (hcondition k).numberedFrom, haction, hlast,
          hwaiting]
      · rw [← List.append_assoc, ← List.cons_append]
        refine Neat.append ?_ (ih (k + 1) (hrun (k + 1)).numberedFrom)
        simp [Neat, hstart, heval, hwrong, hcondition, hrun, (hcondition k).numberedFrom,
          (hrun (k + 1)).numberedFrom, haction, hlast]
    · rw [← List.cons_append]
      refine Neat.append ?_ (ih (k + 1) hlast)
      simp [Neat, hstart, haction, hlast]

/-- The lines of a guard chain are inside the net. -/
theorem neat_guardLines (hc : c.state = state) (hlabel : Spelled ts c.label)
    (hwaiting : NumberedFrom s.id c.waiting) {fired on : String}
    (hfired : NumberedFrom s.id fired) (hon : Named ts s on) (bs : List Candidate) :
    Neat ts s (guardLines c fired on bs) := by
  have hfirst := named_guardName hstate hc hlabel (x := "runcondition1") (by simp +decide)
  refine Neat.append ?_ (neat_candidateLines hstate hc hlabel hwaiting 1 hfirst.numberedFrom bs)
  simp [Neat, hfirst, hfirst.numberedFrom, hfired, hon]

/-- The names of a state begin with that of the state. -/
theorem numberedFrom_append (x : String) : NumberedFrom s.id (state ++ x) :=
  (hstate.owns.append x).numberedFrom

theorem neat_entryLines (hk : s.id ≤ k) (entry : Option Activity) :
    Neat ts s (entryLines state k entry) := by
  cases entry <;> simp +decide [Neat, entryLines, enclosedLines, spliceLines, hstate,
    numberedFrom_append hstate, Nat.le_add_right_of_le hk]

theorem numberedFrom_entryEnd (entry : Option Activity) :
    NumberedFrom s.id (entryEnd state entry) := by
  cases entry <;> exact numberedFrom_append hstate _

theorem neat_exitLines (hk : s.id ≤ k) (exit : Option Activity) :
    Neat ts s (exitLines state k exit) := by
  cases exit <;> simp +decide [Neat, exitLines, enclosedLines, spliceLines, hstate,
    numberedFrom_append hstate, Nat.le_add_right_of_le hk]

theorem numberedFrom_exitEnds (exit : Option Activity) :
    NumberedFrom s.id (exitEnds state exit).1 ∧ NumberedFrom s.id (exitEnds state exit).2 := by
  cases exit <;> exact ⟨numberedFrom_append hstate _, numberedFrom_append hstate _⟩

/-- The lines of a transition are inside the net. -/
theorem neat_wayLines {exit : String × String}
    (hexit : NumberedFrom s.id exit.1 ∧ NumberedFrom s.id exit.2) (i : Nat) (hk : s.id ≤ k)
    {t : StateTransition Activity} (ht : Spelled ts t.target) :
    Neat ts s (wayLines state exit i k t) := by
  have hway : Named ts s (state ++ ".t" ++ i.repr) :=
    ⟨(hstate.owns.append _).append _, by simp +decide [hstate.spelled]⟩
  have htarget : Named ts s (targetName state i t.target) :=
    ⟨(((hstate.owns.append _).append _).append _).append _,
      by simp +decide [targetName, hstate.spelled, ht]⟩
  refine Neat.append ?_ ?_
  · cases t.action <;> simp +decide [Neat, actionLines, spliceLines, hway,
      numberedFrom_append hway, Nat.le_add_right_of_le hk]
  · cases t.action <;> simp +decide [Neat, actionEnd, hway, numberedFrom_append hway, hexit,
      htarget, htarget.numberedFrom]

theorem neat_transitionLines {exit : String × String}
    (hexit : NumberedFrom s.id exit.1 ∧ NumberedFrom s.id exit.2) (i : Nat) (hk : s.id ≤ k)
    {ways : List (StateTransition Activity)} (hways : ∀ t ∈ ways, Spelled ts t.target) :
    Neat ts s (transitionLines state exit i k ways) := by
  induction ways generalizing i k with
  | nil => exact .nil
  | cons t ways ih =>
    exact (neat_wayLines hstate hexit i hk (hways t (List.mem_cons_self ..))).append
      (ih (i + 1) (Nat.le_add_right_of_le hk) fun t ht => hways t (List.mem_cons_of_mem _ ht))

/-- The lines of a trigger are inside the net. -/
theorem neat_triggerLines {entryDone : String} (hdone : NumberedFrom s.id entryDone)
    (triggers : List (String × Activity)) (ways : List (StateTransition Activity))
    (hk : s.id ≤ k) {key : String} (hkey : Spelled ts key) :
    Neat ts s (triggerLines state entryDone triggers ways k key) := by
  have hkeyed : Named ts s (state ++ ".trigger." ++ key) :=
    ⟨(hstate.owns.append _).append _, by simp +decide [hstate.spelled, hkey]⟩
  have hin := hkeyed.append (x := ".in") (by simp +decide)
  have hout := hkeyed.append (x := ".out") (by simp +decide)
  have hplaces : Neat ts s [.place (state ++ ".trigger." ++ key ++ ".in") .internal,
      .place (state ++ ".trigger." ++ key ++ ".out") .internal] := by
    simp [Neat, hin, hout]
  have hjoin : Neat ts s [.joins entryDone (state ++ ".trigger." ++ key ++ ".in")] := by
    simp [Neat, hdone, hin.numberedFrom]
  refine (hplaces.append ?_).append (hjoin.append
    (neat_guardLines hstate rfl hkey hin.numberedFrom hout.numberedFrom ?_ _))
  · split
    · exact neat_spliceLines hin.numberedFrom hout.numberedFrom hk
    · exact .nil
  · exact ⟨(hstate.owns.append _).append _, by simp +decide [hstate.spelled, hkey]⟩

theorem neat_untriggeredLines {entryDone : String} (hdone : NumberedFrom s.id entryDone)
    (ways : List (StateTransition Activity)) :
    Neat ts s (untriggeredLines state entryDone ways) := by
  have htrigger : NumberedFrom s.id (state ++ ".trigger") := numberedFrom_append hstate _
  unfold untriggeredLines
  split
  · exact .nil
  · refine Neat.append ?_ (neat_guardLines hstate rfl ?_ htrigger htrigger ?_ _)
    · simp +decide [Neat, hdone, hstate, htrigger]
    · simp +decide
    · simp +decide [hstate]

end StateMachine

/-- The lines of a state are inside the net. -/
theorem neat_stateLines (triggers : List (String × Activity)) (hk : s.id ≤ k)
    {st : State Activity} (hid : Spelled ts st.id)
    (hways : st.isFinal = false → ∀ t ∈ st.transitions, Spelled ts t.target ∧
      ∀ key ∈ t.trigger, Spelled ts key) : Neat ts s (stateLines s triggers k st) := by
  have hstate : Named ts s (s.name st.id) := named_name.2 hid
  have hdone := numberedFrom_entryEnd hstate st.entry
  unfold stateLines
  refine (neat_entryLines hstate hk st.entry).append ?_
  split
  · simp +decide [Neat, hdone, hstate, numberedFrom_append hstate]
  · rename_i hfinal
    have hways := hways (by simpa using hfinal)
    refine (((neat_exitLines hstate (by omega) st.exit).append
      (neat_transitionLines hstate (numberedFrom_exitEnds hstate st.exit) 1 (by omega)
        fun t ht => (hways t ht).1)).append
      (.numberedLines (fun key hkey k hk => ?_) (by omega))).append
      (neat_untriggeredLines hstate hdone _)
    obtain ⟨t, ht, htrigger⟩ := List.mem_filterMap.1 (OrderedSet.mem_ofList.1 hkey)
    exact neat_triggerLines hstate hdone _ _ hk ((hways t ht).2 key htrigger)

theorem neat_targetLines (s : Scope) (id : String) (i : Nat)
    (ways : List (StateTransition Activity)) : Neat ts s (targetLines s id i ways) := by
  induction ways generalizing i with
  | nil => exact .nil
  | cons t ways ih =>
    have htarget : NumberedFrom s.id (targetName (s.name id) i t.target) :=
      (((((s.owns_name id).append _).append _).append _).append _).numberedFrom
    refine Neat.append (L := [_]) ?_ (ih (i + 1))
    simp [Neat, htarget]

/-- The lines of a state machine are inside the net. -/
theorem neat_machineLines (s : Scope) (initial : Option String) {states : List (State Activity)}
    (triggers : List (String × Activity)) (hids : ∀ st ∈ states, Spelled ts st.id)
    (hways : ∀ st ∈ states, st.isFinal = false → ∀ t ∈ st.transitions, Spelled ts t.target ∧
      ∀ key ∈ t.trigger, Spelled ts key) :
    Neat ts s (machineLines s initial states triggers) := by
  refine ((Neat.append (.numberedLines (fun st hst k hk => ?_) (Nat.le_refl _)) ?_).append
    ?_).append (.flatMap fun st _ => neat_targetLines s st.id 1 st.transitions)
  · exact neat_stateLines triggers hk (hids st hst) (hways st hst)
  · cases initial <;> simp [Neat]
  · intro l hl
    obtain ⟨st, -, rfl⟩ := List.mem_map.1 hl
    simp

/-! ## Activities -/

/-- Unless it is the exchange of a message, an activity draws only inside the net. -/
theorem neat_lines {a : Activity} (h : ∀ m, a ≠ .messaging m) (k : Nat) :
    Neat a.texts ⟨k⟩ (a.lines k) := by
  refine (neat_endLines _).append ?_
  cases a with
  | messaging m => exact absurd rfl (h m)
  | atomic a => exact neat_stepLines _ (spelled_of_mem (List.mem_singleton_self _))
  | empty => exact neat_stepLines _ (by simp +decide)
  | sequence children => exact neat_sequenceLines _ _
  | conditional onTrue onFalse => exact neat_conditionalLines _ _ _
  | switch cases fallback => exact neat_switchLines _ _ _
  | loop test body => exact neat_loopLines _ _ _
  | parallel branches => exact neat_parallelLines _ _
  | pick branches => exact neat_pickLines _ _
  | flowchart start nodes =>
    refine neat_flowchartLines _ fun hstart node hnode => spelled_of_mem ?_
    obtain ⟨start, rfl⟩ := Option.isSome_iff_exists.1 hstart
    exact List.mem_map_of_mem hnode
  | stateMachine initial states triggers =>
    refine neat_machineLines _ initial triggers (fun st hst => spelled_of_mem ?_)
      fun st hst hfinal t ht => ?_
    · exact List.mem_flatMap.2 ⟨st, hst, List.mem_cons_self ..⟩
    · have htext {x : String} (hx : x = t.target ∨ x ∈ t.trigger) :
          Spelled (stateMachine initial states triggers).texts x := by
        refine spelled_of_mem (List.mem_flatMap.2 ⟨st, hst, List.mem_cons_of_mem _ ?_⟩)
        rw [hfinal, if_neg Bool.false_ne_true]
        refine List.mem_flatMap.2 ⟨t, ht, ?_⟩
        simpa [List.mem_cons, Option.mem_toList] using hx
      exact ⟨htext (.inl rfl), fun key hkey => htext (.inr hkey)⟩

/-- A line of an activity stays inside the net, or it belongs to the exchange of a message. -/
theorem lines_cases {a : Activity} {l : Line} (hl : l ∈ a.lines k) :
    l.Inside a.texts ⟨k⟩ ∨ ∃ m, a = .messaging m ∧ l ∈ messageLines ⟨k⟩ m := by
  by_cases hm : ∃ m, a = .messaging m
  · obtain ⟨m, rfl⟩ := hm
    rcases List.mem_append.1 hl with hl | hl
    · exact .inl (neat_endLines _ l hl).1
    · exact .inr ⟨m, rfl, hl⟩
  · exact .inl (neat_lines (fun m heq => hm ⟨m, heq⟩) k l hl).1

/-- Transitions have the number of their fragment. -/
theorem owns_of_transition {a : Activity} {t : String} {kind : NodeKind}
    (h : .transition t kind ∈ a.lines k) : Scope.Owns ⟨k⟩ t := by
  rcases lines_cases h with hinside | ⟨m, -, hl⟩
  · exact hinside.2.owns
  · simp only [messageLines, List.mem_cons, Line.transition.injEq, List.not_mem_nil, or_false,
      false_or, reduceCtorEq] at hl
    exact hl.1 ▸ Scope.owns_name ..

/-- The transition of an arc has the number of the fragment. -/
theorem owns_of_arc {a : Activity} {flow : ArcKind} {n t : String}
    (h : .arc flow n t ∈ a.lines k) : Scope.Owns ⟨k⟩ t := by
  rcases lines_cases h with hinside | ⟨m, -, hl⟩
  · exact hinside.2.owns
  · simp only [messageLines, List.mem_cons, Line.arc.injEq, List.not_mem_nil, or_false, false_or,
      reduceCtorEq] at hl
    rcases hl with ⟨-, -, rfl⟩ | ⟨-, -, rfl⟩ | ⟨-, -, rfl⟩ <;> exact Scope.owns_name ..

end Activity

end OpenWorkflow
