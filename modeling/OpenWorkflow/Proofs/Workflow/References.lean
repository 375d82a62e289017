import OpenWorkflow.Proofs.Workflow.Replacement

/-!
# Two ways to write an edge

An edge of a flowchart can be given by an attribute that refers to a node, or by a property
element that holds a reference. For the start of a flowchart, for both edges of a decision and
for the default of a switch it makes no difference (`reference_forms`): while the children before
the property element are read, the two drafts differ in that edge only, and the property element
makes them the same. For the edge out of a step only the property element counts; the attribute
is not read.
-/

namespace OpenWorkflow

open OpenWorkflow.Markup (Token Element activityName languageName)
open OpenWorkflow.Markup.Namespace (activities language)

/-! ## References -/

/-- The value of an attribute that refers to a node. -/
def referenceValue (id : String) : String := "\x7bx:Reference " ++ id ++ "\x7d"

/-- The name of the property element for an edge. -/
def propertyName (node prop : String) : String := node ++ "." ++ prop

/-- A property element that holds nothing but a reference to a node. -/
inductive IsEdge (name id : String) : Element → Prop
  | intro (attributes reference : OrderedMap String String) (children : List Element)
      (h : reference.get? "Reference" = some id) : IsEdge name id
        (.node activities name attributes
          [.node language "Reference" reference children])

theorem IsEdge.qname {name id : String} {edge : Element} (h : IsEdge name id edge) :
    edge.qname = activityName name := by
  cases h
  rfl

/-- A name that can be referred to: a word without braces. -/
structure IsReference (id : String) : Prop where
  ne_empty : id ≠ ""
  chars : ∀ c ∈ id.toList, Text.isBlank c = false ∧ c ≠ '\x7b' ∧ c ≠ '\x7d'

namespace Reader

/-- A name without brace at its front stands for itself. -/
theorem referenceName_self {id : String} (h : IsReference id) : referenceName id = id := by
  unfold referenceName
  split
  · rename_i rest hlist
    have hbrace := (h.chars '\x7b' (by rw [hlist]; exact List.mem_cons_self ..)).2.1
    exact absurd rfl hbrace
  · rfl

/-- A reference is read back. -/
theorem referenceName_value {id : String} (h : IsReference id) :
    referenceName (referenceValue id) = id := by
  have hlist : (referenceValue id).toList
      = '\x7b' :: ("x:Reference".toList ++ ' ' :: id.toList ++ ['\x7d']) := by
    simp [referenceValue]
  have hwords : Text.words ("x:Reference".toList ++ ' ' :: id.toList)
      = ["x:Reference".toList, id.toList] := by
    have hword : ("x:Reference".toList.all fun c => !Text.isBlank c) = true := by decide
    have hblank (c : Char) (hc : c ∈ "x:Reference".toList) : Text.isBlank c = false := by
      simpa using List.all_eq_true.1 hword c hc
    have hid : id.toList.isEmpty = false := by simp [h.ne_empty]
    rw [Text.words, Text.pieces_append hblank (by decide),
      Text.pieces_of_forall fun c hc => (h.chars c hc).1]
    simp [hid]
  unfold referenceName
  rw [hlist]
  simp only [List.getLast?_concat, ite_true, List.dropLast_concat, hwords]
  simp

/-! ## Readers -/

open OpenWorkflow.Parser (Agree Pair Consumes Gathers)

variable {owner id name : String} {n : Nat} {rest r r' : List Token}

/-- A loop that skips elements. -/
theorem gathers_skip (es : List Element) :
    Gathers (fun _ => do let _ ← Parser.skipElement owner) () es () := by
  induction es with
  | nil => exact .nil ()
  | cons e es ih => exact .cons ((Consumes.skipElement e).map fun _ => ()) ih

theorem reference_consumes (hid : IsReference id) {attributes : OrderedMap String String}
    (h : attributes.get? "Reference" = some id) (es : List Element) :
    Consumes (reference owner) (Element.node language "Reference" attributes es).tokens
      id := by
  refine (gathers_skip es).enclosed ?_
  simp only [Token.attribute?, h, referenceName_self hid]
  exact .pure

namespace Flowchart

variable {child child' : ChildReader} {node node' : NodeReader} {c edge : Element}

/-- The target of an edge is read from its element. -/
theorem target_consumes {e : Element} {g : Graph} {result : Option String × Graph}
    (h : Consumes (node g) e.tokens result) (attributes : OrderedMap String String) :
    Consumes (target node (activityName name) g)
      (Element.node activities name attributes [e]).tokens result := by
  intro rest c
  rw [Element.tokens_node_append, Element.length_tokens_node]
  simp only [target, activityName, Bind.bind, EStateM.bind, Pure.pure, EStateM.pure,
    Consumes.expectStart, Parser.atEndOf, Markup.tokensAll_singleton, Consumes.atEndOf,
    Bool.false_eq_true, ite_false, h _ (c + 1), Consumes.expectEnd]
  rw [Nat.add_right_comm c 1, Nat.add_assoc, Nat.add_assoc]

theorem node_consumes (hid : IsReference id) {attributes : OrderedMap String String}
    (h : attributes.get? "Reference" = some id) (es : List Element) (k : Nat) (g : Graph) :
    Consumes (Flowchart.node child (k + 1) g)
      (Element.node language "Reference" attributes es).tokens (some id, g) := by
  have hqname : (Element.node language "Reference" attributes es).start.qname
      = languageName "Reference" := rfl
  refine .peekStart ?_
  simp only [hqname, Markup.languageName_ne_activityName, ite_false, ite_true]
  exact (reference_consumes hid h es).map fun id => (some id, g)

/-- The node that a property element refers to. -/
theorem target_edge (hid : IsReference id) (hedge : IsEdge name id edge) (k : Nat) (g : Graph) :
    Consumes (target (Flowchart.node child (k + 1)) (activityName name) g) edge.tokens
      (some id, g) := by
  obtain ⟨attributes, reference, children, h⟩ := hedge
  exact target_consumes (node_consumes hid h children k g) attributes

/-- One of the edges of a decision is known. -/
def DecisionDraft.aim (d : DecisionDraft) (id : String) : Bool → DecisionDraft
  | true => { d with onTrue := some id }
  | false => { d with onFalse := some id }

/-- The name of that edge. -/
def decisionEdge : Bool → String
  | true => "True"
  | false => "False"

theorem decisionPart_edge (b : Bool) (hid : IsReference id)
    (hedge : IsEdge (propertyName "FlowDecision" (decisionEdge b)) id edge) (k : Nat)
    (d : DecisionDraft) :
    Consumes (decisionPart (Flowchart.node child (k + 1)) d) edge.tokens (d.aim id b) := by
  have htarget : Consumes (target (Flowchart.node child (k + 1)) _ d.graph) edge.tokens _ :=
    target_edge hid hedge k d.graph
  cases b with
  | true => exact .atStart hedge.qname (htarget.andThen .pure)
  | false =>
    refine .notAtStart ?_ (.atStart hedge.qname (htarget.andThen .pure))
    rw [hedge.qname, ne_eq, Markup.activityName_inj]
    decide

theorem switchPart_edge (hid : IsReference id) (hedge : IsEdge "FlowSwitch.Default" id edge)
    (k : Nat) (d : SwitchDraft) : Consumes (switchPart (Flowchart.node child (k + 1)) d) edge.tokens
      { d with fallback := some id } :=
  .atStart hedge.qname ((target_edge hid hedge k d.graph).andThen .pure)

theorem part_edge (hid : IsReference id) (hedge : IsEdge "Flowchart.StartNode" id edge) (k : Nat)
    {d : Draft} (hd : d.start = none) :
    Consumes (part (Flowchart.node child (k + 1)) d) edge.tokens { d with start := some id } := by
  obtain ⟨graph, start⟩ := d
  obtain rfl : start = none := hd
  obtain ⟨attributes, reference, children, h⟩ := hedge
  have hstart : Consumes (startNode (Flowchart.node child (k + 1)) ⟨graph, none⟩)
      (Element.node language "Reference" reference children).tokens ⟨graph, some id⟩ :=
    (node_consumes hid h children k graph).andThen .pure
  have hcloses : (Token.ending activities "Flowchart.StartNode").closes
      (activityName "Flowchart.StartNode") = true := by
    simp [Token.closes, Token.ending, Token.qname, activityName]
  refine .atStart rfl fun rest c => ?_
  rw [Element.tokens_node_append, Element.length_tokens_node]
  simp only [Bind.bind, EStateM.bind, Parser.nextToken,
    (Gathers.cons hstart (.nil _)).untilEnd hcloses]
  rw [activityName, Consumes.expectEnd, Nat.add_right_comm c 1, Nat.add_assoc, Nat.add_assoc]
  rfl

theorem node_alike (h : Alike 0 r n child child') {k k' : Nat} (hk : n ≤ k) (hk' : n ≤ k') :
    Alike 0 r n (Flowchart.node child k) (Flowchart.node child' k') :=
  h.nodes (fun _ _ _ _ _ _ _ _ => trivial) ⟨hk, hk'⟩

section

variable (hnode : ∀ r, Alike 0 r n node node') (hnode' : ∀ r, Alike 0 r n node' node')
include hnode hnode'

theorem target_front (hc : c.tokens.length ≤ n) (hname : name ∉ Markup.flowNames) (g : Graph) :
    Agree (Pair (c.tokens ++ r) (c.tokens ++ r')) (Pair r r') Eq
      (target node (activityName name) g) (target node' (activityName name) g) :=
  .element (fun r => Comparison.Below.target (C := .local 0 r) (i := (0, n)) (hnode r) hname g)
    (fun r => Comparison.Below.target (C := .local 0 r) (i := (0, n)) (hnode' r) hname g) hc

theorem node_front (hc : c.tokens.length < n) (g : Graph) :
    Agree (Pair (c.tokens ++ r) (c.tokens ++ r')) (Pair r r') Eq (node g) (node' g) :=
  .element (fun r => hnode r (0, _) hc g) (fun r => hnode' r (0, _) hc g) le_rfl

/-- Any other part of a decision leaves the edge as it is. -/
theorem decisionPart_aim (b : Bool) (hc : c.tokens.length ≤ n)
    (hname : c.qname ≠ activityName (propertyName "FlowDecision" (decisionEdge b)))
    (d : DecisionDraft) :
    Agree (Pair (c.tokens ++ r) (c.tokens ++ r')) (Pair r r') (fun d d' => d = d'.aim id b)
      (decisionPart node (d.aim id b)) (decisionPart node' d) := by
  refine .atElement (fun h => ?_) fun _ => .atElement (fun h => ?_) fun _ =>
    .atElement (fun _ => .bind .skipFront fun _ => .pure rfl) fun _ =>
      .atElement (fun _ => .bind .skipFront fun _ => .pure rfl) fun _ => .unexpected
  · cases b with
    | true => exact absurd h hname
    | false => exact .bind (target_front hnode hnode' hc (by decide) _) fun _ => .pure rfl
  · cases b with
    | true => exact .bind (target_front hnode hnode' hc (by decide) _) fun _ => .pure rfl
    | false => exact absurd h hname

theorem switchPart_fallback (hc : c.tokens.length < n)
    (hname : c.qname ≠ activityName "FlowSwitch.Default") (d : SwitchDraft) :
    Agree (Pair (c.tokens ++ r) (c.tokens ++ r')) (Pair r r')
      (fun d d' => d = { d' with fallback := some id })
      (switchPart node { d with fallback := some id }) (switchPart node' d) := by
  refine .atElement (fun h => absurd h hname) fun _ =>
    .atElement (fun _ => .bind .skipFront fun _ => .pure rfl) fun _ =>
      .atElement (fun _ => .bind .skipFront fun _ => .pure rfl) fun _ => ?_
  exact .bind (node_front hnode hnode' hc _) fun _ => .pure rfl

theorem part_start (hc : c.tokens.length < n)
    (hname : c.qname ≠ activityName "Flowchart.StartNode") {d : Draft} (hd : d.start = none) :
    Agree (Pair (c.tokens ++ r) (c.tokens ++ r')) (Pair r r')
      (fun d d' => d'.start = none ∧ d = { d' with start := some id })
      (part node { d with start := some id }) (part node' d) := by
  refine .atElement (fun h => absurd h hname) fun _ => ?_
  exact .bind (node_front hnode hnode' hc _) fun _ => .pure ⟨hd, rfl⟩

end

/-! ## Both forms -/

/-- An edge with an attribute and a property element for it, which is not among the children `cs`
before. -/
structure TwoForms (name prop id : String) (attributes : OrderedMap String String)
    (cs : List Element) (edge : Element) : Prop where
  reference : IsReference id
  value : attributes.get? prop = some (referenceValue id)
  property : IsEdge (propertyName name prop) id edge
  once : ∀ c ∈ cs, c.qname ≠ activityName (propertyName name prop)

/-- One reader makes of an element what the other makes of the element without an attribute, with
other children. -/
def ReadsAs {α : Type} (name prop : String) (attributes : OrderedMap String String)
    (cs cs' : List Element) (rest : List Token) (p q : Parser α) : Prop :=
  Agree (Pair ((Element.node activities name attributes cs).tokens ++ rest)
      ((Element.node activities name (attributes.erase prop) cs').tokens ++ rest))
    (Pair rest rest) Eq p q

section

variable {attributes : OrderedMap String String} {cs ds : List Element} {k k' : Nat}
  (hn : n = (Element.tokensAll (cs ++ ds)).length + 2)
  (hchild : ∀ r, Alike 0 r n child child') (hchild' : ∀ r, Alike 0 r n child' child')
include hn hchild hchild'

/-- A decision is read alike from an attribute and from an element. -/
theorem decision_forms (b : Bool)
    (h : TwoForms "FlowDecision" (decisionEdge b) id attributes cs edge) (hk : n ≤ k) (hk' : n ≤ k')
    (g : Graph) :
    ReadsAs "FlowDecision" (decisionEdge b) attributes (cs ++ ds) (cs ++ edge :: ds) rest
      (decision (Flowchart.node child k) g) (decision (Flowchart.node child' k') g) := by
  obtain ⟨k', rfl⟩ := Nat.exists_eq_succ_of_ne_zero (by omega : k' ≠ 0)
  have hnode (r : List Token) := node_alike (hchild r) hk hk'
  have hnode' (r : List Token) := node_alike (hchild' r) hk' hk'
  have hlabel : (attributes.erase (decisionEdge b)).get? "x:Name" = attributes.get? "x:Name" := by
    cases b <;> simp [OrderedMap.get?_erase, decisionEdge]
  refine .inside ?_
  simp only [Token.attribute?, hlabel]
  -- Up to the property element the drafts differ in the edge, which only the attribute has given.
  refine .untilEnd_extra (D := fun d d' => d = d'.aim id b)
    (fun r => (hnode r).decisionPart)
    (fun r => (hnode' r).decisionPart) (fun m d r => .close) ?_ ?_ hn.ge ?_
  · rintro c hc r r' _ d rfl
    have hlength := Markup.length_tokens_le (List.mem_append_left ds hc)
    exact decisionPart_aim hnode hnode' b (by omega) (h.once c hc) d
  · rintro _ d rfl
    exact decisionPart_edge b h.reference h.property k' d
  · have hattr := h.value
    cases b <;> simp only [decisionEdge] at hattr <;>
      simp [edge?, Token.attribute?, hattr, OrderedMap.get?_erase, decisionEdge, DecisionDraft.aim,
        referenceName_value h.reference]

theorem switch_forms (h : TwoForms "FlowSwitch" "Default" id attributes cs edge) (hk : n ≤ k)
    (hk' : n ≤ k') (g : Graph) :
    ReadsAs "FlowSwitch" "Default" attributes (cs ++ ds) (cs ++ edge :: ds) rest
      (switch (Flowchart.node child k) g) (switch (Flowchart.node child' k') g) := by
  obtain ⟨k', rfl⟩ := Nat.exists_eq_succ_of_ne_zero (by omega : k' ≠ 0)
  have hnode (r : List Token) := node_alike (hchild r) hk hk'
  have hnode' (r : List Token) := node_alike (hchild' r) hk' hk'
  have hlabel : (attributes.erase "Default").get? "x:Name" = attributes.get? "x:Name" := by
    simp [OrderedMap.get?_erase]
  refine .inside ?_
  simp only [Token.attribute?, hlabel, edge?, h.value, Option.map_some,
    referenceName_value h.reference]
  refine .untilEnd_extra (D := fun d d' => d = { d' with fallback := some id })
    (fun r => (hnode r).flowSwitchPart)
    (fun r => (hnode' r).flowSwitchPart) (fun m d r => .close) ?_ ?_ hn.ge rfl
  · rintro c hc r r' _ d rfl
    have hlength := Markup.length_tokens_le (List.mem_append_left ds hc)
    exact switchPart_fallback hnode hnode' (by omega) (h.once c hc) d
  · rintro _ d rfl
    exact switchPart_edge h.reference h.property k' d

/-- A flowchart is read alike from an attribute and from an element. -/
theorem flowchart_forms (h : TwoForms "Flowchart" "StartNode" id attributes cs edge) :
    ReadsAs "Flowchart" "StartNode" attributes (cs ++ ds) (cs ++ edge :: ds) rest
      (flowchart child) (flowchart child') := by
  refine .inside (.remaining_pair ?_)
  have hlength : n ≤ (Element.tokensAll (cs ++ ds)
      ++ Token.ending activities "Flowchart" :: rest).length + 1 := by
    rw [hn]
    exact Markup.length_tokensAll_end ..
  have hlength' : n ≤ (Element.tokensAll (cs ++ edge :: ds)
      ++ Token.ending activities "Flowchart" :: rest).length + 1 := by
    rw [hn]
    have hle := Markup.length_tokensAll_le cs edge ds
    exact (Nat.add_le_add_right hle 2).trans (Markup.length_tokensAll_end ..)
  have hnode (r : List Token) := node_alike (hchild r) hlength hlength'
  have hnode' (r : List Token) := node_alike (hchild' r) hlength' hlength'
  simp only [edge?, Token.attribute?, h.value, OrderedMap.get?_erase, ite_true,
    Option.map_some, Option.map_none, referenceName_value h.reference]
  refine .untilEnd_extra (D := fun d d' => d'.start = none ∧ d = { d' with start := some id })
    (fun r => (hnode r).flowchartPart) (fun r => (hnode' r).flowchartPart)
    (fun m d r => ?_) ?_ ?_ hn.ge ⟨rfl, rfl⟩
  · exact (Comparison.local 0 r).bind (i := (0, m)) (B := .inside)
      (Comparison.flowchartCheck fun _ => Comparison.isRefusal_of_flowchartFault)
      fun _ => Comparison.close _
  · rintro c hc r r' _ d ⟨hd, rfl⟩
    have hle := Markup.length_tokens_le (List.mem_append_left ds hc)
    exact part_start hnode hnode' (by omega) (h.once c hc) hd
  · rintro _ d ⟨hd, rfl⟩
    exact part_edge h.reference h.property _ hd

/-- The start tag of a step is read for its label only. -/
theorem step_forms (hk : n ≤ k) (hk' : n ≤ k') (g : Graph) :
    ReadsAs "FlowStep" "Next" attributes (cs ++ ds) (cs ++ ds) rest
      (step child (Flowchart.node child k) g) (step child' (Flowchart.node child' k') g) := by
  have hnode (r : List Token) := node_alike (hchild r) hk hk'
  have hnode' (r : List Token) := node_alike (hchild' r) hk' hk'
  have hlabel : (attributes.erase "Next").get? "x:Name" = attributes.get? "x:Name" := by
    simp [OrderedMap.get?_erase]
  refine .inside ?_
  simp only [Token.attribute?, hlabel]
  exact .untilEnd_same (fun r => (hnode r).stepPart (hchild r))
    (fun r => (hnode' r).stepPart (hchild' r)) (fun m d r => .close) hn.ge _

end

end Flowchart

end Reader

/-! ## Interchangeable elements -/

open OpenWorkflow.Markup (Variants)
open OpenWorkflow.Parser (Agree Pair)
open OpenWorkflow.Reader (Alike)
open OpenWorkflow.Reader.Flowchart (decisionEdge TwoForms ReadsAs)

/-- The edges that a flowchart and its nodes have, each with the element out of which it leads. -/
def edgeProperties : List (String × String) :=
  [("Flowchart", "StartNode"), ("FlowStep", "Next"), ("FlowDecision", "True"),
    ("FlowDecision", "False"), ("FlowSwitch", "Default")]

section

variable {name prop id : String} {attributes : OrderedMap String String} {cs cs' ds : List Element}
  {edge : Element}

theorem Markup.Element.qname_start_node :
    (Element.node activities name attributes cs).start.qname = activityName name := rfl

theorem Markup.Variants.erase (hname : name ∈ Markup.flowNames) (hprop : "x:Name" ≠ prop) :
    Variants (.node activities name attributes cs)
      (.node activities name (attributes.erase prop) cs') where
  name := List.mem_map_of_mem hname
  same := rfl
  label := by simp [Element.start, Token.attribute?, OrderedMap.get?_erase, hprop]

namespace Interchangeable

/-- Nodes of a flowchart are no activities. -/
theorem of_node (hname : name ∈ Markup.flowNames) (hne : name ≠ "Flowchart")
    (hprop : "x:Name" ≠ prop)
    (hle : (Element.tokensAll cs).length ≤ (Element.tokensAll cs').length)
    (h : ∀ rest child child' k k' g,
      (∀ r, Alike 0 r ((Element.tokensAll cs).length + 2) child child') →
      (∀ r, Alike 0 r ((Element.tokensAll cs).length + 2) child' child') →
      (Element.tokensAll cs).length + 2 ≤ k → (Element.tokensAll cs).length + 2 ≤ k' →
      ReadsAs name prop attributes cs cs' rest (Reader.Flowchart.node child (k + 1) g)
        (Reader.Flowchart.node child' (k' + 1) g)) :
    Interchangeable (.node activities name attributes cs)
      (.node activities name (attributes.erase prop) cs') where
  toVariants := .erase hname hprop
  child := by
    intro rest k k' owner hk hk'
    obtain ⟨k, rfl⟩ := Nat.exists_eq_succ_of_ne_zero (by omega : k ≠ 0)
    obtain ⟨k', rfl⟩ := Nat.exists_eq_succ_of_ne_zero (by omega : k' ≠ 0)
    have hflow : ∀ name ∈ Markup.flowNames, name ≠ "Flowchart" →
        name ∉ Registry.standardTypes.map ActivityType.name := by decide +kernel
    refine .peekFront ?_
    simp only [Element.qname_start_node,
      Registry.resolve?_eq_none (hflow name hname hne)]
    exact .fail
  node := by
    intro rest k k' j j' g hk hk' hj hj'
    rw [Element.length_tokens_node] at hk hk' hj hj'
    obtain ⟨j, rfl⟩ := Nat.exists_eq_succ_of_ne_zero (by omega : j ≠ 0)
    obtain ⟨j', rfl⟩ := Nat.exists_eq_succ_of_ne_zero (by omega : j' ≠ 0)
    refine h rest _ _ j j' g (fun r => ?_) (fun r => ?_) (by omega) (by omega)
    · exact Registry.child_local Registry.resolve?_standard_ne_empty hk (by omega)
    · exact Registry.child_local Registry.resolve?_standard_ne_empty (by omega) (by omega)

theorem next : Interchangeable (.node activities "FlowStep" attributes (cs ++ ds))
    (.node activities "FlowStep" (attributes.erase "Next") (cs ++ ds)) := by
  refine of_node (by decide) (by decide) (by decide) le_rfl ?_
  intro rest child child' k k' g hchild hchild' hk hk'
  refine .peekFront ?_
  simp only [Element.qname_start_node, ite_true]
  exact .bind (Reader.Flowchart.step_forms rfl hchild hchild' hk hk' g) fun _ => .pure rfl

theorem decision (b : Bool)
    (h : TwoForms "FlowDecision" (decisionEdge b) id attributes cs edge) :
    Interchangeable (.node activities "FlowDecision" attributes (cs ++ ds))
      (.node activities "FlowDecision" (attributes.erase (decisionEdge b))
        (cs ++ edge :: ds)) := by
  refine of_node (by decide) (by decide) (by cases b <;> decide) (Markup.length_tokensAll_le ..) ?_
  intro rest child child' k k' g hchild hchild' hk hk'
  refine .peekFront ?_
  simp only [Element.qname_start_node, Markup.activityName_inj,
    String.reduceEq, ite_false, ite_true]
  exact .bind (Reader.Flowchart.decision_forms rfl hchild hchild' b h hk hk' g) fun _ => .pure rfl

theorem switch (h : TwoForms "FlowSwitch" "Default" id attributes cs edge) :
    Interchangeable (.node activities "FlowSwitch" attributes (cs ++ ds))
      (.node activities "FlowSwitch" (attributes.erase "Default")
        (cs ++ edge :: ds)) := by
  refine of_node (by decide) (by decide) (by decide) (Markup.length_tokensAll_le ..) ?_
  intro rest child child' k k' g hchild hchild' hk hk'
  refine .peekFront ?_
  simp only [Element.qname_start_node, Markup.activityName_inj,
    String.reduceEq, ite_false, ite_true]
  exact .bind (Reader.Flowchart.switch_forms rfl hchild hchild' h hk hk' g) fun _ => .pure rfl

/-- A flowchart is no node of another one. -/
theorem flowchart (h : TwoForms "Flowchart" "StartNode" id attributes cs edge) :
    Interchangeable (.node activities "Flowchart" attributes (cs ++ ds))
      (.node activities "Flowchart" (attributes.erase "StartNode")
        (cs ++ edge :: ds)) where
  toVariants := .erase (by decide) (by decide)
  child := by
    intro rest k k' owner hk hk'
    rw [Element.length_tokens_node] at hk hk'
    have hle := Markup.length_tokensAll_le cs edge ds
    obtain ⟨k, rfl⟩ := Nat.exists_eq_succ_of_ne_zero (by omega : k ≠ 0)
    obtain ⟨k', rfl⟩ := Nat.exists_eq_succ_of_ne_zero (by omega : k' ≠ 0)
    have hmem : ActivityType.flowchart ∈ Registry.standardTypes := by decide
    have hqname : activityName "Flowchart" = ActivityType.flowchart.qname := rfl
    refine .peekFront ?_
    simp only [Element.qname_start_node, hqname,
      Registry.resolve?_qname hmem]
    refine Reader.Flowchart.flowchart_forms rfl (fun r => ?_) (fun r => ?_) h
    · exact Registry.child_local Registry.resolve?_standard_ne_empty (by omega) (by omega)
    · exact Registry.child_local Registry.resolve?_standard_ne_empty (by omega) (by omega)
  node := by
    intro rest k k' j j' g hk hk' hj hj'
    obtain ⟨j, rfl⟩ := Nat.exists_eq_succ_of_ne_zero (by omega : j ≠ 0)
    obtain ⟨j', rfl⟩ := Nat.exists_eq_succ_of_ne_zero (by omega : j' ≠ 0)
    refine .peekFront ?_
    simp only [Element.qname_start_node, Markup.activityName_inj,
      String.reduceEq, Markup.activityName_ne_languageName, ite_false]
    exact .unexpected

end Interchangeable

/-- It makes no difference whether an edge of a flowchart is given by an attribute or by a property
element, in any document: both are read as the same activity, or neither is. The edge out of a
step is the exception. Its attribute is not read, so with it a step is read as one that leads
nowhere. -/
theorem reference_forms (hprop : (name, prop) ∈ edgeProperties) (hid : IsReference id)
    (hattr : attributes.get? prop = some (referenceValue id))
    (hedge : IsEdge (propertyName name prop) id edge)
    (honce : ∀ c ∈ cs, c.qname ≠ activityName (propertyName name prop))
    (before after : List Token) :
    (prop ≠ "Next" →
      (parseDocument Registry.standard (before
        ++ ((Element.node activities name attributes (cs ++ ds)).tokens
          ++ after))).toOption
      = (parseDocument Registry.standard (before
        ++ ((Element.node activities name (attributes.erase prop)
          (cs ++ edge :: ds)).tokens ++ after))).toOption) ∧
    (prop = "Next" →
      (parseDocument Registry.standard (before
        ++ ((Element.node activities name attributes (cs ++ ds)).tokens
          ++ after))).toOption
      = (parseDocument Registry.standard (before
        ++ ((Element.node activities name (attributes.erase prop) (cs ++ ds)).tokens
          ++ after))).toOption) := by
  have h : TwoForms name prop id attributes cs edge := ⟨hid, hattr, hedge, honce⟩
  simp only [edgeProperties, List.mem_cons, List.not_mem_nil, or_false, Prod.mk.injEq] at hprop
  rcases hprop with ⟨rfl, rfl⟩ | ⟨rfl, rfl⟩ | ⟨rfl, rfl⟩ | ⟨rfl, rfl⟩ | ⟨rfl, rfl⟩
  · refine ⟨fun _ => ?_, fun h => absurd h (by decide)⟩
    exact (Interchangeable.flowchart h).parseDocument_eq before after
  · refine ⟨fun h => absurd rfl h, fun _ => ?_⟩
    exact Interchangeable.next.parseDocument_eq before after
  · refine ⟨fun _ => ?_, fun h => absurd h (by decide)⟩
    exact (Interchangeable.decision true h).parseDocument_eq before after
  · refine ⟨fun _ => ?_, fun h => absurd h (by decide)⟩
    exact (Interchangeable.decision false h).parseDocument_eq before after
  · refine ⟨fun _ => ?_, fun h => absurd h (by decide)⟩
    exact (Interchangeable.switch h).parseDocument_eq before after

end

/-- A decision both of whose edges lead to one step; the other edge is a property element before
the one in question. -/
theorem reference_forms_decision :
    let reference : Element :=
      .node language "Reference" (.ofList [("Reference", "a")]) []
    let onFalse := activityElement "FlowDecision.False" [reference]
    let onTrue := activityElement "FlowDecision.True" [reference]
    let attributes : OrderedMap String String :=
      .ofList [("True", referenceValue "a"), ("x:Name", "d")]
    let document (e : Element) : List Token :=
      [.opening activities "Activity",
        (Token.opening activities "Flowchart").setAttribute "StartNode"
          (referenceValue "d")]
      ++ (e.tokens ++ [(Token.opening activities "FlowStep").setAttribute "x:Name" "a",
        .ending activities "FlowStep", .ending activities "Flowchart",
        .ending activities "Activity"])
    let decision := Element.node activities "FlowDecision" attributes [onFalse]
    parseDocument Registry.standard (document decision)
        = .ok (.flowchart (some "d") [.decision "d" (some "a") (some "a"), .step "a" none none]) ∧
      (parseDocument Registry.standard (document decision)).toOption
        = (parseDocument Registry.standard (document (.node activities "FlowDecision"
          (attributes.erase "True") [onFalse, onTrue]))).toOption := by
  intro reference onFalse onTrue attributes document decision
  have hid : IsReference "a" := by
    refine ⟨by decide, fun c hc => ?_⟩
    obtain rfl : c = 'a' := List.mem_singleton.1 hc
    decide
  have hedge : IsEdge (propertyName "FlowDecision" "True") "a" onTrue := .intro _ _ _ rfl
  have honce : ∀ c ∈ [onFalse], c.qname ≠ activityName (propertyName "FlowDecision" "True") := by
    refine List.forall_mem_singleton.2 fun h => ?_
    exact absurd (Markup.activityName_inj.1 h) (by decide)
  refine ⟨by set_option maxRecDepth 100000 in rfl, ?_⟩
  exact (reference_forms (by decide) hid rfl hedge honce _ _).1 (by decide)

/-- Two steps, the first of which is to lead to the second: as an attribute the edge is lost. -/
theorem next_attribute_lost :
    let document (e : Element) : List Token :=
      [.opening activities "Activity",
        (Token.opening activities "Flowchart").setAttribute "StartNode"
          (referenceValue "a")]
      ++ (e.tokens ++ [(Token.opening activities "FlowStep").setAttribute "x:Name" "b",
        .ending activities "FlowStep", .ending activities "Flowchart",
        .ending activities "Activity"])
    parseDocument Registry.standard (document (.node activities "FlowStep"
        (.ofList [("x:Name", "a"), ("Next", referenceValue "b")]) []))
      = .ok (.flowchart (some "a") [.step "a" none none, .step "b" none none]) ∧
    parseDocument Registry.standard (document (.node activities "FlowStep"
        (.ofList [("x:Name", "a")]) [activityElement "FlowStep.Next"
          [.node language "Reference" (.ofList [("Reference", "b")]) []]]))
      = .ok (.flowchart (some "a") [.step "a" none (some "b"), .step "b" none none]) := by
  intro document
  constructor
  · set_option maxRecDepth 100000 in rfl
  · set_option maxRecDepth 100000 in rfl

end OpenWorkflow
