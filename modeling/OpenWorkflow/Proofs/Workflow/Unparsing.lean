import OpenWorkflow.Proofs.Markup.Nesting
import OpenWorkflow.Proofs.Workflow.TagNames

/-!
# Activities as they are written

`Activity.element` writes a structured activity as an element: parts that have a role
stand in property elements, which are left out where there is no part, a message has
its operation and its contract as attributes, and nothing to do is a null element.

`Parser.Consumes p ts a` says that a step takes exactly the tags `ts`, whatever stands
behind them. What a loop goes through is a list of elements (`Parser.Gathers`), each of
which one round consumes. By these laws an activity is read from the tags it is written
as.
-/

namespace OpenWorkflow

open OpenWorkflow.Markup (Token Element qualify activityName languageName Namespace.activities
  Namespace.serviceModel Namespace.language tokensAll_append)

/-! ## Writing -/

/-- The attributes of a message. -/
def Messaging.attributes (m : Messaging) : OrderedMap String String :=
  ((∅ : OrderedMap String String).insert "OperationName" m.operation).insert
    "ServiceContractName" m.contract

/-- An element of the activities namespace. -/
def activityElement (name : String) (children : List Element) : Element :=
  .node Namespace.activities name ∅ children

namespace Activity

mutual

/-- The activity as an element. Graphs are not written; only their tags stand for them. -/
def element : Activity → Element
  | .atomic a => .node a.ns a.name ∅ []
  | .empty => .node Namespace.language "Null" ∅ []
  | .messaging m => .node Namespace.serviceModel m.kind.name m.attributes []
  | .sequence children => activityElement "Sequence" (elements children)
  | .conditional onTrue onFalse =>
    activityElement "If" (property "If.Then" onTrue ++ property "If.Else" onFalse)
  | .switch cases fallback =>
    activityElement "Switch" (property "Switch.Default" fallback ++ elements cases)
  | .loop test body => activityElement test.name (property (test.name ++ ".Body") body)
  | .parallel branches => activityElement "Parallel" (elements branches)
  | .pick branches => activityElement "Pick" (branchElements branches)
  | .flowchart _ _ => activityElement "Flowchart" []
  | .stateMachine _ _ _ => activityElement "StateMachine" []

/-- Some activities in a row. -/
def elements : List Activity → List Element
  | [] => []
  | a :: as => element a :: elements as

/-- The property element of a part, if there is one. -/
def property (name : String) : Option Activity → List Element
  | none => []
  | some a => [activityElement name [element a]]

/-- The branches of a pick. -/
def branchElements : List (PickBranch Activity) → List Element
  | [] => []
  | ⟨trigger, action⟩ :: branches =>
    activityElement "PickBranch"
      (property "PickBranch.Trigger" trigger ++ property "PickBranch.Action" action)
      :: branchElements branches

end

attribute [local simp] element elements property branchElements

/-- The tags of an activity. -/
def unparse (a : Activity) : List Token := a.element.tokens

/-- The activities that are read as they are written: structured ones of standard steps and
messages, in which nothing to do is only ever a case. A message has an operation, and a contract
without prefix; a reply has neither. -/
inductive Writable : Activity → Prop
  | atomic {a : Atomic} (hstandard : ActivityType.atomic a ∈ Registry.standardTypes) :
      Writable (.atomic a)
  | request {kind : MessageKind} {contract operation : String} (hkind : kind.isReply = false)
      (hoperation : operation ≠ "") (hcontract : ∀ c ∈ contract.toList, c ≠ '\x7d' ∧ c ≠ ':') :
      Writable (.messaging { kind, contract, operation })
  | reply {kind : MessageKind} (hkind : kind.isReply = true) : Writable (.messaging { kind })
  | sequence {children : List Activity} (hchildren : ∀ a ∈ children, Writable a) :
      Writable (.sequence children)
  | conditional {onTrue onFalse : Option Activity} (htrue : ∀ a ∈ onTrue, Writable a)
      (hfalse : ∀ a ∈ onFalse, Writable a) : Writable (.conditional onTrue onFalse)
  | switch {cases : List Activity} {fallback : Option Activity}
      (hcases : ∀ a ∈ cases, a ≠ .empty → Writable a) (hfallback : ∀ a ∈ fallback, Writable a) :
      Writable (.switch cases fallback)
  | loop {test : LoopTest} {body : Option Activity} (hbody : ∀ a ∈ body, Writable a) :
      Writable (.loop test body)
  | parallel {branches : List Activity} (hbranches : ∀ a ∈ branches, Writable a) :
      Writable (.parallel branches)
  | pick {branches : List (PickBranch Activity)}
      (htrigger : ∀ b ∈ branches, ∀ a ∈ b.trigger, Writable a)
      (haction : ∀ b ∈ branches, ∀ a ∈ b.action, Writable a) : Writable (.pick branches)

end Activity

/-! ## Elements at the front -/

/-- The qualified name of an element. -/
def Markup.Element.qname : Element → String
  | .node ns name _ _ => qualify ns name

/-- The start tag of an element. -/
def Markup.Element.start : Element → Token
  | .node ns name attributes _ => { ns, name, attributes }

@[simp] theorem Markup.Element.closing_start (e : Element) : e.start.closing = false := by
  cases e
  rfl

@[simp] theorem Markup.Element.qname_start (e : Element) : e.start.qname = e.qname := by
  cases e
  rfl

theorem Markup.Element.exists_tokens (e : Element) (rest : List Token) :
    ∃ u, e.tokens ++ rest = e.start :: u := by
  cases e with
  | node ns name attributes children =>
    rw [tokens, List.cons_append]
    exact ⟨_, rfl⟩

theorem Markup.Element.tokens_node_append (ns name : String) (attributes : OrderedMap String String)
    (es : List Element) (rest : List Token) :
    (node ns name attributes es).tokens ++ rest
      = { ns, name, attributes } :: (tokensAll es ++ Token.ending ns name :: rest) := by
  rw [tokens, List.append_assoc, List.cons_append, List.singleton_append]

theorem Markup.Element.length_tokens_node (ns name : String)
    (attributes : OrderedMap String String) (es : List Element) :
    (node ns name attributes es).tokens.length = (tokensAll es).length + 2 := by
  rw [tokens, List.length_append, List.length_cons, List.length_singleton]

theorem Markup.Element.length_tokens_pos (e : Element) : 0 < e.tokens.length := by
  cases e
  rw [length_tokens_node]
  omega

namespace Parser

variable {α β σ : Type} {p q : Parser α} {u v : List Token} {a : α} {qname owner : String}

/-- The step takes exactly the given tags, whatever stands behind them. -/
def Consumes (p : Parser α) (ts : List Token) (a : α) : Prop :=
  ∀ rest c, p ⟨ts ++ rest, c⟩ = .ok a ⟨rest, c + ts.length⟩

namespace Consumes

theorem pure : Consumes (Pure.pure a) [] a := fun _ _ => rfl

theorem bind {g : α → Parser β} {b : β} (hp : Consumes p u a) (hg : Consumes (g a) v b) :
    Consumes (p >>= g) (u ++ v) b := by
  intro rest c
  simp only [Bind.bind, EStateM.bind, List.append_assoc, hp (v ++ rest) c, hg rest (c + u.length),
    List.length_append, Nat.add_assoc]

/-- A second step that takes nothing. -/
theorem andThen {g : α → Parser β} {b : β} (hp : Consumes p u a) (hg : Consumes (g a) [] b) :
    Consumes (p >>= g) u b := by
  have h := hp.bind hg
  rwa [List.append_nil] at h

theorem map (hp : Consumes p u a) (f : α → β) : Consumes (p >>= fun a => Pure.pure (f a)) u (f a) :=
  hp.andThen pure

theorem expectStart (ns name : String) (attributes : OrderedMap String String)
    (rest : List Token) (c : Nat) :
    Parser.expectStart (qualify ns name) owner ⟨{ ns, name, attributes } :: rest, c⟩
      = .ok { ns, name, attributes } ⟨rest, c + 1⟩ := by
  have hopens : ({ ns, name, attributes } : Token).opens (qualify ns name) = true := by
    simp [Token.opens, Token.qname]
  simp only [Parser.expectStart, hopens, ite_true]
  rfl

theorem expectEnd (ns name : String) (rest : List Token) (c : Nat) :
    Parser.expectEnd (qualify ns name) owner ⟨Token.ending ns name :: rest, c⟩
      = .ok (Token.ending ns name) ⟨rest, c + 1⟩ := by
  have hcloses : (Token.ending ns name).closes (qualify ns name) = true := by
    simp [Token.closes, Token.ending, Token.qname]
  simp only [Parser.expectEnd, hcloses, ite_true]
  rfl

mutual

/-- The depth is the same behind an element as before it. -/
theorem skipLevels_tokens (e : Element) (k : Nat) (rest : List Token) (c : Nat) :
    Parser.skipLevels owner (k + 1) (e.tokens ++ rest) c
      = Parser.skipLevels owner (k + 1) rest (c + e.tokens.length) := by
  cases e with
  | node ns name attributes children =>
    rw [Element.tokens_node_append, Element.length_tokens_node]
    show Parser.skipLevels owner (k + 2) (Element.tokensAll children ++ _) (c + 1) = _
    rw [skipLevels_tokensAll children]
    show Parser.skipLevels owner (k + 1) rest _ = _
    congr 1
    omega

theorem skipLevels_tokensAll (es : List Element) (k : Nat) (rest : List Token) (c : Nat) :
    Parser.skipLevels owner (k + 1) (Element.tokensAll es ++ rest) c
      = Parser.skipLevels owner (k + 1) rest (c + (Element.tokensAll es).length) := by
  cases es with
  | nil => rfl
  | cons e es =>
    rw [Element.tokensAll, List.append_assoc, skipLevels_tokens e, skipLevels_tokensAll es,
      List.length_append, Nat.add_assoc]

end

theorem skipElement (e : Element) : Consumes (Parser.skipElement owner) e.tokens e.start := by
  intro rest c
  cases e with
  | node ns name attributes children =>
    rw [Element.tokens_node_append, Element.length_tokens_node]
    have hskip (c : Nat) : Parser.skipLevels owner 1
        (Element.tokensAll children ++ Token.ending ns name :: rest) c
          = .ok () ⟨rest, c + (Element.tokensAll children).length + 1⟩ := by
      rw [skipLevels_tokensAll children]
      simp only [Parser.skipLevels, Token.ending, ite_true]
    simp only [Parser.skipElement, Bind.bind, EStateM.bind, Parser.peekStart, Parser.nextToken,
      Bool.false_eq_true, ite_false, hskip]
    rw [Nat.add_right_comm c 1, Nat.add_assoc, Nat.add_assoc]
    rfl

theorem atEndOf {e : Element} (rest : List Token) (c : Nat) :
    TokenStream.atEndOf ⟨e.tokens ++ rest, c⟩ qname = false := by
  obtain ⟨u, htokens⟩ := e.exists_tokens rest
  rw [htokens]
  show e.start.closes qname = false
  simp [Token.closes]

theorem atStartOf {e : Element} (rest : List Token) (c : Nat) :
    TokenStream.atStartOf ⟨e.tokens ++ rest, c⟩ qname = (e.qname == qname) := by
  obtain ⟨u, htokens⟩ := e.exists_tokens rest
  rw [htokens]
  show e.start.opens qname = _
  simp [Token.opens]

/-- Where an element of the name is at the front, the first way is taken. -/
theorem atStart {e : Element} (he : e.qname = qname) (hp : Consumes p e.tokens a) :
    Consumes (do if ← Parser.atStartOf qname then p else q) e.tokens a := by
  intro rest c
  simp only [Bind.bind, EStateM.bind, Parser.atStartOf, atStartOf, he, beq_self_eq_true, ite_true]
  exact hp rest c

theorem notAtStart {e : Element} (he : e.qname ≠ qname) (hq : Consumes q e.tokens a) :
    Consumes (do if ← Parser.atStartOf qname then p else q) e.tokens a := by
  intro rest c
  simp only [Bind.bind, EStateM.bind, Parser.atStartOf, atStartOf, beq_eq_false_iff_ne.2 he,
    Bool.false_eq_true, ite_false]
  exact hq rest c

end Consumes

/-! ## Loops -/

/-- The rounds of a loop go through the elements, one after another. -/
inductive Gathers (item : σ → Parser σ) : σ → List Element → σ → Prop
  | nil (a : σ) : Gathers item a [] a
  | cons {e : Element} {es : List Element} {a b c : σ} (hitem : Consumes (item a) e.tokens b)
      (hrest : Gathers item b es c) : Gathers item a (e :: es) c

namespace Gathers

variable {item : σ → Parser σ} {es es' : List Element} {s s' s'' : σ}

theorem append (h : Gathers item s es s') (h' : Gathers item s' es' s'') :
    Gathers item s (es ++ es') s'' := by
  induction h with
  | nil => exact h'
  | cons hitem _ ih => exact .cons hitem (ih h')

theorem rounds (h : Gathers item s es s') {t : Token} (ht : t.closes qname = true)
    (rest : List Token) (c : Nat) {n : Nat} (hn : (Element.tokensAll es).length < n) :
    Parser.rounds qname owner item n s ⟨Element.tokensAll es ++ t :: rest, c⟩
      = .ok s' ⟨t :: rest, c + (Element.tokensAll es).length⟩ := by
  induction h generalizing n c with
  | nil s =>
    obtain ⟨n, rfl⟩ := Nat.exists_eq_succ_of_ne_zero (Nat.ne_zero_of_lt hn)
    have hend : TokenStream.atEndOf ⟨Element.tokensAll [] ++ t :: rest, c⟩ qname = true := ht
    simp only [Parser.rounds, Bind.bind, EStateM.bind, Parser.atEndOf, hend, ite_true]
    rfl
  | @cons e es s s' s'' hitem _ ih =>
    obtain ⟨n, rfl⟩ := Nat.exists_eq_succ_of_ne_zero (Nat.ne_zero_of_lt hn)
    have hlength : (Element.tokensAll (e :: es)).length
        = e.tokens.length + (Element.tokensAll es).length := by
      rw [Element.tokensAll, List.length_append]
    have hpos := e.length_tokens_pos
    rw [hlength, Element.tokensAll, List.append_assoc, ← Nat.add_assoc]
    simp only [Parser.rounds, Bind.bind, EStateM.bind, Parser.atEndOf, Consumes.atEndOf,
      Bool.false_eq_true, ite_false, hitem _ c]
    exact ih (c + e.tokens.length) (by omega)

theorem untilEnd (h : Gathers item s es s') {t : Token} (ht : t.closes qname = true)
    (rest : List Token) (c : Nat) :
    Parser.untilEnd qname owner item s ⟨Element.tokensAll es ++ t :: rest, c⟩
      = .ok s' ⟨t :: rest, c + (Element.tokensAll es).length⟩ := by
  have hn : (Element.tokensAll es).length < (Element.tokensAll es ++ t :: rest).length + 1 := by
    rw [List.length_append]
    omega
  exact h.rounds ht rest c hn

/-- An element with a loop in it, and what is made of its start tag and of the parts. -/
theorem enclosed (h : Gathers item s es s') {ns name : String}
    {attributes : OrderedMap String String} {finish : Token → σ → Parser α}
    (hfinish : Consumes (finish { ns, name, attributes } s') [] a) :
    Consumes (do
      let start ← Parser.expectStart (qualify ns name) owner
      let parts ← Parser.untilEnd (qualify ns name) owner item s
      let _ ← Parser.expectEnd (qualify ns name) owner
      finish start parts) (Element.node ns name attributes es).tokens a := by
  intro rest c
  have hcloses : (Token.ending ns name).closes (qualify ns name) = true := by
    simp [Token.closes, Token.ending, Token.qname]
  rw [Element.tokens_node_append, Element.length_tokens_node]
  simp only [Bind.bind, EStateM.bind, Consumes.expectStart, h.untilEnd hcloses, Consumes.expectEnd]
  rw [Nat.add_right_comm c 1, Nat.add_assoc, Nat.add_assoc]
  exact hfinish rest _

end Gathers

end Parser

/-! ## Readers -/

namespace Reader

open OpenWorkflow.Parser (Consumes Gathers)

variable {child : ChildReader} {e : Element} {a : Activity} {owner : String}

/-- A property element with an activity in it. -/
theorem wrapped_consumes (name : String) (hchild : Consumes (child owner) e.tokens a)
    (hnull : e.qname ≠ languageName "Null") :
    Consumes (wrapped child (activityName name) owner) (activityElement name [e]).tokens
      (some a) := by
  intro rest c
  rw [activityElement, Element.tokens_node_append, Element.length_tokens_node]
  simp only [wrapped, activityName, Bind.bind, EStateM.bind, Pure.pure, EStateM.pure,
    Consumes.expectStart, Parser.atEndOf, Parser.atStartOf, Markup.tokensAll_singleton,
    Consumes.atEndOf, Consumes.atStartOf, beq_eq_false_iff_ne.2 hnull, Bool.false_eq_true,
    ite_false, hchild _ (c + 1), Consumes.expectEnd]
  rw [Nat.add_right_comm c 1, Nat.add_assoc, Nat.add_assoc]

/-- A loop that reads activities in a row, into what `gather` makes of them. -/
theorem gathers_elements {σ : Type} {item : σ → Parser σ} (gather : List Activity → σ)
    (as bs : List Activity)
    (h : ∀ a ∈ bs, ∀ as, Consumes (item (gather as)) a.unparse (gather (as ++ [a]))) :
    Gathers item (gather as) (Activity.elements bs) (gather (as ++ bs)) := by
  induction bs generalizing as with
  | nil =>
    rw [Activity.elements, List.append_nil]
    exact .nil _
  | cons b bs ih =>
    rw [Activity.elements, List.append_cons]
    exact .cons (h b (List.mem_cons_self ..) as)
      (ih (as ++ [b]) fun a ha => h a (List.mem_cons_of_mem _ ha))

/-- A round that reads the property element of a part, if there is one. -/
theorem gathers_property {σ : Type} {item : σ → Parser σ} {name : String} {part : Option Activity}
    {s s' : σ} (hnone : part = none → s' = s)
    (hsome : ∀ a ∈ part, Consumes (item s) (activityElement name [a.element]).tokens s') :
    Gathers item s (Activity.property name part) s' := by
  cases part with
  | none =>
    rw [Activity.property, hnone rfl]
    exact .nil s
  | some a =>
    rw [Activity.property]
    exact .cons (hsome a rfl) (.nil s')

end Reader

/-- The activity is read from the tags it is written as, and its element is no other one. -/
structure Activity.ReadBack (a : Activity) : Prop where
  resolves : Registry.standard.resolve? a.element.qname = some a.type
  consumes : ∀ owner, Parser.Consumes (Registry.standard.parseChild owner) a.unparse a

namespace Activity.ReadBack

open OpenWorkflow.Registry (standard)
open OpenWorkflow.Parser (Consumes Gathers)

variable {a : Activity}

theorem ne_of_unresolved (h : a.ReadBack) {qname : String}
    (hqname : standard.resolve? qname = none) : a.element.qname ≠ qname := by
  rintro rfl
  cases h.resolves.symm.trans hqname

theorem ne_null (h : a.ReadBack) : a.element.qname ≠ languageName "Null" :=
  h.ne_of_unresolved (Registry.resolve?_languageName "Null")

theorem ne_property (h : a.ReadBack) {name : String} (hname : '.' ∈ name.toList) :
    a.element.qname ≠ activityName name :=
  h.ne_of_unresolved (Registry.resolve?_property hname)

theorem wrapped (h : a.ReadBack) (name owner : String) :
    Consumes (Reader.wrapped standard.parseChild (activityName name) owner)
      (activityElement name [a.element]).tokens (some a) :=
  Reader.wrapped_consumes name (h.consumes owner) h.ne_null

end Activity.ReadBack

namespace Reader

open OpenWorkflow.Registry (standard)
open OpenWorkflow.Parser (Consumes Gathers)

/-! ### Primitive activities -/

theorem primitive_consumes (ns name owner : String) (attributes : OrderedMap String String) :
    Consumes (primitive (qualify ns name) owner) (Element.node ns name attributes []).tokens
      { ns, name, attributes } :=
  .atStart rfl (.skipElement _)

theorem atomic_consumes (a : Atomic) :
    Consumes (atomic a) (Activity.atomic a).unparse (.atomic a) := by
  rw [Activity.unparse, Activity.element]
  exact (primitive_consumes a.ns a.name a.name ∅).map fun _ => Activity.atomic a

/-- A contract without brace and colon is kept as it is. -/
theorem contractName_eq_self {contract : String}
    (h : ∀ c ∈ contract.toList, c ≠ '\x7d' ∧ c ≠ ':') : contractName contract = contract := by
  have hall : ∀ c ∈ contract.toList.reverse, (!(c = '\x7d' || c = ':')) = true := by
    intro c hc
    obtain ⟨hbrace, hcolon⟩ := h c (List.mem_reverse.1 hc)
    simp [hbrace, hcolon]
  rw [contractName, Text.afterLast, List.takeWhile_eq_self_iff.2 hall, List.reverse_reverse,
    String.ofList_toList]

theorem request_consumes {kind : MessageKind} {contract operation : String}
    (hkind : kind.isReply = false) (hoperation : operation ≠ "")
    (hcontract : ∀ c ∈ contract.toList, c ≠ '\x7d' ∧ c ≠ ':') :
    Consumes (messaging kind) (Activity.messaging { kind, contract, operation }).unparse
      { kind, contract, operation } := by
  rw [Activity.unparse, Activity.element]
  refine (primitive_consumes _ kind.name kind.name _).andThen ?_
  have hoperation' : (Messaging.attributes { kind, contract, operation }).get? "OperationName"
      = some operation := by
    simp [Messaging.attributes, OrderedMap.get?_insert]
  have hcontract' : (Messaging.attributes { kind, contract, operation }).get? "ServiceContractName"
      = some contract := by
    simp [Messaging.attributes]
  simp only [hkind, Bool.false_eq_true, ite_false, Token.attribute?, hoperation', hcontract',
    Option.getD_some, hoperation, contractName_eq_self hcontract]
  exact .pure

theorem reply_consumes {kind : MessageKind} (hkind : kind.isReply = true) :
    Consumes (messaging kind) (Activity.messaging { kind }).unparse { kind } := by
  rw [Activity.unparse, Activity.element]
  refine (primitive_consumes _ kind.name kind.name _).andThen ?_
  simp only [hkind, ite_true]
  exact .pure

/-! ### Composite activities -/

theorem sequence_consumes {children : List Activity} (h : ∀ a ∈ children, a.ReadBack) :
    Consumes (sequence standard.parseChild) (Activity.sequence children).unparse
      (.sequence children) := by
  have hloop : Gathers (fun children => do return children ++ [← standard.parseChild "Sequence"])
      [] (Activity.elements children) children :=
    gathers_elements id [] children fun a ha as =>
      ((h a ha).consumes "Sequence").map fun a => as ++ [a]
  rw [Activity.unparse, Activity.element]
  exact hloop.enclosed .pure

theorem conditional_consumes {onTrue onFalse : Option Activity} (htrue : ∀ a ∈ onTrue, a.ReadBack)
    (hfalse : ∀ a ∈ onFalse, a.ReadBack) :
    Consumes (conditional standard.parseChild) (Activity.conditional onTrue onFalse).unparse
      (.conditional onTrue onFalse) := by
  have hthen : Gathers (conditionalPart standard.parseChild) (none, none)
      (Activity.property "If.Then" onTrue) (onTrue, none) := by
    refine gathers_property (fun h => h ▸ rfl) fun a ha => ?_
    obtain rfl := ha
    exact .atStart rfl (((htrue a rfl).wrapped "If.Then" "If").map fun onTrue => (onTrue, none))
  have helse : Gathers (conditionalPart standard.parseChild) (onTrue, none)
      (Activity.property "If.Else" onFalse) (onTrue, onFalse) := by
    refine gathers_property (fun h => h ▸ rfl) fun a ha => ?_
    obtain rfl := ha
    refine .notAtStart ?_ (.atStart rfl
      (((hfalse a rfl).wrapped "If.Else" "If").map fun onFalse => (onTrue, onFalse)))
    exact fun h => absurd (Markup.activityName_inj.1 h) (by decide)
  rw [Activity.unparse, Activity.element]
  exact (hthen.append helse).enclosed .pure

theorem switch_consumes {cases : List Activity} {fallback : Option Activity}
    (hcases : ∀ a ∈ cases, a ≠ .empty → a.ReadBack) (hfallback : ∀ a ∈ fallback, a.ReadBack) :
    Consumes (switch standard.parseChild) (Activity.switch cases fallback).unparse
      (.switch cases fallback) := by
  have hdefault : Gathers (switchPart standard.parseChild) ([], none)
      (Activity.property "Switch.Default" fallback) ([], fallback) := by
    refine gathers_property (fun h => h ▸ rfl) fun a ha => ?_
    obtain rfl := ha
    exact .atStart rfl
      (((hfallback a rfl).wrapped "Switch.Default" "Switch").map fun fallback => ([], fallback))
  have hloop : Gathers (switchPart standard.parseChild) ([], fallback) (Activity.elements cases)
      (cases, fallback) := by
    refine gathers_elements (fun cases => (cases, fallback)) [] cases fun a ha as => ?_
    by_cases hempty : a = .empty
    · subst hempty
      rw [Activity.unparse, Activity.element]
      refine .notAtStart (Markup.languageName_ne_activityName _ _)
        (.notAtStart (Markup.languageName_ne_activityName _ _) (.atStart rfl ?_))
      exact (Consumes.skipElement _).map fun _ => (as ++ [.empty], fallback)
    · have hread := hcases a ha hempty
      refine .notAtStart (hread.ne_property (by decide))
        (.notAtStart (hread.ne_property (by decide)) (.notAtStart hread.ne_null ?_))
      exact (hread.consumes "Switch").map fun a => (as ++ [a], fallback)
  rw [Activity.unparse, Activity.element]
  exact (hdefault.append hloop).enclosed .pure

theorem loop_consumes {test : LoopTest} {body : Option Activity} (h : ∀ a ∈ body, a.ReadBack) :
    Consumes (loop standard.parseChild test) (Activity.loop test body).unparse
      (.loop test body) := by
  have hbody : Gathers (loopPart standard.parseChild test.name) none
      (Activity.property (test.name ++ ".Body") body) body := by
    refine gathers_property id fun a ha => ?_
    obtain rfl := ha
    refine .notAtStart ?_ (.atStart rfl ((h a rfl).wrapped (test.name ++ ".Body") test.name))
    exact fun h => absurd (Markup.activityName_inj.1 h) (by cases test <;> decide)
  rw [Activity.unparse, Activity.element]
  exact hbody.enclosed .pure

theorem parallel_consumes {branches : List Activity} (h : ∀ a ∈ branches, a.ReadBack) :
    Consumes (parallel standard.parseChild) (Activity.parallel branches).unparse
      (.parallel branches) := by
  have hloop : Gathers (parallelPart standard.parseChild) [] (Activity.elements branches)
      branches := by
    refine gathers_elements id [] branches fun a ha as => ?_
    exact .notAtStart ((h a ha).ne_property (by decide))
      (((h a ha).consumes "Parallel").map fun a => as ++ [a])
  rw [Activity.unparse, Activity.element]
  exact hloop.enclosed .pure

theorem pickBranch_consumes {trigger action : Option Activity}
    (htrigger : ∀ a ∈ trigger, a.ReadBack) (haction : ∀ a ∈ action, a.ReadBack) :
    Consumes (pickBranch standard.parseChild) (activityElement "PickBranch"
      (Activity.property "PickBranch.Trigger" trigger
        ++ Activity.property "PickBranch.Action" action)).tokens ⟨trigger, action⟩ := by
  have hfirst : Gathers (pickBranchPart standard.parseChild) {}
      (Activity.property "PickBranch.Trigger" trigger) { trigger } := by
    refine gathers_property (fun h => h ▸ rfl) fun a ha => ?_
    obtain rfl := ha
    exact .atStart rfl
      (((htrigger a rfl).wrapped "PickBranch.Trigger" "Pick").map fun part =>
        PickBranch.mk part none)
  have hsecond : Gathers (pickBranchPart standard.parseChild) { trigger }
      (Activity.property "PickBranch.Action" action) ⟨trigger, action⟩ := by
    refine gathers_property (fun h => h ▸ rfl) fun a ha => ?_
    obtain rfl := ha
    refine .notAtStart ?_ (.atStart rfl
      (((haction a rfl).wrapped "PickBranch.Action" "Pick").map (PickBranch.mk trigger)))
    exact fun h => absurd (Markup.activityName_inj.1 h) (by decide)
  exact (hfirst.append hsecond).enclosed .pure

theorem pick_consumes {branches : List (PickBranch Activity)}
    (htrigger : ∀ b ∈ branches, ∀ a ∈ b.trigger, a.ReadBack)
    (haction : ∀ b ∈ branches, ∀ a ∈ b.action, a.ReadBack) :
    Consumes (pick standard.parseChild) (Activity.pick branches).unparse (.pick branches) := by
  have hloop (bs : List (PickBranch Activity)) :
      Gathers (pickPart standard.parseChild) bs (Activity.branchElements branches)
        (bs ++ branches) := by
    induction branches generalizing bs with
    | nil =>
      rw [Activity.branchElements, List.append_nil]
      exact .nil bs
    | cons b branches ih =>
      obtain ⟨trigger, action⟩ := b
      rw [Activity.branchElements, List.append_cons]
      refine .cons (.atStart rfl ?_) (ih (fun b hb => htrigger b (List.mem_cons_of_mem _ hb))
        (fun b hb => haction b (List.mem_cons_of_mem _ hb)) _)
      exact (pickBranch_consumes (htrigger _ (List.mem_cons_self ..))
        (haction _ (List.mem_cons_self ..))).map fun branch => bs ++ [branch]
  rw [Activity.unparse, Activity.element]
  exact (hloop []).enclosed .pure

end Reader

namespace Activity

open OpenWorkflow.Registry (standard standardTypes)
open OpenWorkflow.Parser (Consumes)

variable {a : Activity}

/-- An activity that its reader reads is read wherever an activity is expected. -/
theorem ReadBack.of_read (hqname : a.element.qname = a.type.qname) (htype : a.type ∈ standardTypes)
    (h : Consumes (a.type.read standard.parseChild) a.unparse a) : a.ReadBack where
  resolves := hqname ▸ Registry.resolve?_qname htype
  consumes := by
    intro owner rest c
    have hread := h rest c
    obtain ⟨u, htokens⟩ := a.element.exists_tokens rest
    have hresolve : standard.resolve? a.element.start.qname = some a.type := by
      rw [Element.qname_start, hqname]
      exact Registry.resolve?_qname htype
    rw [unparse, htokens] at hread ⊢
    exact (Registry.parseChild_eq_read Registry.resolve?_standard_ne_empty a.element.closing_start
      hresolve owner u c).trans hread

theorem Writable.type_mem (h : a.Writable) : a.type ∈ standardTypes := by
  cases h with
  | atomic hstandard => exact hstandard
  | _ => exact Registry.mem_standardTypes nofun nofun

theorem Writable.readBack (h : a.Writable) : a.ReadBack := by
  induction h with
  | atomic hstandard => exact .of_read rfl hstandard (Reader.atomic_consumes _)
  | request hkind hoperation hcontract =>
    exact .of_read rfl (request hkind hoperation hcontract).type_mem
      ((Reader.request_consumes hkind hoperation hcontract).map Activity.messaging)
  | reply hkind =>
    exact .of_read rfl (reply hkind).type_mem
      ((Reader.reply_consumes hkind).map Activity.messaging)
  | sequence h ih => exact .of_read rfl (sequence h).type_mem (Reader.sequence_consumes ih)
  | conditional htrue hfalse ihtrue ihfalse =>
    exact .of_read rfl (conditional htrue hfalse).type_mem
      (Reader.conditional_consumes ihtrue ihfalse)
  | switch hcases hfallback ihcases ihfallback =>
    exact .of_read rfl (switch hcases hfallback).type_mem
      (Reader.switch_consumes ihcases ihfallback)
  | loop h ih => exact .of_read rfl (loop h).type_mem (Reader.loop_consumes ih)
  | parallel h ih => exact .of_read rfl (parallel h).type_mem (Reader.parallel_consumes ih)
  | pick htrigger haction ihtrigger ihaction =>
    exact .of_read rfl (pick htrigger haction).type_mem
      (Reader.pick_consumes ihtrigger ihaction)

/-- **Parsing undoes unparsing.** Behind the tags of an activity may stand whatever there is: the
activity is read, and nothing behind it is touched. -/
theorem parseChild_unparse {t : Activity} (h : t.Writable) (owner : String) (rest : List Token)
    (c : Nat) :
    standard.parseChild owner ⟨t.unparse ++ rest, c⟩ = .ok t ⟨rest, c + t.unparse.length⟩ :=
  h.readBack.consumes owner rest c

/-- A choice with one branch, a null case and a branch of a pick without action, and a stray end tag
behind. -/
theorem parseChild_unparse_mixed :
    let receive : Activity := .messaging { kind := .receive, contract := "I", operation := "op" }
    let t : Activity := .sequence [.conditional none (some receive),
      .switch [.empty, .loop .after (some (.pick [⟨some receive, none⟩]))] none]
    let stray : Token := .ending "" "a"
    t.Writable ∧ t.unparse.length = 24 ∧
      standard.parseChild "Root" ⟨t.unparse ++ [stray], 0⟩
        = .ok t ⟨[stray], 0 + t.unparse.length⟩ := by
  intro receive t stray
  have hreceive : receive.Writable := .request rfl (by decide) (by simp)
  have hpick : Writable (.pick [⟨some receive, none⟩]) :=
    .pick (by simpa using hreceive) (by simp)
  have hswitch :
      Writable (.switch [.empty, .loop .after (some (.pick [⟨some receive, none⟩]))] none) :=
    .switch (by simpa using .loop (by simpa using hpick)) nofun
  have ht : t.Writable :=
    .sequence (by simpa using ⟨.conditional nofun (by simpa using hreceive), hswitch⟩)
  have hlength : t.unparse.length = 24 := by
    simp [t, receive, unparse, element, elements, property, branchElements, activityElement,
      Element.tokens, Element.tokensAll]
  exact ⟨ht, hlength, parseChild_unparse ht "Root" [stray] 0⟩

end Activity

end OpenWorkflow
