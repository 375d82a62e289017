import OpenWorkflow.Proofs.Workflow.Consumption

/-!
# Elements as trees

A reader takes its tags element by element. `Tree` is an element as it stands among the
tags: its start tag, the elements inside it and its end tag, which need not bear the
same name. How tags fall into trees is determined (`Tree.tokens_append_inj`).

Four judgements say which trees a step takes if it succeeds, and what holds then of the
trees and of the value. `Stays` is for steps that take nothing, `Ends` for those that
take an end tag, `Closes` for those that take the rest of an element, and `Spans` for
those that take a whole element. For each way of combining steps there is one law.
-/

namespace OpenWorkflow.Markup

variable {c : Prop} {t : Token} {s s' : TokenStream}

/-- An element with the elements inside it. -/
inductive Tree where
  /-- A start tag, elements and an end tag. -/
  | node (start : Token) (children : List Tree) (stop : Token) (hstart : start.closing = false)
      (hstop : stop.closing = true)

namespace Tree

/-- The start tag. -/
def start : Tree → Token
  | node start _ _ _ _ => start

/-- The elements inside. -/
def children : Tree → List Tree
  | node _ children _ _ _ => children

/-- The qualified name. -/
def qname (t : Tree) : String := t.start.qname

theorem closing_start : (t : Tree) → t.start.closing = false
  | node _ _ _ hstart _ => hstart

mutual

/-- The tags of an element. -/
def tokens : Tree → List Token
  | .node start children stop _ _ => start :: tokensAll children ++ [stop]

/-- The tags of some elements in a row. -/
def tokensAll : List Tree → List Token
  | [] => []
  | t :: ts => tokens t ++ tokensAll ts

end

theorem tokens_node_append {start stop : Token} {children : List Tree}
    {hstart : start.closing = false} {hstop : stop.closing = true} (rest : List Token) :
    (node start children stop hstart hstop).tokens ++ rest
      = start :: (tokensAll children ++ stop :: rest) := by
  rw [tokens, List.cons_append, List.cons_append, List.append_assoc, List.singleton_append]

/-- The tags of an element begin with its start tag. -/
theorem exists_tokens (t : Tree) : ∃ v, t.tokens = t.start :: v := by
  cases t with
  | node start children stop =>
    rw [tokens, List.cons_append]
    exact ⟨_, rfl⟩

theorem start_of_tokens {t : Tree} {start : Token} {rest ts : List Token}
    (h : t.tokens ++ rest = start :: ts) : t.start = start := by
  obtain ⟨v, hv⟩ := t.exists_tokens
  rw [hv, List.cons_append] at h
  exact (List.cons.inj h).1

/-- If the tag at the front opens an element of a name, the element has the name. -/
theorem qname_of_opens {t : Tree} {rest : List Token} {qname : String}
    (h : (t.tokens ++ rest).head?.any (fun t => t.opens qname) = true) : t.qname = qname := by
  obtain ⟨v, hv⟩ := t.exists_tokens
  rw [hv, List.cons_append, List.head?_cons, Option.any_some, Token.opens, Bool.and_eq_true,
    beq_iff_eq] at h
  exact h.2

/-! ## Tags fall into trees in one way -/

mutual

/-- A tree can be told from the tokens it begins. -/
theorem tokens_append_inj (t t' : Tree) (r r' : List Token) (h : t.tokens ++ r = t'.tokens ++ r') :
    t = t' ∧ r = r' := by
  match t, t' with
  | .node start cs stop hstart hstop, .node start' cs' stop' hstart' hstop' =>
    rw [tokens_node_append, tokens_node_append] at h
    obtain ⟨rfl, htail⟩ := List.cons.inj h
    obtain ⟨rfl, rfl, rfl⟩ := tokensAll_append_inj cs cs' stop stop' r r' hstop hstop' htail
    exact ⟨rfl, rfl⟩

theorem tokensAll_append_inj (ts ts' : List Tree) (stop stop' : Token) (r r' : List Token)
    (hstop : stop.closing = true) (hstop' : stop'.closing = true)
    (h : tokensAll ts ++ stop :: r = tokensAll ts' ++ stop' :: r') :
    ts = ts' ∧ stop = stop' ∧ r = r' := by
  -- an end tag is not the start tag of a further element
  have hne (t : Tree) (stop : Token) (u v : List Token) (hstop : stop.closing = true)
      (heq : stop :: u = t.tokens ++ v) : False := by
    obtain ⟨w, hw⟩ := t.exists_tokens
    rw [hw, List.cons_append] at heq
    have hclosing := congrArg Token.closing (List.cons.inj heq).1
    rw [hstop, t.closing_start] at hclosing
    cases hclosing
  match ts, ts' with
  | [], [] =>
    obtain ⟨rfl, rfl⟩ := List.cons.inj h
    exact ⟨rfl, rfl, rfl⟩
  | [], t' :: ts' =>
    rw [tokensAll, tokensAll, List.append_assoc] at h
    exact (hne t' stop _ _ hstop h).elim
  | t :: ts, [] =>
    rw [tokensAll, tokensAll, List.append_assoc] at h
    exact (hne t stop' _ _ hstop' h.symm).elim
  | t :: ts, t' :: ts' =>
    rw [tokensAll, tokensAll, List.append_assoc, List.append_assoc] at h
    obtain ⟨rfl, hrest⟩ := tokens_append_inj t t' _ _ h
    obtain ⟨rfl, rfl, rfl⟩ := tokensAll_append_inj ts ts' stop stop' r r' hstop hstop' hrest
    exact ⟨rfl, rfl, rfl⟩

end

/-- Tags that lead one level up are elements and an end tag. -/
theorem exists_forest {d : Nat} {v : List Token} (h : Descends 0 (d + 1) v) :
    ∃ ts stop w, v = tokensAll ts ++ stop :: w ∧ stop.closing = true ∧ Descends 0 d w := by
  induction hn : v.length using Nat.strongRecOn generalizing d v with
  | ind n ih =>
    subst hn
    cases v with
    | nil => cases h
    | cons t v =>
      cases ht : t.closing with
      | true => exact ⟨[], t, v, rfl, ht, h.closing ht⟩
      | false =>
        -- an element begins: it ends one level down, and what follows it ends this level
        obtain ⟨cs, stop, w, rfl, hstop, hw⟩ :=
          ih v.length (Nat.lt_succ_self _) (h.opening ht) rfl
        obtain ⟨ts, stop', w', rfl, hstop', hw'⟩ := ih w.length (by simp; omega) hw rfl
        refine ⟨node t cs stop ht hstop :: ts, stop', w', ?_, hstop', hw'⟩
        rw [tokensAll, List.append_assoc, tokens_node_append]

/-- A start tag and tags that lead back to the ground are an element. -/
theorem exists_tree {v : List Token} (ht : t.closing = false) (hv : Descends 0 1 v) :
    ∃ tree : Tree, tree.tokens = t :: v ∧ tree.start = t := by
  obtain ⟨cs, stop, w, rfl, hstop, hw⟩ := exists_forest hv
  obtain rfl := (descends_zero.1 hw).2
  exact ⟨node t cs stop ht hstop, by rw [tokens, List.cons_append], rfl⟩

end Tree

end OpenWorkflow.Markup

namespace OpenWorkflow.Parser

open OpenWorkflow.Markup (Token Tree Descends)

variable {α β σ : Type} {p p' : Parser α} {qname owner : String}

theorem bind_eq_ok {g : α → Parser β} {s'' : TokenStream} {b : β} (h : (p >>= g) s = .ok b s'') :
    ∃ a s', p s = .ok a s' ∧ g a s' = .ok b s'' := by
  simp only [Bind.bind, EStateM.bind] at h
  split at h
  · next a s' hp => exact ⟨a, s', hp, h⟩
  · cases h

/-! ## Steps that take nothing -/

/-- If the step succeeds it has taken nothing, and its value is as described. -/
def Stays (p : Parser α) (P : α → Prop) : Prop := ∀ s a s', p s = .ok a s' → s' = s ∧ P a

namespace Stays

variable {P : α → Prop} {Q : β → Prop}

theorem pure {a : α} (h : P a) : Stays (Pure.pure a) P := by
  intro s b s' heq
  obtain ⟨rfl, rfl⟩ := EStateM.Result.ok.inj heq
  exact ⟨rfl, h⟩

theorem fail {fault : Fault} : Stays (Parser.fail fault owner : Parser α) P := nofun

theorem ite [Decidable c] (hp : Stays p P) (hp' : Stays p' P) : Stays (if c then p else p') P := by
  split
  · exact hp
  · exact hp'

theorem look {f : TokenStream → α} : Stays (fun s => .ok (f s) s) fun _ => True := by
  intro s a s' heq
  exact ⟨(EStateM.Result.ok.inj heq).2.symm, trivial⟩

end Stays

/-! ## The end of an element -/

/-- If the step succeeds it has taken an end tag, and its value is as described. -/
def Ends (p : Parser α) (P : α → Prop) : Prop :=
  ∀ s a s', p s = .ok a s' → ∃ stop, s.tokens = stop :: s'.tokens ∧ stop.closing = true ∧ P a

theorem expectEnd_eq_ok (h : Parser.expectEnd qname owner s = .ok t s') :
    s.tokens = t :: s'.tokens ∧ t.closing = true := by
  obtain ⟨ts, c⟩ := s
  cases ts with
  | nil => cases h
  | cons t' ts =>
    simp only [Parser.expectEnd] at h
    split at h
    · next hcloses =>
      obtain ⟨rfl, rfl⟩ := EStateM.Result.ok.inj h
      simp only [Token.closes, Bool.and_eq_true] at hcloses
      exact ⟨rfl, hcloses.1⟩
    · cases h

theorem expectStart_eq_ok (h : Parser.expectStart qname owner s = .ok t s') :
    s.tokens = t :: s'.tokens ∧ t.closing = false ∧ t.qname = qname := by
  obtain ⟨ts, c⟩ := s
  cases ts with
  | nil => cases h
  | cons t' ts =>
    simp only [Parser.expectStart] at h
    split at h
    · next hopens =>
      obtain ⟨rfl, rfl⟩ := EStateM.Result.ok.inj h
      simp only [Token.opens, Bool.and_eq_true, Bool.not_eq_true', beq_iff_eq] at hopens
      exact ⟨rfl, hopens⟩
    · cases h

theorem peekStart_eq_ok (h : Parser.peekStart owner s = .ok t s') :
    s' = s ∧ ∃ ts, s.tokens = t :: ts := by
  obtain ⟨ts, c⟩ := s
  cases ts with
  | nil => cases h
  | cons t' ts =>
    simp only [Parser.peekStart] at h
    split at h
    · cases h
    · obtain ⟨rfl, rfl⟩ := EStateM.Result.ok.inj h
      exact ⟨rfl, ts, rfl⟩

namespace Ends

variable {P : α → Prop} {Q : β → Prop}

theorem expectEnd {g : Token → Parser β} (hg : ∀ t, Stays (g t) Q) :
    Ends (Parser.expectEnd qname owner >>= g) Q := by
  intro s b s'' h
  obtain ⟨stop, s', hend, h⟩ := bind_eq_ok h
  obtain ⟨hs, hstop⟩ := expectEnd_eq_ok hend
  obtain ⟨rfl, hb⟩ := hg stop _ _ _ h
  exact ⟨stop, hs, hstop, hb⟩

/-- A value that is there when the element ends. -/
theorem close {b : β} (hb : Q b) :
    Ends (do let _ ← Parser.expectEnd qname owner; return b) Q :=
  expectEnd fun _ => .pure hb

/-- Before the end tag there may be a check. -/
theorem after {g : α → Parser β} (hp : Stays p P) (hg : ∀ a, P a → Ends (g a) Q) :
    Ends (p >>= g) Q := by
  intro s b s'' h
  obtain ⟨a, s', hrun, hrest⟩ := bind_eq_ok h
  obtain ⟨rfl, ha⟩ := hp _ _ _ hrun
  exact hg a ha _ _ _ hrest

end Ends

/-! ## Whole elements -/

/-- If the step succeeds it has taken an element, and the element and the value are as described. -/
def Spans (p : Parser α) (R : Tree → α → Prop) : Prop :=
  ∀ s a s', p s = .ok a s' → ∃ t : Tree, s.tokens = t.tokens ++ s'.tokens ∧ R t a

/-- If the step succeeds it has taken some elements and an end tag, and the elements and the value
are as described. -/
def Closes (p : Parser α) (R : List Tree → α → Prop) : Prop :=
  ∀ s a s', p s = .ok a s' → ∃ ts stop,
    s.tokens = Tree.tokensAll ts ++ stop :: s'.tokens ∧ stop.closing = true ∧ R ts a

/-- A number of rounds, each of which takes an element. -/
inductive Chain (Step : σ → Tree → σ → Prop) : σ → List Tree → σ → Prop
  | nil (a : σ) : Chain Step a [] a
  | cons {a b c : σ} {t : Tree} {ts : List Tree} (hstep : Step a t b) (hrest : Chain Step b ts c) :
      Chain Step a (t :: ts) c

theorem Chain.imp {Step Step' : σ → Tree → σ → Prop} {a b : σ} {ts : List Tree}
    (h : Chain Step a ts b) (himp : ∀ a t b, Step a t b → Step' a t b) : Chain Step' a ts b := by
  induction h with
  | nil a => exact .nil a
  | cons hstep _ ih => exact .cons (himp _ _ _ hstep) ih

namespace Spans

variable {R R' : Tree → α → Prop} {S : Tree → β → Prop}

theorem imp (h : Spans p R) (himp : ∀ t a, R t a → R' t a) : Spans p R' := by
  intro s a s' hrun
  obtain ⟨t, hs, ha⟩ := h s a s' hrun
  exact ⟨t, hs, himp t a ha⟩

theorem fail {fault : Fault} : Spans (Parser.fail fault owner : Parser α) R := nofun

theorem unexpected : Spans (Parser.unexpected owner : Parser α) R := nofun

/-- After the element nothing more is taken. -/
theorem andThen {g : α → Parser β} (hp : Spans p R) (hg : ∀ t a, R t a → Stays (g a) (S t)) :
    Spans (p >>= g) S := by
  intro s b s'' h
  obtain ⟨a, s', hrun, h⟩ := bind_eq_ok h
  obtain ⟨t, hs, ha⟩ := hp _ _ _ hrun
  obtain ⟨rfl, hb⟩ := hg t a ha _ _ _ h
  exact ⟨t, hs, hb⟩

theorem ite [Decidable c] (hp : c → Spans p R) (hp' : ¬c → Spans p' R) :
    Spans (if c then p else p') R := by
  split
  · next hc => exact hp hc
  · next hc => exact hp' hc

/-- One way or the other: on the first one the name of the element is known. -/
theorem atStart (hp : Spans p fun t a => t.qname = qname → R t a) (hp' : Spans p' R) :
    Spans (do if ← Parser.atStartOf qname then p else p') R := by
  intro s a s' h
  simp only [Bind.bind, EStateM.bind, Parser.atStartOf] at h
  split at h
  · next hat =>
    obtain ⟨t, hs, ha⟩ := hp s a s' h
    refine ⟨t, hs, ha ?_⟩
    rw [TokenStream.atStartOf, TokenStream.peek?, hs] at hat
    exact Tree.qname_of_opens hat
  · exact hp' s a s' h

/-- A start tag, and what closes the element. -/
theorem expectStart {g : Token → Parser β}
    (hg : ∀ start, Closes (g start) fun cs b => ∀ t : Tree, t.start = start → t.children = cs →
      t.qname = qname → S t b) : Spans (Parser.expectStart qname owner >>= g) S := by
  intro s b s'' h
  obtain ⟨start, s', hrun, h⟩ := bind_eq_ok h
  obtain ⟨hs, hstart, hqname⟩ := expectStart_eq_ok hrun
  obtain ⟨cs, stop, hs', hstop, hb⟩ := hg start _ _ _ h
  refine ⟨.node start cs stop hstart hstop, ?_, hb _ rfl rfl hqname⟩
  rw [hs, hs', Tree.tokens_node_append]

/-- After a look at the start tag. -/
theorem peekStart {g : Token → Parser β}
    (hg : ∀ start, Spans (g start) fun t b => t.start = start → S t b) :
    Spans (Parser.peekStart owner >>= g) S := by
  intro s b s'' h
  obtain ⟨start, s', hrun, hrest⟩ := bind_eq_ok h
  obtain ⟨rfl, ts, hts⟩ := peekStart_eq_ok hrun
  obtain ⟨t, hs, hb⟩ := hg _ _ _ _ hrest
  exact ⟨t, hs, hb (Tree.start_of_tokens (hs.symm.trans hts))⟩

/-- The same where the start tag has been seen. -/
theorem atOpened {g : Token → Parser β} {q : Parser β}
    (hp : Spans (Parser.expectStart qname owner >>= g) S) (hq : Spans q S) :
    Spans (do if ← Parser.atStartOf qname then Parser.nextToken owner >>= g else q) S := by
  intro s b s' h
  simp only [Bind.bind, EStateM.bind, Parser.atStartOf] at h
  split at h
  · next hat =>
    refine hp s b s' ?_
    obtain ⟨ts, c⟩ := s
    cases ts with
    | nil => cases hat
    | cons t ts =>
      have hopens : t.opens qname = true := hat
      simp only [Bind.bind, EStateM.bind, Parser.expectStart, hopens, ite_true]
      exact h
  · exact hq s b s' h

/-- Skipping levels takes what leads back to the ground. -/
theorem skipLevels_eq_ok {d c : Nat} {ts : List Token} {u : Unit}
    (h : Parser.skipLevels owner d ts c = .ok u s) : ∃ v, ts = v ++ s.tokens ∧ Descends 0 d v := by
  induction ts generalizing d c with
  | nil =>
    cases d with
    | zero =>
      obtain ⟨-, rfl⟩ := EStateM.Result.ok.inj h
      exact ⟨[], rfl, rfl, rfl⟩
    | succ d => cases h
  | cons t ts ih =>
    cases d with
    | zero =>
      rw [Parser.skipLevels] at h
      obtain ⟨-, rfl⟩ := EStateM.Result.ok.inj h
      exact ⟨[], rfl, rfl, rfl⟩
    | succ d =>
      rw [Parser.skipLevels] at h
      obtain ⟨v, rfl, hv⟩ := ih h
      exact ⟨t :: v, rfl, hv⟩

theorem skipElement : Spans (Parser.skipElement owner) fun t a => t.start = a := by
  intro s a s'' h
  obtain ⟨front, s', hfront, h⟩ := bind_eq_ok h
  obtain ⟨start, s₁, hstart, h⟩ := bind_eq_ok h
  obtain ⟨u, s₂, hskip, h⟩ := bind_eq_ok h
  obtain ⟨rfl, rfl⟩ := EStateM.Result.ok.inj h
  obtain ⟨v, hv, hdescends⟩ := skipLevels_eq_ok hskip
  obtain ⟨ts, c⟩ := s
  cases ts with
  | nil => cases hfront
  | cons t ts =>
    simp only [Parser.peekStart] at hfront
    split at hfront
    · cases hfront
    · next ht =>
      obtain ⟨rfl, rfl⟩ := EStateM.Result.ok.inj hfront
      obtain ⟨rfl, rfl⟩ := EStateM.Result.ok.inj hstart
      obtain ⟨tree, htokens, htree⟩ :=
        Tree.exists_tree (Bool.not_eq_true _ ▸ ht) hdescends
      refine ⟨tree, ?_, htree⟩
      rw [htokens, List.cons_append, ← hv]

end Spans

namespace Closes

variable {R : List Tree → α → Prop} {S : List Tree → β → Prop}

/-- Nothing more, only the end tag. -/
theorem none (h : Ends p (R [])) : Closes p R := by
  intro s a s' hrun
  obtain ⟨stop, hs, hstop, ha⟩ := h s a s' hrun
  exact ⟨[], stop, hs, hstop, ha⟩

/-- One element and the end tag. -/
theorem one {g : α → Parser β} {T : Tree → α → Prop} (hp : Spans p T)
    (hg : ∀ t a, T t a → Ends (g a) (S [t])) : Closes (p >>= g) S := by
  intro s b s'' h
  obtain ⟨a, s', hrun, h⟩ := bind_eq_ok h
  obtain ⟨t, hs, ha⟩ := hp _ _ _ hrun
  obtain ⟨stop, hs', hstop, hb⟩ := hg t a ha _ _ _ h
  refine ⟨[t], stop, ?_, hstop, hb⟩
  rw [hs, hs', Tree.tokensAll, Tree.tokensAll, List.append_nil]

theorem before {P : α → Prop} {g : α → Parser β} (hp : Stays p P)
    (hg : ∀ a, P a → Closes (g a) S) : Closes (p >>= g) S := by
  intro s b s'' h
  obtain ⟨a, s', hrun, hrest⟩ := bind_eq_ok h
  obtain ⟨rfl, ha⟩ := hp _ _ _ hrun
  exact hg a ha _ _ _ hrest

theorem ite [Decidable c] (hp : c → Closes p R) (hp' : ¬c → Closes p' R) :
    Closes (if c then p else p') R := by
  split
  · next hc => exact hp hc
  · next hc => exact hp' hc

/-- After a look at the next tag: if it is the one looked for, the name of the next element is
known. -/
theorem atStartOf {g : Bool → Parser β} (hg : ∀ b, Closes (g b) fun ts c =>
      (b = true → ∀ t ∈ ts.head?, t.qname = qname) → S ts c) :
    Closes (Parser.atStartOf qname >>= g) S := by
  intro s c s' h
  obtain ⟨ts, stop, hs, hstop, hc⟩ := hg (s.atStartOf qname) s c s' h
  refine ⟨ts, stop, hs, hstop, hc fun hat t ht => ?_⟩
  obtain ⟨ts, rfl⟩ := List.head?_eq_some_iff.1 ht
  rw [TokenStream.atStartOf, TokenStream.peek?, hs, Tree.tokensAll, List.append_assoc] at hat
  exact Tree.qname_of_opens hat

/-- After a look at the next tag. -/
theorem peekStart {g : Token → Parser β} (hg : ∀ start, Closes (g start) fun ts b =>
      (∀ t ∈ ts.head?, t.start = start) → S ts b) : Closes (Parser.peekStart owner >>= g) S := by
  intro s b s'' h
  obtain ⟨start, s', hrun, hrest⟩ := bind_eq_ok h
  obtain ⟨rfl, rest, hrest'⟩ := peekStart_eq_ok hrun
  obtain ⟨ts, stop, hs, hstop, hb⟩ := hg _ _ _ _ hrest
  refine ⟨ts, stop, hs, hstop, hb fun t ht => ?_⟩
  obtain ⟨ts, rfl⟩ := List.head?_eq_some_iff.1 ht
  rw [hs, Tree.tokensAll, List.append_assoc] at hrest'
  exact Tree.start_of_tokens hrest'

section loop

variable {item : σ → Parser σ} {Step : σ → Tree → σ → Prop}

/-- The rounds of a loop go over a chain of trees. -/
theorem rounds_eq_ok (hitem : ∀ a, Spans (item a) (Step a)) {n : Nat} {a b : σ}
    (h : Parser.rounds qname owner item n a s = .ok b s') :
    ∃ ts, s.tokens = Tree.tokensAll ts ++ s'.tokens ∧ Chain Step a ts b := by
  induction n generalizing a s with
  | zero => cases h
  | succ n ih =>
    simp only [Parser.rounds, Bind.bind, EStateM.bind, Parser.atEndOf] at h
    split at h
    · obtain ⟨rfl, rfl⟩ := EStateM.Result.ok.inj h
      exact ⟨[], rfl, .nil a⟩
    · obtain ⟨a', s₁, hrun, hrest⟩ := bind_eq_ok h
      obtain ⟨t, hs, hstep⟩ := hitem a _ _ _ hrun
      obtain ⟨ts, hs₁, hchain⟩ := ih hrest
      refine ⟨t :: ts, ?_, .cons hstep hchain⟩
      rw [hs, hs₁, Tree.tokensAll, List.append_assoc]

/-- Elements up to the end tag. -/
theorem untilEnd {a : σ} {g : σ → Parser β} (hitem : ∀ a, Spans (item a) (Step a))
    (hg : ∀ ts b, Chain Step a ts b → Ends (g b) (S ts)) :
    Closes (Parser.untilEnd qname owner item a >>= g) S := by
  intro s c s'' h
  obtain ⟨b, s', hrun, h⟩ := bind_eq_ok h
  obtain ⟨ts, hs, hchain⟩ := rounds_eq_ok hitem hrun
  obtain ⟨stop, hs', hstop, hc⟩ := hg ts b hchain _ _ _ h
  exact ⟨ts, stop, by rw [hs, hs'], hstop, hc⟩

end loop

end Closes

end OpenWorkflow.Parser
