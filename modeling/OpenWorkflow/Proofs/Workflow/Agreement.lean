import OpenWorkflow.Proofs.Workflow.Unparsing

/-!
# Steps that agree

Two documents that differ in one element: where the one has `e`, the other has `e'`, with
the same tags before and behind. `Akin` says that what remains to be read of the two is the
same up to that element, or the same altogether.

`Parser.Agree A B R p q` compares a step in the one document with a step in the other: from
streams related by `A` both lead to streams related by `B`, with values related by `R`, or
both fail. How many tags have been consumed does not matter, nor do the bounds that the two
put on their loops. For each primitive step and each way of combining steps there is one
law.

The last laws are about an element at the front of both, with other tags behind it, and about
a loop that comes across one element more in the one document than in the other
(`Parser.Agree.untilEnd_extra`).
-/

namespace OpenWorkflow.Markup

/-- The same tags, up to the element `e` in the one and `e'` in the other, with `rest` behind. -/
inductive Akin (e e' : Element) (rest : List Token) : List Token → List Token → Prop where
  | nil : Akin e e' rest [] []
  | cons (t : Token) {u u' : List Token} : Akin e e' rest u u' → Akin e e' rest (t :: u) (t :: u')
  | swap : Akin e e' rest (e.tokens ++ rest) (e'.tokens ++ rest)

variable {e e' : Element} {rest u u' : List Token}

theorem Akin.refl (u : List Token) : Akin e e' rest u u := by
  induction u with
  | nil => exact .nil
  | cons t u ih => exact .cons t ih

theorem Akin.append (v : List Token) (h : Akin e e' rest u u') :
    Akin e e' rest (v ++ u) (v ++ u') := by
  induction v with
  | nil => exact h
  | cons t v ih => exact .cons t ih

/-- The tags of some elements, and an end tag behind them. -/
theorem length_tokensAll_end (es : List Element) (t : Token) (rest : List Token) :
    (Element.tokensAll es).length + 2 ≤ (Element.tokensAll es ++ t :: rest).length + 1 := by
  rw [List.length_append, List.length_cons]
  omega

theorem length_tokens_le {es : List Element} (h : e ∈ es) :
    e.tokens.length ≤ (Element.tokensAll es).length := by
  induction es with
  | nil => exact absurd h List.not_mem_nil
  | cons e' es ih =>
    rw [Element.tokensAll, List.length_append]
    rcases List.mem_cons.1 h with rfl | h
    · omega
    · have := ih h
      omega

theorem length_tokensAll_le (cs : List Element) (e : Element) (ds : List Element) :
    (Element.tokensAll (cs ++ ds)).length ≤ (Element.tokensAll (cs ++ e :: ds)).length := by
  rw [tokensAll_append, tokensAll_append, Element.tokensAll, List.length_append, List.length_append,
    List.length_append]
  omega

/-- Two elements of a flowchart, with the same name and the same label. -/
structure Variants (e e' : Element) : Prop where
  name : e.qname ∈ flowNames.map activityName
  same : e.qname = e'.qname
  label : e.start.attribute? "x:Name" = e'.start.attribute? "x:Name"

theorem Variants.ne_activityName (h : Variants e e') {name : String} (hname : name ∉ flowNames) :
    e.qname ≠ activityName name := by
  obtain ⟨flow, hflow, heq⟩ := List.mem_map.1 h.name
  rw [← heq, ne_eq, activityName_inj]
  rintro rfl
  exact hname hflow

theorem Variants.ne_languageName (h : Variants e e') (name : String) :
    e.qname ≠ languageName name := by
  obtain ⟨flow, -, heq⟩ := List.mem_map.1 h.name
  rw [← heq]
  exact activityName_ne_languageName flow name

end OpenWorkflow.Markup

namespace OpenWorkflow.Parser

open OpenWorkflow.Markup (Token Element Akin Variants)

variable {α α' β β' σ : Type} {e e' : Element} {rest u u' r r' : List Token} {n n' m m' : Nat}
  {qname owner ns name : String}

/-- Fewer than `n` tags lie ahead in the one document and fewer than `n'` in the other, and they
are akin. -/
structure Ahead (e e' : Element) (rest : List Token) (n n' : Nat) (u u' : List Token) : Prop where
  akin : Akin e e' rest u u'
  length : u.length < n
  length' : u'.length < n'

/-- The same, and the same tag is at the front. -/
structure Past (e e' : Element) (rest : List Token) (n n' : Nat) (u u' : List Token) : Prop
    extends Ahead e e' rest n n' u u' where
  front : ∃ t v v', u = t :: v ∧ u' = t :: v' ∧ Akin e e' rest v v'

/-- These tags lie ahead. -/
def Pair (u u' v v' : List Token) : Prop := v = u ∧ v' = u'

theorem Ahead.mono (h : Ahead e e' rest n n' u u') (hm : n ≤ m) (hm' : n' ≤ m') :
    Ahead e e' rest m m' u u' :=
  ⟨h.akin, by have := h.length; omega, by have := h.length'; omega⟩

theorem Ahead.past {t : Token} (h : Ahead e e' rest n n' (t :: u) (t :: u'))
    (hakin : Akin e e' rest u u') : Past e e' rest n n' (t :: u) (t :: u') :=
  ⟨h, t, u, u', rfl, rfl, hakin⟩

/-- Behind the elements in which the documents differ. -/
theorem Ahead.behind (h : Ahead e e' rest (n + 1) (n' + 1) (e.tokens ++ rest) (e'.tokens ++ rest)) :
    Ahead e e' rest n n' rest rest := by
  have hlength := h.length
  have hlength' := h.length'
  rw [List.length_append] at hlength hlength'
  have hpos := e.length_tokens_pos
  have hpos' := e'.length_tokens_pos
  exact ⟨.refl rest, by omega, by omega⟩

/-- Behind a look at a start tag. -/
theorem peekStart_bind {t : Token} (ht : t.closing = false) (g : Token → Parser α) (w : List Token)
    (c : Nat) : (Parser.peekStart owner >>= g) ⟨t :: w, c⟩ = g t ⟨t :: w, c⟩ := by
  simp only [Bind.bind, EStateM.bind, Parser.peekStart, ht, Bool.false_eq_true, ite_false]

/-- Both steps succeed, with related values and from related streams to related streams, or both
fail. -/
def Agree (A B : List Token → List Token → Prop) (R : α → α' → Prop) (p : Parser α)
    (q : Parser α') : Prop :=
  ∀ u u' c c', A u u' →
    (∃ a b w w' k k', R a b ∧ B w w' ∧ p ⟨u, c⟩ = .ok a ⟨w, k⟩ ∧ q ⟨u', c'⟩ = .ok b ⟨w', k'⟩) ∨
    ((∃ x s, p ⟨u, c⟩ = .error x s) ∧ ∃ x s, q ⟨u', c'⟩ = .error x s)

theorem Consumes.bind_apply {p : Parser α} {a : α} (h : Consumes p u a) (g : α → Parser β)
    (r : List Token) (c : Nat) : (p >>= g) ⟨u ++ r, c⟩ = g a ⟨r, c + u.length⟩ := by
  simp only [Bind.bind, EStateM.bind, h r c]

/-- The front tag is looked at first. -/
theorem Consumes.peekStart {g : Token → Parser α} {a : α} (h : Consumes (g e.start) e.tokens a) :
    Consumes (Parser.peekStart owner >>= g) e.tokens a := by
  intro rest c
  have hrest := h rest c
  obtain ⟨v, hv⟩ := e.exists_tokens rest
  rw [hv] at hrest ⊢
  rw [peekStart_bind e.closing_start]
  exact hrest

namespace Agree

variable {A A' B B' C : List Token → List Token → Prop} {R R' : α → α' → Prop} {S : β → β' → Prop}
  {p p₁ : Parser α} {q q₁ : Parser α'} {g : Token → Parser α} {h : Token → Parser α'}

theorem pre (h : Agree A B R p q) (hA : ∀ u u', A' u u' → A u u') : Agree A' B R p q :=
  fun u u' c c' hu => h u u' c c' (hA u u' hu)

theorem post (h : Agree A B R p q) (hB : ∀ u u', B u u' → B' u u') : Agree A B' R p q := by
  intro u u' c c' hu
  refine (h u u' c c' hu).imp_left ?_
  rintro ⟨a, b, w, w', k, k', hab, hw, hp, hq⟩
  exact ⟨a, b, w, w', k, k', hab, hB w w' hw, hp, hq⟩

theorem pure {a : α} {b : α'} (h : R a b) : Agree A A R (Pure.pure a) (Pure.pure b) :=
  fun u u' c c' hu => .inl ⟨a, b, u, u', c, c', h, hu, rfl, rfl⟩

theorem fail {fault fault' : Fault} {owner owner' : String} :
    Agree A B R (Parser.fail fault owner) (Parser.fail fault' owner') :=
  fun _ _ _ _ _ => .inr ⟨⟨_, _, rfl⟩, _, _, rfl⟩

theorem unexpected : Agree A B R (Parser.unexpected owner) (Parser.unexpected owner) :=
  fun _ _ _ _ _ => .inr ⟨⟨_, _, rfl⟩, _, _, rfl⟩

/-- Readers in a row agree if their parts do. -/
theorem andThen {g : α → Parser β} {h : α' → Parser β'} (hp : Agree A B R p q)
    (hg : ∀ a b, R a b → Agree B C S (g a) (h b)) : Agree A C S (p >>= g) (q >>= h) := by
  intro u u' c c' hu
  rcases hp u u' c c' hu with
    ⟨a, b, w, w', k, k', hab, hw, hpok, hqok⟩ | ⟨⟨x, s, hperr⟩, x', s', hqerr⟩
  · have hrest := hg a b hab w w' k k' hw
    simp only [Bind.bind, EStateM.bind, hpok, hqok]
    exact hrest
  · simp only [Bind.bind, EStateM.bind, hperr, hqerr]
    exact .inr ⟨⟨_, _, rfl⟩, _, _, rfl⟩

theorem bind {p q : Parser α} {g : α → Parser β} {h : α → Parser β'} (hp : Agree A B Eq p q)
    (hg : ∀ a, Agree B C S (g a) (h a)) : Agree A C S (p >>= g) (q >>= h) :=
  hp.andThen fun a _ hab => hab ▸ hg a

theorem ite {c : Prop} [Decidable c] (hp : Agree A B R p q) (hq : Agree A B R p₁ q₁) :
    Agree A B R (if c then p else p₁) (if c then q else q₁) := by
  split
  · exact hp
  · exact hq

/-- The same tag is at the front, or none, or else the elements in which the documents differ. -/
theorem split
    (hnil : ∀ c c', (∃ x s, p ⟨[], c⟩ = .error x s) ∧ ∃ x s, q ⟨[], c'⟩ = .error x s)
    (hpast : Agree (Past e e' rest n n') B R p q)
    (hswap : Ahead e e' rest n n' (e.tokens ++ rest) (e'.tokens ++ rest) →
      Agree (Pair (e.tokens ++ rest) (e'.tokens ++ rest)) B R p q) :
    Agree (Ahead e e' rest n n') B R p q := by
  intro u u' c c' hu
  cases hu.akin with
  | nil => exact .inr (hnil c c')
  | cons t hakin => exact hpast _ _ c c' (hu.past hakin)
  | swap => exact hswap hu _ _ c c' ⟨rfl, rfl⟩

/-! ## Looking at the front -/

theorem atEndOf : Agree (Ahead e e' rest n n') (Ahead e e' rest n n') Eq (Parser.atEndOf qname)
    (Parser.atEndOf qname) := by
  intro u u' c c' hu
  refine .inl ⟨_, _, u, u', c, c', ?_, hu, rfl, rfl⟩
  cases hu.akin with
  | nil => rfl
  | cons t _ => rfl
  | swap => rw [Consumes.atEndOf, Consumes.atEndOf]

theorem atStartOf (hvar : Variants e e') : Agree (Ahead e e' rest n n') (Ahead e e' rest n n') Eq
    (Parser.atStartOf qname) (Parser.atStartOf qname) := by
  intro u u' c c' hu
  refine .inl ⟨_, _, u, u', c, c', ?_, hu, rfl, rfl⟩
  cases hu.akin with
  | nil => rfl
  | cons t _ => rfl
  | swap => rw [Consumes.atStartOf, Consumes.atStartOf, hvar.same]

theorem atStartOf_past : Agree (Past e e' rest n n') (Past e e' rest n n') Eq
    (Parser.atStartOf qname) (Parser.atStartOf qname) := by
  intro u u' c c' hu
  refine .inl ⟨_, _, u, u', c, c', ?_, hu, rfl, rfl⟩
  obtain ⟨t, v, v', rfl, rfl, -⟩ := hu.front
  rfl

/-- One way or the other, as the front tag says. -/
theorem atStart_past (hp : Agree (Past e e' rest n n') B R p q)
    (hq : Agree (Past e e' rest n n') B R p₁ q₁) :
    Agree (Past e e' rest n n') B R (do if ← Parser.atStartOf qname then p else p₁)
      (do if ← Parser.atStartOf qname then q else q₁) :=
  .bind .atStartOf_past fun _ => .ite hp hq

/-- The same, where the first way relies on the same tag being at the front, since the elements in
which the documents differ have another name. -/
theorem atOpened (hvar : Variants e e') (hname : e.qname ≠ qname)
    (hp : Agree (Past e e' rest n n') B R p q) (hq : Agree (Ahead e e' rest n n') B R p₁ q₁) :
    Agree (Ahead e e' rest n n') B R (do if ← Parser.atStartOf qname then p else p₁)
      (do if ← Parser.atStartOf qname then q else q₁) := by
  intro u u' c c' hu
  cases hu.akin with
  | nil => exact hq _ _ c c' hu
  | cons t hakin =>
    exact atStart_past hp (hq.pre fun _ _ => Past.toAhead) _ _ c c' (hu.past hakin)
  | swap =>
    have hname' : e'.qname ≠ qname := hvar.same ▸ hname
    simp only [Bind.bind, EStateM.bind, Parser.atStartOf, Consumes.atStartOf,
      beq_eq_false_iff_ne.2 hname, beq_eq_false_iff_ne.2 hname', Bool.false_eq_true, ite_false]
    exact hq _ _ c c' hu

theorem peekStart_past : Agree (Past e e' rest n n') (Past e e' rest n n') Eq
    (Parser.peekStart owner) (Parser.peekStart owner) := by
  intro u u' c c' hu
  obtain ⟨t, v, v', rfl, rfl, -⟩ := hu.front
  cases ht : t.closing with
  | true =>
    simp only [Parser.peekStart, ht, ite_true]
    exact .inr ⟨⟨_, _, rfl⟩, _, _, rfl⟩
  | false =>
    simp only [Parser.peekStart, ht, Bool.false_eq_true, ite_false]
    exact .inl ⟨t, t, _, _, c, c', rfl, hu, rfl, rfl⟩

/-- The first tokens may differ if what follows agrees. -/
theorem peekFront
    (hg : Agree (Pair (e.tokens ++ r) (e'.tokens ++ r')) B R (g e.start) (h e'.start)) :
    Agree (Pair (e.tokens ++ r) (e'.tokens ++ r')) B R (Parser.peekStart owner >>= g)
      (Parser.peekStart owner >>= h) := by
  rintro _ _ c c' ⟨rfl, rfl⟩
  have hrest := hg _ _ c c' ⟨rfl, rfl⟩
  obtain ⟨v, hv⟩ := e.exists_tokens r
  obtain ⟨v', hv'⟩ := e'.exists_tokens r'
  rw [hv, hv'] at hrest ⊢
  rw [peekStart_bind e.closing_start, peekStart_bind e'.closing_start]
  exact hrest

/-- The front tag has a label, and it is the same in both. -/
theorem peekLabel (hvar : Variants e e')
    (hg : ∀ t t', t.attribute? "x:Name" = t'.attribute? "x:Name" → Agree (Ahead e e' rest n n') B R
      (g t) (h t')) :
    Agree (Ahead e e' rest n n') B R (Parser.peekStart owner >>= g)
      (Parser.peekStart owner >>= h) := by
  refine split (fun _ _ => ⟨⟨_, _, rfl⟩, _, _, rfl⟩) ?_ fun hahead => .peekFront ?_
  · exact .bind .peekStart_past fun t => (hg t t rfl).pre fun _ _ => Past.toAhead
  · refine (hg _ _ hvar.label).pre ?_
    rintro _ _ ⟨rfl, rfl⟩
    exact hahead

/-- A step that goes by the front tag: the same tag is there in both, or else the two elements. -/
theorem peeking
    (hswap : e.tokens.length ≤ n → e'.tokens.length ≤ n' → Agree (Pair (e.tokens ++ rest) (e'.tokens
      ++ rest)) (Pair rest rest) R (Parser.peekStart owner >>= g) (Parser.peekStart owner >>= h))
    (hg : ∀ t, Agree (Past e e' rest (n + 1) (n' + 1)) (Ahead e e' rest n n') R (g t) (h t)) :
    Agree (Ahead e e' rest (n + 1) (n' + 1)) (Ahead e e' rest n n') R (Parser.peekStart owner >>= g)
      (Parser.peekStart owner >>= h) := by
  refine split (fun _ _ => ⟨⟨_, _, rfl⟩, _, _, rfl⟩) (.bind .peekStart_past hg) fun hahead => ?_
  have hlength := hahead.length
  have hlength' := hahead.length'
  rw [List.length_append] at hlength hlength'
  refine (hswap (by omega) (by omega)).post ?_
  rintro _ _ ⟨rfl, rfl⟩
  exact hahead.behind

/-! ## Consuming tags -/

theorem nextToken : Agree (Past e e' rest (n + 1) (n' + 1)) (Ahead e e' rest n n') Eq
    (Parser.nextToken owner) (Parser.nextToken owner) := by
  intro u u' c c' hu
  obtain ⟨t, v, v', rfl, rfl, hakin⟩ := hu.front
  have hahead : Ahead e e' rest n n' v v' :=
    ⟨hakin, Nat.lt_of_succ_lt_succ hu.length, Nat.lt_of_succ_lt_succ hu.length'⟩
  exact .inl ⟨t, t, v, v', _, _, rfl, hahead, rfl, rfl⟩

theorem expectStart_past : Agree (Past e e' rest (n + 1) (n' + 1)) (Ahead e e' rest n n') Eq
    (Parser.expectStart qname owner) (Parser.expectStart qname owner) := by
  intro u u' c c' hu
  have hnext := (nextToken : Agree _ _ _ (Parser.nextToken owner) _) u u' c c' hu
  obtain ⟨t, v, v', rfl, rfl, hakin⟩ := hu.front
  cases hopens : t.opens qname with
  | true =>
    simp only [Parser.expectStart, hopens, ite_true]
    exact hnext
  | false =>
    simp only [Parser.expectStart, hopens, Bool.false_eq_true, ite_false]
    exact .inr ⟨⟨_, _, rfl⟩, _, _, rfl⟩

/-- The elements in which the documents differ have another name. -/
theorem expectStart (hvar : Variants e e') (hname : e.qname ≠ qname) :
    Agree (Ahead e e' rest (n + 1) (n' + 1)) (Ahead e e' rest n n') Eq
      (Parser.expectStart qname owner) (Parser.expectStart qname owner) := by
  refine split (fun _ _ => ⟨⟨_, _, rfl⟩, _, _, rfl⟩) .expectStart_past fun _ => ?_
  rintro _ _ c c' ⟨rfl, rfl⟩
  obtain ⟨v, hv⟩ := e.exists_tokens rest
  obtain ⟨v', hv'⟩ := e'.exists_tokens rest
  have hopens : e.start.opens qname = false := by simp [Token.opens, hname]
  have hopens' : e'.start.opens qname = false := by simp [Token.opens, ← hvar.same, hname]
  simp only [hv, hv', Parser.expectStart, hopens, hopens', Bool.false_eq_true, ite_false]
  exact .inr ⟨⟨_, _, rfl⟩, _, _, rfl⟩

theorem expectEnd : Agree (Ahead e e' rest n n') (Ahead e e' rest n n') Eq
    (Parser.expectEnd qname owner) (Parser.expectEnd qname owner) := by
  refine split (fun _ _ => ⟨⟨_, _, rfl⟩, _, _, rfl⟩) (fun u u' c c' hu => ?_) fun _ => ?_
  · obtain ⟨t, v, v', rfl, rfl, hakin⟩ := hu.front
    cases hcloses : t.closes qname with
    | true =>
      simp only [Parser.expectEnd, Parser.nextToken, hcloses, ite_true]
      exact .inl ⟨t, t, v, v', _, _, rfl,
        ⟨hakin, Nat.lt_of_succ_lt hu.length, Nat.lt_of_succ_lt hu.length'⟩, rfl, rfl⟩
    | false =>
      simp only [Parser.expectEnd, hcloses, Bool.false_eq_true, ite_false]
      exact .inr ⟨⟨_, _, rfl⟩, _, _, rfl⟩
  · rintro _ _ c c' ⟨rfl, rfl⟩
    obtain ⟨v, hv⟩ := e.exists_tokens rest
    obtain ⟨v', hv'⟩ := e'.exists_tokens rest
    have hcloses (e : Element) : e.start.closes qname = false := by simp [Token.closes]
    simp only [hv, hv', Parser.expectEnd, hcloses, Bool.false_eq_true, ite_false]
    exact .inr ⟨⟨_, _, rfl⟩, _, _, rfl⟩

/-- From the same tags on, only the count differs. -/
theorem skipLevels_same (k : Nat) :
    Agree (fun u u' => u = u' ∧ u.length < n ∧ u.length < n') (Ahead e e' rest n n') Eq
    (fun s => Parser.skipLevels owner k s.tokens s.consumed)
    (fun s => Parser.skipLevels owner k s.tokens s.consumed) := by
  rintro u u' c c' ⟨rfl, hlength, hlength'⟩
  induction u generalizing k c c' with
  | nil =>
    cases k with
    | zero => exact .inl ⟨_, _, [], [], _, _, rfl, ⟨.nil, hlength, hlength'⟩, rfl, rfl⟩
    | succ k => exact .inr ⟨⟨_, _, rfl⟩, _, _, rfl⟩
  | cons t u ih =>
    cases k with
    | zero => exact .inl ⟨_, _, _, _, _, _, rfl, ⟨.refl _, hlength, hlength'⟩, rfl, rfl⟩
    | succ k => exact ih _ (c + 1) (c' + 1) (Nat.lt_of_succ_lt hlength) (Nat.lt_of_succ_lt hlength')

theorem skipLevels (k : Nat) : Agree (Ahead e e' rest n n') (Ahead e e' rest n n') Eq
    (fun s => Parser.skipLevels owner k s.tokens s.consumed)
    (fun s => Parser.skipLevels owner k s.tokens s.consumed) := by
  rintro u u' c c' ⟨hakin, hlength, hlength'⟩
  induction hakin generalizing k c c' with
  | nil => exact skipLevels_same k [] [] c c' ⟨rfl, hlength, hlength'⟩
  | cons t hakin ih =>
    cases k with
    | zero => exact .inl ⟨_, _, _, _, _, _, rfl, ⟨.cons t hakin, hlength, hlength'⟩, rfl, rfl⟩
    | succ k => exact ih _ (c + 1) (c' + 1) (Nat.lt_of_succ_lt hlength) (Nat.lt_of_succ_lt hlength')
  | swap =>
    cases k with
    | zero =>
      refine .inl ⟨(), (), e.tokens ++ rest, e'.tokens ++ rest, c, c', rfl, ?_, ?_, ?_⟩
      · exact ⟨.swap, hlength, hlength'⟩
      · simp only [Parser.skipLevels]
      · simp only [Parser.skipLevels]
    | succ k =>
      beta_reduce
      rw [Consumes.skipLevels_tokens, Consumes.skipLevels_tokens]
      rw [List.length_append] at hlength hlength'
      exact skipLevels_same (k + 1) rest rest _ _ ⟨rfl, by omega, by omega⟩

theorem skipElement_past : Agree (Past e e' rest (n + 1) (n' + 1)) (Ahead e e' rest n n') Eq
    (Parser.skipElement owner) (Parser.skipElement owner) :=
  .bind .peekStart_past fun _ => .bind .nextToken fun _ => .bind (.skipLevels 1) fun _ => .pure rfl

theorem skipElement : Agree (Ahead e e' rest (n + 1) (n' + 1)) (Ahead e e' rest n n') Eq
    (do let _ ← Parser.skipElement owner) (do let _ ← Parser.skipElement owner) := by
  refine split (fun _ _ => ⟨⟨_, _, rfl⟩, _, _, rfl⟩) (.bind .skipElement_past fun _ => .pure rfl)
    fun hahead => ?_
  rintro _ _ c c' ⟨rfl, rfl⟩
  exact .inl ⟨(), (), rest, rest, _, _, rfl, hahead.behind,
    (Consumes.skipElement e).map (fun _ => ()) rest c,
    (Consumes.skipElement e').map (fun _ => ()) rest c'⟩

/-! ## Loops -/

/-- A step that consumes a tag, if it succeeds, where that does not matter. -/
theorem within
    (h : ∀ m < n, ∀ m' < n',
      Agree (Ahead e e' rest (m + 1) (m' + 1)) (Ahead e e' rest m m') R p q) :
    Agree (Ahead e e' rest n n') (Ahead e e' rest n n') R p q := by
  cases n with
  | zero => exact fun u _ _ _ hu => absurd hu.length (Nat.not_lt_zero _)
  | succ n =>
    cases n' with
    | zero => exact fun _ u' _ _ hu => absurd hu.length' (Nat.not_lt_zero _)
    | succ n' =>
      refine .post (h n (Nat.lt_succ_self n) n' (Nat.lt_succ_self n')) fun w w' hw => ?_
      exact hw.mono (Nat.le_succ n) (Nat.le_succ n')

/-- Loops that are bounded by the number of tags ahead agree, whatever the bounds are. -/
theorem rounds {item item' : σ → Parser σ}
    (hitem : ∀ m < n, ∀ m' < n', ∀ a,
      Agree (Ahead e e' rest (m + 1) (m' + 1)) (Ahead e e' rest m m') Eq (item a) (item' a))
    {k k' : Nat} (hk : n ≤ k) (hk' : n' ≤ k') (a : σ) :
    Agree (Ahead e e' rest n n') (Ahead e e' rest n n') Eq (Parser.rounds qname owner item k a)
      (Parser.rounds qname owner item' k' a) := by
  induction n generalizing n' k k' a with
  | zero => exact fun u _ _ _ hu => absurd hu.length (Nat.not_lt_zero _)
  | succ n ih =>
    cases n' with
    | zero => exact fun _ u' _ _ hu => absurd hu.length' (Nat.not_lt_zero _)
    | succ n' =>
      obtain ⟨k, rfl⟩ := Nat.exists_eq_add_of_lt hk
      obtain ⟨k', rfl⟩ := Nat.exists_eq_add_of_lt hk'
      refine .bind .atEndOf fun _ => .ite (.pure rfl) ?_
      refine .bind (hitem n (Nat.lt_succ_self n) n' (Nat.lt_succ_self n') a) fun b => ?_
      refine .post (ih (fun m hm m' hm' => hitem m (by omega) m' (by omega)) (by omega) (by omega)
        b) fun w w' hw => ?_
      exact hw.mono (Nat.le_succ n) (Nat.le_succ n')

/-- The tags that remain bound what lies ahead. -/
theorem remaining {F : Nat → Parser α} {G : Nat → Parser α'}
    (h : ∀ m m' k k', m ≤ n → m' ≤ n' → m ≤ k + 1 → m' ≤ k' + 1 →
      Agree (Ahead e e' rest m m') B R (F k) (G k')) :
    Agree (Ahead e e' rest n n') B R (Parser.remaining >>= F) (Parser.remaining >>= G) := by
  intro u u' c c' hu
  exact h (u.length + 1) (u'.length + 1) _ _ hu.length hu.length' (Nat.le_refl _) (Nat.le_refl _)
    u u' c c' ⟨hu.akin, Nat.lt_succ_self _, Nat.lt_succ_self _⟩

/-- Loops agree if their rounds do. -/
theorem untilEnd {item item' : σ → Parser σ}
    (hitem : ∀ m < n, ∀ m' < n', ∀ a,
      Agree (Ahead e e' rest (m + 1) (m' + 1)) (Ahead e e' rest m m') Eq (item a) (item' a))
    (a : σ) :
    Agree (Ahead e e' rest n n') (Ahead e e' rest n n') Eq (Parser.untilEnd qname owner item a)
      (Parser.untilEnd qname owner item' a) := by
  refine .remaining fun m m' k k' hm hm' hk hk' => ?_
  refine .post (rounds (fun l hl l' hl' => hitem l (by omega) l' (by omega)) hk hk' a)
    fun w w' hw => ?_
  exact hw.mono hm hm'

/-! ## Elements at the front -/

theorem atElement (hp : e.qname = qname → Agree (Pair (e.tokens ++ r) (e.tokens ++ r')) B R p q)
    (hq : e.qname ≠ qname → Agree (Pair (e.tokens ++ r) (e.tokens ++ r')) B R p₁ q₁) :
    Agree (Pair (e.tokens ++ r) (e.tokens ++ r')) B R
      (do if ← Parser.atStartOf qname then p else p₁)
      (do if ← Parser.atStartOf qname then q else q₁) := by
  rintro _ _ c c' ⟨rfl, rfl⟩
  simp only [Bind.bind, EStateM.bind, Parser.atStartOf, Consumes.atStartOf]
  by_cases hname : e.qname = qname
  · simp only [beq_iff_eq.2 hname, ite_true]
    exact hp hname _ _ c c' ⟨rfl, rfl⟩
  · simp only [beq_eq_false_iff_ne.2 hname, Bool.false_eq_true, ite_false]
    exact hq hname _ _ c c' ⟨rfl, rfl⟩

theorem skipFront : Agree (Pair (e.tokens ++ r) (e.tokens ++ r')) (Pair r r') Eq
    (Parser.skipElement owner) (Parser.skipElement owner) := by
  rintro _ _ c c' ⟨rfl, rfl⟩
  exact .inl ⟨_, _, r, r', _, _, rfl, ⟨rfl, rfl⟩, Consumes.skipElement e r c,
    Consumes.skipElement e r' c'⟩

/-- Behind the start tags of two elements of the same name. -/
theorem inside {attributes attributes' : OrderedMap String String} {cs cs' : List Element}
    (hg : Agree (Pair (Element.tokensAll cs ++ Token.ending ns name :: r) (Element.tokensAll cs' ++
      Token.ending ns name :: r')) B R (g { ns, name, attributes }) (h { ns, name, attributes :=
      attributes' })) :
    Agree (Pair ((Element.node ns name attributes cs).tokens ++ r)
      ((Element.node ns name attributes' cs').tokens ++ r')) B R
        (Parser.expectStart (Markup.qualify ns name) owner >>= g)
        (Parser.expectStart (Markup.qualify ns name) owner >>= h) := by
  rintro _ _ c c' ⟨rfl, rfl⟩
  rw [Element.tokens_node_append, Element.tokens_node_append]
  simp only [Bind.bind, EStateM.bind, Consumes.expectStart]
  exact hg _ _ (c + 1) (c' + 1) ⟨rfl, rfl⟩

theorem remaining_pair {u u' : List Token} {F : Nat → Parser α} {G : Nat → Parser α'}
    (h : Agree (Pair u u') B R (F u.length) (G u'.length)) :
    Agree (Pair u u') B R (Parser.remaining >>= F) (Parser.remaining >>= G) := by
  rintro _ _ c c' ⟨rfl, rfl⟩
  exact h _ _ c c' ⟨rfl, rfl⟩

/-! ## Other tags behind -/

/-- What two steps that read the same read does not depend on the tags behind. -/
theorem of_local {A B : List Token → Prop} {p q : Parser α} (hp : ∀ r, Local 0 r A B p q)
    (hq : ∀ r, Local 0 r A B q q) (hu : A u) :
    Agree (Pair (u ++ r) (u ++ r')) (fun w w' => ∃ v, B v ∧ w = v ++ r ∧ w' = v ++ r') Eq p q := by
  rintro _ _ c c' ⟨rfl, rfl⟩
  rcases hp r (fun h => absurd rfl h) u c 0 hu with
    ⟨a, v, w, -, hw, hpok, hok⟩ | ⟨_, _, _, _, -, -, hperr, herr⟩
  · rcases hq r' (fun h => absurd rfl h) u c' 0 hu with
      ⟨a', v', w', -, -, hqok, hok'⟩ | ⟨_, _, _, _, -, -, -, herr⟩
    · have heq := hok.symm.trans hok'
      simp only [EStateM.Result.ok.injEq, TokenStream.mk.injEq] at heq
      obtain ⟨rfl, rfl, -⟩ := heq
      exact .inl ⟨a, a, _, _, _, _, rfl, ⟨w, hw, rfl, rfl⟩, hpok, hqok⟩
    · cases hok.symm.trans herr
  · rcases hq r' (fun h => absurd rfl h) u c' 0 hu with
      ⟨_, _, _, -, -, -, hok⟩ | ⟨_, _, _, _, -, -, hqerr, -⟩
    · cases hok.symm.trans herr
    · exact .inr ⟨⟨_, _, hperr⟩, _, _, hqerr⟩

/-- The same for steps down to the ground. -/
theorem of_ground {A : List Token → Prop} {p q : Parser α} (hp : ∀ r, Local 0 r A (At 0 0 n) p q)
    (hq : ∀ r, Local 0 r A (At 0 0 n) q q) (hu : A u) :
    Agree (Pair (u ++ r) (u ++ r')) (Pair r r') Eq p q := by
  refine .post (of_local hp hq hu) ?_
  rintro _ _ ⟨v, ⟨-, hv⟩, rfl, rfl⟩
  obtain ⟨-, rfl⟩ := Markup.descends_zero.1 hv
  exact ⟨rfl, rfl⟩

/-- The same for steps that read an element. -/
theorem element {p q : Parser α} (hp : ∀ r, Local 0 r (Front 0 0 (n + 1)) (At 0 0 n) p q)
    (hq : ∀ r, Local 0 r (Front 0 0 (n + 1)) (At 0 0 n) q q) (he : e.tokens.length ≤ n) :
    Agree (Pair (e.tokens ++ r) (e.tokens ++ r')) (Pair r r') Eq p q :=
  of_ground hp hq { Markup.front_tokens e with length := Nat.lt_succ_of_le he }

/-! ## One element more -/

/-- An element begins a round. -/
theorem rounds_element (item : σ → Parser σ) (finish : σ → Parser α) (k : Nat) (a : σ)
    (e : Element) (es : List Element) (r : List Token) (c : Nat) :
    (Parser.rounds qname owner item (k + 1) a >>= finish) ⟨Element.tokensAll (e :: es) ++ r, c⟩
      = (item a >>= fun b => Parser.rounds qname owner item k b >>= finish)
        ⟨e.tokens ++ (Element.tokensAll es ++ r), c⟩ := by
  rw [Element.tokensAll, List.append_assoc, ← bind_assoc]
  simp only [Parser.rounds, Bind.bind, EStateM.bind, Parser.atEndOf, Consumes.atEndOf,
    Bool.false_eq_true, ite_false]

section

variable {item item' : σ → Parser σ} {finish : σ → Parser α} {cs ds : List Element}
  (hitem : ∀ r, Reader.Alike 0 r n item item') (hitem' : ∀ r, Reader.Alike 0 r n item' item')
  (hfinish : ∀ m a r, Local 0 r (At 0 1 m) (At 0 0 m) (finish a) (finish a))
include hitem hitem' hfinish

/-- The same elements remain in a loop, and both go on in the same way. -/
theorem rounds_same (hn : (Element.tokensAll ds).length + 2 ≤ n) {k k' : Nat}
    (hk : (Element.tokensAll ds).length + 2 ≤ k) (hk' : (Element.tokensAll ds).length + 2 ≤ k')
    (a : σ) :
    Agree (Pair (Element.tokensAll ds ++ Token.ending ns name :: rest)
        (Element.tokensAll ds ++ Token.ending ns name :: rest)) (Pair rest rest) Eq
      (Parser.rounds qname owner item k a >>= finish)
      (Parser.rounds qname owner item' k' a >>= finish) := by
  have hu : At 0 1 ((Element.tokensAll ds).length + 2)
      (Element.tokensAll ds ++ [Token.ending ns name]) := by
    refine ⟨by rw [List.length_append, List.length_singleton]; omega, ?_⟩
    exact Markup.descends_tokensAll ds (d := 0) ⟨rfl, rfl⟩
  have hcons : Element.tokensAll ds ++ Token.ending ns name :: rest
      = Element.tokensAll ds ++ [Token.ending ns name] ++ rest := by
    rw [List.append_assoc, List.singleton_append]
  rw [hcons]
  refine of_ground (n := (Element.tokensAll ds).length + 2) (fun r => ?_) (fun r => ?_) hu
  · refine .bind (.rounds (fun m hm a => ?_) hk hk' a) fun a => hfinish _ a r
    exact hitem r (1, m) (Nat.lt_of_lt_of_le hm hn) a
  · refine .bind (.rounds (fun m hm a => ?_) hk' hk' a) fun a => hfinish _ a r
    exact hitem' r (1, m) (Nat.lt_of_lt_of_le hm hn) a

section

variable {extra : Element} {D : σ → σ → Prop}
  (hpart : ∀ c ∈ cs, ∀ r r' a b, D a b →
    Agree (Pair (c.tokens ++ r) (c.tokens ++ r')) (Pair r r') D (item a) (item' b))
  (hextra : ∀ a b, D a b → Consumes (item' b) extra.tokens a)
  (hn : (Element.tokensAll (cs ++ ds)).length + 2 ≤ n)
include hpart hextra hn

/-- The one loop comes across an element more. Until then the values are related, and that element
makes them the same. -/
theorem rounds_extra {k k' : Nat}
    (hk : (Element.tokensAll (cs ++ ds)).length + 2 ≤ k)
    (hk' : (Element.tokensAll (cs ++ extra :: ds)).length + 2 ≤ k') {a b : σ} (hab : D a b) :
    Agree (Pair (Element.tokensAll (cs ++ ds) ++ Token.ending ns name :: rest)
        (Element.tokensAll (cs ++ extra :: ds) ++ Token.ending ns name :: rest)) (Pair rest rest) Eq
      (Parser.rounds qname owner item k a >>= finish)
      (Parser.rounds qname owner item' k' b >>= finish) := by
  induction cs generalizing k k' a b with
  | nil =>
    rw [List.nil_append] at hn hk hk'
    rw [Element.tokensAll, List.length_append] at hk'
    have hpos := extra.length_tokens_pos
    obtain ⟨k', rfl⟩ := Nat.exists_eq_succ_of_ne_zero (by omega : k' ≠ 0)
    rintro _ _ c c' ⟨rfl, rfl⟩
    rw [List.nil_append, List.nil_append, rounds_element, (hextra a b hab).bind_apply]
    exact rounds_same hitem hitem' hfinish hn hk (by omega) a _ _ c _ ⟨rfl, rfl⟩
  | cons e cs ih =>
    rw [List.cons_append, Element.tokensAll, List.length_append] at hn hk hk'
    have hpos := e.length_tokens_pos
    obtain ⟨k, rfl⟩ := Nat.exists_eq_succ_of_ne_zero (by omega : k ≠ 0)
    obtain ⟨k', rfl⟩ := Nat.exists_eq_succ_of_ne_zero (by omega : k' ≠ 0)
    rw [List.forall_mem_cons] at hpart
    rintro _ _ c c' ⟨rfl, rfl⟩
    rw [List.cons_append, List.cons_append, rounds_element, rounds_element]
    have hround := andThen (hpart.1 _ _ a b hab) fun a b hab =>
      ih (k := k) (a := a) hpart.2 (by omega) (by omega) (by omega : _ ≤ k') hab
    exact hround _ _ c c' ⟨rfl, rfl⟩

/-- A loop over elements and a loop over some more of them. -/
theorem untilEnd_extra {a b : σ} (hab : D a b) :
    Agree (Pair (Element.tokensAll (cs ++ ds) ++ Token.ending ns name :: rest)
        (Element.tokensAll (cs ++ extra :: ds) ++ Token.ending ns name :: rest)) (Pair rest rest) Eq
      (Parser.untilEnd qname owner item a >>= finish)
      (Parser.untilEnd qname owner item' b >>= finish) := by
  rintro _ _ c c' ⟨rfl, rfl⟩
  exact rounds_extra hitem hitem' hfinish hpart hextra hn (Markup.length_tokensAll_end ..)
    (Markup.length_tokensAll_end ..) hab _ _ c c' ⟨rfl, rfl⟩

end

theorem untilEnd_same (hn : (Element.tokensAll ds).length + 2 ≤ n) (a : σ) :
    Agree (Pair (Element.tokensAll ds ++ Token.ending ns name :: rest)
        (Element.tokensAll ds ++ Token.ending ns name :: rest)) (Pair rest rest) Eq
      (Parser.untilEnd qname owner item a >>= finish)
      (Parser.untilEnd qname owner item' a >>= finish) := by
  rintro _ _ c c' ⟨rfl, rfl⟩
  exact rounds_same hitem hitem' hfinish hn (Markup.length_tokensAll_end ..)
    (Markup.length_tokensAll_end ..) a _ _ c c' ⟨rfl, rfl⟩

end

end Agree

end OpenWorkflow.Parser
