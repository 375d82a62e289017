import OpenWorkflow.Proofs.Workflow.Parsing

/-!
# Reading looks no further than the element

How deep in the tags a reader stands is counted in open elements. `Descends f d ts`
says that the tags `ts` lead from depth `d` to depth `f` and touch the ground,
depth zero, at their end or never. A stream that holds an element is such a list
with `f = 0`; one that breaks off inside an element is such a list with `0 < f`.

`Parser.Local f r A B p q` compares a step `p` that has further tags `r` behind
the element with a step `q` that has none: they give the same value or the same
error, they consume the same tags, and none of `r`. The two steps may differ in
the bounds that they put on their loops, which depend on the number of tags that
remain. No error comes from such a bound, and where the element is complete none
comes from the end of the tags (`Parser.Proper`). For each primitive step and each
way of combining steps there is one law.
-/

namespace OpenWorkflow

variable {owner qname : String}

/-- Is it about what stands in a document, and not about where the document ends or how far a
loop may go? -/
def Fault.isRefusal : Fault → Bool
  | .endOfInput | .stalled => false
  | _ => true

end OpenWorkflow

namespace OpenWorkflow.Markup

/-- From depth `d` the tags lead to depth `f`, and to the ground at their end or never. -/
def Descends (f : Nat) : Nat → List Token → Prop
  | 0, ts => f = 0 ∧ ts = []
  | d + 1, [] => f = d + 1
  | d + 1, t :: ts => Descends f (if t.closing then d else d + 2) ts

variable {f d : Nat} {t : Token} {ts : List Token}

theorem descends_zero : Descends f 0 ts ↔ f = 0 ∧ ts = [] := by
  cases ts <;> rfl

theorem Descends.closing (h : Descends f (d + 1) (t :: ts)) (ht : t.closing = true) :
    Descends f d ts := by
  simpa only [Descends, ht, ite_true] using h

theorem Descends.opening (h : Descends f (d + 1) (t :: ts)) (ht : t.closing = false) :
    Descends f (d + 2) ts := by
  simpa only [Descends, ht, Bool.false_eq_true, ite_false] using h

end OpenWorkflow.Markup

namespace OpenWorkflow.Parser

open OpenWorkflow.Markup (Token Descends)

/-- Fewer than `n` tags lie ahead, and they lead from depth `d` to depth `f`. -/
def At (f d n : Nat) (u : List Token) : Prop := u.length < n ∧ Descends f d u

/-- Fewer than `n` tags lie ahead, and an element begins with them at depth `d`, if the first of
them is a start tag. The stream can be at its end only if the element breaks off. -/
structure Front (f d n : Nat) (u : List Token) : Prop where
  length : u.length < n
  broken : u = [] → f ≠ 0
  inside : ∀ t v, u = t :: v → t.closing = false → Descends f (d + 1) v

/-- The same, and the first of them is a start tag. -/
def Opened (f d n : Nat) (u : List Token) : Prop :=
  Front f d n u ∧ ∃ t v, u = t :: v ∧ t.closing = false

variable {α β σ : Type} {f d n m : Nat} {r u : List Token}

theorem At.mono (h : At f d n u) (hnm : n ≤ m) : At f d m u := ⟨by have := h.1; omega, h.2⟩

theorem At.front (h : At f (d + 1) n u) : Front f (d + 1) n u where
  length := h.1
  broken := by
    rintro rfl
    have hd : f = d + 1 := h.2
    omega
  inside := by
    rintro t v rfl ht
    exact h.2.opening ht

/-- A fault inside tags that lead to depth `f`: no bound was hit, and the tags did not end where
they hold a complete element. -/
structure Proper (f : Nat) (fault : Fault) : Prop where
  unbounded : fault ≠ .stalled
  complete : f = 0 → fault ≠ .endOfInput

theorem Proper.of_isRefusal {fault : Fault} (h : fault.isRefusal = true) : Proper f fault where
  unbounded := by rintro rfl; cases h
  complete := by rintro - rfl; cases h

theorem Proper.endOfInput (hf : f ≠ 0) : Proper f .endOfInput where
  unbounded := nofun
  complete := fun h => absurd h hf

/-- With further tags `r` behind, the first step does what the second one does without them: from
what lies ahead as `A` says it leads to what `B` says, or both fail in the same way. How many tags
were consumed before does not matter to either. -/
def Local (f : Nat) (r : List Token) (A B : List Token → Prop) (p q : Parser α) : Prop :=
  (f ≠ 0 → r = []) → ∀ u c c', A u →
    (∃ a v w, u = v ++ w ∧ B w ∧ p ⟨u ++ r, c⟩ = .ok a ⟨w ++ r, c + v.length⟩ ∧
      q ⟨u, c'⟩ = .ok a ⟨w, c' + v.length⟩) ∨
    ∃ fault owner v w, u = v ++ w ∧ Proper f fault ∧
      p ⟨u ++ r, c⟩ = .error ⟨fault, owner, c + v.length⟩ ⟨w ++ r, c + v.length⟩ ∧
      q ⟨u, c'⟩ = .error ⟨fault, owner, c' + v.length⟩ ⟨w, c' + v.length⟩

namespace Local

variable {A A' B B' C : List Token → Prop} {p q : Parser α}

theorem pre (h : Local f r A B p q) (hA : ∀ u, A' u → A u) : Local f r A' B p q :=
  fun hr u c c' hu => h hr u c c' (hA u hu)

theorem post (h : Local f r A B p q) (hB : ∀ u, B u → B' u) : Local f r A B' p q := by
  intro hr u c c' hu
  refine (h hr u c c' hu).imp_left ?_
  rintro ⟨a, v, w, huv, hw, hp, hq⟩
  exact ⟨a, v, w, huv, hB w hw, hp, hq⟩

theorem pure {a : α} : Local f r A A (Pure.pure a) (Pure.pure a) :=
  fun _ u _ _ hu => .inl ⟨a, [], u, rfl, hu, rfl, rfl⟩

theorem fail {fault : Fault} (h : fault.isRefusal = true := by rfl) :
    Local f r A B (Parser.fail fault owner : Parser α) (Parser.fail fault owner) :=
  fun _ u _ _ _ => .inr ⟨fault, owner, [], u, rfl, .of_isRefusal h, rfl, rfl⟩

/-- Local readers in a row are local. -/
theorem bind {g h : α → Parser β} (hp : Local f r A B p q)
    (hg : ∀ a, Local f r B C (g a) (h a)) : Local f r A C (p >>= g) (q >>= h) := by
  intro hr u c c' hu
  have hlength (c : Nat) (v v' : List Token) : c + v.length + v'.length = c + (v ++ v').length := by
    rw [List.length_append, Nat.add_assoc]
  rcases hp hr u c c' hu with
    ⟨a, v, w, rfl, hw, hpok, hqok⟩ | ⟨fault, owner, v, w, rfl, he, hperr, hqerr⟩
  · rcases hg a hr w (c + v.length) (c' + v.length) hw with
      ⟨b, v', w', rfl, hw', hgok, hhok⟩ | ⟨fault, owner, v', w', rfl, he, hgerr, hherr⟩
    · refine .inl ⟨b, v ++ v', w', (List.append_assoc ..).symm, hw', ?_, ?_⟩
      · simp only [Bind.bind, EStateM.bind, hpok, hgok, hlength]
      · simp only [Bind.bind, EStateM.bind, hqok, hhok, hlength]
    · refine .inr ⟨fault, owner, v ++ v', w', (List.append_assoc ..).symm, he, ?_, ?_⟩
      · simp only [Bind.bind, EStateM.bind, hpok, hgerr, hlength]
      · simp only [Bind.bind, EStateM.bind, hqok, hherr, hlength]
  · refine .inr ⟨fault, owner, v, w, rfl, he, ?_, ?_⟩
    · simp only [Bind.bind, EStateM.bind, hperr]
    · simp only [Bind.bind, EStateM.bind, hqerr]

theorem ite {c : Prop} [Decidable c] {p' q' : Parser α} (hp : Local f r A B p q)
    (hq : Local f r A B p' q') : Local f r A B (if c then p else p') (if c then q else q') := by
  split
  · exact hp
  · exact hq

/-! ## Looking at the front -/

/-- What stands at the front does not depend on the tags behind the element. -/
theorem peek?_append (hr : f ≠ 0 → r = []) (hu : Front f d n u) (c c' : Nat) :
    TokenStream.peek? ⟨u ++ r, c⟩ = TokenStream.peek? ⟨u, c'⟩ := by
  cases u with
  | nil =>
    rw [hr (hu.broken rfl), List.append_nil]
    rfl
  | cons t v => rfl

theorem atEndOf (hA : ∀ u, A u → Front f d n u) :
    Local f r A A (Parser.atEndOf qname) (Parser.atEndOf qname) := by
  intro hr u c c' hu
  refine .inl ⟨_, [], u, rfl, hu, ?_, rfl⟩
  simp only [Parser.atEndOf, TokenStream.atEndOf, peek?_append hr (hA u hu) c c']
  rfl

theorem atStartOf (hA : ∀ u, A u → Front f d n u) :
    Local f r A A (Parser.atStartOf qname) (Parser.atStartOf qname) := by
  intro hr u c c' hu
  refine .inl ⟨_, [], u, rfl, hu, ?_, rfl⟩
  simp only [Parser.atStartOf, TokenStream.atStartOf, peek?_append hr (hA u hu) c c']
  rfl

theorem unexpected : Local f r (Front f d n) B
    (Parser.unexpected owner : Parser α) (Parser.unexpected owner) := by
  intro hr u c c' hu
  refine .inr ⟨_, _, [], u, rfl, .of_isRefusal rfl, ?_, rfl⟩
  simp only [Parser.unexpected, peek?_append hr hu c c']
  rfl

/-- One way or the other, as the front tag says; the first way relies on the start tag. -/
theorem atOpened {p' q' : Parser α} (hp : Local f r (Opened f d n) B p q)
    (hq : Local f r (Front f d n) B p' q') :
    Local f r (Front f d n) B (do if ← Parser.atStartOf qname then p else p')
      (do if ← Parser.atStartOf qname then q else q') := by
  intro hr u c c' hu
  have hfront : TokenStream.atStartOf ⟨u ++ r, c⟩ qname = TokenStream.atStartOf ⟨u, c'⟩ qname := by
    simp only [TokenStream.atStartOf, peek?_append hr hu c c']
  simp only [Bind.bind, EStateM.bind, Parser.atStartOf, hfront]
  cases hat : TokenStream.atStartOf ⟨u, c'⟩ qname with
  | false => exact hq hr u c c' hu
  | true =>
    refine hp hr u c c' ⟨hu, ?_⟩
    cases u with
    | nil => cases hat
    | cons t v =>
      refine ⟨t, v, rfl, ?_⟩
      have hopens : t.opens qname = true := hat
      simp only [Token.opens, Bool.and_eq_true, Bool.not_eq_true'] at hopens
      exact hopens.1

/-- What is looked at is a start tag. -/
theorem peekStart (hA : ∀ u, A u → Front f d n u) :
    Local f r A (fun u => A u ∧ ∃ t v, u = t :: v ∧ t.closing = false) (Parser.peekStart owner)
      (Parser.peekStart owner) := by
  intro hr u c c' hu
  cases u with
  | nil =>
    have hbroken := (hA [] hu).broken rfl
    obtain rfl := hr hbroken
    exact .inr ⟨_, _, [], [], rfl, .endOfInput hbroken, rfl, rfl⟩
  | cons t v =>
    cases ht : t.closing with
    | true =>
      refine .inr ⟨.unexpectedEndTag t.qname, owner, [], t :: v, rfl, .of_isRefusal rfl, ?_, ?_⟩
        <;> simp only [Parser.peekStart, List.cons_append, ht, ite_true] <;> rfl
    | false =>
      refine .inl ⟨t, [], t :: v, rfl, ⟨hu, t, v, rfl, ht⟩, ?_, ?_⟩ <;>
        simp only [Parser.peekStart, List.cons_append, ht, Bool.false_eq_true, ite_false] <;> rfl

/-! ## Consuming tags -/

theorem nextToken : Local f r (Opened f d (n + 1)) (At f (d + 1) n)
    (Parser.nextToken owner) (Parser.nextToken owner) := by
  rintro hr u c c' ⟨hu, t, v, rfl, ht⟩
  refine .inl ⟨t, [t], v, rfl, ⟨?_, hu.inside t v rfl ht⟩, rfl, rfl⟩
  exact Nat.lt_of_succ_lt_succ hu.length

theorem expectStart : Local f r (Front f d (n + 1)) (At f (d + 1) n)
    (Parser.expectStart qname owner) (Parser.expectStart qname owner) := by
  intro hr u c c' hu
  cases u with
  | nil =>
    obtain rfl := hr (hu.broken rfl)
    exact .inr ⟨_, _, [], [], rfl, .of_isRefusal rfl, rfl, rfl⟩
  | cons t v =>
    cases hopens : t.opens qname with
    | true =>
      have ht : t.closing = false := by
        simp only [Token.opens, Bool.and_eq_true, Bool.not_eq_true'] at hopens
        exact hopens.1
      refine .inl ⟨t, [t], v, rfl, ⟨Nat.lt_of_succ_lt_succ hu.length, hu.inside t v rfl ht⟩, ?_, ?_⟩
        <;> simp only [Parser.expectStart, Parser.nextToken, List.cons_append, hopens, ite_true]
        <;> rfl
    | false =>
      refine .inr ⟨.expectedStart qname (some t.describe), owner, [], t :: v, rfl,
        .of_isRefusal rfl, ?_, ?_⟩ <;>
        simp only [Parser.expectStart, List.cons_append, hopens, Bool.false_eq_true, ite_false]
        <;> rfl

theorem expectEnd : Local f r (At f (d + 1) n) (At f d n)
    (Parser.expectEnd qname owner) (Parser.expectEnd qname owner) := by
  intro hr u c c' hu
  cases u with
  | nil =>
    obtain rfl := hr (hu.front.broken rfl)
    exact .inr ⟨_, _, [], [], rfl, .of_isRefusal rfl, rfl, rfl⟩
  | cons t v =>
    cases hcloses : t.closes qname with
    | true =>
      have ht : t.closing = true := by
        simp only [Token.closes, Bool.and_eq_true] at hcloses
        exact hcloses.1
      refine .inl ⟨t, [t], v, rfl, ⟨Nat.lt_of_succ_lt hu.1, hu.2.closing ht⟩, ?_, ?_⟩
        <;> simp only [Parser.expectEnd, Parser.nextToken, List.cons_append, hcloses, ite_true]
        <;> rfl
    | false =>
      refine .inr ⟨.expectedEnd qname (some t.describe), owner, [], t :: v, rfl,
        .of_isRefusal rfl, ?_, ?_⟩ <;>
        simp only [Parser.expectEnd, List.cons_append, hcloses, Bool.false_eq_true, ite_false]
        <;> rfl

/-- A value that is there when the element ends. -/
theorem close {a : α} : Local f r (At f (d + 1) n) (At f d n)
    (do let _ ← Parser.expectEnd qname owner; return a)
    (do let _ ← Parser.expectEnd qname owner; return a) :=
  .bind .expectEnd fun _ => .pure

/-- Levels are skipped down to the depth from which they were opened. -/
theorem skipLevels (k : Nat) : Local f r (At f (d + k) n) (At f d n)
    (fun s => Parser.skipLevels owner k s.tokens s.consumed)
    (fun s => Parser.skipLevels owner k s.tokens s.consumed) := by
  intro hr u c c' hu
  induction u generalizing k c c' with
  | nil =>
    cases k with
    | zero => exact .inl ⟨(), [], [], rfl, hu, by simp [Parser.skipLevels], rfl⟩
    | succ k =>
      obtain rfl := hr ((At.front hu).broken rfl)
      exact .inr ⟨_, _, [], [], rfl, .endOfInput ((At.front hu).broken rfl), rfl, rfl⟩
  | cons t v ih =>
    cases k with
    | zero => exact .inl ⟨(), [], t :: v, rfl, hu, rfl, rfl⟩
    | succ k =>
      have hv : At f (d + if t.closing then k else k + 2) n v := by
        refine ⟨Nat.lt_of_succ_lt hu.1, ?_⟩
        cases ht : t.closing with
        | true => exact hu.2.closing ht
        | false => exact hu.2.opening ht
      have hshift (c : Nat) (w : List Token) : c + 1 + w.length = c + (t :: w).length := by
        rw [List.length_cons]
        omega
      rcases ih _ (c + 1) (c' + 1) hv with
        ⟨a, v', w, rfl, hw, hp, hq⟩ | ⟨fault, owner', v', w, rfl, he, hp, hq⟩
      · refine .inl ⟨a, t :: v', w, rfl, hw, ?_, ?_⟩
        · rw [← hshift]
          exact hp
        · rw [← hshift]
          exact hq
      · refine .inr ⟨fault, owner', t :: v', w, rfl, he, ?_, ?_⟩
        · rw [← hshift]
          exact hp
        · rw [← hshift]
          exact hq

/-- Skipping is local. -/
theorem skipElement : Local f r (Front f d (n + 1)) (At f d n)
    (Parser.skipElement owner) (Parser.skipElement owner) :=
  .bind (.peekStart fun _ => id) fun _ => .bind .nextToken fun _ => .bind (.skipLevels 1) fun _ =>
    .pure

/-! ## Loops -/

/-- A step that consumes a tag, if it succeeds, where that does not matter. -/
theorem within (h : ∀ m < n, Local f r (Front f d (m + 1)) (At f d m) p q) :
    Local f r (Front f d n) (At f d n) p q := by
  cases n with
  | zero => exact fun _ u _ _ hu => absurd hu.length (Nat.not_lt_zero _)
  | succ n => exact .post (h n (Nat.lt_succ_self n)) fun w hw => hw.mono (Nat.le_succ n)

/-- Loops that are bounded by the number of tags ahead do the same, whatever the bounds are. -/
theorem rounds {item item' : σ → Parser σ}
    (hitem : ∀ m < n, ∀ a, Local f r (Front f (d + 1) (m + 1)) (At f (d + 1) m) (item a) (item' a))
    {k k' : Nat} (hk : n ≤ k) (hk' : n ≤ k') (a : σ) :
    Local f r (At f (d + 1) n) (At f (d + 1) n) (Parser.rounds qname owner item k a)
      (Parser.rounds qname owner item' k' a) := by
  induction n generalizing k k' a with
  | zero => exact fun _ u _ _ hu => absurd hu.1 (Nat.not_lt_zero _)
  | succ n ih =>
    obtain ⟨k, rfl⟩ := Nat.exists_eq_add_of_lt hk
    obtain ⟨k', rfl⟩ := Nat.exists_eq_add_of_lt hk'
    have hbody : Local f r (Front f (d + 1) (n + 1)) (At f (d + 1) (n + 1))
        (item a >>= Parser.rounds qname owner item (n + k))
        (item' a >>= Parser.rounds qname owner item' (n + k')) := by
      refine .bind (hitem n (Nat.lt_succ_self n) a) fun b => ?_
      refine .post (ih (fun m hm => hitem m (by omega)) (by omega) (by omega) b) fun w hw => ?_
      exact hw.mono (Nat.le_succ n)
    intro hr u c c' hu
    have hend : TokenStream.atEndOf ⟨u ++ r, c⟩ qname = TokenStream.atEndOf ⟨u, c'⟩ qname := by
      simp only [TokenStream.atEndOf, peek?_append hr hu.front c c']
    simp only [Parser.rounds, Bind.bind, EStateM.bind, Parser.atEndOf, hend]
    cases TokenStream.atEndOf ⟨u, c'⟩ qname with
    | true => exact .inl ⟨a, [], u, rfl, hu, rfl, rfl⟩
    | false => exact hbody hr u c c' hu.front

/-- The tags that remain are as many as the tags ahead, or more. -/
theorem remaining {F G : Nat → Parser α}
    (h : ∀ m k k', m ≤ n → m ≤ k + 1 → m ≤ k' + 1 → Local f r (At f d m) B (F k) (G k')) :
    Local f r (At f d n) B (Parser.remaining >>= F) (Parser.remaining >>= G) := by
  intro hr u c c' hu
  have hlength : u.length ≤ (u ++ r).length := by
    rw [List.length_append]
    omega
  exact h (u.length + 1) _ _ hu.1 (Nat.succ_le_succ hlength) (Nat.le_refl _) hr u c c'
    ⟨Nat.lt_succ_self _, hu.2⟩

/-- A loop of local rounds is local. -/
theorem untilEnd {item item' : σ → Parser σ}
    (hitem : ∀ m < n, ∀ a, Local f r (Front f (d + 1) (m + 1)) (At f (d + 1) m) (item a) (item' a))
    (a : σ) :
    Local f r (At f (d + 1) n) (At f (d + 1) n) (Parser.untilEnd qname owner item a)
      (Parser.untilEnd qname owner item' a) := by
  refine .remaining fun m k k' hm hk hk' => ?_
  refine .post (rounds (fun m' hm' => hitem m' (by omega)) hk hk' a) fun w hw => ?_
  exact hw.mono hm

end Local

end OpenWorkflow.Parser
