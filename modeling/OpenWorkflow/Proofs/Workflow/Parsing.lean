import OpenWorkflow.Workflow.Reader.Basic

/-!
# What reading gives

`Parser.Yields T p P` says of a step of reading that its value has the property
`P`, if it succeeds, and that it makes up no tags: if all tags of the stream have
the property `T`, so have those that remain. For each primitive step and each way
of combining steps there is one law.
-/

namespace OpenWorkflow.Parser

open OpenWorkflow.Markup (Token)

variable {α β σ : Type} {T : Token → Prop} {p : Parser α} {P Q : α → Prop}

variable {owner qname : String}

/-- The value of the step, if there is one, and the tags that remain are as described. -/
def Yields (T : Token → Prop) (p : Parser α) (P : α → Prop) : Prop :=
  ∀ s a s', (∀ t ∈ s.tokens, T t) → p s = .ok a s' → (∀ t ∈ s'.tokens, T t) ∧ P a

namespace Yields

theorem pure {a : α} (h : P a) : Yields T (Pure.pure a) P := by
  intro s b s' hs heq
  obtain ⟨rfl, rfl⟩ := EStateM.Result.ok.inj heq
  exact ⟨hs, h⟩

/-- What readers in a row yield. -/
theorem bind {f : α → Parser β} {R : β → Prop} (hp : Yields T p P)
    (hf : ∀ a, P a → Yields T (f a) R) : Yields T (p >>= f) R := by
  intro s b s'' hs heq
  simp only [Bind.bind, EStateM.bind] at heq
  split at heq
  · rename_i a s' hok
    obtain ⟨hs', ha⟩ := hp s a s' hs hok
    exact hf a ha s' b s'' hs' heq
  · cases heq

theorem imp (hp : Yields T p P) (h : ∀ a, P a → Q a) : Yields T p Q := by
  intro s a s' hs heq
  obtain ⟨hs', ha⟩ := hp s a s' hs heq
  exact ⟨hs', h a ha⟩

theorem ite {c : Prop} [Decidable c] {q : Parser α} (hp : Yields T p P) (hq : Yields T q P) :
    Yields T (if c then p else q) P := by
  split
  · exact hp
  · exact hq

theorem fail {fault : Fault} : Yields T (Parser.fail fault owner : Parser α) P := by
  intro s a s' _ heq
  cases heq

theorem unexpected : Yields T (Parser.unexpected owner : Parser α) P := by
  intro s a s' _ heq
  cases heq

/-! ## Primitive steps -/

/-- A step that only looks. -/
theorem look {f : TokenStream → α} : Yields T (fun s => .ok (f s) s) fun _ => True := by
  intro s a s' hs heq
  obtain ⟨-, rfl⟩ := EStateM.Result.ok.inj heq
  exact ⟨hs, trivial⟩

theorem atStartOf : Yields T (Parser.atStartOf qname) fun _ => True := look

/-- One way or the other, as the front tag says. -/
theorem atStart {q : Parser α} (hp : Yields T p P) (hq : Yields T q P) :
    Yields T (do if ← Parser.atStartOf qname then p else q) P :=
  .bind .atStartOf fun _ _ => .ite hp hq

theorem atEndOf : Yields T (Parser.atEndOf qname) fun _ => True := look

theorem remaining : Yields T Parser.remaining fun _ => True := look

theorem peekStart : Yields T (Parser.peekStart owner) T := by
  intro s a s' hs heq
  unfold Parser.peekStart at heq
  split at heq
  · cases heq
  · rename_i t ts hts
    split at heq
    · cases heq
    · obtain ⟨rfl, rfl⟩ := EStateM.Result.ok.inj heq
      exact ⟨hs, hs _ (hts ▸ List.mem_cons_self ..)⟩

theorem nextToken : Yields T (Parser.nextToken owner) T := by
  intro s a s' hs heq
  unfold Parser.nextToken at heq
  split at heq
  · cases heq
  · rename_i t ts hts
    obtain ⟨rfl, rfl⟩ := EStateM.Result.ok.inj heq
    rw [hts] at hs
    exact ⟨fun t ht => hs t (List.mem_cons_of_mem _ ht), hs _ (List.mem_cons_self ..)⟩

theorem expectStart : Yields T (Parser.expectStart qname owner) T := by
  intro s a s' hs heq
  unfold Parser.expectStart at heq
  split at heq
  · cases heq
  · split at heq
    · exact nextToken s a s' hs heq
    · cases heq

theorem expectEnd : Yields T (Parser.expectEnd qname owner) T := by
  intro s a s' hs heq
  unfold Parser.expectEnd at heq
  split at heq
  · cases heq
  · split at heq
    · exact nextToken s a s' hs heq
    · cases heq

/-- A value that is there when the element ends. -/
theorem close {a : α} (ha : P a) : Yields T (do let _ ← Parser.expectEnd qname owner; return a) P :=
  .bind .expectEnd fun _ _ => .pure ha

theorem skipLevels (depth : Nat) :
    Yields T (fun s => Parser.skipLevels owner depth s.tokens s.consumed) fun _ => True := by
  rintro ⟨ts, consumed⟩ a s' hs heq
  refine ⟨?_, trivial⟩
  simp only at heq
  induction ts generalizing depth consumed with
  | nil =>
    cases depth with
    | zero =>
      obtain ⟨-, rfl⟩ := EStateM.Result.ok.inj heq
      exact hs
    | succ depth => cases heq
  | cons t ts ih =>
    cases depth with
    | zero =>
      obtain ⟨-, rfl⟩ := EStateM.Result.ok.inj heq
      exact hs
    | succ depth => exact ih _ _ (fun t ht => hs t (List.mem_cons_of_mem _ ht)) heq

theorem skipElement : Yields T (Parser.skipElement owner) T :=
  .bind .peekStart fun _ _ => .bind .nextToken fun _ ht =>
    .bind (.skipLevels 1) fun _ _ => .pure ht

/-! ## Loops -/

/-- What every round keeps, a loop yields. -/
theorem rounds {item : σ → Parser σ} {P : σ → Prop} (hitem : ∀ a, P a → Yields T (item a) P)
    (n : Nat) {a : σ} (ha : P a) : Yields T (Parser.rounds qname owner item n a) P := by
  induction n generalizing a with
  | zero => exact .fail
  | succ n ih =>
    refine .bind .atEndOf fun b _ => ?_
    cases b with
    | true => exact .pure ha
    | false => exact .bind (hitem a ha) fun b hb => ih hb

/-- What every item keeps holds in the end. -/
theorem untilEnd {item : σ → Parser σ} {P : σ → Prop} (hitem : ∀ a, P a → Yields T (item a) P)
    {a : σ} (ha : P a) : Yields T (Parser.untilEnd qname owner item a) P :=
  .bind .remaining fun n _ => rounds hitem (n + 1) ha

end Yields

end OpenWorkflow.Parser

namespace OpenWorkflow.Reader

open OpenWorkflow.Parser (Yields)

variable {T : Markup.Token → Prop} {P : Activity → Prop} {child : ChildReader}

theorem reference_yields : Yields T (reference owner) fun _ => True := by
  refine .bind .expectStart fun start _ => ?_
  have hitem (_ : Unit) (_ : True) :
      Yields T (do let _ ← Parser.skipElement owner) fun _ => True :=
    .bind .skipElement fun _ _ => .pure trivial
  refine .bind (.untilEnd hitem trivial) fun _ _ => .bind .expectEnd fun _ _ => ?_
  split
  · exact .pure trivial
  · exact .fail

/-- An element whose content is read item by item. -/
theorem element_yields {σ τ : Type} {item : σ → Parser σ} {init : σ} {f : σ → τ} {Q : σ → Prop}
    {R : τ → Prop} (hitem : ∀ a, Q a → Yields T (item a) Q) (hinit : Q init)
    (hf : ∀ a, Q a → R (f a)) :
    Yields T (do
      let _ ← Parser.expectStart qname owner
      let a ← Parser.untilEnd qname owner item init
      let _ ← Parser.expectEnd qname owner
      return f a) R :=
  .bind .expectStart fun _ _ => .bind (.untilEnd hitem hinit) fun a ha =>
    .close (hf a ha)

theorem wrapped_yields (hchild : ∀ owner, Yields T (child owner) P) {wrapper : String} :
    Yields T (wrapped child wrapper owner) fun a => ∀ c ∈ a.toList, P c := by
  refine .bind .expectStart fun _ _ => .bind .atEndOf fun _ _ => .bind .atStartOf fun _ _ => ?_
  refine .ite (.close (by simp)) (.ite (.bind .skipElement fun _ _ => .close (by simp)) ?_)
  exact .bind (hchild owner) fun c hc => .close (by simpa using hc)

end OpenWorkflow.Reader
