import OpenWorkflow.Proofs.Workflow.Agreement

/-!
# One element in place of another

Every reader agrees with itself on two documents that differ in one element, if the readers
of activities and of the nodes of flowcharts agree on the two elements (`Interchangeable`).
So a document can be read with the one element if and only if it can be read with the other,
and then as the same activity (`Interchangeable.parseDocument_eq`).
-/

namespace OpenWorkflow

open OpenWorkflow.Markup (Token Element Akin Variants)
open OpenWorkflow.Parser (Agree Ahead Past Pair)

variable {e e' : Element} {rest : List Token} {n n' : Nat}

/-- The tags ahead at a stage of an element with at most `n + 1` tags in the one document and
`n' + 1` in the other. -/
def Stage.Pairs (e e' : Element) (rest : List Token) (n n' : Nat) :
    Stage → List Token → List Token → Prop
  | before => Ahead e e' rest (n + 1) (n' + 1)
  | opened => Past e e' rest (n + 1) (n' + 1)
  | inside | behind => Ahead e e' rest n n'

/-- Runs on two documents that differ in one element. The level of an element is its number of tags
in the one and in the other. -/
def Comparison.agree (hvar : Variants e e') (rest : List Token) : Comparison where
  Level := Nat × Nat
  lt i j := i.1 < j.1 ∧ i.2 < j.2
  trans h h' := ⟨h.1.trans h'.1, h.2.trans h'.2⟩
  Rel i A B _ p q := Agree (A.Pairs e e' rest i.1 i.2) (B.Pairs e e' rest i.1 i.2) Eq p q
  Sees A qname := A = .opened ∨ A = .before ∧ e.qname ≠ qname
  Fits i k k' := i.1 ≤ k ∧ i.2 ≤ k'
  Meets i _ p q := e.tokens.length ≤ i.1 → e'.tokens.length ≤ i.2 →
    Agree (Pair (e.tokens ++ rest) (e'.tokens ++ rest)) (Pair rest rest) Eq p q
  sees_activity hname := .inr ⟨rfl, hvar.ne_activityName hname⟩
  sees_language := .inr ⟨rfl, hvar.ne_languageName _⟩
  sees_opened := .inl rfl
  fits_lt {i j k k'} _ _ := ⟨k - 1, k' - 1, by omega, by omega, by omega, by omega⟩
  of_before h := .pre h fun _ _ => Past.toAhead
  pure := .pure rfl
  bind := .bind
  fail _ := .fail
  unexpected := .unexpected
  atEndOf := .atEndOf
  atStartOf {i A qname} hA := by
    cases A with
    | before => exact .atStartOf hvar
    | opened => exact .atStartOf_past
    | inside => exact .atStartOf hvar
    | behind => exact absurd rfl hA
  atOpened hA hp hq := by
    rcases hA with rfl | ⟨rfl, hname⟩
    · exact .atStart_past hp hq
    · exact .atOpened hvar hname hp hq
  peekStart := .peeking
  peekLabel := .peekLabel hvar
  nextToken := .nextToken
  expectStart hA := by
    rcases hA with rfl | ⟨rfl, hname⟩
    · exact .expectStart_past
    · exact .expectStart hvar hname
  expectEnd := .expectEnd
  skipElement := .skipElement
  skipOpened := .skipElement_past
  part h := .within fun m hm m' hm' => h (m, m') ⟨hm, hm'⟩
  untilEnd h := .untilEnd fun m hm m' hm' => h (m, m') ⟨hm, hm'⟩
  remaining h := .remaining fun m m' k k' hm hm' hk hk' =>
    .post (h (m, m') k k' (fun _ hl => ⟨hl.1.trans_le hm, hl.2.trans_le hm'⟩) ⟨hk, hk'⟩)
      fun _ _ hw => hw.mono hm hm'

/-- The two elements are read the same, as activities and as nodes of a flowchart, whatever stands
behind them and if the bounds allow for their tags. -/
structure Interchangeable (e e' : Element) : Prop extends Variants e e' where
  child : ∀ rest k k' owner, e.tokens.length < k → e'.tokens.length < k' →
    Agree (Pair (e.tokens ++ rest) (e'.tokens ++ rest)) (Pair rest rest) Eq
      (Registry.standard.child k owner) (Registry.standard.child k' owner)
  node : ∀ rest k k' j j' g, e.tokens.length ≤ k → e'.tokens.length ≤ k' →
    e.tokens.length < j → e'.tokens.length < j' →
    Agree (Pair (e.tokens ++ rest) (e'.tokens ++ rest)) (Pair rest rest) Eq
      (Reader.Flowchart.node (Registry.standard.child k) j g)
      (Reader.Flowchart.node (Registry.standard.child k') j' g)

/-- Readers of children agree on interchangeable elements. -/
theorem Interchangeable.child_agree (h : Interchangeable e e') {k k' : Nat} (hk : n ≤ k)
    (hk' : n' ≤ k') : (Comparison.agree h.toVariants rest).Below (n, n')
      (Registry.standard.child k) (Registry.standard.child k') := by
  refine Comparison.below_child _ Registry.resolve?_standard_ne_empty ?_ ?_ ⟨hk, hk'⟩
  · rintro i j k k' owner ⟨hlt, hlt'⟩ ⟨hk, hk'⟩ he he'
    exact h.child rest k k' owner (by omega) (by omega)
  · rintro i k k' ⟨hk, hk'⟩ j l m m' g ⟨hlt, hlt'⟩ ⟨hl, hl'⟩ ⟨hm, hm'⟩ he he'
    exact h.node rest k k' m m' g (by omega) (by omega) (by omega) (by omega)

/-! ## Documents -/

theorem finished_agree :
    Agree (Ahead e e' rest n n') (Ahead e e' rest n n') Eq finished finished := by
  intro u u' c c' hu
  cases hu.akin with
  | nil => exact .inl ⟨_, _, [], [], c, c', rfl, hu, rfl, rfl⟩
  | cons t _ => exact .inr ⟨⟨_, _, rfl⟩, _, _, rfl⟩
  | swap =>
    obtain ⟨v, hv⟩ := e.exists_tokens rest
    obtain ⟨v', hv'⟩ := e'.exists_tokens rest
    rw [hv, hv']
    exact .inr ⟨⟨_, _, rfl⟩, _, _, rfl⟩

theorem Markup.Variants.not_root (h : Variants e e') : e.qname ∉ rootNames := by
  intro hroot
  rcases List.mem_pair.1 hroot with hroot | hroot
  · exact h.ne_activityName (by decide) hroot
  · obtain ⟨flow, -, heq⟩ := List.mem_map.1 h.name
    have hns := (qualify_inj (Namespace.brace_not_mem (by simp [Namespace.known]))
      (Namespace.brace_not_mem (by simp [Namespace.known])) (heq.trans hroot)).1
    exact absurd hns (by decide +kernel)

/-- Readers of documents agree on interchangeable elements. -/
theorem Interchangeable.document_agree (h : Interchangeable e e') :
    Agree (Ahead e e' rest (n + 1) (n' + 1)) (Ahead e e' rest n n') Eq
      (document Registry.standard) (document Registry.standard) := by
  refine .peeking (fun _ _ => .peekFront ?_) fun root => ?_
  · rw [Element.qname_start, Element.qname_start, ← h.same, if_neg h.toVariants.not_root]
    exact .fail
  · refine .ite ?_ .fail
    refine .bind .nextToken fun _ => .bind ?_ fun _ => .bind .expectEnd fun _ =>
      .bind finished_agree fun _ => .pure rfl
    refine .remaining fun m m' k k' hm hm' hk hk' => ?_
    refine .post (.within fun l hl l' hl' => ?_) fun _ _ hw => hw.mono hm hm'
    exact h.child_agree hk hk' (l, l') ⟨hl, hl'⟩ _

/-- Documents that differ in two interchangeable elements are read as the same activity, or
neither is read. -/
theorem Interchangeable.parseDocument_eq (h : Interchangeable e e') (before after : List Token) :
    (parseDocument Registry.standard (before ++ (e.tokens ++ after))).toOption
      = (parseDocument Registry.standard (before ++ (e'.tokens ++ after))).toOption := by
  have hakin : Akin e e' after (before ++ (e.tokens ++ after)) (before ++ (e'.tokens ++ after)) :=
    .append before .swap
  have hagree := h.document_agree _ _ 0 0 ⟨hakin, Nat.lt_succ_self _, Nat.lt_succ_self _⟩
  unfold parseDocument TokenStream.ofList
  rcases hagree with ⟨a, b, w, w', k, k', rfl, -, hok, hok'⟩ | ⟨⟨x, s, herr⟩, x', s', herr'⟩
  · rw [hok, hok']
  · rw [herr, herr']
    rfl

end OpenWorkflow
