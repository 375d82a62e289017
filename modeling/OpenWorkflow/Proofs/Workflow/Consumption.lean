import OpenWorkflow.Proofs.Workflow.Elements

/-!
# What reading an activity consumes

Among the beginnings of a list of tags that are not empty and have as many end
tags as start tags, the shortest is the element at its front. An activity is read
from exactly that element. Neither the activity nor an error depends on what
stands behind it, and nothing behind it is consumed.
-/

namespace OpenWorkflow.Markup

variable {a : Activity} {rest : List Token} {owner : String} {s : TokenStream}

/-- There are as many end tags as start tags. -/
def Balanced (ts : List Token) : Prop :=
  ts.countP (fun t => t.closing) = ts.countP (fun t => !t.closing)

/-- The shortest beginning that is not empty and is balanced. -/
structure IsFirstElement (e ts : List Token) : Prop where
  front : ∃ rest, ts = e ++ rest
  ne_nil : e ≠ []
  balanced : Balanced e
  shortest : ∀ p rest, ts = p ++ rest → p ≠ [] → Balanced p → e.length ≤ p.length

variable {f d : Nat} {t : Token} {e ts : List Token}

/-! ## Depth and balance -/

/-- The depth changes by the number of start tags less that of end tags. -/
theorem Descends.count (h : Descends f d ts) :
    d + ts.countP (fun t => !t.closing) = f + ts.countP (fun t => t.closing) := by
  induction ts generalizing d with
  | nil =>
    cases d with
    | zero => simp [h.1]
    | succ d =>
      have hf : f = d + 1 := h
      simp [hf]
  | cons t ts ih =>
    cases d with
    | zero => cases h.2
    | succ d =>
      cases ht : t.closing with
      | true =>
        have hrest := ih (h.closing ht)
        simp only [List.countP_cons, ht, Bool.not_true, Bool.false_eq_true, ite_false, ite_true]
        omega
      | false =>
        have hrest := ih (h.opening ht)
        simp only [List.countP_cons, ht, Bool.not_false, Bool.false_eq_true, ite_false, ite_true]
        omega

/-- A beginning that leads to the ground is the whole. -/
theorem Descends.eq_of_ground {p : List Token} (h : Descends f (d + 1) (p ++ rest))
    (hp : d + 1 + p.countP (fun t => !t.closing) = p.countP (fun t => t.closing)) : rest = [] := by
  induction p generalizing d with
  | nil => simp at hp
  | cons t p ih =>
    rw [List.cons_append] at h
    cases ht : t.closing with
    | true =>
      simp only [List.countP_cons, ht, Bool.not_true, Bool.false_eq_true, ite_false, ite_true] at hp
      have hrest := h.closing ht
      cases d with
      | zero => exact (List.append_eq_nil_iff.1 (descends_zero.1 hrest).2).2
      | succ d => exact ih hrest (by omega)
    | false =>
      simp only [List.countP_cons, ht, Bool.not_false, Bool.false_eq_true, ite_false,
        ite_true] at hp
      exact ih (h.opening ht) (by omega)

/-- Tags that are on the ground at their end, and not before, lead to it. -/
theorem descends_of_ground
    (hcount : d + 1 + ts.countP (fun t => !t.closing) = ts.countP (fun t => t.closing))
    (hfirst : ∀ p rest, ts = p ++ rest →
      d + 1 + p.countP (fun t => !t.closing) = p.countP (fun t => t.closing) → rest = []) :
    Descends 0 (d + 1) ts := by
  induction ts generalizing d with
  | nil => simp at hcount
  | cons t ts ih =>
    have hlater (p rest : List Token) (hp : ts = p ++ rest)
        (hground : d + 1 + (t :: p).countP (fun t => !t.closing)
          = (t :: p).countP (fun t => t.closing)) : rest = [] :=
      hfirst (t :: p) rest (by rw [hp, List.cons_append]) hground
    unfold Descends
    cases ht : t.closing with
    | true =>
      simp only [List.countP_cons, ht, Bool.not_true, Bool.false_eq_true, ite_false,
        ite_true] at hcount hlater ⊢
      cases d with
      | zero => exact descends_zero.2 ⟨rfl, hlater [] ts rfl rfl⟩
      | succ d => exact ih (by omega) fun p rest hp hground => hlater p rest hp (by omega)
    | false =>
      simp only [List.countP_cons, ht, Bool.not_false, Bool.false_eq_true, ite_false,
        ite_true] at hcount hlater ⊢
      exact ih (by omega) fun p rest hp hground => hlater p rest hp (by omega)

/-- From any depth the tags come to the ground somewhere or never. -/
theorem exists_descends (d : Nat) (ts : List Token) :
    (∃ v rest, ts = v ++ rest ∧ Descends 0 d v) ∨ ∃ f, f ≠ 0 ∧ Descends f d ts := by
  induction ts generalizing d with
  | nil =>
    cases d with
    | zero => exact .inl ⟨[], [], rfl, rfl, rfl⟩
    | succ d => exact .inr ⟨d + 1, Nat.succ_ne_zero d, rfl⟩
  | cons t ts ih =>
    cases d with
    | zero => exact .inl ⟨[], t :: ts, rfl, rfl, rfl⟩
    | succ d =>
      rcases ih (if t.closing then d else d + 2) with ⟨v, rest, rfl, hv⟩ | ⟨f, hf, hts⟩
      · exact .inl ⟨t :: v, rest, rfl, hv⟩
      · exact .inr ⟨f, hf, hts⟩

/-- A start tag with the tags that lead back to the ground is the first element. -/
theorem isFirstElement_of_descends {v : List Token} (ht : t.closing = false) (hv : Descends 0 1 v) :
    IsFirstElement (t :: v) (t :: v ++ rest) where
  front := ⟨rest, rfl⟩
  ne_nil := List.cons_ne_nil t v
  balanced := by
    have hcount := hv.count
    simp only [Balanced, List.countP_cons, ht, Bool.not_false, Bool.false_eq_true, ite_false,
      ite_true]
    omega
  shortest := by
    intro p rest' hp hne hbalanced
    cases p with
    | nil => exact absurd rfl hne
    | cons t' p =>
      rw [List.cons_append, List.cons_append] at hp
      obtain ⟨rfl, htail⟩ := List.cons.inj hp
      simp only [Balanced, List.countP_cons, ht, Bool.not_false, Bool.false_eq_true, ite_false,
        ite_true] at hbalanced
      -- A shorter beginning would lie within the element and reach the ground before its end.
      refine Nat.le_of_not_lt fun hlt => ?_
      rw [List.length_cons, List.length_cons] at hlt
      obtain ⟨w, rfl, -⟩ | ⟨w, rfl, -⟩ := List.append_eq_append_iff.1 htail
      · rw [List.length_append] at hlt
        omega
      · have hw : w = [] := hv.eq_of_ground (by omega)
        simp [hw] at hlt

/-- At the front of the first element a reader finds what it needs. -/
theorem IsFirstElement.front_at (h : IsFirstElement e ts) :
    Parser.Front 0 0 (e.length + 1) e where
  length := Nat.lt_succ_self _
  broken := fun hnil => absurd hnil h.ne_nil
  inside := by
    rintro t v rfl ht
    obtain ⟨rest, rfl⟩ := h.front
    have hbalanced := h.balanced
    simp only [Balanced, List.countP_cons, ht, Bool.not_false, Bool.false_eq_true, ite_false,
      ite_true] at hbalanced
    refine descends_of_ground (by omega) fun p rest' hp hground => ?_
    have hlength := h.shortest (t :: p) (rest' ++ rest)
      (by rw [hp, List.cons_append, List.cons_append, List.append_assoc])
      (List.cons_ne_nil t p) (by
        simp only [Balanced, List.countP_cons, ht, Bool.not_false, Bool.false_eq_true, ite_false,
          ite_true]
        omega)
    rw [hp] at hlength
    simp only [List.length_cons, List.length_append] at hlength
    exact List.eq_nil_of_length_eq_zero (by omega)

end OpenWorkflow.Markup

namespace OpenWorkflow.Registry

open OpenWorkflow.Markup (Token Namespace.activities IsFirstElement exists_descends
  isFirstElement_of_descends descends_zero)
open OpenWorkflow.Parser (At Front)

/-- The activity is of the type that the name of the first tag stands for. -/
theorem parseChild_type {reg : Registry} {c : Nat} {t : Token} {v : List Token}
    (h : reg.parseChild owner ⟨t :: v, c⟩ = .ok a s) :
    t.closing = false ∧ reg.resolve? t.qname = some a.type := by
  have hfront : reg.child (v.length + 1 + 1) owner ⟨t :: v, c⟩ = .ok a s := h
  unfold Registry.child at hfront
  simp only [Parser.peekStart, Bind.bind, EStateM.bind] at hfront
  cases ht : t.closing with
  | true =>
    rw [ht] at hfront
    cases hfront
  | false =>
    refine ⟨rfl, ?_⟩
    rw [ht] at hfront
    simp only [Bool.false_eq_true, ite_false] at hfront
    cases hresolve : reg.resolve? t.qname with
    | none =>
      rw [hresolve] at hfront
      cases hfront
    | some type =>
      rw [hresolve] at hfront
      have hyields : Parser.Yields (fun _ => True) (type.read (reg.child (v.length + 1)))
          (Reader.ReadAs type fun _ => True) :=
        type.read_yields (fun owner => (reg.child_yields _ owner).imp fun _ _ => trivial) trivial
      exact congrArg some (hyields _ _ _ (fun _ _ => trivial) hfront).2.type.symm

section

variable {reg : Registry} (hreg : ∀ qname, reg.resolve? qname ≠ some .empty) {c : Nat}
  {e ts : List Token}
include hreg

/-- The first element is read or refused as if it stood alone, whatever stands behind it and however
many tags were consumed before. -/
theorem parseChild_compare (he : IsFirstElement e ts) (owner : String) (rest : List Token)
    (c' : Nat) :
    (∃ a, reg.parseChild owner ⟨e ++ rest, c⟩ = .ok a ⟨rest, c + e.length⟩ ∧
      reg.parseChild owner ⟨e, c'⟩ = .ok a ⟨[], c' + e.length⟩) ∨
    ∃ fault owner' v w, e = v ++ w ∧
      reg.parseChild owner ⟨e ++ rest, c⟩
        = .error ⟨fault, owner', c + v.length⟩ ⟨w ++ rest, c + v.length⟩ ∧
      reg.parseChild owner ⟨e, c'⟩ = .error ⟨fault, owner', c' + v.length⟩ ⟨w, c' + v.length⟩ := by
  rcases child_local (r := rest) hreg
      (show e.length + 1 ≤ (e ++ rest).length + 1 by rw [List.length_append]; omega)
      (Nat.le_refl (e.length + 1)) (0, e.length) (Nat.lt_succ_self _) owner
      (fun hf => absurd rfl hf) e c c' he.front_at with
    ⟨a, v, w, hvw, hw, hrun, hrun'⟩ | ⟨fault, owner', v, w, hvw, -, hruns⟩
  · obtain rfl := (descends_zero.1 hw.2).2
    rw [List.append_nil] at hvw
    rw [← hvw] at hrun hrun'
    exact .inl ⟨a, hrun, hrun'⟩
  · exact .inr ⟨fault, owner', v, w, hvw, hruns⟩

/-- The first element is read as a whole or refused, in the same way whatever stands behind. -/
theorem parseChild_append (he : IsFirstElement e ts) (owner : String) :
    (∃ a, ∀ rest, reg.parseChild owner ⟨e ++ rest, c⟩ = .ok a ⟨rest, c + e.length⟩) ∨
    ∃ err v w, e = v ++ w ∧ ∀ rest,
      reg.parseChild owner ⟨e ++ rest, c⟩ = .error err ⟨w ++ rest, c + v.length⟩ := by
  -- All runs agree with the run on the element alone, which decides.
  cases halone : reg.parseChild owner ⟨e, c⟩ with
  | ok a s =>
    refine .inl ⟨a, fun rest => ?_⟩
    rcases parseChild_compare hreg he owner rest c with ⟨b, hrun, hrun'⟩ | ⟨_, _, _, _, _, _, hrun'⟩
    · obtain ⟨rfl, -⟩ := EStateM.Result.ok.inj (halone.symm.trans hrun')
      exact hrun
    · cases halone.symm.trans hrun'
  | error err s =>
    rcases parseChild_compare (c := c) hreg he owner [] c with
      ⟨_, _, hrun'⟩ | ⟨_, _, v, w, hvw, -, hrun'⟩
    · cases halone.symm.trans hrun'
    · refine .inr ⟨err, v, w, hvw, fun rest => ?_⟩
      rcases parseChild_compare hreg he owner rest c with
        ⟨_, _, hrest⟩ | ⟨_, _, v', w', hvw', hrun, hrest⟩
      · cases halone.symm.trans hrest
      · obtain ⟨rfl, hs⟩ := EStateM.Result.error.inj (halone.symm.trans hrest)
        obtain ⟨-, hs'⟩ := EStateM.Result.error.inj (halone.symm.trans hrun')
        obtain ⟨rfl, -⟩ := TokenStream.mk.inj (hs.symm.trans hs')
        obtain rfl := List.append_cancel_right (hvw.symm.trans hvw')
        exact hrun

/-- The first element is read alike where it stands alone. -/
theorem parseChild_alone (he : IsFirstElement e ts)
    (h : reg.parseChild owner ⟨e ++ rest, c⟩ = .ok a s) :
    s.tokens = rest ∧ reg.parseChild owner (.ofList e) = .ok a ⟨[], e.length⟩ := by
  rcases parseChild_compare hreg he owner rest 0 with ⟨b, hrun, hrun'⟩ | ⟨_, _, _, _, _, hrun, _⟩
  · obtain ⟨rfl, rfl⟩ := EStateM.Result.ok.inj (h.symm.trans hrun)
    rw [Nat.zero_add] at hrun'
    exact ⟨rfl, hrun'⟩
  · cases h.symm.trans hrun

/-- An element that is read by itself is read wherever it stands, and nothing else is consumed. -/
theorem parseChild_within (he : IsFirstElement e ts)
    (h : reg.parseChild owner (.ofList e) = .ok a s) (rest : List Token) :
    reg.parseChild owner ⟨e ++ rest, c⟩ = .ok a ⟨rest, c + e.length⟩ := by
  rcases parseChild_compare hreg he owner rest 0 with ⟨b, hrun, hrun'⟩ | ⟨_, _, _, _, _, _, hrun'⟩
  · obtain ⟨rfl, -⟩ := EStateM.Result.ok.inj (h.symm.trans hrun')
    exact hrun
  · cases h.symm.trans hrun'

/-- No activity is read where the tags break off inside the element. -/
theorem parseChild_broken {f : Nat} (hf : f ≠ 0) (hts : Front f 0 (ts.length + 1) ts) :
    reg.parseChild owner ⟨ts, c⟩ ≠ .ok a s := by
  intro h
  have hk : ts.length + 1 ≤ ts.length + 1 := Nat.le_refl _
  rcases child_local (r := []) hreg hk hk (0, ts.length) (Nat.lt_succ_self _) owner
    (fun _ => rfl) ts c c hts with ⟨_, _, w, _, hw, _, _⟩ | ⟨_, _, _, _, _, _, _, hrun⟩
  · exact hf (descends_zero.1 hw.2).1
  · cases h.symm.trans hrun

/-- An activity is read only where the tags begin with an element. -/
theorem exists_isFirstElement (h : reg.parseChild owner ⟨ts, c⟩ = .ok a s) :
    ∃ t v rest, ts = t :: v ++ rest ∧ IsFirstElement (t :: v) ts := by
  have hlength : ts.length < ts.length + 1 := Nat.lt_succ_self _
  cases ts with
  | nil =>
    refine absurd h (parseChild_broken hreg Nat.one_ne_zero ⟨hlength, fun _ => Nat.one_ne_zero, ?_⟩)
    exact nofun
  | cons t v =>
    cases ht : t.closing with
    | true =>
      refine absurd h (parseChild_broken hreg Nat.one_ne_zero ⟨hlength, nofun, ?_⟩)
      rintro _ _ ⟨⟩ hopening
      exact absurd (ht.symm.trans hopening) (by decide)
    | false =>
      rcases exists_descends 1 v with ⟨v, rest, rfl, hv⟩ | ⟨f, hf, hv⟩
      · exact ⟨t, v, rest, rfl, isFirstElement_of_descends ht hv⟩
      · refine absurd h (parseChild_broken hreg hf ⟨hlength, nofun, ?_⟩)
        rintro _ _ ⟨⟩ -
        exact hv

end

/-- An activity is read from the first element: that element is consumed and nothing behind it,
its first tag is the start tag of the activity, and whatever stands behind it the same activity is
read. Where an element stands at the front and is refused, it is refused with the same error
whatever stands behind it, and what remains is a rest of it before what stood behind. -/
theorem parseChild_standard (owner : String) (ts : List Token) (c : Nat) :
    (∀ a s, standard.parseChild owner ⟨ts, c⟩ = .ok a s →
      ∃ e rest, ts = e ++ rest ∧ IsFirstElement e ts ∧ s = ⟨rest, c + e.length⟩ ∧
        (∃ t, e.head? = some t ∧ t.opens a.type.qname) ∧
        ∀ rest', standard.parseChild owner ⟨e ++ rest', c⟩ = .ok a ⟨rest', c + e.length⟩) ∧
    ∀ e rest err s, ts = e ++ rest → IsFirstElement e ts →
      standard.parseChild owner ⟨ts, c⟩ = .error err s →
        ∃ v w, e = v ++ w ∧ s = ⟨w ++ rest, c + v.length⟩ ∧
          ∀ rest', standard.parseChild owner ⟨e ++ rest', c⟩ =
            .error err ⟨w ++ rest', c + v.length⟩ := by
  constructor
  · intro a s h
    obtain ⟨t, v, rest, rfl, he⟩ := exists_isFirstElement resolve?_standard_ne_empty h
    rcases parseChild_append resolve?_standard_ne_empty he owner with ⟨b, hb⟩ | ⟨_, _, _, _, herr⟩
    · obtain ⟨rfl, hs⟩ := EStateM.Result.ok.inj (h.symm.trans (hb rest))
      refine ⟨t :: v, rest, rfl, he, hs, ⟨t, rfl, ?_⟩, hb⟩
      obtain ⟨ht, hresolve⟩ := parseChild_type h
      simp only [Token.opens, ht, (resolve?_standard hresolve).2, Bool.not_false, beq_self_eq_true,
        Bool.and_self]
    · cases h.symm.trans (herr rest)
  · rintro e rest err s rfl he h
    rcases parseChild_append resolve?_standard_ne_empty he owner with ⟨b, hb⟩ | ⟨_, v, w, hvw, herr⟩
    · cases h.symm.trans (hb rest)
    · obtain ⟨rfl, hs⟩ := EStateM.Result.error.inj (h.symm.trans (herr rest))
      exact ⟨v, w, hvw, hs, herr⟩

/-- A sequence of one step whose end tag has another name, and a stray end tag behind it. -/
theorem parseChild_standard_mismatched :
    let ts : List Token := [.opening Namespace.activities "Sequence",
      .opening Namespace.activities "WriteLine", .ending Namespace.activities "Delay",
      .ending Namespace.activities "Sequence", .ending Namespace.activities "Flowchart"]
    let a : Activity := .sequence [.atomic ⟨Namespace.activities, "WriteLine", "writeline"⟩]
    ∃ e rest, ts = e ++ rest ∧ IsFirstElement e ts ∧
      (⟨ts.drop 4, 4⟩ : TokenStream) = ⟨rest, 0 + e.length⟩ ∧
      (∃ t, e.head? = some t ∧ t.opens a.type.qname) ∧
      ∀ rest', standard.parseChild "Root" ⟨e ++ rest', 0⟩ = .ok a ⟨rest', 0 + e.length⟩ := by
  intro ts a
  refine (parseChild_standard "Root" ts 0).1 a ⟨ts.drop 4, 4⟩ ?_
  set_option maxRecDepth 100000 in rfl

end OpenWorkflow.Registry
