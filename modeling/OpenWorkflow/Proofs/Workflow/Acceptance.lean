import OpenWorkflow.Proofs.Workflow.TagNames

/-!
# Which tags are a document

A document is a start tag of one of the two root elements, one element that is read as
an activity, and the end tag of the root. Where there is anything else around the
activity or instead of it (a second element, an end tag that is missing or comes too
early, tags behind the end), the document is refused, and the error says where
(`parseDocument_ok_iff`).
-/

namespace OpenWorkflow

open OpenWorkflow.Markup (Token Namespace.activities Namespace.serviceModel IsFirstElement)

variable {a : Activity} {ts : List Token}

/-- A start tag with which a document can begin. -/
structure Markup.Token.IsRoot (t : Token) : Prop where
  opening : t.closing = false
  named : (t.ns = Namespace.activities ∧ t.name = "Activity")
    ∨ (t.ns = Namespace.serviceModel ∧ t.name = "WorkflowService")

/-- The tags of a document with the given activity: the start tag of a root, an element that is by
itself read as the activity, and an end tag of the name of the root. -/
inductive IsDocument (reg : Registry) (a : Activity) : List Token → Prop
  | intro {root stop : Token} {e : List Token} (hroot : root.IsRoot) (helement : IsFirstElement e e)
      (hread : ∀ owner, reg.parseChild owner (.ofList e) = .ok a ⟨[], e.length⟩)
      (hstop : stop.closing = true) (hname : stop.qname = root.qname) :
      IsDocument reg a (root :: (e ++ [stop]))

theorem Markup.Token.qname_mem_rootNames {t : Token} :
    t.qname ∈ rootNames ↔ (t.ns = Namespace.activities ∧ t.name = "Activity")
      ∨ (t.ns = Namespace.serviceModel ∧ t.name = "WorkflowService") := by
  have hactivities : '\x7d' ∉ Namespace.activities.toList :=
    Markup.Namespace.brace_not_mem (by simp [Markup.Namespace.known])
  have hservice : '\x7d' ∉ Namespace.serviceModel.toList :=
    Markup.Namespace.brace_not_mem (by simp [Markup.Namespace.known])
  rw [rootNames, List.mem_cons, List.mem_singleton, Markup.activityName, Token.qname,
    Markup.qualify_eq_iff hactivities (by decide), Markup.qualify_eq_iff hservice (by decide)]

/-- The first element of some tags is the first element of its own tags. -/
theorem Markup.IsFirstElement.alone {e : List Token} (h : IsFirstElement e ts) :
    IsFirstElement e e where
  front := ⟨[], (List.append_nil e).symm⟩
  ne_nil := h.ne_nil
  balanced := h.balanced
  shortest := by
    intro p rest hp
    obtain ⟨behind, rfl⟩ := h.front
    apply h.shortest p (rest ++ behind)
    rw [← List.append_assoc, ← hp]

section

variable {reg : Registry} (hreg : ∀ qname, reg.resolve? qname ≠ some .empty)
include hreg

/-- Who asks for an activity matters only to errors. -/
theorem Registry.parseChild_owner {owner : String} {t : Token} {c : Nat} {s : TokenStream}
    (h : reg.parseChild owner ⟨t :: ts, c⟩ = .ok a s) (owner' : String) :
    reg.parseChild owner' ⟨t :: ts, c⟩ = .ok a s := by
  obtain ⟨ht, hresolve⟩ := parseChild_type h
  have hread (owner : String) := parseChild_eq_read hreg ht hresolve owner ts c
  rw [hread owner', ← hread owner, h]

/-- What is read as a document is one. -/
theorem isDocument_of_parseDocument (h : parseDocument reg ts = .ok a) : IsDocument reg a ts := by
  unfold parseDocument at h
  split at h
  · next b s hrun =>
    cases h
    have houtcome := document_outcome reg (TokenStream.ofList ts)
    rw [hrun] at houtcome
    cases houtcome with
    | @read root stop rest _ n hs hopening hroot hchild hclosing =>
      obtain rfl : ts = root :: rest := hs
      obtain ⟨t, v, behind, rfl, he⟩ := Registry.exists_isFirstElement hreg hchild
      -- the activity is read from its element alone, and the end tag is all that remains
      obtain ⟨hbehind, halone⟩ := Registry.parseChild_alone hreg he hchild
      obtain rfl : [stop] = behind := hbehind
      obtain ⟨hstop, hname⟩ := Bool.and_eq_true_iff.1 hclosing
      exact .intro ⟨hopening, Markup.Token.qname_mem_rootNames.1 hroot⟩ he.alone
        (Registry.parseChild_owner hreg halone) hstop (beq_iff_eq.1 hname)
  · cases h

/-- Every document is read, as its activity. -/
theorem IsDocument.parseDocument (h : IsDocument reg a ts) : parseDocument reg ts = .ok a := by
  obtain ⟨hroot, helement, hread, hstop, hname⟩ := h
  next root stop e =>
    have hmem := Markup.Token.qname_mem_rootNames.2 hroot.named
    have hchild : reg.parseChild "Root" ⟨e ++ [stop], 0 + 1⟩ = .ok a ⟨[stop], 0 + 1 + e.length⟩ :=
      Registry.parseChild_within hreg helement (hread "Root") [stop]
    have hclosing : stop.closes root.qname = true := by
      rw [Token.closes, hstop, hname, beq_self_eq_true, Bool.true_and]
    simp only [OpenWorkflow.parseDocument, document, TokenStream.ofList, Parser.peekStart,
      Bind.bind, EStateM.bind, hroot.opening, Bool.false_eq_true, ite_false, hmem, ite_true,
      Parser.nextToken, hchild, Parser.expectEnd, hclosing]
    rfl

end

/-- **Documents.** The tags that are read as a document are exactly those of a root element around
one element that is by itself read as an activity, and that is the activity of the document. All
other tags are refused: the error is one of structure or says that an activity is not known, and
its position lies within the tags. -/
theorem parseDocument_ok_iff (ts : List Token) :
    (∀ a, parseDocument Registry.standard ts = .ok a ↔ IsDocument Registry.standard a ts) ∧
    ((¬ ∃ a, IsDocument Registry.standard a ts) → ∃ e,
      parseDocument Registry.standard ts = .error e ∧ e.fault ≠ .stalled ∧
        e.position ≤ ts.length) := by
  have hiff (a : Activity) :
      parseDocument Registry.standard ts = .ok a ↔ IsDocument Registry.standard a ts :=
    ⟨isDocument_of_parseDocument Registry.resolve?_standard_ne_empty,
      IsDocument.parseDocument Registry.resolve?_standard_ne_empty⟩
  refine ⟨hiff, fun hnone => ?_⟩
  cases hread : parseDocument Registry.standard ts with
  | ok a => exact absurd ⟨a, (hiff a).1 hread⟩ hnone
  | error e => exact ⟨e, rfl, parseDocument_error Registry.resolve?_standard_ne_empty hread⟩

/-- A workflow whose only activity is not known. -/
theorem parseDocument_ok_iff_unknown :
    let ts : List Token := [.opening Namespace.activities "Activity", .opening "urn:custom" "Thing",
      .ending "urn:custom" "Thing", .ending Namespace.activities "Activity"]
    (¬ ∃ a, IsDocument Registry.standard a ts) ∧ ∃ e,
      parseDocument Registry.standard ts = .error e ∧ e.fault ≠ .stalled ∧
        e.position ≤ ts.length := by
  intro ts
  have hrefused : parseDocument Registry.standard ts
      = .error ⟨.unresolved (Markup.qualify "urn:custom" "Thing"), "Root", 1⟩ := by
    set_option maxRecDepth 100000 in rfl
  have hnone : ¬ ∃ a, IsDocument Registry.standard a ts := by
    rintro ⟨a, ha⟩
    have hread := ((parseDocument_ok_iff ts).1 a).2 ha
    rw [hrefused] at hread
    cases hread
  exact ⟨hnone, (parseDocument_ok_iff ts).2 hnone⟩

end OpenWorkflow
