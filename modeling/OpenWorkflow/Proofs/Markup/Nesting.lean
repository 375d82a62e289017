import OpenWorkflow.Markup.Scan
import OpenWorkflow.Markup.Screen
import OpenWorkflow.Proofs.Markup.Printing
import OpenWorkflow.Proofs.Workflow.Termination

/-!
# Tags stay well nested

The tags of a document are those of one element: they are the `Element.tokens` of a
tree, in which an end tag repeats the name of its start tag and has no attributes.
Screening works on the tags as they pass by, with a counter for how deep it is in a
removed element; on the tags of a tree it gives those of the tree without the removed
elements (`Element.prune`). At the front of an element a reader never comes to the end
of the tags.
-/

namespace OpenWorkflow.Markup

open OpenWorkflow.Owfn (bind_apply)
open Element (tokens tokensAll)

theorem tokensAll_append (es es' : List Element) :
    tokensAll (es ++ es') = tokensAll es ++ tokensAll es' := by
  induction es with
  | nil => rfl
  | cons e es ih => rw [List.cons_append, tokensAll, tokensAll, ih, List.append_assoc]

theorem tokensAll_singleton (e : Element) : tokensAll [e] = e.tokens := by
  rw [tokensAll, tokensAll, List.append_nil]

/-! ## Depth -/

mutual

/-- Inside an element, the tags of another one lead back to the same depth. -/
theorem descends_tokens {f d : Nat} {rest : List Token} (e : Element)
    (h : Descends f (d + 1) rest) : Descends f (d + 1) (e.tokens ++ rest) := by
  match e with
  | .node ns name attributes children =>
    rw [tokens, List.cons_append, List.cons_append, List.append_assoc]
    have hend : Descends f (d + 2) ([Token.ending ns name] ++ rest) := h
    exact descends_tokensAll children hend

theorem descends_tokensAll {f d : Nat} {rest : List Token} (es : List Element)
    (h : Descends f (d + 1) rest) : Descends f (d + 1) (tokensAll es ++ rest) := by
  match es with
  | [] => exact h
  | e :: es =>
    rw [tokensAll, List.append_assoc]
    exact descends_tokens e (descends_tokensAll es h)

end

/-- The tags of an element are a start tag and those that lead back to the ground. -/
theorem front_tokens (e : Element) : Parser.Front 0 0 (e.tokens.length + 1) e.tokens where
  length := Nat.lt_succ_self _
  broken := by
    cases e with
    | node ns name attributes children => exact nofun
  inside := by
    intro t v htv _
    cases e with
    | node ns name attributes children =>
      rw [tokens, List.cons_append] at htv
      obtain ⟨-, rfl⟩ := List.cons.inj htv
      have hend : Descends 0 1 [Token.ending ns name] := ⟨rfl, rfl⟩
      exact descends_tokensAll children hend

/-! ## Scanning -/

namespace Scan

theorem bind_eq_ok {α β : Type} {x : Except ScanError α} {f : α → Except ScanError β} {b : β}
    (h : (x >>= f) = .ok b) : ∃ a, x = .ok a ∧ f a = .ok b := by
  cases x with
  | error e => cases h
  | ok a => exact ⟨a, rfl, h⟩

theorem openTag_closing {env within : Bindings} {tag : Tag} {start : Token}
    (h : openTag env tag = .ok (within, start)) : start.closing = false := by
  unfold openTag at h
  obtain ⟨attributes, -, h⟩ := bind_eq_ok h
  obtain ⟨name, -, h⟩ := bind_eq_ok h
  obtain ⟨keyed, -, h⟩ := bind_eq_ok h
  cases h
  rfl

/-- The tags of some elements between a start tag and its end tag are those of one element. -/
theorem enclose_tokensAll {start : Token} (hstart : start.closing = false) (text : String)
    (es : List Element) : ∃ e : Element, enclose start text (tokensAll es) = e.tokens := by
  obtain ⟨ns, name, closing, attributes⟩ := start
  obtain rfl : closing = false := hstart
  unfold enclose
  simp only
  split
  · exact ⟨.node ns name attributes es, by rw [tokens]⟩
  · exact ⟨.node ns name (attributes.insert name _) es, by rw [tokens]; rfl⟩

/-- An element whose content gives the tags of elements gives those of an element. -/
theorem content_element {env : Bindings} {tag : Tag} {inner : List Content}
    {endName : Option String} {result : String × List Token}
    (hinner : ∀ within r, contents within inner = .ok r → ∃ es, r.2 = tokensAll es)
    (h : content env (.element tag inner endName) = .ok result) :
    ∃ e : Element, result.2 = e.tokens := by
  rw [content] at h
  obtain ⟨⟨within, start⟩, hopen, h⟩ := bind_eq_ok h
  obtain ⟨r, hcontents, h⟩ := bind_eq_ok h
  obtain ⟨-, -, h⟩ := bind_eq_ok h
  cases h
  obtain ⟨es, hes⟩ := hinner within r hcontents
  show ∃ e : Element, enclose start r.1 r.2 = e.tokens
  rw [hes]
  exact enclose_tokensAll (openTag_closing hopen) r.1 es

mutual

/-- What is scanned from a content is a row of elements. -/
theorem content_tokensAll {env : Bindings} {result : String × List Token} (c : Content)
    (h : content env c = .ok result) : ∃ es, result.2 = tokensAll es := by
  match c with
  | .text raw =>
    rw [content] at h
    cases hraw : Entity.decode raw with
    | error e =>
      rw [hraw] at h
      cases h
    | ok text =>
      rw [hraw] at h
      cases h
      exact ⟨[], rfl⟩
  | .data raw =>
    rw [content] at h
    cases h
    exact ⟨[], rfl⟩
  | .element tag inner endName =>
    obtain ⟨e, he⟩ := content_element (fun _ _ => contents_tokensAll inner) h
    exact ⟨[e], by rw [he, tokensAll_singleton]⟩

theorem contents_tokensAll {env : Bindings} {result : String × List Token} (cs : List Content)
    (h : contents env cs = .ok result) : ∃ es, result.2 = tokensAll es := by
  match cs with
  | [] =>
    rw [contents] at h
    cases h
    exact ⟨[], rfl⟩
  | c :: cs =>
    rw [contents] at h
    obtain ⟨first, hfirst, h⟩ := bind_eq_ok h
    obtain ⟨more, hmore, h⟩ := bind_eq_ok h
    cases h
    obtain ⟨es, hes⟩ := content_tokensAll c hfirst
    obtain ⟨es', hes'⟩ := contents_tokensAll cs hmore
    exact ⟨es ++ es', by simp [hes, hes', tokensAll_append]⟩

end

end Scan

namespace Document

/-- A closed element has the tag it was opened with. -/
theorem close_eq_some {tag : Tag} {inner : List Content × List Char} {root : Content}
    {rest : List Char} (h : close tag inner = some (root, rest)) :
    ∃ endName, root = .element tag inner.1 endName := by
  unfold close at h
  split at h
  · cases h
    exact ⟨_, rfl⟩
  · cases h

theorem element_eq_some {cs rest : List Char} {root : Content}
    (h : element cs = some (root, rest)) :
    ∃ tag inner endName, root = .element tag inner endName := by
  unfold element at h
  rcases (Option.orElse_eq_some ..).1 h with h | ⟨-, h⟩
  · obtain ⟨r, -, h⟩ := Option.bind_eq_some_iff.1 ((bind_apply ..).symm.trans h)
    cases h
    exact ⟨_, _, _, rfl⟩
  · obtain ⟨r, -, h⟩ := Option.bind_eq_some_iff.1 ((bind_apply ..).symm.trans h)
    obtain ⟨endName, hroot⟩ := close_eq_some h
    exact ⟨_, _, _, hroot⟩

/-- The root of a document is an element. -/
theorem read?_eq_some {source : String} {root : Content} (h : read? source = some root) :
    ∃ tag inner endName, root = .element tag inner endName := by
  obtain ⟨⟨_, rest⟩, hdocument, rfl⟩ := Option.map_eq_some_iff.1 h
  unfold document at hdocument
  obtain ⟨r, -, h⟩ := Option.bind_eq_some_iff.1 ((bind_apply ..).symm.trans hdocument)
  obtain ⟨r, -, h⟩ := Option.bind_eq_some_iff.1 ((bind_apply ..).symm.trans h)
  obtain ⟨⟨root, more⟩, helement, h⟩ := Option.bind_eq_some_iff.1 ((bind_apply ..).symm.trans h)
  obtain ⟨r, -, h⟩ := Option.bind_eq_some_iff.1 ((bind_apply ..).symm.trans h)
  obtain ⟨r, -, h⟩ := Option.bind_eq_some_iff.1 ((bind_apply ..).symm.trans h)
  cases h
  exact element_eq_some helement

end Document

/-- What is scanned is one element. -/
theorem scan_eq_tokens {source : String} {ts : List Token} (h : scan source = .ok ts) :
    ∃ e : Element, ts = e.tokens := by
  unfold scan at h
  split at h
  · cases h
  · next root hroot =>
    obtain ⟨tag, inner, endName, rfl⟩ := Document.read?_eq_some hroot
    cases hcontent : Scan.content [] (.element tag inner endName) with
    | error e =>
      rw [hcontent] at h
      cases h
    | ok result =>
      rw [hcontent] at h
      cases h
      exact Scan.content_element (fun _ _ => Scan.contents_tokensAll inner) hcontent

/-! ## Screening -/

mutual

/-- What screening leaves of an element: nothing, or the element without the attributes and the
elements inside it that are removed. -/
def Element.prune (ignorable : List String) : Element → List Element
  | .node ns name attributes children =>
    if Screen.dropsElement ignorable { ns, name, attributes } then []
    else [.node ns name (attributes.filterKeys fun key => !Screen.dropsAttribute ignorable key)
      (Element.pruneAll ignorable children)]

/-- What screening leaves of some elements in a row. -/
def Element.pruneAll (ignorable : List String) : List Element → List Element
  | [] => []
  | e :: es => Element.prune ignorable e ++ Element.pruneAll ignorable es

end

namespace Screen

variable (ignorable : List String)

theorem keep_succ_opening {t : Token} (ht : t.closing = false) (depth : Nat) (ts : List Token) :
    keep ignorable (depth + 1) (t :: ts) = keep ignorable (depth + 2) ts := by
  rw [keep, ht, if_neg Bool.false_ne_true]

theorem keep_succ_ending (ns name : String) (depth : Nat) (ts : List Token) :
    keep ignorable (depth + 1) ([Token.ending ns name] ++ ts) = keep ignorable depth ts := rfl

theorem keep_zero_ending (ns name : String) (ts : List Token) :
    keep ignorable 0 ([Token.ending ns name] ++ ts)
      = Token.ending ns name :: keep ignorable 0 ts := rfl

theorem keep_zero_opening {t : Token} (ht : t.closing = false) (ts : List Token) :
    keep ignorable 0 (t :: ts) =
      if dropsElement ignorable t then keep ignorable 1 ts
      else
        t.filterAttributes (fun key => !dropsAttribute ignorable key) :: keep ignorable 0 ts := by
  rw [keep, ht, Bool.not_false, Bool.true_and]

mutual

/-- In a removed element another one is passed over. -/
theorem keep_succ_tokens (e : Element) (depth : Nat) (rest : List Token) :
    keep ignorable (depth + 1) (e.tokens ++ rest) = keep ignorable (depth + 1) rest := by
  match e with
  | .node ns name attributes children =>
    rw [tokens, List.cons_append, List.cons_append, List.append_assoc,
      keep_succ_opening ignorable rfl, keep_succ_tokensAll children (depth + 1),
      keep_succ_ending]

theorem keep_succ_tokensAll (es : List Element) (depth : Nat) (rest : List Token) :
    keep ignorable (depth + 1) (tokensAll es ++ rest) = keep ignorable (depth + 1) rest := by
  match es with
  | [] => rfl
  | e :: es =>
    rw [tokensAll, List.append_assoc, keep_succ_tokens e depth, keep_succ_tokensAll es depth]

end

mutual

/-- Outside removed elements, the tags of an element become those of what is left of it. -/
theorem keep_tokens (e : Element) (rest : List Token) :
    keep ignorable 0 (e.tokens ++ rest)
      = tokensAll (e.prune ignorable) ++ keep ignorable 0 rest := by
  match e with
  | .node ns name attributes children =>
    rw [tokens, List.cons_append, List.cons_append, List.append_assoc,
      keep_zero_opening ignorable rfl, Element.prune]
    split
    · rw [keep_succ_tokensAll ignorable children 0, keep_succ_ending, tokensAll, List.nil_append]
    · rw [keep_tokensAll children, keep_zero_ending, tokensAll_singleton, tokens]
      simp only [Token.filterAttributes, List.cons_append, List.append_assoc, List.nil_append]

/-- The screen prunes elements one by one. -/
theorem keep_tokensAll (es : List Element) (rest : List Token) :
    keep ignorable 0 (tokensAll es ++ rest)
      = tokensAll (Element.pruneAll ignorable es) ++ keep ignorable 0 rest := by
  match es with
  | [] => rfl
  | e :: es =>
    rw [tokensAll, List.append_assoc, keep_tokens e, keep_tokensAll es, Element.pruneAll,
      tokensAll_append, List.append_assoc]

end

end Screen

/-- A screened element is a pruned one. -/
theorem screen_tokens (e : Element) :
    screen e.tokens
      = tokensAll (e.prune (Screen.fixedNamespaces ++ Screen.declaredNamespaces e.tokens)) := by
  unfold screen
  have hkeep := Screen.keep_tokens
    (Screen.fixedNamespaces ++ Screen.declaredNamespaces e.tokens) e []
  rwa [List.append_nil, Screen.keep, List.append_nil] at hkeep

/-- Nothing is left of an element, or one element. -/
theorem screen_tokens_eq (e : Element) :
    screen e.tokens = [] ∨ ∃ e' : Element, screen e.tokens = e'.tokens := by
  rw [screen_tokens]
  cases e with
  | node ns name attributes children =>
    rw [Element.prune]
    split
    · exact .inl rfl
    · exact .inr ⟨_, tokensAll_singleton _⟩

end OpenWorkflow.Markup

namespace OpenWorkflow.Registry

open OpenWorkflow.Markup (Token Element)
open OpenWorkflow.Markup.Element (tokens tokensAll)
open OpenWorkflow.Parser (Local At Front)

/-! ## Reading -/

/-- A step that reads one element does not come to the end of the tags. -/
theorem fault_ne_endOfInput {α : Type} {p q : Parser α} {e : Element} {r : List Token} {c : Nat}
    (h : Local 0 r (Front 0 0 (e.tokens.length + 1)) (At 0 0 e.tokens.length) p q)
    {err : ReadError} {s : TokenStream} (hp : p ⟨e.tokens ++ r, c⟩ = .error err s) :
    err.fault ≠ .endOfInput := by
  rcases h (fun hf => absurd rfl hf) e.tokens c c (Markup.front_tokens e) with
    ⟨_, _, _, _, _, hrun, _⟩ | ⟨_, _, _, _, _, hfault, hrun, _⟩
  · cases hp.symm.trans hrun
  · obtain ⟨rfl, -⟩ := EStateM.Result.error.inj (hp.symm.trans hrun)
    exact hfault.complete rfl

section

variable {reg : Registry} (hreg : ∀ qname, reg.resolve? qname ≠ some .empty) {c : Nat}
  {err : ReadError} {s : TokenStream}
include hreg

/-- A reader does not run out of tokens inside an element. -/
theorem parseChild_ne_endOfInput {owner : String} {e : Element} {r : List Token}
    (h : reg.parseChild owner ⟨e.tokens ++ r, c⟩ = .error err s) : err.fault ≠ .endOfInput :=
  fault_ne_endOfInput (parseChild_local hreg (Nat.le_refl (e.tokens.length + 1))
    (0, e.tokens.length) (Nat.lt_succ_self _) owner) h

theorem parse_ne_endOfInput {type : ActivityType} (htype : type ≠ .empty) {e : Element}
    (h : reg.parse type ⟨e.tokens, c⟩ = .error err s) : err.fault ≠ .endOfInput := by
  have hparse : type.read (reg.child (e.tokens.length + 1)) ⟨e.tokens ++ [], c⟩ = .error err s := by
    rw [List.append_nil]
    exact h
  exact fault_ne_endOfInput
    (type.read_local (child_local hreg (Nat.le_succ _) (Nat.le_succ _)) htype) hparse

/-- In a document the tags end only behind its end tag. -/
theorem parseDocument_ne_endOfInput {e : Element} (h : parseDocument reg e.tokens = .error err) :
    err.fault ≠ .endOfInput := by
  obtain ⟨ns, name, attributes, children⟩ := e
  unfold parseDocument at h
  split at h
  · cases h
  · next err' rest hrun =>
    cases h
    have houtcome := document_outcome reg (TokenStream.ofList
      (Element.node ns name attributes children).tokens)
    rw [hrun] at houtcome
    cases houtcome with
    | missing hs =>
      rw [tokens] at hs
      cases hs
    | refused hfault => exact (Parser.Proper.of_isRefusal (f := 0) hfault).complete rfl
    | behind _ _ _ hfault => exact (Parser.Proper.of_isRefusal (f := 0) hfault).complete rfl
    | inside hs hchild =>
      rw [tokens, List.cons_append] at hs
      obtain ⟨-, rfl⟩ := List.cons.inj hs
      cases children with
      | nil =>
        -- the end tag of the document is no activity
        obtain ⟨rfl, -⟩ := EStateM.Result.error.inj hchild
        exact nofun
      | cons e es =>
        rw [tokensAll, List.append_assoc] at hchild
        exact parseChild_ne_endOfInput hreg hchild

end

/-- **Tags stay well nested.** The tags of a source are those of one element, and so is what
screening leaves of them, if anything is left. No reading of what is left, as a document, as an
activity of any type or as one of a given type, comes to the end of the tags. -/
theorem wellNested_of_scan {source : String} {ts : List Token}
    (h : Markup.scan source = .ok ts) :
    (∃ e : Element, ts = e.tokens) ∧
    (Markup.screen ts = [] ∨ ∃ e : Element, Markup.screen ts = e.tokens) ∧
    (Markup.screen ts ≠ [] → ∀ err, err.fault = .endOfInput →
      parseDocument standard (Markup.screen ts) ≠ .error err ∧
      ∀ c s, (∀ owner, standard.parseChild owner ⟨Markup.screen ts, c⟩ ≠ .error err s) ∧
        ∀ type ∈ standardTypes, standard.parse type ⟨Markup.screen ts, c⟩ ≠ .error err s) := by
  obtain ⟨e, rfl⟩ := Markup.scan_eq_tokens h
  have hscreen := Markup.screen_tokens_eq e
  refine ⟨⟨e, rfl⟩, hscreen, fun hne err hend => ?_⟩
  obtain ⟨e', he'⟩ := hscreen.resolve_left hne
  rw [he']
  refine ⟨fun hrun => ?_, fun c s => ⟨fun owner hrun => ?_, fun type htype hrun => ?_⟩⟩
  · exact parseDocument_ne_endOfInput resolve?_standard_ne_empty hrun hend
  · rw [← List.append_nil e'.tokens] at hrun
    exact parseChild_ne_endOfInput resolve?_standard_ne_empty hrun hend
  · exact parse_ne_endOfInput resolve?_standard_ne_empty (ne_empty_of_mem_standardTypes htype) hrun
      hend

/-- A text with an element that is removed; what is left is no workflow, but it is complete. -/
theorem wellNested_of_scan_variables :
    ∃ ts, Markup.scan "<a><b.Variables/></a>" = .ok ts ∧ (∃ e : Element, ts = e.tokens) ∧
      Markup.screen ts = [.opening "" "a", .ending "" "a"] ∧
      (Markup.screen ts = [] ∨ ∃ e : Element, Markup.screen ts = e.tokens) ∧
      ∀ err, err.fault = .endOfInput → parseDocument standard (Markup.screen ts) ≠ .error err := by
  let ts : List Token := [.opening "" "a", .opening "" "b.Variables", .ending "" "b.Variables",
    .ending "" "a"]
  have hscan : Markup.scan "<a><b.Variables/></a>" = .ok ts := by decide +kernel
  have hscreen : Markup.screen ts = [.opening "" "a", .ending "" "a"] := by decide +kernel
  obtain ⟨helement, hleft, hread⟩ := wellNested_of_scan hscan
  have hne : Markup.screen ts ≠ [] := hscreen ▸ List.cons_ne_nil _ _
  exact ⟨ts, hscan, helement, hscreen, hleft, fun err hend => (hread hne err hend).1⟩

end OpenWorkflow.Registry
