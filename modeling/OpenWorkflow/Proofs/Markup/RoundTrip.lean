import Mathlib.Data.List.Basic
import OpenWorkflow.Markup.Scan
import OpenWorkflow.Proofs.Markup.Printing

/-!
# Scanning undoes printing

What is left after a printed document has been read as a tree: the references in
attribute values stand for the characters that they were written for
(`decode_escape`), the two declarations of a tag hide whatever is declared
outside it, so its name is in its own namespace and its keys come back as they
were (`openTag_tag`), and there is no character data. Hence `scan_print`: the tags
of a printed element are the tags of the element.
-/

namespace OpenWorkflow.Markup

namespace Element

/-! ## References -/

/-- A reference is gathered in reverse up to its semicolon and then replaced. -/
theorem decodeFrom_reference (raw : String) (entity : List Char) {c : Char}
    (hc : Entity.character? entity = some c) (hend : ';' ∉ entity) (rest : List Char) :
    Entity.decodeFrom raw none ('&' :: entity ++ ';' :: rest)
      = (Entity.decodeFrom raw none rest).map (c :: ·) := by
  have key : ∀ before after : List Char, ';' ∉ after →
      Entity.character? (before.reverse ++ after) = some c →
      Entity.decodeFrom raw (some before) (after ++ ';' :: rest)
        = (Entity.decodeFrom raw none rest).map (c :: ·) := by
    intro before after
    induction after generalizing before with
    | nil =>
      intro _ hc
      rw [List.append_nil] at hc
      rw [List.nil_append, Entity.decodeFrom, if_pos rfl, hc]
    | cons x after ih =>
      intro hend hc
      obtain ⟨hx, hend⟩ := List.ne_and_not_mem_of_not_mem_cons hend
      rw [List.cons_append, Entity.decodeFrom, if_neg (Ne.symm hx)]
      apply ih (x :: before) hend
      rwa [List.reverse_cons, List.append_assoc, List.singleton_append]
  rw [List.cons_append, Entity.decodeFrom, if_pos rfl]
  exact key [] entity hend hc

/-- An escaped letter is decoded. -/
theorem decodeFrom_escapeChar (raw : String) (c : Char) (rest : List Char) :
    Entity.decodeFrom raw none (escapeChar c ++ rest)
      = (Entity.decodeFrom raw none rest).map (c :: ·) := by
  unfold escapeChar
  split
  · rename_i h
    exact h ▸ decodeFrom_reference raw ['a', 'm', 'p'] rfl (by decide) rest
  · rename_i hamp
    split
    · rename_i h
      exact h ▸ decodeFrom_reference raw ['l', 't'] rfl (by decide) rest
    · split
      · rename_i h
        exact h ▸ decodeFrom_reference raw ['g', 't'] rfl (by decide) rest
      · split
        · rename_i h
          exact h ▸ decodeFrom_reference raw ['q', 'u', 'o', 't'] rfl (by decide) rest
        · split
          · rename_i h
            exact h ▸ decodeFrom_reference raw ['a', 'p', 'o', 's'] rfl (by decide) rest
          · rw [List.singleton_append, Entity.decodeFrom, if_neg hamp]

/-- Every text can be written as an attribute value. -/
theorem decode_escape (value : String) : Entity.decode (escape value) = .ok value := by
  have key : ∀ (raw : String) (cs : List Char),
      Entity.decodeFrom raw none (cs.flatMap escapeChar) = .ok cs := by
    intro raw cs
    induction cs with
    | nil => rfl
    | cons c cs ih => rw [List.flatMap_cons, decodeFrom_escapeChar, ih]; rfl
  unfold Entity.decode
  rw [escape, String.toList_ofList, key]
  exact congrArg Except.ok String.ofList_toList

/-! ## Names and keys -/

theorem cut_eq_none {test : Char → Bool} {cs : List Char} (h : ∀ c ∈ cs, test c = false) :
    Text.cut test cs = none := by
  induction cs with
  | nil => rfl
  | cons c cs ih =>
    obtain ⟨hc, hcs⟩ := List.forall_mem_cons.1 h
    unfold Text.cut
    rw [hc, ih hcs]
    rfl

/-- A plain name has no prefix. -/
theorem splitName_eq_none {s : String} (h : isPlain s = true) : Bindings.splitName s = none := by
  simp only [isPlain, Bool.and_eq_true, Bool.not_eq_true'] at h
  unfold Bindings.splitName
  rw [cut_eq_none, Option.map_none]
  intro c hc
  apply decide_eq_false
  rintro rfl
  rw [List.contains_iff_mem.2 hc] at h
  exact Bool.noConfusion h.1.2

theorem splitName_language (rest : String) :
    Bindings.splitName ("x:" ++ rest) = some ("x", rest) := by
  unfold Bindings.splitName
  rw [String.toList_append]
  show some (String.ofList ['x'], String.ofList rest.toList) = _
  rw [String.ofList_toList]

/-- A key declares no prefix. -/
theorem declares?_eq_none {key : String} (h : IsKey key) : Bindings.declares? key = none := by
  unfold Bindings.declares?
  rcases h with h | ⟨rest, rfl, -⟩
  · simp only [isPlain, Bool.and_eq_true, Bool.not_eq_true', bne_iff_ne] at h
    rw [if_neg h.2, Option.map_eq_none_iff, Option.eq_none_iff_forall_ne_some]
    intro after hafter
    -- a declaration has a colon
    have hkey := List.append_eq_of_isPrefixOf?_eq_some hafter
    have hcolon : ':' ∈ key.toList := by
      rw [← hkey]
      exact List.mem_append_left _ (by decide)
    rw [List.contains_iff_mem.2 hcolon] at h
    exact Bool.noConfusion h.1.2
  · have hne : "x:" ++ rest ≠ "xmlns" := by
      intro e
      have hlist := congrArg String.toList e
      rw [String.toList_append] at hlist
      cases hlist
    rw [if_neg hne, String.toList_append]
    rfl

/-- A key does not begin with a brace. -/
theorem ne_ignorableKey {key : String} (h : IsKey key) : key ≠ ignorableKey := by
  rintro rfl
  have hname := isName_of_isKey h
  revert hname
  decide

/-- Inside a tag its own declarations come first. -/
theorem extend_declared (env : Bindings) (ns : String) {attributes : OrderedMap String String}
    (hkeys : ∀ key ∈ attributes.keys, IsKey key) :
    env.extend (declared ns attributes) = ("x", Namespace.language) :: ("", ns) :: env := by
  have hnone : attributes.toList.filterMap
      (fun a => (Bindings.declares? a.1).map (fun p => (p, a.2))) = [] := by
    rw [List.filterMap_eq_nil_iff]
    intro a ha
    rw [declares?_eq_none (hkeys a.1 (List.mem_map_of_mem ha)), Option.map_none]
  have hdefault : Bindings.declares? "xmlns" = some "" := by decide
  have hlanguage : Bindings.declares? "xmlns:x" = some "x" := by decide
  unfold Bindings.extend declared
  simp only [List.filterMap_cons, hdefault, hlanguage, Option.map_some, hnone]
  rfl

/-- Printed keys are resolved to themselves. -/
theorem readAttribute_eq {env : Bindings} {ns : String} {a : String × String} (h : IsKey a.1) :
    Bindings.readAttribute (("x", Namespace.language) :: ("", ns) :: env) a = .ok a := by
  have hkey : Bindings.attributeKey (("x", Namespace.language) :: ("", ns) :: env) a.1
      = .ok a.1 := by
    unfold Bindings.attributeKey
    rcases h with h | ⟨rest, hrest, -⟩
    · rw [splitName_eq_none h]
    · rw [hrest, splitName_language]
      rfl
  unfold Bindings.readAttribute
  rw [hkey]
  show Except.ok (a.1, if a.1 = ignorableKey then _ else a.2) = _
  rw [if_neg (ne_ignorableKey h)]

/-- Escaped values are decoded. -/
theorem decodeValues_escape (attributes : List (String × String)) :
    Scan.decodeValues (attributes.map (fun a => (a.1, escape a.2))) = .ok attributes := by
  unfold Scan.decodeValues
  induction attributes with
  | nil => rfl
  | cons a attributes ih =>
    rw [List.map_cons, List.mapM_cons, decode_escape, ih]
    rfl

theorem mapM_readAttribute {env : Bindings} {ns : String} {attributes : List (String × String)}
    (h : ∀ a ∈ attributes, IsKey a.1) :
    attributes.mapM (Bindings.readAttribute (("x", Namespace.language) :: ("", ns) :: env))
      = .ok attributes := by
  induction attributes with
  | nil => rfl
  | cons a attributes ih =>
    obtain ⟨ha, hrest⟩ := List.forall_mem_cons.1 h
    rw [List.mapM_cons, readAttribute_eq ha, ih hrest]
    rfl

/-- A printed tag is the start tag it was printed from, whatever is declared around it. -/
theorem openTag_tag (env : Bindings) (ns : String) {name : String}
    {attributes : OrderedMap String String} (hname : isPlain name = true)
    (hkeys : ∀ key ∈ attributes.keys, IsKey key) :
    Scan.openTag env (tag ns name attributes)
      = .ok (("x", Namespace.language) :: ("", ns) :: env, { ns, name, attributes }) := by
  have hresolve : Bindings.resolve (("x", Namespace.language) :: ("", ns) :: env) name
      = .ok (ns, name) := by
    unfold Bindings.resolve
    rw [splitName_eq_none hname]
    rfl
  have hattributes : ∀ a ∈ attributes.toList, IsKey a.1 :=
    fun a ha => hkeys a.1 (List.mem_map_of_mem ha)
  have hplain : (declared ns attributes).filter (fun a => (Bindings.declares? a.1).isNone)
      = attributes.toList := by
    have hall : attributes.toList.filter (fun a => (Bindings.declares? a.1).isNone)
        = attributes.toList := by
      rw [List.filter_eq_self]
      intro a ha
      rw [declares?_eq_none (hattributes a ha)]
      rfl
    have hdefault : Bindings.declares? "xmlns" = some "" := by decide
    have hlanguage : Bindings.declares? "xmlns:x" = some "x" := by decide
    simp only [declared, List.filter_cons, hdefault, hlanguage, hall]
    rfl
  have hset : OrderedMap.ofList attributes.toList = attributes := by
    have hlist := OrderedMap.toList_ofList attributes.nodup
    cases hmap : OrderedMap.ofList attributes.toList
    rw [hmap] at hlist
    cases attributes
    cases hlist
    rfl
  have hdecode : Scan.decodeValues (tag ns name attributes).attributes
      = .ok (declared ns attributes) := decodeValues_escape _
  have hkeyed : attributes.toList.mapM
      (Bindings.readAttribute (("x", Namespace.language) :: ("", ns) :: env))
        = .ok attributes.toList := mapM_readAttribute hattributes
  have htoken :
      (Token.opening ns name).setAttributes attributes.toList = { ns, name, attributes } :=
    congrArg (fun attributes => ({ ns, name, attributes } : Token)) hset
  unfold Scan.openTag
  rw [hdecode]
  simp only [bind, Except.bind, extend_declared env ns hkeys, hplain, hkeyed]
  rw [show (tag ns name attributes).name = name from rfl, hresolve]
  simp only [htoken]
  rfl

/-! ## Elements -/

/-- An element without character data gives its start tag, what is inside and its end tag. -/
theorem enclose_empty (start : Token) (inner : List Token) :
    Scan.enclose start "" inner = start :: inner ++ [Token.ending start.ns start.name] := rfl

mutual

/-- The content of a printable element is scanned to its tokens. -/
theorem content_content (e : Element) (he : e.Printable) (env : Bindings) :
    Scan.content env e.content = .ok ("", e.tokens) := by
  match e with
  | .node ns name attributes children =>
    rw [Printable] at he
    obtain ⟨hname, hkeys, hchildren⟩ := he
    have hinner :=
      contents_contents children hchildren (("x", Namespace.language) :: ("", ns) :: env)
    have hend : Scan.checkEnd (tag ns name attributes)
        (if children.isEmpty then none else some name) = .ok () := by
      split
      · rfl
      · exact if_pos rfl
    rw [content, Scan.content, openTag_tag env ns hname hkeys]
    simp only [bind, Except.bind, hinner, hend]
    rw [enclose_empty, tokens]
    rfl

theorem contents_contents (es : List Element) (hes : AllPrintable es) (env : Bindings) :
    Scan.contents env (contents es) = .ok ("", tokensAll es) := by
  match es with
  | [] => rw [contents, Scan.contents, tokensAll]
  | e :: es =>
    rw [AllPrintable] at hes
    rw [contents, Scan.contents, content_content e hes.1 env, contents_contents es hes.2 env,
      tokensAll]
    rfl

end

/-- Scanning undoes printing: the tags of a printed element are its start tag with
exactly its attributes in order, the tags of the elements inside it, and its end
tag, whatever characters its namespaces and attribute values hold. -/
theorem scan_print (e : Element) (he : e.Printable) : scan e.print = .ok e.tokens := by
  unfold scan
  rw [read?_print e he]
  show (Scan.content [] e.content).map Prod.snd = _
  rw [content_content e he []]
  rfl

/-- An element with every special character in its namespace and values, a key of
the markup language, and an element of no namespace inside. -/
def sample : Element :=
  .node "urn:a&b<\"c'>" "Sequence" (.ofList [("x:Name", "a\nb"), ("Note", "<&amp;>")])
    [.node "" "Delay" ∅ []]

/-- An element with an attribute and a child, printed and scanned. -/
theorem scan_print_sample :
    sample.Printable ∧ scan sample.print = .ok sample.tokens ∧ sample.tokens.length = 4 := by
  have hkey : ∀ key ∈ ["x:Name", "Note"], IsKey key := by
    intro key hkey
    rcases List.mem_cons.1 hkey with rfl | hkey
    · exact .inr ⟨"Name", rfl, by decide⟩
    · rw [List.mem_singleton.1 hkey]
      exact .inl (by decide)
  have hp : sample.Printable := by
    simp only [sample, Printable, AllPrintable]
    refine ⟨by decide, hkey, ⟨by decide, ?_, trivial⟩, trivial⟩
    intro key hkey
    cases hkey
  exact ⟨hp, scan_print sample hp, rfl⟩

end Element

end OpenWorkflow.Markup
