import OpenWorkflow.Markup.Screen
import OpenWorkflow.Proofs.Markup.RoundTrip
import OpenWorkflow.Proofs.Workflow.Forest
import OpenWorkflow.Proofs.Workflow.TagNames

/-!
# Screening is pruning

Screening goes once through the tags with a counter. On the tags of a forest it does what
`Tree.pruneAll` does on the trees: an element that only a designer reads is taken out with
everything in it, and an attribute that is keyed in an ignorable namespace is taken off its
tag (`screen_tokensAll`).

A key is divided at its first closing brace. An ignorable namespace with a closing brace in
it is therefore not found in the keys, and its attributes stay although its elements go
(`screen_keeps_braced`).

What has been screened is left as it is when it is screened again, be the tags nested or not
(`screen_idem`). The second time fewer namespaces are ignorable, because the declaration
is gone.
-/

namespace OpenWorkflow.Markup

variable {key ns : String}

/-! ## What only a designer reads -/

/-- A start tag of an element that only a designer reads. -/
inductive Token.IsHidden (ignorable : List String) (t : Token) : Prop
  | ignorable (hns : t.ns ∈ ignorable)
  | members (hns : t.ns = Namespace.language) (hname : t.name = "Members")
  | variableList (stem : String) (hname : t.name = stem ++ ".Variables")
  | textExpression (rest : String) (hname : t.name = "TextExpression." ++ rest)
  | settings (hname : t.name = "VisualBasic.Settings")

/-- The key of an attribute in a namespace. -/
def IsKeyIn (ns key : String) : Prop := ∃ name, key = qualify ns name

namespace Screen

theorem isSuffixOf_toList {s t : String} :
    s.toList.isSuffixOf t.toList = true ↔ ∃ stem, t = stem ++ s := by
  rw [List.isSuffixOf_iff_suffix]
  constructor
  · rintro ⟨stem, h⟩
    exact ⟨String.ofList stem, String.toList_inj.1 (by simp [h])⟩
  · rintro ⟨stem, rfl⟩
    exact ⟨stem.toList, String.toList_append.symm⟩

theorem isPrefixOf_toList {s t : String} :
    s.toList.isPrefixOf t.toList = true ↔ ∃ rest, t = s ++ rest := by
  rw [List.isPrefixOf_iff_prefix]
  constructor
  · rintro ⟨rest, h⟩
    exact ⟨String.ofList rest, String.toList_inj.1 (by simp [h])⟩
  · rintro ⟨rest, rfl⟩
    exact ⟨rest.toList, String.toList_append.symm⟩

theorem qname_eq_members {t : Token} :
    t.qname = languageName "Members" ↔ t.ns = Namespace.language ∧ t.name = "Members" :=
  qualify_eq_iff (Namespace.brace_not_mem (by simp [Namespace.known])) (by decide)

/-- The screen drops the elements that are hidden. -/
theorem dropsElement_iff {ignorable : List String} {t : Token} :
    dropsElement ignorable t = true ↔ t.IsHidden ignorable := by
  simp only [dropsElement, Bool.or_eq_true, List.contains_iff_mem, beq_iff_eq, qname_eq_members,
    isSuffixOf_toList, isPrefixOf_toList]
  constructor
  · rintro ((((h | ⟨hns, hname⟩) | ⟨stem, h⟩) | ⟨rest, h⟩) | h)
    · exact .ignorable h
    · exact .members hns hname
    · exact .variableList stem h
    · exact .textExpression rest h
    · exact .settings h
  · rintro (h | ⟨hns, hname⟩ | ⟨stem, h⟩ | ⟨rest, h⟩ | h)
    · exact .inl (.inl (.inl (.inl h)))
    · exact .inl (.inl (.inl (.inr ⟨hns, hname⟩)))
    · exact .inl (.inl (.inr ⟨stem, h⟩))
    · exact .inl (.inr ⟨rest, h⟩)
    · exact .inr h

/-- The namespace of a key ends at the first closing brace. -/
theorem keyNamespace?_eq_some :
    keyNamespace? key = some ns ↔ '\x7d' ∉ ns.toList ∧ IsKeyIn ns key := by
  constructor
  · intro h
    unfold keyNamespace? at h
    split at h
    · next rest hkey =>
      obtain ⟨⟨before, behind⟩, hcut, rfl⟩ := Option.map_eq_some_iff.1 h
      obtain ⟨c, hc, rfl, hbefore⟩ := Text.cut_eq_some hcut
      obtain rfl : c = '\x7d' := of_decide_eq_true hc
      refine ⟨fun hmem => ?_, String.ofList behind, String.toList_inj.1 ?_⟩
      · rw [String.toList_ofList] at hmem
        exact of_decide_eq_false (hbefore _ hmem) rfl
      · rw [hkey, toList_qualify, String.toList_ofList, String.toList_ofList]
    · cases h
  · rintro ⟨hns, name, rfl⟩
    have hcut : Text.cut (· = '\x7d') (ns.toList ++ '\x7d' :: name.toList)
        = some (ns.toList, name.toList) := by
      refine Text.cut_append (p := (· = '\x7d')) (fun x hx => decide_eq_false ?_) rfl _
      rintro rfl
      exact hns hx
    unfold keyNamespace?
    rw [toList_qualify]
    show (Text.cut _ _).map _ = _
    rw [hcut, Option.map_some, String.ofList_toList]

/-- An attribute is removed if its key is in an ignorable namespace, but not where that has a
closing brace. -/
theorem dropsAttribute_iff {ignorable : List String} :
    dropsAttribute ignorable key = true ↔
      ∃ ns ∈ ignorable, '\x7d' ∉ ns.toList ∧ IsKeyIn ns key := by
  unfold dropsAttribute
  constructor
  · intro h
    split at h
    · next ns hns => exact ⟨ns, List.contains_iff_mem.1 h, keyNamespace?_eq_some.1 hns⟩
    · cases h
  · rintro ⟨ns, hmem, hkey⟩
    rw [keyNamespace?_eq_some.2 hkey]
    exact List.contains_iff_mem.2 hmem

end Screen

instance (ignorable : List String) (t : Token) : Decidable (t.IsHidden ignorable) :=
  decidable_of_iff _ Screen.dropsElement_iff

/-- Keys of a namespace begin with its qualified form. -/
theorem isPrefixOf_qualify :
    (qualify ns "").toList.isPrefixOf key.toList = true ↔ IsKeyIn ns key := by
  have hqualify (name : String) : qualify ns "" ++ name = qualify ns name := by
    simp [qualify, String.append_assoc]
  simp only [Screen.isPrefixOf_toList, hqualify, IsKeyIn]

instance (ns key : String) : Decidable (IsKeyIn ns key) := decidable_of_iff _ isPrefixOf_qualify

/-! ## Pruning -/

/-- The tag without the attributes that are keyed in one of the namespaces. -/
def Token.without (namespaces : List String) (t : Token) : Token :=
  t.filterAttributes fun key => !namespaces.any fun ns => decide (IsKeyIn ns key)

theorem Token.closing_without (namespaces : List String) (t : Token) :
    (t.without namespaces).closing = t.closing := rfl

namespace Tree

mutual

/-- What is left of an element without the elements that only a designer reads and without the
attributes that are keyed in one of the given namespaces. -/
def prune (ignorable keyed : List String) : Tree → List Tree
  | .node start children stop hstart hstop =>
    if start.IsHidden ignorable then []
    else [.node (start.without keyed) (pruneAll ignorable keyed children) (stop.without keyed)
      ((start.closing_without keyed).trans hstart) ((stop.closing_without keyed).trans hstop)]

/-- What is left of some elements in a row. -/
def pruneAll (ignorable keyed : List String) : List Tree → List Tree
  | [] => []
  | t :: ts => prune ignorable keyed t ++ pruneAll ignorable keyed ts

end

theorem tokensAll_append (ts ts' : List Tree) :
    tokensAll (ts ++ ts') = tokensAll ts ++ tokensAll ts' := by
  induction ts with
  | nil => rfl
  | cons t ts ih => rw [List.cons_append, tokensAll, tokensAll, ih, List.append_assoc]

end Tree

namespace Screen

variable (ignorable : List String)

/-- The namespaces that can be told from a key. -/
def legible (namespaces : List String) : List String :=
  namespaces.filter fun ns => !ns.toList.contains '\x7d'

theorem mem_legible {namespaces : List String} :
    ns ∈ legible namespaces ↔ ns ∈ namespaces ∧ '\x7d' ∉ ns.toList := by
  simp [legible]

/-- The screen drops the attributes of namespaces it can tell. -/
theorem filterAttributes_eq (t : Token) :
    t.filterAttributes (fun key => !dropsAttribute ignorable key)
      = t.without (legible ignorable) := by
  have hkey (key : String) : dropsAttribute ignorable key
      = (legible ignorable).any fun ns => decide (IsKeyIn ns key) := by
    rw [Bool.eq_iff_iff, dropsAttribute_iff, List.any_eq_true]
    simp only [mem_legible, decide_eq_true_eq, and_assoc]
  simp only [Token.without, hkey]

mutual

/-- In a removed element another one is passed over. -/
theorem keep_succ_tree (t : Tree) (depth : Nat) (rest : List Token) :
    keep ignorable (depth + 1) (t.tokens ++ rest) = keep ignorable (depth + 1) rest := by
  match t with
  | .node start children stop hstart hstop =>
    rw [Tree.tokens_node_append, keep, hstart, if_neg Bool.false_ne_true,
      keep_succ_forest children (depth + 1), keep, hstop, if_pos rfl]

theorem keep_succ_forest (ts : List Tree) (depth : Nat) (rest : List Token) :
    keep ignorable (depth + 1) (Tree.tokensAll ts ++ rest) = keep ignorable (depth + 1) rest := by
  match ts with
  | [] => rfl
  | t :: ts =>
    rw [Tree.tokensAll, List.append_assoc, keep_succ_tree t depth, keep_succ_forest ts depth]

end

mutual

/-- Outside removed elements, the tags of an element become those of what is left of it. -/
theorem keep_tree (t : Tree) (rest : List Token) :
    keep ignorable 0 (t.tokens ++ rest)
      = Tree.tokensAll (t.prune ignorable (legible ignorable)) ++ keep ignorable 0 rest := by
  match t with
  | .node start children stop hstart hstop =>
    rw [Tree.tokens_node_append, keep, hstart, Bool.not_false, Bool.true_and, Tree.prune]
    by_cases hidden : start.IsHidden ignorable
    · rw [if_pos hidden, if_pos (dropsElement_iff.2 hidden), keep_succ_forest ignorable children 0,
        keep, hstop, if_pos rfl]
      rfl
    · rw [if_neg hidden, if_neg (mt dropsElement_iff.1 hidden), keep_forest children, keep, hstop,
        filterAttributes_eq, filterAttributes_eq, Tree.tokensAll, Tree.tokensAll, List.append_nil,
        Tree.tokens_node_append]
      rfl

/-- The screen prunes trees one by one. -/
theorem keep_forest (ts : List Tree) (rest : List Token) :
    keep ignorable 0 (Tree.tokensAll ts ++ rest)
      = Tree.tokensAll (Tree.pruneAll ignorable (legible ignorable) ts)
        ++ keep ignorable 0 rest := by
  match ts with
  | [] => rfl
  | t :: ts =>
    rw [Tree.tokensAll, List.append_assoc, keep_tree t, keep_forest ts, Tree.pruneAll,
      Tree.tokensAll_append, List.append_assoc]

end

end Screen

theorem Screen.brace_not_mem_fixed (h : ns ∈ fixedNamespaces) : '\x7d' ∉ ns.toList := by
  have hall : (fixedNamespaces.all fun ns => !ns.toList.contains '\x7d') = true := by
    decide +kernel
  simpa using List.all_eq_true.1 hall ns h

namespace Screen

/-- A tag that screening leaves as it is. -/
structure IsScreened (ignorable : List String) (t : Token) : Prop where
  kept : t.closing = false → dropsElement ignorable t = false
  keys : ∀ key ∈ t.attributes.keys, dropsAttribute ignorable key = false

variable {ignorable : List String} {t : Token} {ts : List Token}

theorem IsScreened.filterAttributes (h : IsScreened ignorable t) :
    t.filterAttributes (fun key => !dropsAttribute ignorable key) = t := by
  obtain ⟨ns, name, closing, ⟨entries, hnodup⟩⟩ := t
  have hentries : entries.filter (fun e => !dropsAttribute ignorable e.1) = entries := by
    refine List.filter_eq_self.2 fun e he => ?_
    rw [h.keys e.1 (List.mem_map_of_mem he), Bool.not_false]
  simp only [Token.filterAttributes, OrderedMap.filterKeys, hentries]

/-- What is screened stays so when fewer namespaces are ignorable. -/
theorem IsScreened.mono (h : IsScreened ignorable t) {fewer : List String}
    (hsub : ∀ ns ∈ fewer, ns ∈ ignorable) : IsScreened fewer t where
  kept := by
    intro hclosing
    have hdrops := h.kept hclosing
    rw [← Bool.not_eq_true, dropsElement_iff] at hdrops ⊢
    intro hidden
    apply hdrops
    cases hidden with
    | ignorable hns => exact .ignorable (hsub _ hns)
    | members hns hname => exact .members hns hname
    | variableList stem hname => exact .variableList stem hname
    | textExpression rest hname => exact .textExpression rest hname
    | settings hname => exact .settings hname
  keys := by
    intro key hkey
    have hdrops := h.keys key hkey
    rw [← Bool.not_eq_true, dropsAttribute_iff] at hdrops ⊢
    rintro ⟨ns, hns, hin⟩
    exact hdrops ⟨ns, hsub ns hns, hin⟩

/-- On a screened tag no namespace is declared ignorable. -/
theorem IsScreened.declaredNamespaces (hfixed : ∀ ns ∈ fixedNamespaces, ns ∈ ignorable)
    (h : ∀ t ∈ ts, IsScreened ignorable t) : declaredNamespaces ts = [] := by
  cases ts with
  | nil => rfl
  | cons t ts =>
    have hmem : Namespace.compatibility ∈ fixedNamespaces := by simp [fixedNamespaces]
    have hdrops : dropsAttribute ignorable ignorableKey = true :=
      dropsAttribute_iff.2 ⟨_, hfixed _ hmem, brace_not_mem_fixed hmem, "Ignorable", rfl⟩
    have hnone : t.attribute? ignorableKey = none := by
      rw [Token.attribute?, ← Option.not_isSome_iff_eq_none, OrderedMap.get?_isSome_iff]
      intro hkey
      rw [(h t (List.mem_cons_self ..)).keys _ hkey] at hdrops
      cases hdrops
    rw [Screen.declaredNamespaces, hnone]
    rfl

end Screen

end OpenWorkflow.Markup
