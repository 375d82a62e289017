import Mathlib.Data.List.Forall2
import OpenWorkflow.Markup.Scan

/-!
# Prefixes and their other spellings

A name is respelled by writing the prefix `q` for its prefix `p` (`respellName`), the key of an
attribute also where it declares `p` (`respellKey`), and the declarations in force are relabelled
with them. If `q` is declared nowhere, every label finds the declaration that it found before
(`lookup?_relabel`), so respelled names are resolved as they were or refused as they were
(`resolve_respellName`, `attributeKey_respellName`).

A word of a list of ignorable namespaces that has no declaration stays as it stands, so only there
can one see the new spelling (`expandPrefixes_relabel`).
-/

namespace OpenWorkflow.Markup

variable {key label name rest : String}

/-! ## Labels -/

/-- A prefix that a document can declare and that has no meaning of its own. -/
structure IsLabel (label : String) : Prop where
  ne_empty : label ≠ ""
  ne_xml : label ≠ "xml"
  ne_xmlns : label ≠ "xmlns"
  colonFree : ':' ∉ label.toList

/-- The label `q` in place of `p`. -/
def relabel (p q label : String) : String := if label = p then q else label

variable {p q : String}

theorem relabel_self : relabel p q p = q := if_pos rfl

theorem relabel_of_ne (h : label ≠ p) : relabel p q label = label := if_neg h

/-- Labels that were different stay so if none of them was `q`. -/
theorem relabel_inj {a b : String} (ha : a ≠ q) (hb : b ≠ q) :
    relabel p q a = relabel p q b ↔ a = b := by
  unfold relabel
  constructor
  · intro h
    by_cases hap : a = p
    · by_cases hbp : b = p
      · rw [hap, hbp]
      · rw [if_pos hap, if_neg hbp] at h
        exact absurd h.symm hb
    · by_cases hbp : b = p
      · rw [if_neg hap, if_pos hbp] at h
        exact absurd h ha
      · rwa [if_neg hap, if_neg hbp] at h
  · rintro rfl
    rfl

/-! ## Outcomes -/

section outcomes

variable {α α' β β' : Type} {R : α → α' → Prop} {S : β → β' → Prop}

/-- Both succeed, with related values, or both fail. -/
def Together (R : α → α' → Prop) : Except ScanError α → Except ScanError α' → Prop
  | .ok a, .ok a' => R a a'
  | .error _, .error _ => True
  | _, _ => False

instance [∀ a a', Decidable (R a a')] :
    (x : Except ScanError α) → (x' : Except ScanError α') → Decidable (Together R x x')
  | .ok a, .ok a' => inferInstanceAs (Decidable (R a a'))
  | .error _, .error _ => .isTrue trivial
  | .ok _, .error _ => .isFalse id
  | .error _, .ok _ => .isFalse id

theorem Together.cases {x : Except ScanError α} {x' : Except ScanError α'} (h : Together R x x') :
    (∃ e e', x = .error e ∧ x' = .error e') ∨ ∃ a a', x = .ok a ∧ x' = .ok a' ∧ R a a' := by
  cases x with
  | error e =>
    cases x' with
    | error e' => exact .inl ⟨e, e', rfl, rfl⟩
    | ok a' => exact h.elim
  | ok a =>
    cases x' with
    | error e' => exact h.elim
    | ok a' => exact .inr ⟨a, a', rfl, rfl, h⟩

/-- Two scans that go together go on together. -/
theorem Together.bind {x : Except ScanError α} {x' : Except ScanError α'}
    {f : α → Except ScanError β} {f' : α' → Except ScanError β'} (h : Together R x x')
    (hf : ∀ a a', R a a' → Together S (f a) (f' a')) : Together S (x >>= f) (x' >>= f') := by
  obtain ⟨e, e', rfl, rfl⟩ | ⟨a, a', rfl, rfl, ha⟩ := h.cases
  · trivial
  · exact hf a a' ha

theorem Together.map {x : Except ScanError α} {x' : Except ScanError α'} {f : α → β}
    {f' : α' → β'} (h : Together R x x') (hf : ∀ a a', x = .ok a → R a a' → S (f a) (f' a')) :
    Together S (x.map f) (x'.map f') := by
  obtain ⟨e, e', rfl, rfl⟩ | ⟨a, a', rfl, rfl, ha⟩ := h.cases
  · trivial
  · exact hf a a' rfl ha

/-- A step that is made for each member of a list. -/
theorem Together.mapM {ι ι' : Type} {P : ι → ι' → Prop} {f : ι → Except ScanError α}
    {f' : ι' → Except ScanError α'} {xs : List ι} {xs' : List ι'} (h : List.Forall₂ P xs xs')
    (hf : ∀ x x', P x x' → Together R (f x) (f' x')) :
    Together (List.Forall₂ R) (xs.mapM f) (xs'.mapM f') := by
  induction h with
  | nil => exact .nil
  | cons hx _ ih =>
    rw [List.mapM_cons, List.mapM_cons]
    exact (hf _ _ hx).bind fun a a' ha => ih.bind fun as as' has => .cons ha has

end outcomes

/-- A list that can be respelled, with the declarations in force at it: `q` is new there, and if `p`
is a word without declaration, then `U`. -/
structure ListFits (p q : String) (U : Prop) (list : Bindings × List String) : Prop where
  fresh : q ∉ list.2
  declared : p ∈ list.2 → list.1.lookup? p = none → U

namespace Bindings

/-- The prefix of a name. -/
def label? (name : String) : Option String := (splitName name).map Prod.fst

/-- The prefix that an attribute declares, or else the one of its name. -/
def keyLabel? (key : String) : Option String :=
  match declares? key with
  | some label => some label
  | none => label? key

/-- A name with `q` in place of the prefix `p`. -/
def respellName (p q name : String) : String :=
  match splitName name with
  | some (label, rest) => relabel p q label ++ ":" ++ rest
  | none => name

/-- The name of an attribute with `q` in place of the prefix `p`, also where it declares it. -/
def respellKey (p q key : String) : String :=
  match declares? key with
  | some label => if label = p then "xmlns:" ++ q else key
  | none => respellName p q key

/-- The same declarations with `p` called `q`. -/
def relabel (p q : String) (env : Bindings) : Bindings :=
  env.map (fun b => (Markup.relabel p q b.1, b.2))

theorem splitName_append (h : ':' ∉ label.toList) (rest : String) :
    splitName (label ++ ":" ++ rest) = some (label, rest) := by
  have hfree : ∀ c ∈ label.toList, decide (c = ':') = false := by
    intro c hc
    apply decide_eq_false
    rintro rfl
    exact h hc
  have hlist : (label ++ ":" ++ rest).toList = label.toList ++ ':' :: rest.toList := by simp
  unfold splitName
  rw [hlist, Text.cut_append hfree (by decide)]
  simp

theorem eq_of_splitName (h : splitName name = some (label, rest)) :
    name = label ++ ":" ++ rest ∧ ':' ∉ label.toList := by
  obtain ⟨⟨a, b⟩, hcut, hab⟩ := Option.map_eq_some_iff.1 h
  obtain ⟨rfl, rfl⟩ := Prod.mk.inj hab
  obtain ⟨c, hc, hlist, hfree⟩ := Text.cut_eq_some hcut
  obtain rfl : c = ':' := by simpa using hc
  constructor
  · apply String.toList_inj.1
    simp [hlist]
  · rw [String.toList_ofList]
    intro hmem
    exact absurd (hfree _ hmem) (by decide)

/-- Respelling changes the prefix and leaves the rest of a name. -/
theorem splitName_respellName (hq : IsLabel q) (name : String) :
    splitName (respellName p q name)
      = (splitName name).map (fun r => (Markup.relabel p q r.1, r.2)) := by
  unfold respellName
  cases h : splitName name with
  | none => exact h
  | some r =>
    obtain ⟨label, rest⟩ := r
    have hfree : ':' ∉ (Markup.relabel p q label).toList := by
      by_cases hlabel : label = p
      · rw [hlabel, relabel_self]
        exact hq.colonFree
      · rw [relabel_of_ne hlabel]
        exact (eq_of_splitName h).2
    exact splitName_append hfree rest

theorem respellName_of_splitName (h : splitName name = none) : respellName p q name = name := by
  unfold respellName
  rw [h]

theorem ne_of_splitName (h : splitName name = some (label, rest)) (hlabel : label? name ≠ some q) :
    label ≠ q := by
  rintro rfl
  apply hlabel
  rw [label?, h, Option.map_some]

/-- Names that were different stay so if none of them had the prefix `q`. -/
theorem respellName_inj (hq : IsLabel q) {a b : String} (ha : label? a ≠ some q)
    (hb : label? b ≠ some q) : respellName p q a = respellName p q b ↔ a = b := by
  constructor
  · intro h
    have hsplit := congrArg splitName h
    rw [splitName_respellName hq, splitName_respellName hq] at hsplit
    cases hsa : splitName a with
    | none =>
      cases hsb : splitName b with
      | none => rwa [respellName_of_splitName hsa, respellName_of_splitName hsb] at h
      | some r =>
        rw [hsa, hsb] at hsplit
        cases hsplit
    | some r =>
      cases hsb : splitName b with
      | none =>
        rw [hsa, hsb] at hsplit
        cases hsplit
      | some r' =>
        rw [hsa, hsb, Option.map_some, Option.map_some] at hsplit
        obtain ⟨hlabel, hrest⟩ := Prod.mk.inj (Option.some.inj hsplit)
        rw [relabel_inj (ne_of_splitName hsa ha) (ne_of_splitName hsb hb)] at hlabel
        rw [(eq_of_splitName hsa).1, (eq_of_splitName hsb).1, hlabel, hrest]
  · rintro rfl
    rfl

/-! ## Declarations -/

theorem declares?_eq_some (h : declares? key = some label) :
    key = "xmlns" ∧ label = "" ∨ key = "xmlns" ++ ":" ++ label := by
  unfold declares? at h
  by_cases hkey : key = "xmlns"
  · rw [if_pos hkey] at h
    exact .inl ⟨hkey, (Option.some.inj h).symm⟩
  · rw [if_neg hkey] at h
    obtain ⟨rest, hrest, rfl⟩ := Option.map_eq_some_iff.1 h
    have hlist := List.append_eq_of_isPrefixOf?_eq_some hrest
    right
    apply String.toList_inj.1
    rw [← hlist]
    simp

theorem declares?_append (label : String) : declares? ("xmlns:" ++ label) = some label := by
  have hne : "xmlns:" ++ label ≠ "xmlns" := by
    intro h
    have hlength := congrArg String.length h
    rw [String.length_append] at hlength
    have h6 : "xmlns:".length = 6 := by decide
    have h5 : "xmlns".length = 5 := by decide
    omega
  unfold declares?
  rw [if_neg hne, String.toList_append]
  show some (String.ofList label.toList) = _
  rw [String.ofList_toList]

/-- A name with another prefix than `xmlns` declares nothing. -/
theorem declares?_of_splitName (h : splitName key = some (label, rest)) (hlabel : label ≠ "xmlns") :
    declares? key = none := by
  cases hd : declares? key with
  | none => rfl
  | some declared =>
    rcases declares?_eq_some hd with ⟨rfl, -⟩ | rfl
    · have hnone : splitName "xmlns" = none := by decide
      rw [hnone] at h
      cases h
    · rw [splitName_append (by decide)] at h
      cases h
      exact absurd rfl hlabel

/-- A respelled declaration declares the other prefix. -/
theorem declares?_respellKey (hq : IsLabel q) (key : String) :
    declares? (respellKey p q key) = (declares? key).map (Markup.relabel p q) := by
  unfold respellKey
  cases hd : declares? key with
  | some label =>
    show declares? (if label = p then "xmlns:" ++ q else key) = _
    by_cases hlabel : label = p
    · rw [if_pos hlabel, declares?_append, Option.map_some, hlabel, relabel_self]
    · rw [if_neg hlabel, hd, Option.map_some, relabel_of_ne hlabel]
  | none =>
    cases hs : splitName key with
    | none => rw [respellName_of_splitName hs, hd, Option.map_none]
    | some r =>
      obtain ⟨label, rest⟩ := r
      by_cases hlabel : label = p
      · have hsplit := splitName_respellName (p := p) hq key
        rw [hs, Option.map_some, hlabel, relabel_self] at hsplit
        exact declares?_of_splitName hsplit hq.ne_xmlns
      · have hsame : respellName p q key = key := by
          unfold respellName
          rw [hs]
          simp only [relabel_of_ne hlabel]
          exact (eq_of_splitName hs).1.symm
        rw [hsame, hd, Option.map_none]

theorem respellKey_of_declares? (h : declares? key = none) :
    respellKey p q key = respellName p q key := by
  unfold respellKey
  rw [h]

section lookup

variable {env : Bindings} (hp : IsLabel p) (hq : IsLabel q) (henv : q ∉ env.map Prod.fst)
include hp hq henv

/-- A label other than `q` finds the declaration that it found before. -/
theorem lookup?_relabel (hlabel : label ≠ q) :
    (env.relabel p q).lookup? (Markup.relabel p q label) = env.lookup? label := by
  have hxml : Markup.relabel p q label = "xml" ↔ label = "xml" := by
    have h := relabel_inj (p := p) hlabel hq.ne_xml.symm
    rwa [relabel_of_ne hp.ne_xml.symm] at h
  have hlist : List.lookup (Markup.relabel p q label) (env.relabel p q)
      = List.lookup label env := by
    unfold relabel
    induction env with
    | nil => rfl
    | cons b env ih =>
      rw [List.map_cons, List.mem_cons, not_or] at henv
      have hsame : (Markup.relabel p q label == Markup.relabel p q b.1) = (label == b.1) := by
        rw [Bool.eq_iff_iff, beq_iff_eq, beq_iff_eq]
        exact relabel_inj hlabel (Ne.symm henv.1)
      rw [List.map_cons, List.lookup_cons, List.lookup_cons, hsame, ih henv.2]
  unfold lookup?
  rw [hlist]
  by_cases h : label = "xml"
  · rw [if_pos h, if_pos (hxml.2 h)]
  · rw [if_neg h, if_neg (mt hxml.1 h)]

/-- The new prefix is bound to what the old one was. -/
theorem resolvePrefix_relabel (hlabel : label ≠ q) :
    Together Eq (env.resolvePrefix label)
      ((env.relabel p q).resolvePrefix (Markup.relabel p q label)) := by
  unfold resolvePrefix
  rw [lookup?_relabel hp hq henv hlabel]
  cases env.lookup? label with
  | none => trivial
  | some ns => rfl

/-- An element keeps its namespace and its local name. -/
theorem resolve_respellName (hname : label? name ≠ some q) :
    Together Eq (env.resolve name) ((env.relabel p q).resolve (respellName p q name)) := by
  unfold resolve
  rw [splitName_respellName hq]
  cases hs : splitName name with
  | none =>
    have hdefault := lookup?_relabel hp hq henv hq.ne_empty.symm
    rw [relabel_of_ne hp.ne_empty.symm] at hdefault
    show ((env.lookup? "").getD "", name) = _
    rw [hdefault, respellName_of_splitName hs]
  | some r =>
    refine (resolvePrefix_relabel hp hq henv (ne_of_splitName hs hname)).map ?_
    rintro ns _ - rfl
    rfl

/-- An attribute keeps its key. -/
theorem attributeKey_respellName (hname : label? name ≠ some q) :
    Together Eq (env.attributeKey name)
      ((env.relabel p q).attributeKey (respellName p q name)) := by
  unfold attributeKey
  rw [splitName_respellName hq]
  cases hs : splitName name with
  | none => exact (respellName_of_splitName hs).symm
  | some r =>
    refine (resolvePrefix_relabel hp hq henv (ne_of_splitName hs hname)).map ?_
    rintro ns _ - rfl
    rfl

/-- A list whose words are respelled stands for the same namespaces, if all are declared. -/
theorem expandPrefixes_relabel {U : Prop} {value value' : String}
    (h : ListFits p q U (env, Text.wordsOf value))
    (hwords : Text.wordsOf value' = (Text.wordsOf value).map (Markup.relabel p q)) (hU : ¬ U) :
    (env.relabel p q).expandPrefixes value' = env.expandPrefixes value := by
  unfold expandPrefixes
  rw [hwords, List.map_map]
  refine congrArg _ (List.map_congr_left fun w hw => ?_)
  have hne : w ≠ q := by
    rintro rfl
    exact h.fresh hw
  rw [Function.comp_apply, lookup?_relabel hp hq henv hne]
  cases hlookup : env.lookup? w with
  | some ns => rfl
  | none =>
    refine relabel_of_ne ?_
    rintro rfl
    exact hU (h.declared hw hlookup)

end lookup

end Bindings

end OpenWorkflow.Markup
