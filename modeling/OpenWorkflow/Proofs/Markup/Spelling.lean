import OpenWorkflow.Proofs.Markup.Respelling
import OpenWorkflow.Proofs.Markup.RoundTrip

/-!
# Writing a prefix anew

`Rewritten` is a text with `q` in places where `p` is written, and with `q` for `p`
in lists of ignorable namespaces; such a list is written anew as a whole, because a
word of it can be spelled with references. `Content.respell` is the tree that the
new text is to have. If `q` has no blank in it, or no list has `p` as a word, it is
`Respelled` (`Content.respelled_respell`).
-/

namespace OpenWorkflow.Markup

open OpenWorkflow.Text (isBlank)

variable {p q : String}

/-! ## Lists of words -/

/-- The words in a row, each with a space behind it. -/
def spaced (words : List String) : String :=
  String.ofList (words.flatMap fun w => w.toList ++ [' '])

/-- The words of a text have no blanks in them. -/
theorem not_isBlank_of_mem {value w : String} (h : w ∈ Text.wordsOf value) :
    w ≠ "" ∧ ∀ c ∈ w.toList, isBlank c = false := by
  obtain ⟨cs, hcs, rfl⟩ := List.mem_map.1 h
  obtain ⟨hpiece, hne⟩ := List.mem_filter.1 hcs
  rw [String.toList_ofList]
  exact ⟨by simpa using hne, Text.forall_of_mem_pieces hpiece⟩

/-- Words that are written with blanks between them are read back. -/
theorem wordsOf_spaced {words : List String}
    (h : ∀ w ∈ words, w ≠ "" ∧ ∀ c ∈ w.toList, isBlank c = false) :
    Text.wordsOf (spaced words) = words := by
  unfold Text.wordsOf Text.words spaced
  rw [String.toList_ofList]
  induction words with
  | nil => rfl
  | cons w words ih =>
    obtain ⟨⟨hne, hw⟩, hwords⟩ := List.forall_mem_cons.1 h
    rw [List.flatMap_cons, List.append_assoc, List.singleton_append,
      Text.pieces_append hw (by decide), List.filter_cons_of_pos (by simpa using hne),
      List.map_cons, ih hwords, String.ofList_toList]

/-- The words of a list with `q` for `p`. -/
def relisted (p q value : String) : String := spaced ((Text.wordsOf value).map (relabel p q))

theorem respelledList_relisted {value : String} (hq : q ≠ "")
    (hblank : ∀ c ∈ q.toList, isBlank c = false) :
    RespelledList p q value (relisted p q value) := by
  refine wordsOf_spaced (List.forall_mem_map.2 fun w hw => ?_)
  unfold relabel
  split
  · exact ⟨hq, hblank⟩
  · exact not_isBlank_of_mem hw

/-! ## Rewritten texts -/

/-- The second text is the first with `q` in some places where `p` is written. A list that has the
word `p` is written anew. -/
inductive Rewritten (p q : String) : List Char → List Char → Prop
  | nil : Rewritten p q [] []
  | keep (c : Char) {xs ys : List Char} (h : Rewritten p q xs ys) :
    Rewritten p q (c :: xs) (c :: ys)
  | swap {xs ys : List Char} (h : Rewritten p q xs ys) :
    Rewritten p q (p.toList ++ xs) (q.toList ++ ys)
  | list {text value : String} {xs ys : List Char} (hvalue : Entity.decode text = .ok value)
    (hmem : p ∈ Text.wordsOf value) (h : Rewritten p q xs ys) :
    Rewritten p q (text.toList ++ xs) ((Element.escape (relisted p q value)).toList ++ ys)

namespace Rewritten

theorem append {xs ys xs' ys' : List Char} (h : Rewritten p q xs xs') (h' : Rewritten p q ys ys') :
    Rewritten p q (xs ++ ys) (xs' ++ ys') := by
  induction h with
  | nil => exact h'
  | keep c _ ih => exact ih.keep c
  | swap _ ih =>
    rw [List.append_assoc, List.append_assoc]
    exact ih.swap
  | list hvalue hmem _ ih =>
    rw [List.append_assoc, List.append_assoc]
    exact ih.list hvalue hmem

theorem refl (xs : List Char) : Rewritten p q xs xs := by
  induction xs with
  | nil => exact .nil
  | cons c xs ih => exact ih.keep c

end Rewritten

/-- The value of a list as it is written, with `q` for the word `p`. -/
def respellValue (p q raw : String) : String :=
  match Entity.decode raw with
  | .ok value => if p ∈ Text.wordsOf value then Element.escape (relisted p q value) else raw
  | .error _ => raw

/-- A respelled value is rewritten. -/
theorem rewritten_respellValue (raw : String) :
    Rewritten p q raw.toList (respellValue p q raw).toList := by
  unfold respellValue
  split
  · next value hvalue =>
    split
    · next hmem =>
      have h : Rewritten p q (raw.toList ++ []) (_ ++ []) := .list hvalue hmem .nil
      rwa [List.append_nil, List.append_nil] at h
    · exact .refl _
  · exact .refl _

/-- The new value has no characters that cannot stand there. -/
theorem mem_respellValue {raw : String} {c : Char} (hc : c ∈ (respellValue p q raw).toList) :
    c ∈ raw.toList ∨ c ∉ Element.delimiters := by
  unfold respellValue at hc
  split at hc
  · split at hc
    · exact .inr (Element.isQuotable_escape _ c hc)
    · exact .inl hc
  · exact .inl hc

/-- A value and its respelling are decoded together. -/
theorem together_respellValue (hq : q ≠ "") (raw : String)
    (hblank : ∀ value, Entity.decode raw = .ok value → p ∈ Text.wordsOf value →
      ∀ c ∈ q.toList, isBlank c = false) :
    Together (RespelledList p q) (Entity.decode raw) (Entity.decode (respellValue p q raw)) := by
  unfold respellValue
  cases hvalue : Entity.decode raw with
  | error e =>
    rw [hvalue]
    trivial
  | ok value =>
    simp only
    split
    · next hmem =>
      rw [Element.decode_escape]
      exact respelledList_relisted hq (hblank value hvalue hmem)
    · next hmem =>
      rw [hvalue]
      have hsame : ∀ w ∈ Text.wordsOf value, relabel p q w = id w := fun w hw =>
        relabel_of_ne fun h => hmem (h ▸ hw)
      exact ((List.map_congr_left hsame).trans (List.map_id _)).symm

/-! ## Names and trees -/

/-- The function takes names to names and writes `q` for `p`. -/
def Renames (p q : String) (f : String → String) : Prop :=
  ∀ s, Element.isName s = true → Element.isName (f s) = true ∧ Rewritten p q s.toList (f s).toList

namespace Bindings

theorem renames_respellName (hq : Element.isName q = true) : Renames p q (respellName p q) := by
  intro s hs
  unfold respellName
  cases h : splitName s with
  | none => exact ⟨hs, .refl _⟩
  | some r =>
    obtain ⟨label, rest⟩ := r
    obtain ⟨rfl, -⟩ := eq_of_splitName h
    by_cases hlabel : label = p
    · subst hlabel
      simp only [relabel_self, String.append_assoc] at hs ⊢
      refine ⟨Element.isName_append hq fun c hc => Element.isNameChar_of_mem hs ?_, ?_⟩
      · exact String.toList_append ▸ List.mem_append_right _ hc
      · simp only [String.toList_append]
        exact (Rewritten.refl _).swap
    · simp only [relabel_of_ne hlabel]
      exact ⟨hs, .refl _⟩

theorem renames_respellKey (hp : p ≠ "") (hq : Element.isName q = true) :
    Renames p q (respellKey p q) := by
  intro s hs
  unfold respellKey
  cases h : declares? s with
  | none => exact renames_respellName hq s hs
  | some label =>
    by_cases hlabel : label = p
    · subst hlabel
      obtain ⟨-, he⟩ | rfl := declares?_eq_some h
      · exact absurd he hp
      · simp only [if_true]
        refine ⟨Element.isName_append (by decide) fun c => Element.isNameChar_of_mem hq, ?_⟩
        have hswap : Rewritten label q (label.toList ++ []) (q.toList ++ []) := .swap .nil
        rw [List.append_nil, List.append_nil] at hswap
        simp only [String.toList_append]
        exact (Rewritten.refl "xmlns:".toList).append hswap
    · simp only [if_neg hlabel]
      exact ⟨hs, .refl _⟩

end Bindings

/-- An attribute as it is written, with `q` for the prefix `p`. -/
def respellAttribute (p q : String) (within : Bindings) (a : String × String) : String × String :=
  (Bindings.respellKey p q a.1, if within.isIgnorable a.1 then respellValue p q a.2 else a.2)

/-- A tag with `q` for the prefix `p`, under the declarations in force inside it. -/
def Tag.respell (p q : String) (within : Bindings) (tag : Tag) : Tag where
  name := Bindings.respellName p q tag.name
  attributes := tag.attributes.map (respellAttribute p q within)

namespace Content

mutual

/-- A tree with `q` for the prefix `p`. -/
def respell (p q : String) (env : Bindings) : Content → Content
  | .element tag inner endName =>
    .element (tag.respell p q (env.inside tag.attributes))
      (respellAll p q (env.inside tag.attributes) inner)
      (endName.map (Bindings.respellName p q))
  | .text raw => .text raw
  | .data raw => .data raw

/-- The same for some content in a row. -/
def respellAll (p q : String) (env : Bindings) : List Content → List Content
  | [] => []
  | c :: cs => respell p q env c :: respellAll p q env cs

end

/-- The words of `q` are one, or none of the lists has the word `p`. -/
def Fits (p q : String) (lists : List (Bindings × List String)) : Prop :=
  (∀ c ∈ q.toList, isBlank c = false) ∨ ∀ list ∈ lists, p ∉ list.2

theorem Fits.of_subset {lists lists' : List (Bindings × List String)} (h : Fits p q lists)
    (hsub : lists' ⊆ lists) : Fits p q lists' :=
  h.imp_right fun hall list hlist => hall list (hsub hlist)

end Content

/-- The respelling of a tag respells it. -/
theorem Tag.respelled_respell (hq : q ≠ "") {within : Bindings}
    {tag : Tag} (hfits : Content.Fits p q (tag.lists within)) :
    tag.Respelled p q within (tag.respell p q within) where
  name := rfl
  attributes := by
    refine List.forall₂_map_right_iff.2 (List.forall₂_same.2 fun a ha => ⟨rfl, ?_⟩)
    by_cases hi : within.isIgnorable a.1 = true
    · rw [if_pos hi, respellAttribute, if_pos hi]
      refine together_respellValue hq a.2 fun value hvalue hmem => hfits.elim id fun hnone => ?_
      refine absurd hmem (hnone (within, Text.wordsOf value) (List.mem_filterMap.2 ⟨a, ha, ?_⟩))
      rw [if_pos hi, hvalue]
      rfl
    · rw [if_neg hi, respellAttribute, if_neg hi]

namespace Content

mutual

/-- The respelling of a content respells it. -/
theorem respelled_respell (hq : q ≠ "") (c : Content)
    {env : Bindings} (hfits : Fits p q (c.lists env)) :
    c.Respelled p q env (c.respell p q env) := by
  match c with
  | .text raw => rw [Respelled, respell]
  | .data raw => rw [Respelled, respell]
  | .element tag inner endName =>
    rw [Respelled, respell]
    rw [lists] at hfits
    exact ⟨_, _, Tag.respelled_respell hq (hfits.of_subset (List.subset_append_left ..)),
      respelledAll_respellAll hq inner (hfits.of_subset (List.subset_append_right ..)), rfl⟩

theorem respelledAll_respellAll (hq : q ≠ "") (cs : List Content)
    {env : Bindings} (hfits : Fits p q (listsAll env cs)) :
    RespelledAll p q env cs (respellAll p q env cs) := by
  match cs with
  | [] => rw [RespelledAll, respellAll]
  | c :: cs =>
    rw [RespelledAll, respellAll]
    rw [listsAll] at hfits
    exact ⟨_, _, respelled_respell hq c (hfits.of_subset (List.subset_append_left ..)),
      respelledAll_respellAll hq cs (hfits.of_subset (List.subset_append_right ..)), rfl⟩

end

end Content

end OpenWorkflow.Markup
