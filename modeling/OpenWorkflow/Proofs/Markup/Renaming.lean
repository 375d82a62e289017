import OpenWorkflow.Proofs.Markup.Rewriting

/-!
# Documents with a prefix renamed

Every document can be rewritten to one whose tree has another prefix
(`exists_rewritten`). The content of an element is read piece by piece, and a piece
is told by its first characters, which stay what they are (`Fronted`). What is read
from the two documents differs at most in the lists of ignorable namespaces
(`scan_renamed`).
-/

namespace OpenWorkflow.Markup

open OpenWorkflow.Text (Rule)
open OpenWorkflow.Owfn (atMost_of_none atMost_of_some bind_apply)
open Document (emptyTag isNameStart prolog read? startTag)

variable {p q : String} {n m : Nat} {cs rest : List Char}

/-! ## Content -/

/-- What a text can begin with. -/
inductive Front where
  | tag
  | data
  | comment
  | instruction
  | other
  deriving DecidableEq

/-- What the text begins with. -/
def front : List Char → Front
  | '<' :: '!' :: '[' :: _ => .data
  | '<' :: '!' :: _ => .comment
  | '<' :: '?' :: _ => .instruction
  | '<' :: _ => .tag
  | _ => .other

/-- The rule applies only where the text begins in one of these ways. -/
def Fronted {α : Type} (fronts : List Front) (r : Rule α) : Prop :=
  ∀ cs x, r cs = some x → front cs ∈ fronts

namespace Fronted

variable {α β : Type} {r s : Rule α} {fs gs : List Front}

/-- A rule begins as its first part does. -/
theorem bind {k : α → Rule β} (hr : Fronted fs r) : Fronted fs (r >>= k) := by
  intro cs x h
  obtain ⟨a, mid, ha, -⟩ := of_bind h
  exact hr cs _ ha

/-- A choice begins as one of its sides does. -/
theorem orElse (hr : Fronted fs r) (hs : Fronted gs s) : Fronted (fs ++ gs) (r <|> s) := by
  intro cs x h
  rw [List.mem_append]
  exact (of_orElse h).imp (hr cs x) (hs cs x)

/-- Rules for different fronts exclude each other. -/
theorem eq_none {s : Rule β} (hr : Fronted fs r) (hs : Fronted gs s)
    (hdisjoint : ∀ f ∈ gs, f ∉ fs) (cs : List Char) (x : β × List Char) (h : s cs = some x) :
    r cs = none := by
  rw [Option.eq_none_iff_forall_ne_some]
  intro y hy
  exact hdisjoint _ (hs cs x h) (hr cs y hy)

theorem tagHead : Fronted [.tag] Document.tagHead := by
  intro cs x h
  obtain ⟨_, mid, hopen, h⟩ := of_bind h
  obtain ⟨name, more, hname, -⟩ := of_bind h
  obtain ⟨hname, hmid, -⟩ := of_name hname
  obtain ⟨c, ds, hcs, hc, -⟩ := Element.exists_of_isName hname
  have hne {d : Char} (hd : isNameStart d = false) : c ≠ d := by
    rintro rfl
    cases hc.symm.trans hd
  rw [append_of_literal hopen, hmid, hcs]
  simp [front, hne (d := '!') (by decide), hne (d := '?') (by decide)]

theorem literal {s : String} {f : Front} (h : ∀ ds, front (s.toList ++ ds) = f) :
    Fronted [f] (Rule.literal s) := by
  intro cs x hx
  rw [append_of_literal hx, h]
  exact List.mem_singleton_self f

theorem run1 {test : Char → Bool} (htest : test '<' = false) :
    Fronted [.other] (Rule.run1 test) := by
  intro cs x h
  cases cs with
  | nil => cases h
  | cons c cs =>
    rw [Rule.run1] at h
    split at h
    · next hc =>
      have hne : c ≠ '<' := by
        rintro rfl
        cases hc.symm.trans htest
      simp [front, hne]
    · cases h

theorem comment : Fronted [.comment] Document.comment := (literal fun _ => rfl).bind

theorem instruction : Fronted [.instruction] Document.instruction := (literal fun _ => rfl).bind

theorem dataSection : Fronted [.data] Document.dataSection := (literal fun _ => rfl).bind

theorem misc : Fronted [.comment, .instruction, .other] Document.misc :=
  comment.orElse (instruction.orElse (run1 (by decide)).bind)

end Fronted

/-- A piece with `q` for the prefix `p`. -/
def Piece.respell (p q : String) (env : Bindings) : Document.Piece → Document.Piece
  | .opening tag => .opening (tag.respell p q (env.inside tag.attributes))
  | .whole c => .whole (c.respell p q env)
  | .aside => .aside

theorem Content.respell_element_nil (env : Bindings) (tag : Tag) :
    (Content.element tag [] none).respell p q env
      = .element (tag.respell p q (env.inside tag.attributes)) [] none := by
  rw [Content.respell, Content.respellAll]
  rfl

namespace Turns

section names

variable (hp : p ≠ "") (hq : Element.isName q = true)
include hp hq

/-- A piece of a document is respelled as a whole. -/
theorem piece (env : Bindings) :
    Turns p q 1 (Piece.respell p q env) Document.piece Document.piece := by
  have htest (c : Char) (hc : isNameStart c = true) : decide (c ≠ '<') = true := by
    apply decide_eq_true
    rintro rfl
    exact absurd hc (by decide)
  have hplain : Fronted [.other] (Rule.run1 (fun c => c ≠ '<')) := .run1 (by decide)
  refine ((emptyTag hp hq env).map fun tag => ?_).orElse (.orElse
    ((startTag hp hq env).map fun tag => rfl) (.orElse (dataSection.map fun raw => ?_) (.orElse
      (comment.bind fun _ => .pure _) (.orElse (instruction.bind fun _ => .pure _)
        ((run1 htest).map fun raw => ?_) ?_) ?_) ?_) ?_) fun cs x hx => ?_
  · rw [Piece.respell, Content.respell_element_nil]
  · rw [Piece.respell, Content.respell]
    rfl
  · rw [Piece.respell, Content.respell]
    rfl
  · exact Fronted.instruction.bind.eq_none hplain.bind (by decide)
  · exact Fronted.comment.bind.eq_none (Fronted.instruction.bind.orElse hplain.bind) (by decide)
  · exact Fronted.dataSection.bind.eq_none
      (Fronted.comment.bind.orElse (Fronted.instruction.bind.orElse hplain.bind)) (by decide)
  · exact Fronted.tagHead.bind.bind.eq_none (Fronted.dataSection.bind.orElse
      (Fronted.comment.bind.orElse (Fronted.instruction.bind.orElse hplain.bind))) (by decide)
  · rcases of_orElse hx with hx | hx
    · obtain ⟨tag, rest, htag, -⟩ := of_bind hx
      exact bind_eq_none (emptyTag_of_startTag htag)
    · exact Fronted.tagHead.bind.bind.eq_none (Fronted.dataSection.bind.orElse
        (Fronted.comment.bind.orElse (Fronted.instruction.bind.orElse hplain.bind))) (by decide)
        cs x hx

end names

end Turns

/-- The content at the front of a text can be rewritten up to what remains, if this is no content
in the new text either. -/
def TurnsContent (p q : String) (env : Bindings) (cs : List Char) (found : List Content)
    (rest : List Char) : Prop :=
  ∃ xs xs', cs = xs ++ rest ∧ Rewritten p q xs xs' ∧ ∀ rest', SameStart rest rest' →
    Document.piece rest' = none → SameStart cs (xs' ++ rest') ∧ ∀ j, (xs' ++ rest').length ≤ j →
      Document.contents j (xs' ++ rest') = (Content.respellAll p q env found, rest')

/-- The same for one step, whatever remains. -/
def TurnsStep (p q : String) (env : Bindings) (cs : List Char) (found : List Content)
    (rest : List Char) : Prop :=
  ∃ xs xs', cs = xs ++ rest ∧ Rewritten p q xs xs' ∧ 1 ≤ xs'.length ∧ ∀ rest',
    SameStart rest rest' → SameStart cs (xs' ++ rest') ∧ ∀ j, (xs' ++ rest').length ≤ j + 1 →
      Document.contents (j + 1) (xs' ++ rest') = (Content.respellAll p q env found
        ++ (Document.contents j rest').1, (Document.contents j rest').2)

theorem Content.respellAll_append (env : Bindings) (cs ds : List Content) :
    respellAll p q env (cs ++ ds) = respellAll p q env cs ++ respellAll p q env ds := by
  induction cs with
  | nil => simp [respellAll]
  | cons c cs ih => simp [respellAll, ih]

namespace TurnsContent

variable {env : Bindings} {mid : List Char} {found more : List Content}

theorem nil (env : Bindings) (cs : List Char) : TurnsContent p q env cs [] cs := by
  refine ⟨[], [], rfl, .nil, fun rest' hstart hnone => ⟨hstart, fun j _ => ?_⟩⟩
  rw [Content.respellAll]
  exact Element.contents_of_none hnone

/-- Respelled steps follow one another. -/
theorem append (found : List Content) (hstep : TurnsStep p q env cs found mid)
    (hmore : TurnsContent p q env mid more rest) :
    TurnsContent p q env cs (found ++ more) rest := by
  obtain ⟨xs, xs', rfl, hxs, hpos, hstep⟩ := hstep
  obtain ⟨ys, ys', rfl, hys, hmore⟩ := hmore
  refine ⟨xs ++ ys, xs' ++ ys', by simp, hxs.append hys, fun rest' hstart hnone => ?_⟩
  obtain ⟨hstart, hmore⟩ := hmore rest' hstart hnone
  obtain ⟨hstart, hstep⟩ := hstep _ hstart
  rw [List.append_assoc]
  refine ⟨hstart, fun j hj => ?_⟩
  obtain ⟨j, rfl⟩ : ∃ k, j = k + 1 := by
    rw [List.length_append] at hj
    exact ⟨j - 1, by omega⟩
  rw [List.length_append] at hj
  rw [hstep j (by rwa [List.length_append]), hmore j (by omega), Content.respellAll_append]

variable (hp : p ≠ "") (hq : Element.isName q = true)
include hq

/-- The content of an element up to its end tag, then the end tag. -/
theorem close {tag : Tag} {name : String} {behind : List Char}
    (hinner : TurnsContent p q (env.inside tag.attributes) mid found behind)
    (hend : Document.endTag behind = some (name, rest)) :
    ∃ xs xs', mid = xs ++ rest ∧ Rewritten p q xs xs' ∧ ∀ rest', SameStart rest rest' →
      SameStart mid (xs' ++ rest') ∧ ∀ j, (xs' ++ rest').length ≤ j →
        Document.close (tag.respell p q (env.inside tag.attributes))
            (Document.contents j (xs' ++ rest'))
          = some ((Content.element tag found (some name)).respell p q env, rest') := by
  obtain ⟨xs, xs', rfl, hxs, hinner⟩ := hinner
  obtain ⟨ys, ys', rfl, hys, -, -, hend⟩ := Turns.endTag (p := p) hq _ _ _ hend
  refine ⟨xs ++ ys, xs' ++ ys', by simp, hxs.append hys, fun rest' hstart => ?_⟩
  obtain ⟨hstart, hend⟩ := hend rest' hstart
  have hstop : Document.piece (ys' ++ rest') = none := by
    obtain ⟨_, behind, hopen, -⟩ := of_bind hend
    rw [append_of_literal hopen]
    exact Element.piece_endTag behind
  obtain ⟨hstart, hinner⟩ := hinner _ hstart hstop
  rw [List.append_assoc]
  refine ⟨hstart, fun j hj => ?_⟩
  rw [hinner j hj, Document.close, hend, Content.respell]
  rfl

include hp

/-- A step that takes one piece. -/
theorem step {x : Document.Piece} (hpiece : Document.piece cs = some (x, mid))
    (hstep : ∀ j cs' rest', Document.piece cs' = some (Piece.respell p q env x, rest') →
      Document.contents (j + 1) cs' = (Content.respellAll p q env found
        ++ (Document.contents j rest').1, (Document.contents j rest').2)) :
    TurnsStep p q env cs found mid := by
  obtain ⟨xs, xs', rfl, hxs, -, hpos, hpiece⟩ := Turns.piece hp hq env _ _ _ hpiece
  exact ⟨xs, xs', rfl, hxs, hpos, fun rest' hstart =>
    ⟨(hpiece rest' hstart).1, fun j _ => hstep j _ _ (hpiece rest' hstart).2⟩⟩

/-- A step that takes an element with its content. -/
theorem opening {tag : Tag} {behind : List Char} {name : String}
    (htag : Document.piece cs = some (.opening tag, mid))
    (hinner : TurnsContent p q (env.inside tag.attributes) mid found behind)
    (hend : Document.endTag behind = some (name, rest)) :
    TurnsStep p q env cs [.element tag found (some name)] rest := by
  obtain ⟨xs, xs', rfl, hxs, -, hpos, htag⟩ := Turns.piece hp hq env _ _ _ htag
  obtain ⟨ys, ys', rfl, hys, hclose⟩ := hinner.close hq hend
  refine ⟨xs ++ ys, xs' ++ ys', by simp, hxs.append hys, hpos.trans (by simp),
    fun rest' hstart => ?_⟩
  obtain ⟨hstart, hclose⟩ := hclose rest' hstart
  obtain ⟨hstart, htag⟩ := htag _ hstart
  rw [List.append_assoc]
  refine ⟨hstart, fun j hj => ?_⟩
  rw [List.length_append] at hj
  rw [Element.contents_opening htag (hclose j (by omega)), Content.respellAll, Content.respellAll]
  rfl

/-- The content that the grammar finds. The induction is on the number of steps. -/
theorem contents (env : Bindings) (n : Nat) (cs : List Char) :
    TurnsContent p q env cs (Document.contents n cs).1 (Document.contents n cs).2 := by
  induction n generalizing env cs with
  | zero => exact nil env cs
  | succ n ih =>
    cases hpiece : Document.piece cs with
    | none =>
      rw [Element.contents_of_none hpiece]
      exact nil env cs
    | some x =>
      obtain ⟨piece, mid⟩ := x
      cases piece with
      | aside =>
        rw [Document.contents, hpiece]
        refine append [] (step hp hq hpiece fun j cs' rest' h => ?_) (ih env mid)
        rw [Document.contents, h, Content.respellAll]
        rfl
      | whole c =>
        rw [Element.contents_whole hpiece]
        refine append [c] (step hp hq hpiece fun j cs' rest' h => ?_) (ih env mid)
        rw [Element.contents_whole h, Content.respellAll, Content.respellAll]
        rfl
      | opening tag =>
        rw [Document.contents, hpiece]
        simp only [Document.close]
        cases hend : Document.endTag (Document.contents n mid).2 with
        | none => exact nil env cs
        | some y => exact append _ (opening hp hq hpiece (ih _ mid) hend) (ih env y.2)

end TurnsContent

/-! ## Documents -/

namespace Turns

section names

variable (hp : p ≠ "") (hq : Element.isName q = true)
include hp hq

/-- An element is respelled as a whole. -/
theorem element (env : Bindings) :
    Turns p q 1 (Content.respell p q env) Document.element Document.element := by
  refine ((emptyTag hp hq env).map fun tag => Content.respell_element_nil env tag).orElse
    ((startTag hp hq env).bind (m := 0) fun tag cs c rest h => ?_) fun cs x hx => ?_
  · unfold Document.close at h
    split at h
    · next name after hend =>
      cases h
      obtain ⟨xs, xs', hcs, hxs, hclose⟩ :=
        (TurnsContent.contents hp hq (env.inside tag.attributes) cs.length cs).close hq hend
      exact ⟨xs, xs', hcs, hxs, Nat.zero_le _, Nat.zero_le _, fun rest' hstart =>
        ⟨(hclose rest' hstart).1, (hclose rest' hstart).2 _ (Nat.le_refl _)⟩⟩
    · cases h
  · obtain ⟨tag, rest, htag, -⟩ := of_bind hx
    exact bind_eq_none (emptyTag_of_startTag htag)

end names

theorem misc : Turns p q 1 id Document.misc Document.misc :=
  comment.orElse (instruction.orElse space
      (Fronted.instruction.eq_none (Fronted.run1 (by decide)).bind (by decide)))
    (Fronted.comment.eq_none
      (Fronted.instruction.orElse (Fronted.run1 (by decide)).bind) (by decide))

theorem done : Turns p q 0 id Rule.done Rule.done := by
  refine .of_takes fun cs u rest h => ?_
  cases cs with
  | nil =>
    cases h
    refine ⟨[], rfl, Nat.zero_le _, fun rest' hstart => ?_⟩
    cases rest' with
    | nil => rfl
    | cons c rest' => exact absurd hstart (by simp [SameStart])
  | cons c cs => cases h

end Turns

/-- An item takes a character, so any number of steps from the length on gives the same. -/
theorem atMost_eq {α : Type} {r : Rule α} (hr : ∀ cs x, r cs = some x → x.2.length < cs.length)
    (hi : cs.length ≤ i) (hj : cs.length ≤ j) : Rule.atMost r i cs = Rule.atMost r j cs := by
  induction i generalizing cs j with
  | zero =>
    have hnone : r cs = none := by
      rw [Option.eq_none_iff_forall_ne_some]
      intro x hx
      have := hr cs x hx
      omega
    rw [atMost_of_none hnone, atMost_of_none hnone]
  | succ i ih =>
    cases hx : r cs with
    | none => rw [atMost_of_none hx, atMost_of_none hx]
    | some x =>
      have hlt := hr cs x hx
      obtain ⟨j, rfl⟩ : ∃ k, j = k + 1 := ⟨j - 1, by omega⟩
      rw [atMost_of_some hx, atMost_of_some hx, ih (j := j) (by omega) (by omega)]

theorem length_lt_of_misc (cs : List Char) (x : Unit × List Char)
    (h : Document.misc cs = some x) : x.2.length < cs.length := by
  obtain ⟨xs, _, rfl, -, hpos, -⟩ := Turns.misc (p := "") (q := "") cs x.1 x.2 h
  rw [List.length_append]
  omega

theorem misc_of_prolog {x : Unit × List Char} (h : prolog cs = some x) :
    Document.misc cs = some x := by
  obtain ⟨_, mid, hopen, h⟩ := of_bind h
  obtain ⟨text, rest, hclose, hpure⟩ := of_bind h
  cases hpure
  obtain ⟨⟨t, r⟩, hsplit, ht⟩ := Option.map_eq_some_iff.1 hclose
  cases ht
  rw [append_of_literal hopen]
  -- No letter of `xml` is in the mark that ends an instruction.
  have hinstruction : Document.instruction ("<?xml".toList ++ mid) = some ((), r) := by
    show ((((((Rule.splitAtMark "?>".toList mid).map _).map _).map _).map _).bind _) = _
    rw [hsplit]
    rfl
  exact (orElse_of_none rfl).trans (orElse_of_some hinstruction)

/-- A document from its root element on. -/
def Document.body : Rule Content := do
  let root ← element
  let _ ← Rule.many misc
  Rule.done
  return root

/-- The declaration at the front of a document can be read as an instruction. -/
theorem document_apply (cs : List Char) : Document.document cs
    = (Rule.many Document.misc >>= fun _ => Document.body) cs := by
  cases h : prolog cs with
  | none =>
    show (Rule.opt prolog cs).bind _ = _
    rw [Rule.opt, h]
    rfl
  | some x =>
    have hmisc := misc_of_prolog h
    have hlt := length_lt_of_misc cs x hmisc
    obtain ⟨n, hn⟩ : ∃ n, cs.length = n + 1 := ⟨cs.length - 1, by omega⟩
    have hrest : x.2.length ≤ n := by omega
    calc Document.document cs
        = Document.body (Rule.atMost Document.misc x.2.length x.2).2 := by
          show (Rule.opt prolog cs).bind _ = _
          rw [Rule.opt, h]
          rfl
      _ = Document.body (Rule.atMost Document.misc cs.length cs).2 := by
          rw [hn, atMost_of_some hmisc, atMost_eq length_lt_of_misc (Nat.le_refl _) hrest]

/-- A document is respelled as a whole. -/
theorem Turns.document (hp : p ≠ "") (hq : Element.isName q = true) :
    Turns p q 0 (Content.respell p q []) (Rule.many Document.misc >>= fun _ => Document.body)
      (Rule.many Document.misc >>= fun _ => Document.body) := by
  refine misc.many_bind (fun _ => (element hp hq []).bind fun root => misc.many_bind
    (fun _ => done.bind fun _ => .pure root) fun _ cs x hx => ?_) fun _ cs x hx => ?_
  · obtain ⟨_, mid, hdone, -⟩ := of_bind hx
    cases cs with
    | nil => rfl
    | cons c cs => cases hdone
  · have helement : Fronted [.tag, .tag] Document.element :=
      Fronted.tagHead.bind.bind.orElse Fronted.tagHead.bind.bind
    exact Fronted.misc.eq_none helement.bind (by decide) cs x hx

/-- The text of a document can be rewritten so that its tree has `q` for the prefix `p`. -/
theorem exists_rewritten (hp : p ≠ "") (hq : Element.isName q = true) {source : String}
    {root : Content} (h : read? source = some root) :
    ∃ source', Rewritten p q source.toList source'.toList ∧
      read? source' = some (root.respell p q []) := by
  obtain ⟨⟨_, rest⟩, hread, rfl⟩ := Option.map_eq_some_iff.1 h
  rw [document_apply] at hread
  obtain ⟨xs, xs', hcs, hxs, -, -, hnew⟩ := Turns.document hp hq _ _ _ hread
  refine ⟨String.ofList (xs' ++ rest), ?_, ?_⟩
  · rw [hcs, String.toList_ofList]
    exact hxs.append (.refl rest)
  · unfold read? Rule.accept?
    rw [String.toList_ofList, document_apply, (hnew rest (.refl rest)).2]
    rfl

/-- **Prefixes can be renamed.** Let `q` occur in a document neither as a prefix nor as a word of a
list of ignorable namespaces. If `q` has no blank in it, or `p` is in no such list, the text can be
rewritten to that of a document whose tree has `q` for the prefix `p`. All documents with such a
tree are refused if the first is; otherwise their tags differ from its tags at most in these lists,
and not at all if `p` has a declaration wherever it is a word of one. -/
theorem scan_renamed {source : String} {root : Content} {p q : String}
    (hroot : read? source = some root) (hp : IsLabel p) (hq : IsLabel q)
    (hname : Element.isName q = true) (hlabels : q ∉ root.labels)
    (hlists : ∀ list ∈ root.lists [], q ∉ list.2) :
    (Content.Fits p q (root.lists []) → ∃ source' root',
        Rewritten p q source.toList source'.toList ∧ read? source' = some root'
          ∧ root.Respelled p q [] root')
      ∧ ∀ source' root', read? source' = some root' → root.Respelled p q [] root' →
        (∃ e e', scan source = .error e ∧ scan source' = .error e')
          ∨ ∃ ts ts', scan source = .ok ts ∧ scan source' = .ok ts'
            ∧ List.Forall₂ (Token.Alike (root.Leaves p)) ts ts'
            ∧ (¬ root.Leaves p → ts' = ts) := by
  refine ⟨fun hfits => ?_, fun source' root' hroot' hrespelled => ?_⟩
  · obtain ⟨source', hrewritten, hread⟩ := exists_rewritten hp.ne_empty hname hroot
    exact ⟨source', _, hrewritten, hread, root.respelled_respell hq.ne_empty hfits⟩
  · exact scan_respelled hroot hroot' hrespelled hp hq hlabels hlists

/-- The inner element declares the prefix again, and the list has it as a reference. -/
theorem scan_renamed_shadowing :
    let source := "<p:a xmlns:p='u'
      xmlns:m='http://schemas.openxmlformats.org/markup-compatibility/2006' m:Ignorable='&#112;'><p:b xmlns:p='v'/></p:a>"
    let ts := [(Token.opening "u" "a").setAttribute ignorableKey "u", .opening "v" "b",
      .ending "v" "b", .ending "u" "a"]
    scan source = .ok ts ∧ ∃ source' root root', read? source = some root
      ∧ read? source' = some root' ∧ Rewritten "p" "q" source.toList source'.toList
      ∧ root.Respelled "p" "q" [] root' ∧ "p" ∈ root.labels ∧ "q" ∉ root.labels
      ∧ ¬ root.Leaves "p" ∧ scan source' = .ok ts := by
  intro source ts
  have hp : IsLabel "p" := ⟨by decide, by decide, by decide, by decide⟩
  have hq : IsLabel "q" := ⟨by decide, by decide, by decide, by decide⟩
  have hscan : scan source = .ok ts := by decide +kernel
  have hfacts : (read? source).map (fun root => (root.labels, root.lists []))
      = some (["p", "p", "m", "m", "p", "p", "p"],
        [([("m", Namespace.compatibility), ("p", "u")], ["p"])]) := by decide +kernel
  obtain ⟨root, hroot, hfacts⟩ := Option.map_eq_some_iff.1 hfacts
  obtain ⟨hlabels, hlists⟩ := Prod.mk.inj hfacts
  have hfresh : "q" ∉ root.labels := by
    rw [hlabels]
    decide
  have hleaves : ¬ root.Leaves "p" := by
    rintro ⟨list, hmem, -, hnone⟩
    rw [hlists] at hmem
    rw [List.mem_singleton.1 hmem] at hnone
    cases hnone
  obtain ⟨hsome, hsame⟩ := scan_renamed hroot hp hq (by decide) hfresh
    (by rw [hlists]; exact List.forall_mem_singleton.2 (by decide))
  obtain ⟨source', root', hrewritten, hread', hrespelled⟩ :=
    hsome (.inl (List.forall_mem_singleton.2 (by decide)))
  refine ⟨hscan, source', root, root', hroot, hread', hrewritten, hrespelled,
    by rw [hlabels]; decide, hfresh, hleaves, ?_⟩
  obtain ⟨e, e', he, -⟩ | ⟨us, us', hus, hus', -, hsame⟩ := hsame source' root' hread' hrespelled
  · cases hscan.symm.trans he
  · rw [hus', hsame hleaves, ← hus, hscan]

/-- Without a declaration of `p` the word stays as it is written, and a prefix that has a no-break
space in it is read as two words. -/
theorem scan_respelled_differs :
    let source := "<a xmlns:m='http://schemas.openxmlformats.org/markup-compatibility/2006'
        m:Ignorable='p'/>"
    let listed (value : String) :=
      [(Token.opening "" "a").setAttribute ignorableKey value, .ending "" "a"]
    (∃ source' root root', read? source = some root
        ∧ read? source' = some root' ∧ Rewritten "p" "q" source.toList source'.toList
        ∧ root.Respelled "p" "q" [] root' ∧ "q" ∉ root.labels
        ∧ (∀ list ∈ root.lists [], "q" ∉ list.2)
        ∧ scan source = .ok (listed "p") ∧ scan source' = .ok (listed "q"))
      ∧ listed "p" ≠ listed "q"
      ∧ Document.name "a\u00a0b".toList = some ("a\u00a0b", [])
      ∧ scan "<a xmlns:m='http://schemas.openxmlformats.org/markup-compatibility/2006'
        xmlns:p='u' m:Ignorable='p'/>" = .ok (listed "u")
      ∧ scan "<a xmlns:m='http://schemas.openxmlformats.org/markup-compatibility/2006'
        xmlns:a\u00a0b='u' m:Ignorable='a\u00a0b'/>" = .ok (listed "a b") := by
  intro source listed
  have hfacts : (read? source).map (fun root => (root.labels, root.lists []))
      = some (["m", "m"], [([("m", Namespace.compatibility)], ["p"])]) := by decide +kernel
  have hscan : (read? source).all (fun root =>
      (Scan.content [] (root.respell "p" "q" [])).map Prod.snd = .ok (listed "q")) = true := by
    decide +kernel
  obtain ⟨root, hroot, hfacts⟩ := Option.map_eq_some_iff.1 hfacts
  obtain ⟨hlabels, hlists⟩ := Prod.mk.inj hfacts
  rw [hroot] at hscan
  obtain ⟨source', hrewritten, hread'⟩ :=
    exists_rewritten (p := "p") (q := "q") (by decide) (by decide) hroot
  have hrespelled : root.Respelled "p" "q" [] (root.respell "p" "q" []) :=
    root.respelled_respell (by decide) (.inl (List.forall_mem_singleton.2 (by decide)))
  refine ⟨⟨source', root, _, hroot, hread', hrewritten, hrespelled, ?_, ?_, by decide +kernel, ?_⟩,
    by decide +kernel, by decide, by decide +kernel, by decide +kernel⟩
  · rw [hlabels]
    decide
  · rw [hlists]
    exact List.forall_mem_singleton.2 (by decide)
  · rw [scan_of_read? hread', of_decide_eq_true hscan]

end OpenWorkflow.Markup
