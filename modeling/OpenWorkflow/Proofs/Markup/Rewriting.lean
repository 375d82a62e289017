import OpenWorkflow.Proofs.Markup.Spelling

/-!
# Rules on rewritten text

A text in which a prefix is written anew goes through the rules of the grammar as
the old one did. `Turns` says so of one rule: what it read it reads again, with the
prefix renamed, wherever the rest of the text begins as it did before. It holds of
names, of attributes and of tags, and of what is put together from them.
-/

namespace OpenWorkflow.Markup

open OpenWorkflow.Text (Rule)
open OpenWorkflow.Owfn (atMost_of_none atMost_of_some bind_apply)
open Document (attr emptyTag isNameStart optSpace prolog quotedBy read? startTag)

variable {p q : String} {n m i j : Nat} {cs rest : List Char} {test : Char → Bool} {b : Bool}

/-! ## Rules on rewritten text -/

/-- The texts begin with the same character, or both as a name does. -/
def SameStart (cs cs' : List Char) : Prop :=
  cs'.head? = cs.head? ∨
    cs.head?.any isNameStart = true ∧ cs'.head?.any isNameStart = true

namespace SameStart

variable {cs' : List Char}

theorem refl (cs : List Char) : SameStart cs cs := .inl rfl

theorem append (xs : List Char) (h : SameStart cs cs') : SameStart (xs ++ cs) (xs ++ cs') := by
  cases xs with
  | nil => exact h
  | cons x xs => exact .inl rfl

/-- Where a run stops before, it stops after, if all beginnings of names are alike for the test. -/
theorem stops (h : SameStart cs cs') (htest : ∀ c, isNameStart c = true → test c = b)
    (hstops : Stops test cs) : Stops test cs' := by
  intro d hd
  rcases h with h | ⟨h, h'⟩
  · exact hstops d (h ▸ hd)
  · obtain ⟨c, hc, hstart⟩ := (Option.any_eq_true _ _).1 h
    rw [Option.mem_def.1 hd] at h'
    exact (htest d h').trans ((htest c hstart).symm.trans (hstops c hc))

end SameStart

theorem of_bind {α β : Type} {r : Rule α} {k : α → Rule β} {x : β × List Char}
    (h : (r >>= k) cs = some x) : ∃ a mid, r cs = some (a, mid) ∧ k a mid = some x := by
  obtain ⟨⟨a, mid⟩, ha, hx⟩ := Option.bind_eq_some_iff.1 h
  exact ⟨a, mid, ha, hx⟩

/-- What the first rule takes can be rewritten so that the second takes it, with the value changed
by `f`, wherever what follows begins as before. Both texts have at least `n` characters. -/
def Turns {α β : Type} (p q : String) (n : Nat) (f : α → β) (r : Rule α) (r' : Rule β) : Prop :=
  ∀ cs a rest, r cs = some (a, rest) → ∃ xs xs', cs = xs ++ rest ∧ Rewritten p q xs xs' ∧
    n ≤ xs.length ∧ n ≤ xs'.length ∧ ∀ rest', SameStart rest rest' →
      SameStart cs (xs' ++ rest') ∧ Takes r' xs' (f a) rest'

namespace Turns

variable {α β γ δ : Type} {f : α → β} {g : γ → δ} {r s : Rule α} {r' s' : Rule β}

theorem pure (a : α) : Turns p q 0 f (Pure.pure a) (Pure.pure (f a)) := by
  rintro cs _ _ ⟨⟩
  exact ⟨[], [], rfl, .nil, Nat.zero_le _, Nat.zero_le _, fun rest' h => ⟨h, rfl⟩⟩

/-- Rules in a row turn texts in a row. -/
theorem bind {k : α → Rule γ} {k' : β → Rule δ} (hr : Turns p q n f r r')
    (hk : ∀ a, Turns p q m g (k a) (k' (f a))) : Turns p q n g (r >>= k) (r' >>= k') := by
  intro cs c rest h
  obtain ⟨a, mid, ha, hc⟩ := of_bind h
  obtain ⟨xs, xs', rfl, hxs, hn, hn', hnext⟩ := hr cs a mid ha
  obtain ⟨ys, ys', rfl, hys, -, -, hend⟩ := hk a mid c rest hc
  refine ⟨xs ++ ys, xs' ++ ys', (List.append_assoc ..).symm, hxs.append hys, ?_, ?_,
    fun rest' h => ?_⟩
  · exact hn.trans (by simp)
  · exact hn'.trans (by simp)
  · obtain ⟨hstart, htakes⟩ := hend rest' h
    obtain ⟨hstart', htakes'⟩ := hnext _ hstart
    rw [List.append_assoc]
    exact ⟨hstart', htakes'.bind htakes⟩

/-- A rule that only changes the value. -/
theorem map {k : α → γ} {k' : β → δ} (hr : Turns p q n f r r') (hk : ∀ a, g (k a) = k' (f a)) :
    Turns p q n g (r >>= fun a => Pure.pure (k a)) (r' >>= fun b => Pure.pure (k' b)) := by
  refine hr.bind (m := 0) fun a => ?_
  rw [← hk a]
  exact .pure (k a)

/-- The second choice does not apply where the first does, also in the new text. -/
theorem orElse (hr : Turns p q n f r r') (hs : Turns p q n f s s')
    (hnone : ∀ cs x, s' cs = some x → r' cs = none) : Turns p q n f (r <|> s) (r' <|> s') := by
  intro cs a rest h
  cases hra : r cs with
  | some x =>
    rw [orElse_of_some hra] at h
    obtain ⟨xs, xs', hcs, hxs, hn, hn', hnext⟩ := hr cs a rest (hra.trans h)
    exact ⟨xs, xs', hcs, hxs, hn, hn', fun rest' h =>
      ⟨(hnext rest' h).1, orElse_of_some (hnext rest' h).2⟩⟩
  | none =>
    rw [orElse_of_none hra] at h
    obtain ⟨xs, xs', hcs, hxs, hn, hn', hnext⟩ := hs cs a rest h
    refine ⟨xs, xs', hcs, hxs, hn, hn', fun rest' h => ⟨(hnext rest' h).1, ?_⟩⟩
    exact (orElse_of_none (hnone _ _ (hnext rest' h).2)).trans (hnext rest' h).2

/-- A text that is taken whatever follows stays as it is. -/
theorem of_takes {r : Rule α} (h : ∀ cs a rest, r cs = some (a, rest) → ∃ xs, cs = xs ++ rest ∧
      n ≤ xs.length ∧ ∀ rest', SameStart rest rest' → Takes r xs a rest') :
    Turns p q n id r r := by
  intro cs a rest hr
  obtain ⟨xs, rfl, hn, htakes⟩ := h cs a rest hr
  exact ⟨xs, xs, rfl, .refl xs, hn, hn, fun rest' h => ⟨h.append xs, htakes rest' h⟩⟩

/-- The new text is long enough for all items. -/
theorem atMost (hr : Turns p q 1 f r r') {as : List α} {mid : List Char}
    (h : Rule.atMost r i cs = (as, mid)) : ∃ xs xs', cs = xs ++ mid ∧ Rewritten p q xs xs' ∧
      ∀ mid', SameStart mid mid' → r' mid' = none → SameStart cs (xs' ++ mid') ∧
        ∀ j, (xs' ++ mid').length ≤ j → Rule.atMost r' j (xs' ++ mid') = (as.map f, mid') := by
  induction i generalizing cs as with
  | zero =>
    cases h
    exact ⟨[], [], rfl, .nil, fun _ hstart hnone => ⟨hstart, fun j _ => atMost_of_none hnone j⟩⟩
  | succ i ih =>
    cases hx : r cs with
    | none =>
      rw [atMost_of_none hx] at h
      cases h
      exact ⟨[], [], rfl, .nil, fun _ hstart hnone => ⟨hstart, fun j _ => atMost_of_none hnone j⟩⟩
    | some x =>
      rw [atMost_of_some hx] at h
      cases h
      obtain ⟨xs, xs', rfl, hxs, -, hpos, hnext⟩ := hr cs x.1 x.2 hx
      obtain ⟨ys, ys', hcs, hys, hmore⟩ := ih (show Rule.atMost r i x.2 = (_, _) from rfl)
      refine ⟨xs ++ ys, xs' ++ ys', by rw [List.append_assoc, ← hcs], hxs.append hys,
        fun mid' hstart hnone => ?_⟩
      obtain ⟨hstart, hmany⟩ := hmore mid' hstart hnone
      obtain ⟨hstart, htakes⟩ := hnext _ hstart
      rw [List.append_assoc]
      refine ⟨hstart, fun j hj => ?_⟩
      rw [List.length_append] at hj
      obtain ⟨j, rfl⟩ : ∃ k, j = k + 1 := ⟨j - 1, by omega⟩
      rw [atMost_of_some htakes, hmany j (by omega)]
      rfl

/-- What follows the items is no item, also in the new text. -/
theorem many_bind {k : List α → Rule γ} {k' : List β → Rule δ} (hr : Turns p q 1 f r r')
    (hk : ∀ as, Turns p q m g (k as) (k' (as.map f)))
    (hnone : ∀ as cs x, k' as cs = some x → r' cs = none) :
    Turns p q 0 g (Rule.many r >>= k) (Rule.many r' >>= k') := by
  intro cs c rest h
  obtain ⟨xs, xs', hcs, hxs, hmany⟩ := hr.atMost (show Rule.atMost r cs.length cs = (_, _) from rfl)
  obtain ⟨ys, ys', hmid, hys, -, -, hend⟩ := hk _ _ c rest h
  refine ⟨xs ++ ys, xs' ++ ys', by rw [List.append_assoc, ← hmid, ← hcs], hxs.append hys,
    Nat.zero_le _, Nat.zero_le _, fun rest' h => ?_⟩
  obtain ⟨hstart, htakes⟩ := hend rest' h
  obtain ⟨hstart, hitems⟩ := hmany _ hstart (hnone _ _ _ htakes)
  rw [List.append_assoc]
  refine ⟨hstart, Takes.bind (a := (Rule.atMost r cs.length cs).1.map f) ?_ htakes⟩
  exact congrArg some (hitems _ (Nat.le_refl _))

end Turns

/-! ## Rules of the grammar -/

theorem append_of_literal {s : String} {u : Unit} (h : Rule.literal s cs = some (u, rest)) :
    cs = s.toList ++ rest := by
  obtain ⟨more, hmore, hrest⟩ := Option.map_eq_some_iff.1 h
  cases hrest
  exact (List.append_eq_of_isPrefixOf?_eq_some hmore).symm

theorem stops_dropWhile (cs : List Char) : Stops test (cs.dropWhile test) := by
  intro c hc
  have h := List.head?_dropWhile_not test cs
  rw [Option.mem_def.1 hc] at h
  simpa using h

/-- What a name rule takes is a name and as long as it can be. -/
theorem of_name {a : String} (h : Document.name cs = some (a, rest)) :
    Element.isName a = true ∧ cs = a.toList ++ rest ∧ Stops Document.isNameChar rest := by
  cases cs with
  | nil => cases h
  | cons c cs =>
    unfold Document.name Rule.word at h
    simp only at h
    split at h
    · next hc =>
      cases h
      refine ⟨?_, by simp, stops_dropWhile cs⟩
      unfold Element.isName
      rw [String.toList_ofList]
      simp only [hc, Bool.true_and, List.all_takeWhile]
    · cases h

theorem of_quotedBy {quote : Char} {a : String} (h : quotedBy quote cs = some (a, rest)) :
    cs = quote :: a.toList ++ [quote] ++ rest ∧ ∀ c ∈ a.toList, c ≠ quote ∧ c ≠ '<' := by
  obtain ⟨_, inside, hopen, h⟩ := of_bind h
  obtain ⟨value, mid, hrun, h⟩ := of_bind h
  obtain ⟨_, more, hclose, h⟩ := of_bind h
  cases h
  obtain ⟨rfl, rfl⟩ := Prod.mk.inj (Option.some.inj hrun)
  have htext := List.takeWhile_append_dropWhile (p := fun c => c ≠ quote && c ≠ '<') (l := inside)
  rw [append_of_literal hopen, String.toList_ofList]
  rw [append_of_literal hclose] at htext
  refine ⟨?_, fun c hc => by simpa using List.mem_takeWhile_imp hc⟩
  nth_rewrite 1 [← htext]
  simp

/-- The text before a mark, and the mark, are found whatever follows. -/
theorem splitAtMark_append {mark a : List Char} (hmark : mark ≠ [])
    (h : Rule.splitAtMark mark cs = some (a, rest)) :
    cs = a ++ mark ++ rest ∧
      ∀ rest', Rule.splitAtMark mark (a ++ mark ++ rest') = some (a, rest') := by
  induction cs generalizing a with
  | nil => cases h
  | cons c cs ih =>
    rw [Rule.splitAtMark] at h
    cases hhere : mark.isPrefixOf? (c :: cs) with
    | some more =>
      rw [hhere] at h
      cases h
      refine ⟨(List.append_eq_of_isPrefixOf?_eq_some hhere).symm, fun rest' => ?_⟩
      obtain ⟨d, ds, rfl⟩ := List.exists_cons_of_ne_nil hmark
      have hagain : (d :: ds).isPrefixOf? (d :: (ds ++ rest')) = some rest' :=
        List.isPrefixOf?_eq_some_iff_append_eq.2 rfl
      rw [List.nil_append, List.cons_append, Rule.splitAtMark, hagain]
    | none =>
      rw [hhere] at h
      obtain ⟨⟨x, y⟩, hxy, hab⟩ := Option.map_eq_some_iff.1 h
      obtain ⟨rfl, rfl⟩ := Prod.mk.inj hab
      obtain ⟨rfl, hall⟩ := ih hxy
      refine ⟨rfl, fun rest' => ?_⟩
      have hnone : mark.isPrefixOf? (c :: (x ++ mark ++ rest')) = none := by
        rw [Option.eq_none_iff_forall_ne_some]
        intro more hmore
        -- The mark would lie in what the texts have in common.
        have hall : c :: (x ++ mark) <+: c :: (x ++ mark ++ rest') := ⟨rest', by simp⟩
        obtain ⟨more, hmore⟩ : mark <+: c :: (x ++ mark) :=
          List.prefix_of_prefix_length_le ⟨more, List.append_eq_of_isPrefixOf?_eq_some hmore⟩ hall
            (by simp; omega)
        have hsome : mark.isPrefixOf? (c :: (x ++ mark ++ y)) = some (more ++ y) := by
          rw [List.isPrefixOf?_eq_some_iff_append_eq, ← List.append_assoc, hmore]
          simp
        cases hhere.symm.trans hsome
      rw [List.cons_append, List.cons_append, Rule.splitAtMark, hnone, hall]
      rfl

namespace Turns

theorem literal {s : String} (hs : s ≠ "") :
    Turns p q 1 id (Rule.literal s) (Rule.literal s) := by
  refine .of_takes fun cs u rest h => ⟨s.toList, append_of_literal h, ?_, fun rest' _ => ?_⟩
  · exact List.length_pos_iff.2 (by simpa using hs)
  · exact takes_literal s rest'

theorem run (htest : ∀ c, isNameStart c = true → test c = b) :
    Turns p q 0 id (Rule.run test) (Rule.run test) := by
  refine .of_takes fun cs a rest h => ?_
  cases h
  refine ⟨cs.takeWhile test, List.takeWhile_append_dropWhile.symm, Nat.zero_le _, fun rest' h => ?_⟩
  exact takes_run (fun c hc => List.mem_takeWhile_imp hc) (h.stops htest (stops_dropWhile cs))

theorem run1 (htest : ∀ c, isNameStart c = true → test c = b) :
    Turns p q 1 id (Rule.run1 test) (Rule.run1 test) := by
  refine .of_takes fun cs a rest h => ?_
  cases cs with
  | nil => cases h
  | cons c cs =>
    rw [Rule.run1] at h
    split at h
    · next hc =>
      cases h
      have hne : (c :: cs).takeWhile test ≠ [] := by simp [List.takeWhile_cons_of_pos hc]
      refine ⟨(c :: cs).takeWhile test, List.takeWhile_append_dropWhile.symm,
        List.length_pos_iff.2 hne, fun rest' h => ?_⟩
      exact takes_run1 hne (fun c hc => List.mem_takeWhile_imp hc)
        (h.stops htest (stops_dropWhile _))
    · cases h

theorem upTo {mark : String} (hmark : mark ≠ "") :
    Turns p q 0 id (Rule.upTo mark) (Rule.upTo mark) := by
  refine .of_takes fun cs a rest h => ?_
  obtain ⟨⟨text, more⟩, hmore, hrest⟩ := Option.map_eq_some_iff.1 h
  cases hrest
  obtain ⟨hcs, hall⟩ := splitAtMark_append (by simpa using hmark) hmore
  refine ⟨text ++ mark.toList, hcs, Nat.zero_le _, fun rest' _ => ?_⟩
  unfold Takes Rule.upTo
  rw [hall]
  rfl

theorem space : Turns p q 1 id Document.space Document.space :=
  (run1 fun _ h => Element.isSpace_of_isNameChar (Element.isNameChar_of_isNameStart h)).bind
    fun _ => .pure ()

theorem optSpace : Turns p q 0 id optSpace optSpace :=
  (run fun _ h => Element.isSpace_of_isNameChar (Element.isNameChar_of_isNameStart h)).bind
    fun _ => .pure ()

/-- A name turns into its respelling. -/
theorem name {f : String → String} (hf : Renames p q f) :
    Turns p q 1 f Document.name Document.name := by
  intro cs a rest h
  obtain ⟨ha, rfl, hrest⟩ := of_name h
  obtain ⟨hfa, hrewritten⟩ := hf a ha
  have hpos {s : String} (hs : Element.isName s = true) : 1 ≤ s.toList.length := by
    obtain ⟨c, cs, hcs, -⟩ := Element.exists_of_isName hs
    simp [hcs]
  have hstart {s : String} (hs : Element.isName s = true) (rest : List Char) :
      (s.toList ++ rest).head?.any isNameStart = true := by
    obtain ⟨c, cs, hcs, hc, -⟩ := Element.exists_of_isName hs
    simp [hcs, hc]
  refine ⟨a.toList, (f a).toList, rfl, hrewritten, hpos ha, hpos hfa, fun rest' h =>
    ⟨.inr ⟨hstart ha rest, hstart hfa rest'⟩, takes_name hfa ?_⟩⟩
  exact h.stops (fun _ => Element.isNameChar_of_isNameStart) hrest

/-- A value between quotes. -/
theorem quotedBy {quote : Char} {g : String → String} (hquote : quote ∈ Element.delimiters)
    (hg : ∀ s, Rewritten p q s.toList (g s).toList ∧
      ∀ c ∈ (g s).toList, c ∈ s.toList ∨ c ∉ Element.delimiters) :
    Turns p q 1 g (quotedBy quote) (quotedBy quote) := by
  intro cs a rest h
  obtain ⟨rfl, ha⟩ := of_quotedBy h
  obtain ⟨hrewritten, hchars⟩ := hg a
  refine ⟨quote :: a.toList ++ [quote], quote :: (g a).toList ++ [quote], rfl,
    (hrewritten.append (.refl _)).keep quote, by simp, by simp, fun rest' h => ⟨.inl rfl, ?_⟩⟩
  exact Element.takes_quotedBy (fun c hc => (hchars c hc).elim (ha c)
    (Element.ne_of_notMem_delimiters hquote)) rest'

end Turns

/-! ## Tags -/

theorem of_orElse {α : Type} {r s : Rule α} {x : α × List Char} (h : (r <|> s) cs = some x) :
    r cs = some x ∨ s cs = some x := by
  cases hr : r cs with
  | some y =>
    rw [orElse_of_some hr] at h
    exact .inl h
  | none =>
    rw [orElse_of_none hr] at h
    exact .inr h

/-- Behind the attributes of a tag there is no other one. -/
theorem attr_eq_none {α : Type} {s : String} {c : Char} {ds : List Char} {k : Unit → Rule α}
    {x : α × List Char} (hs : s.toList = c :: ds) (hc : isNameStart c = false)
    (h : (optSpace >>= fun _ => Rule.literal s >>= k) cs = some x) :
    attr cs = none := by
  obtain ⟨_, mid, hspace, h⟩ := of_bind h
  obtain ⟨_, more, hliteral, -⟩ := of_bind h
  obtain rfl : cs.dropWhile Document.isSpace = mid := by
    cases hspace
    rfl
  have hname : Document.name (cs.dropWhile Document.isSpace) = none := by
    rw [append_of_literal hliteral, hs]
    simp [Document.name, Rule.word, hc]
  rw [Option.eq_none_iff_forall_ne_some]
  intro x hx
  obtain ⟨_, behind, hspace, hx⟩ := of_bind hx
  obtain ⟨key, _, hkey, -⟩ := of_bind hx
  obtain ⟨_, _, hrun, hpure⟩ := of_bind hspace
  cases cs with
  | nil => cases hrun
  | cons d cs =>
    rw [Rule.run1] at hrun
    split at hrun
    · cases hrun
      cases hpure
      cases hname.symm.trans hkey
    · cases hrun

/-- A start tag does not close itself. -/
theorem emptyTag_of_startTag {x : Tag × List Char} (h : startTag cs = some x) :
    emptyTag cs = none := by
  obtain ⟨tag, mid, htag, h⟩ := of_bind h
  obtain ⟨_, more, hclose, -⟩ := of_bind h
  obtain rfl := append_of_literal hclose
  show (Document.tagHead >>= fun tag => Rule.literal "/>" >>= fun _ => pure tag) cs = none
  rw [bind_apply, htag]
  rfl

namespace Turns

section names

variable (hp : p ≠ "") (hq : Element.isName q = true)
include hp hq

/-- An attribute turns into its respelling. -/
theorem attr (within : Bindings) :
    Turns p q 1 (respellAttribute p q within) attr attr := by
  have hvalue (key s : String) : Rewritten p q s.toList
        (if within.isIgnorable key then respellValue p q s else s).toList ∧
      ∀ c ∈ (if within.isIgnorable key then respellValue p q s else s).toList,
        c ∈ s.toList ∨ c ∉ Element.delimiters := by
    split
    · exact ⟨rewritten_respellValue s, fun c => mem_respellValue⟩
    · exact ⟨.refl _, fun c hc => .inl hc⟩
  refine space.bind fun _ => (name (Bindings.renames_respellKey hp hq)).bind fun key =>
    optSpace.bind fun _ => (literal (by decide)).bind fun _ => optSpace.bind fun _ =>
      ((quotedBy (by decide) (hvalue key)).orElse (quotedBy (by decide) (hvalue key))
        fun cs x hx => ?_).bind fun value => .pure (f := respellAttribute p q within) (key, value)
  rw [(of_quotedBy hx).1]
  rfl

/-- A tag up to its end. -/
theorem tag (within : Bindings) {s : String} {c : Char} {ds : List Char} (hs : s.toList = c :: ds)
    (hc : isNameStart c = false) : Turns p q 1 (Tag.respell p q within)
      (Document.tagHead >>= fun tag => Rule.literal s >>= fun _ => Pure.pure tag)
      (Document.tagHead >>= fun tag => Rule.literal s >>= fun _ => Pure.pure tag) := by
  have hne : s ≠ "" := by
    rintro rfl
    cases hs
  simp only [Document.tagHead, bind_assoc, pure_bind]
  refine (literal (by decide)).bind fun _ =>
    (name (Bindings.renames_respellName hq)).bind fun name => (attr hp hq within).many_bind
      (fun attributes => optSpace.bind fun _ => (literal hne).bind fun _ =>
        .pure (f := Tag.respell p q within) ⟨name, attributes⟩) fun _ _ _ => attr_eq_none hs hc

/-- An empty tag turns into its respelling. -/
theorem emptyTag (env : Bindings) :
    Turns p q 1 (fun tag => tag.respell p q (env.inside tag.attributes)) emptyTag
      emptyTag :=
  fun cs t => tag hp hq (env.inside t.attributes) rfl (by decide) cs t

/-- A start tag turns into its respelling. -/
theorem startTag (env : Bindings) :
    Turns p q 1 (fun tag => tag.respell p q (env.inside tag.attributes)) startTag
      startTag :=
  fun cs t => tag hp hq (env.inside t.attributes) rfl (by decide) cs t

omit hp in
theorem endTag : Turns p q 1 (Bindings.respellName p q) Document.endTag Document.endTag :=
  (literal (by decide)).bind fun _ => (name (Bindings.renames_respellName hq)).bind fun _ =>
    optSpace.bind fun _ => (literal (by decide)).bind fun _ => .pure _

end names

theorem comment : Turns p q 1 id Document.comment Document.comment :=
  (literal (by decide)).bind fun _ => (upTo (by decide)).bind fun _ => .pure _

theorem instruction : Turns p q 1 id Document.instruction Document.instruction :=
  (literal (by decide)).bind fun _ => (upTo (by decide)).bind fun _ => .pure _

theorem dataSection : Turns p q 1 id Document.dataSection Document.dataSection :=
  (literal (by decide)).bind fun _ => upTo (by decide)

end Turns

end OpenWorkflow.Markup
