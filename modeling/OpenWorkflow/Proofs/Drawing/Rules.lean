import OpenWorkflow.Proofs.Drawing.Contents
import OpenWorkflow.Proofs.Net.Refusal

/-!
# How a construction draws

`Draws` says of a part of a construction which lines it draws and of which
activities it builds the fragments. If it succeeds, it has drawn all of them. If
not, it has stopped at one of them (`Net.Stops`): a name was given twice, or, where
that is allowed, a link leads nowhere. Its rules follow the construction step by
step, so that a fragment's lines can be read off its definition. What the steps use,
transitions by handle and places by name, goes along as a list of items.
-/

namespace OpenWorkflow

open Activity (sizes draw walk)
open Fragment (child splice)

variable {kind : NodeKind} {loose : Prop}

namespace Net

variable {net mid net' : Net} {L L' M M' : List Line} {n n' : String} {e : NetError}

/-! ## What lines keep -/

theorem Does.wellFormed {l : Line} (h : net.Does l net') (hw : net.WellFormed) :
    net'.WellFormed := by
  cases h with
  | place hfresh => exact hw.newPlace _ hfresh
  | share _ _ => exact hw
  | port => exact hw.relabel _ _
  | transition hname hfresh => exact hw.appendTransition hname hfresh
  | again _ => exact hw
  | arc hp hu =>
    obtain ⟨place, hplace⟩ := hw.live_of_find hp
    obtain ⟨tr, htr, -⟩ := hw.indexed.1 hu
    exact hw.connect _ hplace htr
  | same _ _ => exact hw
  | joins _ _ hm => exact hm.wellFormed_unify hw

/-- Lines keep a net well formed. -/
theorem Traced.wellFormed (h : net.Traced L net') (hw : net.WellFormed) : net'.WellFormed := by
  induction h with
  | blank => exact hw
  | line _ hl ih => exact hl.wellFormed ih
  | number _ ih => exact ih.relabel _ _
  | perm _ _ ih => exact ih

/-- A transition keeps its name. -/
theorem Does.findTransition? {l : Line} (h : net.Does l net') {t : String} {u : TransitionId}
    (ht : net.findTransition? t = some u) : net'.findTransition? t = some u := by
  cases h with
  | place _ => rwa [Net.findTransition?, transitionNames_addPlace]
  | transition _ hfresh =>
    have hne : t ≠ _ := fun heq => Option.some_ne_none u (ht.symm.trans (heq ▸ hfresh))
    rw [Net.findTransition?, Net.appendTransition, OrderedMap.get?_insert, if_neg hne]
    exact ht
  | arc _ _ => rwa [Net.findTransition?, transitionNames_connect]
  | joins _ _ hm => rwa [Net.findTransition?, hm.transitionNames_unify]
  | _ => exact ht

/-- Transitions keep their names. -/
theorem Traced.findTransition? (h : net.Traced L net') {t : String} {u : TransitionId}
    (ht : net.findTransition? t = some u) : net'.findTransition? t = some u := by
  induction h with
  | blank => exact ht
  | line _ hl ih => exact hl.findTransition? ih
  | number _ ih => exact ih
  | perm _ _ ih => exact ih

theorem mem_internals_place {m : String} :
    n ∈ internals [.place m kind] ↔ n = m ∧ kind = .internal := by
  rw [mem_internals]
  simp [eq_comm]

/-- A name leads to a place if it did so before or a line has put one down. -/
theorem Does.knows_iff {l : Line} (h : net.Does l net') (hw : net.WellFormed) :
    net'.Knows n ↔ net.Knows n ∨ ∃ kind, l = .place n kind := by
  cases h with
  | @place m kind hfresh =>
    by_cases hn : n = m
    · subst hn
      simp [Knows, find?_addPlace_ofName]
    · simp [Knows, find?_addPlace_ofName, hn, Ne.symm hn]
  | @share m kind hm _ =>
    refine (or_iff_left_of_imp ?_).symm
    rintro ⟨kind, heq⟩
    cases heq
    exact hm
  | arc _ _ => simp [Knows, find?, names_connect]
  | joins _ _ hm => simp [Knows, hm.find?_unify hw.toNamesAgree]
  | _ => exact (or_iff_left (by simp)).symm

/-- The names that are known are the old ones and those of the lines. -/
theorem Traced.knows_iff (h : net.Traced L net') (hw : net.WellFormed) :
    net'.Knows n ↔ net.Knows n ∨ ∃ kind, .place n kind ∈ L := by
  induction h with
  | blank => simp
  | line htraced hl ih =>
    rw [hl.knows_iff (htraced.wellFormed hw), ih, or_assoc, ← exists_or]
    simp only [List.mem_cons, or_comm, eq_comm]
  | number _ ih => exact ih
  | perm _ hperm ih => simp only [ih, hperm.mem_iff]

theorem Traced.knows (h : net.Traced L net') (hw : net.WellFormed)
    (hn : net.Knows n ∨ n ∈ internals L) : net'.Knows n :=
  (h.knows_iff hw).2 (hn.imp_right fun hn => ⟨_, mem_internals.1 hn⟩)

theorem Does.scope {l : Line} (h : net.Does l net') : net'.scope = net.scope := by
  cases h with
  | place _ => exact Net.scope_addPlace ..
  | arc _ _ => exact Net.scope_connect ..
  | joins _ _ hm => exact hm.scope_unify
  | _ => rfl

/-- Lines give out numbers and take none back. -/
theorem Traced.scope_le (h : net.Traced L net') : net.scope ≤ net'.scope := by
  induction h with
  | blank => exact Nat.le_refl _
  | line _ hl ih => exact hl.scope ▸ ih
  | number _ ih => exact Nat.le_succ_of_le ih
  | perm _ _ ih => exact ih

/-- Each internal place that has been drawn was new. -/
theorem Traced.nodup_internals (h : net.Traced L net') (hw : net.WellFormed) :
    (internals L).Nodup := by
  induction h with
  | blank => exact List.nodup_nil
  | @line L mid net' l htraced hl ih =>
    rw [internals_cons]
    refine ih.append (by cases l.internal? <;> simp) ?_ |> (List.perm_append_comm.nodup_iff).1
    intro n hn hmem
    have hknows := htraced.knows hw (.inr hn)
    obtain rfl : l = .place n .internal := by
      unfold Line.internal? at hmem
      split at hmem
      · rw [List.mem_singleton.1 hmem]
      · cases hmem
    cases hl with
    | place hfresh => simp [Knows, hfresh] at hknows
    | share _ hkind => exact hkind rfl
  | number _ ih => exact ih
  | perm _ hperm ih => exact (hperm.filterMap _).nodup_iff.1 ih

/-! ## Steps that succeed -/

/-- A place that could be made is drawn by its line. -/
theorem of_newPlace_ok {n : String} {p : PlaceId} (h : newPlace n kind net = .ok p net') :
    net.Does (.place n kind) net' := by
  rcases newPlace_cases n kind net with ⟨-, hfresh, hok⟩ | ⟨e, herr⟩
  · rw [hok] at h
    cases h
    exact .place hfresh
  · rw [herr] at h
    cases h

/-- A transition that could be made is drawn by its line and found. -/
theorem of_newTransitionOf_ok {n : String} {t : TransitionId}
    (h : newTransitionOf n kind net = .ok t net') :
    net.Does (.transition n kind) net' ∧ net'.findTransition? n = some t := by
  rcases newTransitionOf_cases n kind net with ⟨hname, hfresh, hok⟩ | ⟨u, hu, hok⟩ | ⟨e, herr⟩
  · rw [hok] at h
    cases h
    exact ⟨.transition hname hfresh, OrderedMap.get?_insert_self ..⟩
  · rw [hok] at h
    cases h
    exact ⟨.again hu, hu⟩
  · rw [herr] at h
    cases h

/-- An arc is drawn where its place is found, and otherwise it is refused. -/
theorem newArc_ends (hw : net.WellFormed) (flow : ArcKind) {t : String} {u : TransitionId}
    (ht : net.findTransition? t = some u) :
    (flow.newArc n u).Ends net (fun _ net' => net.Does (.arc flow n t) net')
      fun _ net' => net' = net ∧ ¬ net.Knows n := by
  cases hp : net.find? n with
  | some p =>
    obtain ⟨tr, htr, -⟩ := hw.indexed.1 ht
    exact .of_ok (newArc_ok flow hp (net.lt_of_transition? htr)) (.arc hp ht)
  | none =>
    have hrefused {source target : Endpoint} (h : ¬ source.Resolves net ∨ ¬ target.Resolves net) :
        ∃ e, newArc source target net = .error e net := by
      have hwhen := newArc_refusedWhen source target net
      obtain ⟨e, net', herr⟩ := hwhen.refused.2 (by tauto)
      exact ⟨e, hwhen.unchanged herr ▸ herr⟩
    have hn : ¬ (Endpoint.place (.named n)).Resolves net := by
      rintro ⟨id, hid⟩
      exact Option.some_ne_none id (hid.symm.trans hp)
    have hunknown : ¬ net.Knows n := by simp [Knows, hp]
    cases flow with
    | consumes =>
      obtain ⟨e, herr⟩ := hrefused (.inl hn)
      exact .of_error herr ⟨rfl, hunknown⟩
    | produces =>
      obtain ⟨e, herr⟩ := hrefused (.inr hn)
      exact .of_error herr ⟨rfl, hunknown⟩

/-- Two names are joined, or the merge is refused; not, if both lead inside. -/
theorem merge_ends (hw : net.WellFormed) (n n' : String) :
    (merge n n').Ends net (fun _ net' => net.Does (.joins n n') net')
      fun _ net' => net' = net ∧ ¬ (net.LeadsInside n ∧ net.LeadsInside n') := by
  rcases merge_cases hw.toNamesAgree n n' with ⟨a, hp, hq, hok⟩ |
    ⟨a, b, kind, first, second, hp, hq, hm, hok⟩ | ⟨e, herr⟩
  · exact .of_ok hok (.same hp hq)
  · exact .of_ok hok (.joins hp hq hm)
  · refine .of_error herr ⟨rfl, ?_⟩
    rintro ⟨⟨a, ha, hina⟩, b, hb, hinb⟩
    have hmerge {m : PlaceId} {net' : Net} (h : merge n n' net = .ok m net') : False := by
      rw [herr] at h
      cases h
    by_cases hab : a = b
    · subst hab
      exact hmerge (merge_self ha hb)
    · obtain ⟨kind, first, second, hm⟩ := hina.mergeable hinb hab
      exact hmerge (merge_ok hm ha hb)

/-! ## What a part of a construction has done -/

/-- Lines have been drawn, and unless links may lead nowhere, all internal places are still
internal. -/
structure Extends (loose : Prop) (net : Net) (L : List Line) (net' : Net) : Prop where
  traced : net.Traced L net'
  inside : ¬ loose → ∀ n, net.LeadsInside n ∨ n ∈ internals L → net'.LeadsInside n

namespace Extends

theorem number (net : Net) : net.Extends loose [] { net with scope := net.scope + 1 } :=
  ⟨.number .blank, fun _ _ hn => hn.resolve_right (by simp)⟩

theorem trans (h : net.Extends loose L mid) (h' : mid.Extends loose L' net') :
    net.Extends loose (L' ++ L) net' where
  traced := h.traced.trans h'.traced
  inside hstrict n hn := by
    refine h'.inside hstrict n ?_
    rw [internals_append, List.mem_append] at hn
    rcases hn with hn | hn | hn
    · exact .inl (h.inside hstrict n (.inl hn))
    · exact .inr hn
    · exact .inl (h.inside hstrict n (.inr hn))

theorem perm (h : net.Extends loose L net') (hperm : L.Perm L') : net.Extends loose L' net' :=
  ⟨h.traced.perm hperm, fun hstrict n hn =>
    h.inside hstrict n (hn.imp_right (hperm.filterMap _).mem_iff.2)⟩

end Extends

/-- One line. -/
theorem Does.extends {l : Line} (h : net.Does l net') (hw : net.WellFormed)
    (hjoins : ¬ loose → ∀ n n', l = .joins n n' → net.LeadsInside n ∧ net.LeadsInside n') :
    net.Extends loose [l] net' where
  traced := .line .blank h
  inside hstrict n hn := by
    cases h with
    | @place m kind hfresh =>
      rcases hn with ⟨id, hid, p, hp, hkind⟩ | hn
      · refine ⟨id, find?_addPlace_of_some hfresh hid, p, ?_, hkind⟩
        rw [place?_addPlace, if_neg (net.ne_freshPlace hp), hp]
      · obtain ⟨rfl, rfl⟩ := mem_internals_place.1 hn
        refine ⟨net.freshPlace, ?_, .ofName n .internal, ?_, rfl⟩
        · rw [find?_addPlace_ofName, if_pos rfl]
        · rw [place?_addPlace, if_pos rfl]
    | share _ hkind => exact hn.resolve_right fun hmem => hkind (mem_internals_place.1 hmem).2
    | arc _ _ =>
      obtain ⟨id, hid, p, hp, hkind⟩ := hn.resolve_right (by simp)
      obtain ⟨p', hp', -, hkind', -⟩ := exists_place?_connect hp
      exact ⟨id, by rwa [find?, names_connect], p', hp', hkind' ▸ hkind⟩
    | joins ha hb hm =>
      obtain ⟨⟨a, ha', hina⟩, b, hb', hinb⟩ := hjoins hstrict _ _ rfl
      obtain rfl := Option.some.inj (ha.symm.trans ha')
      obtain rfl := Option.some.inj (hb.symm.trans hb')
      obtain ⟨id, hid, hin⟩ := hn.resolve_right (by simp)
      refine ⟨_, ?_, (hm.inner_unify hina hinb).2 ⟨id, hin, rfl⟩⟩
      rw [hm.find?_unify hw.toNamesAgree, hid, Option.map_some]
    | _ => exact hn.resolve_right (by simp)

/-- Why a line is not drawn. -/
inductive Refuses (loose : Prop) (net : Net) : Line → NetError → Prop where
  /-- Its links may lead nowhere. -/
  | link {l : Line} {e : NetError} : loose → Refuses loose net l e
  /-- The name has been given before. -/
  | again {n : String} : net.Knows n → Refuses loose net (.place n .internal) (.duplicatePlace n)
  /-- There is no name. -/
  | place {kind : NodeKind} {e : NetError} : Refuses loose net (.place "" kind) e
  | transition {kind : NodeKind} {e : NetError} : Refuses loose net (.transition "" kind) e

/-- The construction has stopped at a line. Those before it have been drawn, of which it has own
ones and ones of fragments inside. -/
def Stops (loose : Prop) (net : Net) (L M : List Line) (e : NetError) (net' : Net) : Prop :=
  ∃ l drawn rest, net.Traced drawn net' ∧ net'.Refuses loose l e ∧
    (l :: (drawn ++ rest)).Perm (L ++ M) ∧ ∀ x ∈ drawn, x ∈ L ∨ x.Below net'.scope

namespace Stops

/-- It has more lines. -/
theorem mono (h : net.Stops loose L M e net') (R : List Line) (hsub : L ⊆ L')
    (hperm : (L ++ M ++ R).Perm (L' ++ M')) : net.Stops loose L' M' e net' := by
  obtain ⟨l, drawn, rest, htraced, hrefuses, hlines, hbelow⟩ := h
  refine ⟨l, drawn, rest ++ R, htraced, hrefuses, ?_, fun x hx => (hbelow x hx).imp_left (@hsub x)⟩
  rw [← List.append_assoc, ← List.cons_append]
  exact (hlines.append_right R).trans hperm

/-- It has drawn other lines before. -/
theorem after (hfirst : net.Traced (L ++ M) mid) (hM : ∀ x ∈ M, x.Below mid.scope)
    (h : mid.Stops loose L' M' e net') : net.Stops loose (L ++ L') (M ++ M') e net' := by
  obtain ⟨l, drawn, rest, htraced, hrefuses, hlines, hbelow⟩ := h
  refine ⟨l, drawn ++ (L ++ M), rest, hfirst.trans htraced, hrefuses, ?_, fun x hx => ?_⟩
  · rw [List.perm_iff_count] at hlines ⊢
    intro x
    have hx := hlines x
    simp only [List.count_append, List.count_cons] at hx ⊢
    omega
  · simp only [List.mem_append] at hx ⊢
    rcases hx with hx | hx | hx
    · exact (hbelow x hx).imp_left .inr
    · exact .inl (.inl hx)
    · exact .inr ((hM x hx).mono htraced.scope_le)

end Stops

end Net

/-! ## The rules -/

/-- Something that a construction may use. -/
inductive Resource where
  /-- The handle of a transition. -/
  | handle (t : String) (u : TransitionId)
  /-- The name of an internal place. -/
  | inside (n : String)
  /-- The name of any place. -/
  | known (n : String)

/-- It is in the net; of places this is said only if links may not lead nowhere. -/
def Net.Has (loose : Prop) (net : Net) : Resource → Prop
  | .handle t u => net.findTransition? t = some u
  | .inside n => ¬ loose → net.LeadsInside n
  | .known n => ¬ loose → net.Knows n

/-- What can be used before a construction can be used after it. -/
theorem Net.Extends.has {net net' : Net} {L : List Line} (h : net.Extends loose L net')
    (hw : net.WellFormed) {i : Resource} (hi : net.Has loose i) : net'.Has loose i := by
  cases i with
  | handle t u => exact h.traced.findTransition? hi
  | inside n => exact fun hstrict => h.inside hstrict n (.inl (hi hstrict))
  | known n => exact fun hstrict => h.traced.knows hw (.inl (hi hstrict))

/-- The fragment of the activity draws the activity, or stops at a line of it. -/
def Activity.Drawn (loose : Prop) (a : Activity) : Prop :=
  ∀ net, net.WellFormed → a.fragment.Ends net
    (fun _ net' => net.Extends loose (a.drawing net.scope) net' ∧
      net'.scope = net.scope + sizes a.built)
    (net.Stops loose [] (a.drawing net.scope))

/-- The part of a construction, given the items, draws the lines and the fragments of the
activities, and its result is as described, or it stops at one of the lines. -/
def Draws (loose : Prop) {α : Type} (S : List Resource) (k : Nat) (b : Build α) (as : List Activity)
    (L : List Line) (Q : α → Prop) : Prop :=
  ∀ net, net.WellFormed → net.scope = k → (∀ i ∈ S, net.Has loose i) →
    (∀ a ∈ as, a.Drawn loose) → b.Ends net
      (fun r net' => net.Extends loose (L ++ draw (k + 1) (as.flatMap walk)) net' ∧
        net'.scope = k + sizes as ∧ Q r)
      (net.Stops loose L (draw (k + 1) (as.flatMap walk)))

/-- The places that lines and fragments put down can be used afterwards. -/
def gains (k : Nat) (as : List Activity) (L : List Line) : List Resource :=
  (internals (L ++ draw (k + 1) (as.flatMap walk))).map .inside

@[simp] theorem inside_mem_gains {k : Nat} {as : List Activity} {L : List Line} {n : String} :
    .inside n ∈ gains k as L ↔
      n ∈ internals L ∨ n ∈ internals (draw (k + 1) (as.flatMap walk)) := by
  simp [gains]

namespace Draws

variable {α β : Type} {S S' : List Resource} {k : Nat} {b : Build α} {f : α → Build β}
  {as as' : List Activity} {L L' : List Line} {Q : α → Prop} {R : β → Prop} {n n' t : String}
  {u : TransitionId} {l : Line}

/-- A result draws nothing. -/
theorem pure {a : α} (h : Q a) : Draws loose S k (Pure.pure a) [] [] Q := by
  intro net hw hk _ _
  exact .of_ok rfl ⟨⟨.blank, fun _ _ hn => hn.resolve_right (by simp [draw])⟩, hk, h⟩

/-- More can be used. -/
theorem mono (h : Draws loose S k b as L Q) (hsub : S ⊆ S') : Draws loose S' k b as L Q :=
  fun net hw hk hS hdrawn => h net hw hk (fun i hi => hS i (hsub hi)) hdrawn

/-- One part after another, which may use what the first has put down. -/
theorem bind (hb : Draws loose S k b as L Q)
    (hf : ∀ a, Q a → Draws loose (gains k as L ++ S) (k + sizes as) (f a) as' L' R) :
    Draws loose S k (b >>= f) (as ++ as') (L ++ L') R := by
  intro net hw hk hS hdrawn
  have hnumber : k + sizes as + 1 = k + 1 + (as.flatMap walk).length := by
    unfold sizes
    omega
  have hlines : draw (k + 1) ((as ++ as').flatMap walk) = draw (k + 1) (as.flatMap walk)
      ++ draw (k + sizes as + 1) (as'.flatMap walk) := by
    rw [List.flatMap_append, Activity.draw_append, hnumber]
  have hswap (A B C D : List Line) : (A ++ B ++ (C ++ D)).Perm (A ++ C ++ (B ++ D)) := by
    rw [List.perm_iff_count]
    intro l
    simp only [List.count_append]
    omega
  rw [hlines]
  refine Build.Ends.bind ((hb net hw hk hS fun a ha => hdrawn a (List.mem_append_left _ ha)).imp
    (fun _ _ h => h) fun e net' h => h.mono (L' ++ draw (k + sizes as + 1) (as'.flatMap walk))
      (List.subset_append_left ..) (hswap ..)) fun a mid hfirst => ?_
  obtain ⟨hext, hscope, hQ⟩ := hfirst
  refine (hf a hQ mid (hext.traced.wellFormed hw) hscope (fun i hi => ?_)
    fun a ha => hdrawn a (List.mem_append_right _ ha)).imp (fun r net' hsecond => ?_)
    fun e net' h => .after hext.traced (fun x hx => ?_) h
  · rcases List.mem_append.1 hi with hi | hi
    · obtain ⟨n, hn, rfl⟩ := List.mem_map.1 hi
      exact fun hstrict => hext.inside hstrict n (.inr hn)
    · exact hext.has hw (hS i hi)
  · obtain ⟨hext', hscope', hR⟩ := hsecond
    refine ⟨(hext.trans hext').perm (List.perm_append_comm.trans (hswap ..)), ?_, hR⟩
    rw [hscope', Activity.sizes_append]
    omega
  · exact Activity.below_draw (Nat.le_of_eq (by rw [hscope, hnumber])) hx

/-- A part without fragments, and then another one. -/
theorem first (hb : Draws loose S k b [] L Q)
    (hf : ∀ a, Q a → Draws loose (gains k [] L ++ S) k (f a) as L' R) :
    Draws loose S k (b >>= f) as (L ++ L') R :=
  bind hb hf

/-- A part, and then one without fragments. -/
theorem last (hb : Draws loose S k b as L Q)
    (hf : ∀ a, Q a → Draws loose (gains k as L ++ S) (k + sizes as) (f a) [] L' R) :
    Draws loose S k (b >>= f) as (L ++ L') R := by
  have h := bind hb hf
  rwa [List.append_nil] at h

/-- One line, and then the rest. -/
theorem cons (hb : Draws loose S k b [] [l] Q) (hf : ∀ a, Draws loose S k (f a) as L R) :
    Draws loose S k (b >>= f) as (l :: L) R :=
  bind hb fun a _ => (hf a).mono (List.subset_append_right ..)

/-- A part, and then a value that depends on its result. -/
theorem map {g : α → β} (hb : Draws loose S k b as L Q) (hg : ∀ a, Q a → R (g a)) :
    Draws loose S k (b >>= fun a => Pure.pure (g a)) as L R := by
  have h : Draws loose S k (b >>= fun a => Pure.pure (g a)) as (L ++ []) R :=
    last hb fun a ha => pure (hg a ha)
  rwa [List.append_nil] at h

/-- A part whose result is not used. -/
theorem discard {c : β} (hb : Draws loose S k b as L Q) :
    Draws loose S k (b >>= fun _ => Pure.pure c) as L fun _ => True :=
  map hb fun _ _ => trivial

/-! ### Steps -/

/-- A step that draws one line, or is refused. -/
theorem of_does (hl : ∀ net, net.WellFormed → (∀ i ∈ S, net.Has loose i) →
    b.Ends net (fun _ net' => net.Does l net') fun e net' => net' = net ∧ net.Refuses loose l e)
    (hjoins : ∀ n n', l = .joins n n' → .inside n ∈ S ∧ (¬ loose → .inside n' ∈ S)) :
    Draws loose S k b [] [l] fun _ => True := by
  intro net hw hk hS _
  refine (hl net hw hS).imp (fun r net' hdoes => ?_) fun e net' hrefused => ?_
  · refine ⟨hdoes.extends hw fun hstrict n n' hl => ?_, hdoes.scope.trans hk, trivial⟩
    obtain ⟨hn, hn'⟩ := hjoins n n' hl
    exact ⟨hS _ hn hstrict, hS _ (hn' hstrict) hstrict⟩
  · obtain ⟨rfl, hrefuses⟩ := hrefused
    exact ⟨l, [], [], .blank, hrefuses, by simp [draw], by simp⟩

/-- A step that draws one line, after which more can be used. -/
theorem of_step (item : α → Resource) (hl : ∀ net, net.WellFormed → b.Ends net
      (fun r net' => net.Does l net' ∧ net'.Has loose (item r))
      fun e net' => net' = net ∧ net.Refuses loose l e)
    (hjoins : ∀ n n', l ≠ .joins n n') (hf : ∀ r, Draws loose (item r :: S) k (f r) as L R) :
    Draws loose S k (b >>= f) as (l :: L) R := by
  intro net hw hk hS hdrawn
  refine Build.Ends.bind ((hl net hw).imp (fun _ _ h => h) fun e net' hrefused => ?_)
    fun r mid hstep => ?_
  · obtain ⟨rfl, hrefuses⟩ := hrefused
    exact ⟨l, [], L ++ draw (k + 1) (as.flatMap walk), .blank, hrefuses, .refl _, by simp⟩
  · obtain ⟨hdoes, hitem⟩ := hstep
    have hext : net.Extends loose [l] mid :=
      hdoes.extends hw fun _ n n' h => absurd h (hjoins n n')
    refine (hf r mid (hdoes.wellFormed hw) (hdoes.scope.trans hk) (fun i hi => ?_) hdrawn).imp
      (fun _ net' hrest => ?_) fun e net' h => ?_
    · rcases List.mem_cons.1 hi with rfl | hi
      · exact hitem
      · exact hext.has hw (hS i hi)
    · obtain ⟨hext', hrest⟩ := hrest
      exact ⟨(hext.trans hext').perm (List.perm_append_singleton ..), hrest⟩
    · exact .after (L := [l]) (M := []) hext.traced (by simp) h

/-- An internal place, which can be used from here on. -/
theorem place {f : Unit → Build β} (hf : Draws loose (.inside n :: S) k (f ()) as L R) :
    Draws loose S k (Net.internalPlace n >>= f) as (.place n .internal :: L) R := by
  refine of_step (fun _ => .inside n) (fun net hw => ?_) nofun fun _ => hf
  cases hnew : Net.newPlace n .internal net with
  | ok p net' =>
    have hdoes := Net.of_newPlace_ok hnew
    refine .of_ok (Build.bind_ok hnew) ⟨hdoes, fun hstrict => ?_⟩
    refine (hdoes.extends hw nofun).inside hstrict n (.inr ?_)
    simp
  | error e net' =>
    refine .of_error (Build.bind_error hnew) ?_
    unfold Net.newPlace at hnew
    split at hnew
    · rename_i hempty
      cases hnew
      exact ⟨rfl, hempty ▸ .place⟩
    · split at hnew
      · rename_i hknown
        cases hnew
        exact ⟨rfl, .again hknown⟩
      · cases hnew

/-- The place of a message, which may be there already. -/
theorem interfacePlace {f : Unit → Build β} (hkind : kind ≠ .internal)
    (hf : Draws loose (.known n :: S) k (f ()) as L R) :
    Draws loose S k (Fragment.interfacePlace n kind >>= f) as (.place n kind :: L) R := by
  refine of_step (fun _ => .known n) (fun net hw => ?_) nofun fun _ => hf
  have hrun : Fragment.interfacePlace n kind net = (if (net.find? n).isNone then
      Net.newPlace n kind >>= fun _ => Pure.pure () else Pure.pure () : Build Unit) net := rfl
  cases hn : net.find? n with
  | some p =>
    rw [hn] at hrun
    exact .of_ok hrun ⟨.share (Net.knows_of_find hn) hkind, fun _ => Net.knows_of_find hn⟩
  | none =>
    rw [hn, Option.isNone_none, if_pos rfl] at hrun
    by_cases hempty : n = ""
    · have herr : Net.newPlace n kind net = .error .emptyName net := if_pos hempty
      exact .of_error (hrun.trans (Build.bind_error herr)) ⟨rfl, hempty ▸ .place⟩
    · refine .of_ok (hrun.trans (Build.bind_ok (Net.newPlace_ok kind hempty hn))) ⟨.place hn, ?_⟩
      exact fun _ => by simp [Net.Knows, Net.find?_addPlace_ofName]

theorem addPort {port : String} :
    Draws loose S k (Net.addPort port n) [] [.port port n] fun _ => True :=
  of_does (fun _ _ _ => .of_ok rfl .port) nofun

/-- A transition, whose handle goes by its name from here on. -/
theorem transitionOf {f : TransitionId → Build β}
    (hf : ∀ u, Draws loose (.handle n u :: S) k (f u) as L R) :
    Draws loose S k (Net.newTransitionOf n kind >>= f) as (.transition n kind :: L) R := by
  refine of_step (.handle n) (fun net hw => ?_) nofun hf
  cases hnew : Net.newTransitionOf n kind net with
  | ok u net' => exact .of_ok hnew (Net.of_newTransitionOf_ok hnew)
  | error e net' =>
    refine .of_error hnew ?_
    unfold Net.newTransitionOf at hnew
    split at hnew
    · rename_i hempty
      cases hnew
      exact ⟨rfl, hempty ▸ .transition⟩
    · split at hnew <;> cases hnew

/-- An internal transition, whose handle can be used from here on. -/
theorem transition {f : TransitionId → Build β}
    (hf : ∀ u, Draws loose (.handle n u :: S) k (f u) as L R) :
    Draws loose S k (Net.newTransition n >>= f) as (.transition n .internal :: L) R :=
  transitionOf hf

/-- An arc between a transition and a place that can be used. -/
theorem arc (flow : ArcKind) (ht : .handle t u ∈ S) (hn : .inside n ∈ S ∨ .known n ∈ S) :
    Draws loose S k (flow.newArc n u) [] [.arc flow n t] fun _ => True := by
  refine of_does (fun net hw hS => ?_) nofun
  refine (Net.newArc_ends hw flow (hS _ ht)).imp (fun _ _ h => h) fun e net' hrefused => ?_
  refine ⟨hrefused.1, .link ?_⟩
  by_contra hstrict
  refine hrefused.2 ?_
  rcases hn with hn | hn
  · obtain ⟨id, hid, -⟩ := hS _ hn hstrict
    exact Net.knows_of_find hid
  · exact hS _ hn hstrict

/-- An arc from a place, if both ends are there. -/
theorem consumes (ht : .handle t u ∈ S) (hn : .inside n ∈ S) :
    Draws loose S k (Net.newArc n u) [] [.arc .consumes n t] fun _ => True :=
  arc .consumes ht (.inl hn)

/-- An arc to a place, if both ends are there. -/
theorem produces (ht : .handle t u ∈ S) (hn : .inside n ∈ S) :
    Draws loose S k (Net.newArc u n) [] [.arc .produces n t] fun _ => True :=
  arc .produces ht (.inl hn)

/-- An arc, and then the rest. -/
theorem consume {f : Unit → Build β} (ht : .handle t u ∈ S) (hn : .inside n ∈ S)
    (hf : Draws loose S k (f ()) as L R) :
    Draws loose S k (Net.newArc n u >>= f) as (.arc .consumes n t :: L) R :=
  cons (consumes ht hn) fun _ => hf

theorem produce {f : Unit → Build β} (ht : .handle t u ∈ S) (hn : .inside n ∈ S)
    (hf : Draws loose S k (f ()) as L R) :
    Draws loose S k (Net.newArc u n >>= f) as (.arc .produces n t :: L) R :=
  cons (produces ht hn) fun _ => hf

/-- A link, which may lead nowhere only where this is allowed. -/
theorem link (hn : .inside n ∈ S) (hn' : ¬ loose → .inside n' ∈ S) :
    Draws loose S k (Net.merge n n') [] [.joins n n'] fun _ => True := by
  refine of_does (fun net hw hS => ?_) fun _ _ h => by cases h; exact ⟨hn, hn'⟩
  refine (Net.merge_ends hw n n').imp (fun _ _ h => h) fun e net' hrefused => ?_
  refine ⟨hrefused.1, .link ?_⟩
  by_contra hstrict
  exact hrefused.2 ⟨hS _ hn hstrict, hS _ (hn' hstrict) hstrict⟩

/-- A merge of two places, if both are there. -/
theorem joins (hn : .inside n ∈ S) (hn' : .inside n' ∈ S) :
    Draws loose S k (Net.merge n n') [] [.joins n n'] fun _ => True :=
  link hn fun _ => hn'

/-- A join, and then the rest. -/
theorem join {f : PlaceId → Build β} (hn : .inside n ∈ S) (hn' : .inside n' ∈ S)
    (hf : ∀ p, Draws loose S k (f p) as L R) :
    Draws loose S k (Net.merge n n' >>= f) as (.joins n n' :: L) R :=
  cons (joins hn hn') hf

/-! ### Fragments inside -/

/-- A fragment under the next number, and then the rest, which can use both its ends. -/
theorem child {a : Activity} {f : Scope → Build β}
    (hf : Draws loose (.inside (Scope.initialized ⟨k + 1⟩) :: .inside (Scope.closed ⟨k + 1⟩) :: S)
      (k + a.size) (f ⟨k + 1⟩) as L R) :
    Draws loose S k (Fragment.child a.fragment >>= f) (a :: as) L R := by
  have hchild : Draws loose S k (Fragment.child a.fragment) [a] [] fun s => s = ⟨k + 1⟩ := by
    intro net hw hk _ hdrawn
    have hfragment := hdrawn a (List.mem_singleton_self a) { net with scope := net.scope + 1 }
      (hw.relabel _ _)
    have hnumber : net.Extends loose [] { net with scope := net.scope + 1 } := .number net
    have hdrawing : draw (k + 1) ([a].flatMap walk) = a.drawing (net.scope + 1) := by
      simp [Activity.drawing, hk]
    rw [hdrawing]
    refine Build.Ends.bind (.of_ok rfl ⟨rfl, rfl⟩ :
      Net.nextScope.Ends net (fun id mid => id = net.scope + 1 ∧
        mid = { net with scope := net.scope + 1 }) _) fun id mid hid => ?_
    obtain ⟨rfl, rfl⟩ := hid
    refine Build.Ends.bind (hfragment.imp (fun _ _ h => h) fun e net' h => ?_) fun _ net' h => ?_
    · exact .after (L := []) (M := []) hnumber.traced (by simp) h
    · obtain ⟨hext, hscope⟩ := h
      refine .of_ok rfl ⟨by simpa using hnumber.trans hext, ?_, by rw [hk]⟩
      simp only [hscope, Activity.sizes_cons, Activity.sizes_nil, a.size_eq]
      omega
  have h : Draws loose S k (Fragment.child a.fragment >>= f) ([a] ++ as) ([] ++ L) R := by
    refine bind hchild fun s hs => ?_
    subst hs
    have hends {x : String} (hx : x ∈ ["initialized", "closed"]) :
        Resource.inside (Scope.name ⟨k + 1⟩ x) ∈ gains k [a] [] ++ S := by
      refine List.mem_append_left _ (inside_mem_gains.2 (.inr ?_))
      rw [List.flatMap_singleton, Activity.walk_eq, draw, List.zipIdx_cons, List.flatMap_cons,
        internals_append, Activity.internals_lines]
      exact List.mem_append_left _ (List.mem_map_of_mem (List.mem_append_left a.places hx))
    refine Draws.mono (by simpa using hf) ?_
    exact List.cons_subset.2 ⟨hends (by simp), List.cons_subset.2 ⟨hends (by simp),
      List.subset_append_right ..⟩⟩
  exact h

/-- A fragment between two places. -/
theorem splice {a : Activity} (hn : .inside n ∈ S) (hn' : .inside n' ∈ S) :
    Draws loose S k (Fragment.splice a.fragment n n') [a] (Activity.spliceLines n n' ⟨k + 1⟩)
      fun _ => True :=
  child (join (by simp [hn]) (by simp) fun _ => join (by simp [hn']) (by simp) fun _ =>
    pure trivial)

/-- The two ends of the fragment whose number the net holds, and then the rest. -/
theorem enter {f : Scope → Build β}
    (hf : Draws loose (.inside (Scope.closed ⟨k⟩) :: .inside (Scope.initialized ⟨k⟩) :: S) k
      (f ⟨k⟩) as L R) :
    Draws loose S k (Scope.enter >>= f) as (Activity.endLines ⟨k⟩ ++ L) R := by
  have hends : Draws loose S k (do
      Net.internalPlace (Scope.initialized ⟨k⟩)
      Net.internalPlace (Scope.closed ⟨k⟩)
      f ⟨k⟩) as (Activity.endLines ⟨k⟩ ++ L) R := place (place hf)
  intro net hw hk hS hdrawn
  have hget : (get : Build Net).Ends net (fun x net' => x = net ∧ net' = net)
      (net.Stops loose (Activity.endLines ⟨k⟩ ++ L) (draw (k + 1) (as.flatMap walk))) :=
    ⟨rfl, rfl⟩
  unfold Scope.enter
  simp only [bind_assoc, pure_bind]
  refine hget.bind fun x net' h => ?_
  obtain ⟨rfl, rfl⟩ := h
  rw [hk]
  exact hends _ hw hk hS hdrawn

/-! ### One part for each member of a list -/

/-- A loop draws what its rounds draw. -/
theorem forM_map {γ δ : Type} {g : δ → Build Unit} {h : γ → δ} {built : γ → List Activity}
    {lines : Nat → γ → List Line} {xs : List γ}
    (hg : ∀ x ∈ xs, ∀ k, Draws loose S k (g (h x)) (built x) (lines k x) fun _ => True) :
    Draws loose S k ((xs.map h).forM g) (xs.flatMap built) (numberedLines lines built k xs)
      fun _ => True := by
  induction xs generalizing k with
  | nil => exact pure trivial
  | cons x xs ih =>
    have hrest := ih (k := k + sizes (built x)) fun y hy => hg y (List.mem_cons_of_mem _ hy)
    exact bind (hg x (List.mem_cons_self ..) k) fun _ _ =>
      hrest.mono (List.subset_append_right ..)

/-- Parts without fragments. -/
theorem forM_flat {γ δ : Type} {g : δ → Build Unit} {h : γ → δ} {lines : γ → List Line}
    {xs : List γ} (hg : ∀ x ∈ xs, Draws loose S k (g (h x)) [] (lines x) fun _ => True) :
    Draws loose S k ((xs.map h).forM g) [] (xs.flatMap lines) fun _ => True := by
  induction xs with
  | nil => exact pure trivial
  | cons x xs ih =>
    have hrest := ih fun y hy => hg y (List.mem_cons_of_mem _ hy)
    exact first (hg x (List.mem_cons_self ..)) fun _ _ => hrest.mono (List.subset_append_right ..)

end Draws

end OpenWorkflow
