import Mathlib.Data.List.Perm.Subperm
import Mathlib.Logic.Relation
import OpenWorkflow.Net.Statistics
import OpenWorkflow.Proofs.Net.Calls

/-!
# The order of merges

Merging a list of pairs of names takes the net through as many intermediate nets
as there are pairs, each with handles of its own. What comes out is the quotient
of the first net by the equivalence that the pairs generate, and the order of the
pairs has no part in that.

* `Collapse` says that a net is another one after some of its places have become
  one; every merge gives such a net (`Collapse.unify`), and what two places hand
  on to the place they become, the places of a collapsed net have from all the
  places that went there.
* `mergeAll_collapse`: two places go to one exactly when the pairs connect them.
* `Agrees` compares two nets through the names of their places, and
  `mergeAll_rearranged` says that the same pairs in any order, with their sides
  exchanged or not, give nets that agree.
-/

namespace OpenWorkflow

variable {pairs : List (String × String)} {net' : Net} {k l : NodeKind} {x : PlaceId}

/-- One pair more connects what is connected to either side of it. -/
theorem eqvGen_or_iff {α : Type} {r : α → α → Prop} {a b x y : α} :
    Relation.EqvGen (fun u v => r u v ∨ (u = a ∧ v = b)) x y ↔
      Relation.EqvGen r x y ∨ (Relation.EqvGen r x a ∧ Relation.EqvGen r b y)
        ∨ (Relation.EqvGen r x b ∧ Relation.EqvGen r a y) := by
  have hmono {u v : α} (h : Relation.EqvGen r u v) :
      Relation.EqvGen (fun u v => r u v ∨ (u = a ∧ v = b)) u v :=
    Relation.EqvGen.mono (fun _ _ => .inl) _ _ h
  have hab : Relation.EqvGen (fun u v => r u v ∨ (u = a ∧ v = b)) a b :=
    .rel _ _ (.inr ⟨rfl, rfl⟩)
  constructor
  · intro h
    induction h with
    | rel u v huv =>
      rcases huv with huv | ⟨rfl, rfl⟩
      · exact .inl (.rel _ _ huv)
      · exact .inr (.inl ⟨.refl _, .refl _⟩)
    | refl u => exact .inl (.refl u)
    | symm u v _ ih =>
      rcases ih with h | ⟨h, h'⟩ | ⟨h, h'⟩
      · exact .inl (h.symm _ _)
      · exact .inr (.inr ⟨h'.symm _ _, h.symm _ _⟩)
      · exact .inr (.inl ⟨h'.symm _ _, h.symm _ _⟩)
    | trans u v w _ _ ih ih' =>
      rcases ih with h | ⟨h, h'⟩ | ⟨h, h'⟩ <;> rcases ih' with k | ⟨k, k'⟩ | ⟨k, k'⟩
      · exact .inl (h.trans _ _ _ k)
      · exact .inr (.inl ⟨h.trans _ _ _ k, k'⟩)
      · exact .inr (.inr ⟨h.trans _ _ _ k, k'⟩)
      · exact .inr (.inl ⟨h, h'.trans _ _ _ k⟩)
      · exact .inr (.inl ⟨h, k'⟩)
      · exact .inl (h.trans _ _ _ k')
      · exact .inr (.inr ⟨h, h'.trans _ _ _ k⟩)
      · exact .inl (h.trans _ _ _ k')
      · exact .inr (.inr ⟨h, k'⟩)
  · rintro (h | ⟨h, h'⟩ | ⟨h, h'⟩)
    · exact hmono h
    · exact (hmono h).trans _ _ _ (hab.trans _ _ _ (hmono h'))
    · exact (hmono h).trans _ _ _ ((hab.symm _ _).trans _ _ _ (hmono h'))

/-- A matching from one set into another that hits nothing twice. -/
theorem OrderedSet.size_le_of_matching {α β : Type} {s : OrderedSet α} {t : OrderedSet β}
    {R : α → β → Prop} (htotal : ∀ x ∈ s, ∃ y ∈ t, R x y)
    (hinj : ∀ x x' y, R x y → R x' y → x = x') : s.size ≤ t.size := by
  have key : ∀ xs : List α, xs.Nodup → (∀ x ∈ xs, ∃ y ∈ t, R x y) →
      ∃ ys : List β, ys.Nodup ∧ ys.length = xs.length ∧ (∀ y ∈ ys, y ∈ t.toList)
        ∧ ∀ y ∈ ys, ∃ x ∈ xs, R x y := by
    intro xs hnodup hxs
    induction xs with
    | nil => exact ⟨[], List.nodup_nil, rfl, by simp, by simp⟩
    | cons x xs ih =>
      obtain ⟨hx, hnodup⟩ := List.nodup_cons.1 hnodup
      obtain ⟨ys, hys, hlen, hsub, hback⟩ :=
        ih hnodup fun x' hx' => hxs x' (List.mem_cons_of_mem _ hx')
      obtain ⟨y, hy, hxy⟩ := hxs x (List.mem_cons_self ..)
      refine ⟨y :: ys, List.nodup_cons.2 ⟨?_, hys⟩, congrArg (· + 1) hlen, ?_, ?_⟩
      · intro hmem
        obtain ⟨x', hx', hxy'⟩ := hback y hmem
        exact hx (hinj x x' y hxy hxy' ▸ hx')
      · exact List.forall_mem_cons.2 ⟨hy, hsub⟩
      · refine List.forall_mem_cons.2 ⟨⟨x, List.mem_cons_self .., hxy⟩, ?_⟩
        intro y' hy'
        obtain ⟨x', hx', hxy'⟩ := hback y' hy'
        exact ⟨x', List.mem_cons_of_mem _ hx', hxy'⟩
  obtain ⟨ys, hys, hlen, hsub, -⟩ := key s.toList s.nodup htotal
  unfold size
  rw [← hlen]
  exact (List.subperm_of_subset hys hsub).length_le

namespace NodeKind

/-- Does a node of the kind receive? -/
def receives : NodeKind → Bool
  | input | inOut => true
  | internal | output => false

/-- Does a node of the kind send? -/
def sends : NodeKind → Bool
  | output | inOut => true
  | internal | input => false

theorem eq_of_receives_sends (hr : k.receives = l.receives) (hs : k.sends = l.sends) : k = l := by
  revert hr hs
  cases k <;> cases l <;> decide

/-- The joined kind receives if one of the two does. -/
theorem receives_join {m : NodeKind} (h : k.join? l = some m) :
    m.receives = true ↔ k.receives = true ∨ l.receives = true := by
  cases k <;> cases l <;> cases h <;> simp [receives]

/-- The joined kind sends if one of the two does. -/
theorem sends_join {m : NodeKind} (h : k.join? l = some m) :
    m.sends = true ↔ k.sends = true ∨ l.sends = true := by
  cases k <;> cases l <;> cases h <;> simp [sends]

end NodeKind

/-- What a transition is apart from its neighbours. -/
def Transition.label (t : Transition) : String × NodeKind := (t.name, t.kind)

namespace Net

variable {base net net₁ net₂ : Net}

/-! ## Collapsed nets -/

/-- A property of places that the place two places become has if one of them has it. -/
def Additive (Q : Place → Prop) : Prop :=
  ∀ kind first second, first.kind.join? second.kind = some kind →
    (Q (united kind first second) ↔ Q first ∨ Q second)

theorem additive_true : Additive fun _ => True := by
  intro kind first second _
  simp

theorem additive_receives : Additive fun p => p.kind.receives = true := by
  intro kind first second h
  exact NodeKind.receives_join h

theorem additive_sends : Additive fun p => p.kind.sends = true := by
  intro kind first second h
  exact NodeKind.sends_join h

theorem additive_tokens (n : Nat) : Additive fun p => n < p.tokens := by
  intro kind first second _
  show n < max first.tokens second.tokens ↔ _
  omega

theorem additive_isFinal : Additive fun p => p.isFinal = true := by
  intro kind first second _
  exact Bool.or_eq_true_iff

theorem additive_preset (t : TransitionId) : Additive fun p => t ∈ p.preset := by
  intro kind first second _
  simp [united, ← OrderedSet.mem_def]

theorem additive_postset (t : TransitionId) : Additive fun p => t ∈ p.postset := by
  intro kind first second _
  simp [united, ← OrderedSet.mem_def]

/-- The net `net` is `base` after some places have become one; `f` says where each
place went. -/
structure Collapse (base net : Net) (f : PlaceId → PlaceId) : Prop where
  wellFormed : net.WellFormed
  find : ∀ n, net.find? n = (base.find? n).map f
  property : ∀ {Q : Place → Prop}, Additive Q → ∀ {id},
    (∃ p, net.place? id = some p ∧ Q p) ↔ ∃ x, (∃ p, base.place? x = some p ∧ Q p) ∧ f x = id
  transitions : net.transitions.map Transition.label = base.transitions.map Transition.label
  finals : List.Forall₂ (fun s s' => ∀ z, z ∈ s' ↔ ∃ y ∈ s, f y = z) base.finalSets net.finalSets

namespace Collapse

variable {f : PlaceId → PlaceId}

theorem refl (hw : base.WellFormed) : Collapse base base id where
  wellFormed := hw
  find n := by rw [Option.map_id, id]
  property := by
    intro Q _ x
    constructor
    · intro h
      exact ⟨x, h, rfl⟩
    · rintro ⟨_, h, rfl⟩
      exact h
  transitions := rfl
  finals := by
    apply List.forall₂_same.2
    intro s _ z
    simp

/-- Where a live place went is live. -/
theorem live (h : Collapse base net f) {p : Place} (hp : base.place? x = some p) :
    ∃ q, net.place? (f x) = some q := by
  obtain ⟨q, hq, -⟩ := (h.property additive_true).2 ⟨x, ⟨p, hp, trivial⟩, rfl⟩
  exact ⟨q, hq⟩

/-- One merge more. -/
theorem unify (h : Collapse base net f) {a b : PlaceId} {kind : NodeKind} {first second : Place}
    (hm : net.Mergeable a b kind first second) :
    Collapse base (net.unify kind a b first second) (redirect a b net.freshPlace ∘ f) where
  wellFormed := hm.wellFormed_unify h.wellFormed
  find n := by rw [hm.find?_unify h.wellFormed.toNamesAgree, h.find, Option.map_map]
  property := by
    intro Q hQ id
    rw [hm.property_unify (hQ kind first second hm.kind)]
    constructor
    · rintro ⟨id', hid', rfl⟩
      obtain ⟨x, hx, rfl⟩ := (h.property hQ).1 hid'
      exact ⟨x, hx, rfl⟩
    · rintro ⟨x, hx, rfl⟩
      exact ⟨f x, (h.property hQ).2 ⟨x, hx, rfl⟩, rfl⟩
  transitions := by
    rw [← h.transitions]
    apply List.ext_getElem?
    intro i
    have ht := congrArg (Option.map Transition.label) (hm.transition?_unify ⟨i⟩)
    rw [Option.map_map] at ht
    rw [List.getElem?_map, List.getElem?_map]
    exact ht
  finals := by
    rw [hm.finalSets_unify, List.forall₂_map_right_iff]
    refine h.finals.imp fun s s' hs z => ?_
    rw [mem_redirected]
    constructor
    · rintro ⟨y, hy, rfl⟩
      obtain ⟨x, hx, rfl⟩ := (hs y).1 hy
      exact ⟨x, hx, rfl⟩
    · rintro ⟨x, hx, rfl⟩
      exact ⟨f x, (hs (f x)).2 ⟨x, hx, rfl⟩, rfl⟩

end Collapse

/-! ## A list of merges -/

/-- Merges the places of some pairs of names, one pair after another. -/
def mergeAll (pairs : List (String × String)) : Build Unit :=
  pairs.forM fun pair => do
    let _ ← merge pair.1 pair.2

/-- Two places that are the sides of one of the pairs. -/
def Linked (base : Net) (pairs : List (String × String)) (x y : PlaceId) : Prop :=
  ∃ pair ∈ pairs, base.find? pair.1 = some x ∧ base.find? pair.2 = some y

/-- Which places have gone to one: those that `r` connects. -/
def Kernel (base : Net) (f : PlaceId → PlaceId) (r : PlaceId → PlaceId → Prop) : Prop :=
  ∀ {x y p q}, base.place? x = some p → base.place? y = some q →
    (f x = f y ↔ Relation.EqvGen r x y)

theorem mergeAll_cons {pair : String × String} (h : mergeAll (pair :: pairs) net = .ok () net') :
    ∃ id net'', merge pair.1 pair.2 net = .ok id net'' ∧ mergeAll pairs net'' = .ok () net' := by
  cases hm : merge pair.1 pair.2 net with
  | ok id net'' =>
    have hstep : (do let _ ← merge pair.1 pair.2 : Build Unit) net = .ok () net'' :=
      Build.bind_ok hm
    exact ⟨id, net'', rfl, (Build.bind_ok (f := fun _ => mergeAll pairs) hstep).symm.trans h⟩
  | error e net'' =>
    have hstep : (do let _ ← merge pair.1 pair.2 : Build Unit) net = .error e net'' :=
      Build.bind_error hm
    cases (Build.bind_error (f := fun _ => mergeAll pairs) hstep).symm.trans h

/-- One merge of names connects the two places that the names stood for. -/
theorem Collapse.merge {f : PlaceId → PlaceId} {r : PlaceId → PlaceId → Prop} {m n : String}
    {id : PlaceId} (hw : base.WellFormed) (h : Collapse base net f) (hk : Kernel base f r)
    (ho : Net.merge m n net = .ok id net') :
    ∃ f' xm xn, base.find? m = some xm ∧ base.find? n = some xn ∧ Collapse base net' f'
      ∧ Kernel base f' fun x y => r x y ∨ (x = xm ∧ y = xn) := by
  have hside {k : String} {a : PlaceId} (hr : net.resolve? k = some a) :
      ∃ x p, base.find? k = some x ∧ base.place? x = some p ∧ f x = a := by
    obtain ⟨x, hx, rfl⟩ := Option.map_eq_some_iff.1 ((h.find k).symm.trans hr)
    obtain ⟨p, hp⟩ := hw.live_of_find hx
    exact ⟨x, p, hx, hp, rfl⟩
  obtain ⟨a, hma, hna, ho'⟩ | ⟨a, b, kind, first, second, hma, hnb, hm, ho'⟩ | ⟨e, he⟩ :=
    merge_cases h.wellFormed.toNamesAgree (m : PlaceRef) n
  · -- the two names already lead to one place
    cases ho'.symm.trans ho
    obtain ⟨xm, pm, hxm, hpm, rfl⟩ := hside hma
    obtain ⟨xn, pn, hxn, hpn, heq⟩ := hside hna
    refine ⟨f, xm, xn, hxm, hxn, h, ?_⟩
    intro x y p q hp hq
    have htied : Relation.EqvGen r xm xn := (hk hpm hpn).1 heq.symm
    rw [hk hp hq, eqvGen_or_iff]
    constructor
    · exact .inl
    · rintro (hxy | ⟨hx, hy⟩ | ⟨hx, hy⟩)
      · exact hxy
      · exact hx.trans _ _ _ (htied.trans _ _ _ hy)
      · exact hx.trans _ _ _ ((htied.symm _ _).trans _ _ _ hy)
  · cases ho'.symm.trans ho
    obtain ⟨xm, pm, hxm, hpm, rfl⟩ := hside hma
    obtain ⟨xn, pn, hxn, hpn, rfl⟩ := hside hnb
    refine ⟨_, xm, xn, hxm, hxn, h.unify hm, ?_⟩
    intro x y p q hp hq
    have hfresh {z : PlaceId} {p : Place} (hp : base.place? z = some p) :
        f z ≠ net.freshPlace := by
      obtain ⟨q, hq⟩ := h.live hp
      exact net.ne_freshPlace hq
    rw [Function.comp_apply, Function.comp_apply,
      redirect_eq_redirect_iff (hfresh hp) (hfresh hq), hk hp hq, hk hp hpm, hk hp hpn, hk hq hpm,
      hk hq hpn, eqvGen_or_iff]
    constructor
    · rintro (hxy | ⟨hx | hx, hy | hy⟩)
      · exact .inl hxy
      · exact .inl (hx.trans _ _ _ (hy.symm _ _))
      · exact .inr (.inl ⟨hx, hy.symm _ _⟩)
      · exact .inr (.inr ⟨hx, hy.symm _ _⟩)
      · exact .inl (hx.trans _ _ _ (hy.symm _ _))
    · rintro (hxy | ⟨hx, hy⟩ | ⟨hx, hy⟩)
      · exact .inl hxy
      · exact .inr ⟨.inl hx, .inr (hy.symm _ _)⟩
      · exact .inr ⟨.inr hx, .inl (hy.symm _ _)⟩
  · cases he.symm.trans ho

/-- The pairs of a list connect what they did before, one pair after another. -/
theorem mergeAll_collapse_from {f : PlaceId → PlaceId} {r : PlaceId → PlaceId → Prop}
    (hw : base.WellFormed) (h : Collapse base net f) (hk : Kernel base f r)
    (ho : mergeAll pairs net = .ok () net') :
    ∃ f', Collapse base net' f'
      ∧ Kernel base f' fun x y => r x y ∨ Linked base pairs x y := by
  induction pairs generalizing net f r with
  | nil =>
    cases ho
    refine ⟨f, h, ?_⟩
    intro x y p q hp hq
    rw [hk hp hq]
    simp [Linked]
  | cons pair pairs ih =>
    obtain ⟨id, net'', hm, hrest⟩ := mergeAll_cons ho
    obtain ⟨f', xm, xn, hxm, hxn, h', hk'⟩ := h.merge hw hk hm
    obtain ⟨f'', h'', hk''⟩ := ih h' hk' hrest
    refine ⟨f'', h'', ?_⟩
    have hrel : (fun x y => (r x y ∨ (x = xm ∧ y = xn)) ∨ Linked base pairs x y)
        = fun x y => r x y ∨ Linked base (pair :: pairs) x y := by
      funext x y
      simp only [Linked, List.exists_mem_cons_iff, hxm, hxn, Option.some.injEq, or_assoc,
        eq_comm]
    rwa [hrel] at hk''

/-- Two places go to one exactly when the pairs connect them. -/
theorem mergeAll_collapse (hw : base.WellFormed) (ho : mergeAll pairs base = .ok () net') :
    ∃ f, Collapse base net' f ∧ Kernel base f (Linked base pairs) := by
  have hk : Kernel base id fun _ _ => False := by
    intro x y p q hp hq
    clear hp hq
    constructor
    · rintro rfl
      exact .refl _
    · intro h
      induction h with
      | rel _ _ h => exact h.elim
      | refl => rfl
      | symm _ _ _ ih => exact ih.symm
      | trans _ _ _ _ _ ih ih' => exact ih.trans ih'
  obtain ⟨f, h, hk'⟩ := mergeAll_collapse_from hw (.refl hw) hk ho
  have hrel : (fun x y => False ∨ Linked base pairs x y) = Linked base pairs := by
    funext x y
    exact false_or _
  exact ⟨f, h, hrel ▸ hk'⟩

/-! ## Nets that agree -/

/-- Two nets that are the same when places are compared through their names:
names lead to one place in both or in neither, places with a common name have the
same names, kind, tokens and flag and the same arcs, transitions have the same
handles, names and kinds, and the final sets correspond one by one. -/
structure Agrees (net₁ net₂ : Net) : Prop where
  same : ∀ m n, (∃ x, net₁.find? m = some x ∧ net₁.find? n = some x)
    ↔ ∃ x, net₂.find? m = some x ∧ net₂.find? n = some x
  place : ∀ {n x₁ x₂ p₁ p₂}, net₁.find? n = some x₁ → net₂.find? n = some x₂ →
    net₁.place? x₁ = some p₁ → net₂.place? x₂ = some p₂ →
      (∀ m, m ∈ p₁.history ↔ m ∈ p₂.history) ∧ p₁.kind = p₂.kind ∧ p₁.tokens = p₂.tokens
        ∧ p₁.isFinal = p₂.isFinal
  arc : ∀ {n x₁ x₂}, net₁.find? n = some x₁ → net₂.find? n = some x₂ → ∀ t,
    (.consumes x₁ t ∈ net₁.arcs ↔ .consumes x₂ t ∈ net₂.arcs)
      ∧ (.produces t x₁ ∈ net₁.arcs ↔ .produces t x₂ ∈ net₂.arcs)
  transitions : net₁.transitions.map Transition.label = net₂.transitions.map Transition.label
  finals : List.Forall₂ (fun s₁ s₂ => ∀ n x₁ x₂, net₁.find? n = some x₁ →
    net₂.find? n = some x₂ → (x₁ ∈ s₁ ↔ x₂ ∈ s₂)) net₁.finalSets net₂.finalSets

/-- A place has the names that lead where one of its names leads. -/
theorem NamesAgree.mem_history_iff {net : Net} (h : net.NamesAgree) {m n : String} {x : PlaceId}
    {p : Place} (hp : net.place? x = some p) (hn : net.find? n = some x) :
    m ∈ p.history ↔ ∃ z, net.find? m = some z ∧ net.find? n = some z := by
  constructor
  · intro hm
    exact ⟨x, h.find_of_mem hp hm, hn⟩
  · rintro ⟨z, hm, hn'⟩
    cases hn.symm.trans hn'
    obtain ⟨q, hq, hmem⟩ := h.find.1 hm
    cases hp.symm.trans hq
    exact hmem

namespace Collapse

variable {f₁ f₂ : PlaceId → PlaceId} (hw : base.WellFormed) (h₁ : Collapse base net₁ f₁)
  (h₂ : Collapse base net₂ f₂)

include hw h₁ h₂ in
/-- A name leads to where one and the same place of the first net went. -/
theorem exists_of_find {n : String} {x₁ x₂ : PlaceId} (hn₁ : net₁.find? n = some x₁)
    (hn₂ : net₂.find? n = some x₂) :
    ∃ x p, base.find? n = some x ∧ base.place? x = some p ∧ f₁ x = x₁ ∧ f₂ x = x₂ := by
  obtain ⟨x, hx, rfl⟩ := Option.map_eq_some_iff.1 ((h₁.find n).symm.trans hn₁)
  rw [h₂.find, hx, Option.map_some] at hn₂
  obtain ⟨p, hp⟩ := hw.live_of_find hx
  exact ⟨x, p, hx, hp, rfl, Option.some.inj hn₂⟩

variable (hk : ∀ {x y p q}, base.place? x = some p → base.place? y = some q →
  (f₁ x = f₁ y ↔ f₂ x = f₂ y))

include h₁ h₂ hk in
/-- Where a place went has the same properties in both nets. -/
theorem property_iff {Q : Place → Prop} (hQ : Additive Q) {x : PlaceId} {p : Place}
    (hp : base.place? x = some p) : (∃ p₁, net₁.place? (f₁ x) = some p₁ ∧ Q p₁)
      ↔ ∃ p₂, net₂.place? (f₂ x) = some p₂ ∧ Q p₂ := by
  rw [h₁.property hQ, h₂.property hQ]
  constructor
  · rintro ⟨y, ⟨q, hq, hQq⟩, hy⟩
    exact ⟨y, ⟨q, hq, hQq⟩, (hk hq hp).1 hy⟩
  · rintro ⟨y, ⟨q, hq, hQq⟩, hy⟩
    exact ⟨y, ⟨q, hq, hQq⟩, (hk hq hp).2 hy⟩

include hw h₁ h₂ hk

theorem same_iff (m n : String) : (∃ x, net₁.find? m = some x ∧ net₁.find? n = some x)
    ↔ ∃ x, net₂.find? m = some x ∧ net₂.find? n = some x := by
  rw [h₁.find, h₁.find, h₂.find, h₂.find]
  cases hm : base.find? m with
  | none => simp
  | some x =>
    cases hn : base.find? n with
    | none => simp
    | some y =>
      obtain ⟨p, hp⟩ := hw.live_of_find hm
      obtain ⟨q, hq⟩ := hw.live_of_find hn
      simp [hk hq hp]

/-- Each final set of either net comes from the one of the first net in its position. -/
theorem finals_agree {ss ss₁ ss₂ : List (OrderedSet PlaceId)} (hsub : ∀ s ∈ ss, s ∈ base.finalSets)
    (hs₁ : List.Forall₂ (fun s s' => ∀ z, z ∈ s' ↔ ∃ y ∈ s, f₁ y = z) ss ss₁)
    (hs₂ : List.Forall₂ (fun s s' => ∀ z, z ∈ s' ↔ ∃ y ∈ s, f₂ y = z) ss ss₂) :
    List.Forall₂ (fun s₁ s₂ => ∀ n x₁ x₂, net₁.find? n = some x₁ →
      net₂.find? n = some x₂ → (x₁ ∈ s₁ ↔ x₂ ∈ s₂)) ss₁ ss₂ := by
  induction hs₁ generalizing ss₂ with
  | nil =>
    cases hs₂
    exact .nil
  | @cons s s₁ ss ss₁ hs _ ih =>
    obtain ⟨hmem, hsub⟩ := List.forall_mem_cons.1 hsub
    cases hs₂ with
    | @cons _ s₂ _ ss₂ hs' hrest =>
      refine .cons ?_ (ih hsub hrest)
      intro n x₁ x₂ hn₁ hn₂
      obtain ⟨x, p, -, hp, rfl, rfl⟩ := exists_of_find hw h₁ h₂ hn₁ hn₂
      rw [hs, hs']
      refine exists_congr fun y => and_congr_right fun hy => ?_
      obtain ⟨q, hq⟩ := hw.live hmem hy
      exact hk hq hp

/-- Two collapses of one net agree if they send the same places to one. -/
theorem agrees : net₁.Agrees net₂ where
  same := same_iff hw h₁ h₂ hk
  place := by
    intro n x₁ x₂ p₁ p₂ hn₁ hn₂ hp₁ hp₂
    obtain ⟨x, p, -, hp, rfl, rfl⟩ := exists_of_find hw h₁ h₂ hn₁ hn₂
    have hiff {Q : Place → Prop} (hQ : Additive Q) : Q p₁ ↔ Q p₂ := by
      have h := property_iff h₁ h₂ hk hQ hp
      simpa only [hp₁, hp₂, Option.some.injEq, exists_eq_left'] using h
    refine ⟨fun m => ?_, ?_, ?_, ?_⟩
    · rw [h₁.wellFormed.mem_history_iff hp₁ hn₁, h₂.wellFormed.mem_history_iff hp₂ hn₂,
        same_iff hw h₁ h₂ hk]
    · exact NodeKind.eq_of_receives_sends (Bool.eq_iff_iff.2 (hiff additive_receives))
        (Bool.eq_iff_iff.2 (hiff additive_sends))
    · have hlt (k : Nat) : k < p₁.tokens ↔ k < p₂.tokens := hiff (additive_tokens k)
      have h12 := hlt p₁.tokens
      have h21 := hlt p₂.tokens
      omega
    · exact Bool.eq_iff_iff.2 (hiff additive_isFinal)
  arc := by
    intro n x₁ x₂ hn₁ hn₂ t
    obtain ⟨x, p, -, hp, rfl, rfl⟩ := exists_of_find hw h₁ h₂ hn₁ hn₂
    rw [h₁.wellFormed.consumes_place, h₂.wellFormed.consumes_place, h₁.wellFormed.produces_place,
      h₂.wellFormed.produces_place]
    exact ⟨property_iff h₁ h₂ hk (additive_postset t) hp,
      property_iff h₁ h₂ hk (additive_preset t) hp⟩
  transitions := h₁.transitions.trans h₂.transitions.symm
  finals := finals_agree hw h₁ h₂ hk (fun _ hs => hs) h₁.finals h₂.finals

end Collapse

theorem Agrees.symm (h : net₁.Agrees net₂) : net₂.Agrees net₁ where
  same m n := (h.same m n).symm
  place hn₂ hn₁ hp₂ hp₁ := by
    obtain ⟨hmem, hkind, htokens, hfinal⟩ := h.place hn₁ hn₂ hp₁ hp₂
    exact ⟨fun m => (hmem m).symm, hkind.symm, htokens.symm, hfinal.symm⟩
  arc hn₂ hn₁ t := ⟨(h.arc hn₁ hn₂ t).1.symm, (h.arc hn₁ hn₂ t).2.symm⟩
  transitions := h.transitions.symm
  finals := h.finals.flip.imp fun _ _ hs n x₂ x₁ hn₂ hn₁ => (hs n x₁ x₂ hn₁ hn₂).symm

/-- Two places with a name in common. -/
def Meets (net₁ net₂ : Net) (x₁ x₂ : PlaceId) : Prop :=
  ∃ n, net₁.find? n = some x₁ ∧ net₂.find? n = some x₂

namespace Agrees

variable (h : net₁.Agrees net₂)
include h

/-- Every live place has its counterpart. -/
theorem exists_meets (hw₁ : net₁.WellFormed) (hw₂ : net₂.WellFormed) {x₁ : PlaceId} {p₁ : Place}
    (hp₁ : net₁.place? x₁ = some p₁) :
    ∃ x₂ p₂, net₂.place? x₂ = some p₂ ∧ p₂.kind = p₁.kind ∧ Meets net₁ net₂ x₁ x₂ := by
  have hn₁ := hw₁.find_name hp₁
  obtain ⟨x₂, hn₂, -⟩ := (h.same p₁.name p₁.name).1 ⟨x₁, hn₁, hn₁⟩
  obtain ⟨p₂, hp₂⟩ := hw₂.live_of_find hn₂
  exact ⟨x₂, p₂, hp₂, (h.place hn₁ hn₂ hp₁ hp₂).2.1.symm, p₁.name, hn₁, hn₂⟩

/-- A place is the counterpart of one place only. -/
theorem meets_inj {x' y : PlaceId} (hx : Meets net₁ net₂ x y) (hx' : Meets net₁ net₂ x' y) :
    x = x' := by
  obtain ⟨m, hm₁, hm₂⟩ := hx
  obtain ⟨n, hn₁, hn₂⟩ := hx'
  obtain ⟨z, hz, hz'⟩ := (h.same m n).2 ⟨y, hm₂, hn₂⟩
  rw [hm₁] at hz
  rw [hn₁] at hz'
  exact Option.some.inj (hz.trans hz'.symm)

theorem size_listed_le (hw₁ : net₁.WellFormed) (hw₂ : net₂.WellFormed) (kind : NodeKind) :
    (net₁.listed kind).size ≤ (net₂.listed kind).size := by
  apply OrderedSet.size_le_of_matching (R := Meets net₁ net₂)
  · intro x hx
    obtain ⟨p, hp, hk⟩ := hw₁.listed.1 hx
    obtain ⟨y, q, hq, hkind, hmeet⟩ := h.exists_meets hw₁ hw₂ hp
    exact ⟨y, hw₂.listed.2 ⟨q, hq, hkind ▸ hk⟩, hmeet⟩
  · intro x x' y
    exact h.meets_inj

/-- Nets that agree have as many arcs. -/
theorem size_arcs_le (hw₁ : net₁.WellFormed) (hw₂ : net₂.WellFormed) :
    net₁.arcs.size ≤ net₂.arcs.size := by
  apply OrderedSet.size_le_of_matching (R := fun arc arc' =>
    (∃ x y t, arc = .consumes x t ∧ arc' = .consumes y t ∧ Meets net₁ net₂ x y)
      ∨ ∃ x y t, arc = .produces t x ∧ arc' = .produces t y ∧ Meets net₁ net₂ x y)
  · intro arc harc
    rcases hw₁.bipartite harc with ⟨x, t, rfl⟩ | ⟨t, x, rfl⟩
    · obtain ⟨p, hp, -⟩ := hw₁.consumes_place.1 harc
      obtain ⟨y, -, -, -, n, hn₁, hn₂⟩ := h.exists_meets hw₁ hw₂ hp
      exact ⟨.consumes y t, (h.arc hn₁ hn₂ t).1.1 harc, .inl ⟨x, y, t, rfl, rfl, n, hn₁, hn₂⟩⟩
    · obtain ⟨p, hp, -⟩ := hw₁.produces_place.1 harc
      obtain ⟨y, -, -, -, n, hn₁, hn₂⟩ := h.exists_meets hw₁ hw₂ hp
      exact ⟨.produces t y, (h.arc hn₁ hn₂ t).2.1 harc, .inr ⟨x, y, t, rfl, rfl, n, hn₁, hn₂⟩⟩
  · rintro arc arc' arc'' (⟨x, y, t, rfl, rfl, hxy⟩ | ⟨x, y, t, rfl, rfl, hxy⟩)
      (⟨x', y', t', rfl, he, hxy'⟩ | ⟨x', y', t', rfl, he, hxy'⟩) <;> cases he
    · rw [h.meets_inj hxy hxy']
    · rw [h.meets_inj hxy hxy']

/-- Nets that agree have the same size. -/
theorem statistics_eq (hw₁ : net₁.WellFormed) (hw₂ : net₂.WellFormed) :
    net₁.statistics = net₂.statistics := by
  have hlisted (kind : NodeKind) : (net₁.listed kind).size = (net₂.listed kind).size :=
    Nat.le_antisymm (h.size_listed_le hw₁ hw₂ kind) (h.symm.size_listed_le hw₂ hw₁ kind)
  have hinternal : net₁.internal.size = net₂.internal.size := hlisted .internal
  have hinput : net₁.input.size = net₂.input.size := hlisted .input
  have houtput : net₁.output.size = net₂.output.size := hlisted .output
  have harcs : net₁.arcs.size = net₂.arcs.size :=
    Nat.le_antisymm (h.size_arcs_le hw₁ hw₂) (h.symm.size_arcs_le hw₂ hw₁)
  have htransitions : net₁.transitions.length = net₂.transitions.length := by
    have hlen := congrArg List.length h.transitions
    rwa [List.length_map, List.length_map] at hlen
  unfold statistics
  rw [hinternal, hinput, houtput, harcs, htransitions]

end Agrees

/-! ## Any order -/

/-- The same pairs in another order, each as it was or with its sides exchanged. -/
def Rearranged (pairs pairs' : List (String × String)) : Prop :=
  ∃ turned, List.Forall₂ (fun pair pair' => pair' = pair ∨ pair' = pair.swap) pairs turned
    ∧ turned.Perm pairs'

theorem mem_or_swap_mem {turned : List (String × String)}
    (h : List.Forall₂ (fun pair pair' => pair' = pair ∨ pair' = pair.swap) pairs turned) :
    ∀ pair ∈ pairs, pair ∈ turned ∨ pair.swap ∈ turned := by
  induction h with
  | nil => simp
  | cons hp _ ih =>
    refine List.forall_mem_cons.2 ⟨?_, fun pair hmem => ?_⟩
    · rcases hp with rfl | rfl
      · exact .inl (List.mem_cons_self ..)
      · exact .inr (List.mem_cons_self ..)
    · exact (ih pair hmem).imp (List.mem_cons_of_mem _) (List.mem_cons_of_mem _)

/-- A rearranged list connects the same places. -/
theorem Rearranged.eqvGen_iff {pairs' : List (String × String)} (h : Rearranged pairs pairs')
    {y : PlaceId} :
    Relation.EqvGen (Linked base pairs) x y ↔ Relation.EqvGen (Linked base pairs') x y := by
  obtain ⟨turned, hturned, hperm⟩ := h
  have hback : List.Forall₂ (fun pair pair' => pair' = pair ∨ pair' = pair.swap) turned pairs := by
    refine hturned.flip.imp fun pair' pair hp => ?_
    rcases hp with rfl | rfl
    · exact .inl rfl
    · exact .inr (Prod.swap_swap pair).symm
  have himp {ps ps' : List (String × String)} (hps : ∀ pair ∈ ps, pair ∈ ps' ∨ pair.swap ∈ ps')
      {u v : PlaceId} (huv : Relation.EqvGen (Linked base ps) u v) :
      Relation.EqvGen (Linked base ps') u v := by
    induction huv with
    | rel u v huv =>
      obtain ⟨pair, hmem, hu, hv⟩ := huv
      rcases hps pair hmem with hmem | hmem
      · exact .rel _ _ ⟨pair, hmem, hu, hv⟩
      · exact .symm _ _ (.rel _ _ ⟨pair.swap, hmem, hv, hu⟩)
    | refl u => exact .refl u
    | symm _ _ _ ih => exact ih.symm _ _
    | trans _ _ _ _ _ ih ih' => exact ih.trans _ _ _ ih'
  constructor
  · apply himp
    intro pair hmem
    exact (mem_or_swap_mem hturned pair hmem).imp hperm.mem_iff.1 hperm.mem_iff.1
  · apply himp
    intro pair hmem
    exact mem_or_swap_mem hback pair (hperm.mem_iff.2 hmem)

/-- Merge order does not matter: if the pairs can be merged one after another in
two orders, with the sides of a pair exchanged or not, the two nets agree and have
the same size. -/
theorem mergeAll_rearranged (calls : List Call) {pairs pairs' : List (String × String)}
    (hpairs : Rearranged pairs pairs') (h₁ : mergeAll pairs (run calls) = .ok () net₁)
    (h₂ : mergeAll pairs' (run calls) = .ok () net₂) :
    net₁.Agrees net₂ ∧ net₁.statistics = net₂.statistics := by
  have hw := wellFormed_run calls
  obtain ⟨f₁, hc₁, hk₁⟩ := mergeAll_collapse hw h₁
  obtain ⟨f₂, hc₂, hk₂⟩ := mergeAll_collapse hw h₂
  have hagrees : net₁.Agrees net₂ := by
    apply hc₁.agrees hw hc₂
    intro x y p q hp hq
    rw [hk₁ hp hq, hk₂ hp hq, hpairs.eqvGen_iff]
  exact ⟨hagrees, hagrees.statistics_eq hc₁.wellFormed hc₂.wellFormed⟩

/-- Three places with arcs, tokens and a final set. -/
def threePlaces : List Call :=
  [.newPlace "a" .internal, .newPlace "b" .input, .newPlace "c" .internal,
    .newTransition "t" .internal, .newArc "a" (.transition ⟨0⟩), .newArc (.transition ⟨0⟩) "c",
    .setTokens "a" 2, .addFinalSet ["b", "c"]]

/-- In either order the sides of the last pair have become one place before its turn. -/
theorem mergeAll_rearranged_threePlaces :
    Rearranged [("a", "b"), ("c", "b"), ("a", "c")] [("c", "a"), ("b", "c"), ("a", "b")]
      ∧ ∃ net₁ net₂, mergeAll [("a", "b"), ("c", "b"), ("a", "c")] (run threePlaces) = .ok () net₁
        ∧ mergeAll [("c", "a"), ("b", "c"), ("a", "b")] (run threePlaces) = .ok () net₂
        ∧ net₁.Agrees net₂ ∧ net₁.statistics = net₂.statistics := by
  have hpairs :
      Rearranged [("a", "b"), ("c", "b"), ("a", "c")] [("c", "a"), ("b", "c"), ("a", "b")] :=
    ⟨[("a", "b"), ("b", "c"), ("c", "a")],
      .cons (.inl rfl) (.cons (.inr rfl) (.cons (.inr rfl) .nil)), by decide⟩
  have h₁ : mergeAll [("a", "b"), ("c", "b"), ("a", "c")] (run threePlaces)
      = .ok () ((mergeAll [("a", "b"), ("c", "b"), ("a", "c")]).after (run threePlaces)) := by rfl
  have h₂ : mergeAll [("c", "a"), ("b", "c"), ("a", "b")] (run threePlaces)
      = .ok () ((mergeAll [("c", "a"), ("b", "c"), ("a", "b")]).after (run threePlaces)) := by rfl
  exact ⟨hpairs, _, _, h₁, h₂, mergeAll_rearranged threePlaces hpairs h₁ h₂⟩

end Net

end OpenWorkflow
