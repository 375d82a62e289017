import OpenWorkflow.Proofs.Drawing.Basic

/-!
# Isomorphic nets

A morphism takes the places and transitions of one net to those of another and
keeps all that the token game depends on: kinds, tokens, final flags, final sets
and arcs. It also keeps the names of transitions up to the numbers of their
fragments. Two nets are isomorphic if there are morphisms both ways that undo each
other; handles, names of places and ports have no part in it.
-/

namespace OpenWorkflow

/-- The names differ in the numbers of their fragments at most. -/
def SameLabel (t t' : String) : Prop :=
  t = t' ∨ ∃ s s' x, t = Scope.name s x ∧ t' = Scope.name s' x

namespace SameLabel

variable {t t' t'' : String}

theorem refl (t : String) : SameLabel t t := .inl rfl

theorem trans (h : SameLabel t t') (h' : SameLabel t' t'') : SameLabel t t'' := by
  rcases h with rfl | ⟨s, s', x, rfl, rfl⟩
  · exact h'
  · rcases h' with rfl | ⟨r, r', y, hx, rfl⟩
    · exact .inr ⟨s, s', x, rfl, rfl⟩
    · obtain ⟨-, rfl⟩ := Scope.name_inj.1 hx
      exact .inr ⟨s, r', x, rfl, rfl⟩

end SameLabel

/-- Lists that match member by member can be matched through a third one. -/
theorem forall₂_comp {α β γ : Type} {R : α → β → Prop} {S : β → γ → Prop} {T : α → γ → Prop}
    (hT : ∀ a b c, R a b → S b c → T a c) {as : List α} {bs : List β} {cs : List γ}
    (h : List.Forall₂ R as bs) (h' : List.Forall₂ S bs cs) : List.Forall₂ T as cs := by
  induction h generalizing cs with
  | nil =>
    cases h'
    exact .nil
  | cons hab _ ih =>
    cases h' with
    | cons hbc h' => exact .cons (hT _ _ _ hab hbc) (ih h')

namespace Net

/-- The maps keep what the nets are made of. -/
structure Morphism (net net' : Net) (f : PlaceId → PlaceId) (g : TransitionId → TransitionId) :
    Prop where
  place : ∀ {x p}, net.place? x = some p → ∃ p', net'.place? (f x) = some p' ∧
    p'.kind = p.kind ∧ p'.tokens = p.tokens ∧ p'.isFinal = p.isFinal
  transition : ∀ {t tr}, net.transition? t = some tr → ∃ tr', net'.transition? (g t) = some tr' ∧
    tr'.kind = tr.kind ∧ SameLabel tr.name tr'.name
  arc : ∀ {flow x t}, ArcKind.arc flow x t ∈ net.arcs → flow.arc (f x) (g t) ∈ net'.arcs
  finalSets : List.Forall₂ (fun set set' => ∀ x ∈ set, f x ∈ set') net.finalSets net'.finalSets

/-- The second pair of maps takes the places and transitions of the net back to where the first
pair took them from. -/
structure Undoes (net : Net) (f : PlaceId → PlaceId) (g : TransitionId → TransitionId)
    (f' : PlaceId → PlaceId) (g' : TransitionId → TransitionId) : Prop where
  place : ∀ {x p}, net.place? x = some p → f' (f x) = x
  transition : ∀ {t tr}, net.transition? t = some tr → g' (g t) = t

/-- There are morphisms both ways that undo each other. -/
def Isomorphic (net net' : Net) : Prop :=
  ∃ f g f' g', net.Morphism net' f g ∧ net'.Morphism net f' g' ∧
    net.Undoes f g f' g' ∧ net'.Undoes f' g' f g

variable {net net' net'' : Net} {f f' : PlaceId → PlaceId} {g g' : TransitionId → TransitionId}

/-- Morphisms can be composed. -/
theorem Morphism.trans (h : net.Morphism net' f g) (h' : net'.Morphism net'' f' g') :
    net.Morphism net'' (f' ∘ f) (g' ∘ g) where
  place hp := by
    obtain ⟨p', hp', hkind, htokens, hfinal⟩ := h.place hp
    obtain ⟨p'', hp'', hkind', htokens', hfinal'⟩ := h'.place hp'
    exact ⟨p'', hp'', hkind'.trans hkind, htokens'.trans htokens, hfinal'.trans hfinal⟩
  transition ht := by
    obtain ⟨tr', htr', hkind, hname⟩ := h.transition ht
    obtain ⟨tr'', htr'', hkind', hname'⟩ := h'.transition htr'
    exact ⟨tr'', htr'', hkind'.trans hkind, hname.trans hname'⟩
  arc harc := h'.arc (h.arc harc)
  finalSets :=
    forall₂_comp (fun _ _ _ hset hset' x hx => hset' _ (hset x hx)) h.finalSets h'.finalSets

namespace Isomorphic

theorem refl (net : Net) : net.Isomorphic net := by
  have hmorphism : net.Morphism net id id := {
    place := fun hp => ⟨_, hp, rfl, rfl, rfl⟩
    transition := fun ht => ⟨_, ht, rfl, .refl _⟩
    arc := fun harc => harc
    finalSets := List.forall₂_same.2 fun _ _ _ hx => hx }
  exact ⟨id, id, id, id, hmorphism, hmorphism, ⟨fun _ => rfl, fun _ => rfl⟩,
    ⟨fun _ => rfl, fun _ => rfl⟩⟩

theorem symm (h : net.Isomorphic net') : net'.Isomorphic net := by
  obtain ⟨f, g, f', g', hto, hfrom, hback, hforth⟩ := h
  exact ⟨f', g', f, g, hfrom, hto, hforth, hback⟩

theorem trans (h : net.Isomorphic net') (h' : net'.Isomorphic net'') : net.Isomorphic net'' := by
  obtain ⟨f, g, f', g', hto, hfrom, hback, hforth⟩ := h
  obtain ⟨f₁, g₁, f₁', g₁', hto₁, hfrom₁, hback₁, hforth₁⟩ := h'
  refine ⟨f₁ ∘ f, g₁ ∘ g, f' ∘ f₁', g' ∘ g₁', hto.trans hto₁, hfrom₁.trans hfrom, ⟨?_, ?_⟩,
    ⟨?_, ?_⟩⟩
  · intro x p hp
    obtain ⟨p', hp', -⟩ := hto.place hp
    simp only [Function.comp_apply, hback₁.place hp', hback.place hp]
  · intro t tr ht
    obtain ⟨tr', ht', -⟩ := hto.transition ht
    simp only [Function.comp_apply, hback₁.transition ht', hback.transition ht]
  · intro x p hp
    obtain ⟨p', hp', -⟩ := hfrom₁.place hp
    simp only [Function.comp_apply, hforth.place hp', hforth₁.place hp]
  · intro t tr ht
    obtain ⟨tr', ht', -⟩ := hfrom₁.transition ht
    simp only [Function.comp_apply, hforth.transition ht', hforth₁.transition ht]

end Isomorphic

end Net

end OpenWorkflow
