import OpenWorkflow.Proofs.Drawing.Census
import OpenWorkflow.Proofs.Drawing.Renaming
import OpenWorkflow.Proofs.Net.Isomorphism

/-!
# Congruent drawings

A renaming carries one drawing over to another if every line is found there under
its new names, where joins may become chains of joins. If a second renaming
carries the lines back, and brings every name back to one that it is joined with,
the drawings are congruent. Two activities whose drawings are congruent have nets that are
isomorphic (`compile_isomorphic`): a place goes where its names go, which is one
place since all of them are joined.
-/

namespace OpenWorkflow

variable {f f' : String → String} {L L' : List Line}

/-- The renaming carries the lines over and keeps the names of the boundary. -/
structure Carries (f : String → String) (L L' : List Line) : Prop where
  place : ∀ {n kind}, .place n kind ∈ L → .place (f n) kind ∈ L'
  joins : ∀ {n n'}, .joins n n' ∈ L → Joined L' (f n) (f n')
  transition : ∀ {t kind}, .transition t kind ∈ L → .transition (f t) kind ∈ L' ∧ SameLabel t (f t)
  arc : ∀ {flow n t}, .arc flow n t ∈ L → .arc flow (f n) (f t) ∈ L'
  first : f (Scope.initialized ⟨0⟩) = Scope.initialized ⟨0⟩
  last : f (Scope.closed ⟨0⟩) = Scope.closed ⟨0⟩

/-- The second renaming brings names back to where the first one took them from. -/
structure Restores (f f' : String → String) (L : List Line) : Prop where
  place : ∀ {n kind}, .place n kind ∈ L → Joined L (f' (f n)) n
  transition : ∀ {t kind}, .transition t kind ∈ L → f' (f t) = t

/-- Renamings carry the lines of either drawing over to the other one and undo each other. -/
def Congruent (L L' : List Line) : Prop :=
  ∃ f f', Carries f L L' ∧ Carries f' L' L ∧ Restores f f' L ∧ Restores f' f L'

/-- Joined names are carried to joined names. -/
theorem Carries.joined (h : Carries f L L') {n n' : String} (hn : Joined L n n') :
    Joined L' (f n) (f n') := by
  induction hn with
  | rel n n' hmem => exact h.joins hmem
  | refl n => exact .refl _
  | symm n n' _ ih => exact ih.symm
  | trans n m n' _ _ ih ih' => exact ih.trans ih'

/-- In the drawing of an activity, the kind of a place goes with each of its names. -/
theorem Net.Shows.kind_of_place {root : Activity} {net : Net} (h : net.Shows root.sheet)
    {n : String} {kind : NodeKind} {x : PlaceId} {p : Place} (hline : .place n kind ∈ root.sheet)
    (hn : net.find? n = some x) (hp : net.place? x = some p) : p.kind = kind := by
  rcases Activity.place_cases hline with ⟨rfl, hnum⟩ | ⟨s, m, -, rfl, rfl⟩
  · exact (h.internal_iff hn hp).2 hnum
  · exact h.kind_of_find hn hp

/-- In the drawing of an activity, a transition has one kind. -/
theorem Activity.transition_unique {root : Activity} {t : String} {kind kind' : NodeKind}
    (h : .transition t kind ∈ root.sheet) (h' : .transition t kind' ∈ root.sheet) :
    kind = kind' := by
  rcases transition_cases h with ⟨rfl, hnone⟩ | ⟨s, m, hx, ht, rfl⟩
  · rcases transition_cases h' with ⟨rfl, -⟩ | ⟨s', m', hx', ht', -⟩
    · rfl
    · exact absurd ht' (hnone s' m' hx')
  · rcases transition_cases h' with ⟨-, hnone⟩ | ⟨s', m', hx', ht', rfl⟩
    · exact absurd ht (hnone s m hx)
    · obtain ⟨rfl, -⟩ := Scope.name_inj.1 (ht.symm.trans ht')
      rw [hx.unique hx']

/-- The map `F` of places and the map `G` of transitions go along with the renaming. -/
structure Follows (f : String → String) (net net' : Net) (F : PlaceId → PlaceId)
    (G : TransitionId → TransitionId) : Prop where
  place : ∀ {n x}, net.find? n = some x → net'.find? (f n) = some (F x)
  transition : ∀ {t u}, net.findTransition? t = some u → net'.findTransition? (f t) = some (G u)

namespace Carries

variable {net net' : Net} (h : Carries f L L') (hL : net.Shows L) (hL' : net'.Shows L')
include h hL hL'

/-- All names of a place lead to one place of the other net. -/
theorem exists_placeMap :
    ∃ F : PlaceId → PlaceId, ∀ {n x}, net.find? n = some x → net'.find? (f n) = some (F x) := by
  have hknows {n : String} (hn : net.Knows n) : net'.Knows (f n) := by
    obtain ⟨kind, hline⟩ := hL.known.1 hn
    exact hL'.known.2 ⟨kind, h.place hline⟩
  have hplace (x : PlaceId) : ∃ y, ∀ n, net.find? n = some x → net'.find? (f n) = some y := by
    by_cases hx : ∃ n, net.find? n = some x
    · obtain ⟨n, hn⟩ := hx
      obtain ⟨y, hy⟩ := Net.knows_iff.1 (hknows (Net.knows_of_find hn))
      refine ⟨y, fun n' hn' => ?_⟩
      have hjoined := (hL.joined (Net.knows_of_find hn) (Net.knows_of_find hn')).1
        (hn.trans hn'.symm)
      have hsame := (hL'.joined (hknows (Net.knows_of_find hn))
        (hknows (Net.knows_of_find hn'))).2 (h.joined hjoined)
      exact hsame.symm.trans hy
    · exact ⟨x, fun n hn => absurd ⟨n, hn⟩ hx⟩
  choose F hF using hplace
  exact ⟨F, fun {n x} => hF x n⟩

theorem exists_transitionMap :
    ∃ G : TransitionId → TransitionId, ∀ {t u}, net.findTransition? t = some u →
      net'.findTransition? (f t) = some (G u) := by
  have htransition (u : TransitionId) :
      ∃ v, ∀ t, net.findTransition? t = some u → net'.findTransition? (f t) = some v := by
    by_cases hu : ∃ t, net.findTransition? t = some u
    · obtain ⟨t, ht⟩ := hu
      obtain ⟨kind, hline⟩ := hL.transition.1 (Option.isSome_of_eq_some ht)
      obtain ⟨v, hv⟩ :=
        Option.isSome_iff_exists.1 (hL'.transition.2 ⟨kind, (h.transition hline).1⟩)
      refine ⟨v, fun t' ht' => ?_⟩
      rwa [hL.wellFormed.name_inj ht' ht]
    · exact ⟨u, fun t ht => absurd ⟨t, ht⟩ hu⟩
  choose G hG using htransition
  exact ⟨G, fun {t u} => hG u t⟩

/-- Some maps of places and transitions follow the names. -/
theorem exists_follows : ∃ F G, Follows f net net' F G := by
  obtain ⟨F, hF⟩ := h.exists_placeMap hL hL'
  obtain ⟨G, hG⟩ := h.exists_transitionMap hL hL'
  exact ⟨F, G, hF, hG⟩

end Carries

variable {net net' : Net} {F F' : PlaceId → PlaceId} {G G' : TransitionId → TransitionId}

/-- Maps that go along with renamings undo each other where the renamings do. -/
theorem Restores.undoes (h : Restores f f' L) (hL : net.Shows L) (hto : Follows f net net' F G)
    (hfrom : Follows f' net' net F' G') : net.Undoes F G F' G' where
  place {x p} hp := by
    obtain ⟨n, hn, hline⟩ := hL.kind hp
    have hback := hfrom.place (hto.place hn)
    have hsame := (hL.joined (Net.knows_of_find hback) (Net.knows_of_find hn)).2 (h.place hline)
    rw [hback, hn] at hsame
    exact Option.some.inj hsame
  transition {t tr} ht := by
    have hname := hL.wellFormed.indexed.2 ⟨tr, ht, rfl⟩
    have hback := hfrom.transition (hto.transition hname)
    rw [h.transition (hL.transition_kind ht), hname] at hback
    exact (Option.some.inj hback).symm

/-! ## Nets of activities -/

section Nets

variable {root root' : Activity}

/-- Maps that go along with a renaming and can be undone are a morphism. -/
theorem Carries.morphism (h : Carries f root.sheet root'.sheet) (hok : compile root = .ok net)
    (hok' : compile root' = .ok net') (hto : Follows f net net' F G)
    (hback : net.Undoes F G F' G') : net.Morphism net' F G := by
  have hshows := compile_shows hok
  have hshows' := compile_shows hok'
  obtain ⟨-, i, c, hbounds⟩ := compile_bounds hok
  obtain ⟨-, i', c', hbounds'⟩ := compile_bounds hok'
  have hfirst : F i = i' := by
    have hi := hto.place hbounds.first
    rw [h.first, hbounds'.first] at hi
    exact (Option.some.inj hi).symm
  have hlast : F c = c' := by
    have hc := hto.place hbounds.last
    rw [h.last, hbounds'.last] at hc
    exact (Option.some.inj hc).symm
  -- The marked and the final place can be told by where they go.
  have hiff {x y : PlaceId} {p : Place} {n : String} (hp : net.place? x = some p)
      (hn : net.find? n = some y) : F x = F y ↔ x = y := by
    obtain ⟨q, hq⟩ := hshows.wellFormed.live_of_find hn
    constructor
    · intro heq
      rw [← hback.place hp, heq, hback.place hq]
    · rintro rfl
      rfl
  constructor
  · intro x p hp
    obtain ⟨n, hn, hline⟩ := hshows.kind hp
    obtain ⟨p', hp'⟩ := hshows'.wellFormed.live_of_find (hto.place hn)
    refine ⟨p', hp', hshows'.kind_of_place (h.place hline) (hto.place hn) hp', ?_, ?_⟩
    · rw [hbounds'.tokens hp', hbounds.tokens hp, ← hfirst]
      simp only [hiff hp hbounds.first]
    · rw [Bool.eq_iff_iff, hbounds'.flagged hp', hbounds.flagged hp, ← hlast,
        hiff hp hbounds.last]
  · intro t tr ht
    have hname := hshows.wellFormed.indexed.2 ⟨tr, ht, rfl⟩
    obtain ⟨hline, hlabel⟩ := h.transition (hshows.transition_kind ht)
    obtain ⟨tr', htr', hname'⟩ := hshows'.wellFormed.indexed.1 (hto.transition hname)
    have hline' := hshows'.transition_kind htr'
    rw [hname'] at hline'
    exact ⟨tr', htr', Activity.transition_unique hline' hline, hname' ▸ hlabel⟩
  · intro flow x t harc
    obtain ⟨n, t, hn, ht, hline⟩ := hshows.arc.1 harc
    exact hshows'.arc.2 ⟨f n, f t, hto.place hn, hto.transition ht, h.arc hline⟩
  · rw [hbounds.finals, hbounds'.finals, ← hlast]
    refine .cons (fun x hx => ?_) .nil
    obtain rfl := List.mem_singleton.1 hx
    exact List.mem_singleton_self _

/-- Activities whose drawings are congruent have isomorphic nets. -/
theorem compile_isomorphic (h : Congruent root.sheet root'.sheet) (hok : compile root = .ok net)
    (hok' : compile root' = .ok net') : net.Isomorphic net' := by
  have hshows := compile_shows hok
  have hshows' := compile_shows hok'
  obtain ⟨f, f', hto, hfrom, hback, hforth⟩ := h
  obtain ⟨F, G, hF⟩ := hto.exists_follows hshows hshows'
  obtain ⟨F', G', hF'⟩ := hfrom.exists_follows hshows' hshows
  have hundo := hback.undoes hshows hF hF'
  have hredo := hforth.undoes hshows' hF' hF
  exact ⟨F, G, F', G', hto.morphism hok hok' hF hundo, hfrom.morphism hok' hok hF' hredo, hundo,
    hredo⟩

end Nets

/-! ## Renamings of numbers -/

section Numbers

variable {root : Activity}

/-- The line is in the drawing, or it joins what is joined without it. -/
def Implied (L : List Line) (l : Line) : Prop := l ∈ L ∨ ∃ n n', l = .joins n n' ∧ Joined L n n'

theorem implied_joins {n n' : String} : Implied L (.joins n n') ↔ Joined L n n' := by
  constructor
  · rintro (hl | ⟨_, _, heq, hjoined⟩)
    · exact .of_mem hl
    · injection heq with hn hn'
      rwa [hn, hn']
  · exact fun h => .inr ⟨n, n', rfl, h⟩

/-- A renaming carries a drawing over if it does so line by line. -/
theorem Carries.of_lines (hlines : ∀ l ∈ L, Implied L' (l.map f))
    (hlabel : ∀ t kind, .transition t kind ∈ L → SameLabel t (f t))
    (hfirst : f (Scope.initialized ⟨0⟩) = Scope.initialized ⟨0⟩)
    (hlast : f (Scope.closed ⟨0⟩) = Scope.closed ⟨0⟩) : Carries f L L' where
  place hl := by simpa [Implied] using hlines _ hl
  joins hl := implied_joins.1 (hlines _ hl)
  transition hl := ⟨by simpa [Implied] using hlines _ hl, hlabel _ _ hl⟩
  arc hl := by simpa [Implied] using hlines _ hl
  first := hfirst
  last := hlast

theorem Activity.mem_sheet {l : Line} :
    l ∈ root.sheet ↔
      l ∈ spliceLines (Scope.initialized ⟨0⟩) (Scope.closed ⟨0⟩) ⟨1⟩ ∨ l ∈ endLines ⟨0⟩ ∨
        l ∈ root.drawing 1 := by
  simp only [sheet, spliceLines, List.mem_cons, List.mem_append, List.not_mem_nil]
  tauto

/-- The transitions in the drawing of an activity have the numbers of their fragments. -/
theorem Activity.transition_numbered {t : String} {kind : NodeKind}
    (h : .transition t kind ∈ root.sheet) :
    ∃ i b x, root.walk[i]? = some b ∧ .transition t kind ∈ b.lines (1 + i) ∧
      t = Scope.name ⟨1 + i⟩ x := by
  have hdrawing : .transition t kind ∈ root.drawing 1 := by simpa [sheet, endLines] using h
  obtain ⟨i, b, hb, hl⟩ := mem_drawing.1 hdrawing
  obtain ⟨x, ht⟩ := owns_of_transition hl
  exact ⟨i, b, x, hb, hl, ht⟩

/-- What has the number is renamed to what has another one, and back. -/
def Returns (f f' : String → String) (s : Scope) : Prop :=
  ∃ s', Renumbers f s s' ∧ Renumbers f' s' s

theorem Returns.name {s : Scope} (h : Returns f f' s) (x : String) :
    f' (f (s.name x)) = s.name x := by
  obtain ⟨s', hto, hfrom⟩ := h
  rw [hto.name, hfrom.name]

/-- The places of unmistakable messages return as well. -/
theorem Returns.message {s : Scope} (h : Returns f f' s) {m : Messaging} (hm : m.Unmistakable) :
    f' (f (m.placeName s)) = m.placeName s := by
  obtain ⟨s', hto, hfrom⟩ := h
  rw [hto.message m hm, hfrom.message m hm]

/-- Renamings that bring back all numbers, apart from places that are joined to others. -/
theorem Restores.of_returns (hu : ∀ b ∈ root.walk, b.Unmistakable)
    (hplace : ∀ s x kind, .place (Scope.name s x) kind ∈ root.sheet →
      Joined root.sheet (f' (f (s.name x))) (s.name x))
    (hexchange : ∀ s m, root.Exchanges s m → Returns f f' s)
    (htransition : ∀ s x kind, .transition (Scope.name s x) kind ∈ root.sheet →
      Returns f f' s) : Restores f f' root.sheet where
  place {n kind} hline := by
    rcases Activity.place_cases hline with ⟨-, s, x, rfl⟩ | ⟨s, m, hx, rfl, -⟩
    · exact hplace s x kind hline
    · obtain ⟨i, hi, -⟩ := id hx
      rw [(hexchange s m hx).message (hu _ (List.mem_of_getElem? hi) m rfl)]
      exact .refl _
  transition {t kind} hline := by
    obtain ⟨i, b, x, -, -, rfl⟩ := Activity.transition_numbered hline
    exact (htransition _ x kind hline).name x

/-- A renaming that returns in every fragment restores the sheet. -/
theorem Restores.of_all_returns (hu : ∀ b ∈ root.walk, b.Unmistakable)
    (h : ∀ s, Returns f f' s) : Restores f f' root.sheet := by
  refine .of_returns hu (fun s x _ _ => ?_) (fun s _ _ => h s) fun s _ _ _ => h s
  rw [(h s).name]
  exact .refl _

end Numbers

end OpenWorkflow
