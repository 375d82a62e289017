import OpenWorkflow.Proofs.Drawing.Activity
import OpenWorkflow.Proofs.Drawing.Nets
import OpenWorkflow.Proofs.GuardChain.Moves
import OpenWorkflow.Proofs.TokenGame.Runs

/-!
# Runs of a guard chain

The token game of the transitions of a guard chain, started with one token where
the trigger has fired. The transitions move the token along the chain
(`Grown.namedSteps_iff`). Wherever a candidate can be tried next, the guards before
it have failed since the chain was entered (`Ready`), and every move keeps it so
(`Grown.ready_concat`). Hence the candidates are tried in order
(`compile_tries_in_order`).
-/

namespace OpenWorkflow

open Fragment.StateMachine (Candidate GuardChain)
open Activity (candidateLines guardLines)
open TokenGame (Step Run token move)

/-! ## The chain in a net -/

/-- The step of a transition, in which all its places have a part. -/
def Transition.fullStep (tr : Transition) : Step PlaceId where
  pre := tr.preset.toList.toFinset
  post := tr.postset.toList.toFinset

namespace Net

/-- The steps of the transitions with the names. -/
def namedSteps (net : Net) (names : List String) (t : String) (s : Step PlaceId) : Prop :=
  t ∈ names ∧ ∃ u tr, net.findTransition? t = some u ∧ net.transition? u = some tr ∧
    tr.fullStep = s

/-- Where nothing is joined, names lead where they led before. -/
theorem Traced.find?_of_joinless {net net' : Net} {L : List Line} (h : net.Traced L net')
    (hL : ∀ a b, .joins a b ∉ L) {n : String} {p : PlaceId} (hp : net.find? n = some p) :
    net'.find? n = some p := by
  induction h with
  | blank => exact hp
  | line _ hdoes ih =>
    have hmid := ih fun a b hab => hL a b (List.mem_cons_of_mem _ hab)
    cases hdoes with
    | place hfresh => exact find?_addPlace_of_some hfresh hmid
    | arc _ _ => rwa [find?, names_connect]
    | joins _ _ _ => exact absurd (List.mem_cons_self ..) (hL _ _)
    | _ => exact hmid
  | number _ ih => exact ih hL
  | perm _ hperm ih => exact ih fun a b hab => hL a b (hperm.mem_iff.1 hab)

end Net

namespace Fragment.StateMachine.GuardChain

theorem joins_not_mem_candidateLines (c : GuardChain) (k : Nat) (last : String)
    (bs : List Candidate) (n n' : String) : .joins n n' ∉ candidateLines c k last bs := by
  induction bs generalizing k last with
  | nil => simp [candidateLines]
  | cons b bs ih =>
    unfold candidateLines
    cases b.guarded <;> cases bs.isEmpty <;> simp [ih]

/-- A guard chain joins no places. -/
theorem joins_not_mem_guardLines (c : GuardChain) (fired on : String) (bs : List Candidate)
    (n n' : String) : .joins n n' ∉ guardLines c fired on bs := by
  simp [guardLines, joins_not_mem_candidateLines]

/-- A net and what a guard chain has made of it. The nodes of the chain are new, the places that
it leads from and to were there. -/
structure Grown (c : GuardChain) (fired on : String) (bs : List Candidate) (net net' : Net) :
    Prop where
  wellFormed : net.WellFormed
  ok : c.compile fired on bs net = .ok () net'
  places : ∀ n ∈ c.places bs, net.find? n = none
  transitions : ∀ t ∈ c.transitions on bs, net.findTransition? t = none
  apart : on ∉ c.candidateTransitions 1 bs
  fired : net.Knows fired
  waiting : net.Knows c.waiting
  action : ∀ b ∈ bs, net.Knows (c.action b)

/-- A move of the chain between the places of the net. -/
def Moves (c : GuardChain) (fired on : String) (bs : List Candidate) (net : Net) (t : String)
    (p q : PlaceId) : Prop :=
  ∃ n n', c.Hops fired on bs t n n' ∧ net.find? n = some p ∧ net.find? n' = some q

namespace Grown

variable {c : GuardChain} {fired on : String} {bs : List Candidate} {net net' : Net}
  (h : c.Grown fired on bs net net')
include h

/-- What the chain has drawn. -/
theorem traced : net.Traced (guardLines c fired on bs) net' := by
  have hdraws : Draws True (.inside fired :: .inside c.waiting :: bs.map (.inside <| c.action ·))
      net.scope (c.compile fired on bs) [] (guardLines c fired on bs) fun _ => True :=
    .guardChain on (by simp) (by simp) fun b hb => by simpa using .inr (.inr ⟨b, hb, rfl⟩)
  have hends := hdraws net h.wellFormed rfl ?_ fun _ h => absurd h List.not_mem_nil
  · simpa [Activity.draw] using (hends.ok h.ok).1.traced
  -- Which places are there does not matter where links may lead nowhere.
  · simp [Net.Has]

/-- The net shows the chain on top of what was there. -/
theorem shows : net'.Shows (guardLines c fired on bs ++ net.lines) :=
  h.traced.shows h.wellFormed.shows_lines

/-- The places that were there keep their names. -/
theorem find?_eq {n : String} {p : PlaceId} (hp : net.find? n = some p) :
    net'.find? n = some p :=
  h.traced.find?_of_joinless (joins_not_mem_guardLines c fired on bs) hp

/-- A place of the chain has one name. -/
theorem eq_of_find? {n m : String} {p : PlaceId} (hn : n ∈ c.places bs)
    (hp : net'.find? n = some p) (hp' : net'.find? m = some p) : m = n := by
  have hjoined := (h.shows.joined (Net.knows_of_find hp) (Net.knows_of_find hp')).1
    (hp.trans hp'.symm)
  refine hjoined.eq_of_untied fun a b hab => ?_
  rcases List.mem_append.1 hab with hab | hab
  · exact absurd hab (joins_not_mem_guardLines _ _ _ _ _ _)
  · obtain ⟨ha, hb⟩ := h.wellFormed.shows_lines.ties hab
    have hunknown : ¬ net.Knows n := by
      simp [Net.Knows, h.places n hn]
    exact ⟨fun heq => hunknown (heq ▸ ha), fun heq => hunknown (heq ▸ hb)⟩

/-- The chain has no place of its own with a name that was there. -/
theorem not_mem_places {n : String} (hn : net.Knows n) : n ∉ c.places bs := by
  intro hmem
  rw [Net.Knows, h.places n hmem] at hn
  cases hn

/-- The arcs at a transition of the chain are those of its move. -/
theorem arc_iff {flow : ArcKind} {n n' t : String} {p x : PlaceId} {u : TransitionId}
    (hhops : c.Hops fired on bs t n n') (hu : net'.findTransition? t = some u)
    (hp : net'.find? (flow.pick n n') = some p) : flow.arc x u ∈ net'.arcs ↔ x = p := by
  rw [h.shows.arc]
  constructor
  · rintro ⟨m, t', hx, hu', hline⟩
    obtain rfl := h.shows.wellFormed.name_inj hu' hu
    rcases List.mem_append.1 hline with hline | hline
    · obtain ⟨m, m', hhops', rfl⟩ := arc_mem_guardLines.1 hline
      obtain ⟨rfl, rfl⟩ := hhops.unique h.apart hhops'
      exact Option.some.inj (hx.symm.trans hp)
    · -- The net has no arcs at a transition that it does not have.
      have hknown := (h.wellFormed.shows_lines.ends hline).2
      rw [h.transitions t' (mem_transitions.2 ⟨n, n', hhops⟩)] at hknown
      cases hknown
  · rintro rfl
    exact ⟨_, t, hp, hu, List.mem_append_left _ (arc_mem_guardLines.2 ⟨n, n', hhops, rfl⟩)⟩

/-- The ends of a move are places of the net, and the transition is there. -/
theorem ends_of_hops {n n' t : String} (hhops : c.Hops fired on bs t n n') (flow : ArcKind) :
    (∃ p, net'.find? (flow.pick n n') = some p) ∧ ∃ u, net'.findTransition? t = some u := by
  have hline : .arc flow (flow.pick n n') t ∈ guardLines c fired on bs :=
    arc_mem_guardLines.2 ⟨n, n', hhops, rfl⟩
  obtain ⟨hn, ht⟩ := h.shows.ends (List.mem_append_left _ hline)
  exact ⟨Net.knows_iff.1 hn, Option.isSome_iff_exists.1 ht⟩

/-- The steps of the chain are its moves. -/
theorem namedSteps_iff (t : String) (s : Step PlaceId) :
    net'.namedSteps (c.transitions on bs) t s ↔
      ∃ p q, c.Moves fired on bs net' t p q ∧ s = move p q := by
  have hstep {n n' : String} {p q : PlaceId} {u : TransitionId} {tr : Transition}
      (hhops : c.Hops fired on bs t n n') (hp : net'.find? n = some p)
      (hq : net'.find? n' = some q) (hu : net'.findTransition? t = some u)
      (htr : net'.transition? u = some tr) : tr.fullStep = move p q := by
    apply TokenGame.eq_move
    · intro x
      show x ∈ tr.preset.toList.toFinset ↔ _
      rw [List.mem_toFinset, ← OrderedSet.mem_def, h.shows.wellFormed.mem_preset htr]
      exact h.arc_iff hhops hu hp
    · intro x
      show x ∈ tr.postset.toList.toFinset ↔ _
      rw [List.mem_toFinset, ← OrderedSet.mem_def, h.shows.wellFormed.mem_postset htr]
      exact h.arc_iff hhops hu hq
  constructor
  · rintro ⟨ht, u, tr, hu, htr, rfl⟩
    obtain ⟨n, n', hhops⟩ := mem_transitions.1 ht
    obtain ⟨⟨p, hp⟩, -⟩ := h.ends_of_hops hhops .consumes
    obtain ⟨⟨q, hq⟩, -⟩ := h.ends_of_hops hhops .produces
    exact ⟨p, q, ⟨n, n', hhops, hp, hq⟩, hstep hhops hp hq hu htr⟩
  · rintro ⟨p, q, ⟨n, n', hhops, hp, hq⟩, rfl⟩
    obtain ⟨-, u, hu⟩ := h.ends_of_hops hhops .consumes
    obtain ⟨tr, htr, -⟩ := h.shows.wellFormed.indexed.1 hu
    exact ⟨mem_transitions.2 ⟨n, n', hhops⟩, u, tr, hu, htr, hstep hhops hp hq hu htr⟩

end Grown

/-! ## Runs of the chain -/

/-- Since the chain was entered the last time, the guards before the `k`-th candidate, counted from
zero, have failed. -/
def Failed (c : GuardChain) (on : String) (bs : List Candidate) (w : List String) (k : Nat) :
    Prop :=
  ∃ u v, w = u ++ on :: v ∧ on ∉ v ∧
    ∀ j b, j < k → bs[j]? = some b → b.guarded = true → c.node "wrong" (j + 1) ∈ v

/-- Wherever a candidate can be tried next, the guards before it have failed. -/
def Ready (c : GuardChain) (on : String) (bs : List Candidate) (net : Net) (w : List String)
    (p : PlaceId) : Prop :=
  ∀ pre b post d n n', bs = pre ++ b :: post → c.Tries pre b post d n n' → net.find? n = some p →
    c.Failed on bs w pre.length

section Failed

variable {c : GuardChain} {on t : String} {bs pre post : List Candidate} {w : List String} {k : Nat}

/-- Another step that is not the trigger. -/
theorem Failed.concat (h : c.Failed on bs w k) (ht : t ≠ on) : c.Failed on bs (w ++ [t]) k := by
  obtain ⟨u, v, rfl, hv, hwrong⟩ := h
  refine ⟨u, v ++ [t], by simp, by simp [hv, ht.symm], fun j b hj hb hguarded => ?_⟩
  exact List.mem_append_left _ (hwrong j b hj hb hguarded)

/-- One guard more has failed. -/
theorem Failed.succ (h : c.Failed on bs w k) (hne : c.node "wrong" (k + 1) ≠ on) :
    c.Failed on bs (w ++ [c.node "wrong" (k + 1)]) (k + 1) := by
  obtain ⟨u, v, rfl, hv, hwrong⟩ := h
  refine ⟨u, v ++ [c.node "wrong" (k + 1)], by simp, by simp [hv, hne.symm], ?_⟩
  intro j b hj hb hguarded
  rcases Nat.lt_succ_iff_lt_or_eq.1 hj with hlt | rfl
  · exact List.mem_append_left _ (hwrong j b hlt hb hguarded)
  · exact List.mem_append_right _ (List.mem_singleton_self _)

/-- Candidates without guards need not fail. -/
theorem Failed.of_passed {rest : List Candidate} (h : c.Failed on (pre ++ rest) w (passed pre)) :
    c.Failed on (pre ++ rest) w pre.length := by
  obtain ⟨u, v, hw, hv, hwrong⟩ := h
  refine ⟨u, v, hw, hv, fun j b hj hb hguarded => hwrong j b ?_ hb hguarded⟩
  rw [List.getElem?_append_left hj] at hb
  exact lt_passed hb hguarded

end Failed

namespace Grown

variable {c : GuardChain} {fired on : String} {bs : List Candidate} {net net' : Net}
  (h : c.Grown fired on bs net net')
include h

/-- Before the chain is entered nothing can be tried. -/
theorem ready_nil {p : PlaceId} (hp : net.find? fired = some p) : c.Ready on bs net' [] p := by
  intro pre b post d n n' hsplit htries hn
  have hmem := htries.source_mem hsplit
  obtain rfl := h.eq_of_find? hmem hn (h.find?_eq hp)
  exact absurd hmem (h.not_mem_places h.fired)

/-- Every move keeps it so. -/
theorem ready_concat {w : List String} {t : String} {p q : PlaceId} (hw : c.Ready on bs net' w p)
    (hmove : c.Moves fired on bs net' t p q) : c.Ready on bs net' (w ++ [t]) q := by
  obtain ⟨n, n', hhops, hp, hq⟩ := hmove
  intro pre b post d m m' hsplit htries hm
  have hmem := htries.source_mem hsplit
  -- The token has come to the place from which the candidate is tried.
  obtain rfl := h.eq_of_find? hmem hm hq
  cases hhops with
  | enter =>
    have hpassed : passed pre = 0 := htries.of_runcondition
    have hentered : c.Failed on bs (w ++ [on]) (passed pre) :=
      ⟨w, [], rfl, List.not_mem_nil, fun j _ hj => by omega⟩
    subst hsplit
    exact hentered.of_passed
  | @tries pre₀ post₀ b₀ d₀ _ _ hsplit₀ htries₀ =>
    have hne : c.node d₀.label (pre₀.length + 1) ≠ on := by
      rintro rfl
      exact h.apart (mem_candidateTransitions_of_tries hsplit₀ htries₀)
    have hfailed := hw pre₀ b₀ post₀ d₀ n n' hsplit₀ htries₀ hp
    have hb₀ : b₀ ∈ bs := by simp [hsplit₀]
    cases htries₀ with
    | eval hb =>
      rw [htries.of_condition]
      exact hfailed.concat hne
    | accept hb => exact absurd hmem (h.not_mem_places (h.action b₀ hb₀))
    | reject hb hpost =>
      have hpassed : passed pre = pre₀.length + 1 := htries.of_runcondition
      have hfailed : c.Failed on bs (w ++ [c.node "wrong" (pre₀.length + 1)]) (passed pre) := by
        rw [hpassed]
        exact hfailed.succ hne
      subst hsplit
      exact hfailed.of_passed
    | back hb hpost => exact absurd hmem (h.not_mem_places h.waiting)
    | free hb => exact absurd hmem (h.not_mem_places (h.action b₀ hb₀))

variable {p q r : PlaceId} {m : PlaceId → Nat} {w : List String}

/-- Wherever the token gets, it is so. -/
theorem ready (hp : net.find? fired = some p)
    (hrun : Run (net'.namedSteps (c.transitions on bs)) (token p) w (token q)) :
    c.Ready on bs net' w q :=
  hrun.invariant h.namedSteps_iff (h.ready_nil hp) fun _ _ _ _ hw hmove => h.ready_concat hw hmove

/-- A candidate is started after the guards before it have failed, and its action gets the
token. -/
theorem of_start {k : Nat} {b : Candidate} (hp : net.find? fired = some p) (hb : bs[k]? = some b)
    (hrun : Run (net'.namedSteps (c.transitions on bs)) (token p)
      (w ++ [c.node "start" (k + 1)]) m) :
    c.Failed on bs w k ∧ ∃ r, net.find? (c.action b) = some r ∧ m = token r := by
  obtain ⟨r, s, hw, ⟨n, n', hhops, hr, hs⟩, rfl⟩ := hrun.of_concat h.namedSteps_iff
  generalize ht : c.node "start" (k + 1) = t at hhops
  cases hhops with
  | enter =>
    obtain ⟨pre, post, hsplit, rfl⟩ := exists_split_of_getElem? hb
    obtain ⟨n, htries⟩ := exists_tries_start (c := c) pre b post
    exact absurd (mem_candidateTransitions_of_tries hsplit htries) (ht ▸ h.apart)
  | @tries pre post b₀ d _ _ hsplit htries =>
    obtain ⟨rfl, hk⟩ := node_label_inj.1 (show c.node Deed.start.label (k + 1) = _ from ht)
    obtain rfl := Nat.succ.inj hk
    have hfailed := h.ready hp hw pre b₀ post .start n n' hsplit htries hr
    have hb₀ : b₀ = b := by
      rw [hsplit, List.getElem?_append_right (Nat.le_refl _)] at hb
      simpa using hb
    subst hb₀
    refine ⟨hfailed, s, ?_, rfl⟩
    obtain ⟨a, ha⟩ := Net.knows_iff.1 (h.action b₀ (List.mem_of_getElem? hb))
    have hs' := h.find?_eq ha
    cases htries with
    | accept _ => exact ha.trans (hs'.symm.trans hs)
    | free _ => exact ha.trans (hs'.symm.trans hs)

end Grown

/-- The token gets from the one place to the other. -/
def Reaches (c : GuardChain) (on : String) (bs : List Candidate) (net : Net) (p q : PlaceId) :
    Prop :=
  ∃ w, w ≠ [] ∧ Run (net.namedSteps (c.transitions on bs)) (token p) w (token q)

namespace Grown

variable {c : GuardChain} {fired on : String} {bs pre post : List Candidate} {b : Candidate}
  {net net' : Net} {p q : PlaceId} (h : c.Grown fired on bs net net')
include h

/-- The token follows the moves of the chain. -/
theorem reaches_hops {n n' t : String} (hn : ∃ r, net'.find? n = some r ∧ c.Reaches on bs net' p r)
    (hhops : c.Hops fired on bs t n n') :
    ∃ r, net'.find? n' = some r ∧ c.Reaches on bs net' p r := by
  obtain ⟨r, hr, w, -, hrun⟩ := hn
  obtain ⟨⟨s, hs⟩, -⟩ := h.ends_of_hops hhops .produces
  refine ⟨s, hs, w ++ [t], by simp, ?_⟩
  exact hrun.moved h.namedSteps_iff ⟨n, n', hhops, hr, hs⟩

/-- The token gets to every candidate. -/
theorem reaches_entry (hp : net.find? fired = some p) (hsplit : bs = pre ++ b :: post) :
    ∃ r, net'.find? (c.entry pre) = some r ∧ c.Reaches on bs net' p r := by
  induction pre using List.reverseRecOn generalizing b post with
  | nil =>
    have henter : c.Hops fired on bs on fired (c.entry []) := .enter
    obtain ⟨⟨r, hr⟩, -⟩ := h.ends_of_hops henter .produces
    have hrun : Run (net'.namedSteps (c.transitions on bs)) (token p) ([] ++ [on]) (token r) :=
      Run.stay.moved h.namedSteps_iff ⟨fired, _, henter, h.find?_eq hp, hr⟩
    exact ⟨r, hr, [on], List.cons_ne_nil on [], hrun⟩
  | append_singleton pre d ih =>
    rw [List.append_assoc, List.singleton_append] at hsplit
    have hbefore := ih hsplit
    rw [entry_concat]
    split
    · have heval := h.reaches_hops hbefore (.tries hsplit (.eval ‹_›))
      exact h.reaches_hops heval (.tries hsplit (.reject ‹_› (List.cons_ne_nil b post)))
    · exact hbefore

/-- The token gets to the place of a guard. -/
theorem reaches_condition (hp : net.find? fired = some p) (hsplit : bs = pre ++ b :: post)
    (hb : b.guarded = true) :
    ∃ r, net'.find? (c.node "condition" (pre.length + 1)) = some r ∧ c.Reaches on bs net' p r :=
  h.reaches_hops (h.reaches_entry hp hsplit) (.tries hsplit (.eval hb))

/-- Every action is reached. -/
theorem reaches_action (hp : net.find? fired = some p) (hsplit : bs = pre ++ b :: post) :
    ∃ r, net'.find? (c.action b) = some r ∧ c.Reaches on bs net' p r := by
  cases hb : b.guarded with
  | true => exact h.reaches_hops (h.reaches_condition hp hsplit hb) (.tries hsplit (.accept hb))
  | false => exact h.reaches_hops (h.reaches_entry hp hsplit) (.tries hsplit (.free hb))

/-- The token comes back to waiting just where a guard is the last resort. -/
theorem reaches_waiting_iff (hp : net.find? fired = some p) (hq : net.find? c.waiting = some q)
    (haction : ∀ b ∈ bs, net.find? (c.action b) ≠ some q) :
    c.Reaches on bs net' p q ↔ ∃ b, bs.getLast? = some b ∧ b.guarded = true := by
  have hq' := h.find?_eq hq
  constructor
  · rintro ⟨w, hne, hrun⟩
    obtain ⟨w, t, rfl⟩ := (List.eq_nil_or_concat w).resolve_left hne
    rw [List.concat_eq_append] at hrun
    obtain ⟨-, s, -, ⟨n, n', hhops, -, hs⟩, heq⟩ := hrun.of_concat h.namedSteps_iff
    obtain rfl := TokenGame.token_injective heq
    have hplace (hmem : n' ∈ c.places bs) : False := by
      obtain rfl := h.eq_of_find? hmem hs hq'
      exact h.not_mem_places h.waiting hmem
    cases hhops with
    | enter => exact absurd (List.mem_cons_self ..) hplace
    | @tries pre post b d _ _ hsplit htries =>
      have hb : b ∈ bs := by simp [hsplit]
      have haction : net'.find? (c.action b) ≠ some q := by
        intro hfind
        obtain ⟨a, ha⟩ := Net.knows_iff.1 (h.action b hb)
        rw [h.find?_eq ha] at hfind
        exact haction b hb (ha.trans hfind)
      cases htries with
      | eval hb => exact absurd (condition_mem_places hsplit hb) hplace
      | accept hb => exact absurd hs haction
      | reject hb hpost => exact absurd (runcondition_mem_places hsplit hb hpost) hplace
      | back hb hpost => exact ⟨b, by simp [hsplit, hpost], hb⟩
      | free hb => exact absurd hs haction
  · rintro ⟨b, hlast, hb⟩
    obtain ⟨pre, hsplit⟩ := List.getLast?_eq_some_iff.1 hlast
    obtain ⟨r, hr, hreaches⟩ :=
      h.reaches_hops (h.reaches_condition hp hsplit hb) (.tries hsplit (.back hb rfl))
    obtain rfl := Option.some.inj (hr.symm.trans hq')
    exact hreaches

end Grown

/-- **Guard chains try their candidates in order.** Take a chain that has been built, with nodes of
its own, in a net where the actions of its candidates start at different places, none of them the
waiting place. One token where the trigger has fired stays one token. A candidate is started only
when all guards before it have failed since the chain was entered, and then the token is where its
own action starts. Every action can be reached, and the token can come back to waiting just if
the last candidate has a guard. -/
theorem compile_tries_in_order (calls : List Call) (c : GuardChain) {fired on : String}
    {bs : List Candidate} {net' : Net} {p q : PlaceId}
    (hfired : (Net.run calls).find? fired = some p)
    (hwaiting : (Net.run calls).find? c.waiting = some q)
    (haction : ∀ b ∈ bs, ∃ r, (Net.run calls).find? (c.action b) = some r ∧ r ≠ q)
    (hapart : bs.Pairwise fun b b' =>
      (Net.run calls).find? (c.action b) ≠ (Net.run calls).find? (c.action b'))
    (hplaces : ∀ n ∈ c.places bs, (Net.run calls).find? n = none)
    (htransitions : ∀ t ∈ c.transitions on bs, (Net.run calls).findTransition? t = none)
    (hon : on ∉ c.candidateTransitions 1 bs)
    (hok : c.compile fired on bs (Net.run calls) = .ok () net') :
    (∀ w m, Run (net'.namedSteps (c.transitions on bs)) (token p) w m → ∃ r, m = token r) ∧
      (∀ k b, bs[k]? = some b → ∀ w m,
        Run (net'.namedSteps (c.transitions on bs)) (token p) (w ++ [c.node "start" (k + 1)]) m →
          (∃ u v, w = u ++ on :: v ∧ on ∉ v ∧
            ∀ j b', j < k → bs[j]? = some b' → b'.guarded = true → c.node "wrong" (j + 1) ∈ v) ∧
          (∃ r, net'.find? (c.action b) = some r ∧ m = token r) ∧
          ∀ j b' r', j ≠ k → bs[j]? = some b' → net'.find? (c.action b') = some r' → m r' = 0) ∧
      (∀ b ∈ bs, ∃ w r, net'.find? (c.action b) = some r ∧
        Run (net'.namedSteps (c.transitions on bs)) (token p) w (token r)) ∧
      ((∃ w, w ≠ [] ∧ Run (net'.namedSteps (c.transitions on bs)) (token p) w (token q)) ↔
        ∃ b, bs.getLast? = some b ∧ b.guarded = true) := by
  have h : c.Grown fired on bs (Net.run calls) net' := {
    wellFormed := Net.wellFormed_run calls
    ok := hok
    places := hplaces
    transitions := htransitions
    apart := hon
    fired := Net.knows_of_find hfired
    waiting := Net.knows_of_find hwaiting
    action := fun b hb => by
      obtain ⟨r, hr, -⟩ := haction b hb
      exact Net.knows_of_find hr }
  refine ⟨fun w m hrun => hrun.exists_token h.namedSteps_iff, ?_, ?_, ?_⟩
  · intro k b hb w m hrun
    obtain ⟨hfailed, r, hr, rfl⟩ := h.of_start hfired hb hrun
    refine ⟨hfailed, ⟨r, h.find?_eq hr, rfl⟩, fun j b' r' hj hb' hr' => ?_⟩
    apply TokenGame.token_of_ne
    rintro rfl
    obtain ⟨a, ha, -⟩ := haction b' (List.mem_of_getElem? hb')
    obtain rfl := Option.some.inj ((h.find?_eq ha).symm.trans hr')
    rw [List.pairwise_iff_getElem] at hapart
    obtain ⟨hk, rfl⟩ := List.getElem?_eq_some_iff.1 hb
    obtain ⟨hj', rfl⟩ := List.getElem?_eq_some_iff.1 hb'
    rcases Nat.lt_or_gt_of_ne hj with hlt | hlt
    · exact hapart j k hj' hk hlt (ha.trans hr.symm)
    · exact hapart k j hk hj' hlt (hr.trans ha.symm)
  · intro b hb
    obtain ⟨pre, post, hsplit⟩ := List.append_of_mem hb
    obtain ⟨r, hr, w, -, hrun⟩ := h.reaches_action hfired hsplit
    exact ⟨w, r, hr, hrun⟩
  · apply h.reaches_waiting_iff hfired hwaiting
    intro b hb hfind
    obtain ⟨r, hr, hne⟩ := haction b hb
    exact hne (Option.some.inj (hr.symm.trans hfind))

/-- Two guards with a transition between them that has none: the third candidate is started only
after the first guard has failed, and the token can come back. -/
theorem compile_tries_in_order_mixed :
    let calls : List Call := [.newPlace "out" .internal, .newPlace "in" .internal,
      .newPlace "S.t1.action.initialized" .internal, .newPlace "S.t2.action.initialized" .internal,
      .newPlace "S.t3.action.initialized" .internal, .newTransition "tick" .internal]
    let c : GuardChain := ⟨"S", "T", "in"⟩
    let bs : List Candidate := [⟨1, true⟩, ⟨2, false⟩, ⟨3, true⟩]
    ∃ net', c.compile "out" "S.ontrigger.T" bs (Net.run calls) = .ok () net' ∧
      (∀ w m, Run (net'.namedSteps (c.transitions "S.ontrigger.T" bs)) (token ⟨0⟩)
        (w ++ ["S.T.start3"]) m → "S.T.wrong1" ∈ w ∧
          ∃ r, net'.find? "S.t3.action.initialized" = some r ∧ m = token r) ∧
      ∃ w, w ≠ [] ∧
        Run (net'.namedSteps (c.transitions "S.ontrigger.T" bs)) (token ⟨0⟩) w (token ⟨1⟩) := by
  intro calls c bs
  obtain ⟨⟨⟩, net', hok, -⟩ := (c.compile "out" "S.ontrigger.T" bs).exists_of_test (Net.run calls)
    (fun _ _ => true) (by subst calls c bs; decide +kernel)
  have hfired : (Net.run calls).find? "out" = some ⟨0⟩ := by decide
  have hwaiting : (Net.run calls).find? c.waiting = some ⟨1⟩ := by decide
  have haction : ∀ b ∈ bs, (Net.run calls).find? (c.action b) = some ⟨b.index + 1⟩ := by decide
  obtain ⟨-, hstart, -, hback⟩ := compile_tries_in_order calls c hfired hwaiting
    (fun b hb => ⟨⟨b.index + 1⟩, haction b hb, by revert b; decide⟩) (by decide) (by decide)
    (by decide) (by decide) hok
  refine ⟨net', hok, fun w m hrun => ?_, hback.2 ⟨⟨3, true⟩, rfl, rfl⟩⟩
  obtain ⟨⟨u, v, rfl, -, hwrong⟩, htoken, -⟩ := hstart 2 ⟨3, true⟩ rfl w m hrun
  have hmem : "S.T.wrong1" ∈ v := hwrong 0 ⟨1, true⟩ (by decide) rfl rfl
  exact ⟨by simp [hmem], htoken⟩

end Fragment.StateMachine.GuardChain

end OpenWorkflow
