import Mathlib.Data.Fintype.Sets
import OpenWorkflow.Proofs.Soundness.Sites
import OpenWorkflow.Proofs.TokenGame.Compose

/-!
# The token game of a fragment

In the net of a structured activity, the transitions of each fragment play a token
game of their own, from the place where the fragment begins to the place where it
ends. The game is sound (`Net.Shows.sound_piece`): where control does not fork, it
is a graph of the games inside and of single steps, and where it does, the games
inside are played side by side.

The places of a game are known by its roots, the names of the fragment that are
joined to no name before them. No two of these lead to one place, as long as the
fragment does not begin where it ends (`Net.Shows.eq_of_spot`).
-/

namespace OpenWorkflow

open OpenWorkflow.TokenGame (Step Sound)
open Activity (forall_mem_walk numbered paved_lines within_iff)

variable {b : Activity × Nat} {j : Nat} {n' t : String}

/-- The places on one side of a step. -/
def ArcKind.side {P : Type} (s : Step P) : ArcKind → Finset P
  | consumes => s.pre
  | produces => s.post

namespace Net

variable {net : Net} {n : String} {p : PlaceId}

/-- The step of a transition; interface places have no part in it. -/
def step (net : Net) (t : Transition) : Step PlaceId where
  pre := (t.preset.toList.filter (fun p => p ∈ net.internal)).toFinset
  post := (t.postset.toList.filter (fun p => p ∈ net.internal)).toFinset

/-- The steps of transitions that have certain names. -/
def stepsNamed (net : Net) (Q : String → Prop) : Set (Step PlaceId) :=
  {s | ∃ tr ∈ net.transitions, Q tr.name ∧ net.step tr = s}

/-- The place that is found under a name. -/
def spot (net : Net) (n : String) : PlaceId := (net.find? n).getD ⟨0⟩

/-- The places of the transitions of an activity, with its two ends. -/
def piece (net : Net) (a : Activity) (k : Nat) : Set PlaceId :=
  TokenGame.span (net.stepsNamed (Within k a.size)) (net.spot (Scope.initialized ⟨k⟩))
    (net.spot (Scope.closed ⟨k⟩))

/-- The places of the nodes of a fragment. -/
def nodes (net : Net) (a : Activity) (k : Nat) : Set PlaceId :=
  {p | ∃ n, a.Node k n ∧ net.Knows n ∧ net.spot n = p}

theorem spot_of_find (h : net.find? n = some p) : net.spot n = p := by
  rw [spot, h, Option.getD_some]

theorem find?_eq_spot (h : net.Knows n) : net.find? n = some (net.spot n) := by
  obtain ⟨p, hp⟩ := knows_iff.1 h
  rw [hp, spot_of_find hp]

namespace Shows

variable {root : Activity} (h : net.Shows root.sheet)
include h

/-! ## Steps of a drawing -/

theorem mem_internal_iff (hn : net.find? n = some p) : p ∈ net.internal ↔ IsNumbered n := by
  rw [Net.mem_internal h.wellFormed.toListsAgree]
  obtain ⟨place, hplace⟩ := h.wellFormed.live_of_find hn
  rw [← h.internal_iff hn hplace]
  constructor
  · rintro ⟨place', hplace', hlist⟩
    obtain rfl := Option.some.inj (hplace.symm.trans hplace')
    cases hk : place.kind with
    | internal => rfl
    | inOut => exact absurd hk (h.ne_inOut hplace)
    | input => simp [hk, NodeKind.list] at hlist
    | output => simp [hk, NodeKind.list] at hlist
  · intro hkind
    refine ⟨place, hplace, ?_⟩
    rw [hkind]
    rfl

/-- A step moves tokens between the places of the numbered names to which arcs are drawn. -/
theorem mem_side {tr : Transition} (htr : tr ∈ net.transitions) (flow : ArcKind) :
    p ∈ flow.side (net.step tr) ↔
      ∃ n, IsNumbered n ∧ .arc flow n tr.name ∈ root.sheet ∧ net.find? n = some p := by
  obtain ⟨i, hi⟩ := List.mem_iff_getElem?.1 htr
  have hindexed {t : String} : net.findTransition? t = some ⟨i⟩ ↔ t = tr.name := by
    rw [h.wellFormed.indexed]
    constructor
    · rintro ⟨tr', htr', rfl⟩
      rw [Option.some.inj (htr'.symm.trans hi)]
    · rintro rfl
      exact ⟨tr, hi, rfl⟩
  have harc : p ∈ flow.side (net.step tr) ↔ flow.arc p ⟨i⟩ ∈ net.arcs ∧ p ∈ net.internal := by
    rw [← h.wellFormed.mem_ofTransition flow hi]
    cases flow <;> simp [ArcKind.side, step, ArcKind.ofTransition, OrderedSet.mem_def]
  rw [harc, h.arc]
  constructor
  · rintro ⟨⟨n, t, hn, ht, hline⟩, hinternal⟩
    obtain rfl := hindexed.1 ht
    exact ⟨n, (h.mem_internal_iff hn).1 hinternal, hline, hn⟩
  · rintro ⟨n, hnum, hline, hn⟩
    exact ⟨⟨n, _, hn, hindexed.2 rfl, hline⟩, (h.mem_internal_iff hn).2 hnum⟩

/-- The places of a game are those to which arcs at its transitions are drawn. -/
theorem of_mem_places {Q : String → Prop} (hp : p ∈ TokenGame.places (net.stepsNamed Q)) :
    ∃ flow n t, Q t ∧ .arc flow n t ∈ root.sheet ∧ IsNumbered n ∧ net.find? n = some p := by
  obtain ⟨_, ⟨tr, htr, hQ, rfl⟩, hp | hp⟩ := hp
  · obtain ⟨n, hnum, hline, hn⟩ := (h.mem_side htr .consumes).1 hp
    exact ⟨.consumes, n, tr.name, hQ, hline, hnum, hn⟩
  · obtain ⟨n, hnum, hline, hn⟩ := (h.mem_side htr .produces).1 hp
    exact ⟨.produces, n, tr.name, hQ, hline, hnum, hn⟩

theorem stepsNamed_eq_singleton {tr : Transition} (htr : tr ∈ net.transitions) :
    net.stepsNamed (· = tr.name) = {net.step tr} := by
  ext s
  constructor
  · rintro ⟨tr', htr', hname, rfl⟩
    rw [Set.mem_singleton_iff, List.inj_on_of_nodup_map h.wellFormed.nodup_names htr' htr hname]
  · rintro rfl
    exact ⟨tr, htr, rfl, rfl⟩

/-- A transition with one arc of a kind makes a step between two places. -/
theorem sound_step {n : String} (hn : .arc .consumes n t ∈ root.sheet)
    (hn' : .arc .produces n' t ∈ root.sheet) (hnum : IsNumbered n) (hnum' : IsNumbered n')
    (hone : ∀ flow m m', .arc flow m t ∈ root.sheet → .arc flow m' t ∈ root.sheet → IsNumbered m →
      IsNumbered m' → m = m') (hne : net.spot n ≠ net.spot n') :
    Sound (net.stepsNamed (· = t)) (net.spot n) (net.spot n') := by
  obtain ⟨u, hu⟩ := Option.isSome_iff_exists.1 (h.ends hn).2
  obtain ⟨tr, htr, rfl⟩ := h.wellFormed.indexed.1 hu
  have hmem := List.mem_of_getElem? htr
  have hside {flow : ArcKind} {m : String} (hm : .arc flow m tr.name ∈ root.sheet)
      (hmnum : IsNumbered m) (p : PlaceId) :
      p ∈ flow.side (net.step tr) ↔ p = net.spot m := by
    rw [h.mem_side hmem flow]
    constructor
    · rintro ⟨m', hm'num, hm', hfind⟩
      rw [hone flow m m' hm hm' hmnum hm'num, spot_of_find hfind]
    · rintro rfl
      exact ⟨m, hmnum, hm, find?_eq_spot (h.ends hm).1⟩
  rw [h.stepsNamed_eq_singleton hmem]
  exact TokenGame.sound_single hne (hside hn hnum) (hside hn' hnum')

/-! ## Names and places -/

/-- Joined names lead to one spot. -/
theorem spot_eq_of_joins {m : String} (hm : .joins m n ∈ root.sheet) :
    net.spot m = net.spot n := by
  obtain ⟨hknows, hknows'⟩ := h.ties hm
  rw [spot, (h.joined hknows hknows').2 (.of_mem hm), spot]

theorem spot_eq_of_tied {m : String} {L : List Line} (hL : L ⊆ root.sheet) (hm : Tied L m n) :
    net.spot m = net.spot n := by
  rcases hm with rfl | hm
  · rfl
  · exact h.spot_eq_of_joins (hL hm)

variable (hforest : Forest root.sheet)
include hforest

/-- Roots that lead to one place are the same. -/
theorem eq_of_free (hn : net.Knows n) (hn' : net.Knows n') (hfree : n ∉ ties root.sheet)
    (hfree' : n' ∉ ties root.sheet) (heq : net.spot n = net.spot n') : n = n' := by
  refine hforest.eq_of_joined hfree hfree' ((h.joined hn hn').1 ?_)
  rw [find?_eq_spot hn, find?_eq_spot hn', heq]

/-- The root of a name has a lower number, or it is the name itself. -/
theorem exists_free {k : Nat} (hn : net.Knows n) (hk : Scope.Owns ⟨k⟩ n) :
    ∃ r i, net.Knows r ∧ r ∉ ties root.sheet ∧ net.spot r = net.spot n ∧ Scope.Owns ⟨i⟩ r ∧
      i ≤ k ∧ (i = k → r = n) := by
  induction k using Nat.strongRecOn generalizing n with
  | ind k ih =>
    by_cases hroot : n ∈ ties root.sheet
    · obtain ⟨m, hm⟩ := mem_ties.1 hroot
      obtain ⟨i, j, hij, hi, hj⟩ := hforest.below hm
      have hjk := hj.unique hk
      injection hjk with hjk
      obtain ⟨r, i', hr, hfree, heq, hown, hle, -⟩ := ih i (hjk ▸ hij) (h.ties hm).1 hi
      exact ⟨r, i', hr, hfree, heq.trans (h.spot_eq_of_joins hm), hown, by omega, by omega⟩
    · exact ⟨n, k, hn, hroot, rfl, hk, Nat.le_refl k, fun _ => rfl⟩

variable {a : Activity} {k : Nat}

/-- A place of the activity has a name that is a root or an end of the activity. -/
theorem exists_local (hs : Sited root.sheet a k) (hn : net.Knows n) (hin : Within k a.size n) :
    ∃ y, net.Knows y ∧ net.spot y = net.spot n ∧ Within k a.size y ∧
      (Scope.IsEnd ⟨k⟩ y ∨ y ∉ ties root.sheet) := by
  obtain ⟨i, hi, hown⟩ := hin
  induction i using Nat.strongRecOn generalizing n with
  | ind i ih =>
    by_cases hend : Scope.IsEnd ⟨k⟩ n
    · exact ⟨n, hn, rfl, ⟨i, hi, hown⟩, .inl hend⟩
    · by_cases hroot : n ∈ ties root.sheet
      · obtain ⟨m, hm⟩ := mem_ties.1 hroot
        have hm' := (hs.joins hm ⟨i, hi, hown⟩).resolve_left hend
        obtain ⟨i', hi', hown'⟩ := (Activity.within_of_joins_drawing hm').1
        obtain ⟨j, j', hlt, hj, hj'⟩ := hforest.below hm
        have heq := hj.unique hown'
        have heq' := hj'.unique hown
        injection heq with heq
        injection heq' with heq'
        obtain ⟨y, hy, hspot, hrest⟩ := ih i' (by omega) (h.ties hm).1 hi' hown'
        exact ⟨y, hy, hspot.trans (h.spot_eq_of_joins hm), hrest⟩
      · exact ⟨n, hn, rfl, ⟨i, hi, hown⟩, .inr hroot⟩

/-- The roots and ends of an activity lead to different places, if its two ends do. -/
theorem eq_of_spot (hne : net.spot (Scope.initialized ⟨k⟩) ≠ net.spot (Scope.closed ⟨k⟩))
    (hn : net.Knows n) (hn' : net.Knows n') (hin : Within k a.size n) (hin' : Within k a.size n')
    (hfree : Scope.IsEnd ⟨k⟩ n ∨ n ∉ ties root.sheet)
    (hfree' : Scope.IsEnd ⟨k⟩ n' ∨ n' ∉ ties root.sheet) (heq : net.spot n = net.spot n') :
    n = n' := by
  -- The root of an end has no higher number than the activity.
  have hend {e y : String} (he : net.Knows e) (hy : net.Knows y) (hend : Scope.IsEnd ⟨k⟩ e)
      (hyin : Within k a.size y) (hyfree : y ∉ ties root.sheet) (heq : net.spot e = net.spot y) :
      e = y := by
    obtain ⟨r, i, hr, hrfree, hspot, hown, hle, hself⟩ := h.exists_free hforest he hend.owns
    obtain rfl := h.eq_of_free hforest hr hy hrfree hyfree (hspot.trans heq)
    have := hyin.bounds hown
    exact (hself (by omega)).symm
  rcases hfree with hfree | hfree <;> rcases hfree' with hfree' | hfree'
  · rcases hfree with rfl | rfl <;> rcases hfree' with rfl | rfl
    · rfl
    · exact absurd heq hne
    · exact absurd heq.symm hne
    · rfl
  · exact hend hn hn' hfree hin' hfree' heq
  · exact (hend hn' hn hfree' hin hfree heq.symm).symm
  · exact h.eq_of_free hforest hn hn' hfree hfree' heq

omit hforest in
theorem knows_of_isEnd (hs : Sited root.sheet a k) (hn : Scope.IsEnd ⟨k⟩ n) : net.Knows n := by
  have hline : .place n .internal ∈ a.lines k := by
    rcases hn with rfl | rfl <;> simp [Activity.lines, Activity.endLines]
  exact h.known.2 ⟨_, hs.lines_subset hline⟩

omit hforest in
/-- The places of an activity have names with its numbers. -/
theorem within_of_mem_places (hs : Sited root.sheet a k)
    (hp : p ∈ TokenGame.places (net.stepsNamed (Within k a.size))) :
    ∃ n, net.Knows n ∧ net.spot n = p ∧ Within k a.size n := by
  obtain ⟨flow, n, t, ht, hline, hnum, hn⟩ := h.of_mem_places hp
  exact ⟨n, knows_of_find hn, spot_of_find hn,
    Activity.within_of_arc_drawing (hs.own hline rfl ht) hnum⟩

/-- They have names that are roots or ends of the activity. -/
theorem exists_of_mem_span (hs : Sited root.sheet a k) (hp : p ∈ net.piece a k) :
    ∃ y, net.Knows y ∧ net.spot y = p ∧ Within k a.size y ∧
      (Scope.IsEnd ⟨k⟩ y ∨ y ∉ ties root.sheet) := by
  have hend {y : String} (hy : Scope.IsEnd ⟨k⟩ y) := h.knows_of_isEnd hs hy
  rcases hp with rfl | rfl | hp
  · exact ⟨_, hend (.inl rfl), rfl, ⟨0, a.size_pos, Scope.owns_initialized _⟩, .inl (.inl rfl)⟩
  · exact ⟨_, hend (.inr rfl), rfl, ⟨0, a.size_pos, Scope.owns_closed _⟩, .inl (.inr rfl)⟩
  · obtain ⟨n, hn, rfl, hin⟩ := h.within_of_mem_places hs hp
    exact h.exists_local hforest hs hn hin

variable (hs : Sited root.sheet a k) (hblock : ∀ b ∈ a.walk, b.IsBlock)
include hs hblock

/-- An activity inside shares only its ends with the nodes of the fragment. -/
theorem exists_isEnd (hb : b ∈ numbered (k + 1) a.built) (hn : a.Node k n) (hknows : net.Knows n)
    (hp : net.spot n ∈ net.piece b.1 b.2) : ∃ y, Scope.IsEnd ⟨b.2⟩ y ∧ net.spot y = net.spot n := by
  obtain ⟨y, hy, hspot, hyin, hend | hfree⟩ :=
    h.exists_of_mem_span hforest (hs.part (forall_mem_walk.1 hblock).1 hb) hp
  · exact ⟨y, hend, hspot⟩
  have hrange := Activity.bounds_of_mem_starts (Activity.mem_starts_of_mem_numbered hb)
  obtain ⟨-, hend | hnfree⟩ := hs.free_of_isNode hblock hn
  · obtain ⟨r, i, hr, hrfree, hrspot, hown, hle, -⟩ := h.exists_free hforest hknows hend.owns
    obtain rfl := h.eq_of_free hforest hr hy hrfree hfree (hrspot.trans hspot.symm)
    have := hyin.bounds hown
    omega
  · obtain rfl := h.eq_of_free hforest hknows hy hnfree hfree hspot.symm
    rcases hn with hown | ⟨⟨j, hj, hend⟩, -⟩
    · have := hyin.bounds hown
      omega
    · rw [← Activity.map_snd_numbered] at hj
      obtain ⟨b', hb', rfl⟩ := List.mem_map.1 hj
      obtain ⟨hlt, hlt'⟩ := hyin.disjoint ⟨0, b'.1.size_pos, hend.owns⟩
      rw [Activity.eq_of_numbered hb hb' hlt hlt']
      exact ⟨n, hend, hspot⟩

/-- So does another activity inside. -/
theorem exists_isEnd_of_ne {b' : Activity × Nat} (hb : b ∈ numbered (k + 1) a.built)
    (hb' : b' ∈ numbered (k + 1) a.built) (hne : b ≠ b') (hp : p ∈ net.piece b.1 b.2)
    (hp' : p ∈ net.piece b'.1 b'.2) :
    ∃ y, (Scope.IsEnd ⟨b.2⟩ y ∨ Scope.IsEnd ⟨b'.2⟩ y) ∧ net.spot y = p := by
  have hfirst := (forall_mem_walk.1 hblock).1
  obtain ⟨y, hy, hspot, hin, hend | hfree⟩ := h.exists_of_mem_span hforest (hs.part hfirst hb) hp
  · exact ⟨y, .inl hend, hspot⟩
  obtain ⟨y', hy', hspot', hin', hend | hfree'⟩ :=
    h.exists_of_mem_span hforest (hs.part hfirst hb') hp'
  · exact ⟨y', .inr hend, hspot'⟩
  obtain rfl := h.eq_of_free hforest hy hy' hfree hfree' (hspot.trans hspot'.symm)
  obtain ⟨hlt, hlt'⟩ := hin.disjoint hin'
  exact absurd (Activity.eq_of_numbered hb hb' hlt hlt') hne

/-- The nodes of a fragment lead to different places. -/
theorem eq_of_isNode (hne : net.spot (Scope.initialized ⟨k⟩) ≠ net.spot (Scope.closed ⟨k⟩))
    (hn : a.Node k n) (hn' : a.Node k n') (hknows : net.Knows n) (hknows' : net.Knows n')
    (heq : net.spot n = net.spot n') : n = n' := by
  obtain ⟨hin, hfree⟩ := hs.free_of_isNode hblock hn
  obtain ⟨hin', hfree'⟩ := hs.free_of_isNode hblock hn'
  exact h.eq_of_spot hforest hne hknows hknows' hin hin' hfree hfree' heq

end Shows

end Net

/-- The transitions that take part when control goes this way. -/
def Way.Covers : Way → String → Prop
  | .step t => (· = t)
  | .inside a k => Within k a.size

/-! ## Graphs of games -/

namespace Activity

variable {as : List Activity} {k : Nat} (h : 2 ≤ as.length)
include h

/-- No end of a parallel branch is joined to another name. -/
theorem node_of_isEnd (hb : b ∈ numbered (k + 1) (parallel as).built) {n : String}
    (hn : Scope.IsEnd ⟨b.2⟩ n) : (parallel as).Node k n := by
  refine .inr ⟨⟨b.2, mem_starts_of_mem_numbered hb, hn⟩, ?_⟩
  simp [lines, innerLines, endLines, ties_parallelLines _ h]

theorem mem_starts_iff :
    j ∈ starts (k + 1) as ↔ ∃ b ∈ numbered (k + 1) (parallel as).built, b.2 = j := by
  have hbuilt : (parallel as).built = as := by
    rcases as with _ | ⟨b, _ | ⟨c, bs⟩⟩
    · simp at h
    · simp at h
    · rfl
  rw [hbuilt, ← map_snd_numbered, List.mem_map]

/-- Control forks at one transition and is joined at another. -/
theorem arc_mem_parallel (n : String) :
    (.arc .consumes n (Scope.name ⟨k⟩ "split") ∈ (parallel as).lines k ↔
        n = Scope.initialized ⟨k⟩) ∧
      (.arc .produces n (Scope.name ⟨k⟩ "split") ∈ (parallel as).lines k ↔
        ∃ b ∈ numbered (k + 1) (parallel as).built, n = Scope.initialized ⟨b.2⟩) ∧
      (.arc .consumes n (Scope.name ⟨k⟩ "join") ∈ (parallel as).lines k ↔
        ∃ b ∈ numbered (k + 1) (parallel as).built, n = Scope.closed ⟨b.2⟩) ∧
      (.arc .produces n (Scope.name ⟨k⟩ "join") ∈ (parallel as).lines k ↔
        n = Scope.closed ⟨k⟩) := by
  have hne : Scope.name ⟨k⟩ "split" ≠ Scope.name ⟨k⟩ "join" := by
    rw [Ne, Scope.name_inj]
    simp
  have hstarts (x : Scope → String) : (∃ j ∈ starts (k + 1) as, n = x ⟨j⟩) ↔
      ∃ b ∈ numbered (k + 1) (parallel as).built, n = x ⟨b.2⟩ := by
    simp only [mem_starts_iff h]
    constructor
    · rintro ⟨_, ⟨b, hb, rfl⟩, rfl⟩
      exact ⟨b, hb, rfl⟩
    · rintro ⟨b, hb, rfl⟩
      exact ⟨_, ⟨b, hb, rfl⟩, rfl⟩
  rw [← hstarts Scope.initialized, ← hstarts Scope.closed]
  simp [← mem_drawnArcs, lines, endLines, innerLines, drawnArcs_parallelLines _ h, hne, hne.symm]

end Activity

namespace Net.Shows

section graph

variable {net : Net} {root a : Activity} {k : Nat} (h : net.Shows root.sheet)
  (hs : Sited root.sheet a k) (hblock : a.IsBlock)
include h hs

/-- The steps of an activity are those of its own transitions and of the activities inside. -/
theorem mem_stepsNamed_iff {s : Step PlaceId} : s ∈ net.stepsNamed (Within k a.size) ↔
    (∃ t ∈ drawnTransitions (a.lines k), s ∈ net.stepsNamed (· = t)) ∨
      ∃ b ∈ numbered (k + 1) a.built, s ∈ net.stepsNamed (Within b.2 b.1.size) := by
  constructor
  · rintro ⟨tr, htr, hin, rfl⟩
    rcases within_iff.1 hin with hown | ⟨b, hb, hin⟩
    · obtain ⟨i, hi⟩ := List.mem_iff_getElem?.1 htr
      have hline := hs.mem_lines (h.transition_kind (u := ⟨i⟩) hi) rfl hown
      exact .inl ⟨tr.name, mem_drawnTransitions.2 ⟨_, hline⟩, tr, htr, rfl, rfl⟩
    · exact .inr ⟨b, hb, tr, htr, hin, rfl⟩
  · rintro (⟨t, ht, tr, htr, rfl, rfl⟩ | ⟨b, hb, tr, htr, hin, rfl⟩)
    · obtain ⟨kind, hline⟩ := mem_drawnTransitions.1 ht
      exact ⟨tr, htr, within_iff.2 (.inl (Activity.owns_of_transition hline)), rfl⟩
    · exact ⟨tr, htr, within_iff.2 (.inr ⟨b, hb, hin⟩), rfl⟩

/-- A transition of the fragment has one step, between the places to which the fragment draws
arcs. -/
theorem exists_step (ht : t ∈ drawnTransitions (a.lines k)) :
    ∃ s, net.stepsNamed (· = t) = {s} ∧ ∀ flow p, p ∈ ArcKind.side s flow ↔
      ∃ n, IsNumbered n ∧ .arc flow n t ∈ a.lines k ∧ net.spot n = p := by
  obtain ⟨kind, hline⟩ := mem_drawnTransitions.1 ht
  obtain ⟨u, hu⟩ := Option.isSome_iff_exists.1 (h.transition.2 ⟨kind, hs.lines_subset hline⟩)
  obtain ⟨tr, htr, rfl⟩ := h.wellFormed.indexed.1 hu
  have hmem := List.mem_of_getElem? htr
  refine ⟨net.step tr, h.stepsNamed_eq_singleton hmem, fun flow p => ?_⟩
  rw [h.mem_side hmem flow]
  constructor
  · rintro ⟨n, hnum, harc, hn⟩
    exact ⟨n, hnum, hs.mem_lines harc rfl (Activity.owns_of_transition hline), spot_of_find hn⟩
  · rintro ⟨n, hnum, harc, rfl⟩
    have harc' := hs.lines_subset harc
    exact ⟨n, hnum, harc', find?_eq_spot (h.ends harc').1⟩

variable (hforks : ¬ a.Forks) {g : Edge} (hg : g ∈ a.edges ⟨k⟩)
include hblock hforks hg

omit h hs in
/-- An edge through an activity inside leads from one end of it to the other. -/
theorem ends_of_inside {c : Activity} (hw : g.way = .inside c j) :
    (c, j) ∈ numbered (k + 1) a.built ∧
      Tied (a.lines k) g.entry (Scope.initialized ⟨j⟩) ∧
        Tied (a.lines k) g.exit (Scope.closed ⟨j⟩) := by
  have hpaved := paved_lines hblock hforks k
  constructor
  · rw [hpaved.inside]
    exact List.mem_filterMap.2 ⟨g, hg, by simp [hw]⟩
  · have hdrawn := (hpaved.drawn g hg).2
    rwa [hw] at hdrawn

theorem knows_of_edge : net.Knows g.entry ∧ net.Knows g.exit := by
  have hdrawn := (paved_lines hblock hforks k).drawn g hg
  obtain ⟨way, entry, exit⟩ := g
  cases way with
  | step t =>
    exact ⟨(h.ends (hs.lines_subset hdrawn.2.1)).1, (h.ends (hs.lines_subset hdrawn.2.2)).1⟩
  | inside c j =>
    obtain ⟨hc, hentry, hexit⟩ := ends_of_inside hblock hforks hg rfl
    have hknows {n n' : String} (htied : Tied (a.lines k) n n') (hend : Scope.IsEnd ⟨j⟩ n') :
        net.Knows n := by
      rcases htied with rfl | hm
      · exact h.knows_of_isEnd (hs.part hblock hc) hend
      · exact (h.ties (hs.lines_subset hm)).1
    exact ⟨hknows hentry (.inl rfl), hknows hexit (.inr rfl)⟩

/-- The game of a single step is played between the places of the edge. -/
theorem sound_of_step (hw : g.way = .step t) (hne : net.spot g.entry ≠ net.spot g.exit) :
    Sound (net.stepsNamed (· = t)) (net.spot g.entry) (net.spot g.exit) ∧
      ∀ p ∈ TokenGame.places (net.stepsNamed (· = t)),
        p = net.spot g.entry ∨ p = net.spot g.exit := by
  have hpaved := paved_lines hblock hforks k
  have hdrawn := (hpaved.drawn g hg).2
  rw [hw] at hdrawn
  have howns := Activity.owns_of_arc hdrawn.1
  have hone (flow : ArcKind) (m m' : String) (hm : .arc flow m t ∈ root.sheet)
      (hm' : .arc flow m' t ∈ root.sheet) (hnum : IsNumbered m) (hnum' : IsNumbered m') :
      m = m' := by
    have hfans : Activity.Fans 0 [] (a.lines k) := Activity.fans_lines_of_not_forks hblock hforks k
    rcases hfans.apart (hs.mem_lines hm rfl howns) (hs.mem_lines hm' rfl howns) with
      heq | hnot | ⟨-, ⟨j, hj, -⟩, -⟩
    · exact heq
    · exact absurd (iff_of_true hnum hnum') hnot
    · cases hj
  have hnum {n : String} (hn : a.Node k n) :
      IsNumbered n := by
    rcases hn with hn | ⟨⟨j, -, hend⟩, -⟩
    · exact hn.isNumbered
    · exact hend.owns.isNumbered
  refine ⟨h.sound_step (hs.lines_subset hdrawn.1) (hs.lines_subset hdrawn.2)
    (hnum (hpaved.entry g hg)) (hnum (hpaved.exit g hg)) hone hne, fun p hp => ?_⟩
  obtain ⟨flow, n, _, rfl, hline, hn, hfind⟩ := h.of_mem_places hp
  rw [← spot_of_find hfind]
  cases flow with
  | consumes =>
    rw [hone .consumes n g.entry hline (hs.lines_subset hdrawn.1) hn (hnum (hpaved.entry g hg))]
    exact .inl rfl
  | produces =>
    rw [hone .produces n g.exit hline (hs.lines_subset hdrawn.2) hn (hnum (hpaved.exit g hg))]
    exact .inr rfl

theorem spots_of_inside {c : Activity} (hw : g.way = .inside c j) :
    net.spot (Scope.initialized ⟨j⟩) = net.spot g.entry ∧
      net.spot (Scope.closed ⟨j⟩) = net.spot g.exit := by
  obtain ⟨-, htied, htied'⟩ := ends_of_inside hblock hforks hg hw
  exact ⟨(h.spot_eq_of_tied hs.lines_subset htied).symm,
    (h.spot_eq_of_tied hs.lines_subset htied').symm⟩

/-- The ends of an edge are nodes of its fragment. -/
theorem mem_nodes_of_edge {p : PlaceId} (hp : p = net.spot g.entry ∨ p = net.spot g.exit) :
    p ∈ net.nodes a k := by
  have hpaved := paved_lines hblock hforks k
  obtain ⟨hentry, hexit⟩ := h.knows_of_edge hs hblock hforks hg
  rcases hp with rfl | rfl
  · exact ⟨g.entry, hpaved.entry g hg, hentry, rfl⟩
  · exact ⟨g.exit, hpaved.exit g hg, hexit, rfl⟩

end graph

/-! ## Soundness -/

section sound

variable {net : Net} {root a : Activity} {k : Nat} (h : net.Shows root.sheet)
  (hforest : Forest root.sheet) (hs : Sited root.sheet a k) (hblock : ∀ b ∈ a.walk, b.IsBlock)
  (hne : net.spot (Scope.initialized ⟨k⟩) ≠ net.spot (Scope.closed ⟨k⟩))
  (hinside : ∀ b ∈ numbered (k + 1) a.built,
    net.spot (Scope.initialized ⟨b.2⟩) ≠ net.spot (Scope.closed ⟨b.2⟩) →
      Sound (net.stepsNamed (Within b.2 b.1.size)) (net.spot (Scope.initialized ⟨b.2⟩))
        (net.spot (Scope.closed ⟨b.2⟩)))
include h hforest hs hblock

section graph

variable (hforks : ¬ a.Forks) {g g' : Edge} (hg : g ∈ a.edges ⟨k⟩) (hg' : g' ∈ a.edges ⟨k⟩)
  {p : PlaceId} (hp : p ∈ TokenGame.places (net.stepsNamed g.way.Covers))
  (hp' : p ∈ TokenGame.places (net.stepsNamed g'.way.Covers))
include hne hforks hg

/-- An edge leads from one spot to another. -/
theorem spot_entry_ne_spot_exit : net.spot g.entry ≠ net.spot g.exit := by
  have hfirst := (forall_mem_walk.1 hblock).1
  have hpaved := paved_lines hfirst hforks k
  obtain ⟨hentry, hexit⟩ := h.knows_of_edge hs hfirst hforks hg
  exact fun heq => (hpaved.drawn g hg).1
    (h.eq_of_isNode hforest hs hblock hne (hpaved.entry g hg) (hpaved.exit g hg) hentry hexit heq)

include hp

/-- A node that is touched on an edge is where the edge begins or ends. -/
theorem eq_of_mem_nodes (hnode : p ∈ net.nodes a k) :
    p = net.spot g.entry ∨ p = net.spot g.exit := by
  have hfirst := (forall_mem_walk.1 hblock).1
  cases hw : g.way with
  | step t =>
    rw [hw] at hp
    exact (h.sound_of_step hs hfirst hforks hg hw
      (h.spot_entry_ne_spot_exit hforest hs hblock hne hforks hg)).2 p hp
  | inside c j =>
    rw [hw] at hp
    obtain ⟨n, hn, hknows, rfl⟩ := hnode
    obtain ⟨hentry, hexit⟩ := h.spots_of_inside hs hfirst hforks hg hw
    obtain ⟨y, rfl | rfl, hspot⟩ := h.exists_isEnd hforest hs hblock
      (ends_of_inside hfirst hforks hg hw).1 hn hknows (TokenGame.places_subset_span hp)
    · exact .inl (hspot.symm.trans hentry)
    · exact .inr (hspot.symm.trans hexit)

include hg' hp'

/-- What is touched on two edges is a node. -/
theorem mem_nodes_of_ne (hgg : g ≠ g') : p ∈ net.nodes a k := by
  have hfirst := (forall_mem_walk.1 hblock).1
  have hpaved := paved_lines hfirst hforks k
  have hstep {g : Edge} (hg : g ∈ a.edges ⟨k⟩) {t : String} (hw : g.way = .step t)
      (hp : p ∈ TokenGame.places (net.stepsNamed g.way.Covers)) : p ∈ net.nodes a k := by
    rw [hw] at hp
    exact h.mem_nodes_of_edge hs hfirst hforks hg ((h.sound_of_step hs hfirst hforks hg hw
      (h.spot_entry_ne_spot_exit hforest hs hblock hne hforks hg)).2 p hp)
  have hend {g : Edge} (hg : g ∈ a.edges ⟨k⟩) {c : Activity} {j : Nat} (hw : g.way = .inside c j)
      {y : String} (hy : Scope.IsEnd ⟨j⟩ y) (hspot : net.spot y = p) : p ∈ net.nodes a k := by
    obtain ⟨hentry, hexit⟩ := h.spots_of_inside hs hfirst hforks hg hw
    refine h.mem_nodes_of_edge hs hfirst hforks hg ?_
    rcases hy with rfl | rfl
    · exact .inl (hspot.symm.trans hentry)
    · exact .inr (hspot.symm.trans hexit)
  cases hw : g.way with
  | step t => exact hstep hg hw hp
  | inside c j =>
    cases hw' : g'.way with
    | step t => exact hstep hg' hw' hp'
    | inside c' j' =>
      rw [hw] at hp
      rw [hw'] at hp'
      have hnodup : (numbered (k + 1) a.built).Nodup :=
        .of_map Prod.snd (Activity.map_snd_numbered _ _ ▸ Activity.nodup_starts _ _)
      rw [hpaved.inside] at hnodup
      have hcc : (c, j) ≠ (c', j') := by
        intro heq
        have hinside : g.inside? = some (c, j) := by simp [hw]
        have hinside' : g'.inside? = some (c, j) := by simp [hw', heq]
        exact hgg (eq_of_nodup_filterMap hnodup hg hg' hinside hinside')
      obtain ⟨y, hy | hy, hspot⟩ := h.exists_isEnd_of_ne hforest hs hblock
        (ends_of_inside hfirst hforks hg hw).1 (ends_of_inside hfirst hforks hg' hw').1 hcc
        (TokenGame.places_subset_span hp) (TokenGame.places_subset_span hp')
      · exact hend hg hw hy hspot
      · exact hend hg' hw' hy hspot

end graph

include hne hinside

/-- The games inside and single steps meet at nodes only. -/
theorem joined_edges (hforks : ¬ a.Forks) : TokenGame.Joined
    (fun g : {g // g ∈ a.edges ⟨k⟩} => net.stepsNamed g.1.way.Covers)
    (fun g => net.spot g.1.entry) (fun g => net.spot g.1.exit) (net.nodes a k) := by
  have hfirst := (forall_mem_walk.1 hblock).1
  refine ⟨?_, fun g => h.mem_nodes_of_edge hs hfirst hforks g.2 (.inl rfl),
    fun g => h.mem_nodes_of_edge hs hfirst hforks g.2 (.inr rfl),
    fun g p hnode hp => h.eq_of_mem_nodes hforest hs hblock hne hforks g.2 hp hnode,
    fun g g' p hgg hp hp' => h.mem_nodes_of_ne hforest hs hblock hne hforks g.2 g'.2 hp hp'
      (hgg <| Subtype.ext ·)⟩
  rintro ⟨g, hg⟩
  have hends := h.spot_entry_ne_spot_exit hforest hs hblock hne hforks hg
  cases hw : g.way with
  | step t => exact (h.sound_of_step hs hfirst hforks hg hw hends).1
  | inside c j =>
    obtain ⟨hentry, hexit⟩ := h.spots_of_inside hs hfirst hforks hg hw
    have hsound := hinside (c, j) (ends_of_inside hfirst hforks hg hw).1
    rw [hentry, hexit] at hsound
    exact hsound hends

/-- Where control does not fork, the game is sound because every edge lies on a way through. -/
theorem sound_graph (hforks : ¬ a.Forks) : Sound (net.stepsNamed (Within k a.size))
    (net.spot (Scope.initialized ⟨k⟩)) (net.spot (Scope.closed ⟨k⟩)) := by
  have hfirst := (forall_mem_walk.1 hblock).1
  have hpaved := paved_lines hfirst hforks k
  have hroute := Activity.route_edges hfirst hforks ⟨k⟩
  have hend {n : String} (hn : Scope.IsEnd ⟨k⟩ n) : net.spot n ∈ net.nodes a k :=
    ⟨n, .inl hn.owns, h.knows_of_isEnd hs hn, rfl⟩
  have hpath {u v : String} (hlead : Leads (a.edges ⟨k⟩) u v) : TokenGame.Path
      (fun g : {g // g ∈ a.edges ⟨k⟩} => net.spot g.1.entry) (fun g => net.spot g.1.exit)
      (net.spot u) (net.spot v) := by
    induction hlead with
    | refl => exact .refl
    | tail _ hlink ih =>
      obtain ⟨g, hg, rfl, rfl⟩ := hlink
      exact ih.tail ⟨⟨g, hg⟩, rfl, rfl⟩
  refine (h.joined_edges hforest hs hblock hne hinside hforks).sound_of_paths (fun s => ?_)
    (hend (.inl rfl)) (hend (.inr rfl)) hne (fun g heq => hroute.out g.1 g.2 ?_)
    (fun g => hpath (hroute.start g.1 g.2)) (fun g => hpath (hroute.finish g.1 g.2))
    (hpath hroute.leads)
  · rw [h.mem_stepsNamed_iff hs]
    constructor
    · rintro (⟨t, ht, hmem⟩ | ⟨b, hb, hmem⟩)
      · obtain ⟨⟨way, entry, exit⟩, hg, hstep⟩ := List.mem_filterMap.1 (hpaved.steps.mem_iff.1 ht)
        cases way with
        | step t' =>
          obtain rfl := Option.some.inj hstep
          exact ⟨⟨_, hg⟩, hmem⟩
        | inside c j => cases hstep
      · rw [hpaved.inside] at hb
        obtain ⟨⟨way, entry, exit⟩, hg, hinside⟩ := List.mem_filterMap.1 hb
        cases way with
        | step t' => cases hinside
        | inside c j =>
          obtain rfl := Option.some.inj hinside
          exact ⟨⟨_, hg⟩, hmem⟩
    · rintro ⟨⟨⟨way, entry, exit⟩, hg⟩, hmem⟩
      cases way with
      | step t => exact .inl ⟨t, hpaved.steps.mem_iff.2 (List.mem_filterMap.2 ⟨_, hg, rfl⟩), hmem⟩
      | inside c j => exact .inr ⟨(c, j), (ends_of_inside hfirst hforks hg rfl).1, hmem⟩
  · exact h.eq_of_isNode hforest hs hblock hne (hpaved.entry g.1 g.2) (.inl (Scope.owns_closed _))
      (h.knows_of_edge hs hfirst hforks g.2).1 (h.knows_of_isEnd hs (.inr rfl)) heq

end sound

section fork

variable {net : Net} {root : Activity} {as : List Activity} {k : Nat} (h : net.Shows root.sheet)
  (hforest : Forest root.sheet) (hs : Sited root.sheet (.parallel as) k)
  (hblock : ∀ b ∈ (Activity.parallel as).walk, b.IsBlock)
  (hne : net.spot (Scope.initialized ⟨k⟩) ≠ net.spot (Scope.closed ⟨k⟩)) (hlen : 2 ≤ as.length)
include h hforest hs hblock hne hlen

/-- A node is in the game of a branch only as an end of that branch. -/
theorem isEnd_of_mem_piece (hb : b ∈ numbered (k + 1) (Activity.parallel as).built) {n : String}
    (hn : (Activity.parallel as).Node k n) (hknows : net.Knows n)
    (hp : net.spot n ∈ net.piece b.1 b.2) : Scope.IsEnd ⟨b.2⟩ n := by
  obtain ⟨y, hy, hspot⟩ := h.exists_isEnd hforest hs hblock hb hn hknows hp
  rwa [← h.eq_of_isNode hforest hs hblock hne (Activity.node_of_isEnd hlen hb hy) hn
    (h.knows_of_isEnd (hs.part (forall_mem_walk.1 hblock).1 hb) hy) hknows hspot]

/-- The games of two branches have no place in common. -/
theorem eq_of_mem_pieces {b' : Activity × Nat}
    (hb : b ∈ numbered (k + 1) (Activity.parallel as).built)
    (hb' : b' ∈ numbered (k + 1) (Activity.parallel as).built) {p : PlaceId}
    (hp : p ∈ net.piece b.1 b.2) (hp' : p ∈ net.piece b'.1 b'.2) : b = b' := by
  by_contra hbb
  have hfirst := (forall_mem_walk.1 hblock).1
  have hend {c c' : Activity × Nat} (hc : c ∈ numbered (k + 1) (Activity.parallel as).built)
      (hc' : c' ∈ numbered (k + 1) (Activity.parallel as).built) {y : String}
      (hy : Scope.IsEnd ⟨c.2⟩ y) (hp : net.spot y ∈ net.piece c'.1 c'.2) : c = c' := by
    have hy' := h.isEnd_of_mem_piece hforest hs hblock hne hlen hc'
      (Activity.node_of_isEnd hlen hc hy) (h.knows_of_isEnd (hs.part hfirst hc) hy) hp
    have heq := hy.owns.unique hy'.owns
    injection heq with heq
    have hpos := c.1.size_pos
    have hpos' := c'.1.size_pos
    exact Activity.eq_of_numbered hc hc' (by omega) (by omega)
  obtain ⟨y, hy | hy, rfl⟩ := h.exists_isEnd_of_ne hforest hs hblock hb hb' hbb hp hp'
  · exact hbb (hend hb hb' hy hp')
  · exact hbb (hend hb' hb hy hp).symm

/-- The ends of the fragment are in no game of a branch. -/
theorem not_mem_piece (hb : b ∈ numbered (k + 1) (Activity.parallel as).built) {n : String}
    (hn : Scope.IsEnd ⟨k⟩ n) : net.spot n ∉ net.piece b.1 b.2 := by
  intro hp
  have hn' := h.isEnd_of_mem_piece hforest hs hblock hne hlen hb (.inl hn.owns)
    (h.knows_of_isEnd hs hn) hp
  have heq := hn'.owns.unique hn.owns
  injection heq with heq
  have hrange := Activity.bounds_of_mem_starts (Activity.mem_starts_of_mem_numbered hb)
  omega

/-- Where control forks, the activities inside are played side by side. -/
theorem sound_fork (hinside : ∀ b ∈ numbered (k + 1) (Activity.parallel as).built,
    net.spot (Scope.initialized ⟨b.2⟩) ≠ net.spot (Scope.closed ⟨b.2⟩) →
      Sound (net.stepsNamed (Within b.2 b.1.size)) (net.spot (Scope.initialized ⟨b.2⟩))
        (net.spot (Scope.closed ⟨b.2⟩))) :
    Sound (net.stepsNamed (Within k (Activity.parallel as).size))
      (net.spot (Scope.initialized ⟨k⟩)) (net.spot (Scope.closed ⟨k⟩)) := by
  have hfirst := (forall_mem_walk.1 hblock).1
  have hdrawn : drawnTransitions ((Activity.parallel as).lines k)
      = [Scope.name ⟨k⟩ "split", Scope.name ⟨k⟩ "join"] := by
    rw [Activity.lines, drawnTransitions_append, Activity.innerLines,
      Activity.drawnTransitions_parallelLines _ hlen]
    rfl
  have hstep (t : String) (ht : t ∈ [Scope.name ⟨k⟩ "split", Scope.name ⟨k⟩ "join"]) :=
    h.exists_step hs (hdrawn ▸ ht)
  obtain ⟨split, hsplit, hsplitSide⟩ := hstep (Scope.name ⟨k⟩ "split") (by simp)
  obtain ⟨join, hjoin, hjoinSide⟩ := hstep (Scope.name ⟨k⟩ "join") (by simp)
  have hforked : TokenGame.Forked (net.stepsNamed (Within k (Activity.parallel as).size))
      (net.spot (Scope.initialized ⟨k⟩)) (net.spot (Scope.closed ⟨k⟩)) split join
      (fun b : {b // b ∈ numbered (k + 1) (Activity.parallel as).built} =>
        net.stepsNamed (Within b.1.2 b.1.1.size))
      (fun b => net.spot (Scope.initialized ⟨b.1.2⟩))
      (fun b => net.spot (Scope.closed ⟨b.1.2⟩)) := by
    refine ⟨⟨fun b => hinside b.1 b.2 fun heq => ?_, fun b b' p hp hp' => Subtype.ext ?_⟩, hne,
      fun b => h.not_mem_piece hforest hs hblock hne hlen b.2 (.inl rfl),
      fun b => h.not_mem_piece hforest hs hblock hne hlen b.2 (.inr rfl),
      fun p => ?_, fun p => ?_, fun p => ?_, fun p => ?_, fun s => ?_⟩
    · have hend {n : String} (hn : Scope.IsEnd ⟨b.1.2⟩ n) :=
        h.knows_of_isEnd (hs.part hfirst b.2) hn
      exact Scope.initialized_ne_closed _ (h.eq_of_isNode hforest hs hblock hne
        (Activity.node_of_isEnd hlen b.2 (.inl rfl)) (Activity.node_of_isEnd hlen b.2 (.inr rfl))
        (hend (.inl rfl)) (hend (.inr rfl)) heq)
    · exact h.eq_of_mem_pieces hforest hs hblock hne hlen b.2 b'.2 hp hp'
    · refine (hsplitSide .consumes p).trans ⟨?_, ?_⟩
      · rintro ⟨n, -, hn, rfl⟩
        rw [(Activity.arc_mem_parallel hlen n).1.1 hn]
      · rintro rfl
        exact ⟨_, isNumbered_initialized _, (Activity.arc_mem_parallel hlen _).1.2 rfl, rfl⟩
    · refine (hsplitSide .produces p).trans ⟨?_, ?_⟩
      · rintro ⟨n, -, hn, rfl⟩
        obtain ⟨b, hb, rfl⟩ := (Activity.arc_mem_parallel hlen n).2.1.1 hn
        exact ⟨⟨b, hb⟩, rfl⟩
      · rintro ⟨b, rfl⟩
        exact ⟨_, isNumbered_initialized _,
          (Activity.arc_mem_parallel hlen _).2.1.2 ⟨b.1, b.2, rfl⟩, rfl⟩
    · refine (hjoinSide .consumes p).trans ⟨?_, ?_⟩
      · rintro ⟨n, -, hn, rfl⟩
        obtain ⟨b, hb, rfl⟩ := (Activity.arc_mem_parallel hlen n).2.2.1.1 hn
        exact ⟨⟨b, hb⟩, rfl⟩
      · rintro ⟨b, rfl⟩
        exact ⟨_, isNumbered_closed _,
          (Activity.arc_mem_parallel hlen _).2.2.1.2 ⟨b.1, b.2, rfl⟩, rfl⟩
    · refine (hjoinSide .produces p).trans ⟨?_, ?_⟩
      · rintro ⟨n, -, hn, rfl⟩
        rw [(Activity.arc_mem_parallel hlen n).2.2.2.1 hn]
      · rintro rfl
        exact ⟨_, isNumbered_closed _, (Activity.arc_mem_parallel hlen _).2.2.2.2 rfl, rfl⟩
    · rw [h.mem_stepsNamed_iff hs, hdrawn]
      simp [hsplit, hjoin, or_assoc]
  have : Nonempty {b // b ∈ numbered (k + 1) (Activity.parallel as).built} := by
    obtain ⟨a, as, rfl⟩ := List.exists_cons_of_length_pos (Nat.lt_of_lt_of_le Nat.two_pos hlen)
    obtain ⟨b, hb, -⟩ := (Activity.mem_starts_iff hlen).1 (List.mem_cons_self ..)
    exact ⟨⟨b, hb⟩⟩
  classical exact hforked.sound_fork

end fork

/-- **Every fragment is sound.** In the net of a structured activity, the transitions of each
activity play a sound game between the places where it begins and ends. -/
theorem sound_piece {net : Net} {root a : Activity} {k : Nat} (h : net.Shows root.sheet)
    (hforest : Forest root.sheet) (hs : Sited root.sheet a k) (hblock : ∀ b ∈ a.walk, b.IsBlock)
    (hne : net.spot (Scope.initialized ⟨k⟩) ≠ net.spot (Scope.closed ⟨k⟩)) :
    Sound (net.stepsNamed (Within k a.size)) (net.spot (Scope.initialized ⟨k⟩))
      (net.spot (Scope.closed ⟨k⟩)) := by
  induction a using Activity.built_induction generalizing k with
  | h a ih =>
    obtain ⟨hfirst, hparts⟩ := forall_mem_walk.1 hblock
    have hinside (b : Activity × Nat) (hb : b ∈ numbered (k + 1) a.built) :=
      have hmem := Activity.mem_of_mem_numbered hb
      ih b.1 hmem (hs.part hfirst hb) (hparts b.1 hmem)
    by_cases hforks : a.Forks
    · obtain ⟨as, rfl, hlen⟩ := hforks
      exact h.sound_fork hforest hs hblock hne hlen hinside
    · exact h.sound_graph hforest hs hblock hne hinside hforks

end Net.Shows

end OpenWorkflow
