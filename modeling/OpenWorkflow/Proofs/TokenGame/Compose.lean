import Mathlib.Data.Set.Lattice
import OpenWorkflow.Proofs.TokenGame.Basic

/-!
# Composing sound systems

Sound systems that share only places where they begin or end are sound
together. `Joined.sound_of_paths` is the general law for control that is in one place at
a time: the systems are the edges of a graph whose nodes are the shared places,
and all that matters is that every edge can be reached from the start and that
the end can be reached from every edge.

`Forked.sound_fork` is the law for control in several places at once: one step
starts all systems, another waits for all of them.
-/

namespace OpenWorkflow.TokenGame

variable {P : Type} [DecidableEq P] {ι : Type}

variable {v : P} {s : Step P}

/-! ## Graphs of systems -/

/-- Sound systems that have only nodes of a graph in common. -/
structure Joined (S : ι → Set (Step P)) (e x : ι → P) (V : Set P) : Prop where
  sound : ∀ i, Sound (S i) (e i) (x i)
  entry : ∀ i, e i ∈ V
  exit : ∀ i, x i ∈ V
  inner : ∀ i p, p ∈ V → p ∈ places (S i) → p = e i ∨ p = x i
  apart : ∀ i j p, i ≠ j → p ∈ places (S i) → p ∈ places (S j) → p ∈ V

/-- An edge leads from one node to another. -/
def Link (e x : ι → P) (u v : P) : Prop := ∃ i, e i = u ∧ x i = v

/-- Edges in a row lead from one node to another. -/
def Path (e x : ι → P) : P → P → Prop := Relation.ReflTransGen (Link e x)

namespace Joined

variable {S : ι → Set (Step P)} {e x : ι → P} {V : Set P} (h : Joined S e x V)
include h

/-- With a single token on a node, only an edge that begins there can go on. -/
theorem eq_entry {j : ι} (hs : s ∈ S j) (hv : v ∈ V) (hen : s.Enabled (token v)) : v = e j := by
  obtain ⟨p, hp⟩ := (h.sound j).takes s hs
  obtain rfl := eq_of_token_pos (hen p hp)
  rcases h.inner j p hv (mem_places_of_pre hs hp) with he | rfl
  · exact he
  · exact absurd hp ((h.sound j).last s hs)

/-- Inside an edge, a token on a node is the only one. -/
theorem eq_token {i : ι} {m : P → Nat} (hm : Reach (S i) (token (e i)) m) (hv : v ∈ V)
    (hpos : 0 < m v) : m = token v := by
  have hends : v = e i ∨ v = x i := by
    rcases hm.support hpos with he | hp
    · exact .inl he
    · exact h.inner i v hv hp
  rcases hends with rfl | rfl
  · exact (h.sound i).again hm hpos
  · exact (h.sound i).proper hm hpos

/-- Control is always inside one edge. -/
theorem states {T : Set (Step P)} (hT : ∀ s, s ∈ T ↔ ∃ i, s ∈ S i) {a : P} (ha : a ∈ V)
    {m : P → Nat} (hm : Reach T (token a) m) :
    m = token a ∨ ∃ i, Reach (S i) (token (e i)) m := by
  induction hm with
  | refl => exact .inl rfl
  | @tail m m' hm hstep ih =>
    obtain ⟨s, hs, hen, rfl⟩ := hstep
    obtain ⟨j, hj⟩ := (hT s).1 hs
    -- A single token on a node can only move into an edge that begins there.
    have hnode : ∀ v ∈ V, m = token v → ∃ i, Reach (S i) (token (e i)) (s.fire m) := by
      rintro v hv rfl
      obtain rfl := h.eq_entry hj hv hen
      exact ⟨j, .single ⟨s, hj, hen, rfl⟩⟩
    rcases ih with hm' | ⟨i, hi⟩
    · exact .inr (hnode a ha hm')
    · by_cases hij : i = j
      · subst hij
        exact .inr ⟨i, hi.tail ⟨s, hj, hen, rfl⟩⟩
      · obtain ⟨p, hp⟩ := (h.sound j).takes s hj
        have hpV : p ∈ V := by
          rcases hi.support (hen p hp) with rfl | hpi
          · exact h.entry i
          · exact h.apart i j p hij hpi (mem_places_of_pre hj hp)
        exact .inr (hnode p hpV (h.eq_token hi hpV (hen p hp)))

/-- A path is run through edge by edge. -/
theorem reach_of_path {T : Set (Step P)} (hT : ∀ s, s ∈ T ↔ ∃ i, s ∈ S i) {u : P}
    (hp : Path e x u v) : Reach T (token u) (token v) := by
  induction hp with
  | refl => exact .refl _ _
  | tail _ hlink ih =>
    obtain ⟨i, rfl, rfl⟩ := hlink
    exact ih.trans (((h.sound i).option (.refl _ _)).mono fun s hs => (hT s).2 ⟨i, hs⟩)

/-- A graph in which every edge lies on the way from the start to the end is sound. -/
theorem sound_of_paths {T : Set (Step P)} (hT : ∀ s, s ∈ T ↔ ∃ i, s ∈ S i) {a b : P}
    (ha : a ∈ V) (hb : b ∈ V) (hab : a ≠ b) (hlast : ∀ i, e i ≠ b) (hto : ∀ i, Path e x a (e i))
    (hfrom : ∀ i, Path e x (x i) b) (hpath : Path e x a b) : Sound T a b := by
  have hsub (i : ι) : S i ⊆ T := fun s hs => (hT s).2 ⟨i, hs⟩
  have hnode {m : P → Nat} {v : P} (hm : Reach T (token a) m) (hv : v ∈ V) (hpos : 0 < m v) :
      m = token v := by
    rcases h.states hT ha hm with rfl | ⟨i, hi⟩
    · rw [eq_of_token_pos hpos]
    · exact h.eq_token hi hv hpos
  refine ⟨hab, ?_, ?_, ?_, fun hm => hnode hm hb, fun hm => hnode hm ha, ?_, ?_⟩
  · intro s hs
    obtain ⟨i, hi⟩ := (hT s).1 hs
    exact (h.sound i).takes s hi
  · intro s hs hbs
    obtain ⟨i, hi⟩ := (hT s).1 hs
    rcases h.inner i b hb (mem_places_of_pre hi hbs) with he | rfl
    · exact hlast i he.symm
    · exact (h.sound i).last s hi hbs
  · intro m hm p
    rcases h.states hT ha hm with rfl | ⟨i, hi⟩
    · exact token_le_one a p
    · exact (h.sound i).safe hi p
  · intro m hm
    rcases h.states hT ha hm with rfl | ⟨i, hi⟩
    · exact h.reach_of_path hT hpath
    · exact (((h.sound i).option hi).mono (hsub i)).trans (h.reach_of_path hT (hfrom i))
  · intro s hs
    obtain ⟨i, hi⟩ := (hT s).1 hs
    obtain ⟨m, hm, hen⟩ := (h.sound i).live s hi
    exact ⟨m, (h.reach_of_path hT (hto i)).trans (hm.mono (hsub i)), hen⟩

end Joined

/-! ## Parallel systems -/

/-- The places of a system with its two ends. -/
def span (S : Set (Step P)) (e x : P) : Set P := {p | p = e ∨ p = x ∨ p ∈ places S}

omit [DecidableEq P] in
theorem places_subset_span {S : Set (Step P)} {e x : P} : places S ⊆ span S e x :=
  fun _ hp => .inr (.inr hp)

/-- Sound systems without common places. -/
structure Abreast (S : ι → Set (Step P)) (e x : ι → P) : Prop where
  sound : ∀ i, Sound (S i) (e i) (x i)
  apart : ∀ i j p, p ∈ span (S i) (e i) (x i) → p ∈ span (S j) (e j) (x j) → i = j

/-- The marking is made up of markings of the single systems. -/
def Shares (S : ι → Set (Step P)) (e x : ι → P) (m : P → Nat) (μ : ι → P → Nat) : Prop :=
  (∀ i p, p ∈ span (S i) (e i) (x i) → m p = μ i p)
    ∧ ∀ p, (∀ i, p ∉ span (S i) (e i) (x i)) → m p = 0

namespace Abreast

variable {S : ι → Set (Step P)} {e x : ι → P} {m : P → Nat} {μ : ι → P → Nat} {j : ι}
  (h : Abreast S e x)
include h

/-- What is not touched keeps its tokens. -/
theorem fire_of_not_mem {i : ι} {p : P} (hs : s ∈ S j) (hp : p ∈ span (S i) (e i) (x i))
    (hij : i ≠ j) : s.fire m p = m p := by
  have hnot : p ∉ places (S j) := fun hj => hij (h.apart i j p hp (places_subset_span hj))
  have hpre : p ∉ s.pre := fun hpre => hnot ⟨s, hs, .inl hpre⟩
  have hpost : p ∉ s.post := fun hpost => hnot ⟨s, hs, .inr hpost⟩
  simp [Step.fire, hpre, hpost]

/-- A step of one system concerns that system's share only. -/
theorem shares_fire [DecidableEq ι] (hs : s ∈ S j) (hm : Shares S e x m μ) :
    Shares S e x (s.fire m) (Function.update μ j (s.fire (μ j))) := by
  constructor
  · intro i p hp
    by_cases hij : i = j
    · subst hij
      rw [Function.update_self, Step.fire, Step.fire, hm.1 i p hp]
    · rw [Function.update_of_ne hij, h.fire_of_not_mem hs hp hij, hm.1 i p hp]
  · intro p hp
    have hnot : p ∉ places (S j) := fun hj => hp j (places_subset_span hj)
    have hpre : p ∉ s.pre := fun hpre => hnot ⟨s, hs, .inl hpre⟩
    have hpost : p ∉ s.post := fun hpost => hnot ⟨s, hs, .inr hpost⟩
    simp [Step.fire, hpre, hpost, hm.2 p hp]

omit [DecidableEq P] h in
theorem enabled_iff (hs : s ∈ S j) (hm : Shares S e x m μ) : s.Enabled m ↔ s.Enabled (μ j) := by
  have hshare : ∀ p ∈ s.pre, m p = μ j p :=
    fun p hp => hm.1 j p (places_subset_span (mem_places_of_pre hs hp))
  constructor
  · intro hen p hp
    rw [← hshare p hp]
    exact hen p hp
  · intro hen p hp
    rw [hshare p hp]
    exact hen p hp

/-- One system can go on while the others stay. -/
theorem reach_update [DecidableEq ι] {T : Set (Step P)} (hT : ∀ i, S i ⊆ T)
    (hm : Shares S e x m μ) {ν : P → Nat} (hν : Reach (S j) (μ j) ν) :
    ∃ m', Reach T m m' ∧ Shares S e x m' (Function.update μ j ν) := by
  induction hν with
  | refl => exact ⟨m, .refl _ _, by rwa [Function.update_eq_self]⟩
  | tail _ hstep ih =>
    obtain ⟨m', hreach, hm'⟩ := ih
    obtain ⟨s, hs, hen, rfl⟩ := hstep
    have hshare := h.shares_fire hs hm'
    rw [Function.update_self, Function.update_idem] at hshare
    refine ⟨s.fire m', hreach.tail ⟨s, hT j hs, ?_, rfl⟩, hshare⟩
    rw [enabled_iff hs hm', Function.update_self]
    exact hen

end Abreast

/-- Systems without common places between a step that starts them all and a
step that waits for them all. -/
structure Forked (T : Set (Step P)) (a b : P) (split join : Step P) (S : ι → Set (Step P))
    (e x : ι → P) : Prop extends Abreast S e x where
  ne : a ≠ b
  start : ∀ i, a ∉ span (S i) (e i) (x i)
  finish : ∀ i, b ∉ span (S i) (e i) (x i)
  split_pre : ∀ p, p ∈ split.pre ↔ p = a
  split_post : ∀ p, p ∈ split.post ↔ ∃ i, p = e i
  join_pre : ∀ p, p ∈ join.pre ↔ ∃ i, p = x i
  join_post : ∀ p, p ∈ join.post ↔ p = b
  steps : ∀ s, s ∈ T ↔ s = split ∨ s = join ∨ ∃ i, s ∈ S i

namespace Forked

variable {T : Set (Step P)} {a b : P} {split join : Step P} {S : ι → Set (Step P)} {e x : ι → P}
  {m : P → Nat} {μ : ι → P → Nat} (h : Forked T a b split join S e x)
include h

/-- The first step gives every system its token. -/
theorem shares_split : Shares S e x (split.fire (token a)) (fun i => token (e i)) := by
  constructor
  · intro i p hp
    have hpa : p ≠ a := fun he => h.start i (he ▸ hp)
    have hpost : p ∈ split.post ↔ p = e i := by
      rw [h.split_post]
      constructor
      · rintro ⟨j, rfl⟩
        rw [h.apart i j _ hp (.inl rfl)]
      · exact fun he => ⟨i, he⟩
    simp only [Step.fire, h.split_pre, hpost, token, hpa, if_false]
    omega
  · intro p hp
    have hpost : ¬ p ∈ split.post := by
      rw [h.split_post]
      rintro ⟨i, rfl⟩
      exact hp i (.inl rfl)
    simp only [Step.fire, h.split_pre, hpost, if_false, token]
    omega

/-- The last step takes the tokens of all systems. -/
theorem fire_join (hm : Shares S e x m fun i => token (x i)) : join.fire m = token b := by
  funext p
  unfold Step.fire
  simp only [h.join_post, token]
  by_cases hp : ∃ i, p ∈ span (S i) (e i) (x i)
  · obtain ⟨i, hi⟩ := hp
    have hpb : p ≠ b := fun he => h.finish i (he ▸ hi)
    have hpre : p ∈ join.pre ↔ p = x i := by
      rw [h.join_pre]
      constructor
      · rintro ⟨j, rfl⟩
        rw [h.apart i j _ hi (.inr (.inl rfl))]
      · exact fun he => ⟨i, he⟩
    simp only [hm.1 i p hi, token, hpre, hpb, if_false]
    omega
  · have hpre : p ∉ join.pre := by
      rw [h.join_pre]
      rintro ⟨i, rfl⟩
      exact hp ⟨i, .inr (.inl rfl)⟩
    rw [hm.2 p fun i hi => hp ⟨i, hi⟩]
    simp only [hpre, if_false]
    omega

/-- With a token on a place of no system, no step of a system can be taken. -/
theorem not_enabled (hv : ∀ i, v ∉ span (S i) (e i) (x i)) {i : ι} (hs : s ∈ S i) :
    ¬ s.Enabled (token v) := by
  intro hen
  obtain ⟨p, hp⟩ := (h.sound i).takes s hs
  rw [eq_of_token_pos (hen p hp)] at hp
  exact hv i (places_subset_span (mem_places_of_pre hs hp))

/-- Before the first step, after the last, or every system in a state of its own. -/
theorem states [Nonempty ι] (hm : Reach T (token a) m) :
    m = token a ∨ m = token b
      ∨ ∃ μ, (∀ i, Reach (S i) (token (e i)) (μ i)) ∧ Shares S e x m μ := by
  classical
  induction hm with
  | refl => exact .inl rfl
  | @tail m m' hm hstep ih =>
    obtain ⟨s, hs, hen, rfl⟩ := hstep
    rcases ih with rfl | rfl | ⟨μ, hμ, hshare⟩
    · rcases (h.steps s).1 hs with rfl | rfl | ⟨i, hi⟩
      · exact .inr (.inr ⟨_, fun i => .refl _ _, h.shares_split⟩)
      · obtain ⟨i⟩ := ‹Nonempty ι›
        have hx := eq_of_token_pos (hen (x i) ((h.join_pre _).2 ⟨i, rfl⟩))
        exact absurd (.inr (.inl hx.symm)) (h.start i)
      · exact absurd hen (h.not_enabled h.start hi)
    · rcases (h.steps s).1 hs with rfl | rfl | ⟨i, hi⟩
      · have ha := eq_of_token_pos (hen a ((h.split_pre a).2 rfl))
        exact absurd ha h.ne
      · obtain ⟨i⟩ := ‹Nonempty ι›
        have hx := eq_of_token_pos (hen (x i) ((h.join_pre _).2 ⟨i, rfl⟩))
        exact absurd (.inr (.inl hx.symm)) (h.finish i)
      · exact absurd hen (h.not_enabled h.finish hi)
    · rcases (h.steps s).1 hs with rfl | rfl | ⟨i, hi⟩
      · have ha := hen a ((h.split_pre a).2 rfl)
        rw [hshare.2 a h.start] at ha
        exact absurd ha (Nat.lt_irrefl 0)
      · have hdone : ∀ i, μ i = token (x i) := by
          intro i
          have hx := hen (x i) ((h.join_pre _).2 ⟨i, rfl⟩)
          rw [hshare.1 i _ (.inr (.inl rfl))] at hx
          exact (h.sound i).proper (hμ i) hx
        rw [funext hdone] at hshare
        exact .inr (.inl (h.fire_join hshare))
      · have hmove : Reach (S i) (token (e i)) (s.fire (μ i)) :=
          (hμ i).tail ⟨s, hi, (Abreast.enabled_iff hi hshare).1 hen, rfl⟩
        refine .inr (.inr ⟨_, fun k => ?_, h.shares_fire hi hshare⟩)
        by_cases hk : k = i
        · subst hk
          rwa [Function.update_self]
        · rw [Function.update_of_ne hk]
          exact hμ k

/-- All systems can be brought to their ends, one after the other. -/
theorem reach_ends [Fintype ι] (hμ : ∀ i, Reach (S i) (token (e i)) (μ i))
    (hm : Shares S e x m μ) : ∃ m', Reach T m m' ∧ Shares S e x m' fun i => token (x i) := by
  classical
  have hT : ∀ i, S i ⊆ T := fun i s hs => (h.steps s).2 (.inr (.inr ⟨i, hs⟩))
  have key : ∀ done : Finset ι, ∃ m', Reach T m m'
      ∧ Shares S e x m' fun i => if i ∈ done then token (x i) else μ i := by
    intro done
    induction done using Finset.induction_on with
    | empty => exact ⟨m, .refl _ _, by simpa using hm⟩
    | @insert j done hj ih =>
      obtain ⟨m', hreach, hm'⟩ := ih
      have hend : Reach (S j) (if j ∈ done then token (x j) else μ j) (token (x j)) := by
        rw [if_neg hj]
        exact (h.sound j).option (hμ j)
      obtain ⟨m'', hreach', hm''⟩ := h.reach_update hT hm' hend
      refine ⟨m'', hreach.trans hreach', ?_⟩
      have heq : Function.update (fun i => if i ∈ done then token (x i) else μ i) j (token (x j))
          = fun i => if i ∈ insert j done then token (x i) else μ i := by
        funext i
        by_cases hi : i = j
        · subst hi
          simp
        · simp [hi]
      rwa [heq] at hm''
  obtain ⟨m', hreach, hm'⟩ := key Finset.univ
  exact ⟨m', hreach, by simpa using hm'⟩

theorem split_enabled : split.Enabled (token a) := by
  intro p hp
  rw [(h.split_pre p).1 hp, token_self]
  exact Nat.one_pos

theorem join_enabled (hm : Shares S e x m fun i => token (x i)) : join.Enabled m := by
  intro p hp
  obtain ⟨i, rfl⟩ := (h.join_pre p).1 hp
  have hx : m (x i) = token (x i) (x i) := hm.1 i _ (.inr (.inl rfl))
  rw [hx, token_self]
  exact Nat.one_pos

/-- All at once. -/
theorem sound_fork [Fintype ι] [Nonempty ι] : Sound T a b := by
  classical
  have hsplit : Fires T (token a) (split.fire (token a)) :=
    ⟨split, (h.steps _).2 (.inl rfl), h.split_enabled, rfl⟩
  have hjoin {m : P → Nat} (hm : Shares S e x m fun i => token (x i)) : Fires T m (token b) :=
    ⟨join, (h.steps _).2 (.inr (.inl rfl)), h.join_enabled hm, h.fire_join hm⟩
  have hshare : ∀ i, Reach (S i) (token (e i)) (token (e i)) := fun i => .refl _ _
  obtain ⟨m₁, hm₁, hends⟩ := h.reach_ends hshare h.shares_split
  have hrun : Reach T (token a) m₁ := (Reach.single hsplit).trans hm₁
  refine ⟨h.ne, ?_, ?_, ?_, ?_, ?_, ?_, ?_⟩
  · intro s hs
    rcases (h.steps s).1 hs with rfl | rfl | ⟨i, hi⟩
    · exact ⟨a, (h.split_pre a).2 rfl⟩
    · obtain ⟨i⟩ := ‹Nonempty ι›
      exact ⟨x i, (h.join_pre _).2 ⟨i, rfl⟩⟩
    · exact (h.sound i).takes s hi
  · intro s hs hb
    rcases (h.steps s).1 hs with rfl | rfl | ⟨i, hi⟩
    · exact h.ne ((h.split_pre b).1 hb).symm
    · obtain ⟨i, hi⟩ := (h.join_pre b).1 hb
      exact h.finish i (.inr (.inl hi))
    · exact h.finish i (places_subset_span (mem_places_of_pre hi hb))
  · intro m hm p
    rcases h.states hm with rfl | rfl | ⟨μ, hμ, hshare⟩
    · exact token_le_one a p
    · exact token_le_one b p
    · by_cases hp : ∃ i, p ∈ span (S i) (e i) (x i)
      · obtain ⟨i, hi⟩ := hp
        rw [hshare.1 i p hi]
        exact (h.sound i).safe (hμ i) p
      · rw [hshare.2 p fun i hi => hp ⟨i, hi⟩]
        exact Nat.zero_le 1
  · intro m hm hpos
    rcases h.states hm with rfl | rfl | ⟨μ, hμ, hshare⟩
    · exact absurd (eq_of_token_pos hpos).symm h.ne
    · rfl
    · rw [hshare.2 b h.finish] at hpos
      exact absurd hpos (Nat.lt_irrefl 0)
  · intro m hm hpos
    rcases h.states hm with rfl | rfl | ⟨μ, hμ, hshare⟩
    · rfl
    · exact absurd (eq_of_token_pos hpos) h.ne
    · rw [hshare.2 a h.start] at hpos
      exact absurd hpos (Nat.lt_irrefl 0)
  · intro m hm
    rcases h.states hm with rfl | rfl | ⟨μ, hμ, hshare⟩
    · exact hrun.tail (hjoin hends)
    · exact .refl _ _
    · obtain ⟨m', hm', hends'⟩ := h.reach_ends hμ hshare
      exact hm'.tail (hjoin hends')
  · intro s hs
    rcases (h.steps s).1 hs with rfl | rfl | ⟨i, hi⟩
    · exact ⟨token a, .refl _ _, h.split_enabled⟩
    · exact ⟨m₁, hrun, h.join_enabled hends⟩
    · obtain ⟨ν, hν, hen⟩ := (h.sound i).live s hi
      obtain ⟨m, hm, hm'⟩ := h.reach_update (fun i s hs => (h.steps s).2 (.inr (.inr ⟨i, hs⟩)))
        h.shares_split hν
      refine ⟨m, (Reach.single hsplit).trans hm, ?_⟩
      rw [Abreast.enabled_iff hi hm', Function.update_self]
      exact hen

end Forked

end OpenWorkflow.TokenGame
