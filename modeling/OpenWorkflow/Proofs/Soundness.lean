import OpenWorkflow.Proofs.Ambiguity
import OpenWorkflow.Proofs.Soundness.Pieces

/-!
# Soundness of structured workflows

The token game of a net is played on its internal places: a transition can fire
when every internal place of its preset is marked, and then takes one token from
each of them and puts one on each internal place of its postset. It begins with
the tokens that the internal places hold.

A net is sound with respect to a place where it ends, if from every marking that
can be reached the end can be reached too, nothing is left over when it is, no
place ever holds a second token, and no transition is useless. The net of a
structured activity is sound with respect to the place where the activity
closes (`compile_structured_sound`).
-/

namespace OpenWorkflow

open OpenWorkflow.TokenGame (Step Reach Sound token)

namespace Net

/-- The steps of the transitions of the net. -/
def steps (net : Net) : Set (Step PlaceId) := {s | ∃ tr ∈ net.transitions, net.step tr = s}

/-- The marking with which the token game begins. -/
def start (net : Net) (id : PlaceId) : Nat :=
  if id ∈ net.internal then ((net.place? id).map Place.tokens).getD 0 else 0

/-- The token game of the net is sound with respect to the place where it ends. -/
structure SoundAt (net : Net) (closed : PlaceId) : Prop where
  /-- No internal place ever holds more than one token. -/
  safe : ∀ m, Reach net.steps net.start m → ∀ id ∈ net.internal, m id ≤ 1
  /-- When the end is marked, it is the only marked internal place. -/
  proper : ∀ m, Reach net.steps net.start m → 0 < m closed →
    ∀ id ∈ net.internal, 0 < m id → id = closed
  /-- The end can always be marked. -/
  option : ∀ m, Reach net.steps net.start m → ∃ m', Reach net.steps m m' ∧ 0 < m' closed
  /-- Every transition can fire at some time. -/
  live : ∀ tr ∈ net.transitions, ∃ m, Reach net.steps net.start m ∧ (net.step tr).Enabled m

variable {net : Net} {root : Activity} {e x : PlaceId}

/-- A net with a boundary starts with one token. -/
theorem Bounds.start_eq_token (h : net.Bounds e x) (hwf : net.WellFormed) (he : e ∈ net.internal) :
    net.start = token e := by
  funext id
  unfold start token
  by_cases hid : id ∈ net.internal
  · obtain ⟨p, hp, -⟩ := (mem_internal hwf.toListsAgree).1 hid
    rw [if_pos hid, hp, Option.map_some, Option.getD_some, h.tokens hp]
  · rw [if_neg hid, if_neg]
    rintro rfl
    exact hid he

/-- The net of a structured activity plays a sound game between the two boundary places. -/
theorem Shows.sound_steps (h : net.Shows root.sheet) (hblock : ∀ b ∈ root.walk, b.IsBlock) :
    Sound net.steps (net.spot (Scope.initialized ⟨0⟩)) (net.spot (Scope.closed ⟨0⟩)) := by
  have hforest := Activity.forest_sheet hblock
  have hsteps : net.steps = net.stepsNamed (Within 1 root.size) := by
    ext s
    constructor
    · rintro ⟨tr, htr, rfl⟩
      obtain ⟨i, hi⟩ := List.mem_iff_getElem?.1 htr
      have hline := h.transition_kind (u := ⟨i⟩) hi
      have hdrawing : .transition tr.name tr.kind ∈ root.drawing 1 := by
        simpa [Activity.sheet, Activity.endLines] using hline
      exact ⟨tr, htr, Activity.within_of_concerns hdrawing rfl, rfl⟩
    · rintro ⟨tr, htr, -, rfl⟩
      exact ⟨tr, htr, rfl⟩
  -- The boundary is joined to no name before it.
  have hfree {n : String} (hn : Scope.IsEnd ⟨0⟩ n) : net.Knows n ∧ n ∉ ties root.sheet := by
    constructor
    · have hline : .place n .internal ∈ root.sheet := by
        rcases hn with rfl | rfl <;> simp [Activity.sheet, Activity.endLines]
      exact h.known.2 ⟨_, hline⟩
    · intro hmem
      obtain ⟨m, hm⟩ := mem_ties.1 hmem
      obtain ⟨i, j, hij, -, hj⟩ := hforest.below hm
      have heq := hj.unique hn.owns
      injection heq with heq
      omega
  have hne : net.spot (Scope.initialized ⟨0⟩) ≠ net.spot (Scope.closed ⟨0⟩) := fun heq =>
    Scope.initialized_ne_closed _ (h.eq_of_free hforest (hfree (.inl rfl)).1 (hfree (.inr rfl)).1
      (hfree (.inl rfl)).2 (hfree (.inr rfl)).2 heq)
  have hfirst : net.spot (Scope.initialized ⟨0⟩) = net.spot (Scope.initialized ⟨1⟩) :=
    h.spot_eq_of_joins (by simp [Activity.sheet])
  have hlast : net.spot (Scope.closed ⟨0⟩) = net.spot (Scope.closed ⟨1⟩) :=
    h.spot_eq_of_joins (by simp [Activity.sheet])
  rw [hfirst, hlast] at hne ⊢
  rw [hsteps]
  exact h.sound_piece hforest (sited_sheet root) hblock hne

theorem soundAt_of_sound (h : Sound net.steps e x) (hstart : net.start = token e) :
    net.SoundAt x := by
  refine ⟨?_, ?_, ?_, ?_⟩
  · exact fun m hm id _ => h.safe (hstart ▸ hm) id
  · intro m hm hx id _ hpos
    rw [h.proper (hstart ▸ hm) hx] at hpos
    exact TokenGame.eq_of_token_pos hpos
  · intro m hm
    refine ⟨token x, h.option (hstart ▸ hm), ?_⟩
    exact Nat.lt_of_lt_of_eq Nat.one_pos (if_pos rfl).symm
  · intro tr htr
    rw [hstart]
    exact h.live _ ⟨tr, htr, rfl⟩

end Net

namespace Activity

variable {root : Activity}

/-- Structured activities are blocks throughout. -/
theorem Structured.isBlock (h : root.Structured) : ∀ b ∈ root.walk, b.IsBlock :=
  Throughout.walk h ⟨by decide, by decide⟩

theorem IsBlock.links {a : Activity} (h : a.IsBlock) : a.Links := by
  cases a with
  | flowchart _ _ => exact absurd rfl h.1
  | stateMachine _ _ _ => exact absurd rfl h.2
  | _ => trivial

/-- Blocks give no name twice. -/
theorem fine_of_isBlock (h : ∀ b ∈ root.walk, b.IsBlock) : root.Fine :=
  fun b hb => unambiguous_of_links (h b hb).links (h b hb).2

/-- A structured activity has a net. -/
theorem Structured.compile (h : root.Structured) : ∃ net, compile root = .ok net :=
  (compile_outcome fun b hb => (h.isBlock b hb).links).1.2 (fine_of_isBlock h.isBlock)

end Activity

/-- **Structured workflows are sound.** An activity that is built, however nested, from
sequences, choices, loops, parallel branches, picks and primitive activities has a net, and its
token game is sound with respect to the place where the activity closes. -/
theorem compile_structured_sound {t : Activity} (ht : t.Structured) :
    ∃ net closed, compile t = .ok net ∧ net.find? "0.internal.closed" = some closed
      ∧ closed ∈ net.internal ∧ net.SoundAt closed := by
  obtain ⟨net, hok⟩ := ht.compile
  obtain ⟨hwf, e, x, hbounds⟩ := compile_bounds hok
  have hshows := compile_shows hok
  have hname : Scope.closed ⟨0⟩ = "0.internal.closed" := by decide
  have he := (hshows.mem_internal_iff hbounds.first).2 (isNumbered_initialized _)
  have hsound := hshows.sound_steps ht.isBlock
  rw [Net.spot_of_find hbounds.first, Net.spot_of_find hbounds.last] at hsound
  exact ⟨net, x, hok, hname ▸ hbounds.last,
    (hshows.mem_internal_iff hbounds.last).2 (isNumbered_closed _),
    Net.soundAt_of_sound hsound (hbounds.start_eq_token hwf he)⟩

/-- A loop around two parallel branches, one of which waits for a message. -/
theorem compile_structured_sound_loop :
    ∃ net closed,
      compile (.loop .before (some (.parallel [.atomic ⟨"", "Assign", "assign"⟩,
        .pick [⟨some (.messaging ⟨.receive, "C", "order"⟩), some .empty⟩]]))) = .ok net
        ∧ net.find? "0.internal.closed" = some closed ∧ closed ∈ net.internal
        ∧ net.SoundAt closed := by
  refine compile_structured_sound (.intro (by decide) (List.forall_mem_singleton.2 ?_))
  refine .intro (by decide) (List.forall_mem_cons.2 ⟨.leaf (by decide) rfl, ?_⟩)
  refine List.forall_mem_singleton.2 (.intro (by decide) (List.forall_mem_cons.2 ⟨?_, ?_⟩))
  · exact .leaf (by decide) rfl
  · exact List.forall_mem_singleton.2 (.leaf (by decide) rfl)

end OpenWorkflow
