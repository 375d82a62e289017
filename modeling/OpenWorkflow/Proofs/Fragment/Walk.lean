import OpenWorkflow.Fragment.Activity
import OpenWorkflow.Proofs.Workflow.Tree

/-!
# The activities of which a net is built

Not everything that stands in an activity becomes part of its net: a flowchart
without a start has nothing to do, a final state is not left, and a trigger that
no transition waits for does not fire. Then again a state has a copy of its own
of each trigger it waits for, and where an activity is missing there may be a
step that does nothing. `Activity.built` are the activities whose fragments stand
directly in the fragment of another one, and `Activity.walk` are all fragments of
an activity, in the order of their numbers: what is built under number `k` has
`k + i` for the `i`-th of them.

`Activity.places` are the names, without the number, of the places that a
fragment has besides its two ends. It is `Unambiguous` if no two of its places
have one name.
-/

namespace OpenWorkflow

open Fragment.StateMachine (Candidate candidatesOf targetName triggerKeys)

variable {a c : Activity} {P : Activity → Prop}

/-! ## What is built -/

/-- The activities of a branch for which there is a fragment. -/
def PickBranch.built (b : PickBranch Activity) : List Activity :=
  b.trigger.getD .empty :: b.action.toList

/-- The activities of a node for which there is a fragment. -/
def FlowNode.built : FlowNode Activity → List Activity
  | step _ action _ => [action.getD .empty]
  | decision _ _ _ | switch _ _ _ => []

/-- The activities of a state for which there is a fragment. -/
def State.built (triggers : List (String × Activity)) (s : State Activity) : List Activity :=
  s.entry.toList ++
    if s.isFinal then []
    else
      s.exit.toList ++ s.transitions.flatMap (·.action.toList)
        ++ (triggerKeys s.transitions).filterMap (fun key => triggers.lookup key)

/-- The activities whose fragments stand directly in that of another one. -/
def Activity.built : Activity → List Activity
  | .atomic _ | .empty | .messaging _ => []
  | .sequence children => if children.isEmpty then [.empty] else children
  | .conditional onTrue onFalse => onTrue.toList ++ onFalse.toList
  | .switch cases fallback => cases ++ fallback.toList
  | .loop _ body => body.toList
  | .parallel branches => if branches.isEmpty then [.empty] else branches
  | .pick branches => if branches.isEmpty then [.empty] else branches.flatMap PickBranch.built
  | .flowchart none _ => [.empty]
  | .flowchart (some _) nodes => nodes.flatMap FlowNode.built
  | .stateMachine _ states triggers => states.flatMap (State.built triggers)

theorem mem_parts_of_getD {a : Option Activity} (h : c = a.getD .empty) :
    c = .empty ∨ c ∈ a.toList := by
  cases a with
  | none => exact .inl h
  | some a => exact .inr (by simp [h])

theorem mem_of_lookup {α : Type} {key : String} {a : α} {entries : List (String × α)}
    (h : entries.lookup key = some a) : a ∈ entries.map Prod.snd := by
  induction entries with
  | nil => cases h
  | cons e entries ih =>
    rw [List.lookup_cons] at h
    split at h
    · exact Option.some.inj h ▸ List.mem_cons_self ..
    · exact List.mem_cons_of_mem _ (ih h)

/-- What is built stands in the activity or has nothing to do. -/
theorem Activity.mem_built (h : c ∈ a.built) : c = .empty ∨ c ∈ a.parts := by
  cases a with
  | atomic _ => cases h
  | empty => cases h
  | messaging _ => cases h
  | conditional _ _ => exact .inr h
  | switch _ _ => exact .inr h
  | loop _ _ => exact .inr h
  | sequence children =>
    simp only [built] at h
    split at h
    · exact .inl (List.mem_singleton.1 h)
    · exact .inr h
  | parallel branches =>
    simp only [built] at h
    split at h
    · exact .inl (List.mem_singleton.1 h)
    · exact .inr h
  | pick branches =>
    simp only [built] at h
    split at h
    · exact .inl (List.mem_singleton.1 h)
    · obtain ⟨b, hb, hc⟩ := List.mem_flatMap.1 h
      rcases List.mem_cons.1 hc with hc | hc
      · refine (mem_parts_of_getD hc).imp_right fun hc => ?_
        exact List.mem_flatMap.2 ⟨b, hb, List.mem_append_left _ hc⟩
      · exact .inr (List.mem_flatMap.2 ⟨b, hb, List.mem_append_right _ hc⟩)
  | flowchart start nodes =>
    cases start with
    | none => exact .inl (List.mem_singleton.1 h)
    | some start =>
      obtain ⟨n, hn, hc⟩ := List.mem_flatMap.1 h
      cases n with
      | step id action next =>
        refine (mem_parts_of_getD (List.mem_singleton.1 hc)).imp_right fun hc => ?_
        exact List.mem_flatMap.2 ⟨_, hn, hc⟩
      | decision _ _ _ => cases hc
      | switch _ _ _ => cases hc
  | stateMachine initial states triggers =>
    refine .inr ?_
    obtain ⟨s, hs, hc⟩ := List.mem_flatMap.1 h
    have hstate {c : Activity} (hc : c ∈ s.parts) : c ∈ states.flatMap State.parts :=
      List.mem_flatMap.2 ⟨s, hs, hc⟩
    rcases List.mem_append.1 hc with hc | hc
    · exact List.mem_append_left _ (hstate (List.mem_append_left _ (List.mem_append_left _ hc)))
    · split at hc
      · cases hc
      · rcases List.mem_append.1 hc with hc | hc
        · refine List.mem_append_left _ (hstate ?_)
          rcases List.mem_append.1 hc with hc | hc
          · exact List.mem_append_left _ (List.mem_append_right _ hc)
          · exact List.mem_append_right _ hc
        · obtain ⟨key, -, hlookup⟩ := List.mem_filterMap.1 hc
          exact List.mem_append_right _ (mem_of_lookup hlookup)

/-! ## Sizes -/

theorem sizeOf_lt_of_mem_toList {α : Type} [SizeOf α] {a : α} {o : Option α} (h : a ∈ o.toList) :
    sizeOf a < sizeOf o := by
  obtain rfl := Option.mem_toList.1 h
  simp

theorem one_le_sizeOf_list {α : Type} [SizeOf α] (xs : List α) : 1 ≤ sizeOf xs := by
  cases xs with
  | nil => exact Nat.le_refl 1
  | cons x xs =>
    simp only [List.cons.sizeOf_spec]
    omega

theorem one_le_sizeOf_option {α : Type} [SizeOf α] (o : Option α) : 1 ≤ sizeOf o := by
  cases o with
  | none => exact Nat.le_refl 1
  | some a =>
    simp only [Option.some.sizeOf_spec]
    omega

theorem PickBranch.sizeOf_lt {b : PickBranch Activity} (h : c ∈ b.parts) : sizeOf c < sizeOf b := by
  rcases b with ⟨trigger, action⟩
  simp only [PickBranch.mk.sizeOf_spec]
  rcases List.mem_append.1 h with h | h
  · have := sizeOf_lt_of_mem_toList h
    simp only at this
    omega
  · have := sizeOf_lt_of_mem_toList h
    simp only at this
    omega

theorem FlowNode.sizeOf_lt {n : FlowNode Activity} (h : c ∈ n.parts) : sizeOf c < sizeOf n := by
  cases n with
  | step id action next =>
    have := sizeOf_lt_of_mem_toList h
    simp only [FlowNode.step.sizeOf_spec]
    omega
  | decision _ _ _ => cases h
  | switch _ _ _ => cases h

theorem State.sizeOf_lt {s : State Activity} (h : c ∈ s.parts) : sizeOf c < sizeOf s := by
  rcases s with ⟨id, isFinal, entry, exit, transitions⟩
  simp only [State.mk.sizeOf_spec]
  rcases List.mem_append.1 h with h | h
  · rcases List.mem_append.1 h with h | h
    · have := sizeOf_lt_of_mem_toList h
      simp only at this
      omega
    · have := sizeOf_lt_of_mem_toList h
      simp only at this
      omega
  · obtain ⟨t, ht, hc⟩ := List.mem_flatMap.1 h
    have hlt := List.sizeOf_lt_of_mem ht
    have hc := sizeOf_lt_of_mem_toList hc
    rcases t with ⟨target, trigger, guarded, action⟩
    simp only [StateTransition.mk.sizeOf_spec] at hlt hc
    omega

namespace Activity

theorem sizeOf_lt_of_mem_parts (h : c ∈ a.parts) : sizeOf c < sizeOf a := by
  cases a with
  | atomic _ => cases h
  | empty => cases h
  | messaging _ => cases h
  | sequence children =>
    have hlt : sizeOf c < sizeOf children := List.sizeOf_lt_of_mem h
    simp only [sequence.sizeOf_spec]
    omega
  | conditional onTrue onFalse =>
    simp only [conditional.sizeOf_spec]
    rcases List.mem_append.1 h with h | h
    · have := sizeOf_lt_of_mem_toList h
      omega
    · have := sizeOf_lt_of_mem_toList h
      omega
  | switch cases fallback =>
    simp only [switch.sizeOf_spec]
    rcases List.mem_append.1 h with h | h
    · have := List.sizeOf_lt_of_mem h
      omega
    · have := sizeOf_lt_of_mem_toList h
      omega
  | loop test body =>
    have := sizeOf_lt_of_mem_toList h
    simp only [loop.sizeOf_spec]
    omega
  | parallel branches =>
    have hlt : sizeOf c < sizeOf branches := List.sizeOf_lt_of_mem h
    simp only [parallel.sizeOf_spec]
    omega
  | pick branches =>
    obtain ⟨b, hb, hc⟩ := List.mem_flatMap.1 h
    have hlt := List.sizeOf_lt_of_mem hb
    have hc := PickBranch.sizeOf_lt hc
    simp only [pick.sizeOf_spec]
    omega
  | flowchart start nodes =>
    obtain ⟨n, hn, hc⟩ := List.mem_flatMap.1 h
    have hlt := List.sizeOf_lt_of_mem hn
    have hc := FlowNode.sizeOf_lt hc
    simp only [flowchart.sizeOf_spec]
    omega
  | stateMachine initial states triggers =>
    simp only [stateMachine.sizeOf_spec]
    rcases List.mem_append.1 h with h | h
    · obtain ⟨s, hs, hc⟩ := List.mem_flatMap.1 h
      have hlt := List.sizeOf_lt_of_mem hs
      have hc := State.sizeOf_lt hc
      omega
    · obtain ⟨⟨key, a⟩, ht, rfl⟩ := List.mem_map.1 h
      have hlt := List.sizeOf_lt_of_mem ht
      simp only [Prod.mk.sizeOf_spec] at hlt ⊢
      omega

/-- Only a composite activity has something built in it. -/
theorem one_lt_sizeOf_of_mem_built (h : c ∈ a.built) : 1 < sizeOf a := by
  cases a with
  | atomic _ => cases h
  | empty => cases h
  | messaging _ => cases h
  | sequence children =>
    have := one_le_sizeOf_list children
    simp only [sequence.sizeOf_spec]
    omega
  | conditional onTrue onFalse =>
    have := one_le_sizeOf_option onTrue
    simp only [conditional.sizeOf_spec]
    omega
  | switch cases fallback =>
    have := one_le_sizeOf_option fallback
    simp only [switch.sizeOf_spec]
    omega
  | loop test body =>
    have := one_le_sizeOf_option body
    simp only [loop.sizeOf_spec]
    omega
  | parallel branches =>
    have := one_le_sizeOf_list branches
    simp only [parallel.sizeOf_spec]
    omega
  | pick branches =>
    have := one_le_sizeOf_list branches
    simp only [pick.sizeOf_spec]
    omega
  | flowchart start nodes =>
    have := one_le_sizeOf_list nodes
    simp only [flowchart.sizeOf_spec]
    omega
  | stateMachine initial states triggers =>
    have := one_le_sizeOf_list states
    simp only [stateMachine.sizeOf_spec]
    omega

/-- What is built in an activity is smaller. -/
theorem sizeOf_lt_of_mem_built (h : c ∈ a.built) : sizeOf c < sizeOf a := by
  rcases mem_built h with rfl | hpart
  · exact one_lt_sizeOf_of_mem_built h
  · exact sizeOf_lt_of_mem_parts hpart

/-- The activity and everything built in it, in the order of the numbers. -/
def walk (a : Activity) : List Activity :=
  a :: a.built.attach.flatMap fun c => walk c.1
termination_by sizeOf a
decreasing_by exact sizeOf_lt_of_mem_built c.2

/-- A walk goes over the activity and then over what is built in it. -/
theorem walk_eq (a : Activity) : a.walk = a :: a.built.flatMap walk := by
  rw [walk]
  congr 1
  rw [List.flatMap_subtype (g := walk) fun _ _ => rfl, List.unattach_attach]

/-- What holds of an activity once it holds of everything built in it holds of all. -/
theorem built_induction (h : ∀ a, (∀ c ∈ a.built, P c) → P a) (a : Activity) : P a :=
  h a fun c _hc => built_induction h c
termination_by sizeOf a
decreasing_by exact sizeOf_lt_of_mem_built _hc

/-- What holds along a walk holds of the activity and along the walks inside. -/
theorem forall_mem_walk : (∀ b ∈ a.walk, P b) ↔ P a ∧ ∀ c ∈ a.built, ∀ b ∈ c.walk, P b := by
  rw [walk_eq, List.forall_mem_cons, List.forall_mem_flatMap]

/-- What holds throughout an activity holds of all that is built. -/
theorem Throughout.walk (h : a.Throughout P) (hempty : P .empty) : ∀ b ∈ a.walk, P b := by
  induction a using built_induction with
  | h a ih =>
    refine forall_mem_walk.2 ⟨h.here, fun c hc => ih c hc ?_⟩
    rcases mem_built hc with rfl | hpart
    · exact .leaf hempty rfl
    · exact h.part hpart

end Activity

/-- Activities with the numbers from `k` on. -/
theorem mem_zipIdx_iff {as : List Activity} {b : Activity} {k j : Nat} :
    (b, j) ∈ as.zipIdx k ↔ ∃ i : Nat, as[i]? = some b ∧ j = k + i := by
  rw [List.mem_zipIdx_iff_le_and_getElem?_sub]
  constructor
  · rintro ⟨hle, hget⟩
    exact ⟨j - k, hget, (Nat.add_sub_cancel' hle).symm⟩
  · rintro ⟨i, hget, rfl⟩
    refine ⟨Nat.le_add_right k i, ?_⟩
    rwa [Nat.add_sub_cancel_left]

/-! ## Names of places -/

/-- The places of the cases of a switch from the `i`-th on. -/
def casePlaces {α : Type} : Nat → List α → List String
  | _, [] => []
  | i, _ :: cases => ("case" ++ toString i) :: casePlaces (i + 1) cases

/-- The places of `n` cases of a node from the `i`-th on. -/
def nodeCasePlaces (id : String) : Nat → Nat → List String
  | 0, _ => []
  | n + 1, i =>
    (id ++ "." ++ ("condition" ++ toString i)) :: (id ++ "." ++ ("case" ++ toString i))
      :: nodeCasePlaces id n (i + 1)

/-- The places of a node. -/
def FlowNode.places {α : Type} : FlowNode α → List String
  | step id _ _ => [id ++ "." ++ "start", id ++ "." ++ "next"]
  | decision id _ _ =>
    [id ++ "." ++ "start", id ++ "." ++ "condition", id ++ "." ++ "true", id ++ "." ++ "false"]
  | switch id _ cases =>
    [id ++ "." ++ "start", id ++ "." ++ "default"] ++ nodeCasePlaces id cases.length 1

namespace State

variable {α : Type}

/-- The name of a node of a guard chain. -/
def chainName (id label suffix : String) : String := id ++ "." ++ label ++ "." ++ suffix

/-- The places of the candidates of a guard chain from the `k`-th on. -/
def candidatePlaces (id label : String) : Nat → List Candidate → List String
  | _, [] => []
  | k, b :: bs =>
    (if b.guarded then
      chainName id label ("condition" ++ toString k) ::
        if bs.isEmpty then [] else [chainName id label ("runcondition" ++ toString (k + 1))]
    else []) ++ candidatePlaces id label (k + 1) bs

/-- The places of a guard chain. -/
def chainPlaces (id label : String) (bs : List Candidate) : List String :=
  chainName id label "runcondition1" :: candidatePlaces id label 1 bs

/-- The places of the entry of a state. -/
def entryPlaces (id : String) (entry : Option α) : List String :=
  (id ++ ".initialized") ::
    if entry.isSome then [id ++ ".entry.initialized", id ++ ".entry.closed"] else []

/-- The places of the exit of a state. -/
def exitPlaces (id : String) (exit : Option α) : List String :=
  if exit.isSome then [id ++ ".exit.initialized", id ++ ".exit.closed"] else [id ++ ".exit"]

/-- The places of the action of the `i`-th transition. -/
def actionPlaces (id : String) (i : Nat) (action : Option α) : List String :=
  (id ++ ".t" ++ toString i ++ ".action.initialized") ::
    if action.isSome then [id ++ ".t" ++ toString i ++ ".action.closed"] else []

/-- The places of the transitions of a state from the `i`-th on. -/
def transitionPlaces (id : String) : Nat → List (StateTransition α) → List String
  | _, [] => []
  | i, t :: ts =>
    actionPlaces id i t.action ++ [id ++ ".t" ++ toString i ++ ".wait", targetName id i t.target]
      ++ transitionPlaces id (i + 1) ts

/-- The places of a state's copy of a trigger. -/
def triggerPlaces (id : String) (ts : List (StateTransition α)) (key : String) : List String :=
  [id ++ ".trigger." ++ key ++ ".in", id ++ ".trigger." ++ key ++ ".out"]
    ++ chainPlaces id key (candidatesOf (some key) ts)

/-- The places of the transitions that wait for no trigger. -/
def untriggeredPlaces (id : String) (ts : List (StateTransition α)) : List String :=
  if (candidatesOf none ts).isEmpty then []
  else (id ++ ".trigger") :: chainPlaces id "notrigger" (candidatesOf none ts)

/-- The places of a state. -/
def places (s : State α) : List String :=
  entryPlaces s.id s.entry ++
    if s.isFinal then [s.id ++ ".closed"]
    else
      exitPlaces s.id s.exit ++ transitionPlaces s.id 1 s.transitions
        ++ (triggerKeys s.transitions).flatMap (triggerPlaces s.id s.transitions)
        ++ untriggeredPlaces s.id s.transitions

variable {st : State α}

theorem initialized_mem_places (st : State α) : st.id ++ ".initialized" ∈ st.places :=
  List.mem_append_left _ (List.mem_cons_self ..)

theorem closed_mem_places (h : st.isFinal = true) : st.id ++ ".closed" ∈ st.places := by
  refine List.mem_append_right _ ?_
  rw [if_pos h]
  exact List.mem_singleton_self _

theorem transitionPlaces_subset_places (h : st.isFinal = false) :
    transitionPlaces st.id 1 st.transitions ⊆ st.places := by
  intro x hx
  refine List.mem_append_right _ ?_
  rw [h, if_neg Bool.false_ne_true]
  exact List.mem_append_left _ (List.mem_append_left _ (List.mem_append_right _ hx))

/-- Every transition has a place where its action starts. -/
theorem action_mem_transitionPlaces {id : String} {ts : List (StateTransition α)} {k : Nat}
    (hk : k < ts.length) (i : Nat) :
    id ++ ".t" ++ toString (i + k) ++ ".action.initialized" ∈ transitionPlaces id i ts := by
  induction ts generalizing i k with
  | nil => simp at hk
  | cons t ts ih =>
    cases k with
    | zero => exact List.mem_append_left _ (List.mem_append_left _ (List.mem_cons_self ..))
    | succ k =>
      have hmem := ih (by simpa using hk) (i + 1)
      rw [show i + 1 + k = i + (k + 1) by omega] at hmem
      exact List.mem_append_right _ hmem

end State

theorem FlowNode.start_mem_places {α : Type} (n : FlowNode α) :
    n.id ++ "." ++ "start" ∈ n.places := by
  cases n <;> simp [FlowNode.places, FlowNode.id]

/-- Every case of a node has a place where it starts. -/
theorem mem_nodeCasePlaces {id : String} {n k : Nat} (hk : k < n) (i : Nat) :
    id ++ "." ++ ("case" ++ toString (i + k)) ∈ nodeCasePlaces id n i := by
  induction n generalizing i k with
  | zero => omega
  | succ n ih =>
    cases k with
    | zero => simp [nodeCasePlaces]
    | succ k =>
      have hmem := ih (show k < n by omega) (i + 1)
      rw [show i + 1 + k = i + (k + 1) by omega] at hmem
      exact List.mem_cons_of_mem _ (List.mem_cons_of_mem _ hmem)

namespace Activity

/-- The names, without the number, of the places that the fragment has besides its two ends. -/
def places : Activity → List String
  | .conditional _ _ | .loop _ _ => ["condition"]
  | .switch cases _ => casePlaces 1 cases
  | .flowchart (some _) nodes => nodes.flatMap FlowNode.places
  | .stateMachine _ states _ => states.flatMap State.places
  | _ => []

/-- No two places of the fragment have one name. -/
def Unambiguous (a : Activity) : Prop := ("initialized" :: "closed" :: a.places).Nodup

instance (a : Activity) : Decidable a.Unambiguous := List.nodupDecidable _

/-- No fragment of the activity gives a name twice. -/
def Fine (a : Activity) : Prop := ∀ b ∈ a.walk, b.Unambiguous

/-- The names, without the number, of the places that the links of a graph lead to. -/
def linkNames : Activity → List String
  | .flowchart (some start) nodes =>
    (start :: nodes.flatMap FlowNode.targets).map (· ++ "." ++ "start")
  | .stateMachine initial states _ =>
    (initial.toList ++ (states.filter (!·.isFinal)).flatMap (·.transitions.map (·.target))).map
      (· ++ ".initialized")
  | _ => []

/-- The links of a graph lead to places of its fragment. -/
def Anchored (a : Activity) : Prop := ∀ x ∈ a.linkNames, x ∈ "initialized" :: "closed" :: a.places

/-- The texts in the names of the fragment that are not the same for all. -/
def texts : Activity → List String
  | .atomic a => [a.label]
  | .flowchart (some _) nodes => nodes.map FlowNode.id
  | .stateMachine _ states _ => states.flatMap fun s =>
    s.id :: if s.isFinal then [] else s.transitions.flatMap fun t => t.target :: t.trigger.toList
  | _ => []

/-- The names of the interface places that the fragment and those in it use, if it has the
number `k`. -/
def messageNames (a : Activity) (k : Nat) : List String :=
  (a.walk.zipIdx k).filterMap fun b =>
    match b.1 with
    | .messaging m => some (m.placeName ⟨b.2⟩)
    | _ => none

end Activity

end OpenWorkflow
