import OpenWorkflow.Proofs.Drawing.Congruence
import OpenWorkflow.Proofs.Success

/-!
# The order of declarations

The branches of a parallel or a pick, the nodes of a flowchart and the states of a
state machine are built one after another, so the order in which they are declared
shows in the numbers of their fragments. It shows in nothing else: an activity
with these parts in another order has a net as well, and it is isomorphic
(`compile_reordered`).

The four kinds of activities have in common that their parts draw lines of their
own, and that whatever ties them together does not depend on the order
(`Arranged`). Two neighbours trade places by a renaming that exchanges their
blocks of numbers (`Arranged.congruent_swap`), and every order is reached that way.
-/

namespace OpenWorkflow

open Fragment.Flowchart (nodeName)
open Activity (sizes endLines draw walk parallelBranchLines pickBranchLines nodeLines edgeLines
  stateLines targetLines)

/-! ## Exchanging blocks of numbers -/

/-- The block of `a` numbers from `k` on trades places with the next `b` numbers. -/
def exchange (k a b j : Nat) : Nat :=
  if j < k then j else if j < k + a then j + b else if j < k + a + b then j - a else j

/-- Two exchanges undo each other. -/
theorem exchange_exchange (k a b j : Nat) : exchange k b a (exchange k a b j) = j := by
  unfold exchange
  grind

/-- Renamings that exchange two blocks and exchange them back. -/
theorem returns_exchange {f f' : String → String} {k a b : Nat}
    (hf : ∀ j, Renumbers f ⟨j⟩ ⟨exchange k a b j⟩) (hf' : ∀ j, Renumbers f' ⟨j⟩ ⟨exchange k b a j⟩)
    (s : Scope) : Returns f f' s := by
  have hback := hf' (exchange k a b s.id)
  rw [exchange_exchange] at hback
  exact ⟨_, hf s.id, hback⟩

/-! ## Parts -/

section Parts

variable {α : Type} {part : Nat → α → List Line} {built : α → List Activity} {f : String → String}

theorem two_le_length (xs : List α) (x y : α) (ys : List α) :
    2 ≤ (xs ++ x :: y :: ys).length := by
  simp only [List.length_append, List.length_cons]
  omega

theorem numberedLines_append (k : Nat) (xs ys : List α) :
    numberedLines part built k (xs ++ ys) = numberedLines part built k xs
      ++ numberedLines part built (k + sizes (xs.flatMap built)) ys := by
  induction xs generalizing k with
  | nil => rfl
  | cons x xs ih => simp [numberedLines, ih, Nat.add_assoc]

/-- A part with everything that is built in it. -/
def wholePart (part : Nat → α → List Line) (built : α → List Activity) (k : Nat) (x : α) :
    List Line :=
  part k x ++ draw (k + 1) ((built x).flatMap walk)

/-- The lines of parts and of everything in them, part by part. -/
theorem mem_numberedLines_wholePart {k : Nat} {xs : List α} {l : Line} :
    l ∈ numberedLines (wholePart part built) built k xs ↔
      l ∈ numberedLines part built k xs ∨
        l ∈ draw (k + 1) ((xs.flatMap built).flatMap walk) := by
  induction xs generalizing k with
  | nil => simp [numberedLines, draw]
  | cons x xs ih =>
    have hlength : ((built x).flatMap walk).length = sizes (built x) := rfl
    simp only [numberedLines, wholePart, List.mem_append, ih, List.flatMap_cons,
      List.flatMap_append, Activity.draw_append, hlength, Nat.add_right_comm k 1]
    grind

end Parts

/-- An activity whose fragment is made up of parts. The parts draw their own lines, and the rest
of the lines do not depend on the order of the parts. -/
structure Arranged {α : Type} (root : List α → Activity) (part : Nat → α → List Line)
    (built : α → List Activity) (rest : List α → List Line) : Prop where
  built_eq : ∀ {xs}, 2 ≤ xs.length → (root xs).built = xs.flatMap built
  mem_lines : ∀ {xs l}, 2 ≤ xs.length → (l ∈ (root xs).lines 1 ↔
    l ∈ endLines ⟨1⟩ ∨ l ∈ rest xs ∨ l ∈ numberedLines part built 1 xs)
  map_part : ∀ {f k k' x}, Renumbers f ⟨1⟩ ⟨1⟩ → Shifts f (k + 1) (k' + 1) (sizes (built x)) →
    (part k x).map (Line.map f) = part k' x
  map_rest : ∀ {f xs}, Renumbers f ⟨1⟩ ⟨1⟩ → (rest xs).map (Line.map f) = rest xs
  rest_perm : ∀ {xs ys}, xs.Perm ys → (rest xs).Perm (rest ys)
  places_perm : ∀ {xs ys}, xs.Perm ys → (root xs).places.Perm (root ys).places
  linkNames_perm : ∀ {xs ys}, xs.Perm ys → (root xs).linkNames.Perm (root ys).linkNames
  unmistakable : ∀ xs, (root xs).Unmistakable

namespace Arranged

variable {α : Type} {root : List α → Activity} {part : Nat → α → List Line}
  {built : α → List Activity} {rest : List α → List Line} {xs ys : List α} {x y : α}
  {f : String → String} (A : Arranged root part built rest)
include A

/-- The drawing of the whole net. -/
theorem mem_sheet (hxs : 2 ≤ xs.length) {l : Line} :
    l ∈ (root xs).sheet ↔
      l ∈ Activity.spliceLines (Scope.initialized ⟨0⟩) (Scope.closed ⟨0⟩) ⟨1⟩ ∨
        l ∈ endLines ⟨0⟩ ∨ l ∈ endLines ⟨1⟩ ∨ l ∈ rest xs ∨
          l ∈ numberedLines (wholePart part built) built 1 xs := by
  rw [Activity.mem_sheet, Activity.drawing_eq, List.mem_append, A.mem_lines hxs, A.built_eq hxs,
    mem_numberedLines_wholePart]
  tauto

/-- A part with everything in it, under other numbers. -/
theorem map_wholePart {k k' : Nat} (hone : Renumbers f ⟨1⟩ ⟨1⟩)
    (hu : ∀ c ∈ built x, ∀ b ∈ c.walk, b.Unmistakable)
    (h : Shifts f (k + 1) (k' + 1) (sizes (built x))) :
    (wholePart part built k x).map (Line.map f) = wholePart part built k' x := by
  have hinside := Activity.map_draw (fun c hc _ _ hc' => Activity.map_drawing (hu c hc) hc') h
  rw [wholePart, wholePart, List.map_append, A.map_part hone h, hinside]

/-- Exchanging the numbers of two neighbours carries the parts over. -/
theorem map_mem_swap {l : Line}
    (hu : ∀ z ∈ xs ++ x :: y :: ys, ∀ c ∈ built z, ∀ b ∈ c.walk, b.Unmistakable)
    (hf : ∀ k, Renumbers f ⟨k⟩ ⟨exchange (sizes (xs.flatMap built) + 2) (sizes (built x)) (sizes
      (built y)) k⟩) (hone : Renumbers f ⟨1⟩ ⟨1⟩)
    (hl : l ∈ numberedLines (wholePart part built) built 1 (xs ++ x :: y :: ys)) :
    l.map f ∈ numberedLines (wholePart part built) built 1 (xs ++ y :: x :: ys) := by
  have hshifts {k k' n : Nat} (h : ∀ i < n, exchange (sizes (xs.flatMap built) + 2)
      (sizes (built x)) (sizes (built y)) (k + i) = k' + i) : Shifts f k k' n := by
    intro i hi
    rw [← h i hi]
    exact hf (k + i)
  have hpart {z : α} (hz : z ∈ xs ++ x :: y :: ys) {k k' : Nat}
      (h : Shifts f (k + 1) (k' + 1) (sizes (built z))) :
      (wholePart part built k z).map (Line.map f) = wholePart part built k' z :=
    A.map_wholePart hone (hu z hz) h
  rw [numberedLines_append, numberedLines, numberedLines, List.mem_append, List.mem_append,
    List.mem_append] at hl
  rw [numberedLines_append, numberedLines, numberedLines, List.mem_append, List.mem_append,
    List.mem_append]
  rcases hl with hl | hl | hl | hl
  · refine .inl (Line.map_mem (map_numberedLines
      (fun z hz _ _ => hpart (List.mem_append_left _ hz)) (hshifts fun i hi => ?_)) hl)
    rw [exchange, if_pos (by omega)]
  · refine .inr (.inr (.inl (Line.map_mem (hpart (by simp) (hshifts fun i hi => ?_)) hl)))
    unfold exchange
    grind
  · refine .inr (.inl (Line.map_mem (hpart (by simp) (hshifts fun i hi => ?_)) hl))
    unfold exchange
    grind
  · refine .inr (.inr (.inr (Line.map_mem (map_numberedLines
      (fun z hz _ _ => hpart (by simp [hz])) (hshifts fun i hi => ?_)) hl)))
    unfold exchange
    grind

/-- The swap of two branches carries the drawing over. -/
theorem carries_swap (hu : ∀ b ∈ (root (xs ++ x :: y :: ys)).walk, b.Unmistakable)
    (hf : ∀ k, Renumbers f ⟨k⟩ ⟨exchange (sizes (xs.flatMap built) + 2) (sizes (built x)) (sizes
      (built y)) k⟩) :
    Carries f (root (xs ++ x :: y :: ys)).sheet (root (xs ++ y :: x :: ys)).sheet := by
  have hlength := two_le_length xs x y ys
  have hlength' := two_le_length xs y x ys
  have hperm := (List.Perm.swap y x ys).append_left xs
  have hlow {k : Nat} (hk : k < 2) : Renumbers f ⟨k⟩ ⟨k⟩ := by
    have hfk := hf k
    rwa [exchange, if_pos (by omega)] at hfk
  have hzero := hlow Nat.two_pos
  have hone := hlow Nat.one_lt_two
  have hinside : ∀ z ∈ xs ++ x :: y :: ys, ∀ c ∈ built z, ∀ b ∈ c.walk, b.Unmistakable := by
    have hwalk := (Activity.forall_mem_walk.1 hu).2
    rw [A.built_eq hlength] at hwalk
    exact fun z hz c hc => hwalk c (List.mem_flatMap.2 ⟨z, hz, hc⟩)
  refine .of_lines (fun l hl => .inl ?_) (fun t kind ht => ?_) hzero.initialized hzero.closed
  · rw [A.mem_sheet hlength] at hl
    rw [A.mem_sheet hlength']
    rcases hl with hl | hl | hl | hl | hl
    · exact .inl (Line.map_mem (Activity.map_spliceLines hone hzero.initialized hzero.closed) hl)
    · exact .inr (.inl (Line.map_mem (Activity.map_endLines hzero) hl))
    · exact .inr (.inr (.inl (Line.map_mem (Activity.map_endLines hone) hl)))
    · have hrest := (A.rest_perm hperm).mem_iff.1 (Line.map_mem (A.map_rest hone) hl)
      exact .inr (.inr (.inr (.inl hrest)))
    · exact .inr (.inr (.inr (.inr (A.map_mem_swap hinside hf hone hl))))
  · obtain ⟨i, b, z, -, -, rfl⟩ := Activity.transition_numbered ht
    exact .inr ⟨_, _, z, rfl, (hf (1 + i)).name z⟩

/-- The messages of an activity are the same in any order. -/
theorem forall_mem_walk_iff {P : Activity → Prop} (hlength : 2 ≤ xs.length) (hperm : xs.Perm ys)
    (hP : P (root xs) ↔ P (root ys)) : (∀ b ∈ (root xs).walk, P b) ↔ ∀ b ∈ (root ys).walk, P b := by
  have hbuilt : (root xs).built.Perm (root ys).built := by
    rw [A.built_eq hlength, A.built_eq (hperm.length_eq ▸ hlength)]
    exact hperm.flatMap_right built
  rw [Activity.forall_mem_walk, Activity.forall_mem_walk, hP]
  simp only [hbuilt.mem_iff]

theorem forall_unmistakable_iff (hlength : 2 ≤ xs.length) (hperm : xs.Perm ys) :
    (∀ b ∈ (root xs).walk, b.Unmistakable) ↔ ∀ b ∈ (root ys).walk, b.Unmistakable :=
  A.forall_mem_walk_iff hlength hperm (iff_of_true (A.unmistakable xs) (A.unmistakable ys))

/-- Neighbours that trade places leave the drawing as it was, up to the names. -/
theorem congruent_swap (hu : ∀ b ∈ (root (xs ++ x :: y :: ys)).walk, b.Unmistakable) :
    Congruent (root (xs ++ x :: y :: ys)).sheet (root (xs ++ y :: x :: ys)).sheet := by
  have hu' := (A.forall_unmistakable_iff (two_le_length xs x y ys)
    ((List.Perm.swap y x ys).append_left xs)).1 hu
  obtain ⟨f, hf⟩ := exists_renumbers
    (exchange (sizes (xs.flatMap built) + 2) (sizes (built x)) (sizes (built y)))
  obtain ⟨f', hf'⟩ := exists_renumbers
    (exchange (sizes (xs.flatMap built) + 2) (sizes (built y)) (sizes (built x)))
  exact ⟨f, f', A.carries_swap hu hf, A.carries_swap hu' hf',
    .of_all_returns hu (returns_exchange hf hf'), .of_all_returns hu' (returns_exchange hf' hf)⟩

/-- An activity with its parts in another order has a net if and only if it had one. -/
theorem compile_ok_iff (hlength : 2 ≤ xs.length) (hperm : xs.Perm ys) :
    (∃ net, compile (root xs) = .ok net) ↔ ∃ net, compile (root ys) = .ok net := by
  have hplaces := ((A.places_perm hperm).cons "closed").cons "initialized"
  rw [OpenWorkflow.compile_ok_iff, OpenWorkflow.compile_ok_iff, Activity.Fine, Activity.Fine,
    A.forall_mem_walk_iff hlength hperm, A.forall_mem_walk_iff hlength hperm]
  · unfold Activity.Anchored
    simp only [(A.linkNames_perm hperm).mem_iff, hplaces.mem_iff]
  · exact hplaces.nodup_iff

/-- The parts behind the first ones can be put in any order. -/
theorem isomorphic_append (hperm : xs.Perm ys) (zs : List α) {net : Net}
    (hlength : 2 ≤ (zs ++ xs).length) (hu : ∀ b ∈ (root (zs ++ xs)).walk, b.Unmistakable)
    (hok : compile (root (zs ++ xs)) = .ok net) :
    ∃ net', compile (root (zs ++ ys)) = .ok net' ∧ net.Isomorphic net' := by
  induction hperm generalizing zs net with
  | nil => exact ⟨net, hok, .refl net⟩
  | cons x _ ih =>
    rw [List.append_cons] at hlength hu hok ⊢
    exact ih (zs ++ [x]) hlength hu hok
  | swap x y xs =>
    have hswap := (List.Perm.swap x y xs).append_left zs
    obtain ⟨net', hok'⟩ := (A.compile_ok_iff hlength hswap).1 ⟨net, hok⟩
    exact ⟨net', hok', compile_isomorphic (A.congruent_swap hu) hok hok'⟩
  | trans hfirst _ ih ih' =>
    have hmid := hfirst.append_left zs
    obtain ⟨net', hok', hiso⟩ := ih zs hlength hu hok
    obtain ⟨net'', hok'', hiso'⟩ := ih' zs (hmid.length_eq ▸ hlength)
      ((A.forall_unmistakable_iff hlength hmid).1 hu) hok'
    exact ⟨net'', hok'', hiso.trans hiso'⟩

/-- Nets of one activity with its parts in different orders are isomorphic. -/
theorem isomorphic (hperm : xs.Perm ys) (hu : ∀ b ∈ (root xs).walk, b.Unmistakable) {net : Net}
    (hok : compile (root xs) = .ok net) :
    ∃ net', compile (root ys) = .ok net' ∧ net.Isomorphic net' := by
  rcases xs with _ | ⟨x, _ | ⟨y, xs⟩⟩
  · obtain rfl := hperm.nil_eq
    exact ⟨net, hok, .refl net⟩
  · obtain rfl := List.singleton_perm.1 hperm
    exact ⟨net, hok, .refl net⟩
  · exact A.isomorphic_append hperm [] (two_le_length [] x y xs) hu hok

end Arranged

/-! ## Activities with parts -/

theorem arranged_parallel : Arranged .parallel (parallelBranchLines ⟨1⟩) (fun a => [a])
    fun _ => [.transition (Scope.name ⟨1⟩ "split") .internal,
      .transition (Scope.name ⟨1⟩ "join") .internal,
      .arc .consumes (Scope.initialized ⟨1⟩) (Scope.name ⟨1⟩ "split"),
      .arc .produces (Scope.closed ⟨1⟩) (Scope.name ⟨1⟩ "join")] where
  built_eq {xs} hxs := by
    cases xs with
    | nil => simp at hxs
    | cons x xs => simp [Activity.built]
  mem_lines {xs l} hxs := by
    rcases xs with _ | ⟨x, _ | ⟨y, xs⟩⟩
    · simp at hxs
    · simp at hxs
    · simp only [Activity.lines, Activity.innerLines, Activity.parallelLines, List.mem_append]
  map_part hone h := Activity.map_parallelBranchLines hone h
  map_rest hone := by simp [hone.name, hone.initialized, hone.closed]
  rest_perm _ := .refl _
  places_perm _ := .refl _
  linkNames_perm _ := .refl _
  unmistakable _ := by simp [Activity.Unmistakable]

theorem arranged_pick : Arranged .pick (pickBranchLines ⟨1⟩) PickBranch.built fun _ => [] where
  built_eq {xs} hxs := by
    cases xs with
    | nil => simp at hxs
    | cons x xs => rfl
  mem_lines {xs l} hxs := by
    cases xs with
    | nil => simp at hxs
    | cons x xs => simp [Activity.lines, Activity.innerLines, Activity.pickLines]
  map_part hone h := Activity.map_pickBranchLines hone h
  map_rest _ := rfl
  rest_perm _ := .refl _
  places_perm _ := .refl _
  linkNames_perm _ := .refl _
  unmistakable _ := by simp [Activity.Unmistakable]

theorem arranged_flowchart (start : String) :
    Arranged (.flowchart (some start)) (nodeLines ⟨1⟩) FlowNode.built fun nodes =>
      .joins (Scope.initialized ⟨1⟩) (nodeName ⟨1⟩ start "start")
        :: nodes.flatMap (edgeLines ⟨1⟩) where
  built_eq _ := rfl
  mem_lines {xs l} _ := by
    simp only [Activity.lines, Activity.innerLines, Activity.flowchartLines, List.mem_append]
    tauto
  map_part hone h := Activity.map_nodeLines hone h
  map_rest hone := by
    simp [hone.initialized, Activity.map_nodeName hone, List.map_flatMap,
      Activity.map_edgeLines hone]
  rest_perm hperm := (hperm.flatMap_right _).cons _
  places_perm hperm := hperm.flatMap_right _
  linkNames_perm hperm := by
    simp only [Activity.linkNames]
    exact ((hperm.flatMap_right _).cons start).map _
  unmistakable _ := by simp [Activity.Unmistakable]

theorem arranged_stateMachine (initial : Option String) (triggers : List (String × Activity)) :
    Arranged (fun states => .stateMachine initial states triggers) (stateLines ⟨1⟩ triggers)
      (State.built triggers) fun states =>
        initial.toList.map
            (fun id => .joins (Scope.initialized ⟨1⟩) (Scope.name ⟨1⟩ (id ++ ".initialized")))
          ++ (states.filter (·.isFinal)).map
            (fun st => .joins (Scope.closed ⟨1⟩) (Scope.name ⟨1⟩ (st.id ++ ".closed")))
          ++ (states.filter (!·.isFinal)).flatMap
            (fun st => targetLines ⟨1⟩ st.id 1 st.transitions) where
  built_eq _ := rfl
  mem_lines {xs l} _ := by
    simp only [Activity.lines, Activity.innerLines, Activity.machineLines, List.mem_append]
    tauto
  map_part hone h := Activity.map_stateLines hone h
  map_rest hone := by
    simp [hone.initialized, hone.closed, hone.name, List.map_flatMap, Function.comp_def,
      Activity.map_targetLines hone]
  rest_perm hperm := (((hperm.filter _).map _).append_left _).append
    ((hperm.filter _).flatMap_right _)
  places_perm hperm := hperm.flatMap_right _
  linkNames_perm hperm := (((hperm.filter _).flatMap_right _).append_left _).map _
  unmistakable _ := by simp [Activity.Unmistakable]

/-- The same activity, whose branches, nodes or states are declared in another order. -/
inductive Activity.Reordered : Activity → Activity → Prop where
  | parallel {xs ys : List Activity} : xs.Perm ys → Reordered (.parallel xs) (.parallel ys)
  | pick {xs ys : List (PickBranch Activity)} : xs.Perm ys → Reordered (.pick xs) (.pick ys)
  | flowchart (start : Option String) {xs ys : List (FlowNode Activity)} :
    xs.Perm ys → Reordered (.flowchart start xs) (.flowchart start ys)
  | stateMachine (initial : Option String) {xs ys : List (State Activity)}
    (triggers : List (String × Activity)) : xs.Perm ys →
      Reordered (.stateMachine initial xs triggers) (.stateMachine initial ys triggers)

/-- **The order of declarations does not matter.** If a parallel, a pick, a flowchart or a state
machine has a net, then so it has with its branches, nodes or states in any other order, and the
two nets are isomorphic. No message in it may be named like a reply, since replies are named after
numbers, which depend on the order. -/
theorem compile_reordered {a b : Activity} (h : a.Reordered b)
    (hu : a.Throughout Activity.Unmistakable) {net : Net} (hok : compile a = .ok net) :
    ∃ net', compile b = .ok net' ∧ net.Isomorphic net' := by
  have hwalk : ∀ c ∈ a.walk, c.Unmistakable := hu.walk (by simp [Activity.Unmistakable])
  cases h with
  | parallel hperm => exact arranged_parallel.isomorphic hperm hwalk hok
  | pick hperm => exact arranged_pick.isomorphic hperm hwalk hok
  | flowchart start hperm =>
    cases start with
    | none =>
      -- A flowchart without a start does not look at its nodes.
      exact ⟨net, hok, .refl net⟩
    | some start => exact (arranged_flowchart start).isomorphic hperm hwalk hok
  | stateMachine initial triggers hperm =>
    exact (arranged_stateMachine initial triggers).isomorphic hperm hwalk hok

/-- A pick between a request and a reply, the other way round. -/
theorem compile_reordered_pick :
    ∃ net net', compile (.pick [⟨some (.messaging ⟨.receive, "Bank", "open"⟩), none⟩,
        ⟨some (.messaging ⟨.receiveReply, "", ""⟩), some .empty⟩]) = .ok net ∧
      compile (.pick [⟨some (.messaging ⟨.receiveReply, "", ""⟩), some .empty⟩,
        ⟨some (.messaging ⟨.receive, "Bank", "open"⟩), none⟩]) = .ok net' ∧
      net.Isomorphic net' := by
  obtain ⟨net, hok⟩ : ∃ net, compile (.pick [⟨some (.messaging ⟨.receive, "Bank", "open"⟩), none⟩,
      ⟨some (.messaging ⟨.receiveReply, "", ""⟩), some .empty⟩]) = .ok net :=
    exists_of_isOk (by decide +kernel)
  have hu : (Activity.pick [⟨some (.messaging ⟨.receive, "Bank", "open"⟩), none⟩,
      ⟨some (.messaging ⟨.receiveReply, "", ""⟩), some .empty⟩]).Throughout
        Activity.Unmistakable := by
    refine ⟨by simp [Activity.Unmistakable], fun c hc => ?_⟩
    obtain rfl | rfl | rfl := by simpa [Activity.parts, PickBranch.parts] using hc
    · exact .leaf (by simp [Activity.Unmistakable, Messaging.Unmistakable]) rfl
    · exact .leaf (by simp [Activity.Unmistakable, Messaging.Unmistakable, MessageKind.isReply]) rfl
    · exact .leaf (by simp [Activity.Unmistakable]) rfl
  obtain ⟨net', hok', hiso⟩ := compile_reordered (.pick (.swap _ _ [])) hu hok
  exact ⟨net, net', hok, hok', hiso⟩

end OpenWorkflow
