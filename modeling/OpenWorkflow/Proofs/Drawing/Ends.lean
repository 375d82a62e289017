import OpenWorkflow.Proofs.Drawing.Ends.Flowchart
import OpenWorkflow.Proofs.Drawing.Ends.StateMachine

/-!
# Where fragments end

The names of the places that an activity ends with, all the way down, are its
`Activity.ends`. No join ties a name among them to one that is not, and nothing
consumes from an end (`Activity.respects_drawing`).
-/

namespace OpenWorkflow

variable {a : Activity} {cs : List (Activity × Bool)} {states : List (State Activity)}
  {initial : Option String} {x : String}

namespace Activity

variable {E : String → Prop} {s : Scope} {v : Bool} {k : Nat}

/-- No state machine is over as soon as it starts. -/
def Opens : Activity → Prop
  | .stateMachine initial states _ =>
    ∀ st ∈ states, initial = some st.id → st.isFinal = true → st.entry.isSome = true
  | _ => True

/-- A machine that opens does not start in a final state with nothing to do. -/
theorem not_isOver {triggers : List (String × Activity)}
    (h : (stateMachine initial states triggers).Opens) :
    ∀ id ∈ initial, isOver states id = false := by
  intro id hid
  rw [← Bool.not_eq_true, isOver, List.any_eq_true]
  rintro ⟨st, hst, hover⟩
  simp only [State.isOver, Bool.and_eq_true, decide_eq_true_eq] at hover
  obtain ⟨rfl, hfinal, hentry⟩ := hover
  have hsome := h st hst hid hfinal
  rw [Option.isNone_iff_eq_none] at hentry
  rw [hentry] at hsome
  cases hsome

/-- The lines of an activity respect names that are sorted as it says. -/
theorem respects_lines (hlinks : a.type = .stateMachine → a.Links) (hopens : a.Opens)
    (hnumbered : ∀ n, E n → IsNumbered n) (h : Sorted E ⟨k⟩ v a) (hseen : Seen E v k a.builtEnds) :
    Respects E E (a.lines k) := by
  have htold := h.told
  simp only [placeEnds, Told, List.forall_mem_cons, Bool.false_eq_true, false_and, iff_false,
    true_and] at htold
  obtain ⟨hinit, hclosed, hinner⟩ := htold
  have hends : Respects E E (endLines ⟨k⟩) := by
    simp [Respects, endLines]
  refine hends.append ?_
  cases a with
  | atomic a => exact respects_stepLines hinit _
  | empty => exact respects_stepLines hinit _
  | messaging m => exact respects_messageLines hinit hnumbered m
  | sequence children => exact respects_sequenceLines hinit hclosed hseen
  | conditional onTrue onFalse =>
    exact respects_conditionalLines hinit hclosed (told_false.1 hinner _ (List.mem_cons_self ..))
      hseen
  | switch cases fallback =>
    exact respects_switchLines hinit hclosed (told_false.1 hinner) hseen
  | loop test body =>
    exact respects_loopLines hinit test (told_false.1 hinner _ (List.mem_cons_self ..)) hseen
  | parallel branches => exact respects_parallelLines hinit hclosed hseen
  | pick branches => exact respects_pickLines hinit hclosed hseen
  | flowchart start nodes => exact respects_flowchartLines hinit hclosed hinner h.only hseen
  | stateMachine initial states triggers =>
    exact respects_machineLines hinit hclosed (hlinks rfl) (not_isOver hopens) hinner hseen

/-- The activity and everything built in it, and whether a fragment is at the end if that of the
activity is. -/
def walkEnds (a : Activity) (v : Bool) : List (Activity × Bool) :=
  (a, v) :: a.builtEnds.attach.flatMap fun c => walkEnds c.1.1 (c.1.2 && v)
termination_by sizeOf a
decreasing_by exact sizeOf_lt_of_mem_built (mem_built_of_builtEnds c.2)

theorem walkEnds_eq (a : Activity) (v : Bool) :
    a.walkEnds v = (a, v) :: a.builtEnds.flatMap fun c => c.1.walkEnds (c.2 && v) := by
  rw [walkEnds]
  congr 1
  rw [List.flatMap_subtype (g := fun c => c.1.walkEnds (c.2 && v)) fun _ _ => rfl,
    List.unattach_attach]

/-- The walk with its ends goes over the same activities. -/
theorem map_fst_walkEnds (a : Activity) (v : Bool) : (a.walkEnds v).map Prod.fst = a.walk := by
  induction a using built_induction generalizing v with
  | h a ih =>
    rw [walkEnds_eq, walk_eq, List.map_cons, List.map_flatMap, ← map_fst_builtEnds,
      List.flatMap_map]
    congr 1
    exact List.flatMap_congr fun c hc => ih c.1 (mem_built_of_builtEnds hc) _

theorem length_walkEnds (a : Activity) (v : Bool) : (a.walkEnds v).length = a.size := by
  rw [size, ← map_fst_walkEnds a v, List.length_map]

end Activity

/-- The names of all fragments are ends as their activities say. -/
def Spread (E : String → Prop) (k : Nat) (ws : List (Activity × Bool)) : Prop :=
  ∀ i b v, ws[i]? = some (b, v) → Sorted E ⟨k + i⟩ v b

section Spread

variable {E : String → Prop} {v : Bool} {k : Nat}

theorem spread_append {ws ws' : List (Activity × Bool)} (h : Spread E k (ws ++ ws')) :
    Spread E k ws ∧ Spread E (k + ws.length) ws' := by
  constructor
  · intro i b v hi
    refine h i b v ?_
    rw [List.getElem?_append_left (List.getElem?_eq_some_iff.1 hi).1, hi]
  · intro i b v hi
    rw [Nat.add_assoc]
    refine h (ws.length + i) b v ?_
    rw [List.getElem?_append_right (Nat.le_add_right ..), Nat.add_sub_cancel_left, hi]

theorem spread_cons {w : Activity × Bool} {ws : List (Activity × Bool)} (h : Spread E k (w :: ws)) :
    Sorted E ⟨k⟩ w.2 w.1 ∧ Spread E (k + 1) ws := by
  have h' : Spread E k ([w] ++ ws) := h
  exact ⟨h 0 w.1 w.2 rfl, (spread_append h').2⟩

/-- The first of fragments behind one another, and the others. -/
theorem Spread.uncons {c : Activity × Bool}
    (h : Spread E (k + 1) ((c :: cs).flatMap fun c => c.1.walkEnds (c.2 && v))) :
    Spread E (k + 1) (c.1.walkEnds (c.2 && v)) ∧
      Spread E (k + c.1.size + 1) (cs.flatMap fun c => c.1.walkEnds (c.2 && v)) := by
  rw [List.flatMap_cons] at h
  obtain ⟨hhere, hrest⟩ := spread_append h
  rw [Activity.length_walkEnds, Nat.add_right_comm] at hrest
  exact ⟨hhere, hrest⟩

/-- What is spread over the walk is seen in what is built. -/
theorem Spread.seen (h : Spread E (k + 1) (cs.flatMap fun c => c.1.walkEnds (c.2 && v))) :
    Seen E v k cs := by
  induction cs generalizing k with
  | nil => trivial
  | cons c cs ih =>
    obtain ⟨hhere, hrest⟩ := h.uncons
    rw [Activity.walkEnds_eq] at hhere
    have htold := (spread_cons hhere).1.told
    simp only [Activity.placeEnds, Told, List.forall_mem_cons, Bool.false_eq_true, false_and,
      iff_false, true_and, Bool.and_eq_true] at htold
    exact ⟨⟨htold.1, htold.2.1⟩, ih hrest⟩

/-- Fragments behind one another, if each respects the ends. -/
theorem Spread.respects_draw (h : Spread E (k + 1) (cs.flatMap fun c => c.1.walkEnds (c.2 && v)))
    (hcs : ∀ c ∈ cs, ∀ k, Spread E k (c.1.walkEnds (c.2 && v)) → Respects E E (c.1.drawing k)) :
    Respects E E (Activity.draw (k + 1) ((cs.map Prod.fst).flatMap Activity.walk)) := by
  induction cs generalizing k with
  | nil => exact .nil
  | cons c cs ih =>
    obtain ⟨hhere, hrest⟩ := h.uncons
    rw [List.map_cons, List.flatMap_cons, Activity.draw_append]
    refine (hcs c (List.mem_cons_self ..) _ hhere).append ?_
    rw [show k + 1 + c.1.walk.length = k + c.1.size + 1 from Nat.add_right_comm ..]
    exact ih hrest fun d hd => hcs d (List.mem_cons_of_mem _ hd)

/-- The drawing of an activity respects names that are sorted as everything in it says. -/
theorem Activity.respects_drawing (hlinks : ∀ b ∈ a.walk, b.type = .stateMachine → b.Links)
    (hopens : ∀ b ∈ a.walk, b.Opens) (hnumbered : ∀ n, E n → IsNumbered n)
    (h : Spread E k (a.walkEnds v)) : Respects E E (a.drawing k) := by
  induction a using Activity.built_induction generalizing k v with
  | h a ih =>
    rw [walkEnds_eq] at h
    obtain ⟨hsorted, hinside⟩ := spread_cons h
    rw [forall_mem_walk] at hlinks hopens
    rw [drawing_eq, ← map_fst_builtEnds]
    refine (respects_lines hlinks.1 hopens.1 hnumbered hsorted hinside.seen).append ?_
    refine hinside.respects_draw fun c hc k hk => ?_
    have hmem := mem_built_of_builtEnds hc
    exact ih c.1 hmem (hlinks.2 c.1 hmem) (hopens.2 c.1 hmem) hk

end Spread

/-! ## The ends of an activity -/

namespace Activity

/-- The names of the places that the fragment of an activity ends with, if it has the number
`k`. -/
def ends (a : Activity) (k : Nat) (n : String) : Prop :=
  ∃ i b x, (a.walkEnds true)[i]? = some (b, true) ∧ (x, true) ∈ b.placeEnds ∧
    n = Scope.name ⟨k + i⟩ x

/-- A name has one entry. -/
theorem eq_of_mem_placeEnds (h : a.Unambiguous) {v w : Bool} (hv : (x, v) ∈ a.placeEnds)
    (hw : (x, w) ∈ a.placeEnds) : v = w := by
  have hnodup : (a.placeEnds.map Prod.fst).Nodup := by
    rw [map_fst_placeEnds]
    exact h
  have heq := List.inj_on_of_nodup_map hnodup hv hw rfl
  injection heq

/-- A fragment has a name among the ends if it is at the end and its activity says so. -/
theorem ends_name_iff {b : Activity} {k i : Nat} {v : Bool}
    (hi : (a.walkEnds true)[i]? = some (b, v)) :
    a.ends k (Scope.name ⟨k + i⟩ x) ↔ (x, true) ∈ b.placeEnds ∧ v = true := by
  constructor
  · rintro ⟨i', b', x', hi', hx', hname⟩
    obtain ⟨hscope, rfl⟩ := Scope.name_inj.1 hname
    obtain rfl : i = i' := by
      injection hscope with hscope
      omega
    rw [hi] at hi'
    injection hi' with heq
    injection heq with hb hv
    exact ⟨hb ▸ hx', hv⟩
  · rintro ⟨hx, rfl⟩
    exact ⟨i, b, x, hi, hx, rfl⟩

/-- If no two places have one name, the ends are sorted as the activities say. -/
theorem spread_ends (hfine : a.Fine) (k : Nat) : Spread (a.ends k) k (a.walkEnds true) := by
  intro i b v hi
  have hmem : b ∈ a.walk := by
    rw [← map_fst_walkEnds a true]
    exact List.mem_map.2 ⟨_, List.mem_of_getElem? hi, rfl⟩
  refine ⟨fun x hx => ?_, fun x hx => ((ends_name_iff hi).1 hx).1⟩
  rw [ends_name_iff hi]
  refine and_congr_left fun _ => ⟨fun hend => ?_, fun hend => ?_⟩
  · exact eq_of_mem_placeEnds (hfine b hmem) hx hend
  · exact hend ▸ hx

/-- What comes before a fragment is not among its ends. -/
theorem not_ends_of_lt {j k : Nat} (h : j < k) (x : String) : ¬ a.ends k (Scope.name ⟨j⟩ x) := by
  rintro ⟨i, b, y, -, -, hname⟩
  obtain ⟨hscope, -⟩ := Scope.name_inj.1 hname
  injection hscope with hscope
  omega

/-- The ends of an activity are numbered names. -/
theorem isNumbered_of_ends {k : Nat} {n : String} (h : a.ends k n) : IsNumbered n := by
  obtain ⟨i, b, x, -, -, rfl⟩ := h
  exact isNumbered_name ..

/-- The fragment of an activity ends where it should and starts elsewhere. -/
theorem ends_closed (hfine : a.Fine) (k : Nat) :
    a.ends k (Scope.closed ⟨k⟩) ∧ ¬ a.ends k (Scope.initialized ⟨k⟩) := by
  have htold := spread_ends hfine k
  rw [walkEnds_eq] at htold
  have hown := (spread_cons htold).1.told
  simp only [placeEnds, Told, List.forall_mem_cons, Bool.false_eq_true, false_and, iff_false,
    true_and, iff_true] at hown
  exact ⟨hown.2.1, hown.1⟩

end Activity

end OpenWorkflow
