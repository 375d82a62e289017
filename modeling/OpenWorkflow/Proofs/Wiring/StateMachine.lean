import Mathlib.Order.Nat
import OpenWorkflow.Proofs.Drawing.Ends.StateMachine
import OpenWorkflow.Proofs.Drawing.Locality
import OpenWorkflow.Proofs.Fragment.Containment
import OpenWorkflow.Proofs.Workflow.Reading

/-!
# The wiring of state machines

States stay apart (`StateMachine.states_apart`). What can be tied to the start of a state that is
not final is at home in the state: its entry, its copies of the triggers, the places of
transitions that lead to it and, for the initial state, the start of the machine
(`State.placeHomes`), with everything inside (`State.builtHomes`). No join leads out of a home
(`Keeps`). A final state has no home of its own, since it may be tied to the end of the machine
and so to the others.
-/

namespace OpenWorkflow

open Activity (sizes sizes_append sizes_cons size_eq spliceLines enclosedLines)
open Markup (Token Namespace.activities)
open Fragment.StateMachine (Candidate GuardChain targetName triggerKeys)

/-! ## Homes -/

namespace State

variable {α : Type}

/-- The places of a state, and whether they are at home in the state that is singled out. -/
def placeHomes (isHome : String → Bool) (st : State α) : List (String × Bool) :=
  (entryPlaces st.id st.entry).map (·, isHome st.id) ++
    if st.isFinal then [(st.id ++ ".closed", isHome st.id)]
    else
      (exitPlaces st.id st.exit).map (·, false) ++ transitionEnds isHome st.id 1 st.transitions
        ++ ((triggerKeys st.transitions).flatMap (triggerPlaces st.id st.transitions)).map
          (·, isHome st.id)
        ++ (untriggeredPlaces st.id st.transitions).map (·, isHome st.id)

/-- The activities built in a state, and whether they are at home in the one singled out. -/
def builtHomes (isHome : String → Bool) (triggers : List (String × Activity))
    (st : State Activity) : List (Activity × Bool) :=
  st.entry.toList.map (·, isHome st.id) ++
    if st.isFinal then []
    else
      st.exit.toList.map (·, false) ++ (st.transitions.flatMap (·.action.toList)).map (·, false)
        ++ ((triggerKeys st.transitions).filterMap (triggers.lookup ·)).map (·, isHome st.id)

theorem map_fst_placeHomes (isHome : String → Bool) (st : State α) :
    (st.placeHomes isHome).map Prod.fst = st.places := by
  unfold placeHomes places
  rw [List.map_append, map_fst_map_pair]
  split
  · rfl
  · simp only [List.map_append, map_fst_map_pair, map_fst_transitionEnds]

theorem map_fst_builtHomes (isHome : String → Bool) (triggers : List (String × Activity))
    (st : State Activity) : (st.builtHomes isHome triggers).map Prod.fst = st.built triggers := by
  unfold builtHomes built
  rw [List.map_append, map_fst_map_pair]
  split
  · rfl
  · simp only [List.map_append, map_fst_map_pair]

end State

/-! ## Sets that no join leaves -/

/-- No join leads from a name of the set to another. -/
abbrev Keeps (E : String → Prop) (L : List Line) : Prop := Respects E (fun _ => False) L

/-- The fragments inside are in the set as the list says, with all their names. -/
def Marks (E : String → Prop) : Nat → List (Activity × Bool) → Prop :=
  Each fun k c => ∀ n, Within k c.1.size n → (E n ↔ c.2 = true)

section Laws

variable {E : String → Prop} {s : Scope} {k : Nat} {L : List Line} {cs : List (Activity × Bool)}

theorem keeps_of_joins (h : ∀ n n', .joins n n' ∈ L → (E n ↔ E n')) : Keeps E L := by
  intro l hl
  cases l with
  | joins n n' => exact h n n' hl
  | arc flow n t => cases flow <;> simp
  | _ => trivial

/-- Both ends of a fragment inside are in the set if the fragment is. -/
theorem Marks.framed (h : Marks E k cs) : Framed E k cs := by
  refine h.imp fun c _ k hc => ?_
  have hname (x : String) : Within k c.1.size (Scope.name ⟨k⟩ x) := by
    refine within_name_iff.2 ⟨k.le_refl, ?_⟩
    rw [size_eq]
    omega
  exact ⟨hc _ (hname _), hc _ (hname _)⟩

/-- The fragments inside join only names of their own. -/
theorem Marks.keeps_draw (h : Marks E k cs) :
    Keeps E (Activity.draw (k + 1) ((cs.map Prod.fst).flatMap Activity.walk)) := by
  induction cs generalizing k with
  | nil => exact .nil
  | cons c cs ih =>
    rw [List.map_cons, List.flatMap_cons, Activity.draw_append]
    refine Respects.append (keeps_of_joins fun n n' hjoin => ?_) ?_
    · obtain ⟨hn, hn'⟩ := Activity.within_of_joins_drawing hjoin
      exact (h.1 n hn).trans (h.1 n' hn').symm
    · rw [show k + 1 + c.1.walk.length = k + c.1.size + 1 from Nat.add_right_comm ..]
      exact ih h.2

theorem told_map {b : Bool} {xs : List String} :
    Told E s true (xs.map (·, b)) ↔ ∀ x ∈ xs, E (s.name x) ↔ b = true := by
  simp [Told]

end Laws

/-! ## The lines of a machine -/

namespace Activity

variable {E : String → Prop} {s : Scope} {k : Nat} {isHome : String → Bool}
  {states : List (State Activity)} {triggers : List (String × Activity)}

/-- The entry of a state leads from its start to where the entry ends. -/
theorem keeps_entryLines {id : String} {entry : Option Activity} {b : Bool}
    (htold : Told E s true ((State.entryPlaces id entry).map (·, b)))
    (hframed : Framed E k (entry.toList.map (·, b))) :
    Keeps E (entryLines (s.name id) k entry) ∧ (E (entryEnd (s.name id) entry) ↔ b = true) := by
  rw [told_map] at htold
  unfold State.entryPlaces at htold
  unfold entryLines entryEnd
  simp only [Scope.name_append]
  cases entry with
  | none =>
    simp only [Option.isSome_none, Bool.false_eq_true, if_false, List.forall_mem_singleton] at htold
    simp [Respects, htold]
  | some entry =>
    simp only [Option.toList_some, List.map_cons, List.map_nil, Framed, Each] at hframed
    simp only [Option.isSome_some, if_true, List.forall_mem_cons] at htold
    simp [Respects, enclosedLines, spliceLines, htold, hframed]

/-- The lines of a state keep to its own home. -/
theorem keeps_stateLines {st : State Activity} (htold : Told E s true (st.placeHomes isHome))
    (hframed : Framed E k (st.builtHomes isHome triggers)) :
    Keeps E (stateLines s triggers k st) := by
  unfold State.placeHomes at htold
  unfold State.builtHomes at hframed
  unfold stateLines
  rw [told_append] at htold
  rw [Framed, each_append, map_fst_map_pair] at hframed
  obtain ⟨hentry, hdone⟩ := keeps_entryLines htold.1 hframed.1
  refine hentry.append ?_
  cases hfinal : st.isFinal with
  | true =>
    simp only [hfinal, if_true, Told, List.forall_mem_singleton] at htold
    simp [Respects, Scope.name_append, hdone, htold.2]
  | false =>
    simp only [hfinal, Bool.false_eq_true, if_false, told_append, told_map, told_false] at htold
    rw [hfinal, if_neg Bool.false_ne_true] at hframed
    obtain ⟨-, ⟨⟨hexit, hways⟩, htriggers⟩, huntriggered⟩ := htold
    exact respects_wayoutLines (fun _ => False.elim) hdone hexit hways htriggers huntriggered
      hframed.2

/-- A state begins at home if it is the one singled out. -/
theorem home_initialized_iff (htold : Told E s true (states.flatMap (State.placeHomes isHome)))
    {id : String} (hid : id ∈ states.map State.id) :
    E (s.name (id ++ ".initialized")) ↔ isHome id = true := by
  obtain ⟨st, hst, rfl⟩ := List.mem_map.1 hid
  have hentry := (told_append.1 (told_flatMap.1 htold st hst)).1
  exact told_map.1 hentry _ (List.mem_cons_self ..)

/-- The lines of a state machine keep to their homes. -/
theorem keeps_machineLines {initial : Option String} (hlinked : MachineLinked initial states)
    (hfinal : ∀ st ∈ states, st.isFinal = true → isHome st.id = false)
    (hinit : E s.initialized ↔ initial.any isHome = true) (hclosed : ¬ E s.closed)
    (htold : Told E s true (states.flatMap (State.placeHomes isHome)))
    (hframed : Framed E s.id (states.flatMap (State.builtHomes isHome triggers))) :
    Keeps E (machineLines s initial states triggers) := by
  have hstate {st : State Activity} (hst : st ∈ states) := told_flatMap.1 htold st hst
  refine respects_linkLines (.numberedLines (State.map_fst_builtHomes isHome triggers) hframed
    fun st hst k hk => keeps_stateLines (hstate hst) hk) (fun id hid => ?_)
    (fun st hst hend => ?_) fun st hst hgoes => ⟨?_, fun t ht =>
      (home_initialized_iff htold (hlinked.targets st hst t ht)).trans (and_iff_left rfl).symm⟩
  · rw [hinit, home_initialized_iff htold (hlinked.initial id hid), Option.mem_def.1 hid]
    rfl
  · have hdone := hstate hst (st.id ++ ".closed", isHome st.id)
      (by simp only [State.placeHomes, hend, if_true]; simp)
    simp only [hfinal st hst hend, Bool.false_eq_true, false_and, iff_false] at hdone
    exact iff_of_false hclosed hdone
  · have hway := hstate hst
    simp only [State.placeHomes, hgoes, Bool.false_eq_true, if_false, told_append] at hway
    exact hway.2.1.1.2

end Activity

/-! ## The home of a state -/

/-- The names of the fragments that a list says are at home, if these have the numbers after
`k`. -/
def Marked : Nat → List (Activity × Bool) → String → Prop
  | _, [], _ => False
  | k, c :: cs, n => (c.2 = true ∧ Within (k + 1) c.1.size n) ∨ Marked (k + c.1.size) cs n

section Marked

variable {E : String → Prop} {k : Nat} {cs : List (Activity × Bool)} {n : String}

theorem Marked.within (h : Marked k cs n) : Within (k + 1) (sizes (cs.map Prod.fst)) n := by
  induction cs generalizing k with
  | nil => exact h.elim
  | cons c cs ih =>
    rw [List.map_cons, sizes_cons]
    rcases h with ⟨-, h⟩ | h
    · exact h.mono (Nat.le_refl _) (by omega)
    · exact (ih h).mono (by omega) (by omega)

theorem marks_of_marked
    (h : ∀ n, Within (k + 1) (sizes (cs.map Prod.fst)) n → (E n ↔ Marked k cs n)) :
    Marks E k cs := by
  induction cs generalizing k with
  | nil => trivial
  | cons c cs ih =>
    rw [List.map_cons, sizes_cons] at h
    refine ⟨fun n hn => ?_, ih fun n hn => ?_⟩
    · have hlater : ¬ Marked (k + c.1.size) cs n := fun hm => by
        have := (hn.disjoint hm.within).2
        omega
      simp [h n (hn.mono (Nat.le_refl _) (by omega)), Marked, hn, hlater]
    · have hhere : ¬ Within (k + 1) c.1.size n := fun hk => by
        have := (hk.disjoint hn).2
        omega
      simp [h n (hn.mono (by omega) (by omega)), Marked, hhere]

end Marked

namespace Fragment.StateMachine

variable {isHome : String → Bool} {initial : Option String} {states : List (State Activity)}
  {triggers : List (String × Activity)} {k : Nat} {n x : String}

/-- The places of a machine, and whether they are at home in the state that is singled out. -/
def placeHomes (isHome : String → Bool) (initial : Option String)
    (states : List (State Activity)) : List (String × Bool) :=
  ("initialized", initial.any isHome) :: ("closed", false) ::
    states.flatMap (State.placeHomes isHome)

/-- The names at home in the state that is singled out, if the machine has the number `k`. -/
def AtHome (isHome : String → Bool) (initial : Option String) (states : List (State Activity))
    (triggers : List (String × Activity)) (k : Nat) (n : String) : Prop :=
  (∃ x, n = Scope.name ⟨k⟩ x ∧ (x, true) ∈ placeHomes isHome initial states) ∨
    Marked k (states.flatMap (State.builtHomes isHome triggers)) n

theorem map_fst_builtHomes : (states.flatMap (State.builtHomes isHome triggers)).map Prod.fst
    = states.flatMap (State.built triggers) :=
  map_fst_flatMap fun st _ => st.map_fst_builtHomes isHome triggers

theorem AtHome.within (h : AtHome isHome initial states triggers k n) :
    Within k (Activity.stateMachine initial states triggers).size n := by
  rw [size_eq]
  rcases h with ⟨x, rfl, -⟩ | h
  · exact within_name_iff.2 ⟨k.le_refl, by omega⟩
  · have hinside := h.within
    rw [map_fst_builtHomes] at hinside
    exact hinside.mono (by omega) (by rw [Activity.built]; omega)

theorem marks_atHome : Marks (AtHome isHome initial states triggers k) k
    (states.flatMap (State.builtHomes isHome triggers)) := by
  refine marks_of_marked fun n hn => or_iff_right ?_
  rintro ⟨x, rfl, -⟩
  have := (within_name_iff.1 hn).1
  omega

/-- Every name has one entry. -/
theorem told_atHome (h : (Activity.stateMachine initial states triggers).Unambiguous) :
    Told (AtHome isHome initial states triggers k) ⟨k⟩ true
      (placeHomes isHome initial states) := by
  have hnodup : ((placeHomes isHome initial states).map Prod.fst).Nodup := by
    rw [placeHomes, List.map_cons, List.map_cons,
      map_fst_flatMap fun st _ => st.map_fst_placeHomes isHome]
    exact h
  rintro ⟨x, b⟩ hx
  have hown : ¬ Marked k (states.flatMap (State.builtHomes isHome triggers))
      (Scope.name ⟨k⟩ x) := fun hmarked => by
    have := (within_name_iff.1 hmarked.within).1
    omega
  show AtHome .. ↔ b = true ∧ true = true
  rw [AtHome, or_iff_left hown]
  constructor
  · rintro ⟨y, hy, hmem⟩
    obtain ⟨-, rfl⟩ := Scope.name_inj.1 hy
    have heq := List.inj_on_of_nodup_map hnodup hx hmem rfl
    exact ⟨congrArg Prod.snd heq, rfl⟩
  · rintro ⟨rfl, -⟩
    exact ⟨x, rfl, hx⟩

/-- No join of the machine leads out of the home of a state that is not final. -/
theorem keeps_atHome (h : (Activity.stateMachine initial states triggers).Unambiguous)
    (hlinked : MachineLinked initial states)
    (hfinal : ∀ st ∈ states, st.isFinal = true → isHome st.id = false) :
    Keeps (AtHome isHome initial states triggers k)
      ((Activity.stateMachine initial states triggers).drawing k) := by
  have htold : Told (AtHome isHome initial states triggers k) ⟨k⟩ true
    (placeHomes isHome initial states) := told_atHome h
  have hmarks : Marks (AtHome isHome initial states triggers k) k
    (states.flatMap (State.builtHomes isHome triggers)) := marks_atHome
  simp only [placeHomes, Told, List.forall_mem_cons, Bool.false_eq_true, iff_false,
    and_true] at htold
  obtain ⟨hinit, hclosed, hplaces⟩ := htold
  rw [Activity.drawing_eq, Activity.lines]
  refine Respects.append (Respects.append (by simp [Respects, Activity.endLines]) ?_) ?_
  · refine Activity.keeps_machineLines hlinked hfinal hinit hclosed (fun x hx => ?_) hmarks.framed
    rw [hplaces x hx, and_iff_left rfl]
  · rw [Activity.built, ← map_fst_builtHomes]
    exact hmarks.keeps_draw

/-- The states of a machine without a name given twice have different names. -/
theorem ids_nodup (h : (Activity.stateMachine initial states triggers).Unambiguous) :
    (states.map State.id).Nodup := by
  have hplaces : (states.flatMap State.places).Nodup :=
    (List.nodup_cons.1 (List.nodup_cons.1 h).2).2
  refine (List.nodup_flatMap.1 hplaces).2.map _ fun st st' hdisjoint heq => ?_
  refine hdisjoint (a := st.id ++ ".initialized") ?_ ?_
  · exact List.mem_append_left _ (List.mem_cons_self ..)
  · rw [heq]
    exact List.mem_append_left _ (List.mem_cons_self ..)

/-- States at different positions have different ids. -/
theorem id_ne_of_ne (h : (Activity.stateMachine initial states triggers).Unambiguous) {i j : Nat}
    {st st' : State Activity} (hi : states[i]? = some st) (hj : states[j]? = some st')
    (hij : i ≠ j) : st.id ≠ st'.id := by
  intro heq
  have hlt : i < (states.map State.id).length := by
    rw [List.length_map]
    exact (List.getElem?_eq_some_iff.1 hi).1
  refine hij ((List.getElem?_inj hlt (ids_nodup h)).1 ?_)
  rw [List.getElem?_map, List.getElem?_map, hi, hj, Option.map_some, Option.map_some, heq]

/-- Two states, one of which is not final, are not joined. -/
theorem not_joined_initialized {net : Net} (hw : net.WellFormed)
    (hplaces : ∀ k x, net.scope ≤ k → net.find? (Scope.name ⟨k⟩ x) = none)
    (h : (Activity.stateMachine initial states triggers).Unambiguous)
    (hlinked : MachineLinked initial states) {st st' : State Activity} (hst : st ∈ states)
    (hst' : st' ∈ states) (hne : st.id ≠ st'.id) (hgoes : st.isFinal = false) :
    ¬ Joined ((Activity.stateMachine initial states triggers).drawing net.scope ++ net.lines)
      (Scope.name ⟨net.scope⟩ (st.id ++ ".initialized"))
      (Scope.name ⟨net.scope⟩ (st'.id ++ ".initialized")) := by
  intro hjoined
  have htold : Told (AtHome (· == st.id) initial states triggers net.scope) ⟨net.scope⟩ true
      (states.flatMap (State.placeHomes (· == st.id))) := fun x hx =>
    told_atHome h x (List.mem_cons_of_mem _ (List.mem_cons_of_mem _ hx))
  have hfinal : ∀ st' ∈ states, st'.isFinal = true → (st'.id == st.id) = false := by
    intro st' hst' hend
    rw [beq_eq_false_iff_ne]
    intro heq
    have hsame := List.inj_on_of_nodup_map (ids_nodup h) hst' hst heq
    simp [hsame, hgoes] at hend
  have hiff := hjoined.invariant (P := AtHome (· == st.id) initial states triggers net.scope)
    fun a b hab => by
      rcases List.mem_append.1 hab with hab | hab
      · exact keeps_atHome h hlinked hfinal _ hab
      · obtain ⟨ha, hb⟩ := hw.shows_lines.ties hab
        exact iff_of_false (fun hin => hin.within.not_knows hplaces le_rfl ha)
          fun hin => hin.within.not_knows hplaces le_rfl hb
  rw [Activity.home_initialized_iff htold (List.mem_map_of_mem hst),
    Activity.home_initialized_iff htold (List.mem_map_of_mem hst'), beq_iff_eq, beq_iff_eq] at hiff
  exact hne (hiff.1 rfl).symm

/-! ## The wiring of a machine -/

theorem target_mem_targetLines (s : Scope) (id : String) {i j : Nat}
    {ts : List (StateTransition Activity)} {t : StateTransition Activity} (h : ts[j]? = some t) :
    .joins (targetName (s.name id) (i + j) t.target) (s.name (t.target ++ ".initialized"))
      ∈ Activity.targetLines s id i ts := by
  induction ts generalizing i j with
  | nil => cases h
  | cons t' ts ih =>
    cases j with
    | zero =>
      obtain rfl := Option.some.inj h
      exact List.mem_cons_self ..
    | succ j =>
      have hrest := ih (i := i + 1) h
      rw [Nat.add_right_comm, Nat.add_assoc] at hrest
      exact List.mem_cons_of_mem _ hrest

/-- A state machine that has been read leads to states of its own. -/
theorem machineLinked_of_parse {r : Registry} {stream rest : TokenStream}
    (h : r.parse .stateMachine stream = .ok (.stateMachine initial states triggers) rest) :
    MachineLinked initial states := by
  have hempty : Activity.Throughout (r.Reads fun _ => True) .empty :=
    .leaf ⟨trivial, .inl rfl⟩ rfl
  have hyields : Parser.Yields (fun _ => True) (r.parse .stateMachine)
      (Reader.ReadAs .stateMachine (Activity.Throughout (r.Reads fun _ => True))) :=
    .bind .remaining fun n _ => ActivityType.read_yields (r.child_yields (n + 1)) hempty _
  exact (hyields stream _ rest (fun _ _ => trivial) h).2.links

/-- **States stay apart and transitions reach their targets.** Take a state machine that has been
read, and any net that construction steps can lead to, in which no place has the number of the net
or a later one, and where the fragment of the machine is finished. Different states, not both of
which are final, start at different places. The place at the end of each transition is the start
of its target, the machine starts where its initial state does, and every final state ends
where the machine ends. -/
theorem states_apart {r : Registry} {stream rest : TokenStream}
    (hparse : r.parse .stateMachine stream = .ok (.stateMachine initial states triggers) rest)
    (calls : List Call)
    (hplaces : ∀ k x, (Net.run calls).scope ≤ k →
      (Net.run calls).find? (Scope.name ⟨k⟩ x) = none)
    {net' : Net}
    (hok : (Activity.stateMachine initial states triggers).fragment (Net.run calls)
      = .ok () net') :
    let s : Scope := ⟨(Net.run calls).scope⟩
    (∀ (i j : Nat) (st st' : State Activity), states[i]? = some st → states[j]? = some st' →
      i ≠ j → (st.isFinal = false ∨ st'.isFinal = false) →
        ∃ p q, net'.find? (s.name (st.id ++ ".initialized")) = some p ∧
          net'.find? (s.name (st'.id ++ ".initialized")) = some q ∧ p ≠ q) ∧
    (∀ st ∈ states, st.isFinal = false → ∀ i t, st.transitions[i]? = some t →
      ∃ p, net'.find? (targetName (s.name st.id) (i + 1) t.target) = some p ∧
        net'.find? (s.name (t.target ++ ".initialized")) = some p) ∧
    (∀ id, initial = some id → ∃ p, net'.find? s.initialized = some p ∧
      net'.find? (s.name (id ++ ".initialized")) = some p) ∧
    ∀ st ∈ states, st.isFinal = true → ∃ p, net'.find? (s.name (st.id ++ ".closed")) = some p ∧
      net'.find? s.closed = some p := by
  intro s
  have hw := Net.wellFormed_run calls
  have hlinked := machineLinked_of_parse hparse
  have hunambiguous := (Activity.forall_mem_walk.1 (Activity.fine_of_ok hw hok)).1
  have hshows := (Activity.traced_of_ok hw hok).shows hw.shows_lines
  have htied {n n' : String} (h : .joins n n' ∈ Activity.machineLines s initial states triggers) :
      ∃ p, net'.find? n = some p ∧ net'.find? n' = some p := by
    have hmem : .joins n n' ∈ (Activity.stateMachine initial states triggers).drawing s.id
        ++ (Net.run calls).lines := by
      refine List.mem_append_left _ ?_
      rw [Activity.drawing_eq]
      exact List.mem_append_left _ (List.mem_append_right _ h)
    obtain ⟨hn, hn'⟩ := hshows.ties hmem
    obtain ⟨p, hp⟩ := Net.knows_iff.1 hn
    exact ⟨p, hp, (hshows.joined hn hn').2 (.of_mem hmem) ▸ hp⟩
  refine ⟨fun i j st st' hi hj hij hgoes => ?_, fun st hst hgoes i t ht => htied ?_,
    fun id hid => htied ?_, fun st hst hend => ?_⟩
  · have hknows {st : State Activity} (hst : st ∈ states) :
        net'.Knows (s.name (st.id ++ ".initialized")) := by
      refine hshows.known.2 ⟨.internal, List.mem_append_left _ ?_⟩
      rw [Activity.drawing_eq]
      refine List.mem_append_left _ (Activity.place_mem_lines.2 ?_)
      refine List.mem_cons_of_mem _ (List.mem_cons_of_mem _ (List.mem_flatMap.2 ⟨st, hst, ?_⟩))
      exact List.mem_append_left _ (List.mem_cons_self ..)
    have hst := List.mem_of_getElem? hi
    have hst' := List.mem_of_getElem? hj
    obtain ⟨p, hp⟩ := Net.knows_iff.1 (hknows hst)
    obtain ⟨q, hq⟩ := Net.knows_iff.1 (hknows hst')
    refine ⟨p, q, hp, hq, ?_⟩
    rintro rfl
    have hjoined := (hshows.joined (hknows hst) (hknows hst')).1 (hp.trans hq.symm)
    have hne := id_ne_of_ne hunambiguous hi hj hij
    rcases hgoes with hgoes | hgoes
    · exact not_joined_initialized hw hplaces hunambiguous hlinked hst hst' hne hgoes hjoined
    · exact not_joined_initialized hw hplaces hunambiguous hlinked hst' hst hne.symm hgoes
        hjoined.symm
  · refine List.mem_append_right _ (List.mem_flatMap.2 ⟨st, List.mem_filter.2 ⟨hst, ?_⟩, ?_⟩)
    · simp [hgoes]
    · rw [Nat.add_comm]
      exact target_mem_targetLines s st.id ht
  · refine List.mem_append_left _ (List.mem_append_left _ (List.mem_append_right _ ?_))
    simp [hid]
  · have hline : .joins s.closed (s.name (st.id ++ ".closed"))
        ∈ Activity.machineLines s initial states triggers := by
      refine List.mem_append_left _ (List.mem_append_right _ ?_)
      exact List.mem_map.2 ⟨st, List.mem_filter.2 ⟨hst, hend⟩, rfl⟩
    obtain ⟨p, hp, hp'⟩ := htied hline
    exact ⟨p, hp', hp⟩

/-- Two states that wait for the same trigger, one of them with a way to a final state. -/
def relay : Activity :=
  .stateMachine (some "A")
    [⟨"A", false, none, none, [⟨"B", some "timer", false, none⟩]⟩,
      ⟨"B", false, none, none, [⟨"A", some "timer", true, none⟩, ⟨"F", some "timer", false, none⟩]⟩,
      ⟨"F", true, none, none, []⟩]
    [("timer", .atomic ⟨Namespace.activities, "Delay", "delay"⟩)]

/-- The element of that machine. -/
def relayTokens : List Token :=
  let way (target : String) : Token := (Token.opening Namespace.activities
    "Transition").setAttribute "To" ("\x7bx:Reference " ++ target ++ "\x7d")
  let state (id : String) : Token :=
    (Token.opening Namespace.activities "State").setAttribute "x:Name" id
  [(Token.opening Namespace.activities "StateMachine").setAttribute "InitialState"
      "\x7bx:Reference A\x7d",
    state "A", .opening Namespace.activities "State.Transitions", way "B",
    .opening Namespace.activities "Transition.Trigger",
    (Token.opening Namespace.activities "Delay").setAttribute "x:Name" "timer",
    .ending Namespace.activities "Delay", .ending Namespace.activities "Transition.Trigger",
    .ending Namespace.activities "Transition", .ending Namespace.activities "State.Transitions",
    .ending Namespace.activities "State",
    state "B", .opening Namespace.activities "State.Transitions",
    ((way "A").setAttribute "Trigger" "timer").setAttribute "Condition" "ready",
    .ending Namespace.activities "Transition", (way "F").setAttribute "Trigger" "timer",
    .ending Namespace.activities "Transition", .ending Namespace.activities "State.Transitions",
    .ending Namespace.activities "State",
    (state "F").setAttribute "IsFinal" "True", .ending Namespace.activities "State",
    .ending Namespace.activities "StateMachine"]

/-- The two states of the relay start in different places, and what leads from the second one to
the first leads to its start. -/
theorem states_apart_relay :
    let calls : List Call := [.newPlace "done" .internal, .newTransition "open" .internal,
      .nextScope]
    Registry.standard.parse .stateMachine (TokenStream.ofList relayTokens)
        = .ok relay { tokens := [], consumed := 22 } ∧
      ∃ net' p q, relay.fragment (Net.run calls) = .ok () net' ∧
        net'.find? (Scope.name ⟨1⟩ "A.initialized") = some p ∧
        net'.find? (Scope.name ⟨1⟩ "B.initialized") = some q ∧ p ≠ q ∧
        net'.find? (targetName (Scope.name ⟨1⟩ "B") 1 "A") = some p := by
  intro calls
  have hparse : Registry.standard.parse .stateMachine (TokenStream.ofList relayTokens)
      = .ok relay { tokens := [], consumed := 22 } := by
    set_option maxRecDepth 100000 in rfl
  have hplaces (k : Nat) (x : String) (_ : (Net.run calls).scope ≤ k) :
      (Net.run calls).find? (Scope.name ⟨k⟩ x) = none := by
    show [("done", (⟨0⟩ : PlaceId))].lookup (Scope.name ⟨k⟩ x) = none
    exact lookup_name_eq_none (by decide)
  obtain ⟨⟨⟩, net', hok, -⟩ := relay.fragment.exists_of_test (Net.run calls) (fun _ _ => true)
    (by subst calls; decide +kernel)
  obtain ⟨hapart, htarget, -⟩ := states_apart hparse calls hplaces hok
  obtain ⟨p, q, hp, hq, hne⟩ := hapart 0 1 _ _ rfl rfl (by decide) (.inl rfl)
  obtain ⟨p', hway, hp'⟩ := htarget _ (.tail _ (.head _)) rfl 0 _ rfl
  obtain rfl : p' = p := Option.some.inj (hp'.symm.trans hp)
  exact ⟨hparse, net', p', q, hok, hp, hq, hne, hway⟩

end Fragment.StateMachine

end OpenWorkflow
