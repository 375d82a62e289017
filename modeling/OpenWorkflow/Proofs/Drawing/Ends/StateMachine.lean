import OpenWorkflow.Proofs.Drawing.Ends.Basic

/-!
# What a state machine ends with

A state machine ends with its final states, and with the targets of transitions
to a final state that has nothing to do. The laws are stated for two sets of
names, one that no join leaves and one that nothing is taken from.
-/

namespace OpenWorkflow.Activity

open Fragment.StateMachine (Candidate GuardChain targetName triggerKeys)

variable {E : String → Prop} {s : Scope} {v : Bool} {k : Nat} {states : List (State Activity)}
  {initial : Option String} {last : String}

section machine

variable {F : String → Prop} {id entryDone : String} {exit : String × String} {i : Nat}
  {t : StateTransition Activity} {ts : List (StateTransition Activity)}
  {triggers : List (String × Activity)} {atEnd : String → Bool}

theorem respects_candidateLines {label waiting : String} {k : Nat} (hlast : ¬ F last)
    {bs : List Candidate} (h : ∀ x ∈ State.candidatePlaces id label k bs, ¬ F (s.name x)) :
    Respects E F (candidateLines ⟨s.name id, label, waiting⟩ k last bs) := by
  induction bs generalizing k last with
  | nil => exact .nil
  | cons b bs ih =>
    rw [State.candidatePlaces, List.forall_mem_append] at h
    obtain ⟨hhere, hrest⟩ := h
    simp only [candidateLines, Activity.guardName_eq]
    split
    · rename_i hguarded
      rw [if_pos hguarded, List.forall_mem_cons] at hhere
      split
      · rw [← List.append_assoc, ← List.cons_append]
        refine Respects.append ?_ (ih hlast hrest)
        simpa [Respects, hlast] using hhere.1
      · rename_i hmore
        rw [if_neg hmore, List.forall_mem_singleton] at hhere
        rw [← List.append_assoc, ← List.cons_append]
        refine Respects.append ?_ (ih hhere.2 hrest)
        simpa [Respects, hlast] using hhere.1
    · rw [← List.cons_append]
      refine Respects.append ?_ (ih hlast hrest)
      simp [Respects, hlast]

/-- A guard chain consumes from no end. -/
theorem respects_guardLines {label waiting fired on : String} (hfired : ¬ F fired)
    {bs : List Candidate} (h : ∀ x ∈ State.chainPlaces id label bs, ¬ F (s.name x)) :
    Respects E F (guardLines ⟨s.name id, label, waiting⟩ fired on bs) := by
  rw [State.chainPlaces, List.forall_mem_cons] at h
  refine Respects.append ?_ (respects_candidateLines ?_ h.2)
  · simp [Respects, hfired]
  · rw [Activity.guardName_eq]
    exact h.1

/-- A transition ends the machine if its target does. -/
theorem respects_targetLines (htold : Told E s v (State.transitionEnds atEnd id i ts))
    (htargets : ∀ t ∈ ts,
      E (s.name (t.target ++ ".initialized")) ↔ atEnd t.target = true ∧ v = true) :
    Respects E F (targetLines s id i ts) := by
  induction ts generalizing i with
  | nil => exact .nil
  | cons t ts ih =>
    rw [State.transitionEnds, told_append, told_append] at htold
    rw [List.forall_mem_cons] at htargets
    obtain ⟨⟨-, hends⟩, hrest⟩ := htold
    have htarget := hends _ (List.mem_cons_of_mem _ (List.mem_singleton_self _))
    have hjoin : Respects E F
        [.joins (targetName (s.name id) i t.target) (s.name (t.target ++ ".initialized"))] := by
      rw [Activity.targetName_eq]
      simp [Respects, htarget, htargets.1]
    exact hjoin.append (ih hrest htargets.2)

/-- The links of a machine whose states have been drawn. -/
theorem respects_linkLines
    (hstates : Respects E F
      (numberedLines (stateLines s triggers) (State.built triggers) s.id states))
    (hinitial : ∀ id ∈ initial, E s.initialized ↔ E (s.name (id ++ ".initialized")))
    (hfinal : ∀ st ∈ states, st.isFinal = true → (E s.closed ↔ E (s.name (st.id ++ ".closed"))))
    (hways : ∀ st ∈ states, st.isFinal = false →
      Told E s v (State.transitionEnds atEnd st.id 1 st.transitions) ∧ ∀ t ∈ st.transitions,
        E (s.name (t.target ++ ".initialized")) ↔ atEnd t.target = true ∧ v = true) :
    Respects E F (machineLines s initial states triggers) := by
  refine ((hstates.append ?_).append ?_).append (.flatMap fun st hst => ?_)
  · cases initial with
    | none => exact .nil
    | some id => simpa [Respects] using hinitial id rfl
  · intro l hl
    obtain ⟨st, hst, rfl⟩ := List.mem_map.1 hl
    obtain ⟨hst, hend⟩ := List.mem_filter.1 hst
    exact hfinal st hst hend
  · obtain ⟨hst, hgoes⟩ := List.mem_filter.1 hst
    obtain ⟨htold, htargets⟩ := hways st hst (by simpa using hgoes)
    exact respects_targetLines htold htargets

section

variable {b : Bool} (hF : ∀ n, F n → E n ∧ b = false)
include hF

theorem not_taken {n : String} (h : E n ↔ b = true) : ¬ F n := by
  intro hn
  obtain ⟨hE, rfl⟩ := hF n hn
  cases h.1 hE

theorem respects_exitLines {exit : Option Activity}
    (h : ∀ x ∈ State.exitPlaces id exit, ¬ E (s.name x))
    (hframed : Framed E k (exit.toList.map (·, false))) :
    Respects E F (exitLines (s.name id) k exit) ∧ ¬ F (exitEnds (s.name id) exit).2 := by
  suffices Respects E F (exitLines (s.name id) k exit) ∧ ¬ E (exitEnds (s.name id) exit).2 from
    this.imp_right fun hend hn => hend (hF _ hn).1
  unfold State.exitPlaces at h
  unfold exitLines exitEnds
  simp only [Scope.name_append]
  cases exit with
  | none =>
    simp only [Option.isSome_none, Bool.false_eq_true, if_false, List.forall_mem_singleton] at h
    simp [Respects, h]
  | some exit =>
    simp only [Option.isSome_some, if_true, List.forall_mem_cons] at h
    simp only [Option.toList_some, List.map_cons, List.map_nil, Framed, Each] at hframed
    simp [Respects, enclosedLines, spliceLines, h, hframed]

theorem respects_wayLines (hexit : ¬ F exit.2)
    (haction : ∀ x ∈ State.actionPlaces id i t.action, ¬ E (s.name x))
    (hwait : ¬ E (s.name (id ++ ".t" ++ toString i ++ ".wait")))
    (hframed : Framed E k (t.action.toList.map (·, false))) :
    Respects E F (wayLines (s.name id) exit i k t) := by
  unfold State.actionPlaces at haction
  unfold wayLines actionLines actionEnd
  have hfree (n : String) (hn : ¬ E n) : ¬ F n := fun h => hn (hF n h).1
  simp only [Scope.name_append]
  cases haction' : t.action with
  | none => simp_all [Respects]
  | some action => simp_all [Respects, spliceLines, Framed, Each]

/-- What the transitions of a state draw respects the ends. -/
theorem respects_transitionLines (hexit : ¬ F exit.2)
    (htold : Told E s v (State.transitionEnds atEnd id i ts))
    (hframed : Framed E k ((ts.flatMap (·.action.toList)).map (·, false))) :
    Respects E F (transitionLines (s.name id) exit i k ts) := by
  induction ts generalizing i k with
  | nil => exact .nil
  | cons t ts ih =>
    rw [State.transitionEnds, told_append, told_append, told_false] at htold
    obtain ⟨⟨haction, hends⟩, hrest⟩ := htold
    rw [List.flatMap_cons, List.map_append, Framed, each_append, map_fst_map_pair] at hframed
    have hwait := hends _ (List.mem_cons_self ..)
    simp only [Bool.false_eq_true, false_and, iff_false] at hwait
    exact (respects_wayLines hF hexit haction hwait hframed.1).append (ih hrest hframed.2)

theorem respects_triggerLines (hdone : E entryDone ↔ b = true) {key : String}
    (h : ∀ x ∈ State.triggerPlaces id ts key, E (s.name x) ↔ b = true)
    (hframed : Framed E k ((triggers.lookup key).toList.map (·, b))) :
    Respects E F (triggerLines (s.name id) entryDone triggers ts k key) := by
  unfold State.triggerPlaces at h
  rw [List.forall_mem_append, List.forall_mem_cons, List.forall_mem_singleton] at h
  obtain ⟨⟨hin, hout⟩, hchain⟩ := h
  unfold triggerLines
  simp only [Scope.name_append]
  have hjoin : Respects E F [.joins entryDone (s.name (id ++ ".trigger." ++ key ++ ".in"))] := by
    simp [Respects, hdone, hin]
  refine (Respects.append ?_ ?_).append (hjoin.append
    (respects_guardLines (not_taken hF hout) fun x hx => not_taken hF (hchain x hx)))
  · simp [Respects]
  · cases htrigger : triggers.lookup key with
    | none => exact .nil
    | some trigger =>
      simp only [htrigger, Option.toList_some, List.map_cons, List.map_nil, Framed, Each] at hframed
      simp [Respects, spliceLines, hin, hout, hframed]

theorem respects_untriggeredLines (hdone : E entryDone ↔ b = true)
    (h : ∀ x ∈ State.untriggeredPlaces id ts, E (s.name x) ↔ b = true) :
    Respects E F (untriggeredLines (s.name id) entryDone ts) := by
  unfold State.untriggeredPlaces at h
  unfold untriggeredLines
  split
  · exact .nil
  · rename_i hsome
    rw [if_neg hsome, List.forall_mem_cons] at h
    simp only [Scope.name_append]
    refine Respects.append ?_ (respects_guardLines (not_taken hF h.1) fun x hx =>
      not_taken hF (h.2 x hx))
    simp [Respects, hdone, h.1]

/-- What a state that is not final has besides its entry. -/
theorem respects_wayoutLines {exit : Option Activity} (hdone : E entryDone ↔ b = true)
    (hexit : ∀ x ∈ State.exitPlaces id exit, ¬ E (s.name x))
    (hways : Told E s v (State.transitionEnds atEnd id 1 ts))
    (htriggers : ∀ x ∈ (triggerKeys ts).flatMap (State.triggerPlaces id ts),
      E (s.name x) ↔ b = true)
    (huntriggered : ∀ x ∈ State.untriggeredPlaces id ts, E (s.name x) ↔ b = true)
    (hframed : Framed E k (exit.toList.map (·, false)
      ++ (ts.flatMap (·.action.toList)).map (·, false)
      ++ ((triggerKeys ts).filterMap (triggers.lookup ·)).map (·, b))) :
    Respects E F (exitLines (s.name id) k exit
      ++ transitionLines (s.name id) (exitEnds (s.name id) exit) 1 (k + sizes exit.toList) ts
      ++ numberedLines (triggerLines (s.name id) entryDone triggers ts)
        (fun key => (triggers.lookup key).toList)
        (k + sizes exit.toList + sizes (ts.flatMap (·.action.toList))) (triggerKeys ts)
      ++ untriggeredLines (s.name id) entryDone ts) := by
  rw [Framed, each_append, each_append, List.map_append, map_fst_map_pair, map_fst_map_pair,
    sizes_append, ← Nat.add_assoc, List.filterMap_eq_flatMap_toList] at hframed
  obtain ⟨⟨hexit', hways'⟩, hkeys⟩ := hframed
  rw [List.map_flatMap] at hkeys
  obtain ⟨hlines, hend⟩ := respects_exitLines hF hexit hexit'
  refine ((hlines.append (respects_transitionLines hF hend hways hways')).append
    (.numberedLines (fun key => map_fst_map_pair ..) hkeys fun key hkey k hk => ?_)).append
    (respects_untriggeredLines hF hdone huntriggered)
  exact respects_triggerLines hF hdone
    (fun x hx => htriggers x (List.mem_flatMap.2 ⟨key, hkey, hx⟩)) hk

end

end machine

/-- The entry of a state is at the end if the state is final. -/
theorem respects_entryLines {st : State Activity} (htold : Told E s v st.entryEnds)
    (hseen : Seen E v k (st.entry.toList.map (·, st.isFinal))) :
    Respects E E (entryLines (s.name st.id) k st.entry) ∧
      (E (entryEnd (s.name st.id) st.entry) ↔ st.isFinal = true ∧ v = true) := by
  unfold State.entryEnds State.isOver at htold
  unfold entryLines entryEnd
  simp only [Scope.name_append]
  cases hentry : st.entry with
  | none =>
    simp only [Told, hentry, Option.isNone_none, Bool.and_true, Option.isSome_none,
      Bool.false_eq_true, if_false, List.forall_mem_singleton] at htold
    simp [Respects, htold]
  | some entry =>
    simp only [Told, hentry, Option.isNone_some, Bool.and_false, Option.isSome_some, if_true,
      List.forall_mem_cons, Bool.false_eq_true, false_and, iff_false] at htold
    simp only [hentry, Option.toList_some, List.map_cons, List.map_nil, Seen, Each,
      and_true] at hseen
    simp [Respects, enclosedLines, spliceLines, htold, hseen]

/-- What a state draws respects the ends. -/
theorem respects_stateLines {atEnd : String → Bool} {triggers : List (String × Activity)}
    {st : State Activity} (htold : Told E s v (st.placeEnds atEnd))
    (hseen : Seen E v k (st.builtEnds triggers)) : Respects E E (stateLines s triggers k st) := by
  unfold State.placeEnds at htold
  unfold State.builtEnds State.built at hseen
  unfold stateLines
  rw [told_append] at htold
  rw [List.map_append, Seen, each_append, map_fst_map_pair] at hseen
  obtain ⟨hlines, hdone⟩ := respects_entryLines htold.1 hseen.1
  refine hlines.append ?_
  cases hfinal : st.isFinal with
  | true =>
    simp only [hfinal, if_true, Told, List.forall_mem_singleton] at htold
    simp only [if_true, Scope.name_append]
    simp [Respects, hdone, hfinal, htold.2]
  | false =>
    simp only [hfinal, Bool.false_eq_true, if_false, told_append, told_false, false_and,
      iff_false] at htold hdone
    obtain ⟨-, ⟨⟨hexit, hways⟩, htriggers⟩, huntriggered⟩ := htold
    rw [hfinal, if_neg Bool.false_ne_true] at hseen
    have hframed := Seen.framed hseen.2
    rw [List.map_append, List.map_append] at hframed
    exact respects_wayoutLines (fun n hn => ⟨hn, rfl⟩) (by simpa using hdone) hexit hways
      (by simpa using htriggers) (by simpa using huntriggered) hframed

/-- A state starts at the end if the machine is over then. -/
theorem end_initialized_iff (htold : Told E s v (states.flatMap (State.placeEnds (isOver states))))
    {id : String} (hid : id ∈ states.map State.id) :
    E (s.name (id ++ ".initialized")) ↔ isOver states id = true ∧ v = true := by
  have hstate {st : State Activity} (hst : st ∈ states) :
      E (s.name (st.id ++ ".initialized")) ↔ st.isOver = true ∧ v = true :=
    told_flatMap.1 htold st hst _ (List.mem_append_left _ (List.mem_cons_self ..))
  simp only [isOver, List.any_eq_true, Bool.and_eq_true, decide_eq_true_eq]
  constructor
  · intro hE
    obtain ⟨st, hst, rfl⟩ := List.mem_map.1 hid
    obtain ⟨hover, hv⟩ := (hstate hst).1 hE
    exact ⟨⟨st, hst, rfl, hover⟩, hv⟩
  · rintro ⟨⟨st, hst, rfl, hover⟩, hv⟩
    exact (hstate hst).2 ⟨hover, hv⟩

/-- A state machine ends in its final states. -/
theorem respects_machineLines (hinit : ¬ E s.initialized) (hclosed : E s.closed ↔ v = true)
    {triggers : List (String × Activity)} (hlinked : MachineLinked initial states)
    (hopens : ∀ id ∈ initial, isOver states id = false)
    (htold : Told E s v (states.flatMap (State.placeEnds (isOver states))))
    (hseen : Seen E v s.id (states.flatMap (State.builtEnds triggers))) :
    Respects E E (machineLines s initial states triggers) := by
  have hstate {st : State Activity} (hst : st ∈ states) := told_flatMap.1 htold st hst
  refine respects_linkLines (.numberedLines (fun _ => map_fst_map_pair ..) hseen
    fun st hst k hk => respects_stateLines (hstate hst) hk) (fun id hid => ?_)
    (fun st hst hfinal => ?_) fun st hst hgoes => ⟨?_, fun t ht =>
      end_initialized_iff htold (hlinked.targets st hst t ht)⟩
  · rw [end_initialized_iff htold (hlinked.initial id hid), hopens id hid]
    simp [hinit]
  · have hend := hstate hst (st.id ++ ".closed", true)
      (by simp only [State.placeEnds, hfinal, if_true]; simp)
    rw [hclosed, hend, and_iff_right rfl]
  · have hway := hstate hst
    simp only [State.placeEnds, hgoes, Bool.false_eq_true, if_false, told_append] at hway
    exact hway.2.1.1.2

end OpenWorkflow.Activity
