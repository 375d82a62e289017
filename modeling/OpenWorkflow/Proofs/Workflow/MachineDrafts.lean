import OpenWorkflow.Proofs.Workflow.StructuredDrafts

/-!
# What state machines hold

A state machine collects the activities of its states and transitions like other
activities do. Its triggers it keeps under keys, and a trigger given later replaces one
given before under the same key. The key that a transition waits for is in a slot: a
second trigger property takes its place, and what was given under the first key may be
left without a transition that waits for it.
-/

namespace OpenWorkflow.OrderedMap

variable {κ ν : Type} [DecidableEq κ]

theorem filter_ne_of_not_mem {es : List (κ × ν)} {k : κ} (h : k ∉ es.map Prod.fst) :
    es.filter (fun e => e.1 ≠ k) = es := by
  refine List.filter_eq_self.2 fun e he => decide_eq_true fun hk => h ?_
  exact hk ▸ List.mem_map_of_mem he

theorem replaceValue_perm {es : List (κ × ν)} {k : κ} {v : ν} (hnodup : (es.map Prod.fst).Nodup)
    (h : k ∈ es.map Prod.fst) :
    (replaceValue k v es).Perm (es.filter (fun e => e.1 ≠ k) ++ [(k, v)]) := by
  induction es with
  | nil => exact absurd h List.not_mem_nil
  | cons e es ih =>
    rw [List.map_cons, List.nodup_cons] at hnodup
    rw [replaceValue]
    split
    · next hk =>
      have hrest : es.filter (fun e => e.1 ≠ k) = es := filter_ne_of_not_mem (hk ▸ hnodup.1)
      rw [List.filter_cons_of_neg (by simp [hk]), hrest]
      exact (List.perm_append_singleton _ _).symm
    · next hk =>
      rw [List.filter_cons_of_pos (by simp [hk]), List.cons_append]
      exact (ih hnodup.2 ((List.mem_cons.1 h).resolve_left fun he => hk he.symm)).cons e

/-- Storing a value under a key leaves the other entries. -/
theorem toList_insert_perm (m : OrderedMap κ ν) (k : κ) (v : ν) :
    (m.insert k v).toList.Perm (m.toList.filter (fun e => e.1 ≠ k) ++ [(k, v)]) := by
  unfold insert
  split
  · next h => exact replaceValue_perm m.nodup h
  · next h => rw [filter_ne_of_not_mem h]

end OpenWorkflow.OrderedMap

namespace OpenWorkflow.Reader.StateMachine

open OpenWorkflow.Markup (Token Tree Sight activityName languageName)
open OpenWorkflow.Markup.Tree
open OpenWorkflow.Parser (Chain Closes Ends Spans Stays)

/-! ## Triggers -/

theorem givenTriggers_giveTrigger (m : Machine) (key : String) (a : Activity) (t : Tree) :
    (givenTriggers (m.giveTrigger key a)).Perm
      ((givenTriggers m).filter (unclaimed [(key, t)]) ++ [(key, a)]) := by
  have hinsert := (OrderedMap.toList_insert_perm m.triggers key (some a)).filterMap
    fun t => t.2.map (fun activity => (t.1, activity))
  have hothers : (m.triggers.toList.filter fun e => e.1 ≠ key).filterMap
      (fun t => t.2.map (fun activity => (t.1, activity)))
        = (givenTriggers m).filter (unclaimed [(key, t)]) := by
    rw [givenTriggers, List.filter_filterMap, List.filterMap_filter]
    congr 1
    funext e
    cases e.2 with
    | none => simp
    | some b =>
      have hkey : unclaimed [(key, t)] (e.1, b) = decide (e.1 ≠ key) := by
        by_cases h : e.1 = key
        · simp [unclaimed, h]
        · simp [unclaimed, h, Ne.symm h]
      simp [hkey, Option.filter]
  rw [List.filterMap_append, hothers] at hinsert
  exact hinsert

/-- A trigger is given under its key, and the transition waits for it. -/
theorem moves_trigger {t : Tree} {a : Activity} (ht : StandsFor t a) (m : Machine) :
    let named := m.nameOf "trigger" (t.start.attribute? "x:Name")
    Moves (t.sightsIn (activityName "Transition.Trigger")) m [] (named.2.giveTrigger named.1 a)
      [.key named.1] := by
  intro named
  have hgiven : givenTriggers named.2 = givenTriggers m := by
    cases hname : t.start.attribute? "x:Name" <;>
      simp [hname, named, Machine.nameOf, givenTriggers]
  have hkey : (Sight.activity (activityName "Transition.Trigger") t).key? m.generated
      = some (named.1, some t) := by
    cases hname : t.start.attribute? "x:Name" <;>
      simp [Sight.key?, Sight.isTrigger, hname, named, Machine.nameOf]
  rw [sightsIn_isActivity ht.name]
  refine ⟨fun x hx => ?_, ⟨?_, ?_⟩, ?_⟩
  · rw [List.mem_singleton.1 hx, ht.activity]
    rfl
  · cases hname : t.start.attribute? "x:Name" <;>
      simp [Sight.generated, Sight.generates, Sight.isTrigger, hname, named, Machine.nameOf,
        Machine.giveTrigger]
  · have htriggers : Sight.triggers m.generated
        [(true, .activity (activityName "Transition.Trigger") t)] = [(named.1, t)] := by
      simp [Sight.triggers, Sight.keys, hkey]
    have hread : readAll (latest [(named.1, t)]) = [(named.1, a)] := by
      simp [readAll, latest, ht.activity]
    rw [htriggers, ← hgiven, hread]
    exact givenTriggers_giveTrigger _ _ _ _
  · simp [Sight.items, Sight.item, hkey]

theorem needTrigger_frame (m : Machine) (key : Option String) :
    givenTriggers (m.needTrigger key) = givenTriggers m ∧
      (m.needTrigger key).generated = m.generated ∧ (m.needTrigger key).states = m.states := by
  cases key with
  | none => exact ⟨rfl, rfl, rfl⟩
  | some key =>
    simp only [Machine.needTrigger]
    split
    · exact ⟨rfl, rfl, rfl⟩
    · next hnew =>
      have hfresh : key ∉ m.triggers.toList.map Prod.fst := fun hmem =>
        hnew ((OrderedMap.get?_isSome_iff m.triggers key).2 hmem)
      refine ⟨?_, rfl, rfl⟩
      simp [givenTriggers, OrderedMap.insert, hfresh]

/-- A trigger property leaves the states; its key is the one that is waited for. -/
theorem trigger_spans (m : Machine) : Spans (trigger Registry.standard.parseChild m) fun t x =>
    x.2.states = m.states ∧
      ∀ holder, Moves (t.sightsIn holder) m [] x.2 (x.1.toList.map .key) := by
  have hskipped {u : Tree} {key : Option String} (hu : isSkipped u.qname = true)
      (hkey : u.reference? = key) : Moves (sightsAll (activityName "Transition.Trigger") [u]) m [] m
        (key.toList.map .key) := by
    rw [sightsAll_singleton, sightsIn_skipped hu, if_pos rfl, hkey]
    cases key with
    | none => exact .none m []
    | some key => exact ⟨fun _ hx => absurd hx List.not_mem_nil, .untriggered rfl rfl rfl, .refl _⟩
  refine .expectStart fun start => .before .look fun _ _ => .atStartOf fun null =>
    .atStartOf fun reference => .ite (fun _ => .none (.close ?_)) fun _ => .ite (fun hnull => ?_)
    fun _ => .ite (fun _ => ?_) fun _ => ?_
  · intro _ _ t _ hchildren ht
    refine ⟨rfl, fun holder => .structuring (by decide) (by decide) ht ?_⟩
    rw [hchildren]
    exact .none m []
  · refine .one .skipElement fun u _ _ => .close fun _ hfront t _ hchildren ht => ?_
    have hu : u.qname = languageName "Null" := hfront hnull u rfl
    refine ⟨rfl, fun holder => .structuring (by decide) (by decide) ht ?_⟩
    rw [hchildren]
    refine hskipped (hu ▸ isSkipped_languageName (by decide)) ?_
    rw [reference?, hu, if_neg (by simp [languageName, Markup.qualify])]
  · refine .one (reference_spans owner) fun u key hu => .close fun _ _ t _ hchildren ht => ?_
    refine ⟨rfl, fun holder => .structuring (by decide) (by decide) ht ?_⟩
    rw [hchildren]
    exact hskipped (hu.1 ▸ isSkipped_languageName (by decide)) hu.2
  · refine .peekStart fun front => .one (parseChild_spans owner) fun u a hu =>
      .close fun hfront _ _ t _ hchildren ht => ?_
    obtain rfl := hfront u rfl
    refine ⟨?_, fun holder => .structuring (by decide) (by decide) ht ?_⟩
    · cases u.start.attribute? "x:Name" <;> rfl
    · rw [hchildren, sightsAll_singleton]
      exact moves_trigger hu m

/-! ## Transitions -/

/-- What a transition holds. -/
def transitionItems (t : StateTransition Activity) : List Item :=
  t.action.toList.map (.activity .action) ++ t.trigger.toList.map .key

/-- What a state and the transitions out of it hold. -/
def stateItems (s : State Activity) : List Item :=
  s.entry.toList.map (.activity .entry) ++ (s.exit.toList.map (.activity .exit)
    ++ s.transitions.flatMap transitionItems)

/-- What the states of a machine hold. -/
def Machine.items (m : Machine) : List Item := m.states.flatMap stateItems

variable {holder name : String} {t : Tree} {m m' : Machine} {l l' : List Item}

/-- What a machine holds is in its states. -/
theorem items_congr (h : m'.states = m.states) : m'.items = m.items := by
  rw [Machine.items, h, Machine.items]

/-- The states bring their activities and move the machine, wherever they stand. -/
def StatesMove (state : StateReader) : Prop :=
  ∀ m holder, holder ≠ activityName "Transition.Trigger" → Spans (state m) fun t x =>
    t.slot? = none ∧ Moves (t.sightsIn holder) m m.items x.2 x.2.items

variable {state : StateReader}

/-- A transition that is being read, and the machine around it. -/
def transitionView : View TransitionDraft where
  content d := filled "Transition.Action" d.action
    ++ (placed "Transition.Trigger" (d.trigger.toList.map .key) ++ free d.machine.items)
  machine d := d.machine

theorem transitionPart_spans (hstate : StatesMove state) (d : TransitionDraft) :
    Spans (transitionPart Registry.standard.parseChild state d)
      (transitionView.Step (activityName "Transition") d) := by
  refine .atStart ?_ (.atStart ?_ (.atOpened ?_ (.atStart ?_ .unexpected)))
  · refine .andThen (trigger_spans d.machine) fun t x hx => .pure fun ht => ?_
    refine .refills (by decide) ht (filled "Transition.Action" d.action) ?_ rfl
      (by simp only [transitionView, items_congr hx.1]) (hx.2 _)
    exact filter_placed_append (by decide) ht (by decide) (filter_free _) _
  · exact .andThen .skipElement fun t _ _ => .pure fun ht =>
      .skipped (ht ▸ isSkipped_property (by decide)) (by simp) rfl rfl
  · refine .expectStart fun start => .before .look fun _ _ => .ite (fun _ => .none (.close ?_))
      fun _ => .one (hstate d.machine (activityName "Transition.To") (by simp)) fun u x hx =>
        .close ?_
    · intro t _ hchildren ht
      refine .grows (slot?_of_not_single ht (by decide))
        (.structuring (by decide) (by decide) ht ?_) _ (List.append_assoc ..).symm
        (List.append_assoc ..).symm
      rw [hchildren]
      exact .none _ _
    · intro t _ hchildren ht
      refine .grows (slot?_of_not_single ht (by decide))
        (.structuring (by decide) (by decide) ht ?_) _ (List.append_assoc ..).symm
        (List.append_assoc ..).symm
      rw [hchildren, sightsAll_singleton]
      exact hx.2
  · refine .andThen (wrapped_spans owner (by decide) (by decide)) fun t x hx => .pure fun ht => ?_
    refine .refills (by decide) ht [] ?_ rfl rfl (hx _ _)
    exact filter_placed_append (by decide) ht (by decide) (filter_free _) _

/-- The trigger that the attribute of a transition refers to is in the slot of the trigger property
before anything is read. -/
theorem moves_attributed {start : Token} {d : TransitionDraft} (ts : List Tree)
    (hstart : start.qname = activityName "Transition")
    (htrigger : d.trigger = referred? start "Trigger") (haction : d.action = none) :
    Moves (attributed start ts) (transitionView.machine d) d.machine.items
      (transitionView.machine d)
      (((transitionView.content d).filter (survives ts)).map Prod.snd) := by
  have hcontent : ((transitionView.content d).filter (survives ts)).map Prod.snd
      = (if ts.any fun u => u.slot? == some (activityName "Transition.Trigger") then []
        else (referred? start "Trigger").toList.map .key) ++ d.machine.items := by
    simp only [transitionView, htrigger, haction, List.filter_append, filter_placed, filter_free,
      List.map_append, map_snd_free]
    split <;> simp [filled, placed, Function.comp_def]
  rw [hcontent, attributed, if_pos hstart, referred?]
  cases (start.attribute? "Trigger").map referenceName with
  | none => split <;> exact .none _ _
  | some key =>
    refine ⟨fun _ hx => absurd hx List.not_mem_nil, .untriggered rfl rfl rfl, ?_⟩
    split
    · next hany => simp [Sight.items, hany]
    · next hnone =>
      simp only [hnone]
      exact (List.perm_append_singleton ..).symm

/-- A transition is read from one tree. -/
theorem transition_spans (hstate : StatesMove state) (m : Machine) :
    Spans (transition Registry.standard.parseChild state m) fun t x => t.slot? = none ∧
      ∀ holder, Moves (t.sightsIn holder) m m.items x.2 (transitionItems x.1 ++ x.2.items) := by
  refine .expectStart fun start => .untilEnd (transitionPart_spans hstate) fun ts d hchain =>
    .expectEnd fun _ => ?_
  obtain ⟨hgiven, hgenerated, hstates⟩ := needTrigger_frame d.machine d.trigger
  split
  · exact .fail
  · refine .pure fun t hstart hchildren ht => ⟨slot?_of_not_single ht (by decide), fun holder => ?_⟩
    rw [sightsIn_structuring (by decide) ht, if_neg (by decide),
      sights_eq (ht ▸ isPrimitive_structuring (by decide)), hchildren, hstart, ht]
    have hqname : start.qname = activityName "Transition" := by
      rw [← hstart]
      exact ht
    have hmoves := Moves.append (moves_attributed ts hqname rfl rfl) (View.run hchain)
    refine hmoves.congr hgenerated hgiven (.of_eq ?_)
    simp [transitionView, transitionItems, filled, items_congr hstates, Role.within, Role.table]

/-! ## States -/

/-- The transitions out of a state that is being read, and the machine around it. -/
def StateDraft.outgoing (d : StateDraft) : List Item :=
  d.transitions.flatMap transitionItems ++ d.machine.items

/-- A state that is being read, and the machine around it. -/
def stateView : View StateDraft where
  content d := filled "State.Entry" d.entry ++ (filled "State.Exit" d.exit ++ free d.outgoing)
  machine d := d.machine

/-- The same without entry and exit, which transitions leave as they are. -/
def outgoingView : View StateDraft where
  content d := free d.outgoing
  machine d := d.machine

theorem stateTransition_spans (hstate : StatesMove state) (d : StateDraft) :
    Spans (stateTransition Registry.standard.parseChild state d) fun t d' =>
      outgoingView.Step (activityName "State.Transitions") d t d' ∧
        (d'.entry, d'.exit) = (d.entry, d.exit) := by
  refine .andThen (transition_spans hstate d.machine) fun t x hx => .pure ⟨?_, rfl⟩
  refine .grows hx.1 ((hx.2 _).extend (d.transitions.flatMap transitionItems)) [] rfl ?_
  simp [outgoingView, StateDraft.outgoing]

theorem chain_frame {σ ρ : Type} {f : σ → ρ} {d d' : σ} {ts : List Tree}
    (h : Chain (fun d _ d' => f d' = f d) d ts d') : f d' = f d := by
  induction h with
  | nil d => rfl
  | cons hstep _ ih => exact ih.trans hstep

theorem statePart_spans (hstate : StatesMove state) (d : StateDraft) :
    Spans (statePart Registry.standard.parseChild state d)
      (stateView.Step (activityName "State") d) := by
  refine .atStart ?_ (.atStart ?_ (.atOpened ?_ .unexpected))
  · refine .andThen (wrapped_spans owner (by decide) (by decide)) fun t x hx => .pure fun ht => ?_
    refine .refills (by decide) ht [] ?_ rfl rfl (hx _ _)
    exact filter_placed_append (by decide) ht (by decide) (filter_free _) _
  · refine .andThen (wrapped_spans owner (by decide) (by decide)) fun t x hx => .pure fun ht => ?_
    refine .refills (by decide) ht (filled "State.Entry" d.entry) ?_ rfl rfl (hx _ _)
    exact filter_placed_append (by decide) ht (by decide) (filter_free _) _
  · refine .expectStart fun start => .untilEnd (stateTransition_spans hstate)
      fun ts d' hchain => .close fun t _ hchildren ht => ?_
    have hrun := View.run (hchain.imp fun _ _ _ h => h.1)
    have hframe : (d'.entry, d'.exit) = (d.entry, d.exit) :=
      chain_frame (hchain.imp fun _ _ _ h => h.2)
    obtain ⟨hentry, hexit⟩ := Prod.mk.inj hframe
    simp only [outgoingView, filter_free, map_snd_free] at hrun
    refine .grows (slot?_of_not_single ht (by decide))
      (.structuring (by decide) (by decide) ht (hchildren ▸ hrun)) _ (List.append_assoc ..).symm ?_
    simp only [stateView, hentry, hexit, List.append_assoc]

/-- States at any depth move the machine. -/
theorem states_move (n : Nat) : StatesMove (StateMachine.state Registry.standard.parseChild n) := by
  induction n with
  | zero => exact fun _ _ _ => .fail
  | succ n ih =>
    intro m holder hholder
    refine .atStart ?_ ?_
    · refine .andThen (reference_spans owner) fun t _ ht => .pure fun _ => ?_
      have hskipped : isSkipped t.qname = true := ht.1 ▸ isSkipped_languageName (by decide)
      exact ⟨slot?_eq_none (.inl hskipped), .skipped hskipped hholder m _⟩
    · have hother : isPrimitive (activityName "State") = false :=
        isPrimitive_structuring (by decide)
      refine .expectStart fun start => .untilEnd (statePart_spans ih) fun ts d hchain => .close ?_
      rintro t rfl hchildren ht
      let named := m.nameOf "state" (t.start.attribute? "x:Name")
      have hnamed : Moves [(true, .state t)] m m.items named.2 named.2.items := by
        refine ⟨fun _ hx => absurd hx List.not_mem_nil, .untriggered rfl ?_ ?_, ?_⟩ <;>
          cases hname : t.start.attribute? "x:Name" <;>
            simp [named, hname, Machine.nameOf, Sight.generated, Sight.generates, Sight.items,
              Sight.item, Machine.items, givenTriggers]
      have hrun : Moves (sightsAll (activityName "State") ts) named.2 named.2.items d.machine
          ((stateView.content d).map Prod.snd) := by
        have hinit : ((stateView.content { machine := named.2 }).filter (survives ts)).map Prod.snd
            = named.2.items := by
          simp [stateView, filled, placed, StateDraft.outgoing]
        exact hinit ▸ View.run hchain
      refine ⟨slot?_of_not_single ht (by decide), ?_⟩
      rw [sightsIn_structuring (by decide) ht, if_pos rfl,
        sights_eq_sightsAll (ht ▸ hother) (by rw [ht]; simp), hchildren, ht]
      refine (hnamed.append hrun).congr rfl rfl ?_
      simp only [Machine.items, Machine.push, List.flatMap_append, List.flatMap_singleton]
      refine List.perm_append_comm.trans (.of_eq ?_)
      simp [stateView, stateItems, filled, StateDraft.outgoing, Machine.items, Role.within,
        Role.table]

/-! ## Machines -/

/-- A machine that is being read. -/
def machineView : View Draft where
  content d := free d.machine.items
  machine d := d.machine

theorem part_spans (hstate : StatesMove state) (d : Draft) :
    Spans (part state d) (machineView.Step (activityName "StateMachine") d) := by
  -- A state is read alike in the initial property, in the list and directly in the machine.
  have hstep {holder : String} (hholder : holder ≠ activityName "Transition.Trigger") (d : Draft) :
      Spans (state d.machine) fun t x => ∀ initial, machineView.Step holder d t ⟨x.2, initial⟩ :=
    .imp (hstate d.machine holder hholder) fun t x hx initial => .grows hx.1 hx.2 [] rfl rfl
  have hgroup {name : String} {item : Draft → Parser Draft} (hname : name ∈ Tree.structuring)
      (hother : name ∉ singleProperties ++ ["State", "Transition"])
      (hitem : ∀ d, Spans (item d) (machineView.Step (activityName name) d)) :
      Spans (do
        let _ ← Parser.expectStart (activityName name) owner
        let d ← Parser.untilEnd (activityName name) owner item d
        let _ ← Parser.expectEnd (activityName name) owner
        return d) (machineView.Step (activityName "StateMachine") d) := by
    rw [List.mem_append, not_or] at hother
    refine element_spans machineView d.machine.items (fun _ => rfl) hitem fun t d' ht h => ?_
    rw [machineView, map_snd_free] at h
    exact .grows (slot?_of_not_single ht hother.1) (.structuring hname hother.2 ht h) [] rfl rfl
  refine .atOpened (hgroup (by decide) (by decide) fun d => ?_) (.atOpened (hgroup (by decide)
    (by decide) fun d => ?_) (.atStart ?_ (.atStart ?_ .unexpected)))
  · exact .andThen (hstep (by simp) d) fun t x hx => .pure (hx _)
  · exact .andThen (hstep (by simp) d) fun t x hx => .pure (hx _)
  · exact .andThen (hstep (by simp) d) fun t x hx => .pure fun _ => hx _
  · exact .andThen (hstep (by simp) d) fun t x hx => .pure fun _ => hx _

theorem check_stays (fault : Option Fault) : Stays (check fault) fun _ => True := by
  cases fault with
  | none => exact .pure trivial
  | some fault => exact .fail

/-- A state machine collects what is met in its element. -/
theorem stateMachine_spans : Spans (stateMachine Registry.standard.parseChild) Collects := by
  refine .expectStart fun start => .before .look fun n _ => loop_closes machineView [] rfl
    (part_spans (states_move (n + 1))) fun ts d h => .after (check_stays _) fun _ _ => .close ?_
  rintro t - rfl ht
  refine h.collects .stateMachine rfl ht (.of_eq ?_)
  have hawaited : Item.awaited d.machine.items = awaited d.machine.states := by
    simp [Machine.items, stateItems, transitionItems, awaited, List.filterMap_eq_flatMap_toList]
  rw [machineView, map_snd_free, hawaited]
  simp [Machine.items, stateItems, transitionItems, Activity.held, firing]

end OpenWorkflow.Reader.StateMachine
