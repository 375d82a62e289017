import OpenWorkflow.Proofs.Workflow.Consumption

/-!
# Reading comes to an end

A reader goes round until an end tag is at the front, which may never come, and
calls readers for what is nested. The bounds that are put on rounds and nesting are
never hit, whatever the tags are: they may end too early, or their names may not
agree.

`Parser.Settles` says what is left after a step, however it ends. A round of any
of the loops (`Reader.Loop`) fails or shortens the stream, so a loop is a finite
succession of rounds (`Parser.Iterates`), no more than there are tags; and what is
nested is read as if there were no bound on the depth.
-/

namespace OpenWorkflow

open OpenWorkflow.Markup (Token exists_descends)

variable {type : ActivityType}

/-- The stream is what is left of another one: a number of tags was consumed and counted. -/
structure TokenStream.IsRestOf (rest s : TokenStream) : Prop where
  suffix : rest.tokens <:+ s.tokens
  count : rest.consumed + rest.tokens.length = s.consumed + s.tokens.length

namespace TokenStream.IsRestOf

theorem refl (s : TokenStream) : s.IsRestOf s := ⟨List.suffix_rfl, rfl⟩

theorem tail {s : TokenStream} {t : Token} {ts : List Token} (hs : s.tokens = t :: ts) :
    IsRestOf ⟨ts, s.consumed + 1⟩ s :=
  ⟨hs ▸ List.suffix_cons t ts, by simp only [hs, List.length_cons]; omega⟩

theorem trans {s s' s'' : TokenStream} (h : s''.IsRestOf s') (h' : s'.IsRestOf s) :
    s''.IsRestOf s :=
  ⟨h.suffix.trans h'.suffix, h.count.trans h'.count⟩

theorem append (v w r : List Token) (c : Nat) :
    IsRestOf ⟨w ++ r, c + v.length⟩ ⟨v ++ w ++ r, c⟩ where
  suffix := by
    rw [List.append_assoc]
    exact List.suffix_append v (w ++ r)
  count := by
    simp only [List.length_append]
    omega

end TokenStream.IsRestOf

namespace Parser

variable {α σ : Type} {f c n : Nat} {r u : List Token} {p q : Parser α} {s : TokenStream}

/-- How a step that began at `s` ends: it has consumed a tag, or it has failed, and not because a
bound was hit. -/
inductive Settles (s : TokenStream) : EStateM.Result ReadError TokenStream α → Prop
  | ok {a : α} {rest : TokenStream} (hrest : rest.IsRestOf s)
      (hshorter : rest.tokens.length < s.tokens.length) : Settles s (.ok a rest)
  | error {e : ReadError} {rest : TokenStream} (hrest : rest.IsRestOf s)
      (hfault : e.fault ≠ .stalled) (hposition : e.position = rest.consumed) :
      Settles s (.error e rest)

/-- The rounds of a loop, without a bound: at the end tag it is over, a round that fails ends it,
and a round that succeeds has shortened the stream. -/
inductive Iterates (qname : String) (item : σ → Parser σ) :
    Nat → σ → TokenStream → EStateM.Result ReadError TokenStream σ → Prop
  | done {a : σ} {s : TokenStream} (hend : s.atEndOf qname = true) :
      Iterates qname item 0 a s (.ok a s)
  | refused {a : σ} {s s' : TokenStream} {e : ReadError} (hend : s.atEndOf qname = false)
      (hitem : item a s = .error e s') : Iterates qname item 0 a s (.error e s')
  | next {a b : σ} {s s' : TokenStream} {n : Nat} {result : EStateM.Result ReadError TokenStream σ}
      (hend : s.atEndOf qname = false) (hitem : item a s = .ok b s')
      (hshorter : s'.tokens.length < s.tokens.length) (hrest : Iterates qname item n b s' result) :
      Iterates qname item (n + 1) a s result

/-! ## Any stream is an element and what follows, or breaks off -/

theorem exists_front (ts : List Token) :
    ∃ f u r, ts = u ++ r ∧ (f ≠ 0 → r = []) ∧ Front f 0 (u.length + 1) u := by
  cases ts with
  | nil => exact ⟨1, [], [], rfl, fun _ => rfl, Nat.one_pos, fun _ => Nat.one_ne_zero, nofun⟩
  | cons t v =>
    cases ht : t.closing with
    | true =>
      refine ⟨1, t :: v, [], (List.append_nil _).symm, fun _ => rfl, Nat.lt_succ_self _, nofun, ?_⟩
      rintro _ _ ⟨⟩ hopening
      exact absurd (ht.symm.trans hopening) (by decide)
    | false =>
      rcases exists_descends 1 v with ⟨v, rest, rfl, hv⟩ | ⟨f, hf, hv⟩
      · refine ⟨0, t :: v, rest, rfl, fun h => absurd rfl h, Nat.lt_succ_self _, nofun, ?_⟩
        rintro _ _ ⟨⟩ -
        exact hv
      · refine ⟨f, t :: v, [], (List.append_nil _).symm, fun _ => rfl, Nat.lt_succ_self _, nofun,
          ?_⟩
        rintro _ _ ⟨⟩ -
        exact hv

/-- A step that reads one element settles on any stream. -/
theorem settles_of_local
    (h : ∀ f r m, m ≤ s.tokens.length → Local f r (Front f 0 (m + 1)) (At f 0 m) p q) :
    Settles s (p s) := by
  obtain ⟨ts, c⟩ := s
  obtain ⟨f, u, r, rfl, hr, hu⟩ := exists_front ts
  have hlength : u.length ≤ (u ++ r).length := by
    rw [List.length_append]
    omega
  rcases h f r u.length hlength hr u c c hu with
    ⟨a, v, w, rfl, hw, hp, -⟩ | ⟨fault, owner, v, w, rfl, he, hp, -⟩
  · rw [hp]
    refine .ok (.append v w r c) ?_
    have hshorter : w.length < (v ++ w).length := hw.1
    simpa only [List.length_append] using Nat.add_lt_add_right hshorter r.length
  · rw [hp]
    exact .error (.append v w r c) he.unbounded rfl

/-- Steps that do what one step does without the tags behind do the same. -/
theorem Local.eq {p' : Parser α} {A B : List Token → Prop} (h : Local f r A B p q)
    (h' : Local f r A B p' q) (hr : f ≠ 0 → r = []) (hu : A u) :
    p ⟨u ++ r, c⟩ = p' ⟨u ++ r, c⟩ := by
  rcases h hr u c c hu with ⟨a, v, w, -, -, hp, hq⟩ | ⟨fault, owner, v, w, -, -, hp, hq⟩ <;>
    rcases h' hr u c c hu with
      ⟨a', v', w', -, -, hp', hq'⟩ | ⟨fault', owner', v', w', -, -, hp', hq'⟩
  · obtain ⟨rfl, hs⟩ := EStateM.Result.ok.inj (hq.symm.trans hq')
    obtain ⟨rfl, hc⟩ := TokenStream.mk.inj hs
    rw [hp, hp', hc]
  · cases hq.symm.trans hq'
  · cases hq.symm.trans hq'
  · obtain ⟨he, hs⟩ := EStateM.Result.error.inj (hq.symm.trans hq')
    obtain ⟨rfl, hc⟩ := TokenStream.mk.inj hs
    rw [hp, hp', he, hc]

theorem eq_of_local {p' : Parser α}
    (h : ∀ f r m, m ≤ s.tokens.length → Local f r (Front f 0 (m + 1)) (At f 0 m) p q ∧
      Local f r (Front f 0 (m + 1)) (At f 0 m) p' q) : p s = p' s := by
  obtain ⟨ts, c⟩ := s
  obtain ⟨f, u, r, rfl, hr, hu⟩ := exists_front ts
  have hlength : u.length ≤ (u ++ r).length := by
    rw [List.length_append]
    omega
  obtain ⟨hp, hp'⟩ := h f r u.length hlength
  exact hp.eq hp' hr hu

/-! ## Loops -/

/-- Where every round settles, a bound above the number of tags is never hit. -/
theorem rounds_iterates {qname owner : String} {item : σ → Parser σ} {k : Nat} {a : σ}
    (hk : s.tokens.length < k)
    (hitem : ∀ a s', s'.tokens.length ≤ s.tokens.length → Settles s' (item a s')) :
    ∃ n ≤ s.tokens.length, Iterates qname item n a s (rounds qname owner item k a s) := by
  induction k generalizing a s with
  | zero => exact absurd hk (Nat.not_lt_zero _)
  | succ k ih =>
    simp only [rounds, Bind.bind, EStateM.bind, Parser.atEndOf]
    cases hend : s.atEndOf qname with
    | true => exact ⟨0, Nat.zero_le _, .done hend⟩
    | false =>
      have hround := hitem a s (Nat.le_refl _)
      simp only [Bool.false_eq_true, ite_false, EStateM.bind]
      cases hrun : item a s with
      | error e s' => exact ⟨0, Nat.zero_le _, .refused hend hrun⟩
      | ok b s' =>
        rw [hrun] at hround
        cases hround with
        | ok _ hshorter =>
          obtain ⟨n, hn, hrest⟩ := ih (s := s') (a := b) (by omega)
            fun a s'' hs'' => hitem a s'' (by omega)
          exact ⟨n + 1, by omega, .next hend hrun hshorter hrest⟩

theorem untilEnd_iterates {qname owner : String} {item : σ → Parser σ} (a : σ)
    (hitem : ∀ a s', s'.tokens.length ≤ s.tokens.length → Settles s' (item a s')) :
    ∃ n ≤ s.tokens.length, Iterates qname item n a s (untilEnd qname owner item a s) :=
  rounds_iterates (Nat.lt_succ_self _) hitem

end Parser

namespace Reader

open OpenWorkflow.Markup (activityName languageName)
open OpenWorkflow.Parser (Local At Front)

/-- The loops of the readers, by what they read. -/
inductive Loop where
  | reference (owner : String)
  | sequence
  | conditional
  | switch
  | loop (test : LoopTest)
  | parallel
  | pick
  | pickBranch
  | flowchart
  | startNode
  | step
  | decision
  | flowSwitch
  | stateMachine
  | initialState
  | states
  | state
  | transitions
  | transition

namespace Loop

/-- The element at whose end tag the loop is over. -/
def tag : Loop → String
  | reference _ => languageName "Reference"
  | sequence => activityName "Sequence"
  | conditional => activityName "If"
  | switch => activityName "Switch"
  | loop test => activityName test.name
  | parallel => activityName "Parallel"
  | pick => activityName "Pick"
  | pickBranch => activityName "PickBranch"
  | flowchart => activityName "Flowchart"
  | startNode => activityName "Flowchart.StartNode"
  | step => activityName "FlowStep"
  | decision => activityName "FlowDecision"
  | flowSwitch => activityName "FlowSwitch"
  | stateMachine => activityName "StateMachine"
  | initialState => activityName "StateMachine.InitialState"
  | states => activityName "StateMachine.States"
  | state => activityName "State"
  | transitions => activityName "State.Transitions"
  | transition => activityName "Transition"

/-- The activity that the loop reports faults for. -/
def owner : Loop → String
  | reference owner => owner
  | sequence => "Sequence"
  | conditional => "If"
  | switch => "Switch"
  | loop test => test.name
  | parallel => "Parallel"
  | pick | pickBranch => "Pick"
  | flowchart | startNode | step | decision | flowSwitch => Flowchart.owner
  | stateMachine | initialState | states | state | transitions | transition => StateMachine.owner

/-- What a loop has read so far. -/
def Draft : Loop → Type
  | reference _ => Unit
  | sequence | parallel => List Activity
  | conditional => Option Activity × Option Activity
  | switch => List Activity × Option Activity
  | loop _ => Option Activity
  | pick => List (PickBranch Activity)
  | pickBranch => PickBranch Activity
  | flowchart | startNode => Flowchart.Draft
  | step => Flowchart.StepDraft
  | decision => Flowchart.DecisionDraft
  | flowSwitch => Flowchart.SwitchDraft
  | stateMachine | initialState | states => StateMachine.Draft
  | state | transitions => StateMachine.StateDraft
  | transition => StateMachine.TransitionDraft

/-- One round of a loop, in which nodes or states lie at most `k` deep. -/
def item (child : ChildReader) (k : Nat) : (l : Loop) → l.Draft → Parser l.Draft
  | reference owner => fun _ => do let _ ← Parser.skipElement owner
  | sequence => fun (children : List Activity) => do return children ++ [← child "Sequence"]
  | conditional => conditionalPart child
  | switch => switchPart child
  | loop test => loopPart child test.name
  | parallel => parallelPart child
  | pick => pickPart child
  | pickBranch => pickBranchPart child
  | flowchart => Flowchart.part (Flowchart.node child k)
  | startNode => Flowchart.startNode (Flowchart.node child k)
  | step => Flowchart.stepPart child (Flowchart.node child k)
  | decision => Flowchart.decisionPart (Flowchart.node child k)
  | flowSwitch => Flowchart.switchPart (Flowchart.node child k)
  | stateMachine => StateMachine.part (StateMachine.state child k)
  | initialState => StateMachine.initialState (StateMachine.state child k)
  | states => StateMachine.listedState (StateMachine.state child k)
  | state => StateMachine.statePart child (StateMachine.state child k)
  | transitions => StateMachine.stateTransition child (StateMachine.state child k)
  | transition => StateMachine.transitionPart child (StateMachine.state child k)

/-- One round reads one element, whatever the bounds are. -/
theorem item_below {C : Comparison} {i : C.Level} {child child' : ChildReader} {k k' : Nat}
    (h : C.Below i child child') (hmeets : C.MeetsNodes i child child') (hfits : C.Fits i k k')
    (l : Loop) : C.Below i (l.item child k) (l.item child' k') := by
  have hnode := h.nodes hmeets hfits
  have hstate := h.states hfits
  cases l with
  | reference owner => exact fun _ _ _ => C.skipElement
  | sequence => exact fun j hj _ => C.bind (h j hj _) fun _ => C.pure
  | conditional => exact h.conditionalPart
  | switch => exact h.switchPart
  | loop test => exact h.loopPart test
  | parallel => exact h.parallelPart
  | pick => exact h.pickPart
  | pickBranch => exact h.pickBranchPart
  | flowchart => exact hnode.flowchartPart
  | startNode => exact hnode.startNode
  | step => exact hnode.stepPart h
  | decision => exact hnode.decisionPart
  | flowSwitch => exact hnode.flowSwitchPart
  | stateMachine => exact hstate.machinePart
  | initialState => exact hstate.initialState
  | states => exact hstate.listedState
  | state => exact hstate.statePart h
  | transitions => exact hstate.stateTransition h
  | transition => exact hstate.transitionPart h

end Loop

end Reader

namespace Registry

open OpenWorkflow.Parser (Local At Front Settles Iterates settles_of_local eq_of_local)
open OpenWorkflow.Reader (Alike Loop)

section

variable {reg : Registry} (hreg : ∀ qname, reg.resolve? qname ≠ some .empty) {f n k : Nat}
  {r : List Token} {s : TokenStream}
include hreg

/-- The reader that takes its bound from the tags that remain reads like one with a larger bound. -/
theorem parseChild_local (hk : n ≤ k) : Alike f r n reg.parseChild (reg.child k) := by
  intro i (hm : i.2 < n) owner hr u c c' hu
  have hlength : u.length + 1 ≤ (u ++ r).length + 1 := by
    rw [List.length_append]
    omega
  have hu' := hu.length
  have halike : Alike f r (u.length + 1) (reg.child ((u ++ r).length + 1)) (reg.child k) :=
    child_local hreg hlength (by omega)
  refine ((halike (i.1, u.length) (Nat.lt_succ_self _) owner).post fun w hw => hw.mono ?_) hr u c c'
    { hu with length := Nat.lt_succ_self _ }
  omega

theorem parseChild_settles (owner : String) : Settles s (reg.parseChild owner s) :=
  settles_of_local fun _ _ m hm =>
    parseChild_local hreg (n := m + 1) (k := s.tokens.length + 1) (by omega) (0, m)
      (Nat.lt_succ_self m) owner

/-- The depth to which activities are nested is less than the number of tags. -/
theorem child_eq_parseChild (owner : String) (hk : s.tokens.length < k) :
    reg.child k owner s = reg.parseChild owner s := by
  refine eq_of_local (q := reg.child k owner) fun f r m hm => ?_
  have hchild : Alike f r (m + 1) (reg.child k) (reg.child k) :=
    child_local hreg (by omega) (by omega)
  have hparse : Alike f r (m + 1) reg.parseChild (reg.child k) :=
    parseChild_local hreg (by omega)
  exact ⟨hchild (0, m) (Nat.lt_succ_self m) owner, hparse (0, m) (Nat.lt_succ_self m) owner⟩

/-- A type of activity is read alike with a bound on the depth of what is nested and without. -/
theorem read_eq_parse (htype : type ≠ .empty) (hk : s.tokens.length ≤ k) :
    type.read (reg.child k) s = reg.parse type s ∧
      type.read reg.parseChild s = reg.parse type s := by
  have hbounded (k : Nat) (hk : s.tokens.length ≤ k) (f : Nat) (r : List Token) (m : Nat)
      (hm : m ≤ s.tokens.length) : Local f r (Front f 0 (m + 1)) (At f 0 m)
        (type.read (reg.child k)) (type.read (reg.child s.tokens.length)) :=
    type.read_local (child_local hreg (by omega) (by omega)) htype
  have hparse : reg.parse type s = type.read (reg.child (s.tokens.length + 1)) s := rfl
  rw [hparse]
  refine ⟨eq_of_local fun f r m hm => ⟨hbounded k hk f r m hm, hbounded _ (by omega) f r m hm⟩,
    eq_of_local fun f r m hm => ⟨?_, hbounded _ (by omega) f r m hm⟩⟩
  exact type.read_local (parseChild_local hreg (by omega)) htype

/-- The activity at the front is read without a bound on the depth. -/
theorem parseChild_eq_read {t : Token} (ht : t.closing = false)
    (hresolve : reg.resolve? t.qname = some type) (owner : String) (ts : List Token) (c : Nat) :
    reg.parseChild owner ⟨t :: ts, c⟩ = type.read reg.parseChild ⟨t :: ts, c⟩ := by
  have htype : type ≠ .empty := fun hempty => hreg t.qname (hempty ▸ hresolve)
  have hbound : reg.parseChild owner ⟨t :: ts, c⟩
      = type.read (reg.child (ts.length + 1)) ⟨t :: ts, c⟩ := by
    have hchild : reg.parseChild owner ⟨t :: ts, c⟩
        = reg.child (ts.length + 1 + 1) owner ⟨t :: ts, c⟩ := rfl
    rw [hchild]
    simp only [child, Parser.peekStart, Bind.bind, EStateM.bind, ht, Bool.false_eq_true, ite_false,
      hresolve]
  obtain ⟨hread, hparse⟩ := read_eq_parse hreg htype (s := ⟨t :: ts, c⟩) (Nat.le_refl _)
  exact hbound.trans (hread.trans hparse.symm)

theorem parse_settles (htype : type ≠ .empty) : Settles s (reg.parse type s) :=
  settles_of_local (p := type.read (reg.child (s.tokens.length + 1))) fun _ _ _ _ =>
    type.read_local (child_local hreg (by omega) (by omega)) htype

/-- A round of a loop settles, and so the loop is a finite number of rounds. -/
theorem loop_iterates {n : Nat} (hn : s.tokens.length < n) (hk : s.tokens.length < k) (l : Loop)
    (a : l.Draft) :
    Settles s (l.item (reg.child n) k a s) ∧
      ∃ i ≤ s.tokens.length, Iterates l.tag (l.item (reg.child n) k) i a s
        (Parser.untilEnd l.tag l.owner (l.item (reg.child n) k) a s) := by
  have hround (a : l.Draft) (s' : TokenStream) (hs' : s'.tokens.length ≤ s.tokens.length) :
      Settles s' (l.item (reg.child n) k a s') := by
    refine settles_of_local (q := l.item (reg.child n) k a) fun f r m hm => ?_
    have hchild : Alike f r (m + 1) (reg.child n) (reg.child n) :=
      child_local hreg (by omega) (by omega)
    have hfits : m + 1 ≤ k ∧ m + 1 ≤ k := by omega
    exact l.item_below hchild (fun _ _ _ _ _ _ _ _ => trivial) hfits (0, m) (Nat.lt_succ_self m) a
  exact ⟨hround a s (Nat.le_refl _), Parser.untilEnd_iterates a hround⟩

end

end Registry

/-! ## Documents -/

open OpenWorkflow.Parser (Settles Iterates)
open OpenWorkflow.Reader (Loop)

/-- How the reading of a document can end. -/
inductive DocumentOutcome (reg : Registry) (s : TokenStream) :
    EStateM.Result ReadError TokenStream Activity → Prop
  /-- There are no tags. -/
  | missing (hs : s.tokens = []) :
      DocumentOutcome reg s (.error ⟨.endOfInput, "Root", s.consumed⟩ s)
  /-- The first tag does not open a document. -/
  | refused {fault : Fault} (hfault : fault.isRefusal = true) :
      DocumentOutcome reg s (.error ⟨fault, "Root", s.consumed⟩ s)
  /-- The activity cannot be read. -/
  | inside {t : Token} {ts : List Token} {e : ReadError} {s' : TokenStream}
      (hs : s.tokens = t :: ts)
      (hchild : reg.parseChild "Root" ⟨ts, s.consumed + 1⟩ = .error e s') :
      DocumentOutcome reg s (.error e s')
  /-- The activity is not followed by the end of the document and nothing else. -/
  | behind {t : Token} {ts : List Token} {a : Activity} {s' rest : TokenStream} {fault : Fault}
      (hs : s.tokens = t :: ts) (hchild : reg.parseChild "Root" ⟨ts, s.consumed + 1⟩ = .ok a s')
      (hrest : rest.IsRestOf s') (hfault : fault.isRefusal = true) :
      DocumentOutcome reg s (.error ⟨fault, "Root", rest.consumed⟩ rest)
  /-- The document is read. -/
  | read {t t' : Token} {ts : List Token} {a : Activity} {n : Nat} (hs : s.tokens = t :: ts)
      (hopening : t.closing = false) (hroot : t.qname ∈ rootNames)
      (hchild : reg.parseChild "Root" ⟨ts, s.consumed + 1⟩ = .ok a ⟨[t'], n⟩)
      (hclosing : t'.closes t.qname = true) : DocumentOutcome reg s (.ok a ⟨[], n + 1⟩)

theorem document_outcome (reg : Registry) (s : TokenStream) :
    DocumentOutcome reg s (document reg s) := by
  obtain ⟨ts, c⟩ := s
  cases ts with
  | nil => exact .missing rfl
  | cons t ts =>
    simp only [document, Parser.peekStart, Bind.bind, EStateM.bind]
    cases ht : t.closing with
    | true => exact .refused rfl
    | false =>
      simp only [Bool.false_eq_true, ite_false]
      by_cases hroot : t.qname ∈ rootNames
      · simp only [hroot, ite_true, EStateM.bind, Parser.nextToken]
        cases hchild : reg.parseChild "Root" ⟨ts, c + 1⟩ with
        | error e s' => exact .inside rfl hchild
        | ok a s' =>
          obtain ⟨rest, n⟩ := s'
          -- the end tag of the document, and nothing behind it
          cases rest with
          | nil => exact .behind rfl hchild (.refl _) rfl
          | cons t' rest =>
            simp only [Parser.expectEnd, Parser.nextToken]
            cases hclosing : t'.closes t.qname with
            | false => exact .behind rfl hchild (.refl _) rfl
            | true =>
              cases rest with
              | nil => exact .read rfl ht hroot hchild hclosing
              | cons t'' rest =>
                exact .behind rfl hchild (.tail (s := ⟨t' :: t'' :: rest, n⟩) rfl) rfl
      · simp only [hroot, ite_false]
        exact .refused rfl

theorem document_settles {reg : Registry} (hreg : ∀ qname, reg.resolve? qname ≠ some .empty)
    (s : TokenStream) : Settles s (document reg s) := by
  have hchild (ts : List Token) :=
    Registry.parseChild_settles hreg "Root" (s := ⟨ts, s.consumed + 1⟩)
  have houtcome := document_outcome reg s
  generalize document reg s = result at houtcome
  cases houtcome with
  | missing => exact .error (.refl s) nofun rfl
  | refused hfault =>
    exact .error (.refl s) (Parser.Proper.of_isRefusal (f := 0) hfault).unbounded rfl
  | @inside t ts e s' hs hrun =>
    have hinner := hchild ts
    rw [hrun] at hinner
    cases hinner with
    | error hrest hfault hposition => exact .error (hrest.trans (.tail hs)) hfault hposition
  | @behind t ts a s' rest fault hs hrun hrest hfault =>
    have hinner := hchild ts
    rw [hrun] at hinner
    cases hinner with
    | ok hinner _ =>
      exact .error (hrest.trans (hinner.trans (.tail hs)))
        (Parser.Proper.of_isRefusal (f := 0) hfault).unbounded rfl
  | @read t t' ts a n hs _ _ hrun =>
    have hinner := hchild ts
    rw [hrun] at hinner
    cases hinner with
    | ok hinner _ =>
      have hend : TokenStream.IsRestOf ⟨[], n + 1⟩ ⟨[t'], n⟩ := .tail (s := ⟨[t'], n⟩) rfl
      exact .ok (hend.trans (hinner.trans (.tail hs))) (hs ▸ Nat.succ_pos _)

theorem parseDocument_error {reg : Registry} (hreg : ∀ qname, reg.resolve? qname ≠ some .empty)
    {ts : List Token} {e : ReadError} (h : parseDocument reg ts = .error e) :
    e.fault ≠ .stalled ∧ e.position ≤ ts.length := by
  have hdocument := document_settles hreg (TokenStream.ofList ts)
  simp only [parseDocument] at h
  split at h
  · cases h
  · next e' rest hrun =>
    cases h
    rw [hrun] at hdocument
    cases hdocument with
    | error hrest hfault hposition =>
      have hcount : rest.consumed + rest.tokens.length = 0 + ts.length := hrest.count
      exact ⟨hfault, by omega⟩

namespace Registry

theorem ne_empty_of_mem_standardTypes (h : type ∈ standardTypes) : type ≠ .empty := by
  rintro rfl
  revert h
  decide

/-- **Reading terminates.** From any stream at all the standard activities, the reader of nested
activities and the reader of documents end after having consumed some of the tags, with a value
or with an error that comes from no bound; what is consumed and what remains are together as many
tags as there were. What is nested is read as if there were no bound on the depth, and with any
bound above the number of tags. Every round of every loop fails or shortens the stream, so that a
loop has no more rounds than there are tags. -/
theorem reading_terminates (s : TokenStream) :
    (∀ type ∈ standardTypes, Settles s (standard.parse type s) ∧
      type.read standard.parseChild s = standard.parse type s ∧
      ∀ k ≥ s.tokens.length, type.read (standard.child k) s = standard.parse type s) ∧
    (∀ owner, Settles s (standard.parseChild owner s) ∧
      ∀ k > s.tokens.length, standard.child k owner s = standard.parseChild owner s) ∧
    Settles s (document standard s) ∧
    (∀ e, parseDocument standard s.tokens = .error e →
      e.fault ≠ .stalled ∧ e.position ≤ s.tokens.length) ∧
    ∀ n > s.tokens.length, ∀ k > s.tokens.length, ∀ (l : Loop) (a : l.Draft),
      Settles s (l.item (standard.child n) k a s) ∧
      ∃ i ≤ s.tokens.length, Iterates l.tag (l.item (standard.child n) k) i a s
        (Parser.untilEnd l.tag l.owner (l.item (standard.child n) k) a s) := by
  have hreg := resolve?_standard_ne_empty
  refine ⟨fun type htype => ?_, fun owner => ?_, document_settles hreg s,
    fun _ => parseDocument_error hreg, fun n hn k hk l a => ?_⟩
  · have hempty := ne_empty_of_mem_standardTypes htype
    exact ⟨parse_settles hreg hempty, (read_eq_parse hreg hempty (Nat.le_refl _)).2,
      fun k hk => (read_eq_parse hreg hempty hk).1⟩
  · exact ⟨parseChild_settles hreg owner, fun k hk => child_eq_parseChild hreg owner hk⟩
  · exact loop_iterates hreg hn hk l a

/-- A sequence that breaks off inside a loop. -/
theorem reading_terminates_truncated :
    let s : TokenStream := ⟨[.opening Markup.Namespace.activities "Sequence",
      .opening Markup.Namespace.activities "While"], 0⟩
    ActivityType.sequence ∈ standardTypes ∧ Settles s (standard.parse .sequence s) ∧
      standard.parse .sequence s = .error ⟨.endOfInput, "While", 2⟩ ⟨[], 2⟩ := by
  intro s
  have hmem : ActivityType.sequence ∈ standardTypes := by simp [standardTypes]
  refine ⟨hmem, ((reading_terminates s).1 .sequence hmem).1, ?_⟩
  set_option maxRecDepth 100000 in rfl

end Registry

end OpenWorkflow
