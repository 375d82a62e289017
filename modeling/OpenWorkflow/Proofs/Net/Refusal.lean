import OpenWorkflow.Proofs.Net.Calls

/-!
# When a step is refused

A construction step is refused for the reasons its arguments and the net give,
for no others, and a refusal leaves the net exactly as it was. `RefusedWhen` puts
both into one law, and there is one such law for each step that can be refused.
They hold in any net whose names lead to live places, hence after any run
(`refusals_run`): a merge that has passed its checks always finds both places to
take out, so it never stops half way.
-/

namespace OpenWorkflow

namespace Build

variable {α : Type} {b : Build α} {net net' : Net} {cond : Prop}

/-- The step is refused in the net exactly under a condition, and a refusal
changes nothing. -/
structure RefusedWhen (b : Build α) (net : Net) (cond : Prop) : Prop where
  refused : (∃ e net', b net = .error e net') ↔ cond
  unchanged : ∀ {e net'}, b net = .error e net' → net' = net

theorem RefusedWhen.of_error {e : NetError} (hb : b net = .error e net) (hc : cond) :
    b.RefusedWhen net cond := by
  constructor
  · exact ⟨fun _ => hc, fun _ => ⟨e, net, hb⟩⟩
  · intro e' net' h
    rw [hb] at h
    cases h
    rfl

theorem RefusedWhen.of_ok {a : α} (hb : b net = .ok a net') (hc : ¬ cond) :
    b.RefusedWhen net cond := by
  have hne (e : NetError) (net'' : Net) : b net ≠ .error e net'' := by
    rw [hb]
    intro h
    cases h
  constructor
  · exact ⟨fun ⟨e, net'', h⟩ => absurd h (hne e net''), fun h => absurd h hc⟩
  · intro e net'' h
    exact absurd h (hne e net'')

end Build

/-- Kinds have a common kind unless one receives and the other sends. -/
theorem NodeKind.join?_eq_none_iff {k l : NodeKind} :
    k.join? l = none ↔ (k = .input ∧ l = .output) ∨ (k = .output ∧ l = .input) := by
  cases k <;> cases l <;> simp [NodeKind.join?]

/-- Is the end of the arc a place? -/
def Endpoint.isPlace : Endpoint → Bool
  | .place _ => true
  | .transition _ => false

/-- Does the end of the arc stand for a node of the net? -/
def Endpoint.Resolves (net : Net) : Endpoint → Prop
  | .place ref => ∃ id, net.resolve? ref = some id
  | .transition t => ∃ tr, net.transition? t = some tr

namespace Net

open Build (RefusedWhen)

variable {net : Net}

theorem not_resolves_iff {ref : PlaceRef} :
    ¬ (Endpoint.place ref).Resolves net ↔ net.resolve? ref = none := by
  show (¬ ∃ id, net.resolve? ref = some id) ↔ _
  cases net.resolve? ref <;> simp

/-! ## One law for each step -/

/-- When a place is refused. -/
theorem newPlace_refusedWhen (name : String) (kind : NodeKind) (net : Net) :
    (newPlace name kind).RefusedWhen net (name = "" ∨ ∃ id, net.resolve? name = some id) := by
  by_cases hname : name = ""
  · exact .of_error (if_pos hname) (.inl hname)
  · cases hf : net.find? name with
    | some id =>
      have hdup : net.names.contains name = true := congrArg Option.isSome hf
      exact .of_error ((if_neg hname).trans (if_pos hdup)) (.inr ⟨id, hf⟩)
    | none =>
      have hdup : ¬ net.names.contains name = true := by
        show ¬ (net.find? name).isSome = true
        rw [hf]
        exact Bool.noConfusion
      apply RefusedWhen.of_ok ((if_neg hname).trans (if_neg hdup))
      rintro (h | ⟨id, h⟩)
      · exact hname h
      · cases hf.symm.trans h

/-- When a transition is refused. -/
theorem newTransitionOf_refusedWhen (name : String) (kind : NodeKind) (net : Net) :
    (newTransitionOf name kind).RefusedWhen net (name = "") := by
  by_cases hname : name = ""
  · exact .of_error (if_pos hname) hname
  · obtain ⟨-, -, ho⟩ | ⟨t, -, ho⟩ | ⟨e, he⟩ := newTransitionOf_cases name kind net
    · exact .of_ok ho hname
    · exact .of_ok ho hname
    · unfold newTransitionOf at he
      rw [if_neg hname] at he
      split at he <;> cases he

/-- Finding an end of an arc is refused when it stands for nothing; otherwise it
gives a node of the sort of the end. -/
theorem locate_of_resolves {e : Endpoint} (h : e.Resolves net) :
    (∃ id, e.isPlace = true ∧ locate e net = .ok (.place id) net)
      ∨ ∃ t, e.isPlace = false ∧ locate e net = .ok (.transition t) net := by
  cases e with
  | place ref =>
    obtain ⟨id, hr⟩ := h
    refine .inl ⟨id, rfl, ?_⟩
    simp only [locate, locatePlace, bind, EStateM.bind, hr]
    rfl
  | transition t =>
    obtain ⟨tr, ht⟩ := h
    exact .inr ⟨t, rfl, if_pos (net.lt_of_transition? ht)⟩

theorem locate_of_not_resolves {e : Endpoint} (h : ¬ e.Resolves net) :
    ∃ err, locate e net = .error err net := by
  cases e with
  | place ref =>
    refine ⟨.missingPlace ref.describe, ?_⟩
    simp only [locate, locatePlace, bind, EStateM.bind, not_resolves_iff.1 h]
  | transition t =>
    refine ⟨.missingTransition t.index, if_neg ?_⟩
    intro hlt
    exact h ⟨_, List.getElem?_eq_getElem hlt⟩

/-- When an arc is refused. -/
theorem newArc_refusedWhen (source target : Endpoint) (net : Net) :
    (newArc source target).RefusedWhen net
      (¬ source.Resolves net ∨ ¬ target.Resolves net ∨ source.isPlace = target.isPlace) := by
  by_cases hs : source.Resolves net
  · by_cases ht : target.Resolves net
    · -- both ends are there: their sorts decide
      have hcond : source.isPlace ≠ target.isPlace →
          ¬ (¬ source.Resolves net ∨ ¬ target.Resolves net ∨ source.isPlace = target.isPlace) := by
        rintro hne (h | h | h)
        · exact h hs
        · exact h ht
        · exact hne h
      obtain ⟨p, hsp, hls⟩ | ⟨t, hst, hls⟩ := locate_of_resolves hs
      · obtain ⟨q, htp, hlt⟩ | ⟨t, htt, hlt⟩ := locate_of_resolves ht
        · apply RefusedWhen.of_error (e := .placeToPlace ((net.placeName? p).getD "")
            ((net.placeName? q).getD ""))
          · simp only [newArc, bind, EStateM.bind, hls, hlt]
          · exact .inr (.inr (hsp.trans htp.symm))
        · have hok : newArc source target net = .ok () (net.connect (.consumes p t)) := by
            simp only [newArc, bind, EStateM.bind, hls, hlt]
          apply RefusedWhen.of_ok hok
          apply hcond
          rw [hsp, htt]
          exact Bool.noConfusion
      · obtain ⟨q, htp, hlt⟩ | ⟨u, htt, hlt⟩ := locate_of_resolves ht
        · have hok : newArc source target net = .ok () (net.connect (.produces t q)) := by
            simp only [newArc, bind, EStateM.bind, hls, hlt]
          apply RefusedWhen.of_ok hok
          apply hcond
          rw [hst, htp]
          exact Bool.noConfusion
        · apply RefusedWhen.of_error (e := .transitionToTransition
            ((net.nodeName? (.transition t)).getD "") ((net.nodeName? (.transition u)).getD ""))
          · simp only [newArc, bind, EStateM.bind, hls, hlt]
          · exact .inr (.inr (hst.trans htt.symm))
    · obtain ⟨n, hls⟩ : ∃ n, locate source net = .ok n net := by
        obtain ⟨p, -, hls⟩ | ⟨t, -, hls⟩ := locate_of_resolves hs
        · exact ⟨_, hls⟩
        · exact ⟨_, hls⟩
      obtain ⟨e, hlt⟩ := locate_of_not_resolves ht
      apply RefusedWhen.of_error (e := e)
      · simp only [newArc, bind, EStateM.bind, hls, hlt]
      · exact .inr (.inl ht)
  · obtain ⟨e, hls⟩ := locate_of_not_resolves hs
    apply RefusedWhen.of_error (e := e)
    · simp only [newArc, bind, EStateM.bind, hls]
    · exact .inl hs

/-- Two different places one of which receives while the other sends. -/
def Opposed (net : Net) (a b : PlaceId) : Prop :=
  a ≠ b ∧ ∃ first second, net.place? a = some first ∧ net.place? b = some second
    ∧ ((first.kind = .input ∧ second.kind = .output)
      ∨ (first.kind = .output ∧ second.kind = .input))

theorem Mergeable.not_opposed {a b : PlaceId} {kind : NodeKind} {first second : Place}
    (h : net.Mergeable a b kind first second) : ¬ net.Opposed a b := by
  rintro ⟨-, first', second', hf, hs, hk⟩
  have hkind := h.kind
  rw [h.left] at hf
  rw [h.right] at hs
  cases hf
  cases hs
  rw [NodeKind.join?_eq_none_iff.2 hk] at hkind
  cases hkind

/-- When a merge is refused. -/
theorem merge_refusedWhen (hn : net.NamesAgree) (p q : PlaceRef) :
    (merge p q).RefusedWhen net
      (net.resolve? p = none ∨ net.resolve? q = none
        ∨ ∃ a b, net.resolve? p = some a ∧ net.resolve? q = some b ∧ net.Opposed a b) := by
  cases hp : net.resolve? p with
  | none =>
    apply RefusedWhen.of_error (e := .missingPlace p.describe)
    · simp only [merge, locatePlace, bind, EStateM.bind, hp]
    · exact .inl rfl
  | some a =>
    cases hq : net.resolve? q with
    | none =>
      apply RefusedWhen.of_error (e := .missingPlace q.describe)
      · simp only [merge, locatePlace, bind, EStateM.bind, hp, hq]
      · exact .inr (.inl rfl)
    | some b =>
      -- both are live, so only their kinds can stand in the way
      have hcond : ¬ net.Opposed a b → ¬ (some a = none ∨ some b = none
          ∨ ∃ a' b', some a = some a' ∧ some b = some b' ∧ net.Opposed a' b') := by
        rintro hno (h | h | ⟨a', b', ha, hb, h⟩)
        · cases h
        · cases h
        · cases ha
          cases hb
          exact hno h
      by_cases hab : a = b
      · subst hab
        exact .of_ok (merge_self hp hq) (hcond fun h => h.1 rfl)
      · obtain ⟨first, hfirst⟩ := live_of_resolve hn hp
        obtain ⟨second, hsecond⟩ := live_of_resolve hn hq
        cases hk : first.kind.join? second.kind with
        | some kind =>
          have hm : net.Mergeable a b kind first second := ⟨hab, hfirst, hsecond, hk⟩
          exact .of_ok (merge_ok hm hp hq) (hcond hm.not_opposed)
        | none =>
          apply RefusedWhen.of_error
            (e := .incompatibleMerge first.name first.kind second.name second.kind)
          · simp only [merge, locatePlace, mergedKind, bind, EStateM.bind, hp, hq, hab, if_false,
              hfirst, hsecond, hk]
          · exact .inr (.inr ⟨a, b, rfl, rfl, hab, first, second, hfirst, hsecond,
              NodeKind.join?_eq_none_iff.1 hk⟩)

/-- Looking up a list of references is refused when one of them leads nowhere. -/
theorem mapM_locatePlace_of_none {refs : List PlaceRef}
    (h : ∃ ref ∈ refs, net.resolve? ref = none) :
    ∃ e, refs.mapM locatePlace net = .error e net := by
  induction refs with
  | nil =>
    obtain ⟨ref, hmem, -⟩ := h
    cases hmem
  | cons ref refs ih =>
    rw [List.mapM_cons]
    cases hr : net.resolve? ref with
    | none =>
      refine ⟨.missingPlace ref.describe, Build.bind_error ?_⟩
      simp only [locatePlace, hr]
    | some id =>
      have hl : locatePlace ref net = .ok id net := by simp only [locatePlace, hr]
      obtain ⟨ref', hmem, hnone⟩ := h
      have hrest : ref' ∈ refs := by
        rcases List.mem_cons.1 hmem with rfl | hmem
        · cases hr.symm.trans hnone
        · exact hmem
      obtain ⟨e, he⟩ := ih ⟨ref', hrest, hnone⟩
      rw [Build.bind_ok hl]
      exact ⟨e, Build.bind_error he⟩

/-- When all lead somewhere, there is a place for each of them. -/
theorem mapM_locatePlace_of_some {refs : List PlaceRef}
    (h : ∀ ref ∈ refs, net.resolve? ref ≠ none) :
    ∃ ids, ids.length = refs.length ∧ refs.mapM locatePlace net = .ok ids net := by
  induction refs with
  | nil => exact ⟨[], rfl, rfl⟩
  | cons ref refs ih =>
    obtain ⟨id, hr⟩ := Option.ne_none_iff_exists'.1 (h ref (List.mem_cons_self ..))
    obtain ⟨ids, hlen, hm⟩ := ih fun ref' hmem => h ref' (List.mem_cons_of_mem _ hmem)
    have hl : locatePlace ref net = .ok id net := by simp only [locatePlace, hr]
    rw [List.mapM_cons, Build.bind_ok hl]
    exact ⟨id :: ids, congrArg (· + 1) hlen, Build.bind_ok hm⟩

/-- When a final set is refused. -/
theorem addFinalSet_refusedWhen (refs : List PlaceRef) (net : Net) :
    (addFinalSet refs).RefusedWhen net (refs = [] ∨ ∃ ref ∈ refs, net.resolve? ref = none) := by
  by_cases hnone : ∃ ref ∈ refs, net.resolve? ref = none
  · obtain ⟨e, he⟩ := mapM_locatePlace_of_none hnone
    exact .of_error (Build.bind_error he) (.inr hnone)
  · have hsome : ∀ ref ∈ refs, net.resolve? ref ≠ none :=
      fun ref hmem h => hnone ⟨ref, hmem, h⟩
    obtain ⟨ids, hlen, hm⟩ := mapM_locatePlace_of_some hsome
    cases ids with
    | nil =>
      have hnil : refs = [] := List.length_eq_zero_iff.1 hlen.symm
      exact .of_error (Build.bind_ok hm) (.inl hnil)
    | cons id ids =>
      have hset : (OrderedSet.ofList (id :: ids)).isEmpty = false := by
        have hmem : id ∈ OrderedSet.ofList (id :: ids) :=
          OrderedSet.mem_ofList.2 (List.mem_cons_self ..)
        exact List.isEmpty_eq_false_iff.2 (List.ne_nil_of_mem hmem)
      apply RefusedWhen.of_ok (a := ())
      · refine (Build.bind_ok hm).trans ?_
        simp only [hset]
        rfl
      · rintro (rfl | h)
        · cases hlen
        · exact hnone h

/-- When tokens are refused. -/
theorem setTokens_refusedWhen (ref : PlaceRef) (tokens : Nat) (net : Net) :
    (setTokens ref tokens).RefusedWhen net (net.resolve? ref = none) := by
  cases hr : net.resolve? ref with
  | none =>
    apply RefusedWhen.of_error (e := .missingPlace ref.describe)
    · simp only [setTokens, locatePlace, bind, EStateM.bind, hr]
    · rfl
  | some id => exact .of_ok (setTokens_ok hr tokens) (Option.some_ne_none id)

/-! ## After any run -/

/-- In every net that a run of calls can make, each step is refused exactly when
its arguments do not fit the net, and then the net is as it was. -/
theorem refusals_run (calls : List Call) :
    (∀ name kind, (newPlace name kind).RefusedWhen (run calls)
        (name = "" ∨ ∃ id, (run calls).resolve? name = some id))
      ∧ (∀ name kind, (newTransitionOf name kind).RefusedWhen (run calls) (name = ""))
      ∧ (∀ source target, (newArc source target).RefusedWhen (run calls)
        (¬ source.Resolves (run calls) ∨ ¬ target.Resolves (run calls)
          ∨ source.isPlace = target.isPlace))
      ∧ (∀ p q, (merge p q).RefusedWhen (run calls)
        ((run calls).resolve? p = none ∨ (run calls).resolve? q = none
          ∨ ∃ a b, (run calls).resolve? p = some a ∧ (run calls).resolve? q = some b
            ∧ (run calls).Opposed a b))
      ∧ (∀ refs, (addFinalSet refs).RefusedWhen (run calls)
        (refs = [] ∨ ∃ ref ∈ refs, (run calls).resolve? ref = none))
      ∧ ∀ ref tokens, (setTokens ref tokens).RefusedWhen (run calls)
        ((run calls).resolve? ref = none) := by
  have hn : (run calls).NamesAgree := (wellFormed_run calls).toNamesAgree
  refine ⟨?_, ?_, ?_, ?_, ?_, ?_⟩
  · exact fun name kind => newPlace_refusedWhen name kind _
  · exact fun name kind => newTransitionOf_refusedWhen name kind _
  · exact fun source target => newArc_refusedWhen source target _
  · exact fun p q => merge_refusedWhen hn p q
  · exact fun refs => addFinalSet_refusedWhen refs _
  · exact fun ref tokens => setTokens_refusedWhen ref tokens _

end Net

end OpenWorkflow
