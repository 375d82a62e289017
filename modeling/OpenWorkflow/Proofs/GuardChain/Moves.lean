import Mathlib.Data.List.Induction
import OpenWorkflow.Proofs.Drawing.Shape

/-!
# The moves of a guard chain

Every transition of a guard chain takes its token from one place and puts it on
one (`Hops`): the chain is entered where the trigger has fired, and a candidate is
tried from the place behind the last guard before it (`entry`). The arcs of the
chain are those of these moves (`arc_mem_guardLines`), and a transition has one
move (`Hops.unique`).
-/

namespace OpenWorkflow

open Fragment.StateMachine (Candidate GuardChain)
open Activity (candidateLines guardLines)

variable {d : Deed} {k : Nat} {x y : String}

/-! ## Labels with numbers -/

/-- A label without digits and the number behind it can be told apart. -/
theorem label_inj {m n : Nat} (hx : x.toList.all fun c => !c.isDigit)
    (hy : y.toList.all fun c => !c.isDigit) :
    x ++ toString m = y ++ toString n ↔ x = y ∧ m = n := by
  have hcut {z : String} (k : Nat) (hz : z.toList.all fun c => !c.isDigit) :
      (z ++ toString k).toList.takeWhile (fun c => !c.isDigit) = z.toList := by
    rw [String.toList_append, List.takeWhile_append_of_pos (by simpa using hz)]
    cases hk : (toString k).toList with
    | nil => simp
    | cons c cs =>
      have hc : c.isDigit = true :=
        Text.isDigit_of_mem_toString (n := k) (by rw [hk]; exact List.mem_cons_self ..)
      simp [hc]
  constructor
  · intro h
    have hxy : x = y := by
      rw [← String.toList_inj, ← hcut m hx, h, hcut n hy]
    subst hxy
    exact ⟨rfl, Text.append_toString_inj.1 h⟩
  · rintro ⟨rfl, rfl⟩
    rfl

namespace Fragment.StateMachine.GuardChain

variable {c : GuardChain} {fired on : String} {bs : List Candidate}

theorem name_inj : c.name x = c.name y ↔ x = y := by
  unfold name
  exact String.append_right_inj _

/-- The name of the node with the label for the candidate of the number. -/
def node (c : GuardChain) (label : String) (k : Nat) : String := c.name (label ++ toString k)

/-- Label and position can be told from the name of a node. -/
theorem node_inj {m n : Nat} (hx : x.toList.all fun c => !c.isDigit)
    (hy : y.toList.all fun c => !c.isDigit) : c.node x m = c.node y n ↔ x = y ∧ m = n := by
  unfold node
  rw [name_inj, label_inj hx hy]

/-! ## Moves along the chain -/

/-- How many candidates there are up to the last one with a guard. -/
def passed (pre : List Candidate) : Nat := (pre.reverse.dropWhile fun b => !b.guarded).length

theorem passed_concat (pre : List Candidate) (b : Candidate) :
    passed (pre ++ [b]) = if b.guarded then pre.length + 1 else passed pre := by
  unfold passed
  rw [List.reverse_append, List.reverse_singleton, List.singleton_append, List.dropWhile_cons]
  cases b.guarded <;> simp

/-- Behind the last guard no candidate has one. -/
theorem lt_passed {pre : List Candidate} {i : Nat} {b : Candidate} (h : pre[i]? = some b)
    (hb : b.guarded = true) : i < passed pre := by
  induction pre using List.reverseRecOn with
  | nil => simp at h
  | append_singleton pre d ih =>
    rw [passed_concat]
    have hi := (List.getElem?_eq_some_iff.1 h).1
    rw [List.length_append, List.length_singleton] at hi
    cases hd : d.guarded with
    | true => exact hi
    | false =>
      rcases Nat.lt_succ_iff_lt_or_eq.1 hi with hlt | rfl
      · rw [List.getElem?_append_left hlt] at h
        exact ih h
      · rw [List.getElem?_concat_length] at h
        rw [← Option.some.inj h, hd] at hb
        cases hb

/-- The place from which the candidate behind others is tried. -/
def entry (c : GuardChain) (pre : List Candidate) : String :=
  c.node "runcondition" (passed pre + 1)

/-- A guarded candidate moves the entry on, an unguarded one leaves it. -/
theorem entry_concat (pre : List Candidate) (b : Candidate) : c.entry (pre ++ [b])
    = if b.guarded then c.node "runcondition" (pre.length + 2) else c.entry pre := by
  unfold entry
  rw [passed_concat]
  split <;> rfl

/-- What a transition of a candidate does: it evaluates the guard, starts the action or finds that
the guard has failed. -/
inductive Deed where
  | eval
  | start
  | wrong
  deriving DecidableEq

/-- The label of the transition. -/
def Deed.label : Deed → String
  | eval => "eval"
  | start => "start"
  | wrong => "wrong"

theorem Deed.label_not_isDigit (d : Deed) : d.label.toList.all fun c => !c.isDigit := by
  cases d <;> decide

/-- Deeds have different labels. -/
theorem Deed.label_inj {d' : Deed} : d.label = d'.label ↔ d = d' := by
  cases d <;> cases d' <;> simp [label]

theorem node_label_inj {d' : Deed} {m n : Nat} :
    c.node d.label m = c.node d'.label n ↔ d = d' ∧ m = n := by
  rw [node_inj d.label_not_isDigit d'.label_not_isDigit, Deed.label_inj]

/-- The moves of one candidate, with those before and behind it. -/
@[mk_iff]
inductive Tries (c : GuardChain) (pre : List Candidate) (b : Candidate) (post : List Candidate) :
    Deed → String → String → Prop where
  | eval : b.guarded = true →
    Tries c pre b post .eval (c.entry pre) (c.node "condition" (pre.length + 1))
  | accept : b.guarded = true →
    Tries c pre b post .start (c.node "condition" (pre.length + 1)) (c.action b)
  | reject : b.guarded = true → post ≠ [] →
    Tries c pre b post .wrong (c.node "condition" (pre.length + 1))
      (c.node "runcondition" (pre.length + 2))
  | back : b.guarded = true → post = [] →
    Tries c pre b post .wrong (c.node "condition" (pre.length + 1)) c.waiting
  | free : b.guarded = false → Tries c pre b post .start (c.entry pre) (c.action b)

/-- The moves of a chain: the transition, where it takes its token and where it puts it. -/
inductive Hops (c : GuardChain) (fired on : String) (bs : List Candidate) :
    String → String → String → Prop where
  | enter : Hops c fired on bs on fired (c.node "runcondition" 1)
  | tries {pre post : List Candidate} {b : Candidate} {d : Deed} {n n' : String} :
    bs = pre ++ b :: post → c.Tries pre b post d n n' →
      Hops c fired on bs (c.node d.label (pre.length + 1)) n n'

/-- The transitions of the candidates from the `k`-th on. -/
def candidateTransitions (c : GuardChain) : Nat → List Candidate → List String
  | _, [] => []
  | k, b :: bs =>
    c.node "start" k :: (if b.guarded then [c.node "eval" k, c.node "wrong" k] else [])
      ++ candidateTransitions c (k + 1) bs

/-- The transitions of the chain. -/
def transitions (c : GuardChain) (on : String) (bs : List Candidate) : List String :=
  on :: c.candidateTransitions 1 bs

/-- The places of the candidates from the `k`-th on. -/
def candidatePlaces (c : GuardChain) : Nat → List Candidate → List String
  | _, [] => []
  | k, b :: bs =>
    (if b.guarded then
      c.node "condition" k :: if bs.isEmpty then [] else [c.node "runcondition" (k + 1)]
    else []) ++ candidatePlaces c (k + 1) bs

/-- The places of the chain. -/
def places (c : GuardChain) (bs : List Candidate) : List String :=
  c.node "runcondition" 1 :: c.candidatePlaces 1 bs

end Fragment.StateMachine.GuardChain

/-- The end of a move at which the arc is. -/
def ArcKind.pick : ArcKind → String → String → String
  | consumes, n, _ => n
  | produces, _, n' => n'

namespace Fragment.StateMachine.GuardChain

variable {c : GuardChain} {fired on : String} {bs : List Candidate} {flow : ArcKind}
  {n n' m m' t : String}

/-- The arcs of a chain are those of its first candidate and those of the rest. -/
theorem arc_mem_cons (pre : List Candidate) (b : Candidate) (post : List Candidate) :
    .arc flow n t ∈ candidateLines c (pre.length + 1) (c.entry pre) (b :: post) ↔
      (∃ d m m', c.Tries pre b post d m m' ∧ c.node d.label (pre.length + 1) = t
        ∧ flow.pick m m' = n) ∨
        .arc flow n t ∈ candidateLines c ((pre ++ [b]).length + 1) (c.entry (pre ++ [b])) post := by
  rw [entry_concat, List.length_append, List.length_singleton]
  cases flow <;> cases hb : b.guarded <;> cases post <;>
    simp [candidateLines, tries_iff, hb, ArcKind.pick, node, Deed.label] <;> grind

/-- The arcs of candidates are those of their moves. -/
theorem arc_mem_candidateLines (pre suf : List Candidate) :
    .arc flow n t ∈ candidateLines c (pre.length + 1) (c.entry pre) suf ↔
      ∃ mid b post d m m', suf = mid ++ b :: post ∧ c.Tries (pre ++ mid) b post d m m' ∧
        c.node d.label ((pre ++ mid).length + 1) = t ∧ flow.pick m m' = n := by
  induction suf generalizing pre with
  | nil => simp [candidateLines]
  | cons b suf ih =>
    rw [arc_mem_cons, ih]
    constructor
    · rintro (⟨d, m, m', htries, hmove⟩ | ⟨mid, b', post, d, m, m', rfl, htries, hmove⟩)
      · exact ⟨[], b, suf, d, m, m', rfl, by simpa using htries, by simpa using hmove⟩
      · rw [List.append_assoc] at htries hmove
        exact ⟨b :: mid, b', post, d, m, m', rfl, htries, hmove⟩
    · rintro ⟨mid, b', post, d, m, m', heq, htries, hmove⟩
      cases mid with
      | nil =>
        obtain ⟨rfl, rfl⟩ := List.cons.inj heq
        rw [List.append_nil] at htries hmove
        exact .inl ⟨d, m, m', htries, hmove⟩
      | cons b'' mid =>
        obtain ⟨rfl, rfl⟩ := List.cons.inj heq
        rw [← List.singleton_append, ← List.append_assoc] at htries hmove
        exact .inr ⟨mid, b', post, d, m, m', rfl, htries, hmove⟩

/-- The arcs of the chain are those of its moves. -/
theorem arc_mem_guardLines :
    .arc flow n t ∈ guardLines c fired on bs ↔
      ∃ m m', c.Hops fired on bs t m m' ∧ flow.pick m m' = n := by
  have hcandidates : .arc flow n t ∈ candidateLines c 1 (c.entry []) bs ↔ _ :=
    arc_mem_candidateLines [] bs
  have hstart : c.name "runcondition1" = c.entry [] := rfl
  unfold guardLines
  rw [List.mem_append, hstart, hcandidates]
  constructor
  · rintro (hmem | ⟨mid, b, post, d, m, m', rfl, htries, rfl, rfl⟩)
    · refine ⟨fired, c.node "runcondition" 1, ?_⟩
      simp only [List.mem_cons, reduceCtorEq, Line.arc.injEq, List.not_mem_nil, or_false,
        false_or] at hmem
      rcases hmem with ⟨rfl, rfl, rfl⟩ | ⟨rfl, rfl, rfl⟩
      · exact ⟨.enter, rfl⟩
      · exact ⟨.enter, rfl⟩
    · exact ⟨m, m', .tries rfl htries, rfl⟩
  · rintro ⟨m, m', hhops, rfl⟩
    cases hhops with
    | enter => cases flow <;> simp [ArcKind.pick, entry, passed]
    | @tries pre post b d m m' heq htries =>
      exact .inr ⟨pre, b, post, d, m, m', heq, htries, rfl, rfl⟩

/-- The transitions of the candidates are those that take a token. -/
theorem mem_candidateTransitions (last : String) :
    t ∈ c.candidateTransitions k bs ↔ HasArc (candidateLines c k last bs) .consumes t := by
  induction bs generalizing k last with
  | nil => simp [candidateTransitions, candidateLines, HasArc]
  | cons b bs ih =>
    unfold candidateTransitions candidateLines
    cases b.guarded <;> cases bs.isEmpty <;> simp [← ih, node, or_assoc, or_comm, or_left_comm]

theorem mem_candidateTransitions_of_tries {pre post : List Candidate} {b : Candidate}
    (hsplit : bs = pre ++ b :: post) (htries : c.Tries pre b post d n n') :
    c.node d.label (pre.length + 1) ∈ c.candidateTransitions 1 bs := by
  have harc : HasArc (candidateLines c 1 (c.entry []) bs) .consumes
      (c.node d.label (pre.length + 1)) :=
    ⟨n, (arc_mem_candidateLines [] bs).2 ⟨pre, b, post, d, n, n', hsplit, htries, rfl, rfl⟩⟩
  exact (mem_candidateTransitions _).2 harc

/-- Every transition of the chain has a move, and no other has one. -/
theorem mem_transitions : t ∈ c.transitions on bs ↔ ∃ n n', c.Hops fired on bs t n n' := by
  unfold transitions
  rw [List.mem_cons]
  constructor
  · rintro (rfl | ht)
    · exact ⟨fired, _, .enter⟩
    · obtain ⟨n, hn⟩ := (mem_candidateTransitions (c.entry [])).1 ht
      obtain ⟨pre, b, post, d, m, m', hsplit, htries, rfl, -⟩ := (arc_mem_candidateLines [] bs).1 hn
      exact ⟨m, m', .tries hsplit htries⟩
  · rintro ⟨n, n', hhops⟩
    cases hhops with
    | enter => exact .inl rfl
    | tries hsplit htries => exact .inr (mem_candidateTransitions_of_tries hsplit htries)

/-- A transition has one move. -/
theorem Hops.unique (hon : on ∉ c.candidateTransitions 1 bs) (h : c.Hops fired on bs t n n')
    (h' : c.Hops fired on bs t m m') : n = m ∧ n' = m' := by
  cases h with
  | enter =>
    generalize ht : on = t at h'
    cases h' with
    | enter => exact ⟨rfl, rfl⟩
    | tries hsplit htries => exact absurd (ht ▸ mem_candidateTransitions_of_tries hsplit htries) hon
  | @tries pre post b d n n' hsplit htries =>
    generalize ht : c.node d.label (pre.length + 1) = t at h'
    cases h' with
    | enter => exact absurd (ht ▸ mem_candidateTransitions_of_tries hsplit htries) hon
    | tries hsplit' htries' =>
      obtain ⟨rfl, hlength⟩ := node_label_inj.1 ht
      obtain ⟨rfl, hrest⟩ := List.append_inj (hsplit.symm.trans hsplit') (Nat.succ.inj hlength)
      obtain ⟨rfl, rfl⟩ := List.cons.inj hrest
      cases htries <;> cases htries' <;> simp_all

end Fragment.StateMachine.GuardChain

/-! ## Places of the chain -/

/-- A list is what comes before one of its items, the item and what comes behind. -/
theorem exists_split_of_getElem? {α : Type} {xs : List α} {x : α} (h : xs[k]? = some x) :
    ∃ pre post, xs = pre ++ x :: post ∧ pre.length = k := by
  obtain ⟨hlt, rfl⟩ := List.getElem?_eq_some_iff.1 h
  exact ⟨xs.take k, xs.drop (k + 1), by simp, List.length_take_of_le (Nat.le_of_lt hlt)⟩

namespace Fragment.StateMachine.GuardChain

variable {c : GuardChain} {bs pre post : List Candidate} {b : Candidate}

theorem candidatePlaces_subset (k : Nat) (pre suf : List Candidate) :
    c.candidatePlaces (k + pre.length) suf ⊆ c.candidatePlaces k (pre ++ suf) := by
  induction pre generalizing k with
  | nil => exact List.Subset.refl _
  | cons b pre ih =>
    rw [List.length_cons, ← Nat.add_assoc, Nat.add_right_comm]
    exact List.Subset.trans (ih (k + 1)) (List.subset_append_right ..)

/-- A guarded candidate has the place of its condition. -/
theorem condition_mem_places (hsplit : bs = pre ++ b :: post) (hb : b.guarded = true) :
    c.node "condition" (pre.length + 1) ∈ c.places bs := by
  subst hsplit
  apply List.mem_cons_of_mem
  apply candidatePlaces_subset
  rw [Nat.add_comm]
  simp [candidatePlaces, hb]

/-- A guarded candidate that is not the last has a place behind it. -/
theorem runcondition_mem_places (hsplit : bs = pre ++ b :: post) (hb : b.guarded = true)
    (hpost : post ≠ []) : c.node "runcondition" (pre.length + 2) ∈ c.places bs := by
  subst hsplit
  apply List.mem_cons_of_mem
  apply candidatePlaces_subset
  rw [Nat.add_comm]
  simp [candidatePlaces, hb, hpost]

/-- Where a candidate is tried is a place of the chain. -/
theorem entry_mem_places (hsplit : bs = pre ++ b :: post) : c.entry pre ∈ c.places bs := by
  induction pre using List.reverseRecOn generalizing b post with
  | nil => exact List.mem_cons_self ..
  | append_singleton pre d ih =>
    rw [List.append_assoc, List.singleton_append] at hsplit
    rw [entry_concat]
    split
    · exact runcondition_mem_places hsplit ‹_› (List.cons_ne_nil b post)
    · exact ih hsplit

/-- Every candidate can be started. -/
theorem exists_tries_start (pre : List Candidate) (b : Candidate) (post : List Candidate) :
    ∃ n, c.Tries pre b post .start n (c.action b) := by
  cases hb : b.guarded with
  | true => exact ⟨_, .accept hb⟩
  | false => exact ⟨_, .free hb⟩

/-- A candidate is tried from a place of the chain. -/
theorem Tries.source_mem {n n' : String} (hsplit : bs = pre ++ b :: post)
    (h : c.Tries pre b post d n n') : n ∈ c.places bs := by
  cases h with
  | eval hb => exact entry_mem_places hsplit
  | accept hb => exact condition_mem_places hsplit hb
  | reject hb hpost => exact condition_mem_places hsplit hb
  | back hb hpost => exact condition_mem_places hsplit hb
  | free hb => exact entry_mem_places hsplit

/-- A candidate is tried from a guard's place only behind that guard. -/
theorem Tries.of_runcondition {n' : String}
    (h : c.Tries pre b post d (c.node "runcondition" (k + 1)) n') : passed pre = k := by
  have hentry (heq : c.node "runcondition" (k + 1) = c.entry pre) : passed pre = k := by
    have := ((node_inj (by decide) (by decide)).1 heq).2
    omega
  have hcondition : c.node "runcondition" (k + 1) ≠ c.node "condition" (pre.length + 1) := by
    simp (disch := decide) [node_inj]
  generalize hn : c.node "runcondition" (k + 1) = n at h
  cases h with
  | eval hb => exact hentry hn
  | accept hb => exact absurd hn hcondition
  | reject hb hpost => exact absurd hn hcondition
  | back hb hpost => exact absurd hn hcondition
  | free hb => exact hentry hn

/-- The outcome of a guard concerns its own candidate. -/
theorem Tries.of_condition {n' : String}
    (h : c.Tries pre b post d (c.node "condition" (k + 1)) n') : pre.length = k := by
  have hentry : c.node "condition" (k + 1) ≠ c.entry pre := by
    simp (disch := decide) [entry, node_inj]
  have hcondition (heq : c.node "condition" (k + 1) = c.node "condition" (pre.length + 1)) :
      pre.length = k := by
    have := ((node_inj (by decide) (by decide)).1 heq).2
    omega
  generalize hn : c.node "condition" (k + 1) = n at h
  cases h with
  | eval hb => exact absurd hn hentry
  | accept hb => exact hcondition hn
  | reject hb hpost => exact hcondition hn
  | back hb hpost => exact hcondition hn
  | free hb => exact absurd hn hentry

end Fragment.StateMachine.GuardChain

end OpenWorkflow
