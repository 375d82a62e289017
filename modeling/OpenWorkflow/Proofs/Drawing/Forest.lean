import Mathlib.Data.List.Lattice
import Mathlib.Data.List.Pairwise
import OpenWorkflow.Proofs.Drawing.Activity
import OpenWorkflow.Proofs.Drawing.Contents

/-!
# The joins of structured activities

A fragment stands directly in one other fragment at most (`Activity.nodup_innerNumbers`),
and if the other one is that of a structured activity, only this one joins its
two ends to other names, each of them once and to a name with a lower number
(`Activity.tying_lines`). So the joins in the drawing of a structured activity
make a forest (`Activity.forest_sheet`). Every name is joined to a root, which
no line joins to a name before it, and no two roots are joined
(`Forest.exists_root`, `Forest.eq_of_joined`).
-/

namespace OpenWorkflow

open Activity (sizes)

variable {a : Activity} {as : List Activity} {i i' j : Nat} {n : String}

/-! ## Numbers of fragments -/

namespace Activity

/-- An activity is built with a fragment at least. -/
theorem size_pos (a : Activity) : 0 < a.size := by
  rw [size_eq]
  exact Nat.succ_pos _

/-- The numbers of the fragments of activities, the first of which has the number `k`. -/
def starts : Nat → List Activity → List Nat
  | _, [] => []
  | k, a :: as => k :: starts (k + a.size) as

theorem starts_append (k : Nat) (as bs : List Activity) :
    starts k (as ++ bs) = starts k as ++ starts (k + sizes as) bs := by
  induction as generalizing k with
  | nil => rfl
  | cons a as ih => simp [starts, ih, Nat.add_assoc]

/-- Fragments in a row are numbered from the first on. -/
theorem bounds_of_mem_starts {k : Nat} (h : j ∈ starts k as) : k ≤ j ∧ j < k + sizes as := by
  induction as generalizing k with
  | nil => cases h
  | cons a as ih =>
    have hpos := a.size_pos
    rw [sizes_cons]
    rcases List.mem_cons.1 h with rfl | h
    · omega
    · have := ih h
      omega

/-- The numbers of the fragments that stand directly in one of the activities, which have the
numbers from `k` on. -/
def innerNumbers (k : Nat) (as : List Activity) : List Nat :=
  (as.zipIdx k).flatMap fun b => starts (b.2 + 1) b.1.built

theorem innerNumbers_append (k : Nat) (as bs : List Activity) :
    innerNumbers k (as ++ bs) = innerNumbers k as ++ innerNumbers (k + as.length) bs := by
  unfold innerNumbers
  rw [List.zipIdx_append, List.flatMap_append]

/-- The numbers inside are those directly inside and those further in. -/
theorem innerNumbers_walk (a : Activity) (k : Nat) :
    innerNumbers k a.walk
      = starts (k + 1) a.built ++ innerNumbers (k + 1) (a.built.flatMap walk) := by
  rw [walk_eq, innerNumbers, List.zipIdx_cons, List.flatMap_cons, innerNumbers]

/-- The fragments of activities behind one another. -/
theorem nodup_starts_innerNumbers {cs : List Activity}
    (h : ∀ c ∈ cs, ∀ k, (innerNumbers k c.walk).Nodup ∧
      ∀ j ∈ innerNumbers k c.walk, k < j ∧ j < k + c.size)
    (k : Nat) :
    (starts k cs ++ innerNumbers k (cs.flatMap walk)).Nodup ∧
      ∀ j ∈ starts k cs ++ innerNumbers k (cs.flatMap walk), k ≤ j ∧ j < k + sizes cs := by
  induction cs generalizing k with
  | nil => exact ⟨List.nodup_nil, by simp [starts, innerNumbers]⟩
  | cons c cs ih =>
    obtain ⟨hnodup, hrange⟩ := h c (List.mem_cons_self ..) k
    obtain ⟨hrest, hrange'⟩ := ih (fun d hd => h d (List.mem_cons_of_mem _ hd)) (k + c.size)
    have hpos := c.size_pos
    -- What is in the first fragment has numbers before those of the others.
    have hperm : (starts k (c :: cs) ++ innerNumbers k ((c :: cs).flatMap walk)).Perm
        ((k :: innerNumbers k c.walk)
          ++ (starts (k + c.size) cs ++ innerNumbers (k + c.size) (cs.flatMap walk))) := by
      rw [starts, List.flatMap_cons, innerNumbers_append, List.cons_append, List.cons_append,
        ← List.append_assoc, ← List.append_assoc]
      exact (List.perm_append_comm.append_right _).cons k
    refine ⟨hperm.nodup_iff.2 (List.Nodup.append ?_ hrest ?_), fun j hj => ?_⟩
    · exact List.nodup_cons.2 ⟨fun hk => absurd (hrange k hk).1 (Nat.lt_irrefl k), hnodup⟩
    · intro j hj hj'
      have hlow := (hrange' j hj').1
      rcases List.mem_cons.1 hj with rfl | hj
      · omega
      · have := (hrange j hj).2
        omega
    · rw [sizes_cons]
      rcases List.mem_append.1 (hperm.mem_iff.1 hj) with hj | hj
      · rcases List.mem_cons.1 hj with rfl | hj
        · omega
        · have := hrange j hj
          omega
      · have := hrange' j hj
        omega

/-- A fragment stands directly in one other fragment at most. -/
theorem nodup_innerNumbers (a : Activity) (k : Nat) :
    (innerNumbers k a.walk).Nodup ∧ ∀ j ∈ innerNumbers k a.walk, k < j ∧ j < k + a.size := by
  induction a using built_induction generalizing k with
  | h a ih =>
    obtain ⟨hnodup, hrange⟩ := nodup_starts_innerNumbers ih (k + 1)
    rw [innerNumbers_walk, size_eq]
    refine ⟨hnodup, fun j hj => ?_⟩
    have := hrange j hj
    omega

/-- The fragment in which a fragment stands directly is one and the same. -/
theorem eq_of_innerNumbers {b b' : Activity} {k : Nat} (hb : a.walk[i]? = some b)
    (hb' : a.walk[i']? = some b') (hj : j ∈ starts (k + i + 1) b.built)
    (hj' : j ∈ starts (k + i' + 1) b'.built) : i = i' ∧ b = b' := by
  by_contra hne
  have hpairwise := (List.nodup_flatMap.1 (a.nodup_innerNumbers k).1).2
  have hmem : (b, k + i) ∈ a.walk.zipIdx k := mem_zipIdx_iff.2 ⟨i, hb, rfl⟩
  have hmem' : (b', k + i') ∈ a.walk.zipIdx k := mem_zipIdx_iff.2 ⟨i', hb', rfl⟩
  have : Std.Symm (Function.onFun List.Disjoint fun b : Activity × Nat =>
      starts (b.2 + 1) b.1.built) := ⟨fun _ _ h => h.symm⟩
  refine hpairwise.forall hmem hmem' (fun heq => hne ?_) hj hj'
  injection heq with hb hi
  exact ⟨by omega, hb⟩

end Activity

open Activity (starts)

/-! ## Joins to the ends of fragments -/

/-- The name is one of the two ends of the fragment. -/
def Scope.IsEnd (s : Scope) (n : String) : Prop := n = s.initialized ∨ n = s.closed

theorem Scope.IsEnd.owns {s : Scope} (h : s.IsEnd n) : s.Owns n := by
  rcases h with rfl | rfl
  · exact s.owns_initialized
  · exact s.owns_closed

/-- The lines join names only to ends of the fragments of the activities, the first of which has
the number `k`. No end is joined twice, and none to a name with a higher number. -/
structure Tying (k : Nat) (cs : List Activity) (L : List Line) : Prop where
  once : (ties L).Nodup
  tie : ∀ {n n'}, .joins n n' ∈ L →
    ∃ i, ∃ j ∈ starts k cs, i < j ∧ Scope.Owns ⟨i⟩ n ∧ Scope.IsEnd ⟨j⟩ n'

namespace Tying

variable {k : Nat} {cs ds : List Activity} {L L' : List Line}

theorem of_ties_eq_nil (h : ties L = []) : Tying k cs L where
  once := h ▸ List.nodup_nil
  tie hmem := by
    have := mem_ties.2 ⟨_, hmem⟩
    rw [h] at this
    cases this

/-- A tie is an end of one of the fragments inside. -/
theorem exists_start (h : Tying k cs L) (hn : n ∈ ties L) :
    ∃ j ∈ starts k cs, Scope.IsEnd ⟨j⟩ n := by
  obtain ⟨m, hm⟩ := mem_ties.1 hn
  obtain ⟨-, j, hj, -, -, hend⟩ := h.tie hm
  exact ⟨j, hj, hend⟩

/-- No ends of other fragments are joined. -/
theorem not_mem (h : Tying k cs L) (hend : Scope.IsEnd ⟨j⟩ n) (hj : j < k ∨ k + sizes cs ≤ j) :
    n ∉ ties L := by
  intro hmem
  obtain ⟨j', hj', hend'⟩ := h.exists_start hmem
  have hrange := Activity.bounds_of_mem_starts hj'
  have heq : (⟨j⟩ : Scope) = ⟨j'⟩ := hend.owns.unique hend'.owns
  injection heq with heq
  omega

/-- What ties one row of fragments and what ties the next. -/
theorem append (h : Tying k cs L) (h' : Tying (k + sizes cs) ds L') :
    Tying k (cs ++ ds) (L ++ L') where
  once := by
    rw [ties_append]
    refine h.once.append h'.once fun n hn hn' => ?_
    obtain ⟨j, hj, hend⟩ := h.exists_start hn
    exact h'.not_mem hend (.inl (Activity.bounds_of_mem_starts hj).2) hn'
  tie hmem := by
    rw [Activity.starts_append]
    rcases List.mem_append.1 hmem with hmem | hmem
    · obtain ⟨i, j, hj, htie⟩ := h.tie hmem
      exact ⟨i, j, List.mem_append_left _ hj, htie⟩
    · obtain ⟨i, j, hj, htie⟩ := h'.tie hmem
      exact ⟨i, j, List.mem_append_right _ hj, htie⟩

/-- Lines without joins come first. -/
theorem prepend (h : Tying k cs L') (hL : ties L = []) : Tying k cs (L ++ L') :=
  (show Tying k [] L from of_ties_eq_nil hL).append h

/-- One end of one fragment is joined to a name before it. -/
theorem single {n' : String} (hi : i < k) (hn : Scope.Owns ⟨i⟩ n) (hn' : Scope.IsEnd ⟨k⟩ n') :
    Tying k [a] [.joins n n'] where
  once := List.nodup_singleton _
  tie hmem := by
    cases List.mem_singleton.1 hmem
    exact ⟨i, k, List.mem_cons_self .., hi, hn, hn'⟩

theorem splice {entry exit : String} (hi : i < k) (hi' : i' < k) (hentry : Scope.Owns ⟨i⟩ entry)
    (hexit : Scope.Owns ⟨i'⟩ exit) :
    Tying k [a] (Activity.spliceLines entry exit ⟨k⟩) where
  once := by
    simp [Activity.spliceLines, Scope.initialized_ne_closed]
  tie {n n'} hmem := by
    simp only [Activity.spliceLines, List.mem_cons, Line.joins.injEq, List.not_mem_nil,
      or_false] at hmem
    rcases hmem with ⟨rfl, rfl⟩ | ⟨rfl, rfl⟩
    · exact ⟨i, k, List.mem_cons_self .., hi, hentry, .inl rfl⟩
    · exact ⟨i', k, List.mem_cons_self .., hi', hexit, .inr rfl⟩

/-- Parts that each join the ends of their own fragments. -/
theorem numberedLines {α : Type} {lines : Nat → α → List Line} {built : α → List Activity}
    {xs : List α} (h : ∀ x ∈ xs, ∀ k, i ≤ k → Tying (k + 1) (built x) (lines k x)) {k : Nat}
    (hk : i ≤ k) : Tying (k + 1) (xs.flatMap built) (numberedLines lines built k xs) := by
  induction xs generalizing k with
  | nil => exact of_ties_eq_nil rfl
  | cons x xs ih =>
    rw [List.flatMap_cons]
    refine (h x (List.mem_cons_self ..) k hk).append ?_
    rw [Nat.add_right_comm]
    exact ih (fun y hy => h y (List.mem_cons_of_mem _ hy)) (by omega)

end Tying

namespace Activity

variable {s : Scope}

/-- An activity between the ends of the fragment. -/
theorem tying_spliceLines (s : Scope) (a : Activity) :
    Tying (s.id + 1) [a] (spliceLines s.initialized s.closed ⟨s.id + 1⟩) :=
  .splice (Nat.lt_succ_self _) (Nat.lt_succ_self _) s.owns_initialized s.owns_closed

/-- Activities after one another, between two places. -/
theorem tying_chainLines (hne : as ≠ []) {k : Nat} {last exit : String} (hi : i ≤ k) (hi' : i' ≤ k)
    (hlast : Scope.Owns ⟨i⟩ last) (hexit : Scope.Owns ⟨i'⟩ exit) :
    Tying (k + 1) as (chainLines last k as ++ [.joins exit (chainEnd last k as)]) := by
  induction as generalizing i k last with
  | nil => exact absurd rfl hne
  | cons a as ih =>
    cases as with
    | nil => exact Tying.splice (by omega) (by omega) hlast hexit
    | cons b as =>
      have hfirst : Tying (k + 1) [a] [.joins last (Scope.initialized ⟨k + 1⟩)] :=
        .single (by omega) hlast (.inl rfl)
      have hpos := a.size_pos
      refine hfirst.append (L := [_]) ?_
      rw [sizes_cons, sizes_nil, Nat.add_zero, Nat.add_right_comm]
      exact ih (by simp) (by omega) (by omega) (Scope.owns_closed _)

/-- A sequence ties each of its fragments once. -/
theorem tying_sequenceLines (s : Scope) (as : List Activity) :
    Tying (s.id + 1) (sequence as).built (sequenceLines s as) := by
  cases as with
  | nil => exact tying_spliceLines s .empty
  | cons a as =>
    exact tying_chainLines (List.cons_ne_nil a as) (Nat.le_refl _) (Nat.le_refl _)
      s.owns_initialized s.owns_closed

theorem tying_branchLines {k : Nat} (hk : s.id ≤ k) (label : String) (a : Option Activity) :
    Tying (k + 1) a.toList (branchLines s label k a) := by
  cases a with
  | none => exact .of_ties_eq_nil rfl
  | some a =>
    have htie : Tying (k + 1) [a] [.joins s.closed (Scope.closed ⟨k + 1⟩)] :=
      .single (by omega) s.owns_closed (.inr rfl)
    exact htie.prepend (L := [_, _, _]) rfl

/-- A condition ties the ends of its branches. -/
theorem tying_conditionalLines (s : Scope) (onTrue onFalse : Option Activity) :
    Tying (s.id + 1) (onTrue.toList ++ onFalse.toList) (conditionalLines s onTrue onFalse) := by
  refine Tying.prepend ?_ rfl
  split
  · exact .of_ties_eq_nil rfl
  · refine (tying_branchLines (Nat.le_refl _) "initthen" onTrue).append ?_
    rw [Nat.add_right_comm]
    exact tying_branchLines (Nat.le_add_right ..) "initelse" onFalse

theorem ties_caseLines (s : Scope) (i : Nat) (last : String) (k : Nat) (as : List Activity) :
    ties (caseLines s i last k as) = [] := by
  induction as generalizing i last k with
  | nil => rfl
  | cons a as ih => simp [caseLines, ih]

theorem tying_closings {k : Nat} (hk : s.id ≤ k) (as : List Activity) :
    Tying (k + 1) as ((closings k as).map (.joins s.closed ·)) := by
  induction as generalizing k with
  | nil => exact .of_ties_eq_nil rfl
  | cons a as ih =>
    have hfirst : Tying (k + 1) [a] [.joins s.closed (Scope.closed ⟨k + 1⟩)] :=
      .single (by omega) s.owns_closed (.inr rfl)
    refine hfirst.append (L := [_]) ?_
    rw [sizes_cons, sizes_nil, Nat.add_zero, Nat.add_right_comm]
    exact ih (by omega)

/-- A switch ties the ends of its cases. -/
theorem tying_switchLines (s : Scope) (as : List Activity) (fallback : Option Activity) :
    Tying (s.id + 1) (as ++ fallback.toList) (switchLines s as fallback) := by
  refine (tying_closings (Nat.le_refl _) _).prepend ?_
  simp [ties_caseLines]

theorem tying_loopLines (s : Scope) (test : LoopTest) (body : Option Activity) :
    Tying (s.id + 1) body.toList (loopLines s test body) := by
  have hinit {a : Activity} {n : String} (hn : Scope.IsEnd ⟨s.id + 1⟩ n) :
      Tying (s.id + 1) [a] [.joins s.initialized n] :=
    .single (Nat.lt_succ_self _) s.owns_initialized hn
  cases body with
  | none => cases test <;> exact .of_ties_eq_nil rfl
  | some a =>
    cases test with
    | before => exact (hinit (.inr rfl)).prepend (L := [_, _, _, _, _, _, _, _, _, _]) rfl
    | after => exact (hinit (.inl rfl)).prepend (L := [_, _, _, _, _, _, _, _, _, _]) rfl

/-- Between the two transitions of parallel branches nothing is joined. -/
theorem ties_parallelLines (s : Scope) (h : 2 ≤ as.length) : ties (parallelLines s as) = [] := by
  have hbranches (k : Nat) (as : List Activity) :
      ties (OpenWorkflow.numberedLines (parallelBranchLines s) (fun a => [a]) k as) = [] := by
    induction as generalizing k with
    | nil => rfl
    | cons a as ih => simp [OpenWorkflow.numberedLines, parallelBranchLines, ih]
  rcases as with _ | ⟨a, _ | ⟨b, as⟩⟩
  · simp at h
  · simp at h
  · simp [parallelLines, hbranches]

/-- A single branch is tied to both ends, several are tied to none. -/
theorem tying_parallelLines (s : Scope) (as : List Activity) :
    Tying (s.id + 1) (parallel as).built (parallelLines s as) := by
  rcases as with _ | ⟨a, _ | ⟨b, as⟩⟩
  · exact tying_spliceLines s .empty
  · exact tying_spliceLines s a
  · exact .of_ties_eq_nil (ties_parallelLines s (by simp))

theorem tying_pickBranchLines {k : Nat} (hk : s.id ≤ k) (b : PickBranch Activity) :
    Tying (k + 1) b.built (pickBranchLines s k b) := by
  obtain ⟨trigger, action⟩ := b
  cases action with
  | none => exact Tying.splice (by omega) (by omega) s.owns_initialized s.owns_closed
  | some a =>
    have htrigger : Tying (k + 1) [trigger.getD .empty]
        [.joins s.initialized (Scope.initialized ⟨k + 1⟩)] :=
      .single (by omega) s.owns_initialized (.inl rfl)
    have hpos := (trigger.getD .empty).size_pos
    refine htrigger.append (L := [_]) ?_
    rw [sizes_cons, sizes_nil, Nat.add_zero, Nat.add_right_comm]
    exact Tying.splice (by omega) (by omega) (Scope.owns_closed _) s.owns_closed

/-- A choice by triggers ties its branches to both ends. -/
theorem tying_pickLines (s : Scope) (bs : List (PickBranch Activity)) :
    Tying (s.id + 1) (pick bs).built (pickLines s bs) := by
  cases bs with
  | nil => exact tying_spliceLines s .empty
  | cons b bs =>
    exact Tying.numberedLines (fun b _ k hk => tying_pickBranchLines hk b) (Nat.le_refl _)

/-- It is neither a flowchart nor a state machine. -/
def IsBlock (a : Activity) : Prop := a.type ≠ .flowchart ∧ a.type ≠ .stateMachine

/-- A fragment joins the ends of the fragments that stand directly in it. -/
theorem tying_lines (h : a.IsBlock) (k : Nat) : Tying (k + 1) a.built (a.lines k) := by
  refine Tying.prepend ?_ rfl
  cases a with
  | atomic a => exact .of_ties_eq_nil rfl
  | empty => exact .of_ties_eq_nil rfl
  | messaging m => exact .of_ties_eq_nil rfl
  | sequence children => exact tying_sequenceLines ⟨k⟩ children
  | conditional onTrue onFalse => exact tying_conditionalLines ⟨k⟩ onTrue onFalse
  | switch cases fallback => exact tying_switchLines ⟨k⟩ cases fallback
  | loop test body => exact tying_loopLines ⟨k⟩ test body
  | parallel branches => exact tying_parallelLines ⟨k⟩ branches
  | pick branches => exact tying_pickLines ⟨k⟩ branches
  | flowchart start nodes => exact absurd rfl h.1
  | stateMachine initial states triggers => exact absurd rfl h.2

end Activity

/-! ## Forests -/

/-- Joins lead from lower numbers to higher ones, and no two lead to one name. -/
structure Forest (L : List Line) : Prop where
  once : (ties L).Nodup
  below : ∀ {n n'}, .joins n n' ∈ L → ∃ i j, i < j ∧ Scope.Owns ⟨i⟩ n ∧ Scope.Owns ⟨j⟩ n'

/-- Where no two items of a list give the same value, a value comes from one of them. -/
theorem eq_of_nodup_filterMap {α β : Type} {f : α → Option β} {xs : List α} {x y : α} {z : β}
    (h : (xs.filterMap f).Nodup) (hx : x ∈ xs) (hy : y ∈ xs) (hxz : f x = some z)
    (hyz : f y = some z) : x = y := by
  induction xs with
  | nil => cases hx
  | cons w xs ih =>
    have hmem {u : α} (hu : u ∈ xs) (huz : f u = some z) : z ∈ xs.filterMap f :=
      List.mem_filterMap.2 ⟨u, hu, huz⟩
    cases hw : f w with
    | none =>
      rw [List.filterMap_cons_none hw] at h
      rcases List.mem_cons.1 hx with rfl | hx'
      · rw [hw] at hxz
        cases hxz
      · rcases List.mem_cons.1 hy with rfl | hy'
        · rw [hw] at hyz
          cases hyz
        · exact ih h hx' hy'
    | some v =>
      rw [List.filterMap_cons_some hw, List.nodup_cons] at h
      rcases List.mem_cons.1 hx with rfl | hx' <;> rcases List.mem_cons.1 hy with rfl | hy'
      · rfl
      · obtain rfl := Option.some.inj (hw.symm.trans hxz)
        exact absurd (hmem hy' hyz) h.1
      · obtain rfl := Option.some.inj (hw.symm.trans hyz)
        exact absurd (hmem hx' hxz) h.1
      · exact ih h.2 hx' hy'

namespace Forest

variable {L : List Line} (h : Forest L)
include h

/-- A name is tied to one other only. -/
theorem unique {m m' : String} (hm : .joins m n ∈ L) (hm' : .joins m' n ∈ L) : m = m' := by
  have heq := eq_of_nodup_filterMap h.once hm hm' rfl rfl
  injection heq

/-- Every name is joined to one that no line joins to a name before it. -/
theorem exists_root (hn : IsNumbered n) : ∃ r, IsNumbered r ∧ Joined L r n ∧ r ∉ ties L := by
  obtain ⟨⟨k⟩, hk⟩ := hn
  induction k using Nat.strongRecOn generalizing n with
  | ind k ih =>
    by_cases hroot : n ∈ ties L
    · obtain ⟨m, hm⟩ := mem_ties.1 hroot
      obtain ⟨i, j, hij, hi, hj⟩ := h.below hm
      have hjk : (⟨j⟩ : Scope) = ⟨k⟩ := hj.unique hk
      injection hjk with hjk
      obtain ⟨r, hr, hjoined, hfree⟩ := ih i (hjk ▸ hij) hi
      exact ⟨r, hr, hjoined.trans (.of_mem hm), hfree⟩
    · exact ⟨n, hk.isNumbered, .refl n, hroot⟩

/-- No two roots are joined. -/
theorem eq_of_joined {r r' : String} (hr : r ∉ ties L) (hr' : r' ∉ ties L) (hj : Joined L r r') :
    r = r' := by
  -- The names joined to a root are those from which joins, taken backwards, lead to it.
  have hback := hj.invariant (P := (Relation.ReflTransGen (fun n m => .joins m n ∈ L) · r)) <| by
    refine fun a b hab => ⟨fun ha => .head hab ha, fun hb => ?_⟩
    rcases hb.cases_head with rfl | ⟨c, hcb, hc⟩
    · exact absurd (mem_ties.2 ⟨a, hab⟩) hr
    · exact h.unique hcb hab ▸ hc
  rcases (hback.1 .refl).cases_head with heq | ⟨c, hc, -⟩
  · exact heq.symm
  · exact absurd (mem_ties.2 ⟨c, hc⟩) hr'

end Forest

namespace Activity

variable {root : Activity}

theorem ties_drawing (a : Activity) (k : Nat) :
    ties (a.drawing k) = (a.walk.zipIdx k).flatMap fun b => ties (b.1.lines b.2) :=
  List.filterMap_flatMap ..

/-- In the drawing of a structured activity, what is joined to a name before it is an end of a
fragment inside, and it is joined by the fragment in which that one stands. -/
theorem exists_of_mem_ties (ha : ∀ b ∈ a.walk, b.IsBlock) {k : Nat} (h : n ∈ ties (a.drawing k)) :
    ∃ (i : Nat) (b : Activity) (j : Nat), a.walk[i]? = some b ∧
      n ∈ ties (b.lines (k + i)) ∧ j ∈ starts (k + i + 1) b.built ∧ Scope.IsEnd ⟨j⟩ n := by
  rw [ties_drawing] at h
  obtain ⟨⟨b, _⟩, hmem, hn⟩ := List.mem_flatMap.1 h
  obtain ⟨i, hb, rfl⟩ := mem_zipIdx_iff.1 hmem
  obtain ⟨j, hj, hend⟩ := (tying_lines (ha b (List.mem_of_getElem? hb)) (k + i)).exists_start hn
  exact ⟨i, b, j, hb, hn, hj, hend⟩

/-- No name of a block activity is tied twice. -/
theorem nodup_ties_drawing (ha : ∀ b ∈ a.walk, b.IsBlock) (k : Nat) :
    (ties (a.drawing k)).Nodup := by
  have htying {b : Activity × Nat} (hb : b ∈ a.walk.zipIdx k) :
      Tying (b.2 + 1) b.1.built (b.1.lines b.2) := by
    obtain ⟨i, hi, -⟩ := mem_zipIdx_iff.1 hb
    exact tying_lines (ha b.1 (List.mem_of_getElem? hi)) b.2
  rw [ties_drawing, List.nodup_flatMap]
  refine ⟨fun b hb => (htying hb).once, ?_⟩
  refine (List.nodup_flatMap.1 (a.nodup_innerNumbers k).1).2.imp_of_mem
    fun {b b'} hb hb' hdisjoint => ?_
  intro n hn hn'
  obtain ⟨j, hj, hend⟩ := (htying hb).exists_start hn
  obtain ⟨j', hj', hend'⟩ := (htying hb').exists_start hn'
  have heq : (⟨j⟩ : Scope) = ⟨j'⟩ := hend.owns.unique hend'.owns
  injection heq with heq
  exact hdisjoint hj (heq ▸ hj')

/-- What the whole drawing joins to names before it, at the boundary and inside. -/
theorem ties_sheet (root : Activity) :
    ties root.sheet = Scope.closed ⟨1⟩ :: Scope.initialized ⟨1⟩ :: ties (root.drawing 1) := by
  simp [sheet, endLines]

/-- **Forests.** The joins in the drawing of a structured activity make a forest. -/
theorem forest_sheet (h : ∀ b ∈ root.walk, b.IsBlock) : Forest root.sheet where
  once := by
    have houter {n : String} (hn : Scope.IsEnd ⟨1⟩ n) : n ∉ ties (root.drawing 1) := by
      intro hmem
      obtain ⟨i, b, j, -, -, hj, hend⟩ := exists_of_mem_ties h hmem
      have hrange := bounds_of_mem_starts hj
      have heq : (⟨1⟩ : Scope) = ⟨j⟩ := hn.owns.unique hend.owns
      injection heq with heq
      omega
    rw [ties_sheet]
    refine List.nodup_cons.2 ⟨?_, List.nodup_cons.2 ⟨houter (.inl rfl), nodup_ties_drawing h 1⟩⟩
    rw [List.mem_cons, not_or]
    exact ⟨(Scope.initialized_ne_closed _).symm, houter (.inr rfl)⟩
  below {n n'} hmem := by
    simp only [sheet, List.mem_cons, List.mem_append, Line.joins.injEq] at hmem
    rcases hmem with ⟨rfl, rfl⟩ | ⟨rfl, rfl⟩ | hmem | hmem
    · exact ⟨0, 1, Nat.zero_lt_one, Scope.owns_closed _, Scope.owns_closed _⟩
    · exact ⟨0, 1, Nat.zero_lt_one, Scope.owns_initialized _, Scope.owns_initialized _⟩
    · obtain ⟨i, b, hb, hl⟩ := mem_drawing.1 hmem
      obtain ⟨i', j, -, hlt, hn, hn'⟩ := (tying_lines (h b (List.mem_of_getElem? hb)) _).tie hl
      exact ⟨i', j, hlt, hn, hn'.owns⟩
    · simp [endLines] at hmem

end Activity

end OpenWorkflow
