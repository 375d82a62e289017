import OpenWorkflow.Proofs.Drawing.Census
import OpenWorkflow.Proofs.Drawing.Locality

/-!
# Ways through a graph

Where control is in one place at a time, the lines of a fragment are a graph. Its
edges are the transitions of the fragment and the fragments inside, and its nodes
the places between them. `Paved` says that lines draw given edges and no others,
`Route` that each edge lies on a way from one end to the other. Fragments behind
one another are such a way.
-/

namespace OpenWorkflow

open Activity (sizes starts chainLines chainEnd)

variable {cs ds : List Activity} {L L' : List Line} {n' : String} {own : String → Prop}

/-! ## Fragments inside -/

namespace Activity

/-- The activities with the numbers of their fragments, the first of which has the number `k`. -/
def numbered : Nat → List Activity → List (Activity × Nat)
  | _, [] => []
  | k, a :: as => (a, k) :: numbered (k + a.size) as

theorem numbered_append (k : Nat) (as bs : List Activity) :
    numbered k (as ++ bs) = numbered k as ++ numbered (k + sizes as) bs := by
  induction as generalizing k with
  | nil => rfl
  | cons a as ih => simp [numbered, ih, Nat.add_assoc]

theorem map_snd_numbered (k : Nat) (as : List Activity) :
    (numbered k as).map Prod.snd = starts k as := by
  induction as generalizing k with
  | nil => rfl
  | cons a as ih => simp [numbered, starts, ih]

theorem mem_starts_of_mem_numbered {k : Nat} {as : List Activity} {b : Activity × Nat}
    (h : b ∈ numbered k as) : b.2 ∈ starts k as :=
  map_snd_numbered k as ▸ List.mem_map_of_mem h

/-- Where an activity stands in a row, and the number it has there. -/
theorem mem_numbered_iff {k : Nat} {as : List Activity} {b : Activity × Nat} :
    b ∈ numbered k as ↔ ∃ pre post, as = pre ++ b.1 :: post ∧ b.2 = k + sizes pre := by
  induction as generalizing k with
  | nil => simp [numbered]
  | cons a as ih =>
    rw [numbered, List.mem_cons, ih]
    constructor
    · rintro (rfl | ⟨pre, post, rfl, hb⟩)
      · exact ⟨[], as, rfl, rfl⟩
      · exact ⟨a :: pre, post, rfl, by rw [hb, sizes_cons, Nat.add_assoc]⟩
    · rintro ⟨pre, post, heq, hb⟩
      cases pre with
      | nil =>
        obtain ⟨rfl, rfl⟩ := List.cons.inj heq
        exact .inl (Prod.ext rfl hb)
      | cons a' pre =>
        obtain ⟨rfl, rfl⟩ := List.cons.inj heq
        exact .inr ⟨pre, post, rfl, by rw [hb, sizes_cons, Nat.add_assoc]⟩

theorem mem_of_mem_numbered {k : Nat} {as : List Activity} {b : Activity × Nat}
    (h : b ∈ numbered k as) : b.1 ∈ as := by
  obtain ⟨pre, post, rfl, -⟩ := mem_numbered_iff.1 h
  simp

end Activity

open Activity (numbered)

/-! ## Edges -/

/-- A way from one place to another. -/
inductive Way where
  /-- A transition. -/
  | step (t : String)
  /-- A fragment inside, with its number. -/
  | inside (a : Activity) (k : Nat)

/-- The way leads from one place to another. -/
structure Edge where
  way : Way
  entry : String
  exit : String

namespace Edge

/-- The transition of the edge, if it has one. -/
@[simp] def step? (g : Edge) : Option String :=
  match g.way with
  | .step t => some t
  | .inside _ _ => none

/-- The fragment of the edge, if it has one. -/
@[simp] def inside? (g : Edge) : Option (Activity × Nat) :=
  match g.way with
  | .step _ => none
  | .inside a k => some (a, k)

end Edge

section Leads

variable {edges edges' : List Edge} {a b c : String}

/-- Edges in a row lead from one name to another. -/
def Leads (edges : List Edge) : String → String → Prop :=
  Relation.ReflTransGen fun a b => ∃ g ∈ edges, g.entry = a ∧ g.exit = b

theorem Leads.edge {g : Edge} (hg : g ∈ edges) : Leads edges g.entry g.exit :=
  .single ⟨g, hg, rfl, rfl⟩

/-- More edges lead at least as far. -/
theorem Leads.mono (h : Leads edges a b) (hsub : edges ⊆ edges') : Leads edges' a b := by
  induction h with
  | refl => exact .refl
  | tail _ hlink ih =>
    obtain ⟨g, hg, hends⟩ := hlink
    exact ih.tail ⟨g, hsub hg, hends⟩

theorem Leads.left (h : Leads edges a b) : Leads (edges ++ edges') a b :=
  h.mono (List.subset_append_left ..)

theorem Leads.right (h : Leads edges' a b) : Leads (edges ++ edges') a b :=
  h.mono (List.subset_append_right ..)

/-- Every edge lies on a way from one name to another, and none leaves the latter. -/
structure Route (edges : List Edge) (a b : String) : Prop where
  start : ∀ g ∈ edges, Leads edges a g.entry
  finish : ∀ g ∈ edges, Leads edges g.exit b
  out : ∀ g ∈ edges, g.entry ≠ b
  leads : Leads edges a b

namespace Route

/-- A single edge is a route. -/
theorem single (w : Way) (hab : a ≠ b) : Route [⟨w, a, b⟩] a b where
  start := List.forall_mem_singleton.2 .refl
  finish := List.forall_mem_singleton.2 .refl
  out := List.forall_mem_singleton.2 hab
  leads := .edge (List.mem_singleton_self _)

/-- One after the other. -/
theorem series (h : Route edges a b) (h' : Route edges' b c) (hc : ∀ g ∈ edges, g.entry ≠ c) :
    Route (edges ++ edges') a c := by
  refine ⟨?_, ?_, ?_, h.leads.left.trans h'.leads.right⟩
  · refine List.forall_mem_append.2 ⟨fun g hg => (h.start g hg).left, fun g hg => ?_⟩
    exact h.leads.left.trans (h'.start g hg).right
  · refine List.forall_mem_append.2 ⟨fun g hg => ?_, fun g hg => (h'.finish g hg).right⟩
    exact (h.finish g hg).left.trans h'.leads.right
  · exact List.forall_mem_append.2 ⟨hc, h'.out⟩

/-- One or the other. -/
theorem choice (h : Route edges a b) (h' : Route edges' a b) : Route (edges ++ edges') a b where
  start := List.forall_mem_append.2
    ⟨fun g hg => (h.start g hg).left, fun g hg => (h'.start g hg).right⟩
  finish := List.forall_mem_append.2
    ⟨fun g hg => (h.finish g hg).left, fun g hg => (h'.finish g hg).right⟩
  out := List.forall_mem_append.2 ⟨h.out, h'.out⟩
  leads := h.leads.left

/-- Back to the start any number of times. -/
theorem loop (h : Route edges a c) {back : List Edge} (hback : Route back b a)
    (hb : Leads edges a b) (hc : ∀ g ∈ back, g.entry ≠ c) : Route (edges ++ back) a c := by
  refine ⟨?_, ?_, List.forall_mem_append.2 ⟨h.out, hc⟩, h.leads.left⟩
  · refine List.forall_mem_append.2 ⟨fun g hg => (h.start g hg).left, fun g hg => ?_⟩
    exact hb.left.trans (hback.start g hg).right
  · refine List.forall_mem_append.2 ⟨fun g hg => (h.finish g hg).left, fun g hg => ?_⟩
    exact (hback.finish g hg).right.trans h.leads.left

end Route

end Leads

/-! ## Edges that lines draw -/

/-- The second name is the first one, or it is joined to it. -/
def Tied (L : List Line) (n n' : String) : Prop := n = n' ∨ .joins n n' ∈ L

/-- The name is one of the given ones, or an end of a fragment inside that is joined to no other
name. -/
def IsNode (own : String → Prop) (k : Nat) (cs : List Activity) (L : List Line) (n : String) :
    Prop :=
  own n ∨ (∃ j ∈ starts k cs, Scope.IsEnd ⟨j⟩ n) ∧ n ∉ ties L

/-- The lines draw the edge. -/
def Edge.Drawn (L : List Line) (g : Edge) : Prop :=
  g.entry ≠ g.exit ∧ match g.way with
    | .step t => .arc .consumes g.entry t ∈ L ∧ .arc .produces g.exit t ∈ L
    | .inside _ j => Tied L g.entry (Scope.initialized ⟨j⟩) ∧ Tied L g.exit (Scope.closed ⟨j⟩)

theorem Edge.Drawn.mono {g : Edge} (h : g.Drawn L) (hsub : L ⊆ L') : g.Drawn L' := by
  obtain ⟨way, entry, exit⟩ := g
  cases way with
  | step t => exact ⟨h.1, hsub h.2.1, hsub h.2.2⟩
  | inside a j => exact ⟨h.1, h.2.1.imp_right (hsub ·), h.2.2.imp_right (hsub ·)⟩

/-- The lines draw the edges between nodes, and no transition nor fragment inside besides. -/
structure Paved (own : String → Prop) (k : Nat) (cs : List Activity) (L : List Line)
    (edges : List Edge) : Prop where
  drawn : ∀ g ∈ edges, g.Drawn L
  entry : ∀ g ∈ edges, IsNode own k cs L g.entry
  exit : ∀ g ∈ edges, IsNode own k cs L g.exit
  steps : (drawnTransitions L).Perm (edges.filterMap Edge.step?)
  inside : numbered k cs = edges.filterMap Edge.inside?

theorem Paved.mono {own' : String → Prop} {k : Nat} {edges : List Edge} (h : Paved own k cs L edges)
    (hown : ∀ n, own n → own' n) :
    Paved own' k cs L edges where
  drawn := h.drawn
  entry g hg := (h.entry g hg).imp_left (hown _)
  exit g hg := (h.exit g hg).imp_left (hown _)
  steps := h.steps
  inside := h.inside

/-- Without transitions and fragments inside there are no edges. -/
theorem Paved.nil {k : Nat} (h : drawnTransitions L = []) :
    Paved own k [] L [] where
  drawn _ hg := absurd hg List.not_mem_nil
  entry _ hg := absurd hg List.not_mem_nil
  exit _ hg := absurd hg List.not_mem_nil
  steps := by rw [h, List.filterMap_nil]
  inside := rfl

/-- Lines that follow join the ends of other fragments only. -/
theorem IsNode.append {k : Nat} {n : String} (h : IsNode own k cs L n)
    (htie : Tying (k + sizes cs) ds L') : IsNode own k (cs ++ ds) (L ++ L') n := by
  refine h.imp_right fun ⟨⟨j, hj, hend⟩, hfree⟩ => ⟨⟨j, ?_, hend⟩, ?_⟩
  · rw [Activity.starts_append]
    exact List.mem_append_left _ hj
  · rw [ties_append, List.mem_append, not_or]
    exact ⟨hfree, htie.not_mem hend (.inl (Activity.bounds_of_mem_starts hj).2)⟩

/-- So do lines that come before. -/
theorem IsNode.prepend {k : Nat} {n : String} (h : IsNode own (k + sizes cs) ds L' n)
    (htie : Tying k cs L) : IsNode own k (cs ++ ds) (L ++ L') n := by
  refine h.imp_right fun ⟨⟨j, hj, hend⟩, hfree⟩ => ⟨⟨j, ?_, hend⟩, ?_⟩
  · rw [Activity.starts_append]
    exact List.mem_append_right _ hj
  · rw [ties_append, List.mem_append, not_or]
    exact ⟨htie.not_mem hend (.inr (Activity.bounds_of_mem_starts hj).1), hfree⟩

/-- What paves two rows of fragments paves both of them. -/
theorem Paved.append {k : Nat} {edges edges' : List Edge} (h : Paved own k cs L edges)
    (h' : Paved own (k + sizes cs) ds L' edges') (htie : Tying k cs L)
    (htie' : Tying (k + sizes cs) ds L') :
    Paved own k (cs ++ ds) (L ++ L') (edges ++ edges') where
  drawn := List.forall_mem_append.2
    ⟨fun g hg => (h.drawn g hg).mono (List.subset_append_left ..),
      fun g hg => (h'.drawn g hg).mono (List.subset_append_right ..)⟩
  entry := List.forall_mem_append.2
    ⟨fun g hg => (h.entry g hg).append htie', fun g hg => (h'.entry g hg).prepend htie⟩
  exit := List.forall_mem_append.2
    ⟨fun g hg => (h.exit g hg).append htie', fun g hg => (h'.exit g hg).prepend htie⟩
  steps := by
    rw [drawnTransitions_append, List.filterMap_append]
    exact h.steps.append h'.steps
  inside := by rw [Activity.numbered_append, h.inside, h'.inside, List.filterMap_append]

/-- Edges between places of the fragment come first. -/
theorem Paved.prepend {k : Nat} {edges edges' : List Edge} (h : Paved own k cs L' edges')
    (h' : Paved own k [] L edges) (hties : ties L = []) :
    Paved own k cs (L ++ L') (edges ++ edges') := by
  have hfirst {n : String} (hn : IsNode own k [] L n) : IsNode own k cs (L ++ L') n := by
    rcases hn with hn | ⟨⟨j, hj, -⟩, -⟩
    · exact .inl hn
    · cases hj
  have hrest {n : String} (hn : IsNode own k cs L' n) : IsNode own k cs (L ++ L') n :=
    @IsNode.prepend [] cs L L' own k n hn (.of_ties_eq_nil hties)
  refine ⟨?_, ?_, ?_, ?_, ?_⟩
  · exact List.forall_mem_append.2
      ⟨fun g hg => (h'.drawn g hg).mono (List.subset_append_left ..),
        fun g hg => (h.drawn g hg).mono (List.subset_append_right ..)⟩
  · exact List.forall_mem_append.2
      ⟨fun g hg => hfirst (h'.entry g hg), fun g hg => hrest (h.entry g hg)⟩
  · exact List.forall_mem_append.2
      ⟨fun g hg => hfirst (h'.exit g hg), fun g hg => hrest (h.exit g hg)⟩
  · rw [drawnTransitions_append, List.filterMap_append]
    exact h'.steps.append h.steps
  · rw [List.filterMap_append, ← h'.inside, h.inside]
    rfl

namespace Activity

/-! ## Chains -/

/-- The edges of fragments behind one another, up to a place where the last of them ends. -/
def chainEdges (exit : String) : String → Nat → List Activity → List Edge
  | _, _, [] => []
  | last, k, [a] => [⟨.inside a (k + 1), last, exit⟩]
  | last, k, a :: b :: as =>
    ⟨.inside a (k + 1), last, Scope.closed ⟨k + 1⟩⟩
      :: chainEdges exit (Scope.closed ⟨k + 1⟩) (k + a.size) (b :: as)

theorem ne_of_owns {i j : Nat} {n : String} (hn : Scope.Owns ⟨i⟩ n) (hn' : Scope.Owns ⟨j⟩ n')
    (hij : i ≠ j) : n ≠ n' := by
  rintro rfl
  exact hij (congrArg Scope.id (hn.unique hn'))

/-- One fragment more at the front of a chain. Where it ends, the chain begins. -/
theorem paved_link {a : Activity} {i k : Nat} {last exit : String} {edges : List Edge} (hi : i ≤ k)
    (hlast : Scope.Owns ⟨i⟩ last)
    (h : Paved (fun n => n = Scope.closed ⟨k + 1⟩ ∨ n = exit) (k + 1 + a.size) cs L edges)
    (htie : Tying (k + 1 + a.size) cs L) :
    Paved (fun n => n = last ∨ n = exit) (k + 1) (a :: cs)
      (.joins last (Scope.initialized ⟨k + 1⟩) :: L)
      (⟨.inside a (k + 1), last, Scope.closed ⟨k + 1⟩⟩ :: edges) := by
  have hsize : a.size = sizes [a] := by simp
  have hfirst : Tying (k + 1) [a] [.joins last (Scope.initialized ⟨k + 1⟩)] :=
    .single (by omega) hlast (.inl rfl)
  rw [hsize] at h htie
  have hnode : IsNode (fun n => n = last ∨ n = exit) (k + 1) ([a] ++ cs)
      ([.joins last (Scope.initialized ⟨k + 1⟩)] ++ L) (Scope.closed ⟨k + 1⟩) := by
    refine IsNode.append (.inr ⟨⟨k + 1, List.mem_cons_self .., .inr rfl⟩, ?_⟩) htie
    simp [(Scope.initialized_ne_closed _).symm]
  have hrest {n : String}
      (hn : IsNode (fun n => n = Scope.closed ⟨k + 1⟩ ∨ n = exit) (k + 1 + sizes [a]) cs L n) :
      IsNode (fun n => n = last ∨ n = exit) (k + 1) ([a] ++ cs)
        ([.joins last (Scope.initialized ⟨k + 1⟩)] ++ L) n := by
    rcases hn.prepend hfirst with (rfl | rfl) | hn
    · exact hnode
    · exact .inl (.inr rfl)
    · exact .inr hn
  refine ⟨List.forall_mem_cons.2 ⟨⟨?_, ?_, ?_⟩, ?_⟩, List.forall_mem_cons.2 ⟨?_, ?_⟩,
    List.forall_mem_cons.2 ⟨hnode, ?_⟩, ?_, ?_⟩
  · exact ne_of_owns hlast (Scope.owns_closed _) (by omega)
  · exact .inr (List.mem_cons_self ..)
  · exact .inl rfl
  · exact fun g hg => (h.drawn g hg).mono (List.subset_cons_self ..)
  · exact .inl (.inl rfl)
  · exact fun g hg => hrest (h.entry g hg)
  · exact fun g hg => hrest (h.exit g hg)
  · exact h.steps
  · rw [numbered, hsize, h.inside]
    rfl

section chain

variable {as : List Activity} (hne : as ≠ []) {i i' k : Nat} {last exit : String} (hi : i ≤ k)
  (hi' : i' ≤ k) (hlast : Scope.Owns ⟨i⟩ last) (hexit : Scope.Owns ⟨i'⟩ exit) (hends : last ≠ exit)
include hne hi hi' hlast hexit hends

/-- The lines of a chain are paved by its edges. -/
theorem paved_chainLines : Paved (fun n => n = last ∨ n = exit) (k + 1) as
    (chainLines last k as ++ [.joins exit (chainEnd last k as)]) (chainEdges exit last k as) := by
  induction as generalizing i k last with
  | nil => exact absurd rfl hne
  | cons a as ih =>
    cases as with
    | nil =>
      refine ⟨List.forall_mem_singleton.2 ⟨hends, .inr ?_, .inr ?_⟩, ?_, ?_, .nil, rfl⟩
      · exact List.mem_cons_self ..
      · exact List.mem_cons_of_mem _ (List.mem_cons_self ..)
      · exact List.forall_mem_singleton.2 (.inl (.inl rfl))
      · exact List.forall_mem_singleton.2 (.inl (.inr rfl))
    | cons b as =>
      have hclosed := Scope.owns_closed ⟨k + 1⟩
      have hpos := a.size_pos
      refine paved_link hi hlast ?_ ?_
      · rw [Nat.add_right_comm]
        exact ih (List.cons_ne_nil b as) (by omega) (by omega) hclosed
          (ne_of_owns hclosed hexit (by omega))
      · rw [Nat.add_right_comm]
        exact tying_chainLines (List.cons_ne_nil b as) (by omega) (by omega) hclosed hexit

/-- The edges of a chain lead from its start to its end. -/
theorem route_chainEdges : Route (chainEdges exit last k as) last exit := by
  induction as generalizing i k last with
  | nil => exact absurd rfl hne
  | cons a as ih =>
    cases as with
    | nil => exact .single _ hends
    | cons b as =>
      have hclosed := Scope.owns_closed ⟨k + 1⟩
      have hpos := a.size_pos
      refine (Route.single (.inside a (k + 1)) (ne_of_owns hlast hclosed (by omega))).series ?_
        (List.forall_mem_singleton.2 hends)
      exact ih (List.cons_ne_nil b as) (by omega) (by omega) hclosed
        (ne_of_owns hclosed hexit (by omega))

end chain

end Activity

end OpenWorkflow
