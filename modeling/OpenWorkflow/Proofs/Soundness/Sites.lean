import OpenWorkflow.Proofs.Drawing.Routes

/-!
# Where a fragment stands in a drawing

What a drawing says about the numbers of an activity is drawn by the activity
itself, apart from joins to its two ends (`Sited`). This holds of every activity
inside as well (`Sited.part`). So a node of the graph of a fragment is joined to
no name before it, unless it is an end of the fragment (`Sited.free_of_isNode`).
-/

namespace OpenWorkflow

open Activity (sizes starts numbered)

/-! ## Numbers of a drawing -/

/-- The line puts the transition down or draws an arc at it. -/
@[simp] def Line.Concerns (t : String) : Line → Prop
  | .transition t' _ => t' = t
  | .arc _ _ t' => t' = t
  | _ => False

namespace Activity

variable {a : Activity} {k : Nat} {l : Line} {t n m : String}

theorem owns_of_concerns (h : l ∈ a.lines k) (ht : l.Concerns t) : Scope.Owns ⟨k⟩ t := by
  cases l with
  | transition t' kind => exact ht ▸ owns_of_transition h
  | arc flow n t' => exact ht ▸ owns_of_arc h
  | _ => exact ht.elim

/-- The transitions of a drawing have its numbers. -/
theorem within_of_concerns (h : l ∈ a.drawing k) (ht : l.Concerns t) : Within k a.size t := by
  obtain ⟨i, b, hb, hl⟩ := mem_drawing.1 h
  exact ⟨i, (List.getElem?_eq_some_iff.1 hb).1, owns_of_concerns hl ht⟩

/-- So do the places to which arcs lead, but for those of messages. -/
theorem within_of_arc_drawing {flow : ArcKind} (h : .arc flow n t ∈ a.drawing k)
    (hn : IsNumbered n) : Within k a.size n := by
  induction a using built_induction generalizing k with
  | h a ih =>
    rcases mem_drawing_iff.1 h with h | ⟨pre, c, post, hbuilt, h⟩
    · exact within_of_arc h hn
    · have hsize := size_of_split hbuilt
      exact (ih c (by simp [hbuilt]) h).mono (by omega) (by omega)

/-- Joins lead to higher numbers than that of the fragment. -/
theorem lt_of_joins_drawing (hblock : ∀ b ∈ a.walk, b.IsBlock) (h : .joins m n ∈ a.drawing k) :
    ∃ i, k < i ∧ Scope.Owns ⟨i⟩ n := by
  obtain ⟨i, b, j, -, -, hj, hend⟩ := exists_of_mem_ties hblock (mem_ties.2 ⟨m, h⟩)
  have hrange := bounds_of_mem_starts hj
  exact ⟨j, by omega, hend.owns⟩

/-- A number of the activity is its own, or one of an activity inside. -/
theorem within_iff : Within k a.size n ↔
    Scope.Owns ⟨k⟩ n ∨ ∃ b ∈ numbered (k + 1) a.built, Within b.2 b.1.size n := by
  have hparts (cs : List Activity) (k : Nat) :
      Within k (sizes cs) n ↔ ∃ b ∈ numbered k cs, Within b.2 b.1.size n := by
    induction cs generalizing k with
    | nil => simp [Within, numbered]
    | cons c cs ih =>
      simp only [numbered, List.mem_cons, exists_eq_or_imp, ← ih, sizes_cons]
      constructor
      · rintro ⟨i, hi, hown⟩
        rcases Nat.lt_or_ge i c.size with hlt | hge
        · exact .inl ⟨i, hlt, hown⟩
        · refine .inr ⟨i - c.size, by omega, ?_⟩
          rwa [Nat.add_assoc, Nat.add_sub_cancel' hge]
      · rintro (h | h)
        · exact h.mono (Nat.le_refl _) (by omega)
        · exact h.mono (by omega) (by omega)
  rw [← hparts, size_eq]
  constructor
  · rintro ⟨i, hi, hown⟩
    cases i with
    | zero => exact .inl hown
    | succ i => exact .inr ⟨i, by omega, by rwa [Nat.add_right_comm]⟩
  · rintro (h | h)
    · exact ⟨0, Nat.succ_pos _, h⟩
    · exact h.mono (by omega) (by omega)

/-- Activities inside that have a number in common are one and the same. -/
theorem eq_of_numbered {cs : List Activity} {b b' : Activity × Nat} (hb : b ∈ numbered k cs)
    (hb' : b' ∈ numbered k cs) (hlt : b.2 < b'.2 + b'.1.size) (hlt' : b'.2 < b.2 + b.1.size) :
    b = b' := by
  obtain ⟨pre, post, hcs, hnum⟩ := mem_numbered_iff.1 hb
  obtain ⟨pre', post', hcs', hnum'⟩ := mem_numbered_iff.1 hb'
  have hsizes (xs : List Activity) : sizes (xs.flatMap fun c => [c]) = sizes xs := by
    rw [List.flatMap_singleton']
  obtain ⟨rfl, heq, -⟩ := split_unique (fun c => [c]) hcs hcs'
    (by rw [hsizes, hsizes, sizes_cons, sizes_nil]; omega)
    (by rw [hsizes, hsizes, sizes_cons, sizes_nil]; omega)
  exact Prod.ext heq (hnum.trans hnum'.symm)

/-- A line about a name of an activity inside is drawn by that activity or by the fragment. -/
theorem mem_drawing_part {b : Activity × Nat} (hb : b ∈ numbered (k + 1) a.built)
    (hl : l ∈ a.drawing k) (hn : Within b.2 b.1.size n)
    (hwithin : ∀ c j, l ∈ drawing c j → Within j c.size n) :
    l ∈ a.lines k ∨ l ∈ b.1.drawing b.2 := by
  refine (mem_drawing_iff.1 hl).imp_right fun ⟨pre, c, post, hbuilt, hc⟩ => ?_
  have hmem : (c, k + 1 + sizes pre) ∈ numbered (k + 1) a.built :=
    mem_numbered_iff.2 ⟨pre, post, hbuilt, rfl⟩
  obtain ⟨hlt, hlt'⟩ := (hwithin _ _ hc).disjoint hn
  cases eq_of_numbered hmem hb hlt hlt'
  exact hc

end Activity

open Activity (within_iff eq_of_numbered mem_drawing_iff)

/-! ## Sites -/

/-- What the lines say about the numbers of the activity is drawn by the activity, apart from joins
to its two ends. -/
structure Sited (L : List Line) (a : Activity) (k : Nat) : Prop where
  sub : a.drawing k ⊆ L
  own : ∀ {l t}, l ∈ L → l.Concerns t → Within k a.size t → l ∈ a.drawing k
  joins : ∀ {m n}, .joins m n ∈ L → Within k a.size n →
    Scope.IsEnd ⟨k⟩ n ∨ .joins m n ∈ a.drawing k

namespace Sited

variable {L : List Line} {a : Activity} {k : Nat} (h : Sited L a k)
include h

/-- The lines about a transition with the number of the fragment are those of the fragment. -/
theorem mem_lines {l : Line} {t : String} (hl : l ∈ L) (hlt : l.Concerns t)
    (ht : Scope.Owns ⟨k⟩ t) : l ∈ a.lines k := by
  rcases mem_drawing_iff.1 (h.own hl hlt ⟨0, a.size_pos, ht⟩) with hl | ⟨pre, c, post, -, hl⟩
  · exact hl
  · have := (Activity.within_of_concerns hl hlt).bounds ht
    omega

theorem lines_subset : a.lines k ⊆ L := fun _ hl => h.sub (mem_drawing_iff.2 (.inl hl))

/-- An activity inside stands in the drawing in the same way. -/
theorem part (hblock : a.IsBlock) {b : Activity × Nat} (hb : b ∈ numbered (k + 1) a.built) :
    Sited L b.1 b.2 := by
  obtain ⟨pre, post, hbuilt, hnum⟩ := Activity.mem_numbered_iff.1 hb
  have hinside {n : String} (hn : Within b.2 b.1.size n) : Within k a.size n :=
    within_iff.2 (.inr ⟨b, hb, hn⟩)
  refine ⟨fun l hl => h.sub ?_, fun {l t} hl hlt ht => ?_, fun {m n} hl hn => ?_⟩
  · exact mem_drawing_iff.2 (.inr ⟨pre, b.1, post, hbuilt, hnum ▸ hl⟩)
  · refine (Activity.mem_drawing_part hb (h.own hl hlt (hinside ht)) ht
      fun c j hc => Activity.within_of_concerns hc hlt).resolve_left fun hl => ?_
    have := ht.bounds (Activity.owns_of_concerns hl hlt)
    omega
  · rcases h.joins hl (hinside hn) with hend | hl
    · have := hn.bounds hend.owns
      omega
    · refine (Activity.mem_drawing_part hb hl hn fun c j hc =>
        (Activity.within_of_joins_drawing hc).2).imp_left fun hl => ?_
      -- The fragment joins the ends of the activities in it.
      obtain ⟨-, j, hj, -, -, hend⟩ := (Activity.tying_lines hblock k).tie hl
      rw [← Activity.map_snd_numbered] at hj
      obtain ⟨b', hb', rfl⟩ := List.mem_map.1 hj
      obtain ⟨hlt, hlt'⟩ := hn.disjoint ⟨0, b'.1.size_pos, hend.owns⟩
      rw [eq_of_numbered hb hb' hlt hlt']
      exact hend

variable (hblock : ∀ b ∈ a.walk, b.IsBlock) {n : String}
include hblock

/-- A node is joined to no name before it, unless it is an end of the fragment. -/
theorem free_of_isNode (hn : a.Node k n) :
    Within k a.size n ∧ (Scope.IsEnd ⟨k⟩ n ∨ n ∉ ties L) := by
  rcases hn with hown | ⟨⟨j, hj, hend⟩, hfree⟩
  · refine ⟨⟨0, a.size_pos, hown⟩, ?_⟩
    by_contra hcon
    rw [not_or, not_not] at hcon
    obtain ⟨m, hm⟩ := mem_ties.1 hcon.2
    rcases h.joins hm ⟨0, a.size_pos, hown⟩ with hend | hl
    · exact hcon.1 hend
    · obtain ⟨i, hlt, hown'⟩ := Activity.lt_of_joins_drawing hblock hl
      have heq := hown.unique hown'
      injection heq with heq
      omega
  · rw [← Activity.map_snd_numbered] at hj
    obtain ⟨b, hb, rfl⟩ := List.mem_map.1 hj
    have hn : Within b.2 b.1.size n := ⟨0, b.1.size_pos, hend.owns⟩
    have hin : Within k a.size n := within_iff.2 (.inr ⟨b, hb, hn⟩)
    refine ⟨hin, .inr fun htied => ?_⟩
    obtain ⟨m, hm⟩ := mem_ties.1 htied
    have hl : .joins m n ∈ a.drawing k := by
      refine (h.joins hm hin).resolve_left fun hend' => ?_
      have heq := hend.owns.unique hend'.owns
      injection heq with heq
      have hrange := Activity.bounds_of_mem_starts (Activity.mem_starts_of_mem_numbered hb)
      omega
    rcases Activity.mem_drawing_part hb hl hn fun c j hc =>
      (Activity.within_of_joins_drawing hc).2 with hl | hl
    · exact hfree (mem_ties.2 ⟨m, hl⟩)
    · have hinner := (Activity.forall_mem_walk.1 hblock).2 b.1 (Activity.mem_of_mem_numbered hb)
      obtain ⟨i, hlt, hown⟩ := Activity.lt_of_joins_drawing hinner hl
      have heq := hend.owns.unique hown
      injection heq with heq
      omega

end Sited

/-- The whole drawing joins the ends of the activity to the boundary. -/
theorem sited_sheet (root : Activity) : Sited root.sheet root 1 := by
  refine ⟨fun l hl => ?_, fun {l t} hl hlt _ => ?_, fun {m n} hl _ => ?_⟩
  · simp [Activity.sheet, hl]
  · simp only [Activity.sheet, Activity.endLines, List.mem_cons, List.mem_append,
      List.not_mem_nil, or_false] at hl
    rcases hl with rfl | rfl | hl | rfl | rfl
    · exact hlt.elim
    · exact hlt.elim
    · exact hl
    · exact hlt.elim
    · exact hlt.elim
  · simp only [Activity.sheet, Activity.endLines, List.mem_cons, List.mem_append,
      List.not_mem_nil, Line.joins.injEq, reduceCtorEq, or_false] at hl
    rcases hl with ⟨-, rfl⟩ | ⟨-, rfl⟩ | hl
    · exact .inl (.inr rfl)
    · exact .inl (.inl rfl)
    · exact .inr hl

end OpenWorkflow
