import OpenWorkflow.Proofs.Drawing.Renaming

/-!
# Where joins reach

The joins that a fragment draws stay among the numbers of the fragment and of those inside
(`Activity.within_of_joins`). It is enough to see that a renaming which keeps these numbers keeps
the lines, so no other name can occur in them. Hence the drawing of an activity is closed: what
is joined to one of its names by its own lines and by lines that do not touch it is joined
to it by its own lines (`Joined.of_untouched`).
-/

namespace OpenWorkflow

open Activity (sizes)

/-- The name has one of the `n` numbers from `k` on. -/
def Within (k n : Nat) (x : String) : Prop := ∃ i < n, Scope.Owns ⟨k + i⟩ x

variable {k n : Nat} {x y : String}

/-- A numbered name is within the numbers if its number is. -/
theorem within_name_iff {j : Nat} : Within k n (Scope.name ⟨j⟩ x) ↔ k ≤ j ∧ j < k + n := by
  constructor
  · rintro ⟨i, hi, hown⟩
    have heq := (Scope.owns_name ⟨j⟩ x).unique hown
    injection heq with heq
    omega
  · rintro ⟨hk, hj⟩
    refine ⟨j - k, by omega, x, ?_⟩
    rw [Nat.add_sub_cancel' hk]

theorem Within.mono {k' n' : Nat} (h : Within k n x) (hk : k' ≤ k) (hn : k + n ≤ k' + n') :
    Within k' n' x := by
  obtain ⟨i, hi, hown⟩ := h
  refine ⟨k + i - k', by omega, ?_⟩
  rwa [Nat.add_sub_cancel' (by omega)]

theorem Within.bounds (h : Within k n x) {i : Nat} (hi : Scope.Owns ⟨i⟩ x) : k ≤ i ∧ i < k + n := by
  obtain ⟨j, hj, hown⟩ := h
  have heq := hi.unique hown
  injection heq with heq
  omega

/-- A name has one number. -/
theorem Within.disjoint {k' n' : Nat} (h : Within k n x) (h' : Within k' n' x) :
    k < k' + n' ∧ k' < k + n := by
  obtain ⟨i, hi, hown⟩ := h
  have := h'.bounds hown
  omega

/-- A net without names from a number on knows none of them. -/
theorem Within.not_knows {net : Net} (h : Within k n x)
    (hplaces : ∀ k x, net.scope ≤ k → net.find? (Scope.name ⟨k⟩ x) = none) (hk : net.scope ≤ k) :
    ¬ net.Knows x := by
  obtain ⟨i, -, y, rfl⟩ := h
  simp [Net.Knows, hplaces (k + i) y (by omega)]

/-- Renaming a numbered name keeps all other numbers. -/
theorem shifts_update (hx : IsNumbered x) (hout : ¬ Within k n x) :
    Shifts (fun m => if m = x then y else m) k k n := by
  intro i hi
  refine ⟨fun z => if_neg ?_, fun m _ => if_neg ?_⟩
  · rintro rfl
    exact hout ⟨i, hi, Scope.owns_name ..⟩
  · rintro rfl
    exact m.not_isNumbered_placeName _ hx

/-- The lines of parts are those of each of them. -/
theorem mem_numberedLines {α : Type} {lines : Nat → α → List Line} {built : α → List Activity}
    {xs : List α} {l : Line} :
    l ∈ numberedLines lines built k xs ↔ ∃ pre x post, xs = pre ++ x :: post ∧
      l ∈ lines (k + sizes (pre.flatMap built)) x := by
  induction xs generalizing k with
  | nil => simp [numberedLines]
  | cons x xs ih =>
    have hnumber (pre : List α) : k + sizes ((x :: pre).flatMap built)
        = k + sizes (built x) + sizes (pre.flatMap built) := by
      rw [List.flatMap_cons, Activity.sizes_append, Nat.add_assoc]
    rw [numberedLines, List.mem_append, ih]
    constructor
    · rintro (hl | ⟨pre, y, post, rfl, hl⟩)
      · exact ⟨[], x, xs, rfl, hl⟩
      · exact ⟨x :: pre, y, post, rfl, hnumber pre ▸ hl⟩
    · rintro ⟨pre, y, post, heq, hl⟩
      cases pre with
      | nil =>
        obtain ⟨rfl, rfl⟩ := List.cons.inj heq
        exact .inl hl
      | cons x' pre =>
        obtain ⟨rfl, rfl⟩ := List.cons.inj heq
        exact .inr ⟨pre, y, post, rfl, hnumber pre ▸ hl⟩

/-- Of two parts that have a number in common, one stands where the other does. -/
theorem split_unique {α : Type} (built : α → List Activity) {xs pre pre' post post' : List α}
    {y y' : α} (h : xs = pre ++ y :: post) (h' : xs = pre' ++ y' :: post')
    (hlt : sizes (pre.flatMap built) < sizes (pre'.flatMap built) + sizes (built y'))
    (hlt' : sizes (pre'.flatMap built) < sizes (pre.flatMap built) + sizes (built y)) :
    pre = pre' ∧ y = y' ∧ post = post' := by
  rw [h, List.append_eq_append_iff] at h'
  rcases h' with ⟨mid, rfl, hmid⟩ | ⟨mid, rfl, hmid⟩
  · cases mid with
    | nil => simpa using hmid
    | cons z mid =>
      obtain ⟨rfl, -⟩ := List.cons.inj hmid
      simp only [List.flatMap_append, List.flatMap_cons, Activity.sizes_append] at hlt'
      omega
  · cases mid with
    | nil => simpa [eq_comm] using hmid
    | cons z mid =>
      obtain ⟨rfl, -⟩ := List.cons.inj hmid
      simp only [List.flatMap_append, List.flatMap_cons, Activity.sizes_append] at hlt
      omega

namespace Activity

variable {a : Activity}

/-- A numbered name that is neither of the fragment nor of those inside can be renamed without
changing the lines. -/
theorem map_update_lines (hmessage : ∀ m, a ≠ .messaging m) (hx : IsNumbered x)
    (hout : ¬ Within k a.size x) :
    (a.lines k).map (Line.map fun m => if m = x then x ++ "'" else m) = a.lines k :=
  map_lines (shifts_update hx hout) fun m hm => absurd hm (hmessage m)

/-- A fragment joins names with its own number and those of the fragments inside. -/
theorem within_of_joins (h : .joins x y ∈ a.lines k) : Within k a.size x ∧ Within k a.size y := by
  have hmessage : ∀ m, a ≠ .messaging m := by
    rintro m rfl
    simp [lines, endLines, innerLines, messageLines] at h
  have hnumbered : IsNumbered x ∧ IsNumbered y :=
    (neat_lines hmessage k _ h).1.imp NumberedFrom.isNumbered NumberedFrom.isNumbered
  have hkept {n : String} (hn : IsNumbered n) (hout : ¬ Within k a.size n) : x ≠ n ∧ y ≠ n := by
    have hmap := map_update_lines hmessage hn hout
    have hsame := List.map_inj_left.1 (hmap.trans (List.map_id _).symm) _ h
    simp only [Line.map_joins, id_eq, Line.joins.injEq, ite_eq_right_iff] at hsame
    have hne : n ++ "'" ≠ n := by simp
    exact ⟨fun heq => hne (heq ▸ hsame.1 heq), fun heq => hne (heq ▸ hsame.2 heq)⟩
  constructor
  · by_contra hout
    exact (hkept hnumbered.1 hout).1 rfl
  · by_contra hout
    exact (hkept hnumbered.2 hout).2 rfl

/-- So do its arcs, but for those of messages. -/
theorem within_of_arc {flow : ArcKind} {t : String} (h : .arc flow x t ∈ a.lines k)
    (hx : IsNumbered x) : Within k a.size x := by
  have hown {y : String} (hy : Scope.Owns ⟨k⟩ y) : Within k a.size y := ⟨0, a.size_pos, hy⟩
  by_cases hm : ∃ m, a = .messaging m
  · obtain ⟨m, rfl⟩ := hm
    simp only [lines, innerLines, endLines, messageLines, List.cons_append, List.nil_append,
      List.mem_cons, Line.arc.injEq, List.not_mem_nil, or_false, false_or, reduceCtorEq] at h
    rcases h with ⟨-, rfl, -⟩ | ⟨-, rfl, -⟩ | ⟨-, rfl, -⟩
    · exact hown (Scope.owns_initialized _)
    · exact hown (Scope.owns_closed _)
    · exact absurd hx (m.not_isNumbered_placeName _)
  · by_contra hout
    have hmap := map_update_lines (fun m heq => hm ⟨m, heq⟩) hx hout
    have hsame := List.map_inj_left.1 (hmap.trans (List.map_id _).symm) _ h
    simp [Line.map_arc] at hsame

/-- The lines of the fragments in parts, part by part. -/
theorem draw_parts {α : Type} (built : α → List Activity) (k : Nat) (xs : List α) :
    draw k ((xs.flatMap built).flatMap walk)
      = numberedLines (fun k x => draw k ((built x).flatMap walk)) built k xs := by
  induction xs generalizing k with
  | nil => rfl
  | cons x xs ih =>
    rw [List.flatMap_cons, List.flatMap_append, draw_append, numberedLines, ← ih]
    rfl

/-- The lines of fragments behind one another are those of each of them. -/
theorem mem_draw_flatMap {cs : List Activity} {l : Line} :
    l ∈ draw k (cs.flatMap walk) ↔
      ∃ pre c post, cs = pre ++ c :: post ∧ l ∈ c.drawing (k + sizes pre) := by
  have hparts := draw_parts (fun c => [c]) k cs
  rw [List.flatMap_singleton'] at hparts
  rw [hparts, mem_numberedLines]
  simp [drawing]

/-- A line of a drawing is one of the fragment or of one that stands directly in it. -/
theorem mem_drawing_iff {l : Line} :
    l ∈ a.drawing k ↔ l ∈ a.lines k ∨
      ∃ pre c post, a.built = pre ++ c :: post ∧ l ∈ c.drawing (k + 1 + sizes pre) := by
  rw [drawing_eq, List.mem_append, mem_draw_flatMap]

theorem size_of_split {pre post : List Activity} {c : Activity} (h : a.built = pre ++ c :: post) :
    a.size = sizes pre + c.size + sizes post + 1 := by
  rw [size_eq a, h, sizes_append, sizes_cons]
  omega

/-- The joins of a drawing stay among its numbers. -/
theorem within_of_joins_drawing (h : .joins x y ∈ a.drawing k) :
    Within k a.size x ∧ Within k a.size y := by
  induction a using built_induction generalizing k with
  | h a ih =>
    rcases mem_drawing_iff.1 h with h | ⟨pre, c, post, hbuilt, h⟩
    · exact within_of_joins h
    · obtain ⟨hx, hy⟩ := ih c (by simp [hbuilt]) h
      have hsize := size_of_split hbuilt
      exact ⟨hx.mono (by omega) (by omega), hy.mono (by omega) (by omega)⟩

end Activity

/-! ## Joins from outside -/

namespace Joined

variable {L L' : List Line}

/-- More joins tie more names together. -/
theorem mono (h : Joined L x y) (hsub : ∀ a b, .joins a b ∈ L → .joins a b ∈ L') :
    Joined L' x y := by
  induction h with
  | rel a b hab => exact .of_mem (hsub a b hab)
  | refl a => exact .refl a
  | symm a b _ ih => exact ih.symm
  | trans a b c _ _ hab hbc => exact hab.trans hbc

/-- Lines that do not touch the names of some lines join no more of these names. -/
theorem of_untouched {P : String → Prop} (hL : ∀ a b, .joins a b ∈ L → P a ∧ P b)
    (hL' : ∀ a b, .joins a b ∈ L' → ¬ P a ∧ ¬ P b) (hx : P x) (h : Joined (L ++ L') x y) :
    Joined L x y := by
  refine (h.invariant (P := fun m => P m ∧ Joined L x m) fun a b hab => ?_).1 ⟨hx, .refl x⟩ |>.2
  rcases List.mem_append.1 hab with hab | hab
  · have hjoin : Joined L a b := .of_mem hab
    obtain ⟨hPa, hPb⟩ := hL a b hab
    exact ⟨fun ha => ⟨hPb, ha.2.trans hjoin⟩, fun hb => ⟨hPa, hb.2.trans hjoin.symm⟩⟩
  · obtain ⟨ha, hb⟩ := hL' a b hab
    exact iff_of_false (fun h => ha h.1) fun h => hb h.1

end Joined

end OpenWorkflow
