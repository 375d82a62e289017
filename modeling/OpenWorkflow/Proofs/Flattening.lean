import Mathlib.Data.List.Induction
import OpenWorkflow.Proofs.Drawing.Congruence
import OpenWorkflow.Proofs.Success

/-!
# Sequences in sequences

A sequence in a sequence does not show in the net: its children may as well stand
in the outer one. Likewise a sequence or a parallel of one activity is as good as
the activity (`compile_flattened`).

In all these cases one fragment is left out that has nothing but two ends, which
are joined to what comes before and behind. A renaming takes the ends there and
moves up the numbers behind the fragment (`Omits`). Another one makes room for
the number again (`Inserts`), and the two undo each other (`congruent_of_omits`).
-/

namespace OpenWorkflow

open Activity (chainEnd chainLines draw drawing_eq endLines map_chainLines map_drawing map_endLines
  mem_sheet sizes spliceLines walk walk_eq)

variable {f f' : String → String} {entry exit last last' : String} {k m n : Nat}

/-! ## One number less -/

/-- The renaming leaves out the number `m`, and the ends of its fragment become other places. -/
structure Omits (f : String → String) (m : Nat) (entry exit : String) : Prop where
  initialized : f (Scope.initialized ⟨m⟩) = entry
  closed : f (Scope.closed ⟨m⟩) = exit
  before : ∀ k < m, Renumbers f ⟨k⟩ ⟨k⟩
  behind : ∀ k ≥ m, Renumbers f ⟨k + 1⟩ ⟨k⟩

/-- The renaming makes room for the number `m`. -/
structure Inserts (f : String → String) (m : Nat) : Prop where
  before : ∀ k < m, Renumbers f ⟨k⟩ ⟨k⟩
  behind : ∀ k ≥ m, Renumbers f ⟨k⟩ ⟨k + 1⟩

theorem shifts_of_lt (h : ∀ k < m, Renumbers f ⟨k⟩ ⟨k⟩) (hm : k + n ≤ m) : Shifts f k k n :=
  fun i _ => h (k + i) (by omega)

theorem Renumbers.update {s s' t : Scope} (h : Renumbers f s s') (hne : s ≠ t) (x n : String) :
    Renumbers (Function.update f (t.name x) n) s s' where
  name y := by
    rw [Function.update_of_ne (fun heq => hne (Scope.name_inj.1 heq).1), h.name]
  message m hm := by
    rw [Function.update_of_ne (fun heq => m.not_isNumbered_placeName s ⟨t, x, heq⟩), h.message m hm]

/-- Some renaming omits a fragment and closes the gap. -/
theorem exists_omits (m : Nat) (entry exit : String) : ∃ f, Omits f m entry exit := by
  obtain ⟨f, hf⟩ := exists_renumbers fun k => if k < m then k else k - 1
  have hupdate {k k' : Nat} (hk : Renumbers f ⟨k⟩ ⟨k'⟩) (hne : k ≠ m) :
      Renumbers (Function.update (Function.update f (Scope.initialized ⟨m⟩) entry)
        (Scope.closed ⟨m⟩) exit) ⟨k⟩ ⟨k'⟩ :=
    (hk.update (fun heq => hne (Scope.mk.inj heq)) _ _).update
      (fun heq => hne (Scope.mk.inj heq)) _ _
  refine ⟨_, ?_, Function.update_self .., fun k hk => hupdate ?_ (by omega),
    fun k hk => hupdate ?_ (by omega)⟩
  · rw [Function.update_of_ne (Scope.initialized_ne_closed _), Function.update_self]
  · simpa [hk] using hf k
  · simpa [show ¬ k + 1 < m by omega] using hf (k + 1)

/-- Some renaming makes room for a fragment. -/
theorem exists_inserts (m : Nat) : ∃ f, Inserts f m := by
  obtain ⟨f, hf⟩ := exists_renumbers fun k => if k < m then k else k + 1
  refine ⟨f, fun k hk => ?_, fun k hk => ?_⟩
  · simpa [hk] using hf k
  · simpa [show ¬ k < m by omega] using hf k

namespace Omits

variable (h : Omits f m entry exit)
include h

theorem shifts_behind (hm : m ≤ k) : Shifts f (k + 1) k n := by
  intro i _
  rw [Nat.add_right_comm]
  exact h.behind (k + i) (by omega)

/-- All other numbers come back. -/
theorem returns (h' : Inserts f' m) (hk : k ≠ m) : Returns f f' ⟨k⟩ := by
  by_cases hlt : k < m
  · exact ⟨⟨k⟩, h.before k hlt, h'.before k hlt⟩
  · obtain ⟨j, rfl⟩ : ∃ j, k = j + 1 := ⟨k - 1, by omega⟩
    exact ⟨⟨j⟩, h.behind j (by omega), h'.behind j (by omega)⟩

end Omits

namespace Inserts

variable (h : Inserts f m)
include h

theorem shifts_behind (hm : m ≤ k) : Shifts f k (k + 1) n := by
  intro i _
  rw [Nat.add_right_comm]
  exact h.behind (k + i) (by omega)

/-- Every number comes back once there is room. -/
theorem returns (h' : Omits f' m entry exit) (s : Scope) : Returns f f' s := by
  by_cases hlt : s.id < m
  · exact ⟨s, h.before _ hlt, h'.before _ hlt⟩
  · exact ⟨⟨s.id + 1⟩, h.behind _ (by omega), h'.behind _ (by omega)⟩

end Inserts

theorem Returns.sameLabel {s : Scope} (h : Returns f f' s) (x : String) :
    SameLabel (s.name x) (f (s.name x)) := by
  obtain ⟨s', hto, -⟩ := h
  exact .inr ⟨s, s', x, rfl, hto.name x⟩

section Hollow

variable {root b : Activity} {i : Nat} (hb : root.walk[i]? = some b)
  (htransitions : drawnTransitions (b.lines (1 + i)) = []) (h : Omits f (1 + i) entry exit)
  (h' : Inserts f' (1 + i))
include hb htransitions h h'

/-- No transition has the number that is left out, so all of them come back. -/
theorem Omits.returns_of_transition {s : Scope} {x : String} {kind : NodeKind}
    (ht : .transition (s.name x) kind ∈ root.sheet) : Returns f f' s := by
  obtain ⟨j, c, y, hc, hl, heq⟩ := Activity.transition_numbered ht
  obtain ⟨rfl, -⟩ := Scope.name_inj.1 heq
  refine h.returns h' fun hij => ?_
  obtain rfl : i = j := by omega
  obtain rfl := Option.some.inj (hb.symm.trans hc)
  exact absurd (mem_drawnTransitions.2 ⟨kind, hl⟩) (htransitions ▸ List.not_mem_nil)

/-- What has the number are the two ends, and they come back to what they are joined with. -/
theorem Omits.restores (hplaces : b.places = []) (hu : ∀ c ∈ root.walk, c.Unmistakable)
    (hentry : Joined root.sheet (f' entry) (Scope.initialized ⟨1 + i⟩))
    (hexit : Joined root.sheet (f' exit) (Scope.closed ⟨1 + i⟩)) : Restores f f' root.sheet := by
  refine .of_returns hu (fun s x kind hline => ?_) (fun s m hx => ?_)
    fun s x kind => h.returns_of_transition hb htransitions h'
  · by_cases hs : s.id = 1 + i
    · obtain rfl : s = ⟨1 + i⟩ := congrArg Scope.mk hs
      have hx := Activity.place_mem_sheet hb hline
      rw [hplaces] at hx
      rcases List.mem_pair.1 hx with rfl | rfl
      · exact h.initialized ▸ hentry
      · exact h.closed ▸ hexit
    · rw [(h.returns h' hs).name]
      exact .refl _
  · have ht : .transition (s.name m.kind.label) m.kind.direction ∈ root.sheet :=
      hx.mem_sheet (by simp [Activity.messageLines])
    exact h.returns_of_transition hb htransitions h' ht

end Hollow

/-- A drawing with a fragment that has nothing but its ends is like the one without it. -/
theorem congruent_of_omits (entry exit : String) {root root' b : Activity} {i : Nat}
    (hb : root.walk[i]? = some b) (hm : m = 1 + i) (hplaces : b.places = [])
    (htransitions : drawnTransitions (b.lines m) = [])
    (hu : ∀ c ∈ root.walk, c.Unmistakable) (hu' : ∀ c ∈ root'.walk, c.Unmistakable)
    (hto : ∀ f, Omits f m entry exit → ∀ l ∈ root.sheet, Implied root'.sheet (l.map f))
    (hfrom : ∀ f, Inserts f m → (∀ l ∈ root'.sheet, Implied root.sheet (l.map f)) ∧
      Joined root.sheet (f entry) (Scope.initialized ⟨m⟩) ∧
      Joined root.sheet (f exit) (Scope.closed ⟨m⟩)) :
    Congruent root.sheet root'.sheet := by
  subst hm
  obtain ⟨f, hf⟩ := exists_omits (1 + i) entry exit
  obtain ⟨f', hf'⟩ := exists_inserts (1 + i)
  obtain ⟨hlines, hentry, hexit⟩ := hfrom f' hf'
  have hzero := hf.before 0 (by omega)
  have hzero' := hf'.before 0 (by omega)
  refine ⟨f, f', .of_lines (hto f hf) (fun t kind ht => ?_) hzero.initialized hzero.closed,
    .of_lines hlines (fun t kind ht => ?_) hzero'.initialized hzero'.closed,
    hf.restores hb htransitions hf' hplaces hu hentry hexit, .of_all_returns hu' (hf'.returns hf)⟩
  · obtain ⟨j, c, y, -, -, rfl⟩ := Activity.transition_numbered ht
    exact (hf.returns_of_transition hb htransitions hf' ht).sameLabel y
  · obtain ⟨j, c, y, -, -, rfl⟩ := Activity.transition_numbered ht
    exact (hf'.returns hf _).sameLabel y

/-! ## Chains with everything in them -/

/-- A chain is drawn one part after the other. -/
theorem chainLines_append (last : String) (k : Nat) (as bs : List Activity) :
    chainLines last k (as ++ bs)
      = chainLines last k as ++ chainLines (chainEnd last k as) (k + sizes as) bs := by
  induction as generalizing last k with
  | nil => rfl
  | cons a as ih => simp [chainLines, chainEnd, ih, Nat.add_assoc]

theorem chainEnd_append (last : String) (k : Nat) (as bs : List Activity) :
    chainEnd last k (as ++ bs) = chainEnd (chainEnd last k as) (k + sizes as) bs := by
  induction as generalizing last k with
  | nil => rfl
  | cons a as ih => simp [chainEnd, ih, Nat.add_assoc]

/-- Fragments behind one another with everything in them. -/
def chainDrawing (last : String) (k : Nat) (as : List Activity) : List Line :=
  chainLines last k as ++ draw (k + 1) (as.flatMap walk)

variable {as bs : List Activity} {l : Line}

theorem mem_chainDrawing_append :
    l ∈ chainDrawing last k (as ++ bs) ↔
      l ∈ chainDrawing last k as ∨ l ∈ chainDrawing (chainEnd last k as) (k + sizes as) bs := by
  have hlength : (as.flatMap walk).length = sizes as := rfl
  simp only [chainDrawing, chainLines_append, List.flatMap_append, Activity.draw_append, hlength,
    Nat.add_right_comm k 1, List.mem_append]
  tauto

theorem mem_chainDrawing_singleton {a : Activity} :
    l ∈ chainDrawing last k [a] ↔
      l = .joins last (Scope.initialized ⟨k + 1⟩) ∨ l ∈ a.drawing (k + 1) := by
  simp [chainDrawing, chainLines, Activity.drawing]

/-- A chain with everything in it, under other numbers. -/
theorem map_chainDrawing {k' : Nat} (hu : ∀ a ∈ as, ∀ b ∈ a.walk, b.Unmistakable)
    (hlast : f last = last') (h : Shifts f (k + 1) (k' + 1) (sizes as)) :
    (chainDrawing last k as).map (Line.map f) = chainDrawing last' k' as := by
  have hinside := Activity.map_draw (fun a ha _ _ hshift => map_drawing (hu a ha) hshift) h
  rw [chainDrawing, chainDrawing, List.map_append, (map_chainLines hlast h).1, hinside]

/-- A chain that is not empty ends at a place of its own. -/
theorem place_chainEnd_mem (hne : as ≠ []) :
    .place (chainEnd last k as) .internal ∈ chainDrawing last k as := by
  induction as using List.reverseRecOn with
  | nil => exact absurd rfl hne
  | append_singleton as a _ =>
    refine mem_chainDrawing_append.2 (.inr (mem_chainDrawing_singleton.2 (.inr ?_)))
    rw [chainEnd_append, drawing_eq]
    simp [chainEnd, Activity.lines, endLines]

/-- A chain does not end where it begins unless it is empty. -/
theorem chainEnd_congr (hne : as ≠ []) : chainEnd last k as = chainEnd last' k as := by
  cases as with
  | nil => exact absurd rfl hne
  | cons a as => rfl

/-- A chain may as well begin at another name that is joined with the first one. -/
theorem implied_chainDrawing {L : List Line} (hjoined : Joined L last last')
    (hsubset : chainDrawing last' k as ⊆ L) (hl : l ∈ chainDrawing last k as) : Implied L l := by
  cases as with
  | nil => exact .inl (hsubset hl)
  | cons a as =>
    rcases List.mem_append.1 hl with hl | hl
    · rcases List.mem_cons.1 hl with rfl | hl
      · exact implied_joins.2 (hjoined.trans (.of_mem (hsubset (List.mem_cons_self ..))))
      · exact .inl (hsubset (List.mem_append_left _ (List.mem_cons_of_mem _ hl)))
    · exact .inl (hsubset (List.mem_append_right _ hl))

theorem joined_chainEnd {L : List Line} (hjoined : Joined L last last') :
    Joined L (chainEnd last k as) (chainEnd last' k as) := by
  cases as with
  | nil => exact hjoined
  | cons a as => exact .refl _

/-! ## A sequence in a sequence -/

theorem built_sequence (hne : as ≠ []) : (Activity.sequence as).built = as := by
  cases as with
  | nil => exact absurd rfl hne
  | cons a as => rfl

/-- A sequence is drawn by its ends, its chain and the last join. -/
theorem mem_drawing_sequence (hne : as ≠ []) :
    l ∈ (Activity.sequence as).drawing k ↔
      l ∈ endLines ⟨k⟩ ∨ l ∈ chainDrawing (Scope.initialized ⟨k⟩) k as ∨
        l = .joins (Scope.closed ⟨k⟩) (chainEnd (Scope.initialized ⟨k⟩) k as) := by
  have hempty : as.isEmpty = false := List.isEmpty_eq_false_iff.2 hne
  simp only [drawing_eq, built_sequence hne, Activity.lines, Activity.innerLines,
    Activity.sequenceLines, hempty, Bool.false_eq_true, if_false, chainDrawing, List.mem_append,
    List.mem_singleton]
  tauto

section Nested

variable {L : List Line} {ys : List Activity} (hne : ys ≠ [])
  (hu : ∀ a ∈ ys, ∀ b ∈ a.walk, b.Unmistakable)
include hne hu

/-- The chain in a sequence takes the place of the sequence. -/
theorem Omits.implied_children (h : Omits f (k + 1) last (chainEnd last k ys))
    (hlast : f last = last) (hplace : .place last .internal ∈ L)
    (hsubset : chainDrawing last k ys ⊆ L) (hl : l ∈ chainDrawing last k [.sequence ys]) :
    Implied L (l.map f) := by
  have hshifts : Shifts f (k + 1 + 1) (k + 1) (sizes ys) := h.shifts_behind (Nat.le_refl _)
  rw [mem_chainDrawing_singleton, mem_drawing_sequence hne] at hl
  rcases hl with rfl | hl | hl | rfl
  · rw [Line.map_joins, hlast, h.initialized]
    exact implied_joins.2 (.refl _)
  · rcases List.mem_pair.1 hl with rfl | rfl
    · rw [Line.map_place, h.initialized]
      exact .inl hplace
    · rw [Line.map_place, h.closed]
      exact .inl (hsubset (place_chainEnd_mem hne))
  · exact .inl (hsubset (Line.map_mem (map_chainDrawing hu h.initialized hshifts) hl))
  · rw [Line.map_joins, h.closed, (map_chainLines h.initialized hshifts).2]
    exact implied_joins.2 (.refl _)

/-- The sequence stands around the chain again. -/
theorem Inserts.implied_sequence (h : Inserts f (k + 1)) (hlast : f last = last)
    (hsubset : chainDrawing last k [.sequence ys] ⊆ L) :
    (∀ l ∈ chainDrawing last k ys, Implied L (l.map f)) ∧
      Joined L (f last) (Scope.initialized ⟨k + 1⟩) ∧
      Joined L (f (chainEnd last k ys)) (Scope.closed ⟨k + 1⟩) := by
  have hshifts : Shifts f (k + 1) (k + 1 + 1) (sizes ys) := h.shifts_behind (Nat.le_refl _)
  have hmem {l : Line} (hl : l ∈ (Activity.sequence ys).drawing (k + 1)) : l ∈ L :=
    hsubset (mem_chainDrawing_singleton.2 (.inr hl))
  have hentry : Joined L last (Scope.initialized ⟨k + 1⟩) :=
    .of_mem (hsubset (mem_chainDrawing_singleton.2 (.inl rfl)))
  refine ⟨fun l hl => ?_, hlast.symm ▸ hentry, ?_⟩
  · have hchain : chainDrawing (Scope.initialized ⟨k + 1⟩) (k + 1) ys ⊆ L :=
      fun l hl => hmem ((mem_drawing_sequence hne).2 (.inr (.inl hl)))
    exact implied_chainDrawing hentry hchain (Line.map_mem (map_chainDrawing hu hlast hshifts) hl)
  · rw [(map_chainLines hlast hshifts).2, chainEnd_congr hne]
    exact .symm (.of_mem (hmem ((mem_drawing_sequence hne).2 (.inr (.inr rfl)))))

end Nested

section Middle

variable {xs zs : List Activity} (hlast : chainEnd (Scope.initialized ⟨1⟩) 1 xs = last)
include hlast

/-- A renaming that keeps the numbers of the first children keeps where they end. -/
theorem map_last (hone : Renumbers f ⟨1⟩ ⟨1⟩) (hfirst : Shifts f 2 2 (sizes xs)) :
    f last = last := by
  rw [← hlast]
  exact (map_chainLines hone.initialized hfirst).2

variable (hk : 1 + sizes xs = k)
include hk

/-- The whole drawing of a sequence: the boundary, the first children, some more and the rest. -/
theorem mem_sheet_sequence (hne : as ≠ []) :
    l ∈ (Activity.sequence (xs ++ (as ++ zs))).sheet ↔
      l ∈ spliceLines (Scope.initialized ⟨0⟩) (Scope.closed ⟨0⟩) ⟨1⟩
          ++ endLines ⟨0⟩ ++ endLines ⟨1⟩ ∨
        l ∈ chainDrawing (Scope.initialized ⟨1⟩) 1 xs ∨ l ∈ chainDrawing last k as ∨
          l ∈ chainDrawing (chainEnd last k as) (k + sizes as) zs ∨
            l = .joins (Scope.closed ⟨1⟩) (chainEnd (chainEnd last k as) (k + sizes as) zs) := by
  rw [mem_sheet, mem_drawing_sequence (by simp [hne]), mem_chainDrawing_append,
    mem_chainDrawing_append, chainEnd_append, chainEnd_append, hlast, hk, List.mem_append,
    List.mem_append]
  tauto

/-- Where the first children end is a place. -/
theorem place_mem_sheet_sequence (hne : as ≠ []) :
    .place last .internal ∈ (Activity.sequence (xs ++ (as ++ zs))).sheet := by
  rw [mem_sheet_sequence hlast hk hne, ← hlast]
  by_cases hnil : xs = []
  · exact .inl (by simp [hnil, chainEnd, endLines])
  · exact .inr (.inl (place_chainEnd_mem hnil))

/-- If some children of a sequence are carried over to others, so is the sequence. -/
theorem implied_sheet_sequence (hzero : Renumbers f ⟨0⟩ ⟨0⟩) (hone : Renumbers f ⟨1⟩ ⟨1⟩)
    (hfirst : Shifts f 2 2 (sizes xs)) (hxs : ∀ a ∈ xs, ∀ b ∈ a.walk, b.Unmistakable)
    (hzs : ∀ a ∈ zs, ∀ b ∈ a.walk, b.Unmistakable) (has : as ≠ []) (hbs : bs ≠ [])
    (hbehind : Shifts f (k + sizes as + 1) (k + sizes bs + 1) (sizes zs))
    (hmiddle : ∀ l ∈ chainDrawing last k as,
      Implied (Activity.sequence (xs ++ (bs ++ zs))).sheet (l.map f))
    (hend : Joined (Activity.sequence (xs ++ (bs ++ zs))).sheet (f (chainEnd last k as))
      (chainEnd last k bs))
    (hl : l ∈ (Activity.sequence (xs ++ (as ++ zs))).sheet) :
    Implied (Activity.sequence (xs ++ (bs ++ zs))).sheet (l.map f) := by
  rw [mem_sheet_sequence hlast hk has] at hl
  rcases hl with hl | hl | hl | hl | rfl
  · refine .inl ((mem_sheet_sequence hlast hk hbs).2 (.inl (Line.map_mem ?_ hl)))
    rw [List.map_append, List.map_append, map_endLines hzero, map_endLines hone,
      Activity.map_spliceLines hone hzero.initialized hzero.closed]
  · refine .inl ((mem_sheet_sequence hlast hk hbs).2 (.inr (.inl (Line.map_mem ?_ hl))))
    exact map_chainDrawing hxs hone.initialized hfirst
  · exact hmiddle l hl
  · refine implied_chainDrawing hend (fun l hl => ?_)
      (Line.map_mem (map_chainDrawing hzs rfl hbehind) hl)
    exact (mem_sheet_sequence hlast hk hbs).2 (.inr (.inr (.inr (.inl hl))))
  · rw [Line.map_joins, hone.closed, (map_chainLines rfl hbehind).2, implied_joins]
    refine .trans (.of_mem ?_) (joined_chainEnd hend).symm
    exact (mem_sheet_sequence hlast hk hbs).2 (.inr (.inr (.inr (.inr rfl))))

end Middle

/-- A sequence in a sequence does not show in the drawing. -/
theorem congruent_nested {xs ys zs : List Activity} (hne : ys ≠ [])
    (hu : ∀ b ∈ (Activity.sequence (xs ++ ([.sequence ys] ++ zs))).walk, b.Unmistakable)
    (hu' : ∀ b ∈ (Activity.sequence (xs ++ (ys ++ zs))).walk, b.Unmistakable) :
    Congruent (Activity.sequence (xs ++ ([.sequence ys] ++ zs))).sheet
      (Activity.sequence (xs ++ (ys ++ zs))).sheet := by
  obtain ⟨last, hlast⟩ : ∃ last, chainEnd (Scope.initialized ⟨1⟩) 1 xs = last := ⟨_, rfl⟩
  obtain ⟨k, hk⟩ : ∃ k, 1 + sizes xs = k := ⟨_, rfl⟩
  have hinside := (Activity.forall_mem_walk.1 hu').2
  rw [built_sequence (by simp [hne])] at hinside
  have hxs : ∀ a ∈ xs, ∀ b ∈ a.walk, b.Unmistakable := fun a ha => hinside a (by simp [ha])
  have hys : ∀ a ∈ ys, ∀ b ∈ a.walk, b.Unmistakable := fun a ha => hinside a (by simp [ha])
  have hzs : ∀ a ∈ zs, ∀ b ∈ a.walk, b.Unmistakable := fun a ha => hinside a (by simp [ha])
  have hsizes : sizes [.sequence ys] = sizes ys + 1 := by
    rw [Activity.sizes_cons, Activity.size_eq, built_sequence hne, Activity.sizes_nil]
  have hwalk : (Activity.sequence (xs ++ ([.sequence ys] ++ zs))).walk[k]?
      = some (.sequence ys) := by
    rw [walk_eq, built_sequence (by simp), ← hk, Nat.add_comm, List.getElem?_cons_succ,
      List.flatMap_append, sizes, List.getElem?_append_right (Nat.le_refl _), Nat.sub_self,
      List.singleton_append, List.flatMap_cons, walk_eq]
    rfl
  have hnone : drawnTransitions ((Activity.sequence ys).lines (k + 1)) = [] := by
    simp [Activity.lines, Activity.innerLines, endLines, Activity.drawnTransitions_sequenceLines]
  refine congruent_of_omits last (chainEnd last k ys) hwalk (Nat.add_comm k 1) rfl hnone hu hu'
    (fun f hf l => ?_) (fun f hf => ?_)
  · have hzero := hf.before 0 (by omega)
    have hone := hf.before 1 (by omega)
    have hfirst : Shifts f 2 2 (sizes xs) := shifts_of_lt hf.before (by omega)
    refine implied_sheet_sequence hlast hk hzero hone hfirst hxs hzs (by simp) hne ?_ ?_ ?_
    · rw [hsizes]
      exact hf.shifts_behind (by omega)
    · intro l hl
      refine hf.implied_children hne hys (map_last hlast hone hfirst)
        (place_mem_sheet_sequence hlast hk hne) ?_ hl
      exact fun l hl => (mem_sheet_sequence hlast hk hne).2 (.inr (.inr (.inl hl)))
    · exact hf.closed ▸ .refl _
  · have hzero := hf.before 0 (by omega)
    have hone := hf.before 1 (by omega)
    have hfirst : Shifts f 2 2 (sizes xs) := shifts_of_lt hf.before (by omega)
    obtain ⟨hmiddle, hentry, hexit⟩ := hf.implied_sequence hne hys (map_last hlast hone hfirst)
      fun l hl => (mem_sheet_sequence hlast hk (by simp)).2 (.inr (.inr (.inl hl)))
    refine ⟨fun l => ?_, hentry, hexit⟩
    refine implied_sheet_sequence hlast hk hzero hone hfirst hxs hzs hne (by simp) ?_ hmiddle hexit
    rw [hsizes]
    exact hf.shifts_behind (by omega)

/-! ## One activity alone -/

section Wrapped

variable {a t : Activity} (hbuilt : a.built = [t])
  (hlines : a.lines 1
    = endLines ⟨1⟩ ++ spliceLines (Scope.initialized ⟨1⟩) (Scope.closed ⟨1⟩) ⟨2⟩)
include hbuilt hlines

theorem mem_sheet_wrapped :
    l ∈ a.sheet ↔
      l ∈ spliceLines (Scope.initialized ⟨0⟩) (Scope.closed ⟨0⟩) ⟨1⟩ ∨ l ∈ endLines ⟨0⟩ ∨
        l ∈ endLines ⟨1⟩ ∨ l ∈ spliceLines (Scope.initialized ⟨1⟩) (Scope.closed ⟨1⟩) ⟨2⟩ ∨
          l ∈ t.drawing 2 := by
  rw [mem_sheet, drawing_eq, hlines, hbuilt, List.flatMap_singleton,
    List.mem_append, List.mem_append, or_assoc]
  rfl

variable (ht : ∀ b ∈ t.walk, b.Unmistakable)
include ht

/-- The ends of the outer fragment fall on the boundary. -/
theorem Omits.implied_wrapped (h : Omits f 1 (Scope.initialized ⟨0⟩) (Scope.closed ⟨0⟩))
    (hl : l ∈ a.sheet) : Implied t.sheet (l.map f) := by
  have hzero := h.before 0 Nat.one_pos
  have hshifts : Shifts f 2 1 t.size := h.shifts_behind (Nat.le_refl 1)
  rw [mem_sheet_wrapped hbuilt hlines] at hl
  rcases hl with hl | hl | hl | hl | hl
  · rcases List.mem_pair.1 hl with rfl | rfl
    · rw [Line.map_joins, hzero.initialized, h.initialized, implied_joins]
      exact .refl _
    · rw [Line.map_joins, hzero.closed, h.closed, implied_joins]
      exact .refl _
  · refine .inl (mem_sheet.2 (.inr (.inl (Line.map_mem ?_ hl))))
    exact map_endLines hzero
  · refine .inl (mem_sheet.2 (.inr (.inl (Line.map_mem ?_ hl))))
    simp [endLines, h.initialized, h.closed]
  · refine .inl (mem_sheet.2 (.inl (Line.map_mem ?_ hl)))
    exact Activity.map_spliceLines (h.behind 1 (Nat.le_refl 1)) h.initialized h.closed
  · refine .inl (mem_sheet.2 (.inr (.inr (Line.map_mem ?_ hl))))
    exact map_drawing ht hshifts

/-- The outer fragment stands between the boundary and the inner one again. -/
theorem Inserts.implied_wrapped (h : Inserts f 1) :
    (∀ l ∈ t.sheet, Implied a.sheet (l.map f)) ∧
      Joined a.sheet (f (Scope.initialized ⟨0⟩)) (Scope.initialized ⟨1⟩) ∧
      Joined a.sheet (f (Scope.closed ⟨0⟩)) (Scope.closed ⟨1⟩) := by
  have hzero := h.before 0 Nat.one_pos
  have hone := h.behind 1 (Nat.le_refl 1)
  have hshifts : Shifts f 1 2 t.size := h.shifts_behind (Nat.le_refl 1)
  have hmem {l : Line} := (mem_sheet_wrapped (l := l) hbuilt hlines).2
  have hentry : Joined a.sheet (Scope.initialized ⟨0⟩) (Scope.initialized ⟨1⟩) :=
    .of_mem (hmem (.inl (by simp [spliceLines])))
  have hexit : Joined a.sheet (Scope.closed ⟨0⟩) (Scope.closed ⟨1⟩) :=
    .of_mem (hmem (.inl (by simp [spliceLines])))
  refine ⟨fun l hl => ?_, hzero.initialized.symm ▸ hentry, hzero.closed.symm ▸ hexit⟩
  rcases mem_sheet.1 hl with hl | hl | hl
  · rcases List.mem_pair.1 hl with rfl | rfl
    · rw [Line.map_joins, hzero.initialized, hone.initialized, implied_joins]
      exact hentry.trans (.of_mem (hmem (.inr (.inr (.inr (.inl (by simp [spliceLines])))))))
    · rw [Line.map_joins, hzero.closed, hone.closed, implied_joins]
      exact hexit.trans (.of_mem (hmem (.inr (.inr (.inr (.inl (by simp [spliceLines])))))))
  · exact .inl (hmem (.inr (.inl (Line.map_mem (map_endLines hzero) hl))))
  · refine .inl (hmem (.inr (.inr (.inr (.inr (Line.map_mem ?_ hl))))))
    exact map_drawing ht hshifts

omit ht in
/-- An activity around another one that only ties it in does not show in the drawing. -/
theorem congruent_wrapped (hplaces : a.places = []) (hu : ∀ b ∈ a.walk, b.Unmistakable) :
    Congruent a.sheet t.sheet := by
  have ht : ∀ b ∈ t.walk, b.Unmistakable :=
    (Activity.forall_mem_walk.1 hu).2 t (hbuilt ▸ List.mem_singleton_self t)
  have hwalk : a.walk[0]? = some a := by
    rw [walk_eq, List.getElem?_cons_zero]
  have hnone : drawnTransitions (a.lines 1) = [] := by
    rw [hlines]
    rfl
  exact congruent_of_omits (Scope.initialized ⟨0⟩) (Scope.closed ⟨0⟩) hwalk rfl hplaces hnone hu ht
    (fun f hf l => hf.implied_wrapped hbuilt hlines ht)
    (fun f hf => hf.implied_wrapped hbuilt hlines ht)

end Wrapped

/-! ## Nets -/

/-- The second activity is the first one without a sequence in it or a sequence or parallel around
it that does nothing. -/
inductive Activity.Flattens : Activity → Activity → Prop where
  | nested (xs zs : List Activity) {ys : List Activity} : ys ≠ [] →
    Flattens (.sequence (xs ++ [.sequence ys] ++ zs)) (.sequence (xs ++ ys ++ zs))
  | child (t : Activity) : Flattens (.sequence [t]) t
  | branch (t : Activity) : Flattens (.parallel [t]) t

theorem Activity.Flattens.forall_mem_walk_iff {a b : Activity} (h : a.Flattens b)
    {P : Activity → Prop} (hsequence : ∀ as, P (.sequence as))
    (hparallel : ∀ as, P (.parallel as)) :
    (∀ c ∈ a.walk, P c) ↔ ∀ c ∈ b.walk, P c := by
  cases h with
  | @nested xs zs ys hne =>
    have hinner : (∀ b ∈ (Activity.sequence ys).walk, P b) ↔ ∀ c ∈ ys, ∀ b ∈ c.walk, P b := by
      rw [forall_mem_walk, built_sequence hne, and_iff_right (hsequence ys)]
    rw [forall_mem_walk, forall_mem_walk, built_sequence (by simp), built_sequence (by simp [hne]),
      and_iff_right (hsequence _), and_iff_right (hsequence _)]
    simp only [List.forall_mem_append, List.forall_mem_singleton, hinner]
  | child t =>
    rw [forall_mem_walk, and_iff_right (hsequence _)]
    exact List.forall_mem_singleton
  | branch t =>
    rw [forall_mem_walk, and_iff_right (hparallel _)]
    exact List.forall_mem_singleton

/-- Flattening changes nothing about there being a net. -/
theorem Activity.Flattens.compile_ok_iff {a b : Activity} (h : a.Flattens b) :
    (∃ net, compile a = .ok net) ↔ ∃ net, compile b = .ok net := by
  rw [OpenWorkflow.compile_ok_iff, OpenWorkflow.compile_ok_iff, Fine, Fine, h.forall_mem_walk_iff,
    h.forall_mem_walk_iff]
  all_goals simp [Anchored, linkNames, Unambiguous, places]

/-- **Sequences in sequences flatten.** If the one or the other has a net, then both have, and the
nets are isomorphic. The same goes for a sequence or a parallel of one activity and the activity.
No message may be named like a reply, since replies are named after the numbers. -/
theorem compile_flattened {a b : Activity} (h : a.Flattens b)
    (hu : a.Throughout Activity.Unmistakable)
    (hok : (∃ net, compile a = .ok net) ∨ ∃ net, compile b = .ok net) :
    ∃ net net', compile a = .ok net ∧ compile b = .ok net' ∧ net.Isomorphic net' := by
  have hwalk : ∀ c ∈ a.walk, c.Unmistakable := hu.walk (by simp [Activity.Unmistakable])
  have hwalk' : ∀ c ∈ b.walk, c.Unmistakable :=
    (h.forall_mem_walk_iff (by simp [Activity.Unmistakable]) (by simp [Activity.Unmistakable])).1
      hwalk
  obtain ⟨⟨net, hok⟩, net', hok'⟩ :
      (∃ net, compile a = .ok net) ∧ ∃ net, compile b = .ok net := by
    rcases hok with hok | hok
    · exact ⟨hok, h.compile_ok_iff.1 hok⟩
    · exact ⟨h.compile_ok_iff.2 hok, hok⟩
  refine ⟨net, net', hok, hok', compile_isomorphic ?_ hok hok'⟩
  cases h with
  | nested xs zs hne =>
    rw [List.append_assoc] at hwalk hwalk' ⊢
    rw [List.append_assoc]
    exact congruent_nested hne hwalk hwalk'
  | child t => exact congruent_wrapped rfl rfl rfl hwalk
  | branch t => exact congruent_wrapped rfl rfl rfl hwalk

/-- A request and its answer in a sequence of their own, between two steps. -/
theorem compile_flattened_exchange :
    ∃ net net', compile (.sequence ([.empty] ++ [.sequence [.messaging ⟨.receive, "Bank", "open"⟩,
        .messaging ⟨.sendReply, "", ""⟩]] ++ [.empty])) = .ok net ∧
      compile (.sequence ([.empty] ++ [.messaging ⟨.receive, "Bank", "open"⟩,
        .messaging ⟨.sendReply, "", ""⟩] ++ [.empty])) = .ok net' ∧
      net.Isomorphic net' := by
  refine compile_flattened (.nested _ _ (by simp)) ?_ (.inl (exists_of_isOk (by decide +kernel)))
  have hempty : Activity.empty.Throughout Activity.Unmistakable :=
    .leaf (by simp [Activity.Unmistakable]) rfl
  refine ⟨by simp [Activity.Unmistakable], fun c hc => ?_⟩
  obtain rfl | rfl | rfl := by simpa [Activity.parts] using hc
  · exact hempty
  · refine ⟨by simp [Activity.Unmistakable], fun c hc => ?_⟩
    obtain rfl | rfl := by simpa [Activity.parts] using hc
    · exact .leaf (by simp [Activity.Unmistakable, Messaging.Unmistakable]) rfl
    · exact .leaf (by simp [Activity.Unmistakable, Messaging.Unmistakable, MessageKind.isReply]) rfl
  · exact hempty

end OpenWorkflow
