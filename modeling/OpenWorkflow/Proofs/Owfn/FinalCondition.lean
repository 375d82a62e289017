import OpenWorkflow.Proofs.Net.Calls
import OpenWorkflow.Proofs.Owfn.Sources

/-!
# Final sets without places

A final set is added only if it holds a place. Merges redirect its places and never lose one, but
`remove` takes its place out of every final set and leaves the set behind, also when nothing is
left in it. Such a set is a vacuous alternative of the final condition, and it is written as a
pair of parentheses with nothing between them, which is no text of the format.

Main statement (`finalCondition_run`): after any run the final sets all hold a place exactly if no
call took the only place of one of them out, and a net with names of the format is read back from
its text exactly if they do.
-/

namespace OpenWorkflow

variable {withPorts : Bool} {net' : Net}

namespace OrderedSet

variable {α : Type}

theorem isEmpty_eq_true_iff {s : OrderedSet α} : s.isEmpty = true ↔ ∀ a, a ∉ s := by
  unfold isEmpty
  rw [List.isEmpty_iff]
  exact List.eq_nil_iff_forall_not_mem

/-- A set loses its last member exactly if it had only this one. -/
theorem isEmpty_erase_iff [DecidableEq α] {s : OrderedSet α} {a : α} :
    (s.erase a).isEmpty = true ↔ s.isEmpty = true ∨ s = singleton a := by
  rw [isEmpty_eq_true_iff, isEmpty_eq_true_iff]
  constructor
  · intro h
    by_cases ha : a ∈ s
    · right
      have honly : ∀ b ∈ s.toList, b = a := by
        intro b hb
        by_contra hne
        exact h b (mem_erase.2 ⟨hb, hne⟩)
      apply OrderedSet.ext
      rw [toList_singleton]
      obtain ⟨n, hn⟩ : ∃ n, s.toList = List.replicate n a := ⟨_, List.eq_replicate_of_mem honly⟩
      have hnodup := s.nodup
      rw [hn, List.nodup_replicate] at hnodup
      have hpos : n ≠ 0 := by
        rintro rfl
        rw [mem_def, hn] at ha
        cases ha
      have hone : n = 1 := by omega
      rw [hn, hone]
      rfl
    · left
      intro b hb
      refine h b (mem_erase.2 ⟨hb, ?_⟩)
      rintro rfl
      exact ha hb
  · rintro (h | rfl) b hb
    · exact h b (mem_erase.1 hb).1
    · obtain ⟨hb, hne⟩ := mem_erase.1 hb
      exact hne (List.mem_singleton.1 hb)

end OrderedSet

/-! ## What a call does to the final sets -/

/-- The call takes out the only place of some final set. -/
def Call.Empties (call : Call) (net : Net) : Prop :=
  ∃ ref id, call = .remove ref ∧ net.resolve? ref = some id
    ∧ OrderedSet.singleton id ∈ net.finalSets

namespace Net

variable {net : Net}

/-- Every final set holds a place. -/
def FinalsFilled (net : Net) : Prop := ∀ set ∈ net.finalSets, set.isEmpty = false

instance (net : Net) : Decidable net.FinalsFilled :=
  inferInstanceAs (Decidable (∀ set ∈ net.finalSets, set.isEmpty = false))

/-- The final sets of one net come from those of another: each has become a set that is empty
only if it was, and sets with a place have been added. -/
def FinalsKept (net net' : Net) : Prop :=
  ∃ (f : OrderedSet PlaceId → OrderedSet PlaceId) (added : List (OrderedSet PlaceId)),
    (∀ set, (f set).isEmpty = set.isEmpty) ∧ (∀ set ∈ added, set.isEmpty = false)
      ∧ net'.finalSets = net.finalSets.map f ++ added

theorem FinalsKept.of_eq (h : net'.finalSets = net.finalSets) : net.FinalsKept net' :=
  ⟨id, [], fun _ => rfl, by simp, by rw [h, List.map_id, List.append_nil]⟩

/-- Where final sets are kept, they stay filled or empty. -/
theorem FinalsKept.filled_iff (h : net.FinalsKept net') : net'.FinalsFilled ↔ net.FinalsFilled := by
  obtain ⟨f, added, hf, hadded, hsets⟩ := h
  unfold FinalsFilled
  rw [hsets]
  constructor
  · intro hfilled set hset
    rw [← hf set]
    exact hfilled (f set) (List.mem_append_left _ (List.mem_map_of_mem hset))
  · intro hfilled set hset
    rcases List.mem_append.1 hset with hset | hset
    · obtain ⟨set₀, hset₀, rfl⟩ := List.mem_map.1 hset
      rw [hf]
      exact hfilled set₀ hset₀
    · exact hadded set hset

/-- A merge redirects the places of a set, and something is left of them. -/
theorem Mergeable.finalsKept {a b : PlaceId} {kind : NodeKind} {first second : Place}
    (h : net.Mergeable a b kind first second) :
    net.FinalsKept (net.unify kind a b first second) := by
  refine ⟨_, [], fun set => ?_, by simp, by rw [h.finalSets_unify, List.append_nil]⟩
  rw [Bool.eq_iff_iff, OrderedSet.isEmpty_eq_true_iff, OrderedSet.isEmpty_eq_true_iff]
  simp only [mem_redirected]
  constructor
  · intro hnone x hx
    exact hnone _ ⟨x, hx, rfl⟩
  · rintro hnone x ⟨y, hy, -⟩
    exact hnone y hy

theorem finalsKept_after_error {α : Type} {b : Build α} (hb : ∃ e, b net = .error e net) :
    net.FinalsKept (b.after net) := by
  obtain ⟨e, he⟩ := hb
  refine .of_eq ?_
  unfold Build.after
  rw [he]

theorem FinalsKept.after_ok {α : Type} {b : Build α} {a : α} (hb : b net = .ok a net')
    (h : net.FinalsKept net') : net.FinalsKept (b.after net) := by
  unfold Build.after
  rwa [hb]

/-- A call keeps the final sets, unless it takes a place out. -/
theorem finalSets_apply (hn : net.NamesAgree) (call : Call) :
    (¬ call.Empties net ∧ net.FinalsKept (call.apply net))
      ∨ ∃ ref id, call = .remove ref ∧ net.resolve? ref = some id
        ∧ (call.apply net).finalSets = net.finalSets.map (fun set => set.erase id) := by
  cases call with
  | newPlace name kind =>
    refine .inl ⟨by simp [Call.Empties], ?_⟩
    obtain ⟨-, -, ho⟩ | he := newPlace_cases name kind net
    · exact .after_ok ho (.of_eq (finalSets_addPlace net _))
    · exact finalsKept_after_error he
  | newTransition name kind =>
    refine .inl ⟨by simp [Call.Empties], ?_⟩
    obtain ⟨-, -, ho⟩ | ⟨t, -, ho⟩ | he := newTransitionOf_cases name kind net
    · exact .after_ok ho (.of_eq rfl)
    · exact .after_ok ho (.of_eq rfl)
    · exact finalsKept_after_error he
  | newArc source target =>
    refine .inl ⟨by simp [Call.Empties], ?_⟩
    obtain ⟨flow, p, -, t, -, -, -, ho⟩ | he := newArc_cases hn source target
    · exact .after_ok ho (.of_eq (finalSets_connect net _))
    · exact finalsKept_after_error he
  | merge p q =>
    refine .inl ⟨by simp [Call.Empties], ?_⟩
    obtain ⟨a, -, -, ho⟩ | ⟨a, b, kind, first, second, -, -, hm, ho⟩ | he := merge_cases hn p q
    · exact .after_ok ho (.of_eq rfl)
    · exact .after_ok ho hm.finalsKept
    · exact finalsKept_after_error he
  | remove ref =>
    obtain ⟨id, p, hr, -, ho⟩ | ⟨hr, ho⟩ := remove_cases hn ref
    · right
      refine ⟨ref, id, rfl, hr, ?_⟩
      show ((remove ref).after net).finalSets = _
      unfold Build.after
      rw [ho]
    · refine .inl ⟨?_, .after_ok ho (.of_eq rfl)⟩
      rintro ⟨ref', id, he, hr', -⟩
      cases he
      rw [hr] at hr'
      cases hr'
  | addFinalSet refs =>
    refine .inl ⟨by simp [Call.Empties], ?_⟩
    obtain ⟨set, hset, -, ho⟩ | he := addFinalSet_cases hn refs
    · refine .after_ok ho ⟨id, [set], fun _ => rfl, ?_, ?_⟩
      · intro set' hset'
        rwa [List.mem_singleton.1 hset']
      · rw [List.map_id, finalSets_flagAll]
    · exact finalsKept_after_error he
  | setTokens ref tokens =>
    refine .inl ⟨by simp [Call.Empties], ?_⟩
    obtain ⟨id, -, ho⟩ | he := setTokens_cases ref tokens.toNat net
    · exact .after_ok ho (.of_eq (finalSets_modifyPlace net id _))
    · exact finalsKept_after_error he
  | addPort port name => exact .inl ⟨by simp [Call.Empties], .of_eq rfl⟩
  | nextScope => exact .inl ⟨by simp [Call.Empties], .of_eq rfl⟩

/-- One call: all final sets hold a place afterwards exactly if they did before and the call does
not take the only place of one of them out. -/
theorem filled_apply_iff (hn : net.NamesAgree) (call : Call) :
    (call.apply net).FinalsFilled ↔ net.FinalsFilled ∧ ¬ call.Empties net := by
  obtain ⟨hnot, hkept⟩ | ⟨ref, id, rfl, hr, hsets⟩ := finalSets_apply hn call
  · rw [hkept.filled_iff]
    exact ⟨fun h => ⟨h, hnot⟩, And.left⟩
  · have herase (set : OrderedSet PlaceId) : (set.erase id).isEmpty = false
        ↔ set.isEmpty = false ∧ set ≠ OrderedSet.singleton id := by
      rw [← Bool.not_eq_true, OrderedSet.isEmpty_erase_iff, not_or, Bool.not_eq_true]
    unfold FinalsFilled
    rw [hsets]
    constructor
    · intro h
      have hset (set : OrderedSet PlaceId) (hmem : set ∈ net.finalSets) :=
        (herase set).1 (h _ (List.mem_map_of_mem hmem))
      refine ⟨fun set hmem => (hset set hmem).1, ?_⟩
      rintro ⟨ref', id', he, hr', hmem⟩
      cases he
      rw [hr] at hr'
      cases hr'
      exact (hset _ hmem).2 rfl
    · rintro ⟨hfilled, hnot⟩ set hset
      obtain ⟨set₀, hset₀, rfl⟩ := List.mem_map.1 hset
      refine (herase set₀).2 ⟨hfilled set₀ hset₀, ?_⟩
      rintro rfl
      exact hnot ⟨ref, id, rfl, hr, hset₀⟩

/-- A whole run: all final sets hold a place exactly if no call took the only place of one out. -/
theorem filled_run_iff (calls : List Call) :
    (run calls).FinalsFilled
      ↔ ∀ before call after, calls = before ++ call :: after → ¬ call.Empties (run before) := by
  induction calls using List.reverseRecOn with
  | nil =>
    constructor
    · intro _ before call after he
      simp at he
    · intro _ set hset
      cases hset
  | append_singleton calls call ih =>
    rw [run_append_singleton, filled_apply_iff (wellFormed_run calls).toNamesAgree, ih]
    constructor
    · rintro ⟨hcalls, hcall⟩ before call' after he
      rcases List.eq_nil_or_concat after with rfl | ⟨after, last, rfl⟩
      · obtain ⟨rfl, hlast⟩ := List.append_inj_left' he rfl, List.append_inj_right' he rfl
        cases hlast
        exact hcall
      · rw [List.concat_eq_append, ← List.cons_append, ← List.append_assoc] at he
        exact hcalls before call' after (List.append_inj_left' he rfl)
    · intro h
      refine ⟨?_, h calls call [] rfl⟩
      intro before call' after he
      refine h before call' (after ++ [call]) ?_
      rw [he, List.append_assoc, List.cons_append]

end Net

/-! ## The text of a vacuous alternative -/

namespace Owfn

open OpenWorkflow.Text (Rule)

variable {net : Net}

theorem finalSet_of_isEmpty {set : OrderedSet PlaceId} (h : set.isEmpty = true) :
    finalSet net set = "( " ++ ")" := by
  unfold finalSet
  rw [List.isEmpty_iff.1 h]
  simp

/-- Parentheses with nothing between them are no alternative. -/
theorem refuses_disjunct_vacuous (rest : String) :
    Refuses Grammar.disjunct ("( " ++ (")" ++ rest)) := by
  have hopen : Refuses Grammar.name ("( " ++ (")" ++ rest)) :=
    refuses_name (.append (by decide) _)
  have hclose : Next [')'].contains (")" ++ rest) := .append (by decide) _
  have hbare : Refuses Grammar.bareAtom (")" ++ rest) :=
    (refuses_name (hclose.of_mem (by decide))).bind
  have hatom : Refuses Grammar.atom (")" ++ rest) :=
    .orElse hbare (refuses_mark (hclose.of_mem (by decide))).bind
  refine .orElse (Refuses.bind (.orElse hopen.bind ?_)) ?_
  · exact (reads_mark (by decide) _).refuses_bind hbare.bind
  · exact (reads_mark (by decide) _).refuses_bind hatom.bind

/-- A separator before each text, or one behind each. -/
theorem join_glue (glue : String) (xs : List String) (s : String) :
    String.join (xs.map (fun x => glue ++ x)) ++ (glue ++ s)
      = glue ++ (String.join (xs.map (fun x => x ++ glue)) ++ s) := by
  induction xs with
  | nil => simp
  | cons x xs ih =>
    simp only [List.map_cons, String.join_cons, String.append_assoc] at ih ⊢
    rw [ih]

theorem intercalate_append_cons (glue : String) (xs : List String) (y : String) (ys : List String) :
    glue.intercalate (xs ++ y :: ys)
      = String.join (xs.map (fun x => x ++ glue)) ++ glue.intercalate (y :: ys) := by
  cases xs with
  | nil => simp
  | cons x xs =>
    rw [List.cons_append, intercalate_cons_eq_join, intercalate_cons_eq_join, List.map_append,
      String.join_append, List.map_cons, String.join_cons, List.map_cons, String.join_cons]
    simp only [String.append_assoc, join_glue]

/-- A list with separators ends before the first text that is no item, and before the separator in
front of it, if there is one. -/
theorem Reads.sepBy_refused {α ι : Type} {p : Rule α} {w glue bad : String} (xs : List ι)
    (text : ι → String) (value : ι → α) (Follow : String → Prop) (hglue : Spells w glue)
    (hitem : ∀ x ∈ xs, ∀ r, Follow r → Reads p (text x) (value x) r)
    (hfollow : ∀ r, Follow (glue ++ r)) (hbad : Refuses p bad) :
    ∃ taken rest, String.join ((xs.map text).map (fun x => x ++ glue)) ++ bad = taken ++ rest
      ∧ Reads (Rule.sepBy p (Grammar.mark w)) taken (xs.map value) rest
      ∧ (rest = bad ∨ rest = glue ++ bad) := by
  cases xs with
  | nil =>
    refine ⟨"", bad, by simp, .opt_none ?_ (.pure [] bad), .inl rfl⟩
    rwa [String.empty_append]
  | cons x xs =>
    refine ⟨text x ++ String.join ((xs.map text).map (fun y => glue ++ y)), glue ++ bad, ?_, ?_,
      .inr rfl⟩
    · simp only [List.map_cons, String.join_cons, String.append_assoc, join_glue]
    · have hstop : Refuses (do Grammar.mark w; p) (glue ++ bad) :=
        (reads_mark hglue bad).refuses_bind hbad
      have hmore := Reads.many xs (fun y => glue ++ text y) value Follow
        (fun y hy => ⟨hglue.solid.append_left _, fun r hr =>
          ⟨(reads_mark hglue _).bind (hitem y (List.mem_cons_of_mem _ hy) r hr), by
            rw [String.append_assoc]
            exact hfollow _⟩⟩) (hfollow bad) hstop
      rw [List.map_map]
      refine (Reads.opt_some (hitem x (List.mem_cons_self ..) _ ?_)).bind hmore.bind_pure
      have h : Follow (String.join ((xs.map text).map (fun y => glue ++ y)) ++ (glue ++ bad)) :=
        follow_join hfollow (hfollow bad)
      rwa [List.map_map] at h

/-- A condition with a vacuous alternative is not read: where the alternatives that are read end,
it does not close. -/
theorem refuses_finalCondition {before after : List (OrderedSet PlaceId)} {set : OrderedSet PlaceId}
    (hsets : net.finalSets = before ++ set :: after)
    (hbefore : ∀ s ∈ before, s.isEmpty = false) (hset : set.isEmpty = true)
    (hnames : ∀ s ∈ net.finalSets, ∀ id ∈ s, IsName (finalName net id)) (rest : String) :
    Refuses Grammar.finalCondition (finalCondition net ++ rest) := by
  have hitem (s : OrderedSet PlaceId) (hs : s ∈ before) (r : String)
      (hr : Begins [' ', ')'].contains r) :
      Reads Grammar.disjunct (finalSet net s) (s.toList.map (finalName net)) r := by
    refine reads_finalSet (hbefore s hs) (hnames s ?_) hr
    rw [hsets]
    exact List.mem_append_left _ hs
  obtain ⟨tail, htext⟩ : ∃ tail, finalCondition net ++ rest = "FINALCONDITION\n  " ++ ("("
      ++ (String.join ((before.map (finalSet net)).map (fun x => x ++ " OR "))
        ++ ("( " ++ (")" ++ tail)))) := by
    refine ⟨String.join ((after.map (finalSet net)).map (fun x => " OR " ++ x))
      ++ (");\n\n" ++ rest), ?_⟩
    unfold finalCondition
    rw [show ("FINALCONDITION\n  (" : String) = "FINALCONDITION\n  " ++ "(" from rfl, hsets,
      List.map_append, List.map_cons, intercalate_append_cons, intercalate_cons_eq_join,
      finalSet_of_isEmpty hset]
    simp only [String.append_assoc]
  have hglue : Spells "OR" " OR " := by decide
  have hfollow (r : String) : Begins [' ', ')'].contains (" OR " ++ r) := .append (by decide) _
  obtain ⟨taken, left, htaken, hreads, hleft⟩ := Reads.sepBy_refused before (finalSet net) _ _
    hglue hitem hfollow (refuses_disjunct_vacuous tail)
  have hclose : Refuses (Grammar.mark ")") left := by
    rcases hleft with rfl | rfl
    · exact refuses_mark (.append (by decide) _)
    · exact refuses_mark (.append (by decide) _)
  rw [htext, htaken]
  refine (reads_mark (by decide) _).refuses_bind ((reads_mark (by decide) _).refuses_bind ?_)
  exact hreads.refuses_bind hclose.bind

/-! ## Reading a net back -/

/-- Members of final sets are written by names of the format. -/
theorem isName_finalName (h : Legible net withPorts) (hw : net.WellFormed) :
    ∀ set ∈ net.finalSets, ∀ id ∈ set, IsName (finalName net id) := by
  intro set hset id hid
  obtain ⟨p, hp⟩ := hw.live hset hid
  rw [finalName, Net.placeName?, hp]
  exact h.places id p hp

/-- The text of a net with an empty final set cannot be read, whatever its names are. -/
theorem read_write_vacuous (h : Legible net withPorts) (hw : net.WellFormed)
    (hfilled : ¬ net.FinalsFilled) : read (write net withPorts) = .error .malformed := by
  have hnames := isName_finalName h hw
  have hmarked (x : PlaceId × Place) (hx : x ∈ net.marked) : IsName x.2.name :=
    h.places x.1 x.2 (hw.mem_places.1 (List.mem_filter.1 hx).1)
  cases hfind : net.finalSets.find? OrderedSet.isEmpty with
  | none =>
    refine absurd (fun set hset => ?_) hfilled
    simpa using List.find?_eq_none.1 hfind set hset
  | some set =>
    obtain ⟨hset, before, after, hsets, hbefore⟩ := List.find?_eq_some_iff_append.1 hfind
    have hfirst : ∀ s ∈ before, s.isEmpty = false := fun s hs => by simpa using hbefore s hs
    obtain ⟨found, -, hports⟩ := reads_portSection h.places h.ports
      (refuses_port hmarked (finalCondition net
        ++ (String.join (net.transitions.map (transition net)) ++ "\x7b END OF FILE \x7d")))
      (refuses_mark (.append (.append (.append (by decide) _) _) _))
    refine read_of_refuses ?_
    unfold write
    simp only [String.append_assoc]
    refine .blanks ?_
    refine (Reads.opt_some (reads_heading _)).refuses_bind ?_
    refine (reads_places h.places _).refuses_bind ?_
    refine hports.refuses_bind ?_
    refine (reads_marking hmarked _).refuses_bind ?_
    exact (refuses_finalCondition hsets hfirst hset hnames _).bind

/-- The text of a net is read back exactly if no final set is empty, and then it has no vacuous
alternative. -/
theorem read_write_iff_filled (h : Legible net withPorts) (hw : net.WellFormed)
    (ht : net.TokensFit) :
    (∃ doc, read (write net withPorts) = .ok doc ∧ ∀ names ∈ doc.finalCondition, names ≠ [])
      ↔ net.FinalsFilled := by
  constructor
  · rintro ⟨doc, hdoc, -⟩
    by_contra hfilled
    rw [read_write_vacuous h hw hfilled] at hdoc
    cases hdoc
  · intro hfilled
    refine ⟨document net withPorts, read_eq_document ⟨h, hfilled⟩ hw ht, ?_⟩
    intro names hnames
    obtain ⟨set, hset, rfl⟩ := List.mem_map.1 hnames
    rw [Ne, List.map_eq_nil_iff]
    exact List.isEmpty_eq_false_iff.1 (hfilled set hset)

/-- After any run of construction steps: all final sets hold a place exactly if no call took the
only place of one of them out; and if the names of the net are names of the format, the net is read
back from its text, with no vacuous alternative in its final condition, exactly if they do. -/
theorem finalCondition_run (calls : List Call) :
    ((Net.run calls).FinalsFilled
        ↔ ∀ before call after, calls = before ++ call :: after →
          ¬ call.Empties (Net.run before))
      ∧ ∀ withPorts, Legible (Net.run calls) withPorts →
        ((∃ doc, read (write (Net.run calls) withPorts) = .ok doc
            ∧ ∀ names ∈ doc.finalCondition, names ≠ [])
          ↔ (Net.run calls).FinalsFilled) :=
  ⟨Net.filled_run_iff calls, fun _ h =>
    read_write_iff_filled h (Net.wellFormed_run calls) (Net.tokensFit_run calls)⟩

/-- Two final sets share a place that is merged and one that is taken out. -/
def sharedFinals : List Call :=
  [.newPlace "a" .internal, .newPlace "b" .internal, .newPlace "c" .internal,
    .addFinalSet [.named "a", .named "b"], .addFinalSet [.named "b", .named "c"],
    .merge (.named "a") (.named "c"), .remove (.named "b")]

/-- Every final set keeps a place, and the net is read back from its text. -/
theorem finalCondition_run_sharedFinals :
    Legible (Net.run sharedFinals) true
      ∧ (∀ before call after, sharedFinals = before ++ call :: after →
          ¬ call.Empties (Net.run before))
      ∧ ∃ doc, read (write (Net.run sharedFinals) true) = .ok doc
        ∧ ∀ names ∈ doc.finalCondition, names ≠ [] := by
  have hlegible : Legible (Net.run sharedFinals) true :=
    .of_lists (Net.wellFormed_run sharedFinals) (by decide) (by decide) (by decide)
  have hfilled : (Net.run sharedFinals).FinalsFilled := by decide
  obtain ⟨hrun, htext⟩ := finalCondition_run sharedFinals
  exact ⟨hlegible, hrun.1 hfilled, (htext true hlegible).2 hfilled⟩

/-- A place is the only one of a final set and is taken out. -/
def emptiedFinal : List Call :=
  [.newPlace "a" .internal, .addFinalSet [.named "a"], .remove (.named "a")]

/-- The final set is still there and is empty, and the text of the net cannot be read. -/
theorem finalCondition_emptied :
    (Net.run emptiedFinal).finalSets = [∅]
      ∧ ∀ withPorts, read (write (Net.run emptiedFinal) withPorts) = .error .malformed := by
  refine ⟨by decide, fun withPorts => ?_⟩
  exact read_write_vacuous
    (.of_lists (Net.wellFormed_run emptiedFinal) (by decide) (by decide) (by decide))
    (Net.wellFormed_run emptiedFinal) (by decide)

end Owfn

end OpenWorkflow
