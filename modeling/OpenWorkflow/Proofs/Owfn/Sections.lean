import OpenWorkflow.Owfn.Writer
import OpenWorkflow.Proofs.Owfn.Lexing
import OpenWorkflow.Proofs.Text.Numeral

/-!
# The sections of a file

Each rule of the grammar takes exactly the text that is written for its section
and gives back the names, numbers and kinds the text was made of. What may stand
behind a section is part of each statement: a greedy name or a repetition ends
only where the next text begins in the right way.

The sections are `reads_places`, `reads_ports`, `reads_marking`,
`reads_finalCondition` and `reads_transitions`. All of them ask that the names be
names of the format (`IsName`).
-/

namespace OpenWorkflow.Owfn

open OpenWorkflow.Text (Rule)

variable {net : Net}

variable {names : List String} {n rest : String}

/-! ## Lists of names -/

/-- A list of names is read back. -/
theorem reads_names {glue : String} (hglue : Spells "," glue)
    (hcomma : Begins (fun c => !isNameChar c) glue) (hnames : ∀ n ∈ names, IsName n)
    (hrest : Begins [';'].contains rest) :
    Reads Grammar.names (glue.intercalate names) names rest := by
  have h : Reads Grammar.names (glue.intercalate (names.map id)) (names.map id) rest :=
    Reads.sepBy names id id (Begins (fun c => !isNameChar c)) hglue
      (fun n hn r hr => reads_name (hnames n hn) hr) (fun r => hcomma.append r)
      (hrest.of_mem (by decide)) (refuses_mark (hrest.next_of_mem (by decide)))
      (refuses_name (hrest.next_of_mem (by decide)))
  rwa [List.map_id] at h

/-- A title, names and a semicolon. -/
theorem reads_titled {title head glue close : String} (hhead : Spells title head)
    (hglue : Spells "," glue) (hcomma : Begins (fun c => !isNameChar c) glue)
    (hnames : ∀ n ∈ names, IsName n) (hclose : Spells ";" close)
    (hsemi : Begins [';'].contains close) (rest : String) :
    Reads (Grammar.titled title) (head ++ (glue.intercalate names ++ close)) names rest := by
  refine (reads_mark hhead _).bind ?_
  refine (reads_names hglue hcomma hnames (hsemi.append rest)).bind ?_
  exact (reads_mark hclose rest).bind_pure

/-! ## Places -/

theorem isName_of_mem_namesOf (hplaces : ∀ id p, net.place? id = some p → IsName p.name)
    {ids : OrderedSet PlaceId} (h : n ∈ namesOf (net.livePlaces ids)) : IsName n := by
  obtain ⟨x, hx, rfl⟩ := List.mem_map.1 h
  obtain ⟨id, -, he⟩ := List.mem_filterMap.1 hx
  obtain ⟨p, hp, rfl⟩ := Option.map_eq_some_iff.1 he
  exact hplaces id p hp

theorem isName_of_mem_memberNames (hplaces : ∀ id p, net.place? id = some p → IsName p.name)
    {ids : OrderedSet PlaceId} (h : n ∈ memberNames net ids) : IsName n := by
  obtain ⟨id, -, hn⟩ := List.mem_filterMap.1 h
  obtain ⟨p, hp, rfl⟩ := Option.map_eq_some_iff.1 hn
  exact hplaces id p hp

theorem reads_placeList {title separator : String}
    (htitle : Spells title ("  " ++ title ++ "\n    ")) (hglue : Spells "," separator)
    (hcomma : Begins (fun c => !isNameChar c) separator) (hnames : ∀ n ∈ names, IsName n)
    (rest : String) :
    Reads (Grammar.titled title) (placeList title separator names) names rest := by
  unfold placeList
  rw [String.append_assoc]
  exact reads_titled htitle hglue hcomma hnames (by decide) (by decide) rest

/-- The section of places is read back. -/
theorem reads_places (hplaces : ∀ id p, net.place? id = some p → IsName p.name) (rest : String) :
    Reads Grammar.places (places net) (namesOf (net.livePlaces net.internal),
      namesOf (net.livePlaces net.input), namesOf (net.livePlaces net.output)) rest := by
  unfold places
  rw [String.append_assoc, String.append_assoc]
  refine (reads_mark (by decide) _).bind ?_
  refine (reads_placeList (by decide) (by decide) (by decide)
    (fun n => isName_of_mem_namesOf hplaces) _).bind ?_
  refine (reads_placeList (by decide) (by decide) (by decide)
    (fun n => isName_of_mem_namesOf hplaces) _).bind ?_
  exact (reads_placeList (by decide) (by decide) (by decide)
    (fun n => isName_of_mem_namesOf hplaces) _).bind_pure

/-! ## Ports -/

/-- A port is read back. -/
theorem reads_port (hplaces : ∀ id p, net.place? id = some p → IsName p.name)
    {x : String × OrderedSet PlaceId} (hx : IsName x.1) (rest : String) :
    Reads Grammar.port (port net x) (x.1, memberNames net x.2) rest := by
  unfold port
  simp only [String.append_assoc]
  refine .blank_left (by decide) ?_
  refine (reads_name hx (.append (.append (by decide) _) _)).bind ?_
  refine (reads_mark (by decide) _).bind ?_
  refine (reads_names (by decide) (by decide) (fun n => isName_of_mem_memberNames hplaces)
    (Begins.append (by decide) _)).bind ?_
  exact (reads_mark (by decide) _).bind_pure

/-- The ports end where no port follows. -/
theorem reads_ports (hplaces : ∀ id p, net.place? id = some p → IsName p.name)
    (hports : ∀ x ∈ net.portPlaces, IsName x.1) (hrest : Refuses Grammar.port rest) :
    Reads Grammar.ports ("PORTS\n" ++ String.join (net.portPlaces.map (port net)) ++ "\n")
      (net.portPlaces.map (fun x => (x.1, memberNames net x.2))) rest := by
  refine .blank_right (by decide) ?_
  refine (reads_mark (by decide) _).bind ?_
  refine Reads.many net.portPlaces (port net) _ (fun _ => True) ?_ trivial
    (hrest.blank_left (by decide))
  intro x hx
  refine ⟨?_, fun r _ => ⟨reads_port hplaces (hports x hx) r, trivial⟩⟩
  unfold port
  simp only [String.append_assoc]
  exact (((hports x hx).next.append _).blank_left (by decide)).solid

/-! ## Marking -/

theorem reads_initial (rest : String) :
    Reads Grammar.comment " \x7binitial place\x7d" () rest := by
  have htext : " \x7binitial place\x7d" = " " ++ ("\x7b" ++ ("initial place" ++ "\x7d")) := rfl
  rw [htext]
  exact .blank_left (by decide) (reads_comment "initial place" (by decide) rest)

/-- A marked place is read back. -/
theorem reads_marked {place : Place} (hname : IsName place.name)
    (hrest : Begins [',', ';'].contains rest) :
    Reads Grammar.marked (markedPlace place) (place.name, toString place.tokens) rest := by
  unfold markedPlace
  simp only [String.append_assoc]
  refine .blank_left (by decide) ?_
  refine (reads_name hname (.append (.append (by decide) _) _)).bind ?_
  refine (reads_mark (by decide) _).bind ?_
  refine (reads_digits (List.all_eq_true.2 fun c => Text.isDigit_of_mem_toString)
    (Text.toString_ne_empty _) ?_).bind ?_
  · split
    · exact Begins.append (by decide) _
    · rw [String.empty_append]
      exact hrest.of_mem (by decide)
  · split
    · exact (Reads.opt_some (reads_initial rest)).bind_pure
    · exact .opt_none (refuses_comment (hrest.next_of_mem (by decide))) (.pure _ rest)

/-- The marking, empty or not. -/
theorem reads_marking (hplaces : ∀ x ∈ net.marked, IsName x.2.name) (rest : String) :
    Reads Grammar.marking (marking net)
      (net.marked.map (fun x => (x.2.name, toString x.2.tokens))) rest := by
  have hsemi : Begins [';'].contains (";\n\n" ++ rest) := Begins.append (by decide) _
  have hentries : Reads (Rule.sepBy Grammar.marked (Grammar.mark ","))
      (",\n".intercalate (net.marked.map (fun x => markedPlace x.2)))
      (net.marked.map (fun x => (x.2.name, toString x.2.tokens))) (";\n\n" ++ rest) :=
    Reads.sepBy net.marked _ _ (Begins [',', ';'].contains) (by decide)
      (fun x hx r hr => reads_marked (hplaces x hx) hr) (fun r => Begins.append (by decide) _)
      (hsemi.of_mem (by decide)) (refuses_mark (hsemi.next_of_mem (by decide)))
      (refuses_name (hsemi.next_of_mem (by decide))).bind
  have hlist : Reads (Rule.sepBy Grammar.marked (Grammar.mark ","))
      (if net.marked.isEmpty then "  "
        else ",\n".intercalate (net.marked.map (fun x => markedPlace x.2)))
      (net.marked.map (fun x => (x.2.name, toString x.2.tokens))) (";\n\n" ++ rest) := by
    split
    · rename_i hempty
      rw [List.isEmpty_iff.1 hempty, List.map_nil, String.intercalate_nil] at hentries
      rw [List.isEmpty_iff.1 hempty]
      have h := hentries.blank_left (show Blank "  " by decide)
      rwa [String.append_empty] at h
    · exact hentries
  unfold marking
  rw [String.append_assoc]
  refine (reads_mark (by decide) _).bind ?_
  exact hlist.bind (reads_mark (by decide) _).bind_pure

/-! ## Final condition -/

/-- The name of a place in the final condition. -/
def finalName (net : Net) (id : PlaceId) : String := (net.placeName? id).getD ""

theorem reads_bareAtom (hn : IsName n) (hrest : Begins (fun c => !c.isDigit) rest) :
    Reads Grammar.bareAtom (n ++ "=1") n rest := by
  rw [show ("=1" : String) = "=" ++ "1" from rfl]
  refine (reads_name hn (.append (.append (by decide) _) _)).bind ?_
  refine (reads_mark (by decide) _).bind ?_
  exact (reads_digits (by decide) (by decide) hrest).bind_pure

theorem reads_atom (hn : IsName n) (rest : String) :
    Reads Grammar.atom ("(" ++ n ++ "=1)") n rest := by
  have htext : "(" ++ n ++ "=1)" = "(" ++ ((n ++ "=1") ++ ")") := by
    rw [show ("=1)" : String) = "=1" ++ ")" from rfl]
    simp only [String.append_assoc]
  rw [htext]
  refine .orElse_right (refuses_name (.append (.append (by decide) _) _)).bind ?_
  refine (reads_mark (by decide) _).bind ?_
  refine (reads_bareAtom hn (.append (by decide) _)).bind ?_
  exact (reads_mark (by decide) _).bind_pure

theorem refuses_disjunct {text : String} (h : Next [')'].contains text) :
    Refuses Grammar.disjunct text := by
  have hatom : Refuses Grammar.atom text :=
    .orElse (refuses_name (h.of_mem (by decide))).bind (refuses_mark (h.of_mem (by decide))).bind
  exact .orElse hatom.bind (refuses_mark (h.of_mem (by decide))).bind

/-- The places of a larger final set, in parentheses. -/
theorem reads_conjunction {ns : List String} (hn : IsName n) (hns : ∀ m ∈ ns, IsName m)
    (rest : String) :
    Reads Grammar.disjunct
      ("( " ++ " AND ".intercalate ((n :: ns).map (fun m => "(" ++ m ++ "=1)")) ++ ")")
      (n :: ns) rest := by
  have hmore : Reads (Rule.many (do Grammar.mark "AND"; Grammar.atom))
      (String.join ((ns.map (fun m => "(" ++ m ++ "=1)")).map (fun x => " AND " ++ x)))
      (ns.map id) (")" ++ rest) :=
    .manyAfter ns _ id (fun _ => True) (by decide) (fun m hm r _ => reads_atom (hns m hm) r)
      (fun _ => trivial) trivial (refuses_mark (.append (by decide) _))
  rw [List.map_id] at hmore
  have hatom : Refuses Grammar.atom ("( " ++ ("(" ++ n ++ "=1)"
      ++ String.join ((ns.map (fun m => "(" ++ m ++ "=1)")).map (fun x => " AND " ++ x)) ++ ")")
      ++ rest) := by
    refine .orElse (refuses_name (.append (.append (by decide) _) _)).bind ?_
    rw [String.append_assoc]
    refine (reads_mark (by decide) _).refuses_bind (Refuses.bind (refuses_name ?_).bind)
    simp only [String.append_assoc]
    exact .append (by decide) _
  rw [List.map_cons, intercalate_cons_eq_join, String.append_assoc]
  refine .orElse_right hatom.bind ?_
  refine (reads_mark (by decide) _).bind ?_
  rw [String.append_assoc]
  refine (reads_atom hn _).bind ?_
  exact hmore.bind (reads_mark (by decide) _).bind_pure

/-- A final set of one place stands without parentheses. -/
theorem reads_finalSet {set : OrderedSet PlaceId} (hset : set.isEmpty = false)
    (hnames : ∀ id ∈ set, IsName (finalName net id)) {rest : String}
    (hrest : Begins [' ', ')'].contains rest) :
    Reads Grammar.disjunct (finalSet net set) (set.toList.map (finalName net)) rest := by
  unfold finalSet
  split
  · rename_i id hid
    have hmem : id ∈ set := by
      rw [OrderedSet.mem_def, hid]
      exact List.mem_singleton_self id
    rw [hid]
    exact .orElse_left (.bind_pure (.orElse_left
      (reads_bareAtom (hnames id hmem) (hrest.of_mem (by decide)))))
  · obtain ⟨id, ids, hids⟩ := List.exists_cons_of_ne_nil (List.isEmpty_eq_false_iff.1 hset)
    have hname (x : PlaceId) (hx : x ∈ id :: ids) : IsName (finalName net x) :=
      hnames x (by rw [OrderedSet.mem_def, hids]; exact hx)
    have h := reads_conjunction (hname id (List.mem_cons_self ..))
      (fun m hm => by
        obtain ⟨x, hx, rfl⟩ := List.mem_map.1 hm
        exact hname x (List.mem_cons_of_mem _ hx)) rest
    rw [← List.map_cons, List.map_map] at h
    rw [hids]
    exact h

/-- The final condition is read back. -/
theorem reads_finalCondition (hsets : ∀ set ∈ net.finalSets, set.isEmpty = false)
    (hnames : ∀ set ∈ net.finalSets, ∀ id ∈ set, IsName (finalName net id)) (rest : String) :
    Reads Grammar.finalCondition (finalCondition net)
      (net.finalSets.map (fun set => set.toList.map (finalName net))) rest := by
  have hclose : Begins [')'].contains (")" ++ ";\n\n" ++ rest) :=
    .append (.append (by decide) _) _
  unfold finalCondition
  rw [show ("FINALCONDITION\n  (" : String) = "FINALCONDITION\n  " ++ "(" from rfl,
    show (");\n\n" : String) = ")" ++ ";\n\n" from rfl]
  rw [String.append_assoc, String.append_assoc]
  refine (reads_mark (by decide) _).bind ?_
  refine (reads_mark (by decide) _).bind ?_
  refine (Reads.sepBy net.finalSets (finalSet net) _ (Begins [' ', ')'].contains) (by decide)
    (fun set hset r hr => reads_finalSet (hsets set hset) (hnames set hset) hr)
    (fun r => .append (by decide) _) (hclose.of_mem (by decide))
    (refuses_mark (hclose.next_of_mem (by decide)))
    (refuses_disjunct (hclose.next_of_mem (by decide)))).bind ?_
  refine (reads_mark (by decide) _).bind ?_
  exact (reads_mark (by decide) _).bind_pure

/-! ## Transitions -/

theorem reads_kind {kind : NodeKind} (hkind : kind ≠ .internal) (rest : String) :
    Reads Grammar.kind (kindMark kind) kind rest := by
  have h (label : String)
      (hlabel : Reads ((do Grammar.mark "input/output"; return .inOut)
        <|> (do Grammar.mark "input"; return .input)
        <|> (do Grammar.mark "output"; return .output) : Rule NodeKind) label kind
          (" \x7d" ++ rest)) :
      Reads Grammar.kind (" \x7b " ++ label ++ " \x7d") kind rest := by
    rw [String.append_assoc]
    refine (reads_mark (by decide) _).bind ?_
    exact hlabel.bind (reads_mark (by decide) _).bind_pure
  cases kind with
  | internal => exact absurd rfl hkind
  | input =>
    refine h "input" (.orElse_right (Refuses.bind (.mark ?_)) (.orElse_left ?_))
    · -- The words differ only where the shorter one ends.
      rw [← String.append_assoc, skip_append (by decide)]
      rfl
    · exact (reads_mark (by decide) _).bind_pure
  | output =>
    refine h "output" (.orElse_right (Refuses.bind (refuses_mark ?_))
      (.orElse_right (Refuses.bind (refuses_mark ?_)) ?_))
    · exact .append (by decide) _
    · exact .append (by decide) _
    · exact (reads_mark (by decide) _).bind_pure
  | inOut => exact h "input/output" (.orElse_left (reads_mark (by decide) _).bind_pure)

theorem begins_kindMark (kind : NodeKind) (hrest : Begins (fun c => !isNameChar c) rest) :
    Begins (fun c => !isNameChar c) (kindMark kind ++ rest) := by
  cases kind with
  | internal => rwa [kindMark, String.empty_append]
  | input => exact .append (.append (by decide) _) _
  | output => exact .append (.append (by decide) _) _
  | inOut => exact .append (.append (by decide) _) _

/-- The entry of a transition in a file. -/
def entry (net : Net) (t : Transition) : TransitionEntry where
  name := t.name
  kind := t.kind
  consume := memberNames net t.preset
  produce := memberNames net t.postset

/-- A transition is read back. -/
theorem reads_transition (hplaces : ∀ id p, net.place? id = some p → IsName p.name)
    {t : Transition} (ht : IsName t.name) (rest : String) :
    Reads Grammar.transition (transition net t) (entry net t) rest := by
  have hlists (kind : Option NodeKind) (hkind : kind.getD .internal = t.kind) :
      Reads (do
          let consume ← Grammar.titled "CONSUME"
          let produce ← Grammar.titled "PRODUCE"
          return { name := t.name, kind := kind.getD .internal, consume, produce })
        ("\n  CONSUME " ++ (", ".intercalate (memberNames net t.preset) ++ ";\n  ")
          ++ ("PRODUCE " ++ (", ".intercalate (memberNames net t.postset) ++ ";\n\n")))
        (entry net t) rest := by
    rw [entry, ← hkind]
    refine (reads_titled (by decide) (by decide) (by decide)
      (fun n => isName_of_mem_memberNames hplaces) (by decide) (by decide) _).bind ?_
    exact (reads_titled (by decide) (by decide) (by decide)
      (fun n => isName_of_mem_memberNames hplaces) (by decide) (by decide) _).bind_pure
  have htext : transition net t = "TRANSITION " ++ (t.name ++ (kindMark t.kind
      ++ ("\n  CONSUME " ++ (", ".intercalate (memberNames net t.preset) ++ ";\n  ")
        ++ ("PRODUCE " ++ (", ".intercalate (memberNames net t.postset) ++ ";\n\n"))))) := by
    have hsplit : (";\n  PRODUCE " : String) = ";\n  " ++ "PRODUCE " := rfl
    unfold transition
    simp only [hsplit, String.append_assoc]
  rw [htext]
  refine (reads_mark (by decide) _).bind ?_
  refine (reads_name ht ?_).bind ?_
  · rw [String.append_assoc]
    exact begins_kindMark _ (.append (.append (.append (by decide) _) _) _)
  · by_cases hkind : t.kind = .internal
    · rw [hkind, kindMark, String.empty_append]
      refine .opt_none (refuses_mark ?_).bind (hlists none hkind.symm)
      exact .append (.append (.append (by decide) _) _) _
    · exact (Reads.opt_some (reads_kind hkind _)).bind (hlists (some t.kind) rfl)

/-- The section of transitions is read back. -/
theorem reads_transitions (hplaces : ∀ id p, net.place? id = some p → IsName p.name)
    (htransitions : ∀ t ∈ net.transitions, IsName t.name)
    (hrest : Refuses Grammar.transition rest) :
    Reads (Rule.many Grammar.transition) (String.join (net.transitions.map (transition net)))
      (net.transitions.map (entry net)) rest := by
  refine .many net.transitions _ _ (fun _ => True) (fun t ht => ⟨?_, fun r _ => ⟨?_, trivial⟩⟩)
    trivial hrest
  · unfold transition
    simp only [String.append_assoc]
    exact Solid.append_left (by decide) _
  · exact reads_transition hplaces (htransitions t ht) r

end OpenWorkflow.Owfn
