import Mathlib.Data.List.DropRight
import OpenWorkflow.Proofs.Net.Consistency
import OpenWorkflow.Proofs.Owfn.Sections

/-!
# Reading a written net back

The text that `write` makes of a net is read back by `read` as a document that
says exactly what the net says: `Describes` compares the two field by field. The
names must be names of the format and no final set may be empty (`Readable`);
nothing else is asked of a net that came about by construction steps.

The text is taken apart section by section (`reads_file`). That the document is
the net needs more than that: distinct live places have distinct names, so the
marking has no two entries of one place, and a number of tokens is a word, so
its numeral can be read.
-/

namespace OpenWorkflow

variable {withPorts : Bool}

namespace Owfn

open OpenWorkflow.Text (Rule)

/-- The names that stand in the text of the net are names of the format. -/
structure Legible (net : Net) (withPorts : Bool) : Prop where
  places : ∀ id p, net.place? id = some p → IsName p.name
  transitions : ∀ t ∈ net.transitions, IsName t.name
  ports : withPorts = true → ∀ port ∈ net.ports.keys, IsName port

/-- Names of the format throughout, and no empty final set. -/
structure Readable (net : Net) (withPorts : Bool) : Prop extends Legible net withPorts where
  finals : ∀ set ∈ net.finalSets, set.isEmpty = false

/-- The document says what the net says: the names of the places on each list
in order, the places with tokens and their numbers, the names in each final set,
each transition with its kind and the names around it, the ports with their
places if they are asked for, and the size. -/
structure Describes (doc : Document) (net : Net) (withPorts : Bool) : Prop where
  internal : doc.internal.map some = net.internal.toList.map net.placeName?
  input : doc.input.map some = net.input.toList.map net.placeName?
  output : doc.output.map some = net.output.toList.map net.placeName?
  marking : doc.marking.toList
    = (net.places.filter fun x => 0 < x.2.tokens).map (fun x => (x.2.name, x.2.tokens))
  finals : doc.finalCondition.map (fun names => names.map some)
    = net.finalSets.map (fun set => set.toList.map net.placeName?)
  transitions : doc.transitions.map (fun e => (e.name, e.kind, e.consume.map some,
      e.produce.map some))
    = net.transitions.map (fun t => (t.name, t.kind, t.preset.toList.map net.placeName?,
      t.postset.toList.map net.placeName?))
  ports : doc.ports.toList.map (fun x => (x.1, x.2.map some))
    = if withPorts then net.ports.toList.map (fun x => (x.1,
        (OrderedSet.ofList (x.2.toList.filterMap net.find?)).toList.map net.placeName?)) else []
  statistics : doc.statistics = net.statistics

variable {net : Net}

/-! ## The whole text -/

theorem not_mem_toString (n : Nat) : '\x7d' ∉ (toString n).toList := by
  intro h
  exact absurd (Text.isDigit_of_mem_toString h) (by decide)

theorem not_mem_line (s : Statistics) : '\x7d' ∉ s.line.toList := by
  simp only [Statistics.line, String.toList_append, List.mem_append, not_or, not_mem_toString,
    not_false_eq_true, and_true]
  decide

/-- The heading is read as a comment. -/
theorem reads_heading (rest : String) : Reads Grammar.comment (heading net) () rest := by
  have htext : heading net = ("\x7b" ++ (("\n  generated by: " ++ generator
      ++ "\n  net size:     " ++ net.statistics.line ++ "\n") ++ "\x7d")) ++ "\n\n" := by
    have hopen : ("\x7b\n  generated by: " : String) = "\x7b" ++ "\n  generated by: " := rfl
    have hclose : ("\n\x7d\n\n" : String) = "\n" ++ ("\x7d" ++ "\n\n") := rfl
    unfold heading
    simp only [hopen, hclose, String.append_assoc]
  have hbody : '\x7d' ∉ ("\n  generated by: " ++ generator
      ++ "\n  net size:     " ++ net.statistics.line ++ "\n").toList := by
    simp only [String.toList_append, List.mem_append, not_or, not_mem_line, not_false_eq_true,
      and_true]
    decide
  rw [htext]
  exact .blank_right (by decide) (reads_comment _ hbody _)

theorem next_markedPlace {place : Place} (h : IsName place.name) :
    Next isNameChar (markedPlace place) := by
  unfold markedPlace
  simp only [String.append_assoc]
  exact (h.next.append _).blank_left (by decide)

/-- The marking begins with a word that could be the name of a port, but no colon follows. -/
theorem refuses_port (hplaces : ∀ x ∈ net.marked, IsName x.2.name) (rest : String) :
    Refuses Grammar.port (marking net ++ rest) := by
  have hnext : Next (fun c => c ≠ ':')
      ((if net.marked.isEmpty then "  "
        else ",\n".intercalate (net.marked.map (fun x => markedPlace x.2)))
        ++ (";\n\n" ++ rest)) := by
    cases hm : net.marked with
    | nil => exact .blank_left (by decide) (.append (by decide) _)
    | cons x xs =>
      have hx : IsName x.2.name := hplaces x (by rw [hm]; exact List.mem_cons_self ..)
      rw [List.isEmpty_cons, if_neg (by decide), List.map_cons, intercalate_cons_eq_join]
      refine Next.append (Next.append ((next_markedPlace hx).imp fun c hc => ?_) _) _
      rw [decide_eq_true_eq]
      rintro rfl
      exact absurd hc (by decide)
  have htext : marking net ++ rest = "INITIALMARKING" ++ ("\n"
      ++ ((if net.marked.isEmpty then "  "
        else ",\n".intercalate (net.marked.map (fun x => markedPlace x.2)))
        ++ (";\n\n" ++ rest))) := by
    have hsplit : ("INITIALMARKING\n" : String) = "INITIALMARKING" ++ "\n" := rfl
    unfold marking
    simp only [hsplit, String.append_assoc]
  rw [htext]
  refine (reads_name (by decide) (.append (by decide) _)).refuses_bind (Refuses.bind ?_)
  exact .blank_left (by decide) (refuses_mark (hnext.imp fun c hc => by simpa using hc))

/-- The ports of a draft. -/
def draftPorts (net : Net) (withPorts : Bool) : List (String × List String) :=
  if withPorts then net.portPlaces.map (fun x => (x.1, memberNames net x.2)) else []

/-- What the grammar makes of the text of a net. -/
def draft (net : Net) (withPorts : Bool) : Grammar.Draft where
  places := (namesOf (net.livePlaces net.internal), namesOf (net.livePlaces net.input),
    namesOf (net.livePlaces net.output))
  ports := draftPorts net withPorts
  marking := net.marked.map (fun x => (x.2.name, toString x.2.tokens))
  finalCondition := net.finalSets.map (fun set => set.toList.map (finalName net))
  transitions := net.transitions.map (entry net)

/-- The section of the ports, which may be missing. -/
theorem reads_portSection (hplaces : ∀ id p, net.place? id = some p → IsName p.name)
    (hports : withPorts = true → ∀ port ∈ net.ports.keys, IsName port) {rest : String}
    (hport : Refuses Grammar.port rest) (hrest : Refuses (Grammar.mark "PORTS") rest) :
    ∃ found : Option (List (String × List String)), found.getD [] = draftPorts net withPorts
      ∧ Reads (Rule.opt Grammar.ports) (if withPorts then ports net else "") found rest := by
  unfold draftPorts
  cases withPorts with
  | false => exact ⟨none, rfl, .opt_refused hrest.bind⟩
  | true =>
    have hkeys : ∀ x ∈ net.portPlaces, IsName x.1 := by
      intro x hx
      obtain ⟨y, hy, rfl⟩ := List.mem_map.1 hx
      exact hports rfl y.1 (List.mem_map_of_mem hy)
    rw [if_pos rfl, if_pos rfl]
    unfold ports
    split
    · rename_i hempty
      rw [List.isEmpty_iff.1 hempty]
      exact ⟨none, rfl, .opt_refused hrest.bind⟩
    · exact ⟨some _, rfl, .opt_some (reads_ports hplaces hkeys hport)⟩

theorem Reads.blanks {β : Type} {f : Unit → Rule β} {y rest : String} {b : β}
    (h : Reads (f ()) y b rest) : Reads (Grammar.blanks >>= f) y b rest := by
  have hblanks : Grammar.blanks (skip (y ++ rest)) = some ((), skip (y ++ rest)) :=
    congrArg (fun cs => some ((), cs)) (List.dropWhile_idempotent ..)
  unfold Reads at *
  rw [bind_apply, hblanks]
  exact h

theorem reads_end : Reads (Rule.opt Grammar.comment) "\x7b END OF FILE \x7d" (some ()) "" := by
  have htext : ("\x7b END OF FILE \x7d" : String) = "\x7b" ++ (" END OF FILE " ++ "\x7d") := rfl
  rw [htext]
  exact .opt_some (reads_comment " END OF FILE " (by decide) "")

/-- The whole text, section by section. -/
theorem reads_file (h : Readable net withPorts) (hmarked : ∀ x ∈ net.marked, IsName x.2.name)
    (hfinals : ∀ set ∈ net.finalSets, ∀ id ∈ set, IsName (finalName net id)) :
    Reads Grammar.file (write net withPorts) (draft net withPorts) "" := by
  have hend : Refuses Grammar.transition ("\x7b END OF FILE \x7d" ++ "") :=
    (refuses_mark (by decide)).bind
  have hdone : Reads Rule.done "" () "" := rfl
  obtain ⟨found, hfound, hports⟩ := reads_portSection h.places h.ports
    (refuses_port hmarked (finalCondition net ++ (String.join (net.transitions.map (transition net))
      ++ "\x7b END OF FILE \x7d") ++ ""))
    (refuses_mark (.append (.append (.append (by decide) _) _) _))
  rw [← String.append_assoc] at hports
  unfold write
  simp only [String.append_assoc]
  refine .blanks ?_
  refine (Reads.opt_some (reads_heading _)).bind ?_
  refine (reads_places h.places _).bind ?_
  refine Reads.bind hports ?_
  refine (reads_marking hmarked _).bind ?_
  refine (reads_finalCondition h.finals hfinals _).bind ?_
  refine (reads_transitions h.places h.transitions hend).bind ?_
  rw [← String.append_empty (s := "\x7b END OF FILE \x7d")]
  refine reads_end.bind ?_
  rw [hfound]
  exact hdone.bind_pure

/-! ## The document -/

theorem mapM_readCount {xs : List (String × Nat)} (h : ∀ x ∈ xs, x.2 ≤ Text.maxWord) :
    (xs.map (fun x => (x.1, toString x.2))).mapM readCount = .ok xs := by
  induction xs with
  | nil => rfl
  | cons x xs ih =>
    have hx : readCount (x.1, toString x.2) = .ok x := by
      unfold readCount
      rw [Text.readWord_toString (h x (List.mem_cons_self ..))]
    rw [List.map_cons, List.mapM_cons, hx, ih fun y hy => h y (List.mem_cons_of_mem _ hy)]
    rfl

theorem file_skip (s : String) : Grammar.file s.toList = Grammar.file (skip s) := by
  have hblanks : Grammar.blanks s.toList = Grammar.blanks (skip s) :=
    congrArg (fun cs => some ((), cs)) (List.dropWhile_idempotent ..).symm
  unfold Grammar.file
  rw [bind_apply, bind_apply, hblanks]

/-- The document of a net. -/
def document (net : Net) (withPorts : Bool) : Document where
  internal := namesOf (net.livePlaces net.internal)
  input := namesOf (net.livePlaces net.input)
  output := namesOf (net.livePlaces net.output)
  ports := OrderedMap.ofList (draftPorts net withPorts)
  marking := OrderedMap.ofList (net.marked.map (fun x => (x.2.name, x.2.tokens)))
  finalCondition := net.finalSets.map (fun set => set.toList.map (finalName net))
  transitions := net.transitions.map (entry net)

/-- The text of a readable net is read as its document. -/
theorem read_eq_document (h : Readable net withPorts) (hw : net.WellFormed) (ht : net.TokensFit) :
    read (write net withPorts) = .ok (document net withPorts) := by
  have hplace {x : PlaceId × Place} (hx : x ∈ net.marked) : net.place? x.1 = some x.2 :=
    hw.mem_places.1 (List.mem_filter.1 hx).1
  have hmarked (x : PlaceId × Place) (hx : x ∈ net.marked) : IsName x.2.name :=
    h.places x.1 x.2 (hplace hx)
  have hfinals : ∀ set ∈ net.finalSets, ∀ id ∈ set, IsName (finalName net id) := by
    intro set hset id hid
    obtain ⟨p, hp⟩ := hw.live hset hid
    rw [finalName, Net.placeName?, hp]
    exact h.places id p hp
  have hcounts : (net.marked.map (fun x => (x.2.name, toString x.2.tokens))).mapM readCount
      = .ok (net.marked.map (fun x => (x.2.name, x.2.tokens))) := by
    have hfit : ∀ y ∈ net.marked.map (fun x => (x.2.name, x.2.tokens)), y.2 ≤ Text.maxWord := by
      intro y hy
      obtain ⟨x, hx, rfl⟩ := List.mem_map.1 hy
      exact Nat.le_of_lt_succ (ht x.1 x.2 (hplace hx))
    have h := mapM_readCount hfit
    rwa [List.map_map] at h
  have hfile := reads_file h hmarked hfinals
  unfold Reads at hfile
  rw [String.append_empty, ← file_skip] at hfile
  unfold read Rule.accept?
  rw [hfile]
  simp only [Option.map_some, draft, hcounts]
  rfl

/-! ## The document is the net -/

theorem map_some_filterMap {α β : Type} {f : α → Option β} {xs : List α}
    (h : ∀ x ∈ xs, (f x).isSome) : (xs.filterMap f).map some = xs.map f := by
  induction xs with
  | nil => rfl
  | cons x xs ih =>
    obtain ⟨y, hy⟩ := Option.isSome_iff_exists.1 (h x (List.mem_cons_self ..))
    rw [List.filterMap_cons_some hy, List.map_cons, List.map_cons, hy,
      ih fun z hz => h z (List.mem_cons_of_mem _ hz)]

theorem map_some_memberNames {ids : OrderedSet PlaceId}
    (h : ∀ id ∈ ids, ∃ p, net.place? id = some p) :
    (memberNames net ids).map some = ids.toList.map net.placeName? := by
  refine map_some_filterMap fun id hid => ?_
  obtain ⟨p, hp⟩ := h id hid
  rw [Net.placeName?, hp]
  rfl

theorem namesOf_livePlaces (ids : OrderedSet PlaceId) :
    namesOf (net.livePlaces ids) = memberNames net ids := by
  unfold namesOf Net.livePlaces memberNames
  rw [List.map_filterMap]
  refine List.filterMap_congr fun id _ => ?_
  rw [Option.map_map]
  rfl

/-- The names on one of the lists of places. -/
theorem map_some_listed (hl : net.ListsAgree) (kind : NodeKind) :
    (namesOf (net.livePlaces (net.listed kind))).map some
      = (net.listed kind).toList.map net.placeName? := by
  rw [namesOf_livePlaces]
  exact map_some_memberNames fun id hid => hl.live_of_listed hid

theorem some_finalName {id : PlaceId} (h : ∃ p, net.place? id = some p) :
    some (finalName net id) = net.placeName? id := by
  obtain ⟨p, hp⟩ := h
  rw [finalName, Net.placeName?, hp]
  rfl

/-- The neighbours of a transition are live. -/
theorem live_of_mem (hf : net.FlowAgrees) {t : Transition} (ht : t ∈ net.transitions)
    (flow : ArcKind) {id : PlaceId} (hid : id ∈ flow.ofTransition t) :
    ∃ p, net.place? id = some p := by
  obtain ⟨i, hi⟩ := List.mem_iff_getElem?.1 ht
  have harc : flow.arc id ⟨i⟩ ∈ net.arcs := hf.transition_iff.2 ⟨t, hi, hid⟩
  exact (hf.ends_of_arc harc).1

/-- A name leads to one place, so no two places with tokens share a name. -/
theorem nodup_markedNames (hw : net.WellFormed) : (net.marked.map (fun x => x.2.name)).Nodup := by
  have hplaces : net.marked.Nodup := (List.Nodup.of_map _ hw.nodup_places).filter _
  refine hplaces.map_on fun x hx y hy hname => ?_
  have hx' := hw.mem_places.1 (List.mem_filter.1 hx).1
  have hy' := hw.mem_places.1 (List.mem_filter.1 hy).1
  have hid : x.1 = y.1 := by
    have hfind := hw.find_name hx'
    rw [hname, hw.find_name hy'] at hfind
    exact (Option.some.inj hfind).symm
  rw [hid, hy'] at hx'
  exact Prod.ext hid (Option.some.inj hx').symm

theorem toList_marking (hw : net.WellFormed) (withPorts : Bool) :
    (document net withPorts).marking.toList
      = net.marked.map (fun x => (x.2.name, x.2.tokens)) := by
  refine OrderedMap.toList_ofList ?_
  rw [List.map_map]
  exact nodup_markedNames hw

theorem toList_ports (net : Net) (withPorts : Bool) :
    (document net withPorts).ports.toList = draftPorts net withPorts := by
  refine OrderedMap.toList_ofList ?_
  unfold draftPorts
  split
  · have hkeys : ((net.portPlaces.map (fun x => (x.1, memberNames net x.2))).map Prod.fst)
        = net.ports.keys := by
      unfold Net.portPlaces OrderedMap.keys
      rw [List.map_map, List.map_map]
      rfl
    rw [hkeys]
    exact net.ports.nodup
  · exact List.nodup_nil

theorem map_some_draftPorts (hw : net.WellFormed) (withPorts : Bool) :
    (draftPorts net withPorts).map (fun x => (x.1, x.2.map some))
      = if withPorts then net.ports.toList.map (fun x => (x.1,
            (OrderedSet.ofList (x.2.toList.filterMap net.find?)).toList.map net.placeName?))
        else [] := by
  unfold draftPorts Net.portPlaces
  split
  · rw [List.map_map, List.map_map]
    refine List.map_congr_left fun x _ => congrArg (Prod.mk x.1) (map_some_memberNames ?_)
    intro id hid
    obtain ⟨name, -, hname⟩ := List.mem_filterMap.1 (OrderedSet.mem_ofList.1 hid)
    exact hw.live_of_find hname
  · rfl

theorem map_entry (hw : net.WellFormed) :
    (net.transitions.map (entry net)).map (fun e => (e.name, e.kind, e.consume.map some,
        e.produce.map some))
      = net.transitions.map (fun t => (t.name, t.kind, t.preset.toList.map net.placeName?,
        t.postset.toList.map net.placeName?)) := by
  rw [List.map_map]
  refine List.map_congr_left fun t ht => ?_
  have hlive := live_of_mem hw.toFlowAgrees ht
  rw [← map_some_memberNames fun id (hid : id ∈ t.preset) => hlive .consumes hid,
    ← map_some_memberNames fun id (hid : id ∈ t.postset) => hlive .produces hid]
  rfl

/-- The document of a well-formed net has its size. -/
theorem statistics_document (hw : net.WellFormed) (withPorts : Bool) :
    (document net withPorts).statistics = net.statistics := by
  have hlist (kind : NodeKind) : (namesOf (net.livePlaces (net.listed kind))).length
      = (net.listed kind).size := by
    have h := congrArg List.length (map_some_listed hw.toListsAgree kind)
    rwa [List.length_map, List.length_map] at h
  have hinternal : (document net withPorts).internal.length = net.internal.size := hlist .internal
  have hinput : (document net withPorts).input.length = net.input.size := hlist .input
  have houtput : (document net withPorts).output.length = net.output.size := hlist .output
  have htransitions : (document net withPorts).transitions.length = net.transitions.length :=
    List.length_map ..
  have harcs : total (fun t => t.consume.length + t.produce.length)
      (document net withPorts).transitions = net.arcs.size := by
    have h := congrArg (total fun e => e.2.2.1.length + e.2.2.2.length) (map_entry hw)
    simp only [Net.total_map, List.length_map] at h
    rw [hw.size_arcs, document, Net.total_map]
    exact h
  unfold Document.statistics Net.statistics
  rw [hinternal, hinput, houtput, htransitions, harcs]

/-- The document of a net describes it. -/
theorem describes_document (hw : net.WellFormed) (withPorts : Bool) :
    Describes (document net withPorts) net withPorts where
  internal := map_some_listed hw.toListsAgree .internal
  input := map_some_listed hw.toListsAgree .input
  output := map_some_listed hw.toListsAgree .output
  marking := toList_marking hw withPorts
  finals := by
    refine (List.map_map ..).trans (List.map_congr_left fun set hset => ?_)
    refine (List.map_map ..).trans (List.map_congr_left fun id hid => ?_)
    exact some_finalName (hw.live hset hid)
  transitions := map_entry hw
  ports := by
    rw [toList_ports]
    exact map_some_draftPorts hw withPorts
  statistics := statistics_document hw withPorts

/-- A net that came about by construction steps, has names of the format and
no empty final set is read back from its text exactly as it is. -/
theorem read_write (calls : List Call) (withPorts : Bool)
    (h : Readable (Net.run calls) withPorts) :
    ∃ doc, read (write (Net.run calls) withPorts) = .ok doc
      ∧ Describes doc (Net.run calls) withPorts :=
  ⟨document (Net.run calls) withPorts,
    read_eq_document h (Net.wellFormed_run calls) (Net.tokensFit_run calls),
    describes_document (Net.wellFormed_run calls) withPorts⟩

/-- The names of live places can be looked through. -/
theorem Legible.of_lists (hw : net.WellFormed) (hplaces : ∀ x ∈ net.places, IsName x.2.name)
    (htransitions : ∀ t ∈ net.transitions, IsName t.name)
    (hports : ∀ port ∈ net.ports.keys, IsName port) : Legible net withPorts where
  places := fun id p hp => hplaces (id, p) (hw.mem_places.2 hp)
  transitions := htransitions
  ports := fun _ => hports

/-- A request is received and answered. -/
def exchange : List Call :=
  [.newPlace "ready" .internal, .newPlace "waiting" .internal, .newPlace "done" .internal,
    .newPlace "in.ask" .input, .newPlace "out.tell" .output, .newTransition "ask" .input,
    .newArc (.place (.named "ready")) (.transition ⟨0⟩),
    .newArc (.place (.named "in.ask")) (.transition ⟨0⟩),
    .newArc (.transition ⟨0⟩) (.place (.named "waiting")), .newTransition "tell" .output,
    .newArc (.place (.named "waiting")) (.transition ⟨1⟩),
    .newArc (.transition ⟨1⟩) (.place (.named "out.tell")),
    .newArc (.transition ⟨1⟩) (.place (.named "done")), .setTokens (.named "ready") 1,
    .addFinalSet [.named "done"], .addFinalSet [.named "ready", .named "out.tell"],
    .addPort "talk" "in.ask", .addPort "talk" "out.tell"]

/-- The exchange, with its port, is read back from its text. -/
theorem read_write_exchange :
    Readable (Net.run exchange) true
      ∧ ∃ doc, read (write (Net.run exchange) true) = .ok doc
        ∧ Describes doc (Net.run exchange) true :=
  have h : Readable (Net.run exchange) true :=
    ⟨.of_lists (Net.wellFormed_run exchange) (by decide) (by decide) (by decide), by decide⟩
  ⟨h, read_write exchange true h⟩

end Owfn

end OpenWorkflow
