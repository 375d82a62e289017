import OpenWorkflow.Proofs.Interface
import OpenWorkflow.Proofs.Owfn.RoundTrip
import OpenWorkflow.Proofs.Workflow.Elements
import OpenWorkflow.Proofs.Workflow.Reading

/-!
# Nets of documents, written and read back

The net of a document is written as a text, and the text is read back. Nothing
but the names can be in the way: the net is consistent, the tokens fit in words
and no final set is empty (`Net.Tidy`). What stands in the names is the number of
a fragment and words of the construction, and between them the texts that the
document chooses (`Activity.chosen`).

Main statement: the text of the net of a document is read back with the size of
the net if its names are names of the format, and they are if the chosen texts
are without space and marks (`read_compileSource`). Readers of documents do not
ask that of them (`read_spacedOperation_fails`).
-/

namespace OpenWorkflow

variable {withPorts : Bool} {operation : String}

namespace Net

/-! ## Nets that can be written -/

/-- A net that can be written, as far as names do not matter, and whose names and ports have the
given properties. -/
structure Tidy (name port : String → Prop) (net : Net) : Prop where
  wellFormed : net.WellFormed
  tokens : net.TokensFit
  finals : ∀ set ∈ net.finalSets, set.isEmpty = false
  places : ∀ {id p}, net.place? id = some p → ∀ n ∈ p.history, name n
  transitions : ∀ {t tr}, net.transition? t = some tr → name tr.name
  ports : ∀ x ∈ net.ports.keys, port x

/-- The ports are those that lines list. -/
theorem Traced.mem_ports {base net : Net} {L : List Line} (h : base.Traced L net) {x : String}
    (hx : x ∈ net.ports.keys) : x ∈ base.ports.keys ∨ ∃ n, .port x n ∈ L := by
  induction h with
  | blank => exact .inl hx
  | line _ hdoes ih =>
    have hold {l : Line} {L : List Line}
        (h : x ∈ base.ports.keys ∨ ∃ n, .port x n ∈ L) :
        x ∈ base.ports.keys ∨ ∃ n, .port x n ∈ l :: L :=
      h.imp_right fun ⟨n, hn⟩ => ⟨n, List.mem_cons_of_mem _ hn⟩
    cases hdoes with
    | port =>
      rcases OrderedMap.mem_keys_insert.1 hx with rfl | hx
      · exact .inr ⟨_, List.mem_cons_self ..⟩
      · exact hold (ih hx)
    | place => exact hold (ih (ports_addPlace .. ▸ hx))
    | arc => exact hold (ih (ports_connect .. ▸ hx))
    | joins _ _ hm => exact hold (ih (hm.ports_unify ▸ hx))
    | _ => exact hold (ih hx)
  | number _ ih => exact ih hx
  | perm _ hperm ih => exact (ih hx).imp_right fun ⟨n, hn⟩ => ⟨n, hperm.subset hn⟩

end Net

/-- The names and ports that a line puts down have the given properties. -/
def Line.Fits (name port : String → Prop) : Line → Prop
  | .place n _ => name n
  | .transition t _ => name t
  | .port x _ => port x
  | _ => True

section Fits

variable {root : Activity} {letter : Char → Prop} {name port : String → Prop} {l : Line}
  (hplain : ∀ c, isPlain c → letter c)
  (htext : ∀ b ∈ root.walk, ∀ x ∈ b.texts, ∀ c ∈ x.toList, letter c)
  (hname : ∀ k x, (∀ c ∈ x.toList, letter c) → name (Scope.name ⟨k⟩ x))
  (hmessage : ∀ m, .messaging m ∈ root.walk → (∀ s, name (m.placeName s)) ∧ port m.port)
include hplain htext hname hmessage

/-- The lines of the net put down names of fragments, and those of messages. -/
theorem Activity.fits_sheet (hl : l ∈ root.sheet) : l.Fits name port := by
  have hnamed {ts : List String} {s : Scope} {n : String}
      (hts : ∀ x ∈ ts, ∃ b ∈ root.walk, x ∈ b.texts) (hn : Named ts s n) : name n := by
    obtain ⟨⟨x, rfl⟩, hspelled⟩ := hn
    refine hname s.id x fun c hc => ?_
    rcases spelled_name.1 hspelled c hc with hc | ⟨t, ht, hc⟩
    · exact hplain c hc
    · obtain ⟨b, hb, hbt⟩ := hts t ht
      exact htext b hb t hbt c hc
  rcases sheet_cases hl with ⟨s, m, ⟨i, hi, -⟩, hl⟩ | ⟨ts, s, hts, -, hl⟩
  · obtain ⟨hplace, hport⟩ := hmessage m (List.mem_of_getElem? hi)
    have hplain' {x : String} (hx : x.toList.all isPlain = true) : name (s.name x) :=
      hname s.id x fun c hc => hplain c (List.all_eq_true.1 hx c hc)
    have hlabel : m.kind.label.toList.all isPlain = true := by
      cases m.kind <;> decide
    simp only [endLines, messageLines, List.cons_append, List.nil_append, List.mem_cons,
      List.not_mem_nil, or_false] at hl
    rcases hl with rfl | rfl | rfl | rfl | rfl | rfl | rfl | rfl
    · exact hplain' (by decide)
    · exact hplain' (by decide)
    · exact hplace s
    · exact hport
    · exact hplain' hlabel
    all_goals trivial
  · cases l with
    | place n kind => exact hnamed hts hl.2
    | transition t kind => exact hnamed hts hl.2
    | port x n => exact hl.elim
    | _ => trivial

/-- The names of the net of an activity. -/
theorem tidy_of_compile {net : Net} (h : compile root = .ok net) : net.Tidy name port := by
  obtain ⟨hw, i, c, hbounds⟩ := compile_bounds h
  have hshows := compile_shows h
  have hfits {l : Line} (hl : l ∈ root.sheet) : l.Fits name port :=
    Activity.fits_sheet hplain htext hname hmessage hl
  refine ⟨hw, ?_, ?_, ?_, fun ht => hfits (hshows.transition_kind ht), ?_⟩
  · intro id p hp
    rw [hbounds.tokens hp]
    split <;> decide
  · rw [hbounds.finals]
    exact List.forall_mem_singleton.2 rfl
  · intro id p hp n hn
    have hfind : net.find? n = some id := hw.find.2 ⟨p, hp, hn⟩
    obtain ⟨kind, hline⟩ := hshows.known.1 (Net.knows_of_find hfind)
    exact hfits hline
  · intro x hx
    have hnone : Net.inside.ports.keys = [] := by decide +kernel
    rcases (compile_traced h).mem_ports hx with hx | ⟨n, hn⟩
    · rw [hnone] at hx
      exact absurd hx List.not_mem_nil
    · have hline : .port x n ∈ root.sheet := List.mem_append_left (Activity.endLines ⟨0⟩) hn
      exact hfits hline

end Fits

/-- A document with a net can be scanned and read. -/
theorem compileSource_ok {r : Registry} {source : String} {net : Net}
    (h : compileSource r source = .ok net) : ∃ tokens root, scanDocument source = .ok tokens ∧
      parseDocument r tokens = .ok root ∧ compile root = .ok net := by
  unfold compileSource at h
  cases hscan : scanDocument source with
  | error e =>
    rw [hscan] at h
    cases h
  | ok tokens =>
    rw [hscan] at h
    cases hparse : parseDocument r tokens with
    | error e =>
      simp only [bind, Except.bind, readActivity, hparse] at h
      cases h
    | ok root =>
      simp only [bind, Except.bind, readActivity, hparse] at h
      exact ⟨tokens, root, rfl, hparse, h⟩

/-- Whatever its names, the net of a document can be written otherwise. -/
theorem tidy_of_compileSource {r : Registry} {source : String} {net : Net}
    (h : compileSource r source = .ok net) : net.Tidy (fun _ => True) fun _ => True := by
  obtain ⟨-, root, -, -, hcompile⟩ := compileSource_ok h
  have hplain (c : Char) (_ : isPlain c) : True := trivial
  exact tidy_of_compile hplain (fun _ _ _ _ _ _ => trivial) (fun _ _ _ => trivial)
    (fun _ _ => ⟨fun _ => trivial, trivial⟩) hcompile

/-! ## Names of the format -/

namespace Owfn

/-- If the names allow it, the text of the net is read back with the size of the net. -/
theorem Legible.reads_back {name port : String → Prop} {net : Net} (h : Legible net withPorts)
    (ht : net.Tidy name port) :
    ∃ doc, read (write net withPorts) = .ok doc ∧ doc.statistics = net.statistics := by
  exact ⟨document net withPorts, read_eq_document ⟨h, ht.finals⟩ ht.wellFormed ht.tokens,
    statistics_document ht.wellFormed withPorts⟩

theorem not_mem_delimiters_of_isPlain (c : Char) (h : isPlain c) : c ∉ delimiters := by
  have hnone : delimiters.all (fun d => !isPlain d) = true := by decide
  intro hc
  have hnot := List.all_eq_true.1 hnone c hc
  rw [h] at hnot
  cases hnot

/-- The text is without space and marks, or empty. -/
def Bare (x : String) : Prop := ∀ c ∈ x.toList, c ∉ delimiters

instance (x : String) : Decidable (Bare x) :=
  decidable_of_iff (x.toList.all (fun c => !delimiters.contains c) = true) (by simp [Bare])

theorem Bare.append {x y : String} (hx : Bare x) (hy : Bare y) : Bare (x ++ y) := by
  intro c hc
  rw [String.toList_append] at hc
  exact (List.mem_append.1 hc).elim (hx c) (hy c)

theorem IsName.append {x y : String} (hx : IsName x) (hy : Bare y) : IsName (x ++ y) := by
  refine ⟨fun hempty => hx.1 ?_, Bare.append hx.2 hy⟩
  exact (String.append_eq_empty_iff.1 hempty).1

theorem isName_toString (k : Nat) : IsName (toString k) := by
  refine ⟨Text.toString_ne_empty k, fun c hc => not_mem_delimiters_of_isPlain c ?_⟩
  simp [isPlain, Text.isDigit_of_mem_toString hc]

/-- Numbered names of bare texts are names of the format. -/
theorem isName_name (k : Nat) {x : String} (hx : Bare x) : IsName (Scope.name ⟨k⟩ x) :=
  ((isName_toString k).append (by decide)).append hx

end Owfn

open Owfn (Bare IsName)

/-! ## Texts of the document -/

/-- The texts of an activity that stand in names and are chosen by the document. -/
def Activity.chosen : Activity → List String
  | .atomic _ => []
  | .messaging m => if m.kind.isReply then [] else [m.contract, m.operation]
  | a => a.texts

/-- The texts are without space and marks, and the port has a name if it is to be written. -/
structure Activity.Legible (withPorts : Bool) (a : Activity) : Prop where
  bare : ∀ x ∈ a.chosen, Bare x
  port : withPorts = true → ∀ m, a = .messaging m → m.port ≠ ""

/-- The interface place and the port of a message have names of the format. -/
theorem Messaging.isName_of_legible {m : Messaging} (h : (Activity.messaging m).Legible withPorts) :
    (∀ s, IsName (m.placeName s)) ∧ (withPorts = true → IsName m.port) := by
  have hdirection : IsName ((if m.kind.isInbound then "in" else "out") ++ ".") := by
    cases m.kind.isInbound <;> decide
  have hport := fun hports => h.port hports m rfl
  have hbare := h.bare
  unfold Activity.chosen at hbare
  unfold Messaging.placeName
  unfold Messaging.port at hport ⊢
  cases hreply : m.kind.isReply with
  | true =>
    simp only [if_true]
    exact ⟨fun s => (hdirection.append (Owfn.isName_toString s.id).2).append (by decide),
      fun _ => by decide⟩
  | false =>
    simp only [hreply, Bool.false_eq_true, if_false, List.forall_mem_cons] at hport hbare ⊢
    obtain ⟨hcontract, hoperation, -⟩ := hbare
    exact ⟨fun _ => ((hdirection.append hcontract).append (by decide)).append hoperation,
      fun hports => ⟨hport hports, hcontract⟩⟩

/-- Standard activities of one step have labels of plain letters. -/
theorem Registry.isPlain_label {a : Atomic} (h : .atomic a ∈ Registry.standardTypes) :
    a.label.toList.all isPlain := by
  have hall : ∀ type ∈ Registry.standardTypes, (match type with
      | .atomic a => a.label.toList.all isPlain
      | _ => true) = true := by decide
  exact hall _ h

/-- The texts in the names of a fragment are chosen by the document, or they are labels. -/
theorem Activity.bare_texts {T : Markup.Token → Prop} {b : Activity}
    (hreads : Registry.standard.Reads T b) (h : b.Legible withPorts) : ∀ x ∈ b.texts, Bare x := by
  cases b with
  | atomic a =>
    obtain hempty | ⟨t, -, hresolve⟩ := hreads.tag
    · cases hempty
    · have hlabel := Registry.isPlain_label (Registry.resolve?_standard hresolve).1
      refine List.forall_mem_singleton.2 fun c hc => ?_
      exact Owfn.not_mem_delimiters_of_isPlain c (List.all_eq_true.1 hlabel c hc)
  | messaging m => exact fun x hx => nomatch hx
  | _ => exact h.bare

namespace Owfn

/-- **Round trip from a document.** The text of the net of a document is read back with the size
of the net, if its names are names of the format, and they are if the texts that the document
chooses are without space and marks. -/
theorem read_compileSource {source : String} {net : Net}
    (h : compileSource Registry.standard source = .ok net) :
    ∃ tokens root, scanDocument source = .ok tokens ∧
      parseDocument Registry.standard tokens = .ok root ∧ compile root = .ok net ∧
      ∀ withPorts,
        ((∀ b ∈ root.walk, b.Legible withPorts) → Legible net withPorts) ∧
          (Legible net withPorts →
            ∃ doc, read (write net withPorts) = .ok doc ∧ doc.statistics = net.statistics) := by
  obtain ⟨tokens, root, hscan, hparse, hcompile⟩ := compileSource_ok h
  have hreads := (parseDocument_throughout hparse).walk ⟨trivial, .inl rfl⟩
  refine ⟨tokens, root, hscan, hparse, hcompile, fun withPorts => ⟨fun hlegible => ?_, ?_⟩⟩
  · have htidy : net.Tidy IsName fun port => withPorts = true → IsName port :=
      tidy_of_compile not_mem_delimiters_of_isPlain
        (fun b hb => Activity.bare_texts (hreads b hb) (hlegible b hb)) (fun k _ => isName_name k)
        (fun m hm => m.isName_of_legible (hlegible _ hm)) hcompile
    refine ⟨fun _ _ hp => htidy.places hp _ (htidy.wellFormed.current hp), fun t ht => ?_,
      fun hports port hport => htidy.ports port hport hports⟩
    obtain ⟨i, hi⟩ := List.mem_iff_getElem?.1 ht
    exact htidy.transitions (t := ⟨i⟩) hi
  · intro hlegible
    exact hlegible.reads_back (tidy_of_compileSource h)

/-! ## Names with a blank -/

section Spaced

open OpenWorkflow.Text (Rule)

variable {net : Net} {x y : String}

theorem Refuses.blanks {β : Type} {f : Unit → Rule β} {text : String} (h : Refuses (f ()) text) :
    Refuses (Grammar.blanks >>= f) text := by
  have hblanks : Grammar.blanks (skip text) = some ((), skip text) :=
    congrArg (fun cs => some ((), cs)) (List.dropWhile_idempotent ..)
  unfold Refuses at *
  rw [bind_apply, hblanks]
  exact h

theorem read_of_refuses {text : String} (h : Refuses Grammar.file text) :
    read text = .error .malformed := by
  unfold Refuses at h
  unfold read Rule.accept?
  rw [file_skip, h]
  rfl

/-- Where a name stands, no mark stands. -/
theorem refuses_mark_of_name {w : String} (hw : Begins (fun c => !isNameChar c) w) (hy : IsName y)
    (rest : String) : Refuses (Grammar.mark w) (" " ++ (y ++ rest)) := by
  refine .blank_left (by decide) (refuses_mark ((hy.next.append rest).imp fun c hc => ?_))
  obtain ⟨d, ds, hlist, hd⟩ := head?_any_iff.1 hw
  have hne : c ≠ d := by
    rintro rfl
    simp [hc] at hd
  rw [hlist]
  simpa using hne

/-- A list of names ends before a name that no comma separates from it. -/
theorem reads_names_spaced (hx : IsName x) (hy : IsName y) (rest : String) :
    Reads Grammar.names x [x] (" " ++ (y ++ rest)) := by
  have hstop : Refuses (Grammar.mark ",") (" " ++ (y ++ rest)) :=
    refuses_mark_of_name (by decide) hy rest
  have hmore : Reads (Rule.many (do Grammar.mark ","; Grammar.name)) "" ([] : List String)
      (" " ++ (y ++ rest)) := by
    have h := Reads.many ([] : List String) id id (fun _ => True) (fun _ h => nomatch h) trivial
      (hstop.bind (f := fun _ => Grammar.name))
    rwa [List.map_nil, String.join_nil] at h
  have hlist : Reads Grammar.names (x ++ "") [x] (" " ++ (y ++ rest)) := by
    refine (Reads.opt_some (reads_name hx ?_)).bind hmore.bind_pure
    rw [String.empty_append]
    exact .append (by decide) _
  rwa [String.append_empty] at hlist

theorem refuses_titled_spaced {title head glue : String} (names : List String)
    (hhead : Spells title head) (hx : IsName x) (hy : IsName y) (rest : String) :
    Refuses (Grammar.titled title)
      (head ++ (glue.intercalate ((x ++ " " ++ y) :: names) ++ rest)) := by
  rw [intercalate_cons_eq_join]
  simp only [String.append_assoc]
  refine (reads_mark hhead _).refuses_bind ?_
  refine (reads_names_spaced hx hy _).refuses_bind (Refuses.bind ?_)
  exact refuses_mark_of_name (by decide) hy _

theorem refuses_places_spaced {names : List String}
    (hinternal : ∀ n ∈ namesOf (net.livePlaces net.internal), IsName n)
    (hinput : namesOf (net.livePlaces net.input) = (x ++ " " ++ y) :: names) (hx : IsName x)
    (hy : IsName y) (rest : String) : Refuses Grammar.places (places net ++ rest) := by
  unfold places
  simp only [String.append_assoc]
  refine (reads_mark (by decide) _).refuses_bind ?_
  refine (reads_placeList (by decide) (by decide) (by decide) hinternal _).refuses_bind ?_
  unfold placeList
  rw [hinput, String.append_assoc, String.append_assoc]
  exact (refuses_titled_spaced names (by decide) hx hy _).bind

/-- The text of a net whose first input place has a blank in its name cannot be read. -/
theorem read_write_spaced {names : List String}
    (hinternal : ∀ n ∈ namesOf (net.livePlaces net.internal), IsName n)
    (hinput : namesOf (net.livePlaces net.input) = (x ++ " " ++ y) :: names) (hx : IsName x)
    (hy : IsName y) (withPorts : Bool) : read (write net withPorts) = .error .malformed := by
  refine read_of_refuses ?_
  unfold write
  simp only [String.append_assoc]
  refine .blanks ?_
  refine (Reads.opt_some (reads_heading _)).refuses_bind ?_
  exact (refuses_places_spaced hinternal hinput hx hy _).bind

end Spaced

/-! ## A document with one message -/

/-- A document that receives one message. -/
def receiveSource (operation : String) : String :=
  "<Activity xmlns=\"" ++ Markup.Namespace.activities ++ "\" xmlns:p=\""
    ++ Markup.Namespace.serviceModel ++ "\"><p:Receive OperationName=\"" ++ operation
    ++ "\"/></Activity>"

/-- The characters of the document, part by part. The whole text is slow to take apart. -/
def receiveChars (operation : String) : List Char :=
  "<Activity xmlns=\"".toList ++ Markup.Namespace.activities.toList ++ "\" xmlns:p=\"".toList
    ++ Markup.Namespace.serviceModel.toList ++ "\"><p:Receive OperationName=\"".toList
    ++ operation.toList ++ "\"/></Activity>".toList

theorem toList_receiveSource (operation : String) :
    (receiveSource operation).toList = receiveChars operation := by
  unfold receiveSource receiveChars
  simp only [String.toList_append]

/-- The net of a document that is given by its characters. -/
def compileChars (r : Registry) (cs : List Char) : Except CompileError Net :=
  match (Markup.Document.document cs).map Prod.fst with
  | none => .error (.scan .malformed)
  | some root =>
    match (Markup.Scan.content [] root).map Prod.snd with
    | .error e => .error (.scan e)
    | .ok tokens => readActivity r (Markup.screen tokens) >>= compile

theorem compileSource_eq (r : Registry) (source : String) :
    compileSource r source = compileChars r source.toList := by
  unfold compileSource scanDocument Markup.scan Markup.Document.read? Text.Rule.accept? compileChars
  cases (Markup.Document.document source.toList).map Prod.fst with
  | none => rfl
  | some root =>
    cases hcontent : (Markup.Scan.content [] root).map Prod.snd with
    | error e => simp only [hcontent]; rfl
    | ok tokens => simp only [hcontent]; rfl

/-- The names in the net of the document. -/
structure ReceiveNames (operation : String) (net : Net) : Prop where
  internal : namesOf (net.livePlaces net.internal)
    = ["0.internal.initialized", "0.internal.closed"]
  input : namesOf (net.livePlaces net.input) = ["in.C." ++ operation]
  output : namesOf (net.livePlaces net.output) = []
  transitions : net.transitions.map Transition.name = ["1.internal.receive"]
  ports : net.ports.keys = ["C"]

instance (operation : String) (net : Net) : Decidable (ReceiveNames operation net) :=
  decidable_of_iff (namesOf (net.livePlaces net.internal)
        = ["0.internal.initialized", "0.internal.closed"] ∧
      namesOf (net.livePlaces net.input) = ["in.C." ++ operation] ∧
      namesOf (net.livePlaces net.output) = [] ∧
      net.transitions.map Transition.name = ["1.internal.receive"] ∧ net.ports.keys = ["C"])
    ⟨fun ⟨h₁, h₂, h₃, h₄, h₅⟩ => ⟨h₁, h₂, h₃, h₄, h₅⟩,
      fun h => ⟨h.internal, h.input, h.output, h.transitions, h.ports⟩⟩

theorem ReceiveNames.isName_internal {net : Net} (h : ReceiveNames operation net) :
    ∀ n ∈ namesOf (net.livePlaces net.internal), IsName n := by
  rw [h.internal]
  decide

/-- The outcome of the computation. -/
theorem exists_receiveNames
    (h : (match compileChars Registry.standard (receiveChars operation) with
      | .ok net => decide (ReceiveNames operation net)
      | .error _ => false) = true) :
    ∃ net, compileSource Registry.standard (receiveSource operation) = .ok net ∧
      ReceiveNames operation net := by
  rw [compileSource_eq, toList_receiveSource]
  split at h
  · rename_i net hok
    exact ⟨net, hok, of_decide_eq_true h⟩
  · cases h

/-- With a name of the format for its operation, the names of the net are legible. -/
theorem ReceiveNames.legible {net : Net} (h : ReceiveNames operation net) (hw : net.WellFormed)
    (hoperation : IsName ("in.C." ++ operation)) (withPorts : Bool) :
    Legible net withPorts where
  places id p hp := by
    have hname {ids : OrderedSet PlaceId} (hmem : (id, p) ∈ net.livePlaces ids) :
        p.name ∈ namesOf (net.livePlaces ids) := List.mem_map.2 ⟨(id, p), hmem, rfl⟩
    have hplace : (id, p) ∈ net.places := hw.mem_places.2 hp
    rcases List.mem_append.1 hplace with hplace | hplace
    · rcases List.mem_append.1 hplace with hplace | hplace
      · exact h.isName_internal _ (hname hplace)
      · have hmem := hname hplace
        rw [h.input] at hmem
        rw [List.mem_singleton.1 hmem]
        exact hoperation
    · have hmem := hname hplace
      rw [h.output] at hmem
      cases hmem
  transitions t ht := by
    have hmem : t.name ∈ net.transitions.map Transition.name := List.mem_map_of_mem ht
    rw [h.transitions] at hmem
    rw [List.mem_singleton.1 hmem]
    decide
  ports _ port hport := by
    rw [h.ports] at hport
    rw [List.mem_singleton.1 hport]
    decide

/-- The net of a document that receives one message is read back. -/
theorem read_compileSource_receive : ∃ net,
    compileSource Registry.standard (receiveSource "ask") = .ok net ∧
      ∀ withPorts, Legible net withPorts ∧
        ∃ doc, read (write net withPorts) = .ok doc ∧ doc.statistics = net.statistics := by
  obtain ⟨net, hok, hnames⟩ : ∃ net, _ ∧ ReceiveNames "ask" net :=
    exists_receiveNames (by decide +kernel)
  obtain ⟨_, _, _, _, _, hread⟩ := read_compileSource hok
  refine ⟨net, hok, fun withPorts => ?_⟩
  have hlegible := hnames.legible (tidy_of_compileSource hok).wellFormed (by decide) withPorts
  exact ⟨hlegible, (hread withPorts).2 hlegible⟩

/-- If there is a blank in the name of the operation, the document has a net all the same, but
the text of the net cannot be read. -/
theorem read_spacedOperation_fails : ∃ net,
    compileSource Registry.standard (receiveSource "a b") = .ok net ∧
      ∀ withPorts, read (write net withPorts) = .error .malformed := by
  obtain ⟨net, hok, hnames⟩ : ∃ net, _ ∧ ReceiveNames "a b" net :=
    exists_receiveNames (by decide +kernel)
  refine ⟨net, hok, ?_⟩
  exact read_write_spaced hnames.isName_internal hnames.input (x := "in.C.a") (y := "b") (by decide)
    (by decide)

end Owfn

end OpenWorkflow
