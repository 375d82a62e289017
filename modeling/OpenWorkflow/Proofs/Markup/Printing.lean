import OpenWorkflow.Markup.Document
import OpenWorkflow.Markup.Entity
import OpenWorkflow.Markup.Token
import OpenWorkflow.Proofs.Owfn.Lexing

/-!
# Printed documents

An `Element` is a tree of start tags: namespace, local name, attributes in order
and the elements inside. `Element.print` writes it as a document in which each
tag declares its namespace as the default one and the prefix `x` for the markup
language, and in which attribute values have their special characters replaced by
references.

`Takes p text a rest` says that a rule of the grammar takes exactly `text` from
the front of `text ++ rest`. By such laws, one for each rule, a printed element
is read as the content it was printed from (`read?_print`), whatever its depth:
the end tag of an element is where the content inside it stops.
-/

namespace OpenWorkflow.Markup

open OpenWorkflow.Text (Rule)
open OpenWorkflow.Owfn (atMost_of_none atMost_of_some bind_apply literal_append isPrefixOf?_cons)
open Document (attr emptyTag isNameChar isNameStart isSpace misc piece quotedBy)

variable {c : Char} {test : Char → Bool} {x : List Char} {s : String}

/-! ## Elements and how they are printed -/

/-- An element with its attributes and the elements inside it. -/
inductive Element where
  /-- An element of a namespace. -/
  | node (ns name : String) (attributes : OrderedMap String String) (children : List Element)

namespace Element

/-- A character of an attribute value, as it is written. -/
def escapeChar (c : Char) : List Char :=
  if c = '&' then "&amp;".toList
  else if c = '<' then "&lt;".toList
  else if c = '>' then "&gt;".toList
  else if c = '"' then "&quot;".toList
  else if c = '\'' then "&apos;".toList
  else [c]

/-- An attribute value, as it is written. -/
def escape (value : String) : String := String.ofList (value.toList.flatMap escapeChar)

/-- The attributes of a tag with the two declarations in front. -/
def declared (ns : String) (attributes : OrderedMap String String) : List (String × String) :=
  ("xmlns", ns) :: ("xmlns:x", Namespace.language) :: attributes.toList

/-- The tag of an element as the grammar sees it. -/
def tag (ns name : String) (attributes : OrderedMap String String) : Tag where
  name := name
  attributes := (declared ns attributes).map (fun a => (a.1, escape a.2))

/-- An attribute, as it is written. -/
def printAttribute (a : String × String) : String := " " ++ a.1 ++ "=\"" ++ a.2 ++ "\""

/-- A start tag up to its closing bracket. -/
def printTag (tag : Tag) : String :=
  "<" ++ tag.name ++ String.join (tag.attributes.map printAttribute)

mutual

/-- The text of an element. -/
def print : Element → String
  | .node ns name attributes children =>
    printTag (tag ns name attributes)
      ++ if children.isEmpty then "/>" else ">" ++ printAll children ++ "</" ++ name ++ ">"

/-- The text of some elements in a row. -/
def printAll : List Element → String
  | [] => ""
  | e :: es => print e ++ printAll es

end

mutual

/-- The element as the grammar sees it. -/
def content : Element → Content
  | .node ns name attributes children =>
    .element (tag ns name attributes) (contents children)
      (if children.isEmpty then none else some name)

/-- Some elements in a row as the grammar sees them. -/
def contents : List Element → List Content
  | [] => []
  | e :: es => content e :: contents es

end

mutual

/-- The start and end tags of an element, in document order. -/
def tokens : Element → List Token
  | .node ns name attributes children =>
    { ns, name, attributes } :: tokensAll children ++ [Token.ending ns name]

/-- The tags of some elements in a row. -/
def tokensAll : List Element → List Token
  | [] => []
  | e :: es => tokens e ++ tokensAll es

end

/-- Is the text a name of the grammar? -/
def isName (s : String) : Bool :=
  match s.toList with
  | [] => false
  | c :: cs => isNameStart c && cs.all isNameChar

theorem exists_of_isName (h : isName s = true) :
    ∃ c cs, s.toList = c :: cs ∧ isNameStart c = true
      ∧ ∀ d ∈ cs, isNameChar d = true := by
  unfold isName at h
  cases hcs : s.toList with
  | nil =>
    rw [hcs] at h
    cases h
  | cons c cs =>
    rw [hcs] at h
    obtain ⟨hc, hall⟩ := Bool.and_eq_true_iff.1 h
    exact ⟨c, cs, rfl, hc, List.all_eq_true.1 hall⟩

/-- Is the text a name without a prefix that declares nothing? -/
def isPlain (s : String) : Bool := isName s && !s.toList.contains ':' && s != "xmlns"

/-- A key is a plain name or a name of the markup language. -/
def IsKey (key : String) : Prop :=
  isPlain key = true ∨ ∃ rest, key = "x:" ++ rest ∧ isName rest = true

mutual

/-- Elements that a document can hold: plain names, and plain or language keys. -/
def Printable : Element → Prop
  | .node _ name attributes children =>
    isPlain name = true ∧ (∀ key ∈ attributes.keys, IsKey key) ∧ AllPrintable children

/-- Some elements in a row that a document can hold. -/
def AllPrintable : List Element → Prop
  | [] => True
  | e :: es => Printable e ∧ AllPrintable es

end

end Element

/-! ## Rules and the text they take -/

section rules

variable {α β : Type} {p q : Rule α} {f : α → Rule β} {a : α} {b : β} {cs rest : List Char}

/-- The rule takes the text and leaves the rest. -/
def Takes (p : Rule α) (text : List Char) (a : α) (rest : List Char) : Prop :=
  p (text ++ rest) = some (a, rest)

/-- The first character, if there is one, does not pass the test. -/
def Stops (test : Char → Bool) (rest : List Char) : Prop := ∀ c ∈ rest.head?, test c = false

/-- Rules in a row take texts in a row. -/
theorem Takes.bind {y : List Char} (hp : Takes p x a (y ++ rest)) (hf : Takes (f a) y b rest) :
    Takes (p >>= f) (x ++ y) b rest := by
  unfold Takes at *
  rw [List.append_assoc, bind_apply, hp]
  exact hf

/-- A rule that only changes the value. -/
theorem Takes.map (hp : Takes p x a rest) (f : α → β) :
    Takes (p >>= fun a => pure (f a)) x (f a) rest := by
  unfold Takes at *
  rw [bind_apply, hp]
  rfl

theorem takes_literal (s : String) (rest : List Char) : Takes (Rule.literal s) s.toList () rest :=
  literal_append s rest

theorem dropWhile_of_stops (h : Stops test rest) : rest.dropWhile test = rest := by
  cases rest with
  | nil => rfl
  | cons c cs => exact List.dropWhile_cons_of_neg (by simp [h c rfl])

theorem takeWhile_of_stops (h : Stops test rest) : rest.takeWhile test = [] := by
  cases rest with
  | nil => rfl
  | cons c cs => exact List.takeWhile_cons_of_neg (by simp [h c rfl])

/-- A run ends where the text no longer passes the test. -/
theorem takes_run {text : List Char} (htext : ∀ c ∈ text, test c = true) (hrest : Stops test rest) :
    Takes (Rule.run test) text (String.ofList text) rest := by
  unfold Takes Rule.run
  rw [List.takeWhile_append_of_pos htext, List.dropWhile_append_of_pos htext,
    takeWhile_of_stops hrest, dropWhile_of_stops hrest, List.append_nil]

/-- A run of letters is taken up to the first that does not belong. -/
theorem takes_run1 {text : List Char} (hne : text ≠ []) (htext : ∀ c ∈ text, test c = true)
    (hrest : Stops test rest) : Takes (Rule.run1 test) text (String.ofList text) rest := by
  cases text with
  | nil => exact absurd rfl hne
  | cons c cs =>
    have hrun := takes_run htext hrest
    unfold Takes Rule.run1
    rw [List.cons_append]
    simp only
    rw [if_pos (htext c (List.mem_cons_self ..))]
    exact hrun

theorem takes_optSpace (h : Stops isSpace rest) : Takes Document.optSpace [] () rest :=
  (takes_run (fun _ hc => absurd hc List.not_mem_nil) h).map fun _ => ()

/-- One space before something that is none. -/
theorem takes_space (h : Stops isSpace rest) : Takes Document.space [' '] () rest := by
  have hspace : isSpace ' ' = true := by decide
  have hone : ∀ c ∈ [' '], isSpace c = true :=
    fun c hc => List.mem_singleton.1 hc ▸ hspace
  exact (takes_run1 (List.cons_ne_nil _ _) hone h).map fun _ => ()

/-- A name is taken up to its end. -/
theorem takes_name (hs : Element.isName s = true) (hrest : Stops isNameChar rest) :
    Takes Document.name s.toList s rest := by
  obtain ⟨c, cs, hcs, hc, hall⟩ := Element.exists_of_isName hs
  unfold Takes Document.name Rule.word
  rw [hcs, List.cons_append]
  simp only
  rw [if_pos hc, List.takeWhile_append_of_pos hall, List.dropWhile_append_of_pos hall,
    takeWhile_of_stops hrest, dropWhile_of_stops hrest, List.append_nil, ← hcs,
    String.ofList_toList]

/-- As many items as there are texts, whatever follows an item. -/
theorem takes_many {ι : Type} (xs : List ι) (text : ι → List Char) (value : ι → α)
    (hitem : ∀ x ∈ xs, text x ≠ [] ∧ ∀ r, Takes p (text x) (value x) r) (hstop : p rest = none) :
    Takes (Rule.many p) (xs.flatMap text) (xs.map value) rest := by
  -- an item takes a character, so the length of the text allows for all of them
  have key : ∀ n, (xs.flatMap text ++ rest).length ≤ n →
      Rule.atMost p n (xs.flatMap text ++ rest) = (xs.map value, rest) := by
    induction xs with
    | nil =>
      exact fun n _ => atMost_of_none hstop n
    | cons x xs ih =>
      intro n hn
      obtain ⟨hne, hx⟩ := hitem x (List.mem_cons_self ..)
      have hpos := List.length_pos_iff.2 hne
      rw [List.flatMap_cons, List.append_assoc] at hn ⊢
      rw [List.length_append] at hn
      obtain ⟨m, rfl⟩ : ∃ m, n = m + 1 := ⟨n - 1, by omega⟩
      have hrest := ih (fun y hy => hitem y (List.mem_cons_of_mem _ hy)) m (by omega)
      rw [atMost_of_some (hx (xs.flatMap text ++ rest)), hrest, List.map_cons]
  unfold Takes Rule.many
  rw [key _ (Nat.le_refl _)]

/-- A literal that differs from the text in its first or second character. -/
theorem literal_eq_none (h : s.toList.isPrefixOf? cs = none) : Rule.literal s cs = none := by
  unfold Rule.literal
  rw [h]
  rfl

theorem bind_eq_none (h : p cs = none) : (p >>= f) cs = none := by
  rw [bind_apply, h]
  rfl

theorem Takes.bind_eq_none (hp : Takes p x a rest) (hf : f a rest = none) :
    (p >>= f) (x ++ rest) = none := by
  rw [bind_apply, hp]
  exact hf

theorem orElse_of_some {r : α × List Char} (h : p cs = some r) : (p <|> q) cs = some r := by
  show (p cs).orElse (fun _ => q cs) = _
  rw [h]
  rfl

theorem orElse_of_none (h : p cs = none) : (p <|> q) cs = q cs := by
  show (p cs).orElse (fun _ => q cs) = _
  rw [h]
  rfl

end rules

/-! ## Tags -/

namespace Element

/-- The characters at which a value can end. -/
def delimiters : List Char := ['"', '\'', '<']

/-- A text that can stand between quotes. -/
def IsQuotable (value : String) : Prop := ∀ c ∈ value.toList, c ∉ delimiters

theorem ne_of_notMem_delimiters {quote : Char} (hquote : quote ∈ delimiters) (h : c ∉ delimiters) :
    c ≠ quote ∧ c ≠ '<' :=
  ⟨fun heq => h (heq ▸ hquote), fun heq => h (heq ▸ by decide)⟩

/-- An escaped text can stand in quotes. -/
theorem isQuotable_escape (value : String) : IsQuotable (escape value) := by
  have hchar (d : Char) : (escapeChar d).all (fun c => !delimiters.contains c) = true := by
    unfold escapeChar
    split
    · rfl
    · split
      · rfl
      · split
        · rfl
        · split
          · rfl
          · split
            · rfl
            · simp [delimiters, *]
  intro c hc
  unfold escape at hc
  rw [String.toList_ofList, List.mem_flatMap] at hc
  obtain ⟨d, -, hd⟩ := hc
  simpa using List.all_eq_true.1 (hchar d) c hd

theorem takes_quotedBy {quote : Char} {value : String}
    (h : ∀ c ∈ value.toList, c ≠ quote ∧ c ≠ '<') (rest : List Char) :
    Takes (quotedBy quote) (quote :: value.toList ++ [quote]) value rest := by
  have hliteral (rest : List Char) :
      Takes (Rule.literal (String.singleton quote)) [quote] () rest := by
    simpa using takes_literal (String.singleton quote) rest
  have hrun : Takes (Rule.run (fun c => c ≠ quote && c ≠ '<')) value.toList value
      ([quote] ++ rest) := by
    have hrun : Takes (Rule.run (fun c => c ≠ quote && c ≠ '<')) value.toList
        (String.ofList value.toList) ([quote] ++ rest) :=
      takes_run (fun c hc => by simpa using h c hc) (by simp [Stops])
    rwa [String.ofList_toList] at hrun
  exact (hliteral _).bind (hrun.bind ((hliteral rest).map fun _ => value))

theorem stops_of_isName (hs : isName s = true) (rest : List Char)
    (htest : ∀ c, isNameStart c = true → test c = false) :
    Stops test (s.toList ++ rest) := by
  obtain ⟨c, cs, hcs, hc, -⟩ := exists_of_isName hs
  rw [hcs]
  intro d hd
  cases hd
  exact htest c hc

theorem isNameChar_of_isNameStart (h : isNameStart c = true) :
    isNameChar c = true := by
  simp [isNameChar, h]

theorem isNameChar_of_mem (h : isName s = true) (hc : c ∈ s.toList) :
    isNameChar c = true := by
  obtain ⟨d, ds, hs', hd, hds⟩ := exists_of_isName h
  rw [hs'] at hc
  rcases List.mem_cons.1 hc with rfl | hc
  · exact isNameChar_of_isNameStart hd
  · exact hds c hc

theorem isName_append {t : String} (hs : isName s = true)
    (ht : ∀ c ∈ t.toList, isNameChar c = true) : isName (s ++ t) = true := by
  obtain ⟨c, cs, hcs, hc, hall⟩ := exists_of_isName hs
  unfold isName
  rw [String.toList_append, hcs, List.cons_append]
  simp only [hc, Bool.true_and, List.all_eq_true]
  exact List.forall_mem_append.2 ⟨hall, ht⟩

theorem isSpace_of_isNameChar (h : isNameChar c = true) :
    isSpace c = false := by
  cases hc : isSpace c with
  | false => rfl
  | true =>
    simp only [isSpace, Bool.or_eq_true, decide_eq_true_eq] at hc
    rcases hc with ((rfl | rfl) | rfl) | rfl <;> exact absurd h (by decide)

/-- A printed attribute is read back. -/
theorem takes_attr {a : String × String} (hkey : isName a.1 = true) (hvalue : IsQuotable a.2)
    (rest : List Char) : Takes attr (printAttribute a).toList a rest := by
  have htext : (printAttribute a).toList
      = [' '] ++ (a.1.toList ++ ([] ++ ("=".toList ++ ([] ++ ('"' :: a.2.toList ++ ['"']))))) := by
    simp [printAttribute]
  have hquoted : Takes (quotedBy '"' <|> quotedBy '\'')
      ('"' :: a.2.toList ++ ['"']) a.2 rest :=
    orElse_of_some (takes_quotedBy
      (fun c hc => ne_of_notMem_delimiters (by decide) (hvalue c hc)) rest)
  rw [htext]
  refine (takes_space ?_).bind ((takes_name hkey ?_).bind ((takes_optSpace ?_).bind
    ((takes_literal "=" _).bind ((takes_optSpace ?_).bind
      (hquoted.map fun value => (a.1, value))))))
  · rw [List.append_assoc]
    exact stops_of_isName hkey _ fun c hc => isSpace_of_isNameChar (isNameChar_of_isNameStart hc)
  · intro c hc
    cases hc
    decide
  · intro c hc
    cases hc
    decide
  · intro c hc
    cases hc
    decide

/-- A tag with names for its name and keys, and values that can be quoted. -/
structure IsTag (tag : Tag) : Prop where
  name : isName tag.name = true
  attributes : ∀ a ∈ tag.attributes, isName a.1 = true ∧ IsQuotable a.2

/-- What can stand behind the attributes of a tag. -/
def EndsTag (rest : List Char) : Prop := ∃ c cs, rest = c :: cs ∧ (c = '/' ∨ c = '>')

/-- A printed tag is read back up to its end. -/
theorem takes_tagHead {tag : Tag} (htag : IsTag tag) {rest : List Char} (hrest : EndsTag rest) :
    Takes Document.tagHead (printTag tag).toList tag rest := by
  have htext : (printTag tag).toList
      = "<".toList ++ (tag.name.toList
        ++ (tag.attributes.flatMap (fun a => (printAttribute a).toList) ++ [])) := by
    simp [printTag, List.flatMap_map]
  have hspace : Stops isSpace rest := by
    obtain ⟨c, cs, rfl, rfl | rfl⟩ := hrest <;> intro d hd <;> cases hd <;> decide
  have hname : Stops isNameChar
      (tag.attributes.flatMap (fun a => (printAttribute a).toList) ++ [] ++ rest) := by
    cases tag.attributes with
    | nil => obtain ⟨c, cs, rfl, rfl | rfl⟩ := hrest <;> intro d hd <;> cases hd <;> decide
    | cons a as =>
      intro d hd
      have hd' : d = ' ' := by simpa [printAttribute, eq_comm] using hd
      rw [hd']
      decide
  have hstop : attr rest = none := by
    have hnone : Rule.run1 isSpace rest = none := by
      obtain ⟨c, cs, rfl, rfl | rfl⟩ := hrest <;> rfl
    exact bind_eq_none (bind_eq_none hnone)
  have hattrs : Takes (Rule.many attr)
      (tag.attributes.flatMap (fun a => (printAttribute a).toList)) tag.attributes rest := by
    have h := takes_many tag.attributes (fun a => (printAttribute a).toList) id
      (fun a ha => ⟨by simp [printAttribute], fun r =>
        takes_attr (htag.attributes a ha).1 (htag.attributes a ha).2 r⟩) hstop
    rwa [List.map_id] at h
  rw [htext]
  exact (takes_literal "<" _).bind ((takes_name htag.name hname).bind
    (hattrs.bind ((takes_optSpace hspace).map fun _ => tag)))

theorem takes_emptyTag {tag : Tag} (htag : IsTag tag) (rest : List Char) :
    Takes emptyTag ((printTag tag).toList ++ "/>".toList) tag rest :=
  (takes_tagHead htag ⟨'/', '>' :: rest, rfl, .inl rfl⟩).bind
    ((takes_literal "/>" rest).map fun _ => tag)

/-- A printed start tag is read back. -/
theorem takes_startTag {tag : Tag} (htag : IsTag tag) (rest : List Char) :
    Takes Document.startTag ((printTag tag).toList ++ ">".toList) tag rest :=
  (takes_tagHead htag ⟨'>', rest, rfl, .inr rfl⟩).bind
    ((takes_literal ">" rest).map fun _ => tag)

/-- A start tag does not close itself. -/
theorem emptyTag_eq_none {tag : Tag} (htag : IsTag tag) (rest : List Char) :
    emptyTag ((printTag tag).toList ++ ">".toList ++ rest) = none := by
  have hends : EndsTag (">".toList ++ rest) := ⟨'>', rest, rfl, .inr rfl⟩
  rw [List.append_assoc]
  exact (takes_tagHead htag hends).bind_eq_none (bind_eq_none rfl)

/-- A printed end tag is read back. -/
theorem takes_endTag {name : String} (hname : isName name = true) (rest : List Char) :
    Takes Document.endTag ("</".toList ++ (name.toList ++ ([] ++ ">".toList))) name rest := by
  have hchar : Stops isNameChar ([] ++ ">".toList ++ rest) := by
    intro c hc
    cases hc
    decide
  have hspace : Stops isSpace (">".toList ++ rest) := by
    intro c hc
    cases hc
    decide
  exact (takes_literal "</" _).bind ((takes_name hname hchar).bind
    ((takes_optSpace hspace).bind ((takes_literal ">" rest).map fun _ => name)))

/-! ## Content -/

/-- An end tag is no piece of content. -/
theorem piece_endTag (rest : List Char) : piece ("</".toList ++ rest) = none := by
  have hhead : Document.tagHead ("</".toList ++ rest) = none := rfl
  have hempty : emptyTag ("</".toList ++ rest) = none := bind_eq_none hhead
  have hstart : Document.startTag ("</".toList ++ rest) = none := bind_eq_none hhead
  unfold piece
  rw [orElse_of_none (bind_eq_none hempty), orElse_of_none (bind_eq_none hstart)]
  rfl

theorem isName_of_isPlain (h : isPlain s = true) : isName s = true := by
  simp only [isPlain, Bool.and_eq_true] at h
  exact h.1.1

theorem isName_of_isKey {key : String} (h : IsKey key) : isName key = true := by
  rcases h with h | ⟨rest, rfl, h⟩
  · exact isName_of_isPlain h
  · exact isName_append (by decide) fun c => isNameChar_of_mem h

/-- The tag of an element that can be printed is one of the grammar. -/
theorem isTag (ns : String) {name : String} {attributes : OrderedMap String String}
    (hname : isPlain name = true) (hkeys : ∀ key ∈ attributes.keys, IsKey key) :
    IsTag (tag ns name attributes) where
  name := isName_of_isPlain hname
  attributes := by
    intro a ha
    obtain ⟨b, hb, rfl⟩ := List.mem_map.1 ha
    refine ⟨?_, isQuotable_escape b.2⟩
    unfold declared at hb
    rcases List.mem_cons.1 hb with rfl | hb
    · show isName "xmlns" = true
      decide
    · rcases List.mem_cons.1 hb with rfl | hb
      · show isName "xmlns:x" = true
        decide
      · exact isName_of_isKey (hkeys b.1 (List.mem_map_of_mem hb))

/-- The text of an element, with its parts in the order in which they are read. -/
theorem toList_print (ns name : String) (attributes : OrderedMap String String)
    {children : List Element} (hne : children ≠ []) :
    (print (.node ns name attributes children)).toList
      = ((printTag (tag ns name attributes)).toList ++ ">".toList)
        ++ ((printAll children).toList
          ++ ("</".toList ++ (name.toList ++ ([] ++ ">".toList)))) := by
  have hempty : children.isEmpty = false := List.isEmpty_eq_false_iff.2 hne
  simp [print, hempty]

theorem piece_print_nil {ns name : String} {attributes : OrderedMap String String}
    (htag : IsTag (tag ns name attributes)) (rest : List Char) :
    piece ((print (.node ns name attributes [])).toList ++ rest)
      = some (.whole (content (.node ns name attributes [])), rest) := by
  have htext : (print (.node ns name attributes [])).toList
      = (printTag (tag ns name attributes)).toList ++ "/>".toList := by
    simp [print]
  rw [htext]
  exact orElse_of_some ((takes_emptyTag htag rest).map fun tag =>
    Document.Piece.whole (.element tag [] none))

theorem piece_startTag {tag : Tag} (htag : IsTag tag) (rest : List Char) :
    piece ((printTag tag).toList ++ ">".toList ++ rest) = some (.opening tag, rest) := by
  unfold piece
  rw [orElse_of_none (bind_eq_none (emptyTag_eq_none htag rest))]
  exact orElse_of_some ((takes_startTag htag rest).map Document.Piece.opening)

/-- The content up to the end tag, then the end tag. -/
theorem close_endTag {name : String} (hname : isName name = true) (tag : Tag)
    (inner : List Content) (rest : List Char) :
    Document.close tag (inner, "</".toList ++ (name.toList ++ ([] ++ ">".toList)) ++ rest)
      = some (.element tag inner (some name), rest) := by
  unfold Document.close
  rw [takes_endTag hname rest]

section steps

variable {n : Nat} {cs rest rest' : List Char}

theorem contents_of_none (h : piece cs = none) : Document.contents n cs = ([], cs) := by
  cases n with
  | zero => rfl
  | succ n => rw [Document.contents, h]

theorem contents_whole {c : Content} (h : piece cs = some (.whole c, rest)) :
    Document.contents (n + 1) cs
      = (c :: (Document.contents n rest).1, (Document.contents n rest).2) := by
  rw [Document.contents, h]

/-- An element that is opened and closed is read with its content. -/
theorem contents_opening {tag : Tag} {c : Content}
    (h : piece cs = some (.opening tag, rest))
    (hclose : Document.close tag (Document.contents n rest) = some (c, rest')) :
    Document.contents (n + 1) cs
      = (c :: (Document.contents n rest').1, (Document.contents n rest').2) := by
  rw [Document.contents, h]
  simp only [hclose]

end steps

/-- A printed element begins with a bracket and a character of its name. -/
theorem exists_print (e : Element) (he : e.Printable) :
    ∃ c cs, e.print.toList = '<' :: c :: cs ∧ isNameStart c = true := by
  cases e with
  | node ns name attributes children =>
    rw [Printable] at he
    obtain ⟨c, cs, hcs, hc, -⟩ := exists_of_isName (isName_of_isPlain he.1)
    have hhead : (print (.node ns name attributes children)).toList
        = '<' :: c :: (print (.node ns name attributes children)).toList.drop 2 := by
      simp [print, printTag, tag, hcs]
    exact ⟨c, _, hhead, hc⟩

mutual

/-- A printed element is one piece more of the content. -/
theorem contents_print (e : Element) (he : e.Printable) (n : Nat) (rest : List Char)
    (hn : (e.print.toList ++ rest).length ≤ n + 1) :
    Document.contents (n + 1) (e.print.toList ++ rest)
      = (e.content :: (Document.contents n rest).1, (Document.contents n rest).2) := by
  match e with
  | .node ns name attributes children =>
    rw [Printable] at he
    obtain ⟨hname, hkeys, hchildren⟩ := he
    have htag := isTag ns hname hkeys
    by_cases hne : children = []
    · subst hne
      exact contents_whole (piece_print_nil htag rest)
    · rw [toList_print ns name attributes hne, List.append_assoc] at hn ⊢
      have hlen : ((printAll children).toList ++ ("</".toList ++ (name.toList ++ ([] ++ ">".toList)
          ++ rest))).length ≤ n := by
        simp only [List.length_append] at hn ⊢
        have hpos : ">".toList.length = 1 := rfl
        omega
      have hinner := contents_printAll children hchildren n _ hlen
      have hcontent : content (.node ns name attributes children)
          = .element (tag ns name attributes) (contents children) (some name) := by
        rw [content, if_neg (by simpa using hne)]
      rw [hcontent]
      apply contents_opening (piece_startTag htag _)
      rw [List.append_assoc, List.append_assoc, hinner]
      exact close_endTag (isName_of_isPlain hname) _ _ rest

/-- Printed elements in a row are all the content up to the end tag behind them. -/
theorem contents_printAll (es : List Element) (hes : AllPrintable es) (n : Nat) (rest : List Char)
    (hn : ((printAll es).toList ++ ("</".toList ++ rest)).length ≤ n) :
    Document.contents n ((printAll es).toList ++ ("</".toList ++ rest))
      = (contents es, "</".toList ++ rest) := by
  match es with
  | [] => exact contents_of_none (piece_endTag rest)
  | e :: es =>
    rw [AllPrintable] at hes
    have htext : (printAll (e :: es)).toList = e.print.toList ++ (printAll es).toList := by
      rw [printAll, String.toList_append]
    rw [htext, List.append_assoc] at hn ⊢
    have hpos : 0 < e.print.toList.length := by
      obtain ⟨c, cs, hcs, -⟩ := exists_print e hes.1
      rw [hcs]
      exact Nat.succ_pos _
    rw [List.length_append] at hn
    obtain ⟨m, rfl⟩ : ∃ m, n = m + 1 := ⟨n - 1, by omega⟩
    have hrest := contents_printAll es hes.2 m rest (by omega)
    rw [contents_print e hes.1 m _ (by rw [List.length_append]; exact hn), hrest, contents]

end

/-- A printed element is read back. -/
theorem takes_element (e : Element) (he : e.Printable) (rest : List Char) :
    Takes Document.element e.print.toList e.content rest := by
  cases e with
  | node ns name attributes children =>
    rw [Printable] at he
    obtain ⟨hname, hkeys, hchildren⟩ := he
    have htag := isTag ns hname hkeys
    by_cases hne : children = []
    · subst hne
      have htext : (print (.node ns name attributes [])).toList
          = (printTag (tag ns name attributes)).toList ++ "/>".toList := by
        simp [print]
      rw [htext]
      exact orElse_of_some ((takes_emptyTag htag rest).map fun tag => Content.element tag [] none)
    · have hcontent : content (.node ns name attributes children)
          = .element (tag ns name attributes) (contents children) (some name) := by
        rw [content, if_neg (by simpa using hne)]
      unfold Takes Document.element
      rw [toList_print ns name attributes hne, List.append_assoc,
        orElse_of_none (bind_eq_none (emptyTag_eq_none htag _)), bind_apply, takes_startTag htag,
        Option.bind_some, hcontent]
      simp only
      rw [List.append_assoc, List.append_assoc,
        contents_printAll children hchildren _ _ (Nat.le_refl _)]
      exact close_endTag (isName_of_isPlain hname) _ _ rest

/-- Where a name follows a bracket, there is no word with another character there. -/
theorem literal_of_isNameStart {d : Char} {ds cs : List Char} (hc : isNameStart c = true)
    (hd : isNameStart d = false) :
    Rule.literal (String.ofList ('<' :: d :: ds)) ('<' :: c :: cs) = none := by
  have hne : (d == c) = false := by
    apply beq_false_of_ne
    rintro rfl
    exact Bool.noConfusion (hc.symm.trans hd)
  apply literal_eq_none
  rw [String.toList_ofList, isPrefixOf?_cons, beq_self_eq_true, if_pos rfl, isPrefixOf?_cons, hne]
  rfl

/-- Nothing but an element can begin there. -/
theorem misc_eq_none {cs : List Char} (hc : isNameStart c = true) :
    misc ('<' :: c :: cs) = none := by
  have hcomment : Rule.literal "<!--" ('<' :: c :: cs) = none :=
    literal_of_isNameStart (d := '!') hc (by decide)
  have hinstruction : Rule.literal "<?" ('<' :: c :: cs) = none :=
    literal_of_isNameStart (d := '?') hc (by decide)
  unfold misc Document.comment Document.instruction
  rw [orElse_of_none (bind_eq_none hcomment), orElse_of_none (bind_eq_none hinstruction)]
  rfl

theorem prolog_eq_none {cs : List Char} (hc : isNameStart c = true) :
    Document.prolog ('<' :: c :: cs) = none :=
  bind_eq_none (literal_of_isNameStart (d := '?') hc (by decide))

/-- A printed element is read as the content it was printed from. -/
theorem read?_print (e : Element) (he : e.Printable) :
    Document.read? e.print = some e.content := by
  obtain ⟨c, cs, hcs, hc⟩ := exists_print e he
  have hopt : Takes (Rule.opt Document.prolog) [] none e.print.toList := by
    unfold Takes Rule.opt
    rw [List.nil_append, hcs, prolog_eq_none hc]
  have hbefore : Takes (Rule.many misc) [] [] e.print.toList := by
    rw [hcs]
    exact takes_many (ι := Unit) [] (fun _ => []) (fun _ => ()) (by simp) (misc_eq_none hc)
  have hroot : Takes Document.element e.print.toList e.content [] := takes_element e he []
  unfold Takes at hopt hbefore hroot
  rw [List.nil_append] at hopt hbefore
  rw [List.append_nil] at hroot
  unfold Document.read? Rule.accept? Document.document
  rw [bind_apply, hopt, Option.bind_some, bind_apply, hbefore, Option.bind_some, bind_apply, hroot]
  rfl

end Element

end OpenWorkflow.Markup
