import OpenWorkflow.Proofs.Markup.Prefixes

/-!
# Respelled documents

`root.Respelled p q [] root'` says that the tree of a document is that of another with the prefix
`q` for the prefix `p`: where `p` is declared, where it stands before the name of an element, an end
tag or an attribute, and where it is a word of a list of ignorable namespaces. All else is the same.

The new tree is scanned under the old declarations with `p` called `q`, and if `q` does not occur
in the document, every name finds the declaration that it found before. A word of a list of
ignorable namespaces that has no declaration stays as it stands, so a `p` of this kind shows as `q`
in the tags. If there is none, the tags are the same (`scan_respelled`).
-/

namespace OpenWorkflow.Markup

variable {p q : String} {U : Prop}

variable {attributes : List (String × String)} {key : String} {tag : Tag}

/-! ## Respelled trees -/

namespace Bindings

/-- Does the attribute list the namespaces that a reader may ignore? -/
def isIgnorable (env : Bindings) (key : String) : Bool :=
  (declares? key).isNone && (env.attributeKey key).toOption == some ignorableKey

/-- The declarations in force inside a tag. A value that cannot be read declares nothing. -/
def inside (env : Bindings) (attributes : List (String × String)) : Bindings :=
  env.extend (attributes.filterMap fun a =>
    (Entity.decode a.2).toOption.map fun value => (a.1, value))

end Bindings

/-- A list with `q` in place of the word `p`. -/
def RespelledList (p q value value' : String) : Prop :=
  Text.wordsOf value' = (Text.wordsOf value).map (relabel p q)

instance (p q value value' : String) : Decidable (RespelledList p q value value') :=
  inferInstanceAs (Decidable (_ = _))

/-- An attribute as it is written, with `q` in place of the prefix `p`. -/
def RespelledAttribute (p q : String) (within : Bindings) (a a' : String × String) : Prop :=
  a'.1 = Bindings.respellKey p q a.1
    ∧ if within.isIgnorable a.1 then
        Together (RespelledList p q) (Entity.decode a.2) (Entity.decode a'.2)
      else a'.2 = a.2

instance (p q : String) (within : Bindings) (a a' : String × String) :
    Decidable (RespelledAttribute p q within a a') :=
  inferInstanceAs (Decidable (_ ∧ _))

/-- The same when its value has been read. -/
def RespelledValue (p q : String) (within : Bindings) (a a' : String × String) : Prop :=
  a'.1 = Bindings.respellKey p q a.1
    ∧ if within.isIgnorable a.1 then RespelledList p q a.2 a'.2 else a'.2 = a.2

namespace Tag

/-- The tag with `q` in place of the prefix `p`, under the declarations in force inside it. -/
structure Respelled (p q : String) (within : Bindings) (tag tag' : Tag) : Prop where
  name : tag'.name = Bindings.respellName p q tag.name
  attributes : List.Forall₂ (RespelledAttribute p q within) tag.attributes tag'.attributes

/-- The prefixes of the names in a tag, and those that it declares. -/
def labels (tag : Tag) : List String :=
  (Bindings.label? tag.name).toList ++ tag.attributes.filterMap fun a => Bindings.keyLabel? a.1

/-- The lists of ignorable namespaces in a tag, each with the declarations in force there. -/
def lists (within : Bindings) (tag : Tag) : List (Bindings × List String) :=
  tag.attributes.filterMap fun a =>
    if within.isIgnorable a.1 then
      (Entity.decode a.2).toOption.map fun value => (within, Text.wordsOf value)
    else none

end Tag

namespace Content

mutual

/-- The second is the first with `q` in place of the prefix `p`. -/
def Respelled (p q : String) (env : Bindings) : Content → Content → Prop
  | .element tag inner endName, c' =>
    ∃ tag' inner', tag.Respelled p q (env.inside tag.attributes) tag'
      ∧ RespelledAll p q (env.inside tag.attributes) inner inner'
      ∧ c' = .element tag' inner' (endName.map (Bindings.respellName p q))
  | .text raw, c' => c' = .text raw
  | .data raw, c' => c' = .data raw

/-- The same for some content in a row. -/
def RespelledAll (p q : String) (env : Bindings) : List Content → List Content → Prop
  | [], cs' => cs' = []
  | c :: cs, cs' =>
    ∃ first rest, Respelled p q env c first ∧ RespelledAll p q env cs rest ∧ cs' = first :: rest

end

mutual

/-- The prefixes that occur in some content. -/
def labels : Content → List String
  | .element tag inner endName =>
    tag.labels ++ (endName.bind Bindings.label?).toList ++ labelsAll inner
  | .text _ => []
  | .data _ => []

/-- The same for some content in a row. -/
def labelsAll : List Content → List String
  | [] => []
  | c :: cs => labels c ++ labelsAll cs

end

mutual

/-- The lists of ignorable namespaces that occur in some content. -/
def lists (env : Bindings) : Content → List (Bindings × List String)
  | .element tag inner _ =>
    tag.lists (env.inside tag.attributes) ++ listsAll (env.inside tag.attributes) inner
  | .text _ => []
  | .data _ => []

/-- The same for some content in a row. -/
def listsAll (env : Bindings) : List Content → List (Bindings × List String)
  | [] => []
  | c :: cs => lists env c ++ listsAll env cs

end

/-- The label is a word of a list of ignorable namespaces and has no declaration there. -/
def Leaves (root : Content) (label : String) : Prop :=
  ∃ list ∈ root.lists [], label ∈ list.2 ∧ list.1.lookup? label = none

end Content

/-! ## Declarations inside a tag -/

theorem Tag.of_notMem_labels (h : q ∉ tag.labels) :
    Bindings.label? tag.name ≠ some q
      ∧ ∀ a ∈ tag.attributes, Bindings.keyLabel? a.1 ≠ some q := by
  unfold Tag.labels at h
  rw [List.mem_append, not_or] at h
  refine ⟨?_, fun a ha he => h.2 (List.mem_filterMap.2 ⟨a, ha, he⟩)⟩
  intro he
  exact h.1 (by simp [he])

namespace Bindings

theorem isIgnorable_iff {env : Bindings} (h : declares? key = none) :
    env.isIgnorable key = true ↔ env.attributeKey key = .ok ignorableKey := by
  unfold isIgnorable
  rw [h]
  cases env.attributeKey key with
  | error e => simp [Except.toOption]
  | ok k => simp [Except.toOption]

/-- A declaration is no list. -/
theorem isIgnorable_of_declares? {env : Bindings} {label : String}
    (h : declares? key = some label) : env.isIgnorable key = false := by
  unfold isIgnorable
  rw [h]
  rfl

/-- If all values can be read, nothing is left out. -/
theorem eq_filterMap_of_decodeValues {decoded : List (String × String)}
    (h : Scan.decodeValues attributes = .ok decoded) :
    decoded = attributes.filterMap fun a =>
      (Entity.decode a.2).toOption.map fun value => (a.1, value) := by
  unfold Scan.decodeValues at h
  induction attributes generalizing decoded with
  | nil =>
    cases h
    rfl
  | cons a attributes ih =>
    rw [List.mapM_cons] at h
    cases ha : Entity.decode a.2 with
    | error e =>
      rw [ha] at h
      cases h
    | ok value =>
      rw [ha] at h
      cases hrest : attributes.mapM
          (fun a => (Entity.decode a.2).map (fun value => (a.1, value))) with
      | error e =>
        rw [hrest] at h
        cases h
      | ok rest =>
        rw [hrest] at h
        cases h
        rw [List.filterMap_cons, ha, ih hrest]
        rfl

theorem notMem_inside {env : Bindings} (henv : q ∉ env.map Prod.fst)
    (h : ∀ a ∈ attributes, keyLabel? a.1 ≠ some q) : q ∉ (env.inside attributes).map Prod.fst := by
  unfold inside extend
  rw [List.map_append, List.mem_append, not_or]
  refine ⟨?_, henv⟩
  intro hmem
  obtain ⟨⟨label, ns⟩, hb, rfl⟩ := List.mem_map.1 hmem
  obtain ⟨a, ha, hlabel⟩ := List.mem_filterMap.1 (List.mem_reverse.1 hb)
  obtain ⟨raw, hraw, hdecoded⟩ := List.mem_filterMap.1 ha
  obtain ⟨value, -, rfl⟩ := Option.map_eq_some_iff.1 hdecoded
  obtain ⟨label', hdeclares, hpair⟩ := Option.map_eq_some_iff.1 hlabel
  cases hpair
  apply h raw hraw
  unfold keyLabel?
  rw [hdeclares]

variable {within : Bindings} {decoded decoded' : List (String × String)}

/-- The values of respelled attributes are decoded together. -/
theorem decodeValues_respelled {attributes' : List (String × String)}
    (h : List.Forall₂ (RespelledAttribute p q within) attributes attributes') :
    Together (List.Forall₂ (RespelledValue p q within)) (Scan.decodeValues attributes)
      (Scan.decodeValues attributes') := by
  refine Together.mapM h ?_
  rintro ⟨key, raw⟩ ⟨_, raw'⟩ ⟨rfl, hvalue⟩
  have hdecode : Together (fun value value' => if within.isIgnorable key = true
      then RespelledList p q value value' else value' = value) (Entity.decode raw)
      (Entity.decode raw') := by
    by_cases hi : within.isIgnorable key = true
    · simpa only [if_pos hi] using hvalue
    · obtain rfl : raw' = raw := by simpa only [if_neg hi] using hvalue
      simp only [if_neg hi]
      cases Entity.decode raw' with
      | error e => trivial
      | ok value => rfl
  exact hdecode.map fun value value' _ hv => ⟨rfl, hv⟩

/-- Inside the respelled tag the same is declared, with `p` called `q`. -/
theorem extend_respelled (hq : IsLabel q) (env : Bindings)
    (h : List.Forall₂ (RespelledValue p q within) decoded decoded') :
    (env.relabel p q).extend decoded' = (env.extend decoded).relabel p q := by
  have hentries : decoded'.filterMap (fun a => (declares? a.1).map fun label => (label, a.2))
      = (decoded.filterMap fun a => (declares? a.1).map fun label => (label, a.2)).map
        fun b => (Markup.relabel p q b.1, b.2) := by
    induction h with
    | nil => rfl
    | @cons a a' _ _ ha _ ih =>
      rw [List.filterMap_cons, List.filterMap_cons, ha.1, declares?_respellKey hq]
      cases hd : declares? a.1 with
      | none => exact ih
      | some label =>
        -- What declares a prefix is no list, so its value is the same.
        have hvalue := ha.2
        rw [isIgnorable_of_declares? hd] at hvalue
        simp only [Option.map_some, List.map_cons, ih]
        rw [show a'.2 = a.2 from hvalue]
  unfold extend relabel
  rw [hentries, List.map_append, List.map_reverse]

/-- The attributes that declare nothing. -/
theorem filter_respelled (hq : IsLabel q)
    (h : List.Forall₂ (RespelledValue p q within) decoded decoded') :
    List.Forall₂ (RespelledValue p q within) (decoded.filter fun a => (declares? a.1).isNone)
      (decoded'.filter fun a => (declares? a.1).isNone) := by
  refine List.rel_filter ?_ h
  intro a a' ha
  show _ ↔ (declares? a'.1).isNone = true
  rw [ha.1, declares?_respellKey hq, Option.isNone_map]

end Bindings

/-! ## Tags of the two scans -/

/-- The same attribute; `U` permits another list of ignorable namespaces. -/
def SameEntry (U : Prop) (k k' : String × String) : Prop :=
  k'.1 = k.1 ∧ ((k.1 = ignorableKey → ¬ U) → k'.2 = k.2)

namespace Token

/-- The same tag; `U` permits another list of ignorable namespaces. -/
structure Alike (U : Prop) (t t' : Token) : Prop where
  ns : t'.ns = t.ns
  name : t'.name = t.name
  closing : t'.closing = t.closing
  attribute? : ∀ key ≠ ignorableKey, t'.attribute? key = t.attribute? key
  eq_of_not : ¬ U → t' = t

variable {t t' : Token}

theorem Alike.refl (t : Token) : t.Alike U t := ⟨rfl, rfl, rfl, fun _ _ => rfl, fun _ => rfl⟩

theorem Alike.setAttribute (h : t.Alike U t') {value value' : String}
    (hvalue : (key = ignorableKey → ¬ U) → value' = value) :
    (t.setAttribute key value).Alike U (t'.setAttribute key value') where
  ns := h.ns
  name := h.name
  closing := h.closing
  attribute? x hx := by
    rw [attribute?_setAttribute, attribute?_setAttribute, h.attribute? x hx]
    by_cases hk : x = key
    · rw [if_pos hk, if_pos hk, hvalue fun he => absurd (hk.trans he) hx]
    · rw [if_neg hk, if_neg hk]
  eq_of_not hU := by rw [h.eq_of_not hU, hvalue fun _ => hU]

theorem Alike.setAttributes {ks ks' : List (String × String)}
    (hks : List.Forall₂ (SameEntry U) ks ks') (h : t.Alike U t') :
    (t.setAttributes ks).Alike U (t'.setAttributes ks') := by
  induction hks generalizing t t' with
  | nil => exact h
  | @cons k k' _ _ hk _ ih =>
    obtain ⟨key, value⟩ := k
    obtain ⟨_, value'⟩ := k'
    obtain ⟨rfl, hvalue⟩ := hk
    exact ih (h.setAttribute hvalue)

end Token

namespace Bindings

variable {within : Bindings}

/-- An attribute keeps its key, and its value if there is no word `p` without declaration. -/
theorem readAttribute_respelled (hp : IsLabel p) (hq : IsLabel q)
    (hwithin : q ∉ within.map Prod.fst) {a a' : String × String}
    (ha : RespelledValue p q within a a') (hplain : declares? a.1 = none)
    (hlabel : keyLabel? a.1 ≠ some q)
    (hlist : within.isIgnorable a.1 = true → ListFits p q U (within, Text.wordsOf a.2)) :
    Together (SameEntry U) (within.readAttribute a)
      ((within.relabel p q).readAttribute a') := by
  obtain ⟨hkey', hvalue⟩ := ha
  have hname : label? a.1 ≠ some q := by
    unfold keyLabel? at hlabel
    rwa [hplain] at hlabel
  have hkey := attributeKey_respellName hp hq hwithin hname
  rw [← respellKey_of_declares? hplain, ← hkey'] at hkey
  refine hkey.map ?_
  rintro key _ hok rfl
  refine ⟨rfl, fun hU => ?_⟩
  by_cases hk : key = ignorableKey
  · have hi : within.isIgnorable a.1 = true := by rw [isIgnorable_iff hplain, hok, hk]
    rw [if_pos hi] at hvalue
    simp only [if_pos hk]
    exact expandPrefixes_relabel hp hq hwithin (hlist hi) hvalue (hU hk)
  · have hi : ¬ within.isIgnorable a.1 = true := by
      rw [isIgnorable_iff hplain, hok]
      exact fun he => hk (Except.ok.inj he)
    rw [if_neg hi] at hvalue
    simp only [if_neg hk]
    exact hvalue

end Bindings

namespace Scan

theorem openTag_of_decodeValues {env : Bindings} {decoded : List (String × String)}
    (h : decodeValues tag.attributes = .ok decoded) :
    openTag env tag = do
      let r ← (env.extend decoded).resolve tag.name
      let keyed ← (decoded.filter (fun a => (Bindings.declares? a.1).isNone)).mapM
        (env.extend decoded).readAttribute
      return (env.extend decoded, (Token.opening r.1 r.2).setAttributes keyed) := by
  unfold openTag
  rw [h]
  rfl

/-- The start tags of the two scans, and what is declared inside them. -/
theorem openTag_respelled (hp : IsLabel p) (hq : IsLabel q) {env : Bindings}
    (henv : q ∉ env.map Prod.fst) {tag' : Tag}
    (htag : tag.Respelled p q (env.inside tag.attributes) tag') (hlabels : q ∉ tag.labels)
    (hlists : ∀ list ∈ tag.lists (env.inside tag.attributes), ListFits p q U list) :
    Together (fun r r' => r.1 = env.inside tag.attributes
        ∧ r'.1 = (env.inside tag.attributes).relabel p q ∧ r.2.Alike U r'.2)
      (openTag env tag) (openTag (env.relabel p q) tag') := by
  obtain ⟨hname, hkeys⟩ := Tag.of_notMem_labels hlabels
  have hwithin := Bindings.notMem_inside henv hkeys
  obtain ⟨e, e', he, he'⟩ | ⟨decoded, decoded', hdecode, hdecode', hvalues⟩ :=
    (Bindings.decodeValues_respelled htag.attributes).cases
  · unfold openTag
    rw [he, he']
    trivial
  have hinside : env.extend decoded = env.inside tag.attributes := by
    rw [Bindings.eq_filterMap_of_decodeValues hdecode, Bindings.inside]
  rw [openTag_of_decodeValues hdecode, openTag_of_decodeValues hdecode',
    Bindings.extend_respelled hq env hvalues, hinside, htag.name]
  refine (Bindings.resolve_respellName hp hq hwithin hname).bind ?_
  rintro r _ rfl
  have hplain : ∀ a ∈ decoded.filter (fun a => (Bindings.declares? a.1).isNone),
      Bindings.declares? a.1 = none ∧ Bindings.keyLabel? a.1 ≠ some q
        ∧ ((env.inside tag.attributes).isIgnorable a.1 = true →
          ListFits p q U (env.inside tag.attributes, Text.wordsOf a.2)) := by
    intro a ha
    obtain ⟨hmem, hplain⟩ := List.mem_filter.1 ha
    rw [Bindings.eq_filterMap_of_decodeValues hdecode] at hmem
    obtain ⟨raw, hraw, hpair⟩ := List.mem_filterMap.1 hmem
    obtain ⟨value, hvalue, rfl⟩ := Option.map_eq_some_iff.1 hpair
    refine ⟨Option.isNone_iff_eq_none.1 hplain, hkeys raw hraw, fun hi => hlists _ ?_⟩
    exact List.mem_filterMap.2 ⟨raw, hraw, by rw [if_pos hi, hvalue]; rfl⟩
  have hkeyed := Together.mapM
    ((List.forall₂_and_left _ _).2 ⟨hplain, Bindings.filter_respelled hq hvalues⟩)
    fun a a' ha =>
      Bindings.readAttribute_respelled hp hq hwithin ha.2 ha.1.1 ha.1.2.1 ha.1.2.2
  exact hkeyed.bind fun keyed keyed' hkeyed =>
    ⟨rfl, rfl, Token.Alike.setAttributes hkeyed (.refl _)⟩

/-- End tags fit after respelling if they did before. -/
theorem checkEnd_respelled (hq : IsLabel q) {tag' : Tag} {endName : Option String}
    (hname : tag'.name = Bindings.respellName p q tag.name)
    (htag : Bindings.label? tag.name ≠ some q)
    (hend : ∀ name ∈ endName, Bindings.label? name ≠ some q) :
    Together Eq (checkEnd tag endName)
      (checkEnd tag' (endName.map (Bindings.respellName p q))) := by
  cases endName with
  | none => rfl
  | some name =>
    have hsame := Bindings.respellName_inj (p := p) hq (hend name rfl) htag
    show Together Eq (if name = tag.name then _ else _)
      (if Bindings.respellName p q name = tag'.name then _ else _)
    rw [hname]
    by_cases h : name = tag.name
    · rw [if_pos h, if_pos (hsame.2 h)]
      rfl
    · rw [if_neg h, if_neg (mt hsame.1 h)]
      trivial

/-- Elements with alike tags and contents are alike. -/
theorem enclose_alike {start start' : Token} (h : start.Alike U start') (text : String)
    {inner inner' : List Token} (hinner : List.Forall₂ (Token.Alike U) inner inner') :
    List.Forall₂ (Token.Alike U) (enclose start text inner) (enclose start' text inner') := by
  have hends {s s' : Token} (hs : s.Alike U s') : List.Forall₂ (Token.Alike U)
      (s :: inner ++ [.ending s.ns s.name]) (s' :: inner' ++ [.ending s'.ns s'.name]) := by
    rw [hs.ns, hs.name]
    exact .cons hs (List.rel_append hinner (.cons (.refl _) .nil))
  unfold enclose
  rw [h.name]
  by_cases hempty : (Text.trim text.toList).isEmpty = true
  · simp only [if_pos hempty]
    exact hends h
  · simp only [if_neg hempty]
    exact hends (h.setAttribute fun _ => rfl)

/-- The same character data, and the same tags; `U` permits other lists of ignorable namespaces. -/
def SameYield (U : Prop) (r r' : String × List Token) : Prop :=
  r'.1 = r.1 ∧ List.Forall₂ (Token.Alike U) r.2 r'.2

mutual

/-- A tree and its respelling yield the same, or neither can be read. -/
theorem content_respelled (hp : IsLabel p) (hq : IsLabel q) (c c' : Content) {env : Bindings}
    (henv : q ∉ env.map Prod.fst) (hc : c.Respelled p q env c') (hlabels : q ∉ c.labels)
    (hlists : ∀ list ∈ c.lists env, ListFits p q U list) :
    Together (SameYield U) (content env c) (content (env.relabel p q) c') := by
  match c with
  | .text raw =>
    rw [Content.Respelled] at hc
    rw [hc, content, content]
    cases Entity.decode raw with
    | error e => trivial
    | ok text => exact ⟨rfl, .nil⟩
  | .data raw =>
    rw [Content.Respelled] at hc
    rw [hc, content, content]
    exact ⟨rfl, .nil⟩
  | .element tag inner endName =>
    rw [Content.Respelled] at hc
    obtain ⟨tag', inner', htag, hinner, rfl⟩ := hc
    rw [Content.labels, List.mem_append, List.mem_append, not_or, not_or] at hlabels
    obtain ⟨⟨hlabels, hend⟩, hlabels'⟩ := hlabels
    obtain ⟨hname, hkeys⟩ := Tag.of_notMem_labels hlabels
    have hends : ∀ name ∈ endName, Bindings.label? name ≠ some q := by
      intro name hname he
      exact hend (by simp [Option.mem_def.1 hname, he])
    rw [Content.lists] at hlists
    rw [content, content]
    refine (openTag_respelled hp hq henv htag hlabels
      fun list hlist => hlists list (List.mem_append_left _ hlist)).bind ?_
    rintro ⟨within, start⟩ ⟨within', start'⟩ ⟨hwithin, hwithin', hstart⟩
    -- Inside the tag the invariant holds again: the declarations are the old ones, relabelled.
    obtain rfl : within = env.inside tag.attributes := hwithin
    obtain rfl : within' = (env.inside tag.attributes).relabel p q := hwithin'
    refine (contents_respelled hp hq inner inner' (Bindings.notMem_inside henv hkeys) hinner
      hlabels' fun list hlist => hlists list (List.mem_append_right _ hlist)).bind ?_
    rintro r r' ⟨htext, htokens⟩
    refine (checkEnd_respelled hq htag.name hname hends).bind fun _ _ _ => ⟨rfl, ?_⟩
    rw [htext]
    exact enclose_alike hstart r.1 htokens

/-- Respelled contents are scanned to alike tokens. -/
theorem contents_respelled (hp : IsLabel p) (hq : IsLabel q) (cs cs' : List Content)
    {env : Bindings} (henv : q ∉ env.map Prod.fst) (hcs : Content.RespelledAll p q env cs cs')
    (hlabels : q ∉ Content.labelsAll cs)
    (hlists : ∀ list ∈ Content.listsAll env cs, ListFits p q U list) :
    Together (SameYield U) (contents env cs) (contents (env.relabel p q) cs') := by
  match cs with
  | [] =>
    rw [Content.RespelledAll] at hcs
    rw [hcs, contents, contents]
    exact ⟨rfl, .nil⟩
  | c :: cs =>
    rw [Content.RespelledAll] at hcs
    obtain ⟨c', rest', hc, hrest, rfl⟩ := hcs
    rw [Content.labelsAll, List.mem_append, not_or] at hlabels
    rw [Content.listsAll] at hlists
    rw [contents, contents]
    have hhead := content_respelled hp hq c c' henv hc hlabels.1
      fun list hlist => hlists list (List.mem_append_left _ hlist)
    have htail := contents_respelled hp hq cs rest' henv hrest hlabels.2
      fun list hlist => hlists list (List.mem_append_right _ hlist)
    refine hhead.bind fun first first' hfirst => htail.bind fun rest rest' hrest => ?_
    refine ⟨?_, List.rel_append hfirst.2 hrest.2⟩
    show first'.1 ++ rest'.1 = first.1 ++ rest.1
    rw [hfirst.1, hrest.1]

end

end Scan

/-! ## Documents -/

theorem scan_of_read? {source : String} {root : Content} (h : Document.read? source = some root) :
    scan source = (Scan.content [] root).map Prod.snd := by
  unfold scan
  rw [h]

/-- Let the second document be the first with `q` in place of the prefix `p`, where `q` occurs in
the first neither as a prefix nor as a word of a list of ignorable namespaces. Then both are refused
or both are accepted, with tags that differ at most in these lists, and not at all if `p` has a
declaration wherever it is a word of one. -/
theorem scan_respelled {source source' : String} {root root' : Content} {p q : String}
    (hroot : Document.read? source = some root) (hroot' : Document.read? source' = some root')
    (hrespelled : root.Respelled p q [] root') (hp : IsLabel p) (hq : IsLabel q)
    (hlabels : q ∉ root.labels) (hlists : ∀ list ∈ root.lists [], q ∉ list.2) :
    (∃ e e', scan source = .error e ∧ scan source' = .error e')
      ∨ ∃ ts ts', scan source = .ok ts ∧ scan source' = .ok ts'
        ∧ List.Forall₂ (Token.Alike (root.Leaves p)) ts ts' ∧ (¬ root.Leaves p → ts' = ts) := by
  have hfits : ∀ list ∈ root.lists [], ListFits p q (root.Leaves p) list := fun list hlist =>
    ⟨hlists list hlist, fun hmem hnone => ⟨list, hlist, hmem, hnone⟩⟩
  -- At the root nothing is declared, so `q` is not.
  have htogether :=
    Scan.content_respelled hp hq root root' List.not_mem_nil hrespelled hlabels hfits
  rw [scan_of_read? hroot, scan_of_read? hroot']
  refine (htogether.map fun r r' _ hr => ⟨hr.2, fun hU => ?_⟩).cases
  have hsame := hr.2.imp fun t t' ht => (ht.eq_of_not hU).symm
  rw [List.forall₂_eq_eq_eq] at hsame
  exact hsame.symm

end OpenWorkflow.Markup
