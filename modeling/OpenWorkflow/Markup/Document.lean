import OpenWorkflow.Text.Grammar

/-!
# Documents

The grammar of workflow documents, a subset of XML, and the tree it yields. The
tree keeps tags, attribute values and character data as they are written:
prefixes are not resolved and references are not replaced. Comments, processing
instructions and the space around the root element leave no trace in it.

The grammar has ordered choice. Names may contain any character from U+0080 on;
an end tag need not bear the name of its start tag, which is for a later check.
-/

namespace OpenWorkflow.Markup

open OpenWorkflow.Text (Rule)

/-- The name and the attributes of a tag, as written. -/
structure Tag where
  /-- The name with its prefix. -/
  name : String
  /-- Attribute names with prefix, and values with references. -/
  attributes : List (String × String)
  deriving DecidableEq

/-- What stands between two tags. -/
inductive Content where
  /-- An element; `endName` is missing when the tag closes itself. -/
  | element (tag : Tag) (content : List Content) (endName : Option String)
  /-- Character data in which references are replaced. -/
  | text (raw : String)
  /-- Character data that is taken as it stands. -/
  | data (raw : String)

namespace Document

/-! ## Characters -/

/-- The four characters that separate the parts of a tag. -/
def isSpace (c : Char) : Bool := c = ' ' || c = '\t' || c = '\r' || c = '\n'

/-- Can the character begin a name? -/
def isNameStart (c : Char) : Bool := c.isAlpha || c = '_' || c = ':' || 0x80 ≤ c.toNat

/-- Can the character occur in a name? -/
def isNameChar (c : Char) : Bool := isNameStart c || c.isDigit || c = '-' || c = '.'

/-! ## Tags -/

/-- At least one space. -/
def space : Rule Unit := do
  let _ ← Rule.run1 isSpace

/-- Any number of spaces. -/
def optSpace : Rule Unit := do
  let _ ← Rule.run isSpace

/-- A name. -/
def name : Rule String := Rule.word isNameStart isNameChar

/-- A value between two quotes of one kind, without that quote and without `<`. -/
def quotedBy (quote : Char) : Rule String := do
  Rule.literal (String.singleton quote)
  let value ← Rule.run (fun c => c ≠ quote && c ≠ '<')
  Rule.literal (String.singleton quote)
  return value

/-- An attribute with the space before it. -/
def attr : Rule (String × String) := do
  space
  let key ← name
  optSpace
  Rule.literal "="
  optSpace
  let value ← quotedBy '"' <|> quotedBy '\''
  return (key, value)

/-- A start tag up to its closing bracket. -/
def tagHead : Rule Tag := do
  Rule.literal "<"
  let name ← name
  let attributes ← Rule.many attr
  optSpace
  return { name, attributes }

/-- A tag that closes itself. -/
def emptyTag : Rule Tag := do
  let tag ← tagHead
  Rule.literal "/>"
  return tag

/-- A start tag. -/
def startTag : Rule Tag := do
  let tag ← tagHead
  Rule.literal ">"
  return tag

/-- An end tag; its value is the name. -/
def endTag : Rule String := do
  Rule.literal "</"
  let name ← name
  optSpace
  Rule.literal ">"
  return name

/-! ## Content -/

/-- A comment. -/
def comment : Rule Unit := do
  Rule.literal "<!--"
  let _ ← Rule.upTo "-->"

/-- A processing instruction. -/
def instruction : Rule Unit := do
  Rule.literal "<?"
  let _ ← Rule.upTo "?>"

/-- A section of character data. -/
def dataSection : Rule String := do
  Rule.literal "<![CDATA["
  Rule.upTo "]]>"

/-- What the front of a stretch of content can be. -/
inductive Piece where
  /-- The start tag of an element with content. -/
  | opening (tag : Tag)
  /-- Content that is complete. -/
  | whole (content : Content)
  /-- A comment or a processing instruction. -/
  | aside

/-- The piece at the front. -/
def piece : Rule Piece :=
  (do return .whole (.element (← emptyTag) [] none))
    <|> (do return .opening (← startTag))
    <|> (do return .whole (.data (← dataSection)))
    <|> (do comment; return .aside)
    <|> (do instruction; return .aside)
    <|> (do return .whole (.text (← Rule.run1 (fun c => c ≠ '<'))))

/-- Completes an element whose content has been read with its end tag. -/
def close (tag : Tag) (inner : List Content × List Char) : Option (Content × List Char) :=
  match endTag inner.2 with
  | some (name, rest) => some (.element tag inner.1 (some name), rest)
  | none => none

/-- The content at the front of the text, as far as it is complete. Each step
consumes a character, so `n` steps are enough for a text of length `n`. -/
def contents : Nat → List Char → List Content × List Char
  | 0, cs => ([], cs)
  | n + 1, cs =>
    match piece cs with
    | none => ([], cs)
    | some (.aside, rest) => contents n rest
    | some (.whole c, rest) =>
      let more := contents n rest
      (c :: more.1, more.2)
    | some (.opening tag, rest) =>
      match close tag (contents n rest) with
      | none => ([], cs)
      | some (e, rest) =>
        let more := contents n rest
        (e :: more.1, more.2)

/-- An element with everything in it. -/
def element : Rule Content :=
  (do return .element (← emptyTag) [] none)
    <|> (do
      let tag ← startTag
      fun cs => close tag (contents cs.length cs))

/-! ## Whole documents -/

/-- The declaration at the very front of a document. -/
def prolog : Rule Unit := do
  Rule.literal "<?xml"
  let _ ← Rule.upTo "?>"

/-- What may stand around the root element. -/
def misc : Rule Unit := comment <|> instruction <|> space

/-- A whole document; its value is the root element. -/
def document : Rule Content := do
  let _ ← Rule.opt prolog
  let _ ← Rule.many misc
  let root ← element
  let _ ← Rule.many misc
  Rule.done
  return root

/-- The root element of a text that matches the grammar. -/
def read? (source : String) : Option Content := Rule.accept? document source

end Document

end OpenWorkflow.Markup
