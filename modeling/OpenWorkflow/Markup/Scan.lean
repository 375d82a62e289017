import OpenWorkflow.Markup.Document
import OpenWorkflow.Markup.Entity
import OpenWorkflow.Markup.Token
import OpenWorkflow.Text.Blank

/-!
# Scanning

`scan` turns the text of a document into its start and end tags in document
order. Names are resolved against the namespace declarations in force, and
references are replaced. An element that closes itself gives both tags. The
character data of an element, trimmed, becomes an attribute of its start tag
that is named like the element.

A text that does not match the grammar is refused as a whole. After that the
first fault in document order decides; within one element the attribute values
come first, then the element's name, the attribute names, the content and last
the end tag.
-/

namespace OpenWorkflow.Markup

/-- The namespace declarations in force, innermost and latest first. -/
abbrev Bindings := List (String × String)

namespace Bindings

/-- The namespace that a prefix stands for; `xml` needs no declaration. -/
def lookup? (env : Bindings) (label : String) : Option String :=
  if label = "xml" then some Namespace.xml else List.lookup label env

/-- The prefix that an attribute declares; the default namespace has the empty prefix. -/
def declares? (key : String) : Option String :=
  if key = "xmlns" then some ""
  else ("xmlns:".toList.isPrefixOf? key.toList).map String.ofList

/-- The declarations in force inside a tag with the given attributes. -/
def extend (env : Bindings) (attributes : List (String × String)) : Bindings :=
  (attributes.filterMap (fun a => (declares? a.1).map (fun p => (p, a.2)))).reverse ++ env

/-- A name divided at its first colon. -/
def splitName (name : String) : Option (String × String) :=
  (Text.cut (· = ':') name.toList).map (fun r => (String.ofList r.1, String.ofList r.2))

/-- The namespace of a prefix, or the error that it has none. -/
def resolvePrefix (env : Bindings) (label : String) : Except ScanError String :=
  match env.lookup? label with
  | some ns => .ok ns
  | none => .error (.undeclaredPrefix label)

/-- The namespace and the local name of an element. -/
def resolve (env : Bindings) (name : String) : Except ScanError (String × String) :=
  match splitName name with
  | some (label, rest) => (env.resolvePrefix label).map (fun ns => (ns, rest))
  | none => .ok ((env.lookup? "").getD "", name)

/-- The key under which an attribute is kept. -/
def attributeKey (env : Bindings) (name : String) : Except ScanError String :=
  match splitName name with
  | none => .ok name
  | some (label, rest) =>
    (env.resolvePrefix label).map fun ns =>
      if ns = Namespace.language then "x:" ++ rest else qualify ns rest

/-- A list of prefixes as the list of their namespaces; an unknown prefix stays. -/
def expandPrefixes (env : Bindings) (value : String) : String :=
  " ".intercalate ((Text.wordsOf value).map (fun p => (env.lookup? p).getD p))

/-- The attribute under its key, with its value. -/
def readAttribute (env : Bindings) (a : String × String) : Except ScanError (String × String) :=
  (env.attributeKey a.1).map fun key =>
    (key, if key = ignorableKey then env.expandPrefixes a.2 else a.2)

end Bindings

namespace Scan

/-- Replaces the references in the values of attributes. -/
def decodeValues (attributes : List (String × String)) :
    Except ScanError (List (String × String)) :=
  attributes.mapM (fun a => (Entity.decode a.2).map (fun value => (a.1, value)))

/-- The start tag that a tag gives, and the declarations in force inside it. -/
def openTag (env : Bindings) (tag : Tag) : Except ScanError (Bindings × Token) := do
  let attributes ← decodeValues tag.attributes
  let env := env.extend attributes
  let (ns, name) ← env.resolve tag.name
  let plain := attributes.filter (fun a => (Bindings.declares? a.1).isNone)
  let keyed ← plain.mapM env.readAttribute
  return (env, (Token.opening ns name).setAttributes keyed)

/-- An end tag must repeat the name of its start tag. -/
def checkEnd (tag : Tag) : Option String → Except ScanError Unit
  | none => .ok ()
  | some name => if name = tag.name then .ok () else .error (.endTagMismatch name tag.name)

/-- The tags of an element from its start tag, its character data and the tags inside it. -/
def enclose (start : Token) (text : String) (inner : List Token) : List Token :=
  let value := Text.trim text.toList
  let start := if value.isEmpty then start else start.setAttribute start.name (String.ofList value)
  start :: inner ++ [Token.ending start.ns start.name]

mutual

/-- The character data and the tags that one piece of content gives. -/
def content (env : Bindings) : Content → Except ScanError (String × List Token)
  | .text raw => (Entity.decode raw).map (fun text => (text, []))
  | .data raw => .ok (raw, [])
  | .element tag inner endName => do
    let (within, start) ← openTag env tag
    let inner ← contents within inner
    checkEnd tag endName
    return ("", enclose start inner.1 inner.2)

/-- The character data that stands directly in a stretch of content, and the
tags of the elements in it. -/
def contents (env : Bindings) : List Content → Except ScanError (String × List Token)
  | [] => .ok ("", [])
  | c :: cs => do
    let first ← content env c
    let rest ← contents env cs
    return (first.1 ++ rest.1, first.2 ++ rest.2)

end

end Scan

/-- The tags of a document, in document order. -/
def scan (source : String) : Except ScanError (List Token) :=
  match Document.read? source with
  | none => .error .malformed
  | some root => (Scan.content [] root).map Prod.snd

end OpenWorkflow.Markup
