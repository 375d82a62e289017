import OpenWorkflow.Data.OrderedMap
import OpenWorkflow.Markup.Namespace

/-!
# Tokens

One structural unit of a workflow document: a start tag with its attributes or
an end tag. Attribute keys are unprefixed names as written, names of the markup
language with the fixed prefix `x:`, and qualified names for everything else.
-/

namespace OpenWorkflow.Markup

/-- A start tag or an end tag. -/
structure Token where
  /-- The namespace of the element. -/
  ns : String
  /-- The local name of the element. -/
  name : String
  /-- Is it an end tag? -/
  closing : Bool := false
  /-- The attributes in the order in which their keys first occur. -/
  attributes : OrderedMap String String := ∅
  deriving DecidableEq

namespace Token

/-- A start tag without attributes. -/
def opening (ns name : String) : Token := { ns, name }

/-- An end tag. -/
def ending (ns name : String) : Token := { ns, name, closing := true }

/-- The qualified name of the element. -/
def qname (t : Token) : String := qualify t.ns t.name

/-- The value of an attribute. -/
def attribute? (t : Token) (key : String) : Option String := t.attributes.get? key

/-- Sets an attribute; a key that is already present keeps its position. -/
def setAttribute (t : Token) (key value : String) : Token :=
  { t with attributes := t.attributes.insert key value }

/-- Sets the attributes of a list, from left to right. -/
def setAttributes (t : Token) (attributes : List (String × String)) : Token :=
  { t with attributes := t.attributes.insertAll attributes }

/-- Keeps the attributes whose key passes a test. -/
def filterAttributes (t : Token) (keep : String → Bool) : Token :=
  { t with attributes := t.attributes.filterKeys keep }

/-- Is it a start tag with the given qualified name? -/
def opens (t : Token) (qname : String) : Bool := !t.closing && t.qname == qname

/-- Is it an end tag with the given qualified name? -/
def closes (t : Token) (qname : String) : Bool := t.closing && t.qname == qname

/-- How error messages name the tag: an end tag has a slash in front. -/
def describe (t : Token) : String := if t.closing then "/" ++ t.qname else t.qname

@[simp] theorem attribute?_setAttribute (t : Token) (key value x : String) :
    (t.setAttribute key value).attribute? x = if x = key then some value else t.attribute? x :=
  OrderedMap.get?_insert _ _ _ _

end Token

end OpenWorkflow.Markup
