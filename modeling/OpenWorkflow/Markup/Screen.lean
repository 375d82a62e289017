import OpenWorkflow.Markup.Token
import OpenWorkflow.Text.Blank
import OpenWorkflow.Text.Split

/-!
# Screening

`screen` removes what only a designer reads: elements and attributes of
ignorable namespaces, declarations of members and variables, text expression
settings. An element that is removed takes everything in it along. The
ignorable namespaces are a fixed list and those that the first tag of the
document declares.
-/

namespace OpenWorkflow.Markup

namespace Screen

/-- The namespaces that are ignorable in every document. -/
def fixedNamespaces : List String :=
  Namespace.presentation ++ [Namespace.compatibility, Namespace.visualBasic]

/-- The namespaces that the first tag declares ignorable. -/
def declaredNamespaces : List Token → List String
  | [] => []
  | t :: _ => ((t.attribute? ignorableKey).map Text.wordsOf).getD []

/-- Is a start tag removed, with everything up to its end tag? -/
def dropsElement (ignorable : List String) (t : Token) : Bool :=
  ignorable.contains t.ns
    || t.qname == languageName "Members"
    || ".Variables".toList.isSuffixOf t.name.toList
    || "TextExpression.".toList.isPrefixOf t.name.toList
    || t.name == "VisualBasic.Settings"

/-- The namespace of a qualified key. -/
def keyNamespace? (key : String) : Option String :=
  match key.toList with
  | '\x7b' :: rest => (Text.cut (· = '\x7d') rest).map (fun r => String.ofList r.1)
  | _ => none

/-- Is an attribute with the given key removed? -/
def dropsAttribute (ignorable : List String) (key : String) : Bool :=
  match keyNamespace? key with
  | some ns => ignorable.contains ns
  | none => false

/-- Screens the tags that follow, of which the next ones lie `depth` levels
deep in a removed element. -/
def keep (ignorable : List String) : Nat → List Token → List Token
  | _, [] => []
  | 0, t :: ts =>
    if !t.closing && dropsElement ignorable t then keep ignorable 1 ts
    else t.filterAttributes (fun key => !dropsAttribute ignorable key) :: keep ignorable 0 ts
  | depth + 1, t :: ts =>
    if t.closing then keep ignorable depth ts else keep ignorable (depth + 2) ts

end Screen

/-- The tags of a document without those that only a designer reads. -/
def screen (tokens : List Token) : List Token :=
  Screen.keep (Screen.fixedNamespaces ++ Screen.declaredNamespaces tokens) 0 tokens

end OpenWorkflow.Markup
