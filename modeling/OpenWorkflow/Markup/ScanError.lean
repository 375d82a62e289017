/-!
# Scan errors

Why a text is not a workflow document.
-/

namespace OpenWorkflow.Markup

/-- The causes for which a document is refused. -/
inductive ScanError where
  /-- The text does not match the grammar of documents. -/
  | malformed
  /-- An end tag whose name differs from that of its start tag. -/
  | endTagMismatch (found expected : String)
  /-- A prefix without a declaration in force. -/
  | undeclaredPrefix (label : String)
  /-- An ampersand with no semicolon after it. -/
  | unterminatedEntity (raw : String)
  /-- A reference to an entity that is neither predefined nor a character. -/
  | unknownEntity (entity : String)
  deriving DecidableEq

/-- The wording of a scan error. -/
def ScanError.message : ScanError → String
  | .malformed => "syntax error"
  | .endTagMismatch found expected => s!"end tag '{found}' does not match '{expected}'"
  | .undeclaredPrefix label => s!"undeclared namespace prefix '{label}'"
  | .unterminatedEntity raw => s!"unterminated entity in '{raw}'"
  | .unknownEntity entity => s!"unknown entity '&{entity};'"

end OpenWorkflow.Markup
