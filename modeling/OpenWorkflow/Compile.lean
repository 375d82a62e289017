import OpenWorkflow.Fragment.Activity
import OpenWorkflow.Markup.Scan
import OpenWorkflow.Markup.Screen
import OpenWorkflow.Net.Consistency
import OpenWorkflow.Workflow.Document

/-!
# From a document to its net

`compile` builds the net of an activity: the fragment of the activity between
two boundary places, of which the first holds the only token and the second is
the only final set. `compileSource` goes the whole way from the text of a
document.
-/

namespace OpenWorkflow

/-- Why a document or an activity has no net. -/
inductive CompileError where
  /-- The text is no document. -/
  | scan (error : Markup.ScanError)
  /-- The tags are no workflow. -/
  | read (error : ReadError)
  /-- A step of the construction was refused. -/
  | net (error : NetError)
  /-- The net is inconsistent. -/
  | inconsistent (flaws : List Flaw)
  deriving DecidableEq

/-- The wording of a compile error. -/
def CompileError.message : CompileError → String
  | .scan e => "Scan error: " ++ e.message
  | .read e => e.message
  | .net e => "Net error: " ++ e.message
  | .inconsistent flaws => "Errors: " ++ toString flaws.length

/-- Builds the fragment of an activity between marked start and final end. -/
def bounded (root : Activity) : Build Unit := do
  let scope ← Scope.enter
  Net.setTokens scope.initialized 1
  Net.addFinalSet [PlaceRef.named scope.closed]
  let _ ← Fragment.splice root.fragment scope.initialized scope.closed

/-- The net of an activity. -/
def compile (root : Activity) : Except CompileError Net :=
  match bounded root Net.empty with
  | .error e _ => .error (.net e)
  | .ok _ net => if net.isConsistent then .ok net else .error (.inconsistent net.flaws)

/-- The tags of a document without those that only a designer reads. -/
def scanDocument (source : String) : Except CompileError (List Markup.Token) :=
  match Markup.scan source with
  | .error e => .error (.scan e)
  | .ok tokens => .ok (Markup.screen tokens)

/-- The activity of a document. -/
def readActivity (r : Registry) (tokens : List Markup.Token) : Except CompileError Activity :=
  match parseDocument r tokens with
  | .error e => .error (.read e)
  | .ok root => .ok root

/-- The net of a document. -/
def compileSource (r : Registry) (source : String) : Except CompileError Net := do
  let tokens ← scanDocument source
  let root ← readActivity r tokens
  compile root

end OpenWorkflow
