import OpenWorkflow.CommandLine.Command
import OpenWorkflow.CommandLine.Files
import OpenWorkflow.Compile
import OpenWorkflow.Output.Dot
import OpenWorkflow.Owfn.Reader
import OpenWorkflow.Owfn.Writer

/-!
# Running commands

`run` answers a command line: what is printed, and the exit code. Code 0 is
success, 1 failure of a command, 2 a command line that makes no sense.
-/

namespace OpenWorkflow.CommandLine

/-- Why a command fails. -/
inductive Failure where
  /-- A file cannot be read or written. -/
  | file (error : FileError)
  /-- The document has no net. -/
  | compile (error : CompileError)
  /-- The file is not in the oWFN format. -/
  | owfn (error : Owfn.ReadError)
  /-- The net cannot be drawn. -/
  | render (reason : String)
  deriving DecidableEq

/-- The wording of a failure. -/
def Failure.message : Failure → String
  | .file e => "I/O error: " ++ e.message
  | .compile e => e.message
  | .owfn e => "oWFN syntax error: " ++ e.message
  | .render reason => "Render error: " ++ reason

/-- The answer to a command line. -/
structure Outcome where
  /-- The exit code. -/
  exit : Nat
  /-- What is printed. -/
  stdout : String := ""
  /-- What is printed about a failure. -/
  stderr : String := ""
  deriving DecidableEq

/-- The text of a net in a format. Drawings need a renderer, which this program
does without. -/
def render (net : Net) (format : Format) (ports : Bool) : Except Failure String :=
  match format with
  | .owfn => .ok (Owfn.write net ports)
  | .dot => .ok net.graph.dot
  | .pdf => .error (.render "no renderer for pdf")

/-- The text that a document becomes. -/
def convert (source : String) (format : Format) (ports : Bool) : Except Failure String :=
  match compileSource Registry.standard source with
  | .error e => .error (.compile e)
  | .ok net => render net format ports

/-- The line that tells the size of the net in a file. -/
def sizeLine (text : String) : Except Failure String :=
  match Owfn.read text with
  | .error e => .error (.owfn e)
  | .ok d => .ok (d.statistics.line ++ "\n")

variable {m : Type → Type} [Monad m]

/-- The text of a document. -/
def readSource (files : FileAccess m) : Source → m (Except Failure String)
  | .inline text => return .ok text
  | .file path => do return (← files.read path).mapError .file

/-- The path of a source, if it has one. -/
def Source.path? : Source → Option String
  | .inline _ => none
  | .file path => some path

/-- Runs a command; the result is what it prints. -/
def execute (files : FileAccess m) : Command → m (Except Failure String)
  | .compile source format output ports => do
    match ← readSource files source with
    | .error e => return .error e
    | .ok text =>
      let path := output.getD (format.defaultOutput source.path?)
      match convert text format ports with
      | .error e => return .error e
      | .ok result =>
        match ← files.write path result with
        | .error e => return .error (.file e)
        | .ok _ => return .ok ("✅ " ++ path ++ "\n")
  | .stats path => do
    match ← files.read path with
    | .error e => return .error (.file e)
    | .ok text => return sizeLine text

/-- Answers a command line. -/
def run (files : FileAccess m) (args : List String) : m Outcome :=
  match Request.ofArguments args with
  | .usage => return { exit := 2, stderr := usageText }
  | .print text => return { exit := 0, stdout := text }
  | .run command => do
    match ← execute files command with
    | .ok text => return { exit := 0, stdout := text }
    | .error e => return { exit := 1, stderr := "❌ " ++ e.message ++ "\n" }

end OpenWorkflow.CommandLine
