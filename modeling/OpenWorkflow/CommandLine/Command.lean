import OpenWorkflow.CommandLine.Options
import OpenWorkflow.Output.Format

/-!
# Commands

The two commands of the program: `compile` writes the net of a document, `stats`
prints the size of the net in a file. `Request.ofArguments` says what a command
line asks for.
-/

namespace OpenWorkflow.CommandLine

/-- Where a document comes from. -/
inductive Source where
  /-- The command line itself. -/
  | inline (text : String)
  /-- A file. -/
  | file (path : String)
  deriving DecidableEq

/-- A command. -/
inductive Command where
  /-- Writes the net of a document. -/
  | compile (source : Source) (format : Format) (output : Option String) (ports : Bool)
  /-- Prints the size of the net in a file. -/
  | stats (path : String)
  deriving DecidableEq

/-- What a command line asks for. -/
inductive Request where
  /-- A command. -/
  | run (command : Command)
  /-- A text about the program. -/
  | print (text : String)
  /-- Nothing that makes sense. -/
  | usage
  deriving DecidableEq

/-- The name of the program. -/
def program : String := "wfnet"

/-- The version of the program. -/
def version : String := "0.1.0"

/-- How the program is used. -/
def usageText : String :=
  "Usage: " ++ program ++ " [OPTIONS] <COMMAND>\n\nCommands:\n"
    ++ "  compile  Compile a XAML workflow into an open workflow net\n"
    ++ "  stats    Print the size of an oWFN file\n"
    ++ "  help     Print this message or the help of the given subcommand(s)\n"

/-- The option of every command. -/
def sharedOptions : List OptionSpec := [⟨"debug", some 'd', .flag⟩]

/-- The options of `compile`. -/
def compileOptions : List OptionSpec :=
  [⟨"input", some 'i', .text⟩, ⟨"file", some 'f', .path⟩,
    ⟨"type", some 't', .choice (Format.all.map Format.extension)⟩,
    ⟨"output", some 'o', .path⟩, ⟨"ports", none, .flag⟩] ++ sharedOptions

/-- The options of `stats`. -/
def statsOptions : List OptionSpec := [⟨"file", some 'f', .path⟩] ++ sharedOptions

namespace Request

/-- The answer to a stop while the options of the given command are read. -/
def ofStop (name : String) : Stop → Request
  | .usage => .usage
  | .help => .print usageText
  | .version => .print (name ++ " " ++ version ++ "\n")

/-- The command `compile` with the given options: the document comes from one
source. -/
def compile (given : Given) : Request :=
  let format := ((given.lookup "type").bind Format.ofExtension?).getD .owfn
  let output := given.lookup "output"
  let ports := (given.lookup "ports").isSome
  match given.lookup "input", given.lookup "file" with
  | some text, none => .run (.compile (.inline text) format output ports)
  | none, some path => .run (.compile (.file path) format output ports)
  | _, _ => .usage

/-- The command `stats` with the given options. -/
def stats (given : Given) : Request :=
  match given.lookup "file" with
  | some path => .run (.stats path)
  | none => .usage

/-- A command with its arguments, none of which may be left over. -/
def ofCommand (name : String) (specs : List OptionSpec) (make : Given → Request)
    (args : List String) : Request :=
  match Options.read specs none [] args with
  | .ok (given, none) => make given
  | .ok (_, some _) => .usage
  | .error stop => ofStop (program ++ "-" ++ name) stop

/-- Help for the command that the arguments name. -/
def help : List String → Request
  | [] => .print usageText
  | [name] => if ["compile", "stats", "help"].contains name then .print usageText else .usage
  | _ => .usage

/-- What a command line asks for. -/
def ofArguments (args : List String) : Request :=
  match Options.read sharedOptions none [] args with
  | .error stop => ofStop program stop
  | .ok (_, none) => .usage
  | .ok (_, some (name, args)) =>
    if name = "compile" then ofCommand name compileOptions compile args
    else if name = "stats" then ofCommand name statsOptions stats args
    else if name = "help" then help args
    else .usage

end Request

end OpenWorkflow.CommandLine
