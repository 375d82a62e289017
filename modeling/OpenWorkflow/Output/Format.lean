import OpenWorkflow.Output.Path

/-!
# Output formats

The formats in which a net can be written, and where it goes if no path is
given.
-/

namespace OpenWorkflow

/-- The formats in which a net can be written. -/
inductive Format where
  /-- The oWFN text format. -/
  | owfn
  /-- A graph in the DOT language. -/
  | dot
  /-- A drawing. -/
  | pdf
  deriving DecidableEq

namespace Format

/-- The extension of files of the format. -/
def extension : Format → String
  | owfn => "owfn"
  | dot => "dot"
  | pdf => "pdf"

/-- All formats. -/
def all : List Format := [owfn, dot, pdf]

/-- The format with the given extension. -/
def ofExtension? (ext : String) : Option Format := all.find? (fun f => f.extension = ext)

/-- The path of the output: that of the input with the format's extension, or
`workflow` for input without a path. -/
def defaultOutput (f : Format) (input : Option String) : String :=
  Path.withExtension (input.getD "workflow") f.extension

end Format

end OpenWorkflow
