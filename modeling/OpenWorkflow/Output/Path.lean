/-!
# Paths

Paths of files, with slashes between their parts. A slash, or a slash and a dot,
at the end of a path adds nothing to it. The name of a file is its last part,
unless that is a dot or two; its extension is what follows the last dot of the
name, if something stands before that dot.
-/

namespace OpenWorkflow.Path

/-- A reversed path without what adds nothing to its end. -/
def trimEnd : List Char → List Char
  | '/' :: rest => trimEnd rest
  | '.' :: '/' :: rest => trimEnd ('/' :: rest)
  | path => path

/-- The directory part and the file name of a path, both reversed. -/
def splitName? (path : List Char) : Option (List Char × List Char) :=
  let trimmed := trimEnd path.reverse
  let name := trimmed.takeWhile (· ≠ '/')
  if name = [] ∨ name = ['.'] ∨ name = ['.', '.'] then none
  else some (trimmed.drop name.length, name)

/-- The stem and the extension of a file name, all reversed. -/
def splitExtension (name : List Char) : List Char × Option (List Char) :=
  match name.dropWhile (· ≠ '.') with
  | '.' :: c :: stem => (c :: stem, some (name.takeWhile (· ≠ '.')))
  | _ => (name, none)

/-- The extension of a path. -/
def extension? (path : List Char) : Option (List Char) :=
  (splitName? path).bind (fun r => ((splitExtension r.2).2).map List.reverse)

/-- Gives the file name another extension; a path without file name stays as it is. -/
def setExtension (path : List Char) (extension : List Char) : List Char :=
  match splitName? path with
  | none => path
  | some (directory, name) =>
    directory.reverse ++ (splitExtension name).1.reverse ++ '.' :: extension

/-- The path with another extension in place of its own. The old extension is
taken off first, which may leave a path without file name. -/
def withExtension (path extension : String) : String :=
  let path := path.toList
  let bare := match extension? path with
    | some old => path.take (path.length - old.length)
    | none => path
  String.ofList (setExtension bare extension.toList)

end OpenWorkflow.Path
