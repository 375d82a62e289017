import OpenWorkflow.Text.Split

/-!
# Files

How a command gets at files. `FileAccess` is what it needs; a file tree kept in
memory, `FileTree`, provides it without touching a disk. A path is followed step by
step from the working directory or from the root of the tree, and it may climb above
the directory where it starts, though never above the root.
-/

namespace OpenWorkflow.CommandLine

/-- Why a file cannot be read or written. -/
inductive FileError where
  /-- There is no such file, or no directory to put it in. -/
  | notFound
  /-- A part of the path is a file. -/
  | notDirectory
  /-- The path is that of a directory. -/
  | isDirectory
  /-- The path, or a name in it, is longer than the system takes. -/
  | nameTooLong
  /-- There is no room for the text. -/
  | noSpace
  /-- The file does not hold text. -/
  | notText
  /-- Any other reason. -/
  | other (reason : String)
  deriving DecidableEq

/-- The wording of a file error. -/
def FileError.message : FileError → String
  | .notFound => "No such file or directory (os error 2)"
  | .notDirectory => "Not a directory (os error 20)"
  | .isDirectory => "Is a directory (os error 21)"
  | .nameTooLong => "File name too long (os error 36)"
  | .noSpace => "No space left on device (os error 28)"
  | .notText => "stream did not contain valid UTF-8"
  | .other reason => reason

/-- What a command needs to get at files. -/
structure FileAccess (m : Type → Type) where
  /-- The text of a file. -/
  read : String → m (Except FileError String)
  /-- Gives a file a new text. -/
  write : String → String → m (Except FileError Unit)

/-- Where a file or a directory is: the names that lead to it from the root. -/
abbrev Location := List String

/-- Where one step of a path leads. The root is above itself. -/
def Location.enter (location : Location) (step : String) : Location :=
  if step = "" ∨ step = "." then location
  else if step = ".." then location.dropLast
  else location ++ [step]

/-- What can be at a location. -/
inductive Item where
  /-- A directory. -/
  | directory
  /-- A file with its text. -/
  | file (text : String)
  /-- A device that reads as an empty text, takes every text and keeps none. -/
  | null
  /-- A device that reads as a text without end and takes none. -/
  | full
  deriving DecidableEq

/-- A tree of files and directories, kept in memory. -/
structure FileTree where
  /-- The working directory, where a path starts that does not start at the root. -/
  working : Location
  /-- What is at each location; at the others there is nothing. -/
  items : List (Location × Item)
  deriving DecidableEq

/-- The number of bytes that a name may have. -/
def nameLimit : Nat := 255

/-- The number of bytes that a path may have. -/
def pathLimit : Nat := 4095

/-- The directories that stand at the root of every system. -/
def standardDirectories : List String :=
  ["bin", "boot", "dev", "etc", "home", "lib", "media", "mnt", "opt", "proc", "root", "run",
    "sbin", "srv", "sys", "tmp", "usr", "var"]

namespace FileTree

/-- A system with an empty working directory among the temporary files. The name of
that directory is empty, so that no path can spell it. -/
def fresh : FileTree where
  working := ["tmp", ""]
  items := [([], .directory), (["tmp", ""], .directory), (["dev", "null"], .null),
    (["dev", "full"], .full)] ++ standardDirectories.map (fun name => ([name], .directory))

/-- The location where a path starts. -/
def start (t : FileTree) (path : List Char) : Location :=
  if path.head? = some '/' then [] else t.working

/-- The steps of a path. -/
def steps (path : List Char) : List String := (Text.pieces (· = '/') path).map String.ofList

/-- The steps of a path to a file that is to be written. After a slash at the end
there is no name for the file, so the path leads to the directory that would hold
it. -/
def stepsToWrite (path : List Char) : List String :=
  if path.getLast? = some '/' then
    (steps (path.reverse.dropWhile (· = '/')).reverse).dropLast ++ ["."]
  else steps path

/-- Follows the steps of a path from a directory: where they lead, and what is there.
A name is measured before it is looked up, and looked up only in a directory that
exists. -/
def walk (t : FileTree) (location : Location) :
    List String → Except FileError (Location × Option Item)
  | [] => .ok (location, some .directory)
  | step :: rest =>
    let next := location.enter step
    if step = "" ∨ step = "." ∨ step = ".." then walk t next rest
    else if nameLimit < step.utf8ByteSize then .error .nameTooLong
    else
      match t.items.lookup next with
      | some .directory => walk t next rest
      | some item => if rest.isEmpty then .ok (next, some item) else .error .notDirectory
      | none => if rest.isEmpty then .ok (next, none) else .error .notFound

/-- Where a path with the given steps leads, and what is there. -/
def find (t : FileTree) (path : String) (steps : List String) :
    Except FileError (Location × Option Item) :=
  if pathLimit < path.utf8ByteSize then .error .nameTooLong
  else t.walk (t.start path.toList) steps

/-- The text of a file. -/
def read (t : FileTree) (path : String) : Except FileError String := do
  let (_, item) ← t.find path (steps path.toList)
  match item with
  | none => .error .notFound
  | some .directory => .error .isDirectory
  | some (.file text) => .ok text
  | some .null => .ok ""
  | some .full => .error (.other "out of memory")

/-- The tree with an item instead of the one at the same location. -/
def put (t : FileTree) (location : Location) (item : Item) : FileTree :=
  { t with items := t.items.filter (fun i => i.1 ≠ location) ++ [(location, item)] }

/-- Gives a file a new text. -/
def write (t : FileTree) (path text : String) : Except FileError FileTree := do
  let (location, item) ← t.find path (stepsToWrite path.toList)
  match item with
  | none => .ok (t.put location (.file text))
  | some .directory => .error .isDirectory
  | some (.file _) => .ok (t.put location (.file text))
  | some .null => .ok t
  | some .full => .error .noSpace

/-- The tree with one more file, and with the directories on the way to it. -/
def lay (t : FileTree) (location : Location) : List String → String → FileTree
  | [], _ => t
  | [name], text => t.put (location.enter name) (.file text)
  | step :: rest, text =>
    let next := location.enter step
    lay (t.put next .directory) next rest text

/-- A fresh system with the given files. -/
def ofFiles (files : List (String × String)) : FileTree :=
  files.foldl (fun t f => t.lay (t.start f.1.toList) (steps f.1.toList) f.2) fresh

/-- Access to the files of a tree in memory. -/
def access : FileAccess (StateM FileTree) where
  read path := do return (← get).read path
  write path text := do
    match (← get).write path text with
    | .ok t => do
      set t
      return .ok ()
    | .error e => return .error e

end FileTree

end OpenWorkflow.CommandLine
