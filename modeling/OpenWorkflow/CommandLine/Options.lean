/-!
# Command line options

How options stand on a command line. An option has a long name after two
hyphens and may have a short name, one letter after a hyphen. A value follows as
the next argument, or in the same one: after an equals sign behind the long
name, and directly or after an equals sign behind the short one. Short names
without value can share a hyphen. No option may be given twice, and two hyphens
alone end the options.

Every set of options also has `help` and `version`, which end the reading as
soon as they are met.
-/

namespace OpenWorkflow.CommandLine

/-- What an option takes. -/
inductive OptionKind where
  /-- No value. -/
  | flag
  /-- Any text. -/
  | text
  /-- The path of a file, which is not empty. -/
  | path
  /-- One of the given words. -/
  | choice (words : List String)
  deriving DecidableEq

/-- An option. -/
structure OptionSpec where
  /-- The long name. -/
  name : String
  /-- The short name. -/
  letter : Option Char
  /-- What it takes. -/
  kind : OptionKind
  deriving DecidableEq

/-- Does the option accept the value? -/
def OptionSpec.accepts (o : OptionSpec) (value : String) : Bool :=
  match o.kind with
  | .flag => false
  | .text => true
  | .path => value ≠ ""
  | .choice words => words.contains value

/-- Why the reading of options ends early. -/
inductive Stop where
  /-- The arguments are not as they should be. -/
  | usage
  /-- Help is asked for. -/
  | help
  /-- The version is asked for. -/
  | version
  deriving DecidableEq

/-- The options given, with their values; a flag has the empty value. -/
abbrev Given := List (String × String)

namespace Options

/-- Records an option, which must not have been given before. -/
def give (given : Given) (o : OptionSpec) (value : String) : Except Stop Given :=
  if (given.lookup o.name).isSome then .error .usage else .ok (given ++ [(o.name, value)])

/-- Records an option with its value. -/
def giveValue (given : Given) (o : OptionSpec) (value : String) : Except Stop Given :=
  if o.accepts value then give given o value else .error .usage

/-- What reading one argument leaves: the options given, and the option that
waits for its value. -/
abbrev State := Given × Option OptionSpec

/-- Reads a long name and the value after its equals sign. -/
def long (specs : List OptionSpec) (given : Given) (name : String) (value : Option String) :
    Except Stop State :=
  match specs.find? (fun o => o.name = name), value with
  | some o, some value => do return (← giveValue given o value, none)
  | some o, none =>
    if o.kind = .flag then do return (← give given o "", none) else .ok (given, some o)
  | none, some _ => .error .usage
  | none, none =>
    if name = "help" then .error .help
    else if name = "version" then .error .version
    else .error .usage

/-- A value directly behind a short name, without its equals sign. -/
def attached : List Char → String
  | '=' :: cs => String.ofList cs
  | cs => String.ofList cs

/-- Reads short names that share a hyphen. -/
def short (specs : List OptionSpec) : Given → List Char → Except Stop State
  | given, [] => .ok (given, none)
  | given, c :: cs =>
    match specs.find? (fun o => o.letter = some c) with
    | some o =>
      if o.kind = .flag then
        match give given o "" with
        | .ok given => short specs given cs
        | .error e => .error e
      else if cs.isEmpty then .ok (given, some o)
      else do return (← giveValue given o (attached cs), none)
    | none =>
      if c = 'h' then .error .help
      else if c = 'V' then .error .version
      else .error .usage

/-- What an argument looks like. -/
inductive Shape where
  /-- Two hyphens alone. -/
  | terminator
  /-- A long name, and the value after its equals sign. -/
  | long (name : String) (value : Option String)
  /-- Short names. -/
  | short (letters : List Char)
  /-- Anything else. -/
  | plain

/-- What an argument looks like. -/
def shape (arg : String) : Shape :=
  match arg.toList with
  | ['-', '-'] => .terminator
  | '-' :: '-' :: cs =>
    let name := cs.takeWhile (· ≠ '=')
    let value := (cs.drop name.length).tail?
    .long (String.ofList name) (value.map String.ofList)
  | '-' :: c :: cs => .short (c :: cs)
  | _ => .plain

/-- Reads options up to the first plain argument that is no value; the result
is what was given, that argument and the arguments after it. -/
def read (specs : List OptionSpec) :
    Option OptionSpec → Given → List String → Except Stop (Given × Option (String × List String))
  | none, given, [] => .ok (given, none)
  | some _, _, [] => .error .usage
  | waiting, given, arg :: args =>
    match shape arg, waiting with
    | .plain, some o =>
      match giveValue given o arg with
      | .ok given => read specs none given args
      | .error e => .error e
    | .plain, none => .ok (given, some (arg, args))
    | _, some _ => .error .usage
    | .terminator, none => if args.isEmpty then .ok (given, none) else .error .usage
    | .long name value, none =>
      match long specs given name value with
      | .ok (given, waiting) => read specs waiting given args
      | .error e => .error e
    | .short letters, none =>
      match short specs given letters with
      | .ok (given, waiting) => read specs waiting given args
      | .error e => .error e

end Options

end OpenWorkflow.CommandLine
