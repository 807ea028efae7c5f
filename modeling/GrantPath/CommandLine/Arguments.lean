/-! # Command line arguments

The program is told which files to read and what to do: `check` a permission or `validate` the
files. An option is a name after two dashes, with a value attached by an equals sign or in
the next argument; a value in the next argument does not start with a dash, unless it is a
single one. No option is given twice.
-/

namespace GrantPath.CommandLine

/-- What to check, and how to print the answer. -/
structure CheckArguments where
  principal : String
  owner : String
  activity : String
  target : Option String
  json : Bool
deriving DecidableEq, Repr

/-- What to do. -/
inductive Command where
  | check (arguments : CheckArguments)
  | validate
deriving DecidableEq, Repr

/-- The files to read and what to do. -/
structure Invocation where
  config : Option String
  directory : String
  command : Command
deriving DecidableEq, Repr

/-- What a list of arguments asks for. -/
inductive Instruction where
  | run (invocation : Invocation)
  | help
  | version
  | rejected
deriving DecidableEq, Repr

/-- The options that a command knows. -/
structure Options where
  valued : List String
  flags : List String := []
  hasVersion : Bool := false

/-- The options found so far: a flag has the empty value. -/
abbrev Found := List (String × String)

/-- Where the reading of options ends. -/
inductive Stop where
  /-- An argument that is no option, and what follows it. -/
  | word (found : Found) (word : String) (rest : List String)
  /-- The end of the arguments. -/
  | finish (found : Found)
  | help
  | version
  | rejected

/-- Cuts a text at its first equals sign. -/
def splitAtEquals : List Char → List Char × Option (List Char)
  | [] => ([], none)
  | c :: cs =>
    if c = '=' then ([], some cs)
    else
      let (name, value) := splitAtEquals cs
      (c :: name, value)

/-- Whether the argument cannot be the value of the option before it. -/
def isDashed (argument : String) : Bool :=
  match argument.toList with
  | '-' :: _ :: _ => true
  | _ => false

/-- Reads options up to the first argument that is none. -/
def readOptions (options : Options) : Found → List String → Stop
  | found, [] => .finish found
  | found, argument :: rest =>
    match argument.toList with
    | ['-', '-'] => if rest.isEmpty then .finish found else .rejected
    | '-' :: '-' :: cs =>
      let (name, attached) := splitAtEquals cs
      let name := String.ofList name
      if (found.lookup name).isSome then .rejected
      else if name ∈ options.valued then
        match attached, rest with
        | some value, rest => readOptions options ((name, String.ofList value) :: found) rest
        | none, value :: rest =>
          if isDashed value then .rejected
          else readOptions options ((name, value) :: found) rest
        | none, [] => .rejected
      else if attached.isSome then .rejected
      else if name ∈ options.flags then readOptions options ((name, "") :: found) rest
      else if name = "help" then .help
      else if name = "version" && options.hasVersion then .version
      else .rejected
    | '-' :: c :: _ =>
      if c = 'h' then .help
      else if c = 'V' && options.hasVersion then .version
      else .rejected
    | _ => .word found argument rest

/-- The options before the command. -/
def programOptions : Options :=
  { valued := ["config", "directory"], hasVersion := true }

/-- The options of `check`. -/
def checkOptions : Options :=
  { valued := ["principal", "owner", "activity", "target"], flags := ["json"] }

/-- The arguments of `check`, if none of the required ones is missing. -/
def checkArguments? (found : Found) : Option CheckArguments := do
  let principal ← found.lookup "principal"
  let owner ← found.lookup "owner"
  let activity ← found.lookup "activity"
  let json := (found.lookup "json").isSome
  return { principal, owner, activity, target := found.lookup "target", json }

/-- Reads the arguments of a command. -/
def readCommand (options : Options) (command? : Found → Option Command) (program : Found)
    (rest : List String) : Instruction :=
  match readOptions options [] rest with
  | .finish found =>
    match command? found, program.lookup "directory" with
    | some command, some directory =>
      .run { config := program.lookup "config", directory, command }
    | _, _ => .rejected
  | .help => .help
  | .version => .version
  | .word .. | .rejected => .rejected

/-- What the arguments ask for. -/
def readArguments (arguments : List String) : Instruction :=
  match readOptions programOptions [] arguments with
  | .word program "check" rest =>
    readCommand checkOptions (fun found => (checkArguments? found).map .check) program rest
  | .word program "validate" rest =>
    readCommand { valued := [] } (fun _ => some .validate) program rest
  | .word _ "help" [] | .word _ "help" ["check"] | .word _ "help" ["validate"]
  | .word _ "help" ["help"] => .help
  | .help => .help
  | .version => .version
  | .word .. | .finish _ | .rejected => .rejected

end GrantPath.CommandLine
