import GrantPath.CommandLine.Arguments
import GrantPath.Directory.Answers
import GrantPath.Loading
import GrantPath.Text.Json

/-! # The program

Given the contents of files and the clocks, the program turns arguments into text and an exit
code: 0 if it has done what it was asked for, 1 if a file or a principal is not usable, 2 if
the arguments are not, and 101 if the configuration asks for more than a machine has.
-/

namespace GrantPath.CommandLine

/-- What the program leaves behind. -/
structure Outcome where
  code : UInt32
  stdout : String := ""
  stderr : String := ""
deriving DecidableEq, Repr

/-- What was being done when something was not usable. -/
def failed (what : String) : Outcome :=
  { code := 1, stderr := "Error: " ++ what ++ "\n" }

/-- Nothing was answered, because answering overran. -/
def overran : Outcome :=
  { code := 101, stderr := "The configuration asks for more than this machine has.\n" }

/-- An answer on a line of its own. -/
def verdictLine (granted : Bool) : String :=
  (if granted then Effect.grant else Effect.deny).text ++ "\n"

/-- An answer together with the question. -/
def verdictObject (a : CheckArguments) (granted : Bool) : String :=
  Json.object [("principal", Json.text a.principal), ("owner", Json.text a.owner),
    ("activity", Json.text a.activity), ("target", Json.text? a.target),
    ("granted", Json.bool granted)] ++ "\n"

/-- How much a directory holds, in lines. -/
def summaryLines (s : Directory.Summary) : String :=
  "owners:      " ++ toString s.owners ++ "\n" ++
  "activities:  " ++ toString s.activities ++ "\n" ++
  "targets:     " ++ toString s.targets ++ "\n" ++
  "memberships: " ++ toString s.memberships ++ "\n" ++
  "permissions: " ++ toString s.permissions ++ "\n"

/-- Answers a query by name from a directory. -/
def runCheck (config : Config) (directory : Directory) (clock : Clock) (a : CheckArguments) :
    Outcome :=
  match Principal.parse a.principal with
  | .error _ => failed ("parsing principal " ++ a.principal)
  | .ok principal =>
    let (granted, r) := config.toPolicy.checkByName Directory.service principal a.owner a.activity
      a.target (config.start directory clock)
    if r.overrun.isSome then overran
    else { code := 0, stdout := if a.json then verdictObject a granted else verdictLine granted }

/-- The configuration to use. -/
def configOf (files : String → Option ByteArray) : Option String → Except LoadError Config
  | none => .ok {}
  | some path => Config.load (files path)

/-- Does what an invocation asks for. -/
def perform (files : String → Option ByteArray) (clock : Clock) (i : Invocation) : Outcome :=
  match configOf files i.config with
  | .error _ => failed ("loading config " ++ i.config.getD "")
  | .ok config =>
    match Directory.load (files i.directory) with
    | .error _ => failed ("loading directory " ++ i.directory)
    | .ok directory =>
      match i.command with
      | .check a => runCheck config directory clock a
      | .validate => { code := 0, stdout := summaryLines directory.summary }

/-- How the program is to be called. -/
def usage : String :=
  "Answer permission queries against a group hierarchy\n\n" ++
  "Usage: [OPTIONS] --directory <DIRECTORY> <COMMAND>\n\n" ++
  "Commands:\n" ++
  "  check     Check whether a principal holds a permission\n" ++
  "  validate  Load the configuration and directory and print what the directory holds\n" ++
  "  help      Print this message or the help of the given subcommand(s)\n"

/-- Turns arguments into an outcome. -/
def run (files : String → Option ByteArray) (clock : Clock) (arguments : List String) : Outcome :=
  match readArguments arguments with
  | .run invocation => perform files clock invocation
  | .help => { code := 0, stdout := usage }
  | .version => { code := 0, stdout := "grantwalk 0.1.0\n" }
  | .rejected => { code := 2, stderr := usage }

/-- The files that arguments name. -/
def filesNamed (arguments : List String) : List String :=
  match readArguments arguments with
  | .run invocation => invocation.config.toList ++ [invocation.directory]
  | _ => []

end GrantPath.CommandLine
