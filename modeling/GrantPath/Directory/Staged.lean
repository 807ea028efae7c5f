import GrantPath.Directory.Answers
import GrantPath.Directory.Change

/-! # Staged directories

A directory as a collaborator, with a stage around it for rehearsing what a real collaborator
may do: single requests can be made to fail, the groups of a member can be replaced by any
list of members, and looking up the permissions of a principal can be made to take time.
-/

namespace GrantPath

/-- The name under which a kind of request is known. -/
def Request.method : Request → String
  | .permissions .. => "permissions"
  | .groupMember _ => "group_member"
  | .parentGroups _ => "parent_groups"
  | .newPrincipal _ => "new_principal"
  | .resolveOwner _ => "resolve_owner"
  | .resolveActivity .. => "resolve_activity"
  | .resolveTarget .. => "resolve_target"

/-- The text that tells a request from others of its kind. -/
def Request.subject : Request → String
  | .permissions principal .. => principal.text
  | .groupMember principal => principal.text
  | .parentGroups member => (Principal.ofMember member).text
  | .newPrincipal member => (Principal.ofMember member).text
  | .resolveOwner fname => fname
  | .resolveActivity owner fname => owner ++ "/" ++ fname
  | .resolveTarget provider key => provider ++ "/" ++ key

/-- A request, named by its kind and what it is about. -/
structure Fault where
  method : String
  subject : String
deriving DecidableEq, Repr

/-- The fault that makes a request fail. -/
def Fault.of (q : Request) : Fault :=
  ⟨q.method, q.subject⟩

/-- The error of a request that is made to fail. -/
def Fault.error (f : Fault) : Error :=
  let reason := "fault " ++ f.method ++ " " ++ f.subject
  if f.method = "permissions" then .permissionStore reason else .groupStore reason

/-- A directory, the requests that fail, the replaced groups and the delays. -/
structure StagedDirectory where
  directory : Directory
  faults : List Fault := []
  parents : Table GroupMember (List GroupMember) := .empty
  /-- Milliseconds that looking up the permissions of a principal takes. -/
  delays : Table Principal Nat := .empty

/-- A change of a directory or of the stage around it. -/
inductive StageChange where
  | directory (change : DirectoryChange)
  /-- Makes a request fail from now on. -/
  | fail (fault : Fault)
  /-- Lets a request succeed again. -/
  | mend (fault : Fault)
  /-- Replaces the groups of a member. -/
  | setParents (member : GroupMember) (groups : List GroupMember)
  /-- Lets the look-up of a principal's permissions take so many milliseconds. -/
  | delay (principal : Principal) (ms : Nat)
deriving DecidableEq, Repr

namespace StagedDirectory

instance : Inhabited StagedDirectory := ⟨{ directory := default }⟩

/-- What the directory answers, with groups replaced. -/
def answersWithParents (s : StagedDirectory) : Answers
  | .parentGroups member =>
    match s.parents.get? member with
    | some groups => .ok groups
    | none => s.directory.answers (.parentGroups member)
  | q => s.directory.answers q

/-- The answer to a request: an error if it is made to fail. -/
def answers (s : StagedDirectory) : Answers := fun q =>
  if Fault.of q ∈ s.faults then .error (Fault.of q).error else s.answersWithParents q

/-- How long the answer to a request takes. -/
def nanos (s : StagedDirectory) : Request → Nat
  | .permissions principal .. => (s.delays.get? principal).getD 0 * Clock.nanosPerMilli
  | _ => 0

/-- The staged directory as a collaborator. -/
def service : Service StagedDirectory where
  reply q s := { answer := s.answers q, state := s, nanos := s.nanos q }

/-- Makes a change. -/
def change (s : StagedDirectory) : StageChange → StagedDirectory
  | .directory c => { s with directory := s.directory.change c }
  | .fail f => { s with faults := f :: s.faults }
  | .mend f => { s with faults := s.faults.filter (· ≠ f) }
  | .setParents member groups => { s with parents := s.parents.insert member groups }
  | .delay principal ms => { s with delays := s.delays.insert principal ms }

end StagedDirectory

end GrantPath
