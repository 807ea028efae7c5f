import GrantPath.Directory.Basic

/-! # Directories from listings

A listing names what a directory is to hold, section by section. `Directory.ofListing` builds
the directory: the sections are added in a fixed order, the records last, and the first
principal that is not written `kind.key` is an error.
-/

namespace GrantPath

/-- An activity and the name of its owner. -/
structure ListedActivity where
  owner : String
  activity : Activity
deriving DecidableEq, Repr

/-- A target and the key of its provider. -/
structure ListedTarget where
  provider : String
  target : Target
deriving DecidableEq, Repr

/-- A member, written as a principal, and the keys of its groups. -/
structure ListedMembership where
  member : String
  groups : List String
deriving DecidableEq, Repr

/-- What a directory is to hold. -/
structure Listing where
  /-- Whether to start with the system's own definitions. -/
  systemDefaults : Bool := false
  owners : List Owner := []
  activities : List ListedActivity := []
  targets : List ListedTarget := []
  /-- The providers that get the collective targets. -/
  collectiveProviders : List String := []
  memberships : List ListedMembership := []
  permissions : List Permission := []
deriving DecidableEq, Repr, Inhabited

namespace Directory

/-- Adds memberships up to the first member that is not well written. -/
def addMemberships : List ListedMembership → Directory → Except Error Directory
  | [], d => .ok d
  | m :: ms, d =>
    match Principal.parse m.member with
    | .error fault => .error (.invalidArgument fault)
    | .ok member => addMemberships ms (m.groups.foldl (·.addMembership member ·) d)

/-- Adds records up to the first one whose principal is not well written. -/
def addPermissions : List Permission → Directory → Except Error Directory
  | [], d => .ok d
  | p :: ps, d =>
    match Principal.parse p.principal with
    | .error fault => .error (.invalidArgument fault)
    | .ok _ => addPermissions ps (d.addPermission p)

/-- The definitions of a listing, without memberships and records. -/
def ofDefinitions (l : Listing) : Directory :=
  let d := if l.systemDefaults then withSystemDefaults else {}
  let d := l.owners.foldl addOwner d
  let d := l.activities.foldl (fun d a => d.addActivity a.owner a.activity) d
  let d := l.targets.foldl (fun d t => d.addTarget t.provider t.target) d
  l.collectiveProviders.foldl registerCollectiveTargets d

/-- The directory that a listing describes. -/
def ofListing (l : Listing) : Except Error Directory :=
  match addMemberships l.memberships (ofDefinitions l) with
  | .error e => .error e
  | .ok d => addPermissions l.permissions d

end Directory

end GrantPath
