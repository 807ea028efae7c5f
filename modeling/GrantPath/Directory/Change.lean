import GrantPath.Directory.Basic

/-! # Changes of a directory

The ways in which a directory changes, one at a time (`Directory.change`) or one after the
other (`Directory.changes`).
-/

namespace GrantPath

/-- A change of a directory. -/
inductive DirectoryChange where
  | addOwner (owner : Owner)
  | addActivity (owner : String) (activity : Activity)
  | addTarget (provider : String) (target : Target)
  | registerCollectiveTargets (provider : String)
  | addMembership (member : Principal) (group : String)
  | addPermission (record : Permission)
  | clearPermissions
  | failPrincipal (principal : Principal)
  | failGroup (group : String)
deriving DecidableEq, Repr

namespace Directory

/-- Makes a change. -/
def change (d : Directory) : DirectoryChange → Directory
  | .addOwner owner => d.addOwner owner
  | .addActivity owner activity => d.addActivity owner activity
  | .addTarget provider target => d.addTarget provider target
  | .registerCollectiveTargets provider => d.registerCollectiveTargets provider
  | .addMembership member group => d.addMembership member group
  | .addPermission record => d.addPermission record
  | .clearPermissions => d.clearPermissions
  | .failPrincipal principal => d.failPrincipal principal
  | .failGroup group => d.failGroup group

/-- Makes changes one after the other. -/
def changes (d : Directory) (cs : List DirectoryChange) : Directory :=
  cs.foldl change d

end Directory

end GrantPath
