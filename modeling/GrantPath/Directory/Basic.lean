import GrantPath.Error
import GrantPath.Permission
import GrantPath.Table

/-! # Directories

A directory holds everything that a permission query asks about: who is a member of which
group, which permissions are recorded, and which owners, activities and targets are defined.
Definitions are kept by name, so the last one wins; the groups of a member are kept in order
and without repetition; records are kept in the order they were added.

A principal can be marked as failing. Asking for its permissions or its groups is then an
error, as it is with a store that cannot be reached.
-/

namespace GrantPath

/-- Adds a key to a list of keys in ascending order, unless it is there already. -/
def insertKey (k : String) : List String → List String
  | [] => [k]
  | x :: xs => if k < x then k :: x :: xs else if k = x then x :: xs else x :: insertKey k xs

@[simp] theorem mem_insertKey {k x : String} {xs : List String} :
    x ∈ insertKey k xs ↔ x = k ∨ x ∈ xs := by
  induction xs with
  | nil => simp [insertKey]
  | cons y ys ih =>
    unfold insertKey
    split
    · simp
    · split
      · rename_i h
        simp [h]
      · simp only [List.mem_cons, ih]
        constructor
        · rintro (h | h | h) <;> simp [h]
        · rintro (h | h | h) <;> simp [h]

/-- Memberships, permissions and definitions. -/
structure Directory where
  /-- The keys of the groups that immediately contain a member. -/
  parents : Table GroupMember (List String) := .empty
  permissions : List Permission := []
  owners : Table String Owner := .empty
  /-- Activities under the names of their owner and their own. -/
  activities : Table (String × String) Activity := .empty
  /-- The targets of each provider, by key. -/
  targets : Table String (Table String Target) := .empty
  /-- The principals that cannot be looked up. -/
  failing : List Principal := []

/-- How much a directory holds. -/
structure Directory.Summary where
  owners : Nat
  activities : Nat
  targets : Nat
  memberships : Nat
  permissions : Nat
deriving DecidableEq, Repr

namespace Directory

instance : Inhabited Directory := ⟨{}⟩

/-! ### Changing a directory -/

def addOwner (d : Directory) (owner : Owner) : Directory :=
  { d with owners := d.owners.insert owner.fname owner }

def addActivity (d : Directory) (owner : String) (activity : Activity) : Directory :=
  { d with activities := d.activities.insert (owner, activity.fname) activity }

/-- Registers a target with a provider, under the target's own key. -/
def addTarget (d : Directory) (provider : String) (target : Target) : Directory :=
  let known := (d.targets.get? provider).getD .empty
  { d with targets := d.targets.insert provider (known.insert target.key target) }

/-- The targets that stand for all portlets, all categories and all groups. -/
def collectiveTargets : List Target :=
  [⟨allPortlets, "All Portlets", .portlet⟩, ⟨allCategories, "All Categories", .category⟩,
    ⟨allGroups, "All Groups", .group⟩]

/-- Registers the collective targets with a provider. -/
def registerCollectiveTargets (d : Directory) (provider : String) : Directory :=
  collectiveTargets.foldl (·.addTarget provider ·) d

/-- Makes a principal an immediate member of a group. -/
def addMembership (d : Directory) (member : Principal) (group : String) : Directory :=
  let node := GroupMember.ofPrincipal member
  let known := (d.parents.get? node).getD []
  { d with parents := d.parents.insert node (insertKey group known) }

def addPermission (d : Directory) (record : Permission) : Directory :=
  { d with permissions := d.permissions ++ [record] }

def clearPermissions (d : Directory) : Directory :=
  { d with permissions := [] }

/-- From now on the principal cannot be looked up. -/
def failPrincipal (d : Directory) (principal : Principal) : Directory :=
  { d with failing := principal :: d.failing }

/-- From now on the group cannot be looked up. -/
def failGroup (d : Directory) (group : String) : Directory :=
  d.failPrincipal ⟨.group, group⟩

/-- The system owner, the activity that implies all others, and the target that stands for
everything. -/
def withSystemDefaults : Directory :=
  ((({} : Directory).addOwner ⟨systemOwner, "Portal System"⟩).addActivity systemOwner
    ⟨allPermissions, "All Permissions", allTargetsProvider⟩).addTarget allTargetsProvider
    ⟨allTarget, "All", .other⟩

/-! ### Asking a directory -/

/-- What is said about a principal that cannot be looked up. -/
def failure (principal : Principal) : Error :=
  .groupStore ("lookup failed for " ++ principal.text)

/-- The records about exactly this principal, owner, activity and target. -/
def permissionsFor (d : Directory) (principal : Principal) (owner activity : String)
    (target : Option String) : Except Error (List Permission) :=
  if principal ∈ d.failing then .error (.permissionStore (failure principal).message)
  else .ok <| d.permissions.filter fun p =>
    p.principal == principal.text && p.owner == owner && p.activity == activity &&
      p.target == target.getD ""

/-- The groups that immediately contain a member, in order. -/
def parentGroups (d : Directory) (member : GroupMember) : Except Error (List GroupMember) :=
  if Principal.ofMember member ∈ d.failing then .error (failure (.ofMember member))
  else .ok (((d.parents.get? member).getD []).map (⟨.group, ·⟩))

/-- The node of a principal. -/
def groupMember (_ : Directory) (principal : Principal) : Except Error GroupMember :=
  .ok (.ofPrincipal principal)

/-- The principal that a group is. -/
def newPrincipal (_ : Directory) (member : GroupMember) : Except Error Principal :=
  if member.isGroup then .ok (.ofMember member)
  else .error (.invalidArgument (.notAGroup member))

def resolveOwner (d : Directory) (fname : String) : Except Error (Option Owner) :=
  .ok (d.owners.get? fname)

def resolveActivity (d : Directory) (owner fname : String) : Except Error (Option Activity) :=
  .ok (d.activities.get? (owner, fname))

/-- The target that a provider knows under a key; the provider itself has to be known. -/
def resolveTarget (d : Directory) (provider key : String) : Except Error (Option Target) :=
  match d.targets.get? provider with
  | none => .error (.unknownTargetProvider provider)
  | some known => .ok (known.get? key)

/-- Counts definitions, memberships and records. -/
def summary (d : Directory) : Summary where
  owners := d.owners.size
  activities := d.activities.size
  targets := d.targets.values.foldl (fun n known => n + known.size) 0
  memberships := d.parents.values.foldl (fun n groups => n + groups.length) 0
  permissions := d.permissions.length

end Directory

end GrantPath
