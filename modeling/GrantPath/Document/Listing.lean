import GrantPath.Directory.Listing
import GrantPath.Document.Permission

/-! # Listings as documents

Every section of a listing may be left out; what is left out is empty.
-/

namespace GrantPath

open Document

def ListedActivity.ofDocument? : Reader ListedActivity := fun d => do
  let fields ← d.fields?
  let owner ← fields.required "owner" readText
  let activity ← Activity.ofDocument? d
  return ⟨owner, activity⟩

def ListedActivity.toDocument (a : ListedActivity) : Document :=
  .table (("owner", .text a.owner) :: a.activity.toFields)

def ListedTarget.ofDocument? : Reader ListedTarget := fun d => do
  let fields ← d.fields?
  let provider ← fields.required "provider" readText
  let target ← Target.ofDocument? d
  return ⟨provider, target⟩

def ListedTarget.toDocument (t : ListedTarget) : Document :=
  .table (("provider", .text t.provider) :: t.target.toFields)

def ListedMembership.ofDocument? : Reader ListedMembership := fun d => do
  let fields ← d.fields?
  let member ← fields.required "member" readText
  let groups ← fields.required "groups" (readList readText)
  return ⟨member, groups⟩

def ListedMembership.toDocument (m : ListedMembership) : Document :=
  .table [("member", .text m.member), ("groups", .list (m.groups.map .text))]

def Listing.ofDocument? : Reader Listing := fun d => do
  let fields ← d.fields?
  let systemDefaults ← fields.defaulted "portal_defaults" readBool false
  let owners ← fields.defaulted "owners" (readList Owner.ofDocument?) []
  let activities ← fields.defaulted "activities" (readList ListedActivity.ofDocument?) []
  let targets ← fields.defaulted "targets" (readList ListedTarget.ofDocument?) []
  let collectiveProviders ← fields.defaulted "collective_providers" (readList readText) []
  let memberships ← fields.defaulted "memberships" (readList ListedMembership.ofDocument?) []
  let permissions ← fields.defaulted "permissions" (readList Permission.ofDocument?) []
  return { systemDefaults, owners, activities, targets, collectiveProviders, memberships,
           permissions }

def Listing.toDocument (l : Listing) : Document :=
  .table [("portal_defaults", .bool l.systemDefaults),
    ("owners", .list (l.owners.map Owner.toDocument)),
    ("activities", .list (l.activities.map ListedActivity.toDocument)),
    ("targets", .list (l.targets.map ListedTarget.toDocument)),
    ("collective_providers", .list (l.collectiveProviders.map .text)),
    ("memberships", .list (l.memberships.map ListedMembership.toDocument)),
    ("permissions", .list (l.permissions.map Permission.toDocument))]

end GrantPath
