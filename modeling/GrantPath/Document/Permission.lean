import GrantPath.Document.Value
import GrantPath.Permission
import GrantPath.Time.Rfc3339

/-! # Principals, definitions and records as documents -/

namespace GrantPath

open Document

def PrincipalKind.ofDocument? : Reader PrincipalKind :=
  readWord ofText?

def PrincipalKind.toDocument (k : PrincipalKind) : Document :=
  .text k.text

def Principal.ofDocument? : Reader Principal := fun d => do
  let fields ← d.fields?
  let kind ← fields.required "kind" PrincipalKind.ofDocument?
  let key ← fields.required "key" readText
  return ⟨kind, key⟩

def Principal.toDocument (p : Principal) : Document :=
  .table [("kind", p.kind.toDocument), ("key", .text p.key)]

def GroupMember.ofDocument? : Reader GroupMember := fun d =>
  (Principal.ofDocument? d).map .ofPrincipal

def GroupMember.toDocument (m : GroupMember) : Document :=
  (Principal.ofMember m).toDocument

def Owner.ofDocument? : Reader Owner := fun d => do
  let fields ← d.fields?
  let fname ← fields.required "fname" readText
  let name ← fields.required "name" readText
  return ⟨fname, name⟩

def Owner.toDocument (o : Owner) : Document :=
  .table [("fname", .text o.fname), ("name", .text o.name)]

def Activity.ofDocument? : Reader Activity := fun d => do
  let fields ← d.fields?
  let fname ← fields.required "fname" readText
  let name ← fields.required "name" readText
  let targetProvider ← fields.required "target_provider_key" readText
  return ⟨fname, name, targetProvider⟩

/-- The fields of an activity. -/
def Activity.toFields (a : Activity) : Fields :=
  [("fname", .text a.fname), ("name", .text a.name),
    ("target_provider_key", .text a.targetProvider)]

def Activity.toDocument (a : Activity) : Document :=
  .table a.toFields

def TargetType.ofDocument? : Reader TargetType :=
  readWord ofText?

def TargetType.toDocument (t : TargetType) : Document :=
  .text t.text

def Target.ofDocument? : Reader Target := fun d => do
  let fields ← d.fields?
  let key ← fields.required "key" readText
  let name ← fields.required "name" readText
  let type ← fields.required "target_type" TargetType.ofDocument?
  return ⟨key, name, type⟩

/-- The fields of a target. -/
def Target.toFields (t : Target) : Fields :=
  [("key", .text t.key), ("name", .text t.name), ("target_type", t.type.toDocument)]

def Target.toDocument (t : Target) : Document :=
  .table t.toFields

def Effect.ofDocument? : Reader Effect :=
  readWord ofText?

def Effect.toDocument (e : Effect) : Document :=
  .text e.text

/-- An instant is written as an RFC 3339 time stamp. -/
def Instant.ofDocument? : Reader Instant :=
  readWord Rfc3339.read?

def Instant.toDocument (t : Instant) : Document :=
  .text t.text

def Permission.ofDocument? : Reader Permission := fun d => do
  let fields ← d.fields?
  let principal ← fields.required "principal" readText
  let owner ← fields.required "owner" readText
  let activity ← fields.required "activity" readText
  let target ← fields.required "target" readText
  let effect ← fields.required "type" Effect.ofDocument?
  let effective ← fields.optional "effective" Instant.ofDocument?
  let expires ← fields.optional "expires" Instant.ofDocument?
  return { principal, owner, activity, target, effect, effective, expires }

def Permission.toDocument (p : Permission) : Document :=
  .table [("principal", .text p.principal), ("owner", .text p.owner),
    ("activity", .text p.activity), ("target", .text p.target), ("type", p.effect.toDocument),
    ("effective", (p.effective.map Instant.toDocument).getD .null),
    ("expires", (p.expires.map Instant.toDocument).getD .null)]

end GrantPath
