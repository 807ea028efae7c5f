import GrantPath.Error
import GrantPath.Permission
import GrantPath.Time.Clock

/-! # Collaborators

The library owns neither permission records nor groups nor definitions. It asks for them, one
`Request` at a time, and an `Error` is as good an answer as any. A `Service` answers requests
in a state of its own, which may change with every answer, and an answer may take time.

`Service.fixed` is the service whose answers never change and take no time.
-/

namespace GrantPath

/-- What a collaborator can be asked for. -/
inductive Request where
  /-- The records about exactly this principal, owner, activity and target. -/
  | permissions (principal : Principal) (owner activity : String) (target : Option String)
  /-- The node of a principal in the membership graph. -/
  | groupMember (principal : Principal)
  /-- The groups that immediately contain a member. -/
  | parentGroups (member : GroupMember)
  /-- The principal that a group is. -/
  | newPrincipal (member : GroupMember)
  | resolveOwner (fname : String)
  | resolveActivity (owner fname : String)
  | resolveTarget (provider key : String)
deriving DecidableEq, Repr

/-- What a request is answered with, unless it fails. -/
abbrev Request.Answer : Request → Type
  | .permissions .. => List Permission
  | .groupMember _ => GroupMember
  | .parentGroups _ => List GroupMember
  | .newPrincipal _ => Principal
  | .resolveOwner _ => Option Owner
  | .resolveActivity .. => Option Activity
  | .resolveTarget .. => Option Target

/-- An answer, the state of the service after it, and the nanoseconds it took. -/
structure Reply (σ α : Type) where
  answer : Except Error α
  state : σ
  nanos : Nat := 0

/-- A collaborator that answers requests in a state `σ`. -/
structure Service (σ : Type) where
  reply : (q : Request) → σ → Reply σ q.Answer

/-- The answers a collaborator gives as long as nothing changes. -/
abbrev Answers := (q : Request) → Except Error q.Answer

/-- The service whose answers depend on a state that no request changes. -/
def Service.ofAnswers {σ : Type} (answers : σ → Answers) : Service σ where
  reply q s := { answer := answers s q, state := s }

/-- The service that always gives the same answers. -/
def Service.fixed (answers : Answers) : Service Unit :=
  .ofAnswers fun _ => answers

end GrantPath
