import GrantPath.Principal
import GrantPath.Time.Instant

/-! # Permissions

An activity of an owner is granted or denied to a principal on a target. A record is in
force from its `effective` instant, if it has one, until just before its `expires` instant.
`Permission.verdict` says what the records of one principal decide by themselves: a record
that denies and is in force decides against, one that grants decides for, and without either
nothing is decided.
-/

namespace GrantPath

/-- A namespace under which permissions are defined. -/
structure Owner where
  fname : String
  name : String
deriving DecidableEq, Repr, Inhabited

/-- An action that is authorized; the target provider knows its targets. -/
structure Activity where
  fname : String
  name : String
  targetProvider : String
deriving DecidableEq, Repr, Inhabited

/-- The kinds of target that can be told apart. -/
inductive TargetType where
  | portlet
  | category
  | group
  | other
deriving DecidableEq, Repr, Inhabited

/-- The object an activity acts upon. -/
structure Target where
  key : String
  name : String
  type : TargetType
deriving DecidableEq, Repr, Inhabited

/-- Whether a record grants or denies. -/
inductive Effect where
  | grant
  | deny
deriving DecidableEq, Repr, Inhabited

/-- One assignment of a permission to the principal with this written form. -/
structure Permission where
  principal : String
  owner : String
  activity : String
  target : String
  effect : Effect
  effective : Option Instant := none
  expires : Option Instant := none
deriving DecidableEq, Repr, Inhabited

/-! ### Names with a meaning of their own -/

/-- The owner of the permissions that concern the whole system. -/
def systemOwner : String := "UP_SYSTEM"

/-- The activity that implies every other one when it is granted on `allTarget`. -/
def allPermissions : String := "ALL_PERMISSIONS"

/-- The target that stands for everything. -/
def allTarget : String := "ALL"

/-- The target that stands for all portlets. -/
def allPortlets : String := "ALL_PORTLETS"

/-- The target that stands for all categories. -/
def allCategories : String := "ALL_CATEGORIES"

/-- The target that stands for all groups. -/
def allGroups : String := "ALL_GROUPS"

/-- The target provider that knows `allTarget`. -/
def allTargetsProvider : String := "allTargetsProvider"

namespace TargetType

/-- The word for a type of target. -/
def text : TargetType → String
  | portlet => "PORTLET"
  | category => "CATEGORY"
  | group => "GROUP"
  | other => "OTHER"

/-- The type of target that a word stands for. -/
def ofText? (s : String) : Option TargetType :=
  [portlet, category, group, other].find? fun t => decide (t.text = s)

/-- The key of the target that stands for all targets of a type. -/
def collectiveKey? : TargetType → Option String
  | portlet => some allPortlets
  | category => some allCategories
  | group => some allGroups
  | other => none

end TargetType

/-- Whether a target stands for many. -/
def Target.isCollective (t : Target) : Bool :=
  t.key == allPortlets || t.key == allCategories || t.key == allGroups || t.key == allTarget

namespace Effect

/-- The word for an effect. -/
def text : Effect → String
  | grant => "GRANT"
  | deny => "DENY"

/-- The effect that a word stands for. -/
def ofText? (s : String) : Option Effect :=
  [grant, deny].find? fun e => decide (e.text = s)

end Effect

namespace Permission

/-- Assigns a permission without a limit in time. -/
def assign (principal : Principal) (owner activity target : String) (effect : Effect) :
    Permission :=
  { principal := principal.text, owner, activity, target, effect }

/-- Whether the record is in force at an instant. -/
def isActiveAt (p : Permission) (now : Instant) : Bool :=
  p.effective.all (·.le now) && p.expires.all (now.lt ·)

/-- The records in force at an instant. -/
def active (records : List Permission) (now : Instant) : List Permission :=
  records.filter (·.isActiveAt now)

/-- Whether some record has an effect. -/
def hasEffect (records : List Permission) (effect : Effect) : Bool :=
  records.any (·.effect == effect)

/-- What the records decide by themselves: a denial outweighs a grant. -/
def verdict (records : List Permission) (now : Instant) : Option Bool :=
  let inForce := active records now
  if hasEffect inForce .deny then some false
  else if hasEffect inForce .grant then some true
  else none

theorem hasEffect_active_iff {records : List Permission} {now : Instant} {effect : Effect} :
    hasEffect (active records now) effect = true ↔
      ∃ p ∈ records, p.isActiveAt now = true ∧ p.effect = effect := by
  simp [hasEffect, active]

theorem verdict_eq_some_true_iff {records : List Permission} {now : Instant} :
    verdict records now = some true ↔
      (∃ p ∈ records, p.isActiveAt now = true ∧ p.effect = .grant) ∧
        ¬∃ p ∈ records, p.isActiveAt now = true ∧ p.effect = .deny := by
  rw [← hasEffect_active_iff, ← hasEffect_active_iff]
  cases hd : hasEffect (active records now) .deny <;>
    cases hg : hasEffect (active records now) .grant <;> simp [verdict, hd, hg]

theorem verdict_eq_some_false_iff {records : List Permission} {now : Instant} :
    verdict records now = some false ↔
      ∃ p ∈ records, p.isActiveAt now = true ∧ p.effect = .deny := by
  rw [← hasEffect_active_iff]
  cases hd : hasEffect (active records now) .deny <;>
    cases hg : hasEffect (active records now) .grant <;> simp [verdict, hd, hg]

theorem verdict_eq_none_iff {records : List Permission} {now : Instant} :
    verdict records now = none ↔ ∀ p ∈ records, p.isActiveAt now = false := by
  constructor
  · intro h p hp
    cases ha : p.isActiveAt now with
    | false => rfl
    | true =>
      cases he : p.effect with
      | grant =>
        have hg := hasEffect_active_iff.2 ⟨p, hp, ha, he⟩
        cases hd : hasEffect (active records now) .deny <;> simp [verdict, hd, hg] at h
      | deny =>
        have hd := hasEffect_active_iff.2 ⟨p, hp, ha, he⟩
        simp [verdict, hd] at h
  · intro h
    have empty : active records now = [] :=
      List.filter_eq_nil_iff.2 fun p hp => by simp [h p hp]
    simp [verdict, hasEffect, empty]

end Permission

end GrantPath
