import GrantPath.Proofs.Keys
import GrantPath.Service
import Mathlib.Logic.Relation

/-! # Unblocked paths

What a search is to find is said here without a search, in terms of the answers that a
collaborator gives as long as nothing changes (`Answers`).

* `Answers.Parent p q`: `q` is a group that immediately contains `p`, and all lookups on the
  way from `p` to `q` succeed.
* `Answers.Silent` and `Answers.Granted`: the records about a principal can be looked up, and
  none is in force, or one in force grants and none in force denies.
* `Answers.Path`: a chain of parents leads from a principal to a granted one, past principals
  that are silent.

`Answers.path_iff` and its variants say how paths go on, case by case of what the records of
the first principal decide by themselves (`Answers.verdict`). -/

namespace GrantPath

namespace Answers

variable (a : Answers) (s : Scope) (now : Instant)

/-- `q` is a group that immediately contains `p`; all lookups on the way succeed. -/
def Parent (p q : Principal) : Prop :=
  ∃ m groups g, a (.groupMember p) = .ok m ∧ a (.parentGroups m) = .ok groups ∧
    g ∈ groups ∧ a (.newPrincipal g) = .ok q

/-- The records about the principal can be looked up and none is in force. -/
def Silent (p : Principal) : Prop :=
  ∃ records, a (.permissions p s.owner s.activity s.target) = .ok records ∧
    ∀ record ∈ records, record.isActiveAt now = false

/-- The records about the principal can be looked up, one in force grants and none in force
denies. -/
def Granted (p : Principal) : Prop :=
  ∃ records, a (.permissions p s.owner s.activity s.target) = .ok records ∧
    (∃ record ∈ records, record.isActiveAt now = true ∧ record.effect = .grant) ∧
    ¬∃ record ∈ records, record.isActiveAt now = true ∧ record.effect = .deny

/-- A path goes on from `p` to `q`. -/
def Climb (p q : Principal) : Prop :=
  a.Silent s now p ∧ a.Parent p q

/-- An unblocked path leads from the principal to a grant. -/
def Path (p : Principal) : Prop :=
  ∃ q, Relation.ReflTransGen (a.Climb s now) p q ∧ a.Granted s now q

/-- The same records are in force at both instants. -/
def InForceAlike (t t' : Instant) : Prop :=
  ∀ p owner activity target records, a (.permissions p owner activity target) = .ok records →
    ∀ record ∈ records, record.isActiveAt t = record.isActiveAt t'

/-- A lookup without a target is one with the empty target key. -/
def Keyed : Prop :=
  ∀ p owner activity target,
    a (.permissions p owner activity target) =
      a (.permissions p owner activity (some (target.getD "")))

/-- What the records about the principal decide by themselves, if they can be looked up. -/
def verdict (p : Principal) : Except Error (Option Bool) :=
  (a (.permissions p s.owner s.activity s.target)).map (Permission.verdict · now)

variable {a s now} {p q : Principal}

theorem verdict_of_ok {records : List Permission}
    (h : a (.permissions p s.owner s.activity s.target) = .ok records) :
    a.verdict s now p = .ok (Permission.verdict records now) := by
  rw [verdict, h]
  rfl

theorem verdict_of_error {e : Error}
    (h : a (.permissions p s.owner s.activity s.target) = .error e) :
    a.verdict s now p = .error e := by
  rw [verdict, h]
  rfl

theorem granted_iff : a.Granted s now p ↔ a.verdict s now p = .ok (some true) := by
  unfold Granted
  cases h : a (.permissions p s.owner s.activity s.target) with
  | error e => simp [verdict_of_error h]
  | ok records => simp [verdict_of_ok h, Permission.verdict_eq_some_true_iff]

theorem silent_iff : a.Silent s now p ↔ a.verdict s now p = .ok none := by
  unfold Silent
  cases h : a (.permissions p s.owner s.activity s.target) with
  | error e => simp [verdict_of_error h]
  | ok records => simp [verdict_of_ok h, Permission.verdict_eq_none_iff]

/-- The principals that a principal has as its parents, in the order they are asked for. -/
def parents (a : Answers) (p : Principal) : List Principal :=
  match a (.groupMember p) with
  | .error _ => []
  | .ok m =>
    match a (.parentGroups m) with
    | .error _ => []
    | .ok groups => groups.filterMap fun g => (a (.newPrincipal g)).toOption

theorem toOption_eq_some_iff {α : Type} {x : Except Error α} {y : α} :
    x.toOption = some y ↔ x = .ok y := by
  cases x <;> simp [Except.toOption]

theorem mem_parents : q ∈ a.parents p ↔ a.Parent p q := by
  unfold parents Parent
  cases hm : a (.groupMember p) with
  | error e => simp
  | ok m =>
      cases hg : a (.parentGroups m) with
      | error e => simp [hg]
      | ok groups => simp [hg, toOption_eq_some_iff]

instance : Decidable (a.Parent p q) := decidable_of_iff _ mem_parents

/-! ### How paths go on -/

theorem Granted.path (h : a.Granted s now p) : a.Path s now p := ⟨p, .refl, h⟩

theorem Path.climb (hs : a.Silent s now p) (hp : a.Parent p q) (h : a.Path s now q) :
    a.Path s now p := by
  obtain ⟨x, hx, hg⟩ := h
  exact ⟨x, .head ⟨hs, hp⟩ hx, hg⟩

/-- A path ends where it begins or goes on to a parent. -/
theorem path_iff :
    a.Path s now p ↔
      a.Granted s now p ∨ a.Silent s now p ∧ ∃ q, a.Parent p q ∧ a.Path s now q := by
  constructor
  · rintro ⟨x, hx, hg⟩
    rcases hx.cases_head with rfl | ⟨q, ⟨hs, hp⟩, hq⟩
    · exact .inl hg
    · exact .inr ⟨hs, q, hp, x, hq, hg⟩
  · rintro (hg | ⟨hs, q, hp, h⟩)
    · exact hg.path
    · exact .climb hs hp h

/-- Without records there is no path. -/
theorem not_path_of_error {e : Error} (h : a.verdict s now p = .error e) :
    ¬ a.Path s now p := by
  rw [path_iff, granted_iff, silent_iff, h]
  simp

/-- A verdict decides about paths. -/
theorem path_iff_of_some {granted : Bool} (h : a.verdict s now p = .ok (some granted)) :
    a.Path s now p ↔ granted = true := by
  rw [path_iff, granted_iff, silent_iff, h]
  simp

/-- Where nothing is in force, a path needs a parent. -/
theorem path_iff_of_none (h : a.verdict s now p = .ok none) :
    a.Path s now p ↔ ∃ q, a.Parent p q ∧ a.Path s now q := by
  rw [path_iff, granted_iff, silent_iff, h]
  simp

/-! ### What paths depend on -/

theorem InForceAlike.refl (t : Instant) : a.InForceAlike t t := by
  intro p owner activity target records hr record hrec
  rfl

theorem InForceAlike.verdict_eq {t t' : Instant} {owner activity : String}
    {target : Option String} {records : List Permission} (h : a.InForceAlike t t')
    (hr : a (.permissions p owner activity target) = .ok records) :
    Permission.verdict records t = Permission.verdict records t' := by
  have hact : Permission.active records t = Permission.active records t' := by
    apply List.filter_congr
    intro record hrec
    exact h p owner activity target records hr record hrec
  simp only [Permission.verdict, hact]

/-- Scopes with the same key have the same records. -/
theorem Keyed.permissions_eq {s' : Scope} (hk : a.Keyed) (h : s.Alike s') (p : Principal) :
    a (.permissions p s.owner s.activity s.target) =
      a (.permissions p s'.owner s'.activity s'.target) := by
  rw [hk p s.owner, hk p s'.owner, h.1, h.2.1, h.2.2]

/-- Scopes with the same key have the same verdicts. -/
theorem Keyed.verdict_eq {s' : Scope} (hk : a.Keyed) (h : s.Alike s') :
    a.verdict s now p = a.verdict s' now p := by
  rw [verdict, verdict, hk.permissions_eq h]

/-- Scopes with the same key have the same paths. -/
theorem Keyed.path_iff {s' : Scope} (hk : a.Keyed) (h : s.Alike s') :
    a.Path s now p ↔ a.Path s' now p := by
  have hclimb : a.Climb s now = a.Climb s' now := by
    funext p q
    simp only [Climb, Silent, hk.permissions_eq h]
  simp only [Path, hclimb, Granted, hk.permissions_eq h]

end Answers

end GrantPath
