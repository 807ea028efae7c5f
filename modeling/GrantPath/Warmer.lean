import GrantPath.Policy

/-! # Keeping decisions warm

A registry names the queries whose decisions should always be in the cache. A pass over the
registry writes all of them anew, in the order they were registered.
-/

namespace GrantPath

variable {σ : Type}

/-- The registered queries; none occurs twice. -/
abbrev Registry := List Query

namespace Registry

/-- Adds a query, unless it is registered already. -/
def register (g : Registry) (q : Query) : Registry :=
  if q ∈ g then g else g ++ [q]

/-- Takes a query out and tells whether it was registered. -/
def unregister (g : Registry) (q : Query) : Bool × Registry :=
  let kept := g.filter (· ≠ q)
  (kept.length != g.length, kept)

end Registry

/-- What a pass over the registry did. -/
structure WarmReport where
  refreshed : Nat := 0
  granted : Nat := 0
deriving DecidableEq, Repr, Inhabited

/-- Writes the decisions of all registered queries anew. -/
def Policy.refreshAll (policy : Policy) (svc : Service σ) : Registry → Run σ → WarmReport × Run σ
  | [], r => ({}, r)
  | q :: qs, r =>
    let (granted, r) := policy.loadInCache svc q r
    let (report, r) := refreshAll policy svc qs r
    (⟨report.refreshed + 1, report.granted + granted.toNat⟩, r)

end GrantPath
