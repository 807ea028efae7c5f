import GrantPath.Search

/-! # The policy

A query asks whether a principal may perform an activity on a target. It is granted if there
is an unblocked path to a grant for it, or for one of two generalizations of it, which are
tried first.

* Whoever has the activity that implies all others, on the target that stands for everything
  and under the system owner, is granted everything.
* Whoever has the activity on the target that stands for all targets of a type is granted it
  on each target of that type.

A generalization is a query of its own and is generalized in turn, up to
`generalizationDepth`; one that fails is passed over. The policy answers every query: what
cannot be answered is denied. An answer is given as if the machine had no limits. It has, so a
run that answers a query may overrun, and then a machine gives no answer.
-/

namespace GrantPath

variable {σ : Type}

/-- A principal, and the permission it asks for. -/
structure Query where
  principal : Principal
  owner : Owner
  activity : Activity
  target : Option Target
deriving DecidableEq, Repr, Inhabited

namespace Query

/-- What the query is about, apart from the principal. -/
def scope (q : Query) : Scope :=
  .of q.owner q.activity q.target

/-- The key of the decision on the query itself, without generalizations. -/
def key (q : Query) : DecisionKey :=
  q.scope.key q.principal

end Query

/-- A query of which parts may be missing. -/
structure PartialQuery where
  /-- Whether there is a service to ask. -/
  serviceSupplied : Bool := true
  principal : Option Principal := none
  owner : Option Owner := none
  activity : Option Activity := none
  target : Option Target := none
deriving DecidableEq, Repr, Inhabited

/-- The query, if nothing that it needs is missing; the target may be. -/
def PartialQuery.complete? (q : PartialQuery) : Option Query :=
  match q.serviceSupplied, q.principal, q.owner, q.activity with
  | true, some principal, some owner, some activity =>
    some ⟨principal, owner, activity, q.target⟩
  | _, _, _, _ => none

/-- Which generalizations are tried, how many memberships a chain may follow, and how many
members a search expects to expand. -/
structure Policy where
  superUserShortcut : Bool
  collectiveTargets : Bool
  maxDepth : Nat
  seenCapacity : Nat
deriving DecidableEq, Repr, Inhabited

/-- An answer in which a failure counts as no. -/
def contained (outcome : Except Error Bool × Run σ) : Bool × Run σ :=
  match outcome with
  | (.ok granted, r) => (granted, r)
  | (.error _, r) => (false, r)

/-- How deep generalizations may nest. There are three collective targets and one activity
that implies all others, so that with settled definitions a chain of generalizations either
ends within eight queries or comes back to one it has met. A chain gets further only by going
round, or if definitions change while a query is under way, and then it need not end at all:
the query it comes to here is passed over as one that fails. What queries keep is shown of
evaluations of every depth. -/
def generalizationDepth : Nat := 8

namespace Policy

/-- Answers a query, with failures as denials. -/
abbrev Judge (σ : Type) := Query → Run σ → Bool × Run σ

/-- Whether the principal has the activity that implies all others. That activity itself is
not generalized. -/
def isSuperUser (svc : Service σ) (judge : Judge σ) (q : Query) (r : Run σ) : Bool × Run σ :=
  match r.ask svc (.resolveActivity systemOwner allPermissions) with
  | (.error _, r) | (.ok none, r) => (false, r)
  | (.ok (some everything), r) =>
    if q.activity = everything then (false, r)
    else
      match r.ask svc (.resolveOwner systemOwner) with
      | (.error _, r) | (.ok none, r) => (false, r)
      | (.ok (some owner), r) =>
        match r.ask svc (.resolveTarget everything.targetProvider allTarget) with
        | (.error _, r) | (.ok none, r) => (false, r)
        | (.ok (some target), r) => judge ⟨q.principal, owner, everything, some target⟩ r

/-- The target that stands for all targets of the type of the query's target. A target that
stands for many is not generalized. -/
def collectiveTarget (svc : Service σ) (q : Query) (r : Run σ) : Option Target × Run σ :=
  match q.target with
  | none => (none, r)
  | some target =>
    if target.isCollective then (none, r)
    else
      match target.type.collectiveKey? with
      | none => (none, r)
      | some key =>
        match r.ask svc (.resolveTarget q.activity.targetProvider key) with
        | (.error _, r) => (none, r)
        | (.ok collective, r) => (collective, r)

/-- Whether the principal has the permission on all targets of the type. -/
def hasCollectively (svc : Service σ) (judge : Judge σ) (q : Query) (r : Run σ) : Bool × Run σ :=
  match collectiveTarget svc q r with
  | (none, r) => (false, r)
  | (some collective, r) => judge { q with target := some collective } r

/-- The search for the query itself. -/
def search (policy : Policy) (svc : Service σ) (q : Query) : Search σ :=
  ⟨svc, q.scope, policy.maxDepth⟩

/-- Evaluates a query; generalizations may nest so deep. -/
def evaluate (policy : Policy) (svc : Service σ) :
    Nat → Query → Run σ → Except Error Bool × Run σ
  | 0, _, r => (.error .generalizationDepthExceeded, r)
  | depth + 1, q, r =>
    let judge : Judge σ := fun q r => contained (evaluate policy svc depth q r)
    match if policy.superUserShortcut then isSuperUser svc judge q r else (false, r) with
    | (true, r) => (.ok true, r.count .superUserGrant)
    | (false, r) =>
      match if policy.collectiveTargets then hasCollectively svc judge q r else (false, r) with
      | (true, r) => (.ok true, r.count .collectiveGrant)
      | (false, r) =>
        (policy.search svc q).run .empty q.principal (r.setAside policy.seenCapacity)

/-- Answers a query and counts the decision with the time it took. -/
def hasPermission (policy : Policy) (svc : Service σ) (q : Query) (r : Run σ) : Bool × Run σ :=
  let start := r.clock.elapsed
  match evaluate policy svc generalizationDepth q r with
  | (.ok granted, r) => (granted, r.count (.decision granted (r.clock.elapsed - start)))
  | (.error _, r) =>
    (false, (r.count .topLevelFailure).count (.decision false (r.clock.elapsed - start)))

/-- Answers a query of which parts may be missing; without what it needs it is denied. -/
def check (policy : Policy) (svc : Service σ) (q : PartialQuery) (r : Run σ) : Bool × Run σ :=
  match q.complete? with
  | none => (false, r.count .invalidArgument)
  | some q => policy.hasPermission svc q r

/-- Answers one query for several targets, in order. -/
def evaluateBatch (policy : Policy) (svc : Service σ) (principal : Principal) (owner : Owner)
    (activity : Activity) : List Target → Run σ → List Bool × Run σ
  | [], r => ([], r)
  | target :: targets, r =>
    let (granted, r) := policy.hasPermission svc ⟨principal, owner, activity, some target⟩ r
    let (rest, r) := evaluateBatch policy svc principal owner activity targets r
    (granted :: rest, r)

/-! ### Queries by name -/

/-- Looks up a target by its key; one that its provider does not know is a plain target. -/
def resolveTargetName (svc : Service σ) (provider : String) :
    Option String → Run σ → Except Error (Option Target) × Run σ
  | none, r => (.ok none, r)
  | some key, r =>
    match r.ask svc (.resolveTarget provider key) with
    | (.error e, r) => (.error e, r)
    | (.ok target, r) => (.ok (some (target.getD ⟨key, key, .other⟩)), r)

/-- Looks up owner, activity and target by name. -/
def resolveNames (svc : Service σ) (owner activity : String) (target : Option String)
    (r : Run σ) : Except Error (Owner × Activity × Option Target) × Run σ :=
  match r.ask svc (.resolveOwner owner) with
  | (.error e, r) => (.error e, r)
  | (.ok none, r) => (.error (.unknownOwner owner), r)
  | (.ok (some o), r) =>
    match r.ask svc (.resolveActivity owner activity) with
    | (.error e, r) => (.error e, r)
    | (.ok none, r) => (.error (.unknownActivity owner activity), r)
    | (.ok (some a), r) =>
      match resolveTargetName svc a.targetProvider target r with
      | (.error e, r) => (.error e, r)
      | (.ok t, r) => (.ok (o, a, t), r)

/-- Answers a query made by name; names that cannot be looked up are denied. -/
def checkByName (policy : Policy) (svc : Service σ) (principal : Principal)
    (owner activity : String) (target : Option String) (r : Run σ) : Bool × Run σ :=
  match resolveNames svc owner activity target r with
  | (.error _, r) => (false, r.count .topLevelFailure)
  | (.ok (owner, activity, target), r) =>
    policy.hasPermission svc ⟨principal, owner, activity, target⟩ r

/-! ### Decisions ahead of queries -/

/-- Searches anew for a query, without generalizations, and writes the decision; a search
that fails writes nothing and counts as no. -/
def loadInCache (policy : Policy) (svc : Service σ) (q : Query) (r : Run σ) : Bool × Run σ :=
  contained <| (r.setAside policy.seenCapacity).forceRefresh q.key <|
    (policy.search svc q).runAnew .empty q.principal

end Policy

end GrantPath
