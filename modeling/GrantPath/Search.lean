import GrantPath.Run

/-! # The search for an unblocked path to a grant

A principal is granted what its own records grant, or what one of its groups is granted, as
long as no record of its own stands in the way. A `Search` visits a principal as follows.

* The records about the principal are looked up. If one that is in force denies, the answer
  is no; otherwise, if one that is in force grants, the answer is yes.
* Without a record in force the principal's groups are asked for, unless the search has come
  to this member before: then the answer is no. Each group is evaluated in turn, through the
  cache, until one answers yes. A group that cannot be evaluated is passed over.

The search follows chains of groups up to a bounded length. A visit that would have to go
further fails (`Error.traversalDepthExceeded`). `Search.visit` is told how to evaluate a
group, or that there is no step left, and `Search.resolve` ties the knot by recursion on the
steps left.
-/

namespace GrantPath

variable {σ : Type}

/-- Evaluates a principal. -/
abbrev Evaluation (σ : Type) := Principal → Run σ → Except Error Bool × Run σ

/-- What stays the same during a search: whom to ask, for what, and how many memberships a
chain may follow. -/
structure Search (σ : Type) where
  service : Service σ
  scope : Scope
  limit : Nat

/-- Begins a search with a set of members that count as expanded. -/
def Run.beginSearch (r : Run σ) (key : DecisionKey) (seen : SeenGroups) : Run σ :=
  { r with seen, journal := .search key r.clock :: r.journal }

/-- Marks the principal's member as expanded and returns it, or nothing if it was expanded
before. -/
def Run.enter (svc : Service σ) (principal : Principal) (r : Run σ) :
    Except Error (Option GroupMember) × Run σ :=
  match r.ask svc (.groupMember principal) with
  | (.error e, r) => (.error e, r)
  | (.ok member, r) =>
    if member ∈ r.seen then (.ok none, r) else (.ok (some member), r.see member)

namespace Search

/-- Looks up the records about a principal. -/
def lookUp (s : Search σ) (principal : Principal) (r : Run σ) :
    Except Error (List Permission) × Run σ :=
  (r.count .nodeEvaluated).ask s.service
    (.permissions principal s.scope.owner s.scope.activity s.scope.target)

/-- Evaluates a group by way of the principal that it is. -/
def evaluateGroup (s : Search σ) (evaluate : Evaluation σ) (group : GroupMember) (r : Run σ) :
    Except Error Bool × Run σ :=
  match r.ask s.service (.newPrincipal group) with
  | (.error e, r) => (.error e, r)
  | (.ok principal, r) => evaluate principal r

/-- Whether one of the groups answers yes; a group that fails is passed over. -/
def anyGroup (s : Search σ) (evaluate : Evaluation σ) : List GroupMember → Run σ → Bool × Run σ
  | [], r => (false, r)
  | group :: groups, r =>
    match s.evaluateGroup evaluate group r with
    | (.ok true, r) => (true, r)
    | (.ok false, r) => s.anyGroup evaluate groups r
    | (.error _, r) => s.anyGroup evaluate groups (r.count .branchFailure)

/-- Evaluates the groups of a principal. -/
def climb (s : Search σ) (evaluate : Evaluation σ) (principal : Principal) (r : Run σ) :
    Except Error Bool × Run σ :=
  match r.enter s.service principal with
  | (.error e, r) => (.error e, r)
  | (.ok none, r) => (.ok false, r.count .cycleGuardHit)
  | (.ok (some member), r) =>
    match r.ask s.service (.parentGroups member) with
    | (.error e, r) => (.error e, r)
    | (.ok groups, r) =>
      let (granted, r) := s.anyGroup evaluate groups r
      (.ok granted, r)

/-- Visits a principal. `groups?` evaluates a group; without it there is no step left. -/
def visit (s : Search σ) (groups? : Option (Evaluation σ)) : Evaluation σ := fun principal r =>
  match s.lookUp principal r with
  | (.error e, r) => (.error e, r)
  | (.ok records, r) =>
    match Permission.verdict records r.clock.wall with
    | some granted => (.ok granted, r)
    | none =>
      match groups? with
      | none => (.error (.traversalDepthExceeded principal s.limit), r)
      | some evaluate => s.climb evaluate principal r

/-- The decision about a principal through the cache. -/
def cached (s : Search σ) (evaluate : Evaluation σ) : Evaluation σ := fun principal r =>
  r.getOrCompute (s.scope.key principal) (evaluate principal)

/-- Evaluates a principal with so many steps left, its groups through the cache. -/
def resolve (s : Search σ) : Nat → Evaluation σ
  | 0 => s.visit none
  | steps + 1 => s.visit (some (s.cached (s.resolve steps)))

/-- Searches from a principal, which is itself evaluated anew. -/
def runAnew (s : Search σ) (seen : SeenGroups) : Evaluation σ := fun principal r =>
  s.resolve s.limit principal (r.beginSearch (s.scope.key principal) seen)

/-- Searches from a principal, through the cache. -/
def run (s : Search σ) (seen : SeenGroups) : Evaluation σ := fun principal r =>
  s.cached (s.resolve s.limit) principal (r.beginSearch (s.scope.key principal) seen)

end Search

end GrantPath
