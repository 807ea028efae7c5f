import GrantPath.Permission

/-! # Decision keys

A decision is remembered under the written form of the principal, the names of owner and
activity, and the key of the target. A query without a target has the empty key.
-/

namespace GrantPath

/-- What a decision is about, apart from the principal. -/
structure Scope where
  owner : String
  activity : String
  target : Option String
deriving DecidableEq, Repr, Inhabited

/-- What a decision is remembered under. -/
structure DecisionKey where
  principal : String
  owner : String
  activity : String
  target : String
deriving DecidableEq, Repr, Inhabited

/-- The scope of an owner, an activity and a target: their names and keys. -/
def Scope.of (owner : Owner) (activity : Activity) (target : Option Target) : Scope :=
  ⟨owner.fname, activity.fname, target.map (·.key)⟩

/-- The key of the decision about a principal. -/
def Scope.key (s : Scope) (principal : Principal) : DecisionKey :=
  ⟨principal.text, s.owner, s.activity, s.target.getD ""⟩

namespace DecisionKey

/-- The written form of a key. -/
def text (k : DecisionKey) : String :=
  "[principal=" ++ k.principal ++ ", owner=" ++ k.owner ++ ", activity=" ++ k.activity ++
    ", target=" ++ k.target ++ "]"

/-- The order of keys: by principal, then owner, then activity, then target. -/
def before (a b : DecisionKey) : Bool :=
  decide (a.principal < b.principal) || (a.principal == b.principal &&
    (decide (a.owner < b.owner) || (a.owner == b.owner &&
      (decide (a.activity < b.activity) || (a.activity == b.activity &&
        decide (a.target < b.target))))))

/-- Keys in ascending order; equal keys all stay. -/
def sorted (ks : List DecisionKey) : List DecisionKey :=
  ks.mergeSort fun a b => !b.before a

end DecisionKey

end GrantPath
