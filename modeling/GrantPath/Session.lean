import GrantPath.CacheCommand
import GrantPath.Config
import GrantPath.Warmer

/-! # Sessions

A session is a policy at work with its collaborators: a run, and a registry of queries to keep
warm. It goes on step by step. A step puts a query, moves the clocks, works on the cache or
warms it, or lets the collaborators change, and a step that fails leaves the session able to
go on.

`Session.step` carries out one step, `Session.steps` a list of them.
-/

namespace GrantPath

variable {σ : Type}

/-- A search by hand, with a bound and a set of expanded members of its own. -/
structure ManualSearch where
  principal : Principal
  scope : Scope
  limit : Nat
  /-- Whether the principal itself is looked up in the cache. -/
  cached : Bool
  seen : List GroupMember
deriving DecidableEq, Repr

/-- Carries a search by hand out. -/
def ManualSearch.perform (m : ManualSearch) (svc : Service σ) (r : Run σ) :
    Except Error Bool × Run σ :=
  let search : Search σ := ⟨svc, m.scope, m.limit⟩
  let seen := SeenGroups.ofList m.seen
  if m.cached then search.run seen m.principal r else search.runAnew seen m.principal r

/-- One step of a session whose collaborators have a state `σ`. -/
inductive Step (σ : Type) where
  | check (query : PartialQuery)
  | evaluateBatch (principal : Principal) (owner : Owner) (activity : Activity)
    (targets : List Target)
  | checkByName (principal : Principal) (owner activity : String) (target : Option String)
  | resolveNames (owner activity : String) (target : Option String)
  | loadInCache (query : Query)
  | search (search : ManualSearch)
  | cache (command : CacheCommand)
  | register (query : Query)
  | unregister (query : Query)
  | registrySize
  /-- A pass over the registry. -/
  | refresh
  | metrics
  | advance (ms : Nat)
  | setWall (ms : Nat)
  /-- The collaborators change of themselves. -/
  | alter (change : σ → σ)

/-- What a step reports. -/
inductive Report where
  | done
  | granted (granted : Bool)
  | batch (granted : List Bool)
  | names (owner : Owner) (activity : Activity) (target : Option Target)
  /-- The outcome of a search by hand and the members it left as expanded. -/
  | searched (outcome : Except Error Bool) (seen : SeenGroups)
  | cache (report : CacheReport)
  | registered (size : Nat)
  | unregistered (found : Bool)
  | registrySize (size : Nat)
  | warmed (report : WarmReport)
  | metrics (snapshot : Snapshot)

/-- A policy at work. -/
structure Session (σ : Type) where
  policy : Policy
  service : Service σ
  run : Run σ
  registry : Registry := []

namespace Session

/-- A session in which nothing has happened yet. -/
def start (config : Config) (service : Service σ) (state : σ) (clock : Clock) : Session σ where
  policy := config.toPolicy
  service
  run := config.start state clock

/-- Replaces the run and keeps what was reported about it. -/
def withRun (s : Session σ) {α : Type} (report : α → Report) (outcome : α × Run σ) :
    Except Error Report × Session σ :=
  (.ok (report outcome.1), { s with run := outcome.2 })

/-- Carries one step out. -/
def step (s : Session σ) : Step σ → Except Error Report × Session σ
  | .check query => s.withRun .granted (s.policy.check s.service query s.run)
  | .evaluateBatch principal owner activity targets =>
    s.withRun .batch (s.policy.evaluateBatch s.service principal owner activity targets s.run)
  | .checkByName principal owner activity target =>
    s.withRun .granted (s.policy.checkByName s.service principal owner activity target s.run)
  | .resolveNames owner activity target =>
    match Policy.resolveNames s.service owner activity target s.run with
    | (.ok (owner, activity, target), run) => (.ok (.names owner activity target), { s with run })
    | (.error e, run) => (.error e, { s with run })
  | .loadInCache query => s.withRun .granted (s.policy.loadInCache s.service query s.run)
  | .search m =>
    let (outcome, run) := m.perform s.service s.run
    (.ok (.searched outcome run.seen), { s with run })
  | .cache command => s.withRun .cache (command.perform s.run)
  | .register query =>
    let registry := s.registry.register query
    (.ok (.registered registry.length), { s with registry })
  | .unregister query =>
    let (found, registry) := s.registry.unregister query
    (.ok (.unregistered found), { s with registry })
  | .registrySize => (.ok (.registrySize s.registry.length), s)
  | .refresh => s.withRun .warmed (s.policy.refreshAll s.service s.registry s.run)
  | .metrics => (.ok (.metrics s.run.counters.snapshot), s)
  | .advance ms =>
    (.ok .done, { s with run := s.run.advance (ms * Clock.nanosPerMilli) })
  | .setWall ms => (.ok .done, { s with run := s.run.setWall ms })
  | .alter change => (.ok .done, { s with run := s.run.alter change })

/-- Carries steps out one after the other. -/
def steps (s : Session σ) (steps : List (Step σ)) : Session σ :=
  steps.foldl (fun s step => (s.step step).2) s

@[simp] theorem steps_nil (s : Session σ) : s.steps [] = s := rfl

@[simp] theorem steps_cons (s : Session σ) (step : Step σ) (rest : List (Step σ)) :
    s.steps (step :: rest) = (s.step step).2.steps rest := rfl

theorem steps_append (s : Session σ) (first rest : List (Step σ)) :
    s.steps (first ++ rest) = (s.steps first).steps rest := by
  simp [steps]

end Session

end GrantPath
