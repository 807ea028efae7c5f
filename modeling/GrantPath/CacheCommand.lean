import GrantPath.Run

/-! # Working on the cache

The commands that read, write and inspect a run's cache directly, without a query, and what
each of them reports.
-/

namespace GrantPath

variable {σ : Type}

/-- A computation that takes a while and then answers, or fails in its own words. -/
structure Computation where
  outcome : Except String Bool
  ms : Nat := 0

/-- Lets the time pass and gives the outcome. -/
def Computation.perform (c : Computation) (r : Run σ) : Except Error Bool × Run σ :=
  (c.outcome.mapError .permissionStore, r.advance (c.ms * Clock.nanosPerMilli))

/-- Something to do with the cache. -/
inductive CacheCommand where
  | get (key : DecisionKey)
  | put (key : DecisionKey) (allowed : Bool)
  | remove (key : DecisionKey)
  | getOrCompute (key : DecisionKey) (computation : Computation)
  | forceRefresh (key : DecisionKey) (computation : Computation)
  | invalidate (principal : String)
  | purge
  | clear
  | size
  | stats

/-- The size of a cache and how well it has served. -/
structure CacheStats where
  entries : Nat
  hits : UInt64
  misses : UInt64
  hitRate : Float

/-- What a command reports. -/
inductive CacheReport where
  | done
  | found (allowed : Option Bool)
  /-- The outcome, and how often the computation ran. -/
  | computed (outcome : Except Error Bool) (times : Nat)
  | count (n : Nat)
  | size (n : Nat)
  | stats (s : CacheStats)

/-- The size and the counters of a run's cache. -/
def Run.cacheStats (r : Run σ) : CacheStats :=
  let shown := r.counters.snapshot
  ⟨r.cache.size, shown.cacheHits, shown.cacheMisses, shown.hitRate⟩

/-- Carries a command out. -/
def CacheCommand.perform : CacheCommand → Run σ → CacheReport × Run σ
  | .get key, r =>
    let (found, r) := r.readCache key
    (.found found, r)
  | .put key allowed, r => (.done, r.writeCache key allowed)
  | .remove key, r =>
    let (dropped, r) := r.forget key
    (.found dropped, r)
  | .getOrCompute key computation, r =>
    let times := match r.cache.peek key r.clock.elapsed with
      | .live _ => 0
      | _ => 1
    let (outcome, r) := r.getOrCompute key computation.perform
    (.computed outcome times, r)
  | .forceRefresh key computation, r =>
    let (outcome, r) := r.forceRefresh key computation.perform
    (.computed outcome 1, r)
  | .invalidate principal, r =>
    let (dropped, r) := r.invalidate principal
    (.count dropped, r)
  | .purge, r =>
    let (dropped, r) := r.purge
    (.count dropped, r)
  | .clear, r => (.done, r.clear)
  | .size, r => (.size r.cache.size, r)
  | .stats, r => (.stats r.cacheStats, r)

end GrantPath
