import GrantPath.Session

/-! # Background tasks

Two tasks keep a session's cache in order, second by second: the sweeper drops expired
decisions, if there is a cache, and the warmer passes over the registry, if there is one and it is
enabled. Each acts at second 0 and then at every multiple of its interval, the sweeper before
the warmer; a task without an interval never acts. A pass over the registry that overruns is
given up, and the warmer passes again when it is due.

`Background.observe` is what an onlooker sees half a second after each whole second: the size
of the cache and how much was warmed and swept so far.
-/

namespace GrantPath

variable {σ : Type}

/-- The tasks that are running and their intervals in seconds. -/
structure Background where
  sweeper : Option Nat
  warmer : Option Nat
deriving DecidableEq, Repr

namespace Background

/-- The tasks of a configuration, with or without a registry to keep warm. -/
def ofConfig (c : Config) (hasRegistry : Bool) : Background where
  sweeper := if c.cache.enabled then some c.cache.cleanupIntervalSeconds else none
  warmer := if hasRegistry && c.warmer.enabled then some c.warmer.intervalSeconds else none

/-- Whether a task acts at a second. -/
def isDue (interval : Option Nat) (second : Nat) : Bool :=
  match interval with
  | none => false
  | some interval => interval != 0 && second % interval == 0

/-- What the sweeper does when it is due. -/
def sweep (s : Session σ) : Session σ :=
  { s with run := s.run.purge.2 }

/-- What the warmer does when it is due. -/
def warm (s : Session σ) : Session σ :=
  { s with run := s.run.withinReach (s.policy.refreshAll s.service s.registry) }

/-- What the tasks do at a second. -/
def tick (b : Background) (second : Nat) (s : Session σ) : Session σ :=
  let s := if isDue b.sweeper second then sweep s else s
  if isDue b.warmer second then warm s else s

/-- One second later. -/
def nextSecond (s : Session σ) : Session σ :=
  (s.step (.advance 1000)).2

/-- What an onlooker sees. -/
structure Row where
  cached : Nat
  prewarms : UInt64
  cleanups : UInt64
deriving DecidableEq, Repr

/-- What an onlooker sees now. -/
def row (s : Session σ) : Row :=
  let shown := s.run.counters.snapshot
  ⟨s.run.cache.size, shown.cachePrewarms, shown.cacheCleanups⟩

/-- The session at a second and at so many seconds after it, while the tasks run. -/
def running (b : Background) (second : Nat) (s : Session σ) : Nat → List (Session σ)
  | 0 => [s]
  | n + 1 => s :: b.running (second + 1) (b.tick (second + 1) (nextSecond s)) n

/-- The session at so many seconds from the next one on, without any task. -/
def idle (s : Session σ) : Nat → List (Session σ)
  | 0 => []
  | n + 1 => nextSecond s :: idle (nextSecond s) n

/-- What an onlooker sees each second while the tasks run and after they were stopped. -/
def observe (b : Background) (s : Session σ) (seconds afterwards : Nat) : List Row :=
  let sessions := b.running 0 (b.tick 0 s) seconds
  (sessions ++ idle ((sessions.getLast?).getD s) afterwards).map row

end Background

end GrantPath
