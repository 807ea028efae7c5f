import GrantPath.Error
import GrantPath.Run
import GrantPath.Policy
import GrantPath.Text.Blank

/-! # Configuration

What can be set, what holds when nothing is set, and which settings are refused. A
configuration determines the policy and the cache that queries start with. The settings of
one section are checked in a fixed order, the sections one after the other, and the first
fault is reported.
-/

namespace GrantPath

structure CacheConfig where
  enabled : Bool := true
  ttlSeconds : Nat := 300
  /-- Seconds between two sweeps for expired decisions. -/
  cleanupIntervalSeconds : Nat := 60
  /-- The greatest number of decisions; 0 means any number. -/
  maxEntries : Nat := 100000
deriving DecidableEq, Repr, Inhabited

structure PolicyConfig where
  superUserShortcut : Bool := true
  collectiveTargets : Bool := true
  /-- How many memberships a chain of groups may follow. -/
  maxTraversalDepth : Nat := 256
  /-- The number of members a search expects to expand. -/
  seenGroupsCapacity : Nat := 100
deriving DecidableEq, Repr, Inhabited

structure WarmerConfig where
  enabled : Bool := false
  intervalSeconds : Nat := 240
deriving DecidableEq, Repr, Inhabited

structure LoggingConfig where
  level : String := "info"
deriving DecidableEq, Repr, Inhabited

structure Config where
  cache : CacheConfig := {}
  policy : PolicyConfig := {}
  warmer : WarmerConfig := {}
  logging : LoggingConfig := {}
deriving DecidableEq, Repr, Inhabited

/-- Refuses a configuration if a condition fails. -/
def ConfigFault.unless (fault : ConfigFault) (ok : Bool) : Except Error Unit :=
  if ok then .ok () else .error (.invalidConfig fault)

/-- A cache that is used needs a time to live; its sweeps need an interval in any case. -/
def CacheConfig.validate (c : CacheConfig) : Except Error Unit := do
  ConfigFault.zeroTimeToLive.unless (!c.enabled || c.ttlSeconds != 0)
  ConfigFault.zeroCleanupInterval.unless (c.cleanupIntervalSeconds != 0)

/-- A search must be allowed to follow at least one membership. -/
def PolicyConfig.validate (c : PolicyConfig) : Except Error Unit :=
  ConfigFault.zeroTraversalDepth.unless (c.maxTraversalDepth != 0)

/-- Passes over the registry need an interval. -/
def WarmerConfig.validate (c : WarmerConfig) : Except Error Unit :=
  ConfigFault.zeroWarmingInterval.unless (c.intervalSeconds != 0)

/-- A logging level must not be blank. -/
def LoggingConfig.validate (c : LoggingConfig) : Except Error Unit :=
  ConfigFault.emptyLoggingLevel.unless (!Text.isAllBlank c.level.toList)

namespace Config

/-- Checks section after section. -/
def validate (c : Config) : Except Error Unit := do
  c.cache.validate
  c.policy.validate
  c.warmer.validate
  c.logging.validate

/-- The policy of a configuration. -/
def toPolicy (c : Config) : Policy :=
  ⟨c.policy.superUserShortcut, c.policy.collectiveTargets, c.policy.maxTraversalDepth,
    c.policy.seenGroupsCapacity⟩

/-- An empty cache as configured. -/
def emptyCache (c : Config) : Cache :=
  if c.cache.enabled then
    .timed { ttl := c.cache.ttlSeconds * Instant.nanosPerSecond, capacity := c.cache.maxEntries }
  else .disabled

/-- A run in which nothing has happened yet. -/
def start {σ : Type} (c : Config) (state : σ) (clock : Clock) : Run σ :=
  { state, clock, cache := c.emptyCache }

end Config

end GrantPath
