/-! # Counters

What happens during queries is counted. `Counters.record` adds one occurrence to the
counters, which are natural numbers; a snapshot shows them as words of 64 bits, so a reading
wraps where a word does. The two rates are quotients of such readings.
-/

namespace GrantPath

/-- Something that is counted. -/
inductive Occurrence where
  /-- A fully supplied query was answered, after so many nanoseconds. -/
  | decision (granted : Bool) (nanos : Nat)
  | invalidArgument
  /-- A parent group could not be evaluated and was passed over. -/
  | branchFailure
  /-- A query could not be answered and was denied. -/
  | topLevelFailure
  | superUserGrant
  | collectiveGrant
  | cacheHit
  | cacheMiss
  /-- A read met an expired decision. -/
  | cacheExpiry
  /-- So many expired decisions were dropped together. -/
  | cacheCleanup (count : Nat)
  /-- A decision was forced into the cache. -/
  | cachePrewarm
  | nodeEvaluated
  /-- A member came up again that had been expanded before. -/
  | cycleGuardHit
deriving DecidableEq, Repr

/-- How often everything has happened. -/
structure Counters where
  grants : Nat := 0
  denials : Nat := 0
  latencySum : Nat := 0
  latencyCount : Nat := 0
  invalidArguments : Nat := 0
  branchFailures : Nat := 0
  topLevelFailures : Nat := 0
  superUserGrants : Nat := 0
  collectiveGrants : Nat := 0
  cacheHits : Nat := 0
  cacheMisses : Nat := 0
  cacheExpiries : Nat := 0
  cacheCleanups : Nat := 0
  cachePrewarms : Nat := 0
  nodesEvaluated : Nat := 0
  cycleGuardHits : Nat := 0
deriving DecidableEq, Repr, Inhabited

/-- Counts one occurrence. -/
def Counters.record (c : Counters) : Occurrence → Counters
  | .decision granted nanos =>
    { c with
      grants := c.grants + granted.toNat
      denials := c.denials + (!granted).toNat
      latencySum := c.latencySum + nanos
      latencyCount := c.latencyCount + 1 }
  | .invalidArgument => { c with invalidArguments := c.invalidArguments + 1 }
  | .branchFailure => { c with branchFailures := c.branchFailures + 1 }
  | .topLevelFailure => { c with topLevelFailures := c.topLevelFailures + 1 }
  | .superUserGrant => { c with superUserGrants := c.superUserGrants + 1 }
  | .collectiveGrant => { c with collectiveGrants := c.collectiveGrants + 1 }
  | .cacheHit => { c with cacheHits := c.cacheHits + 1 }
  | .cacheMiss => { c with cacheMisses := c.cacheMisses + 1 }
  | .cacheExpiry => { c with cacheExpiries := c.cacheExpiries + 1 }
  | .cacheCleanup count => { c with cacheCleanups := c.cacheCleanups + count }
  | .cachePrewarm => { c with cachePrewarms := c.cachePrewarms + 1 }
  | .nodeEvaluated => { c with nodesEvaluated := c.nodesEvaluated + 1 }
  | .cycleGuardHit => { c with cycleGuardHits := c.cycleGuardHits + 1 }

/-- What the counters show when they are read together. -/
structure Snapshot where
  grants : UInt64
  denials : UInt64
  invalidArguments : UInt64
  branchFailures : UInt64
  topLevelFailures : UInt64
  superUserGrants : UInt64
  collectiveGrants : UInt64
  cacheHits : UInt64
  cacheMisses : UInt64
  cacheExpiries : UInt64
  cacheCleanups : UInt64
  cachePrewarms : UInt64
  nodesEvaluated : UInt64
  cycleGuardHits : UInt64
  /-- Nanoseconds per query. -/
  averageLatency : Float
  /-- Hits per lookup that was either a hit or a miss. -/
  hitRate : Float

/-- A quotient of counts; nothing out of nothing is 0. -/
def ratio (part whole : UInt64) : Float :=
  if whole = 0 then 0 else part.toFloat / whole.toFloat

namespace Counters

/-- The share of lookups that were hits. -/
def hitRate (c : Counters) : Float :=
  ratio (.ofNat c.cacheHits) (.ofNat (c.cacheHits + c.cacheMisses))

/-- Reads all counters. -/
def snapshot (c : Counters) : Snapshot where
  grants := .ofNat c.grants
  denials := .ofNat c.denials
  invalidArguments := .ofNat c.invalidArguments
  branchFailures := .ofNat c.branchFailures
  topLevelFailures := .ofNat c.topLevelFailures
  superUserGrants := .ofNat c.superUserGrants
  collectiveGrants := .ofNat c.collectiveGrants
  cacheHits := .ofNat c.cacheHits
  cacheMisses := .ofNat c.cacheMisses
  cacheExpiries := .ofNat c.cacheExpiries
  cacheCleanups := .ofNat c.cacheCleanups
  cachePrewarms := .ofNat c.cachePrewarms
  nodesEvaluated := .ofNat c.nodesEvaluated
  cycleGuardHits := .ofNat c.cycleGuardHits
  averageLatency := ratio (.ofNat c.latencySum) (.ofNat c.latencyCount)
  hitRate := c.hitRate

/-- Counts a list of occurrences from nothing. -/
def ofOccurrences (os : List Occurrence) : Counters :=
  os.foldl record {}

end Counters

end GrantPath
