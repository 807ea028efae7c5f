import GrantPath.Config
import GrantPath.Document.Value

/-! # Configurations as documents

Every section and every setting may be left out; what is left out keeps its default.
-/

namespace GrantPath

open Document

def CacheConfig.ofDocument? : Reader CacheConfig := fun d => do
  let fields ← d.fields?
  let base : CacheConfig := {}
  let enabled ← fields.defaulted "enabled" readBool base.enabled
  let ttlSeconds ← fields.defaulted "ttl_seconds" readNat base.ttlSeconds
  let cleanupIntervalSeconds ←
    fields.defaulted "cleanup_interval_seconds" readNat base.cleanupIntervalSeconds
  let maxEntries ← fields.defaulted "max_entries" readNat base.maxEntries
  return { enabled, ttlSeconds, cleanupIntervalSeconds, maxEntries }

def CacheConfig.toDocument (c : CacheConfig) : Document :=
  .table [("enabled", .bool c.enabled), ("ttl_seconds", .ofNat c.ttlSeconds),
    ("cleanup_interval_seconds", .ofNat c.cleanupIntervalSeconds),
    ("max_entries", .ofNat c.maxEntries)]

def PolicyConfig.ofDocument? : Reader PolicyConfig := fun d => do
  let fields ← d.fields?
  let base : PolicyConfig := {}
  let superUserShortcut ← fields.defaulted "super_user_shortcut" readBool base.superUserShortcut
  let collectiveTargets ← fields.defaulted "collective_targets" readBool base.collectiveTargets
  let maxTraversalDepth ← fields.defaulted "max_traversal_depth" readNat base.maxTraversalDepth
  let seenGroupsCapacity ← fields.defaulted "seen_groups_capacity" readNat base.seenGroupsCapacity
  return { superUserShortcut, collectiveTargets, maxTraversalDepth, seenGroupsCapacity }

def PolicyConfig.toDocument (c : PolicyConfig) : Document :=
  .table [("super_user_shortcut", .bool c.superUserShortcut),
    ("collective_targets", .bool c.collectiveTargets),
    ("max_traversal_depth", .ofNat c.maxTraversalDepth),
    ("seen_groups_capacity", .ofNat c.seenGroupsCapacity)]

def WarmerConfig.ofDocument? : Reader WarmerConfig := fun d => do
  let fields ← d.fields?
  let base : WarmerConfig := {}
  let enabled ← fields.defaulted "enabled" readBool base.enabled
  let intervalSeconds ← fields.defaulted "interval_seconds" readNat base.intervalSeconds
  return { enabled, intervalSeconds }

def WarmerConfig.toDocument (c : WarmerConfig) : Document :=
  .table [("enabled", .bool c.enabled), ("interval_seconds", .ofNat c.intervalSeconds)]

def LoggingConfig.ofDocument? : Reader LoggingConfig := fun d => do
  let fields ← d.fields?
  let base : LoggingConfig := {}
  let level ← fields.defaulted "level" readText base.level
  return { level }

def LoggingConfig.toDocument (c : LoggingConfig) : Document :=
  .table [("level", .text c.level)]

def Config.ofDocument? : Reader Config := fun d => do
  let fields ← d.fields?
  let cache ← fields.defaulted "cache" CacheConfig.ofDocument? {}
  let policy ← fields.defaulted "policy" PolicyConfig.ofDocument? {}
  let warmer ← fields.defaulted "warmer" WarmerConfig.ofDocument? {}
  let logging ← fields.defaulted "logging" LoggingConfig.ofDocument? {}
  return { cache, policy, warmer, logging }

def Config.toDocument (c : Config) : Document :=
  .table [("cache", c.cache.toDocument), ("policy", c.policy.toDocument),
    ("warmer", c.warmer.toDocument), ("logging", c.logging.toDocument)]

end GrantPath
