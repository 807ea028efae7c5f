import GrantPath.Principal

/-! # Errors

What can go wrong in the library, by cause. `Error.message` is the one place that words an
error. Reading a file has two causes of its own, which carry no words: the file cannot be
read as text, or the text has not the form it should have (`LoadError`).
-/

namespace GrantPath

/-- What makes a configuration unusable. -/
inductive ConfigFault where
  | zeroTimeToLive
  | zeroCleanupInterval
  | zeroTraversalDepth
  | zeroWarmingInterval
  | emptyLoggingLevel
deriving DecidableEq, Repr

/-- What is said about an unusable configuration. -/
def ConfigFault.message : ConfigFault → String
  | zeroTimeToLive => "cache.ttl_seconds must be greater than 0"
  | zeroCleanupInterval => "cache.cleanup_interval_seconds must be greater than 0"
  | zeroTraversalDepth => "policy.max_traversal_depth must be greater than 0"
  | zeroWarmingInterval => "warmer.interval_seconds must be greater than 0"
  | emptyLoggingLevel => "logging.level cannot be empty"

/-- Why an operation has no answer. -/
inductive Error where
  | invalidConfig (fault : ConfigFault)
  | invalidArgument (fault : ArgumentFault)
  /-- The group store failed, in its own words. -/
  | groupStore (reason : String)
  /-- The permission store failed, in its own words. -/
  | permissionStore (reason : String)
  | unknownOwner (fname : String)
  | unknownActivity (owner fname : String)
  | unknownTargetProvider (key : String)
  /-- The search stood at the principal with no step left. -/
  | traversalDepthExceeded (principal : Principal) (limit : Nat)
  /-- A generalized permission was itself generalized too often. This takes definitions that
  lead back to a query already met, or that change while it is evaluated. -/
  | generalizationDepthExceeded
deriving DecidableEq, Repr

/-- The wording of an error. -/
def Error.message : Error → String
  | invalidConfig fault => "Invalid configuration: " ++ fault.message
  | invalidArgument fault => "Invalid argument: " ++ fault.message
  | groupStore reason => "Group store error: " ++ reason
  | permissionStore reason => "Permission store error: " ++ reason
  | unknownOwner fname => "Unknown permission owner: " ++ fname
  | unknownActivity owner fname => "Unknown permission activity: " ++ owner ++ "/" ++ fname
  | unknownTargetProvider key => "Unknown target provider: " ++ key
  | traversalDepthExceeded principal limit =>
    "Group traversal exceeded maximum depth " ++ toString limit ++ " at " ++ principal.text
  | generalizationDepthExceeded => "Generalized permissions nest too deeply"

/-- Why a file gives no value. -/
inductive LoadError where
  /-- There is no such file, or it is not text. -/
  | unreadable
  /-- The text is not of the expected form. -/
  | malformed
  /-- The value read is refused. -/
  | refused (error : Error)
deriving DecidableEq, Repr

end GrantPath
