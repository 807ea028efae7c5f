import GrantPath.Decision.Store
import GrantPath.Time.Clock

/-! # The decision cache

Either a store of decisions or nothing at all: a disabled cache forgets every write. Both
answer the same operations.
-/

namespace GrantPath

/-- Where decisions are remembered. -/
inductive Cache where
  | disabled
  | timed (store : Store)

namespace Cache

/-- The number of remembered decisions. -/
def size : Cache → Nat
  | disabled => 0
  | timed s => s.size

/-- The remembered decision of a key, expired or not. -/
def find? : Cache → DecisionKey → Option Decision
  | disabled, _ => none
  | timed s, key => s.find? key

/-- What a read finds, without reading. -/
def peek : Cache → DecisionKey → Nat → Lookup
  | disabled, _, _ => .absent
  | timed s, key, now => s.peek key now

/-- Reads a key. -/
def get : Cache → DecisionKey → Nat → Lookup × Cache
  | disabled, _, _ => (.absent, disabled)
  | timed s, key, now =>
    let (found, s) := s.get key now
    (found, timed s)

/-- Makes room for the decision of a key; counts the expired ones dropped for it. -/
def makeRoomFor : Cache → DecisionKey → Nat → Nat × Cache
  | disabled, _, _ => (0, disabled)
  | timed s, key, now =>
    let (dropped, s) := s.makeRoomFor key now
    (dropped, timed s)

/-- Stores a decision where there is room for it. -/
def insert : Cache → DecisionKey → Bool → Nat → Cache
  | disabled, _, _, _ => disabled
  | timed s, key, allowed, now => timed (s.insert key allowed now)

/-- Drops the decision of a key and tells what it was. -/
def remove : Cache → DecisionKey → Option Bool × Cache
  | disabled, _ => (none, disabled)
  | timed s, key =>
    let (dropped, s) := s.remove key
    (dropped, timed s)

/-- Drops the decisions about one principal, and counts them. -/
def invalidate : Cache → String → Nat × Cache
  | disabled, _ => (0, disabled)
  | timed s, principal =>
    let (dropped, s) := s.invalidate principal
    (dropped, timed s)

/-- Drops what is expired, and counts it. -/
def purge : Cache → Nat → Nat × Cache
  | disabled, _ => (0, disabled)
  | timed s, now =>
    let (dropped, s) := s.purge now
    (dropped, timed s)

/-- Drops everything. -/
def clear : Cache → Cache
  | disabled => disabled
  | timed s => timed s.clear

/-- Whether a decision written now expires at an instant that the clock cannot show. -/
def outlivesClock : Cache → Nat → Bool
  | disabled, _ => false
  | timed s, now => Clock.horizon ≤ now + s.ttl

theorem get_fst (c : Cache) (key : DecisionKey) (now : Nat) :
    (c.get key now).1 = c.peek key now := by
  cases c with
  | disabled => rfl
  | timed s => exact s.get_fst key now

end Cache

end GrantPath
