import GrantPath.Decision.Key
import GrantPath.Table

/-! # A store of decisions with a time to live

The store keeps a decision under its key until the monotonic clock reaches the instant of its
expiry. Expired decisions stay in the store, unreadable, until a read, a purge or a write
that needs the room drops them. A store of bounded capacity gives up one decision when a new
key comes and nothing has expired; which one, an `Eviction` says.
-/

namespace GrantPath

/-- A remembered decision. -/
structure Decision where
  allowed : Bool
  /-- The reading of the monotonic clock from which on the decision is expired. -/
  expiresAt : Nat
  /-- How often the decision has been read. -/
  hits : Nat
deriving DecidableEq, Repr, Inhabited

/-- Whether the decision is expired. -/
def Decision.isExpired (d : Decision) (now : Nat) : Bool :=
  d.expiresAt ≤ now

/-- Names the position of the decision to give up, from the number of decisions given up
before and the stored ones. Positions count modulo the number of decisions. -/
abbrev Eviction := Nat → List (DecisionKey × Decision) → Nat

/-- Gives up the decision that was neither read nor written for the longest time: reading
and writing move a decision to the front. -/
def Eviction.leastRecent : Eviction := fun _ entries => entries.length - 1

/-- Decisions by key, their time to live in nanoseconds and their greatest number, where 0
means any number. -/
structure Store where
  ttl : Nat
  capacity : Nat
  eviction : Eviction := .leastRecent
  evictions : Nat := 0
  decisions : Table DecisionKey Decision := .empty

/-- What a read finds under a key. -/
inductive Lookup where
  | live (allowed : Bool)
  | expired
  | absent
deriving DecidableEq, Repr

namespace Store

/-- The number of stored decisions, expired or not. -/
def size (s : Store) : Nat :=
  s.decisions.size

/-- The stored decision of a key, expired or not. -/
def find? (s : Store) (key : DecisionKey) : Option Decision :=
  s.decisions.get? key

/-- What a read finds, without reading. -/
def peek (s : Store) (key : DecisionKey) (now : Nat) : Lookup :=
  match s.find? key with
  | none => .absent
  | some d => if d.isExpired now then .expired else .live d.allowed

/-- Reads a key: a live decision counts the read, an expired one is dropped. -/
def get (s : Store) (key : DecisionKey) (now : Nat) : Lookup × Store :=
  match s.find? key with
  | none => (.absent, s)
  | some d =>
    if d.isExpired now then (.expired, { s with decisions := s.decisions.erase key })
    else (.live d.allowed,
      { s with decisions := s.decisions.insert key { d with hits := d.hits + 1 } })

/-- Drops what is expired, and counts it. -/
def purge (s : Store) (now : Nat) : Nat × Store :=
  let kept := s.decisions.filter fun _ d => !d.isExpired now
  (s.decisions.size - kept.size, { s with decisions := kept })

/-- Gives up one decision. -/
def evict (s : Store) : Store :=
  let entries := s.decisions.entries
  match entries[s.eviction s.evictions entries % entries.length]? with
  | none => s
  | some victim =>
    { s with decisions := s.decisions.erase victim.1, evictions := s.evictions + 1 }

/-- Makes room for one more decision, and counts the expired ones dropped for it. -/
def makeRoom (s : Store) (now : Nat) : Nat × Store :=
  if s.capacity = 0 ∨ s.size < s.capacity then (0, s)
  else
    let (purged, s) := s.purge now
    if s.size < s.capacity then (purged, s) else (purged, s.evict)

/-- Makes room for the decision of a key, which needs none if it is stored already; counts
the expired decisions dropped for it. -/
def makeRoomFor (s : Store) (key : DecisionKey) (now : Nat) : Nat × Store :=
  if s.decisions.contains key then (0, s) else s.makeRoom now

/-- Stores a decision where there is room for it. Its time to live starts anew. -/
def insert (s : Store) (key : DecisionKey) (allowed : Bool) (now : Nat) : Store :=
  { s with decisions := s.decisions.insert key ⟨allowed, now + s.ttl, 0⟩ }

/-- Drops the decision of a key and tells what it was, expired or not. -/
def remove (s : Store) (key : DecisionKey) : Option Bool × Store :=
  ((s.find? key).map (·.allowed), { s with decisions := s.decisions.erase key })

/-- Drops the decisions about one principal, and counts them. -/
def invalidate (s : Store) (principal : String) : Nat × Store :=
  let kept := s.decisions.filter fun key _ => key.principal != principal
  (s.decisions.size - kept.size, { s with decisions := kept })

/-- Drops everything. -/
def clear (s : Store) : Store :=
  { s with decisions := .empty }

theorem get_fst (s : Store) (key : DecisionKey) (now : Nat) :
    (s.get key now).1 = s.peek key now := by
  unfold get peek
  cases s.find? key with
  | none => rfl
  | some d => by_cases h : d.isExpired now <;> simp [h]

end Store

end GrantPath
