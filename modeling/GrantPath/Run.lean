import GrantPath.Counters
import GrantPath.Decision.Cache
import GrantPath.SeenGroups
import GrantPath.Service

/-! # Runs

A run is what queries work on and leave behind: the state of the collaborators, the clocks,
the cache, the counters and the members expanded by the latest search. It also keeps a
journal of the requests made and of the decisions read and written, each with the clocks as
they stood, so that what a run did can be told from the run.

Everything a query does to a run is done by the operations of this module.

* `Run.ask` makes a request; `Run.readCache` reads the cache and `Run.writeCache` writes it.
* `Run.getOrCompute` and `Run.forceRefresh` combine reading, computing and writing. A
  computation that fails writes nothing.

A run may ask for more than a machine has: for an expiry past the horizon of the monotonic
clock or for room that memory does not have. It then overruns. The operations go on as if
there were no such limit, and `Run.overrun` keeps how things stood when it came to it.
-/

namespace GrantPath

/-- Something a run did. -/
inductive Event where
  /-- A request was made; the clocks stand as they did when it was answered. -/
  | call (request : Request) (answer : Except Error request.Answer) (clock : Clock)
  /-- The cache was read. -/
  | read (key : DecisionKey) (found : Option Bool) (clock : Clock)
  /-- A decision was written into the cache. -/
  | write (key : DecisionKey) (allowed : Bool) (clock : Clock)
  /-- A search for the decision of a key began. -/
  | search (key : DecisionKey) (clock : Clock)

/-- How things stand in a run, with collaborators in a state `σ`. -/
structure Standing (σ : Type) where
  state : σ
  clock : Clock
  cache : Cache
  counters : Counters := {}
  /-- The members expanded by the latest search. -/
  seen : SeenGroups := .empty
  /-- What was done, the latest first. -/
  journal : List Event := []

/-- What queries work on, with collaborators in a state `σ`. -/
structure Run (σ : Type) extends Standing σ where
  /-- How things stood when the run first overran. A machine goes no further than this. -/
  overrun : Option (Standing σ) := none

namespace Run

variable {σ : Type}

/-- Counts an occurrence. -/
def count (r : Run σ) (o : Occurrence) : Run σ :=
  { r with counters := r.counters.record o }

/-- Lets time pass. -/
def advance (r : Run σ) (nanos : Nat) : Run σ :=
  { r with clock := r.clock.advance nanos }

/-- Sets the wall clock. -/
def setWall (r : Run σ) (ms : Nat) : Run σ :=
  { r with clock := r.clock.setWall ms }

/-- Lets the collaborators change. -/
def alter (r : Run σ) (change : σ → σ) : Run σ :=
  { r with state := change r.state }

/-- Makes a request. -/
def ask (svc : Service σ) (q : Request) (r : Run σ) : Except Error q.Answer × Run σ :=
  let reply := svc.reply q r.state
  let clock := r.clock.advance reply.nanos
  (reply.answer,
    { r with state := reply.state, clock, journal := .call q reply.answer clock :: r.journal })

/-- Adds a member to those expanded by the search. -/
def see (r : Run σ) (m : GroupMember) : Run σ :=
  { r with seen := r.seen.insert m }

/-- Overruns if something is out of reach. Only the first time is kept. -/
def overrunIf (r : Run σ) (outOfReach : Bool) : Run σ :=
  { r with overrun := if outOfReach then r.overrun <|> some r.toStanding else r.overrun }

/-- Sets room aside for the members that a search expects to expand. -/
def setAside (r : Run σ) (capacity : Nat) : Run σ :=
  r.overrunIf (SeenGroups.maxCapacity < capacity)

/-- Carries an act out as far as a machine goes: one that overruns is given up where it then
stands, and the run goes on from there. -/
def withinReach {α : Type} (act : Run σ → α × Run σ) (r : Run σ) : Run σ :=
  let (_, after) := act { r with overrun := none }
  { r with toStanding := after.overrun.getD after.toStanding }

/-- The requests made so far, in order. -/
def requests (r : Run σ) : List Request :=
  r.journal.reverse.filterMap fun
    | .call request _ _ => some request
    | _ => none

/-! ### The cache -/

/-- Reads a live decision. -/
def readCache (key : DecisionKey) (r : Run σ) : Option Bool × Run σ :=
  let (found, cache) := r.cache.get key r.clock.elapsed
  let r := { r with cache }
  match found with
  | .live allowed =>
    (some allowed, { r with journal := .read key (some allowed) r.clock :: r.journal })
  | .expired => (none, { r.count .cacheExpiry with journal := .read key none r.clock :: r.journal })
  | .absent => (none, { r with journal := .read key none r.clock :: r.journal })

/-- Counts expired decisions that were dropped together, if there were any. -/
def countCleanup (r : Run σ) (dropped : Nat) : Run σ :=
  if dropped = 0 then r else r.count (.cacheCleanup dropped)

/-- Makes room for the decision of a key. -/
def makeRoomFor (key : DecisionKey) (r : Run σ) : Run σ :=
  let (dropped, cache) := r.cache.makeRoomFor key r.clock.elapsed
  { r.countCleanup dropped with cache }

/-- Writes a decision, whose time to live starts anew. The run overruns if the clock cannot
show the decision's expiry. -/
def writeCache (key : DecisionKey) (allowed : Bool) (r : Run σ) : Run σ :=
  let r := (r.makeRoomFor key).overrunIf (r.cache.outlivesClock r.clock.elapsed)
  { r with
    cache := r.cache.insert key allowed r.clock.elapsed
    journal := .write key allowed r.clock :: r.journal }

/-- Drops the decision of a key and tells what it was. -/
def forget (key : DecisionKey) (r : Run σ) : Option Bool × Run σ :=
  let (dropped, cache) := r.cache.remove key
  (dropped, { r with cache })

/-- Drops the decisions about one principal, and counts them. -/
def invalidate (principal : String) (r : Run σ) : Nat × Run σ :=
  let (dropped, cache) := r.cache.invalidate principal
  (dropped, { r with cache })

/-- Drops what is expired, and counts it. -/
def purge (r : Run σ) : Nat × Run σ :=
  let (dropped, cache) := r.cache.purge r.clock.elapsed
  (dropped, { r.countCleanup dropped with cache })

/-- Drops all decisions. -/
def clear (r : Run σ) : Run σ :=
  { r with cache := r.cache.clear }

/-- The decision of a key from the cache or, failing that, from a computation, whose result
is then written. -/
def getOrCompute (key : DecisionKey) (compute : Run σ → Except Error Bool × Run σ) (r : Run σ) :
    Except Error Bool × Run σ :=
  match r.readCache key with
  | (some allowed, r) => (.ok allowed, r.count .cacheHit)
  | (none, r) =>
    match compute (r.count .cacheMiss) with
    | (.error e, r) => (.error e, r)
    | (.ok allowed, r) => (.ok allowed, r.writeCache key allowed)

/-- Computes a decision whatever the cache holds, and writes it. -/
def forceRefresh (key : DecisionKey) (compute : Run σ → Except Error Bool × Run σ) (r : Run σ) :
    Except Error Bool × Run σ :=
  match compute r with
  | (.error e, r) => (.error e, r)
  | (.ok allowed, r) => (.ok allowed, (r.writeCache key allowed).count .cachePrewarm)

/-! ### What the operations leave alone -/

@[simp] theorem ask_cache (svc : Service σ) (q : Request) (r : Run σ) :
    (r.ask svc q).2.cache = r.cache := rfl

@[simp] theorem ask_seen (svc : Service σ) (q : Request) (r : Run σ) :
    (r.ask svc q).2.seen = r.seen := rfl

@[simp] theorem count_cache (r : Run σ) (o : Occurrence) : (r.count o).cache = r.cache := rfl

@[simp] theorem count_seen (r : Run σ) (o : Occurrence) : (r.count o).seen = r.seen := rfl

@[simp] theorem count_journal (r : Run σ) (o : Occurrence) :
    (r.count o).journal = r.journal := rfl

@[simp] theorem overrunIf_toStanding (r : Run σ) (outOfReach : Bool) :
    (r.overrunIf outOfReach).toStanding = r.toStanding := rfl

@[simp] theorem setAside_toStanding (r : Run σ) (capacity : Nat) :
    (r.setAside capacity).toStanding = r.toStanding := rfl

@[simp] theorem writeCache_seen (key : DecisionKey) (allowed : Bool) (r : Run σ) :
    (r.writeCache key allowed).seen = r.seen := by
  simp only [writeCache, makeRoomFor, countCleanup, overrunIf]
  split <;> rfl

@[simp] theorem readCache_seen (key : DecisionKey) (r : Run σ) :
    (r.readCache key).2.seen = r.seen := by
  simp only [readCache]
  split <;> rfl

end Run

end GrantPath
