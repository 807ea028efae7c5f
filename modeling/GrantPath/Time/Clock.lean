import GrantPath.Time.Instant

/-! # Clocks

Two clocks run side by side. The wall clock tells which records are in force and may be set;
the monotonic clock counts nanoseconds, never goes back, and measures how long a decision is
kept and how long a query takes.
-/

namespace GrantPath

/-- The readings of both clocks. -/
structure Clock where
  wall : Instant
  /-- Nanoseconds on the monotonic clock. -/
  elapsed : Nat
deriving DecidableEq, Repr, Inhabited

namespace Clock

/-- One millisecond in nanoseconds. -/
def nanosPerMilli : Nat := 1000000

/-- The clocks at a point in Unix time, with a reading of the monotonic one. -/
def startingAt (ms elapsed : Nat) : Clock :=
  ⟨.ofMillis ms, elapsed⟩

/-- Lets time pass on both clocks. -/
def advance (c : Clock) (nanos : Nat) : Clock :=
  if nanos = 0 then c else ⟨c.wall.advance nanos, c.elapsed + nanos⟩

/-- Sets the wall clock and leaves the monotonic one alone. -/
def setWall (c : Clock) (ms : Nat) : Clock :=
  { c with wall := .ofMillis ms }

/-- The monotonic clock counts its seconds in a signed word of 64 bits; this is the first
reading it cannot show. -/
def horizon : Nat := Nat.pow 2 63 * Instant.nanosPerSecond

@[simp] theorem advance_zero (c : Clock) : c.advance 0 = c := rfl

@[simp] theorem elapsed_advance (c : Clock) (nanos : Nat) :
    (c.advance nanos).elapsed = c.elapsed + nanos := by
  by_cases h : nanos = 0 <;> simp [advance, h]

end Clock

end GrantPath
