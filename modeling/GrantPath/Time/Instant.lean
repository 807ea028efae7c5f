import GrantPath.Text.Digits
import GrantPath.Time.Calendar

/-! # Instants

A point on the wall clock: seconds since 1970-01-01T00:00:00Z and nanoseconds. The
nanoseconds of a leap second run on from 1 000 000 000, so that it sorts between the second
before it and the second after it.

* `Instant.le` and `Instant.lt` order instants; `Instant.lt_iff_not_le` relates them.
* `Instant.text` writes an instant in UTC with the shortest fraction of 0, 3, 6 or 9
  digits that loses nothing.
-/

namespace GrantPath

/-- A point in time. -/
structure Instant where
  seconds : Int
  nanos : Nat
deriving DecidableEq, Repr, Inhabited

namespace Instant

/-- One second in nanoseconds. -/
def nanosPerSecond : Nat := 1000000000

/-- The instant so many milliseconds after 1970-01-01T00:00:00Z. -/
def ofMillis (ms : Nat) : Instant :=
  ⟨(ms / 1000 : Nat), ms % 1000 * 1000000⟩

/-- Moves an instant forward. -/
def advance (t : Instant) (nanos : Nat) : Instant :=
  let n := t.nanos + nanos
  ⟨t.seconds + (n / nanosPerSecond : Nat), n % nanosPerSecond⟩

/-- `s` is not later than `t`. -/
def le (s t : Instant) : Bool :=
  s.seconds < t.seconds || (s.seconds == t.seconds && s.nanos ≤ t.nanos)

/-- `s` is earlier than `t`. -/
def lt (s t : Instant) : Bool :=
  s.seconds < t.seconds || (s.seconds == t.seconds && s.nanos < t.nanos)

theorem lt_iff_not_le (s t : Instant) : s.lt t = !t.le s := by
  rw [Bool.eq_iff_iff]
  simp only [lt, le, Bool.not_eq_true', Bool.or_eq_true, decide_eq_true_eq, Bool.and_eq_true,
    beq_iff_eq, Bool.or_eq_false_iff, decide_eq_false_iff_not, Bool.and_eq_false_iff,
    beq_eq_false_iff_ne]
  omega

theorem le_trans {r s t : Instant} (h : r.le s = true) (h' : s.le t = true) : r.le t = true := by
  simp only [le, Bool.or_eq_true, decide_eq_true_eq, Bool.and_eq_true, beq_iff_eq] at *
  omega

/-- The digits after the point: none, or as few groups of three as the value needs. -/
def fractionText (nanos : Nat) : String :=
  if nanos == 0 then ""
  else if nanos % 1000000 == 0 then "." ++ Text.padded 3 (nanos / 1000000)
  else if nanos % 1000 == 0 then "." ++ Text.padded 6 (nanos / 1000)
  else "." ++ Text.padded 9 nanos

/-- A year of four digits stands alone; any other carries its sign. -/
def yearText (year : Int) : String :=
  if 0 ≤ year ∧ year ≤ 9999 then Text.padded 4 year.toNat
  else (if year < 0 then "-" else "+") ++ Text.padded 4 year.natAbs

/-- The instant in UTC, as RFC 3339 writes it. -/
def text (t : Instant) : String :=
  let days := t.seconds / 86400
  let second := (t.seconds % 86400).toNat
  let leap := t.nanos / nanosPerSecond
  let (year, month, day) := Calendar.ofDayNumber days
  yearText year ++ "-" ++ Text.padded 2 month ++ "-" ++ Text.padded 2 day ++ "T" ++
    Text.padded 2 (second / 3600) ++ ":" ++ Text.padded 2 (second / 60 % 60) ++ ":" ++
    Text.padded 2 (second % 60 + leap) ++ fractionText (t.nanos % nanosPerSecond) ++ "Z"

end Instant

end GrantPath
