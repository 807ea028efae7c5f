import GrantPath.Text.Blank
import GrantPath.Text.Reader
import GrantPath.Time.Instant

/-! # Reading RFC 3339 time stamps

A time stamp is a date, a separator `T`, `t` or blank, a time of day and an offset from
UTC. The reader is lenient where writers differ: numbers may have fewer digits than the
standard asks for, blanks may precede a number or a mark, years may carry a sign, the
offset may be spelled `UTC`, and digits past the ninth of a fraction are dropped. What is
named must exist: the date in the calendar, the offset less than a day.
-/

namespace GrantPath.Rfc3339

open Text

/-- A mark, after any blanks. -/
def mark (c : Char) (cs : List Char) : Option (List Char) :=
  match skipBlanks cs with
  | d :: rest => if d = c then some rest else none
  | [] => none

/-- A number of one to `most` digits. -/
def digits (most : Nat) : Reader Nat := fun cs =>
  match spanDigits most cs with
  | ([], _) => none
  | (ds, rest) => some (ofDigits ds, rest)

/-- A number of one or two digits between two bounds, after any blanks. -/
def field (least most : Nat) : Reader Nat := fun cs => do
  let (n, rest) ← digits 2 (skipBlanks cs)
  if least ≤ n ∧ n ≤ most then some (n, rest) else none

/-- A year: up to four digits, or a sign and any number of them. -/
def year : Reader Int := fun cs =>
  match skipBlanks cs with
  | '-' :: rest => (digits rest.length rest).map fun (n, rest) => (-(n : Int), rest)
  | '+' :: rest => (digits rest.length rest).map fun (n, rest) => ((n : Int), rest)
  | cs => (digits 4 cs).map fun (n, rest) => ((n : Int), rest)

/-- The separator of date and time. -/
def separator : List Char → Option (List Char)
  | c :: rest => if c = 't' ∨ c = 'T' ∨ c = ' ' then some rest else none
  | [] => none

/-- The nanoseconds of a fraction; without a point there are none. -/
def fraction : Reader Nat
  | '.' :: cs =>
    match spanDigits 9 cs with
    | ([], _) => none
    | (ds, rest) => some (ofDigits ds * Nat.pow 10 (9 - ds.length), rest.dropWhile isDigit)
  | cs => some (0, cs)

/-- Two digits, the first of them below `tens`. -/
def pair (tens : Nat) : Reader Nat
  | c :: d :: rest => do
    let m ← digit? c
    let n ← digit? d
    if m < tens then some (m * 10 + n, rest) else none
  | _ => none

/-- Hours and minutes of an offset, in seconds, with colons or blanks or nothing between. -/
def offsetAmount : Reader Nat := fun cs => do
  let (hours, rest) ← pair 10 cs
  let (minutes, rest) ← pair 6 (rest.dropWhile fun c => c == ':' || isBlank c)
  return (hours * 3600 + minutes * 60, rest)

/-- Seconds east of UTC. -/
def offset : Reader Int := fun cs =>
  match cs with
  | 'Z' :: rest | 'z' :: rest => some (0, rest)
  | '+' :: rest => (offsetAmount rest).map fun (n, rest) => ((n : Int), rest)
  | '-' :: rest | '\u2212' :: rest => (offsetAmount rest).map fun (n, rest) => (-(n : Int), rest)
  | u :: t :: c :: rest =>
    if u.toUpper = 'U' ∧ t.toUpper = 'T' ∧ c.toUpper = 'C' then some (0, rest) else none
  | _ => none

/-- The instant of a date, a time of day in seconds, a fraction and an offset. -/
def assemble (year : Int) (month day second nanos : Nat) (offset : Int) : Option Instant :=
  let seconds := Calendar.dayNumber year month day * 86400 + second
  let utc := seconds - offset
  let (utcYear, _, _) := Calendar.ofDayNumber (utc / 86400)
  if Calendar.isDate year month day ∧
      Calendar.firstYear ≤ year ∧ year ≤ Calendar.lastYear ∧
      Calendar.firstYear ≤ utcYear ∧ utcYear ≤ Calendar.lastYear ∧
      offset.natAbs < 86400 then
    some ⟨utc, nanos⟩
  else none

/-- The instant that a time stamp names. Second 60 is read as a leap second. -/
def read? (s : String) : Option Instant := do
  let (year, cs) ← year s.toList
  let cs ← mark '-' cs
  let (month, cs) ← field 1 12 cs
  let cs ← mark '-' cs
  let (day, cs) ← field 1 31 cs
  let cs ← separator cs
  let (hour, cs) ← field 0 23 cs
  let cs ← mark ':' cs
  let (minute, cs) ← field 0 59 cs
  let cs ← mark ':' cs
  let (second, cs) ← field 0 60 cs
  let (nanos, cs) ← fraction cs
  let (offset, cs) ← offset (skipBlanks cs)
  if isAllBlank cs then
    let leap := second / 60
    assemble year month day (hour * 3600 + minute * 60 + (second - leap))
      (nanos + leap * Instant.nanosPerSecond) offset
  else none

end GrantPath.Rfc3339
