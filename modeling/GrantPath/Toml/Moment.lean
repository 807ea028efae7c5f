import GrantPath.Text.Digits
import GrantPath.Text.Reader
import GrantPath.Time.Calendar

/-! # Dates and times in TOML

A date, a time of day, or both with an optional offset from UTC. Every part has its full
number of digits, and what is named must exist.
-/

namespace GrantPath.Toml

open Text

/-- A number of exactly so many digits between two bounds. -/
def fixedNumber (width least most : Nat) : Reader Nat := fun cs =>
  let (ds, rest) := spanDigits width cs
  let n := ofDigits ds
  if ds.length = width ∧ least ≤ n ∧ n ≤ most then some (n, rest) else none

/-- The rest after a mark. -/
def markAfter (c : Char) : List Char → Option (List Char)
  | d :: cs => if d = c then some cs else none
  | [] => none

/-- The rest after a date. -/
def date? (cs : List Char) : Option (List Char) := do
  let (year, cs) ← fixedNumber 4 0 9999 cs
  let cs ← markAfter '-' cs
  let (month, cs) ← fixedNumber 2 1 12 cs
  let cs ← markAfter '-' cs
  let (day, cs) ← fixedNumber 2 1 31 cs
  if Calendar.isDate year month day then some cs else none

/-- The rest after a fraction of a second, which may be missing. -/
def secondFraction (cs : List Char) : List Char :=
  match cs with
  | '.' :: c :: more => if isDigit c then more.dropWhile isDigit else cs
  | _ => cs

/-- The rest after a time of day. -/
def timeOfDay? (cs : List Char) : Option (List Char) := do
  let (_, cs) ← fixedNumber 2 0 23 cs
  let cs ← markAfter ':' cs
  let (_, cs) ← fixedNumber 2 0 59 cs
  let cs ← markAfter ':' cs
  let (_, cs) ← fixedNumber 2 0 60 cs
  return secondFraction cs

/-- The rest after an offset from UTC, which may be missing. -/
def offset? (cs : List Char) : Option (List Char) :=
  let hoursAndMinutes (cs : List Char) : Option (List Char) := do
    let (_, cs) ← fixedNumber 2 0 23 cs
    let cs ← markAfter ':' cs
    let (_, cs) ← fixedNumber 2 0 59 cs
    return cs
  match cs with
  | 'Z' :: cs | 'z' :: cs => some cs
  | '+' :: cs | '-' :: cs => hoursAndMinutes cs
  | cs => some cs

/-- The rest after a date and whatever time of day follows it. -/
def dateAndTime? (cs : List Char) : Option (List Char) := do
  let rest ← date? cs
  match rest with
  | c :: cs =>
    if c = 'T' ∨ c = 't' then offset? (← timeOfDay? cs)
    else if c = ' ' then
      match timeOfDay? cs with
      | some cs => offset? cs
      | none => some rest
    else some rest
  | [] => some []

/-- The rest after a date, a time or both. -/
def moment? (cs : List Char) : Option (List Char) :=
  match dateAndTime? cs with
  | some rest => some rest
  | none => timeOfDay? cs

end GrantPath.Toml
