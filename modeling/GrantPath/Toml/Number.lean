import GrantPath.Document.Value
import GrantPath.Text.Digits
import GrantPath.Text.Reader

/-! # Numbers in TOML

An integer is written in decimal notation, with an optional sign and no leading zeros, or
after `0x`, `0o` or `0b`; it has to fit into a signed word of 64 bits. A number with a
fraction or an exponent, `inf` and `nan` are reals. Single underscores may stand between two
digits. A real that is too great for a double is refused, one that is too small is not.
-/

namespace GrantPath.Toml

open Text

/-- Digits that continue a number, with underscores between digits left out. -/
def moreDigits (isDigit : Char → Bool) : List Char → List Char × List Char
  | '_' :: c :: cs =>
    if isDigit c then
      let (ds, rest) := moreDigits isDigit cs
      (c :: ds, rest)
    else ([], '_' :: c :: cs)
  | c :: cs =>
    if isDigit c then
      let (ds, rest) := moreDigits isDigit cs
      (c :: ds, rest)
    else ([], c :: cs)
  | [] => ([], [])

/-- One digit or more. -/
def digitRun (isDigit : Char → Bool) : Reader (List Char)
  | c :: cs =>
    if isDigit c then
      let (ds, rest) := moreDigits isDigit cs
      some (c :: ds, rest)
    else none
  | [] => none

/-- The digits of a whole number: a zero, or a run that starts with another digit. -/
def wholeDigits : Reader (List Char)
  | '0' :: cs => some (['0'], cs)
  | cs => digitRun isDigit cs

/-- The digits after a point. -/
def fractionDigits : Reader (List Char)
  | '.' :: cs => digitRun isDigit cs
  | _ => none

/-- The exponent after `e`. -/
def exponent : Reader Int
  | c :: cs =>
    if c = 'e' ∨ c = 'E' then
      match cs with
      | '-' :: cs => (digitRun isDigit cs).map fun (ds, rest) => (-(ofDigits ds : Int), rest)
      | '+' :: cs => (digitRun isDigit cs).map fun (ds, rest) => ((ofDigits ds : Int), rest)
      | cs => (digitRun isDigit cs).map fun (ds, rest) => ((ofDigits ds : Int), rest)
    else none
  | [] => none

/-- The least number that does not fit into a signed word of 64 bits. -/
def wordLimit : Nat := Nat.pow 2 63

/-- Whether `n * 10 ^ e` rounds to infinity as a double: it is not below the number that lies
half a step above the greatest double. -/
def overflows (n : Nat) (e : Int) : Bool :=
  let bound := (Nat.pow 2 54 - 1) * Nat.pow 2 970
  let places : Int := (Nat.toDigits 10 n).length + e
  if n = 0 ∨ places ≤ 308 then false
  else if 310 ≤ places then true
  else bound * Nat.pow 10 (-e).toNat ≤ n * Nat.pow 10 e.toNat

/-- The part of a real after its whole digits: the digits of the fraction and the exponent.
There is at least one of both. -/
def realTail : Reader (List Char × Int) := fun cs =>
  match fractionDigits cs with
  | some (fraction, cs) =>
    match exponent cs with
    | some (e, cs) => some ((fraction, e), cs)
    | none => some ((fraction, 0), cs)
  | none => (exponent cs).map fun (e, cs) => (([], e), cs)

/-- The text that a reader has gone over. -/
def consumed (before after : List Char) : String :=
  String.ofList (before.take (before.length - after.length))

/-- An integer in a notation with a base of its own. -/
def radixInteger (base : Nat) (cs : List Char) : Option (Document × List Char) := do
  let isDigit (c : Char) : Bool := (hexDigit? c).any (· < base)
  let (ds, rest) ← digitRun isDigit cs
  let n := ds.foldl (fun n c => n * base + (hexDigit? c).getD 0) 0
  if n < wordLimit then some (.integer n, rest) else none

/-- A decimal number after its sign. -/
def decimal (negative : Bool) (cs : List Char) : Option (Document × List Char) := do
  let (whole, rest) ← wholeDigits cs
  match realTail rest with
  | some ((fraction, e), rest) =>
    if !negative && overflows (ofDigits (whole ++ fraction)) (e - fraction.length) then none
    else some (.real (consumed cs rest), rest)
  | none =>
    let n := ofDigits whole
    if negative then if n ≤ wordLimit then some (.integer (-(n : Int)), rest) else none
    else if n < wordLimit then some (.integer n, rest) else none

/-- A number after its sign. -/
def unsigned (negative : Bool) : Reader Document
  | 'i' :: 'n' :: 'f' :: cs => some (.real "inf", cs)
  | 'n' :: 'a' :: 'n' :: cs => some (.real "nan", cs)
  | cs => decimal negative cs

/-- A number. -/
def number : Reader Document
  | '+' :: cs => unsigned false cs
  | '-' :: cs => unsigned true cs
  | '0' :: 'x' :: cs => radixInteger 16 cs
  | '0' :: 'o' :: cs => radixInteger 8 cs
  | '0' :: 'b' :: cs => radixInteger 2 cs
  | cs => unsigned false cs

end GrantPath.Toml
