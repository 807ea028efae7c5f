/-! # Decimal digits

Reading and writing natural numbers in decimal notation, digit by digit.
-/

namespace GrantPath.Text

/-- The value of an ASCII decimal digit. -/
def digit? (c : Char) : Option Nat :=
  if '0' ≤ c ∧ c ≤ '9' then some (c.toNat - 48) else none

/-- Whether a character is an ASCII decimal digit. -/
def isDigit (c : Char) : Bool :=
  (digit? c).isSome

/-- The number written by a list of digits, most significant first. -/
def ofDigits (cs : List Char) : Nat :=
  cs.foldl (fun n c => n * 10 + (digit? c).getD 0) 0

/-- The longest run of digits a text starts with, cut off after `most`, and the rest. -/
def spanDigits : Nat → List Char → List Char × List Char
  | 0, cs => ([], cs)
  | _ + 1, [] => ([], [])
  | most + 1, c :: cs =>
    if isDigit c then
      let (ds, rest) := spanDigits most cs
      (c :: ds, rest)
    else ([], c :: cs)

/-- Decimal notation, filled up with zeros on the left to at least `width` digits. -/
def padded (width n : Nat) : String :=
  let ds := Nat.toDigits 10 n
  String.ofList (List.replicate (width - ds.length) '0' ++ ds)

theorem spanDigits_append (most : Nat) (cs : List Char) :
    (spanDigits most cs).1 ++ (spanDigits most cs).2 = cs := by
  induction most generalizing cs with
  | zero => rfl
  | succ most ih =>
    cases cs with
    | nil => rfl
    | cons c cs => by_cases h : isDigit c <;> simp [spanDigits, h, ih]

end GrantPath.Text
