/-! # Blank characters

The characters with the Unicode property `White_Space`: what may surround the parts of
a time stamp, and what a logging level must not consist of alone.
-/

namespace GrantPath.Text

/-- The code points with the property `White_Space`. -/
def isBlank (c : Char) : Bool :=
  let n := c.toNat
  (9 ≤ n && n ≤ 13) || n == 0x20 || n == 0x85 || n == 0xA0 || n == 0x1680 ||
    (0x2000 ≤ n && n ≤ 0x200A) || n == 0x2028 || n == 0x2029 || n == 0x202F ||
    n == 0x205F || n == 0x3000

/-- Drops the blanks a text starts with. -/
def skipBlanks (cs : List Char) : List Char :=
  cs.dropWhile isBlank

/-- Whether a text holds nothing but blanks. -/
def isAllBlank (cs : List Char) : Bool :=
  cs.all isBlank

theorem isBlank_of_isWhitespace {c : Char} (h : c.isWhitespace = true) : isBlank c = true := by
  simp only [Char.isWhitespace, Bool.or_eq_true, decide_eq_true_eq] at h
  rcases h with ((rfl | rfl) | rfl) | rfl <;> decide

theorem skipBlanks_eq_nil_iff (cs : List Char) : skipBlanks cs = [] ↔ isAllBlank cs = true := by
  unfold skipBlanks isAllBlank
  induction cs with
  | nil => exact iff_of_true rfl rfl
  | cons c cs ih =>
    cases h : isBlank c with
    | true => rw [List.dropWhile_cons_of_pos h, List.all_cons, h, Bool.true_and]; exact ih
    | false => simp [h]

end GrantPath.Text
