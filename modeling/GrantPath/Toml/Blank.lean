import GrantPath.Text.Reader

/-! # What TOML passes over

Blanks, line ends and comments. A line ends with a line feed, which a carriage return may
precede; a comment runs from `#` to the end of its line and holds no control characters but
tabs.
-/

namespace GrantPath.Toml

/-- A space or a tab. -/
def isWs (c : Char) : Bool :=
  c == ' ' || c == '\t'

/-- What may stand in a comment and in a literal text: anything but control characters;
the tab is none of them here. -/
def isPlain (c : Char) : Bool :=
  c == '\t' || (0x20 ≤ c.toNat && c.toNat != 0x7F)

/-- Passes over blanks. -/
def skipWs (cs : List Char) : List Char :=
  cs.dropWhile isWs

/-- The rest after a line end. -/
def newline? : List Char → Option (List Char)
  | '\n' :: cs => some cs
  | '\r' :: '\n' :: cs => some cs
  | _ => none

/-- Passes over blanks and a comment up to the end of the line or of the text. -/
def lineEnd? (cs : List Char) : Option (List Char) :=
  let afterComment := match skipWs cs with
    | '#' :: cs => cs.dropWhile isPlain
    | cs => cs
  match afterComment with
  | [] => some []
  | cs => newline? cs

/-- Passes over blanks, line ends and whole comments; tells whether a comment is going on. -/
def skipFiller (inComment : Bool) : List Char → List Char
  | [] => []
  | '\n' :: cs => skipFiller false cs
  | '\r' :: '\n' :: cs => skipFiller false cs
  | c :: cs =>
    if inComment then if isPlain c then skipFiller true cs else c :: cs
    else if c == '#' then skipFiller true cs
    else if isWs c then skipFiller false cs
    else c :: cs

end GrantPath.Toml
