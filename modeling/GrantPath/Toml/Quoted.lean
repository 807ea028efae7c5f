import GrantPath.Toml.Blank

/-! # Quoted texts in TOML

A text stands between quotation marks, where a backslash gives the next characters another
meaning, or between apostrophes, where nothing does. Three marks in a row enclose a text of
several lines: a line end straight after them is dropped, line ends read as line feeds, and up
to two marks in a row belong to the text, also just before the closing ones. Between three
quotation marks a backslash at the end of a line drops all blanks and line ends that follow.

The readers walk along the characters, one by one, and a `Mode` tells what the characters
before mean for the next one.
-/

namespace GrantPath.Toml

open Text

/-- What is being read inside quotation marks. -/
inductive Mode where
  | plain
  /-- A backslash came before. -/
  | escape
  /-- So many hexadecimal digits are to come, and those before have this value. -/
  | code (digits value : Nat)
  /-- A backslash and blanks came before. -/
  | breaking
  /-- A backslash ended the line before. -/
  | joining
deriving DecidableEq, Repr

/-- The character that a letter after a backslash stands for. -/
def escaped? : Char → Option Char
  | 'b' => some '\x08'
  | 't' => some '\t'
  | 'n' => some '\n'
  | 'f' => some '\x0c'
  | 'r' => some '\r'
  | '"' => some '"'
  | '\\' => some '\\'
  | _ => none

/-- The mode after a backslash and a letter, and the character they stand for, if that is all
there is to come. -/
def Mode.afterEscape (c : Char) : Option (Mode × Option Char) :=
  if c = 'u' then some (.code 4 0, none)
  else if c = 'U' then some (.code 8 0, none)
  else (escaped? c).map fun d => (.plain, some d)

/-- The mode after one more hexadecimal digit, and the character, if it was the last one. -/
def Mode.afterDigit (digits value : Nat) (c : Char) : Option (Mode × Option Char) := do
  let d ← hexDigit? c
  let value := value * 16 + d
  if digits = 1 then return (.plain, some (← charAt? value))
  else return (.code (digits - 1) value, none)

/-- Puts a character, if there is one, in front of what was read. -/
def emit? (c : Option Char) (read : Option (List Char × List Char)) :
    Option (List Char × List Char) :=
  match c with
  | some c => emit c read
  | none => read

/-- The rest of a text of one line between quotation marks. -/
def basicRest : Mode → Reader (List Char)
  | _, [] => none
  | .plain, c :: cs =>
    if c = '"' then some ([], cs)
    else if c = '\\' then basicRest .escape cs
    else if isPlain c then emit c (basicRest .plain cs)
    else none
  | .escape, c :: cs =>
    match Mode.afterEscape c with
    | some (mode, d) => emit? d (basicRest mode cs)
    | none => none
  | .code digits value, c :: cs =>
    match Mode.afterDigit digits value c with
    | some (mode, d) => emit? d (basicRest mode cs)
    | none => none
  | _, _ => none

/-- The rest of a text of one line between apostrophes. -/
def literalRest : Reader (List Char)
  | [] => none
  | c :: cs =>
    if c = '\'' then some ([], cs)
    else if isPlain c then emit c (literalRest cs)
    else none

/-- The end of a text of several lines, if the mark just read and those after it close it:
the marks that still belong to the text, and what comes after it. -/
def closing? (mark : Char) (cs : List Char) : Option (List Char × List Char) :=
  match cs.takeWhile (· == mark) with
  | _ :: _ :: more =>
    let kept := min more.length 2
    some (List.replicate kept mark, cs.drop (2 + kept))
  | _ => none

/-- The rest of a text of several lines between quotation marks. -/
def basicLinesRest : Mode → Reader (List Char)
  | _, [] => none
  | .escape, '\n' :: cs => basicLinesRest .joining cs
  | .escape, '\r' :: '\n' :: cs => basicLinesRest .joining cs
  | .breaking, '\n' :: cs => basicLinesRest .joining cs
  | .breaking, '\r' :: '\n' :: cs => basicLinesRest .joining cs
  | .joining, '\n' :: cs => basicLinesRest .joining cs
  | .joining, '\r' :: '\n' :: cs => basicLinesRest .joining cs
  | .plain, '\n' :: cs => emit '\n' (basicLinesRest .plain cs)
  | .plain, '\r' :: '\n' :: cs => emit '\n' (basicLinesRest .plain cs)
  | .breaking, c :: cs => if isWs c then basicLinesRest .breaking cs else none
  | .escape, c :: cs =>
    if isWs c then basicLinesRest .breaking cs
    else
      match Mode.afterEscape c with
      | some (mode, d) => emit? d (basicLinesRest mode cs)
      | none => none
  | .code digits value, c :: cs =>
    match Mode.afterDigit digits value c with
    | some (mode, d) => emit? d (basicLinesRest mode cs)
    | none => none
  | mode, c :: cs =>
    if mode = .joining ∧ isWs c then basicLinesRest .joining cs
    else if c = '"' then
      match closing? '"' cs with
      | some (kept, rest) => some (kept, rest)
      | none => emit c (basicLinesRest .plain cs)
    else if c = '\\' then basicLinesRest .escape cs
    else if isPlain c then emit c (basicLinesRest .plain cs)
    else none

/-- The rest of a text of several lines between apostrophes. -/
def literalLinesRest : Reader (List Char)
  | [] => none
  | '\n' :: cs => emit '\n' (literalLinesRest cs)
  | '\r' :: '\n' :: cs => emit '\n' (literalLinesRest cs)
  | c :: cs =>
    if c = '\'' then
      match closing? '\'' cs with
      | some (kept, rest) => some (kept, rest)
      | none => emit c (literalLinesRest cs)
    else if isPlain c then emit c (literalLinesRest cs)
    else none

/-- Drops a line end. -/
def dropNewline (cs : List Char) : List Char :=
  (newline? cs).getD cs

/-- A text of one line between quotation marks or apostrophes. -/
def quotedLine : Reader (List Char)
  | '"' :: cs => basicRest .plain cs
  | '\'' :: cs => literalRest cs
  | _ => none

/-- A quoted text of any kind. -/
def quoted : Reader (List Char)
  | '"' :: '"' :: '"' :: cs => basicLinesRest .plain (dropNewline cs)
  | '\'' :: '\'' :: '\'' :: cs => literalLinesRest (dropNewline cs)
  | cs => quotedLine cs

end GrantPath.Toml
