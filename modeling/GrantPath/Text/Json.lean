/-! # Writing JSON

An object is written with one field a line, indented by two spaces. In a text, quotation
marks, backslashes and control characters below the space are escaped, everything else stands
for itself.
-/

namespace GrantPath.Json

/-- A hexadecimal digit in lower case. -/
def hexDigit (n : Nat) : Char :=
  if n < 10 then Char.ofNat (48 + n) else Char.ofNat (87 + n)

/-- How a character is written inside a text. -/
def escape (c : Char) : List Char :=
  match c with
  | '"' => ['\\', '"']
  | '\\' => ['\\', '\\']
  | '\x08' => ['\\', 'b']
  | '\x0c' => ['\\', 'f']
  | '\n' => ['\\', 'n']
  | '\r' => ['\\', 'r']
  | '\t' => ['\\', 't']
  | c =>
    if c.toNat < 0x20 then
      ['\\', 'u', '0', '0', hexDigit (c.toNat / 16), hexDigit (c.toNat % 16)]
    else [c]

/-- A text. -/
def text (s : String) : String :=
  String.ofList ('"' :: s.toList.flatMap escape ++ ['"'])

/-- A text, or the word for nothing. -/
def text? : Option String → String
  | some s => text s
  | none => "null"

/-- A truth value. -/
def bool (b : Bool) : String :=
  if b then "true" else "false"

/-- An object with at least one field, whose values are written already. -/
def object (fields : List (String × String)) : String :=
  let lines := fields.map fun (name, value) => "  " ++ text name ++ ": " ++ value
  "\x7b\n" ++ ",\n".intercalate lines ++ "\n\x7d"

end GrantPath.Json
