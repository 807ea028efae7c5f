import GrantPath.Toml.Value

/-! # TOML texts

A TOML text is a sequence of lines, each of them blank, a header in brackets, or an
assignment. `Toml.read?` gives the document that the text describes.
-/

namespace GrantPath.Toml

open Text

/-- The brackets that close a header, and the end of its line. -/
def headerEnd (brackets : Nat) (cs : List Char) : Option (List Char) :=
  if cs.take brackets = List.replicate brackets ']' then lineEnd? (cs.drop brackets) else none

/-- The statement of a line, if it has one, and the lines after it. -/
def line : Reader (Option Statement) := fun cs => do
  match skipWs cs with
  | '[' :: '[' :: cs =>
    let ((path, k), cs) ← keyPath nestingLimit cs
    return (some (.row path k), ← headerEnd 2 cs)
  | '[' :: cs =>
    let ((path, k), cs) ← keyPath nestingLimit cs
    return (some (.table path k), ← headerEnd 1 cs)
  | cs =>
    match lineEnd? cs with
    | some rest => return (none, rest)
    | none =>
      let ((path, k, v), cs) ← assignment (value nestingLimit) cs
      return (some (.assign path k v), ← lineEnd? cs)

/-- The statements of at most so many lines. -/
def statements : Nat → List Char → Option (List Statement)
  | _, [] => some []
  | 0, _ => none
  | most + 1, cs => do
    let (statement, cs) ← line cs
    let rest ← statements most cs
    return statement.toList ++ rest

/-- Drops a byte order mark. -/
def dropByteOrderMark : List Char → List Char
  | '\ufeff' :: cs => cs
  | cs => cs

/-- The document that a text describes. -/
def read? (text : String) : Option Document := do
  let cs := dropByteOrderMark text.toList
  let lines ← statements cs.length cs
  let root ← build lines [] []
  return .table (fieldsOf root)

end GrantPath.Toml
