import GrantPath.Toml.Moment
import GrantPath.Toml.Number
import GrantPath.Toml.Quoted
import GrantPath.Toml.Tree

/-! # Keys and values in TOML

A key is a bare word or a quoted line; keys separated by dots make a path. A value is a quoted
text, a number, a truth value, a date or time, a list, or a table written in line. Lists and
tables in line nest less than 80 deep, and a path has fewer than 80 keys.
-/

namespace GrantPath.Toml

open Text

/-- What a bare key consists of. -/
def isBare (c : Char) : Bool :=
  ('a' ≤ c && c ≤ 'z') || ('A' ≤ c && c ≤ 'Z') || isDigit c || c == '_' || c == '-'

/-- One key. -/
def key : Reader String := fun cs =>
  match cs.takeWhile isBare with
  | [] => (quotedLine cs).map fun (k, rest) => (String.ofList k, rest)
  | k => some (String.ofList k, cs.dropWhile isBare)

/-- At most so many keys with dots between them: those before the last one, and the last. -/
def keyPath : Nat → Reader (List String × String)
  | 0, _ => none
  | most + 1, cs => do
    let (k, cs) ← key (skipWs cs)
    match skipWs cs with
    | '.' :: cs =>
      let ((path, last), cs) ← keyPath most cs
      return ((k :: path, last), cs)
    | cs => return (([], k), cs)

/-- How deep lists and tables in line may nest, and how many keys a path may have. -/
def nestingLimit : Nat := 79

/-- A value that holds no other value. -/
def scalar (cs : List Char) : Option (Document × List Char) :=
  match cs with
  | '"' :: _ | '\'' :: _ => (quoted cs).map fun (s, rest) => (.text (String.ofList s), rest)
  | 't' :: 'r' :: 'u' :: 'e' :: cs => some (.bool true, cs)
  | 'f' :: 'a' :: 'l' :: 's' :: 'e' :: cs => some (.bool false, cs)
  | cs =>
    match moment? cs with
    | some rest => some (.moment (consumed cs rest), rest)
    | none => number cs

/-- The items of a list up to its closing bracket, at most so many. -/
def items (value : Reader Document) : Nat → Reader (List Document)
  | 0, _ => none
  | most + 1, cs =>
    match skipFiller false cs with
    | ']' :: cs => some ([], cs)
    | cs => do
      let (v, cs) ← value cs
      match skipFiller false cs with
      | ',' :: cs =>
        let (vs, cs) ← items value most cs
        return (v :: vs, cs)
      | ']' :: cs => return ([v], cs)
      | _ => none

/-- One assignment. -/
def assignment (value : Reader Document) : Reader (List String × String × Document) := fun cs => do
  let ((path, k), cs) ← keyPath nestingLimit cs
  match cs with
  | '=' :: cs =>
    let (v, cs) ← value (skipWs cs)
    return ((path, k, v), cs)
  | _ => none

/-- The assignments of a table in line up to its closing brace, at most so many. -/
def assignments (value : Reader Document) : Nat → Reader (List (List String × String × Document))
  | 0, _ => none
  | most + 1, cs => do
    let (a, cs) ← assignment value cs
    match skipWs cs with
    | ',' :: cs =>
      let (as, cs) ← assignments value most cs
      return (a :: as, cs)
    | '\x7d' :: cs => return ([a], cs)
    | _ => none

/-- A table in line after its opening brace. -/
def tableInLine (value : Reader Document) : Reader Document := fun cs =>
  match skipWs cs with
  | '\x7d' :: cs => some (.table [], cs)
  | cs => do
    let (as, rest) ← assignments value (cs.length + 1) cs
    let table ← tableOf as
    return (table, rest)

/-- A value in which lists and tables nest so deep. -/
def value : Nat → Reader Document
  | 0, cs => scalar cs
  | depth + 1, cs =>
    match cs with
    | '[' :: cs => (items (value depth) (cs.length + 1) cs).map fun (vs, rest) => (.list vs, rest)
    | '\x7b' :: cs => tableInLine (value depth) cs
    | cs => scalar cs

end GrantPath.Toml
