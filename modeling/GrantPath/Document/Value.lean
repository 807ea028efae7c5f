/-! # Documents

A document is what a structured text says once its notation is out of the way: truth values,
numbers, texts, lists, and tables of named fields. Configurations, listings and records are
read from documents and written as documents, whatever notation they come in.

A reader of a type takes the document apart and says nothing but whether it fits. Fields that
a reader does not ask for are ignored.
-/

namespace GrantPath

/-- A structured value. -/
inductive Document where
  | null
  | bool (b : Bool)
  | integer (n : Int)
  /-- A number with a fraction or an exponent, as it was written. -/
  | real (literal : String)
  | text (s : String)
  /-- A date or a time that stands by itself, as it was written. -/
  | moment (literal : String)
  | list (items : List Document)
  | table (fields : List (String × Document))
deriving Inhabited

namespace Document

/-- Reads a value of a type. -/
abbrev Reader (α : Type) := Document → Option α

/-- Named fields. -/
abbrev Fields := List (String × Document)

/-! ### Values -/

def readBool : Reader Bool
  | bool b => some b
  | _ => none

def readText : Reader String
  | text s => some s
  | _ => none

/-- Natural numbers of at most 64 bits. -/
def readNat : Reader Nat
  | integer n => if 0 ≤ n ∧ n.toNat < Nat.pow 2 64 then some n.toNat else none
  | _ => none

/-- Reads every item of a list. -/
def readList {α : Type} (item : Reader α) : Reader (List α)
  | list items => items.mapM item
  | _ => none

/-- A text that has to stand for something. -/
def readWord {α : Type} (ofText? : String → Option α) : Reader α := fun d =>
  d.readText.bind ofText?

/-! ### Fields -/

/-- The fields of a table. A moment counts as a table without any known field. -/
def fields? : Document → Option Fields
  | table fields => some fields
  | moment _ => some []
  | _ => none

/-- A field that has to be there. -/
def Fields.required {α : Type} (fields : Fields) (name : String) (value : Reader α) : Option α :=
  (fields.lookup name).bind value

/-- A field that may be missing, in which case it has a default. -/
def Fields.defaulted {α : Type} (fields : Fields) (name : String) (value : Reader α)
    (default : α) : Option α :=
  match fields.lookup name with
  | none => some default
  | some d => value d

/-- A field that may be missing or empty. -/
def Fields.optional {α : Type} (fields : Fields) (name : String) (value : Reader α) :
    Option (Option α) :=
  match fields.lookup name with
  | none | some .null => some none
  | some d => (value d).map some

/-- A natural number as a document. -/
def ofNat (n : Nat) : Document :=
  integer n

end Document

end GrantPath
