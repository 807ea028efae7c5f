import GrantPath.Document.Value

/-! # Putting tables together

The lines of a TOML text name places in a tree of tables: a header opens a table or adds a row
to a list of tables, and an assignment puts a value at a path below the open table. What
may be reopened depends on how a table came about (`Origin`): a header may open a table that
was only passed through so far, and a path of keys may run through tables that were not opened
by a header. Anything else would define a table twice and is refused.
-/

namespace GrantPath.Toml

/-- How a table came about. -/
inductive Origin where
  /-- A header passed through it. -/
  | implied
  /-- The path of an assignment passed through it. -/
  | dotted
  /-- A header opened it. -/
  | opened
deriving DecidableEq, Repr

/-- A tree of tables. The rows of a list of tables are kept latest first. -/
inductive Tree where
  | leaf (value : Document)
  | table (origin : Origin) (children : List (String × Tree))
  | rows (rows : List (List (String × Tree)))

/-- The children of a table. -/
abbrev Branch := List (String × Tree)

/-- The child under a key. -/
def Branch.get? (b : Branch) (key : String) : Option Tree :=
  b.lookup key

/-- Puts a child under a key, in place of the one that is there. -/
def Branch.set (b : Branch) (key : String) (child : Tree) : Branch :=
  match b with
  | [] => [(key, child)]
  | (k, t) :: b => if k = key then (k, child) :: b else (k, t) :: Branch.set b key child

/-- What may be on the way to a table. -/
inductive Approach where
  | header
  | assignment
deriving DecidableEq, Repr

/-- Whether a table of an origin may be passed through. -/
def Approach.admits (a : Approach) (o : Origin) : Bool :=
  match a with
  | header => true
  | assignment => o != .opened

/-- How a table comes about that is passed through first. -/
def Approach.origin : Approach → Origin
  | header => .implied
  | assignment => .dotted

/-- Changes the table at the end of a path, knowing its origin; tables that are missing on the
way come about. -/
def changeAt (a : Approach) (change : Origin → Branch → Option Branch) :
    List String → Origin → Branch → Option Branch
  | [], origin, b => change origin b
  | key :: path, _, b =>
    match b.get? key with
    | none => (changeAt a change path a.origin []).map fun c => b.set key (.table a.origin c)
    | some (.leaf _) | some (.rows []) => none
    | some (.rows (row :: rows)) =>
      (changeAt a change path .opened row).map fun row => b.set key (.rows (row :: rows))
    | some (.table origin c) =>
      if a.admits origin then
        (changeAt a change path origin c).map fun c => b.set key (.table origin c)
      else none

/-- A line that means something. -/
inductive Statement where
  /-- Opens a table. -/
  | table (path : List String) (key : String)
  /-- Adds a row to a list of tables and opens it. -/
  | row (path : List String) (key : String)
  /-- Puts a value at a path below the open table. -/
  | assign (path : List String) (key : String) (value : Document)

/-- Puts a value at a path below a table. -/
def assign (path : List String) (key : String) (value : Document) (b : Branch) : Option Branch :=
  let put (origin : Origin) (b : Branch) : Option Branch :=
    if path != [] && origin != .dotted then none
    else
      match b.get? key with
      | some _ => none
      | none => some (b.set key (.leaf value))
  changeAt .assignment put path .opened b

/-- Opens a table below another one. -/
def openTable (key : String) (b : Branch) : Option Branch :=
  match b.get? key with
  | none => some (b.set key (.table .opened []))
  | some (.table .implied c) => some (b.set key (.table .opened c))
  | some _ => none

/-- Adds a row to a list of tables below another table. -/
def openRow (key : String) (b : Branch) : Option Branch :=
  match b.get? key with
  | none => some (b.set key (.rows [[]]))
  | some (.rows rows) => some (b.set key (.rows ([] :: rows)))
  | some _ => none

/-- Follows statements from a tree with a table open in it. -/
def build : List Statement → List String → Branch → Option Branch
  | [], _, root => some root
  | .table path key :: rest, _, root => do
    let root ← changeAt .header (fun _ => openTable key) path .opened root
    build rest (path ++ [key]) root
  | .row path key :: rest, _, root => do
    let root ← changeAt .header (fun _ => openRow key) path .opened root
    build rest (path ++ [key]) root
  | .assign path key value :: rest, here, root => do
    let root ← changeAt .header (fun _ => assign path key value) here .opened root
    build rest here root

mutual

/-- The tree as a document. -/
def Tree.toDocument : Tree → Document
  | .leaf value => value
  | .table _ children => .table (fieldsOf children)
  | .rows rows => .list (listOf rows).reverse

/-- The children of a table as fields. -/
def fieldsOf : List (String × Tree) → List (String × Document)
  | [] => []
  | (key, child) :: rest => (key, child.toDocument) :: fieldsOf rest

/-- Rows as tables. -/
def listOf : List (List (String × Tree)) → List Document
  | [] => []
  | row :: rest => .table (fieldsOf row) :: listOf rest

end

/-- The table that assignments make by themselves. -/
def tableOf (assignments : List (List String × String × Document)) : Option Document :=
  (assignments.foldlM (fun b (path, key, value) => assign path key value b) []).map fun b =>
    .table (fieldsOf b)

end GrantPath.Toml
