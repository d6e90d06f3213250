import Wharf.Tree

/-!
# Tables under construction

Tables of a document grow line by line, and how one came to be decides what may still be added to
it: a table with a header is opened once, one that dotted keys made is not opened at all, and lists
of tables grow by headers in double brackets.

* `Level.assign` sets a dotted key.
* `Level.openTable` and `Level.openElement` follow a header.
* `Level.tree` is the finished table.
-/

namespace Wharf.Toml

/-- How a table came to be. -/
inductive Origin
  /-- It has a header of its own. -/
  | header
  /-- A header of a table below it named it. -/
  | implied
  /-- A dotted key made it. -/
  | dotted
  deriving DecidableEq

/-- What stands at a key. -/
inductive Node
  /-- A finished value. -/
  | leaf (value : Tree)
  /-- A table that may still grow. -/
  | table (origin : Origin) (fields : List (String × Node))
  /-- The tables of a list, the latest first. -/
  | tables (elements : List (List (String × Node)))

/-- The keys of a table under construction. -/
abbrev Level := List (String × Node)

namespace Level

/-- Puts something else at a key that is there. -/
def replace (level : Level) (key : String) (node : Node) : Level :=
  level.map fun field => if field.1 = key then (key, node) else field

/-- Puts something at a new key. -/
def append (level : Level) (key : String) (node : Node) : Level := level ++ [(key, node)]

/-- Changes the table that a header leads to. Tables on the way are made as needed; of a list of
tables the latest is meant. -/
def under (change : Level → Option Level) (level : Level) : List String → Option Level
  | [] => change level
  | key :: path =>
    match level.lookup key with
    | none =>
      (under change ([] : Level) path).map fun fields => level.append key (.table .implied fields)
    | some (.table origin fields) =>
      (under change fields path).map fun fields => level.replace key (.table origin fields)
    | some (.tables (latest :: others)) =>
      (under change latest path).map fun fields => level.replace key (.tables (fields :: others))
    | some (.tables []) => none
    | some (.leaf _) => none

/-- Opens the table of a header: a new one, or one that was only implied so far. -/
def openTable (key : String) (level : Level) : Option Level :=
  match level.lookup key with
  | none => some (level.append key (.table .header []))
  | some (.table .implied fields) => some (level.replace key (.table .header fields))
  | some _ => none

/-- Opens the next table of a list. -/
def openElement (key : String) (level : Level) : Option Level :=
  match level.lookup key with
  | none => some (level.append key (.tables [[]]))
  | some (.tables elements) => some (level.replace key (.tables ([] :: elements)))
  | some _ => none

/-- Sets a dotted key that has no value yet. Tables with a header of their own are not reached by
dotted keys. Tables that a header implied and the latest table of a list are passed through, but get
no keys themselves that way. -/
def assign (value : Tree) (level : Level) : List String → Option Level
  | [] => none
  | [key] =>
    match level.lookup key with
    | none => some (level.append key (.leaf value))
    | some _ => none
  | key :: next :: path =>
    match level.lookup key with
    | none =>
      (assign value ([] : Level) (next :: path)).map fun fields =>
        level.append key (.table .dotted fields)
    | some (.table .dotted fields) =>
      (assign value fields (next :: path)).map fun fields =>
        level.replace key (.table .dotted fields)
    | some (.table .implied fields) =>
      if path.isEmpty then none
      else (assign value fields (next :: path)).map fun fields =>
        level.replace key (.table .implied fields)
    | some (.tables (latest :: others)) =>
      if path.isEmpty then none
      else (assign value latest (next :: path)).map fun fields =>
        level.replace key (.tables (fields :: others))
    | some _ => none

end Level

mutual

/-- What stands at a key, finished. -/
def Node.tree : Node → Tree
  | .leaf value => value
  | .table _ fields => .table (Node.fieldTrees fields)
  | .tables elements => .list (Node.elementTrees elements)

/-- The fields of a table, finished. -/
def Node.fieldTrees : List (String × Node) → List (String × Tree)
  | [] => []
  | (key, node) :: rest => (key, node.tree) :: Node.fieldTrees rest

/-- The tables of a list in the order of the document, finished. -/
def Node.elementTrees : List (List (String × Node)) → List Tree
  | [] => []
  | fields :: earlier => Node.elementTrees earlier ++ [.table (Node.fieldTrees fields)]

end

/-- The table, finished. -/
def Level.tree (level : Level) : Tree := .table (Node.fieldTrees level)

end Wharf.Toml
