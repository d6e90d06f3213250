import Wharf.Toml.Level
import Wharf.Toml.Scalar

/-!
# TOML documents

A document is a list of lines: keys with values, and headers that say which table the following
keys belong to.

* `value` reads a value of any kind, lists and inline tables included.
* `parse?` reads a whole document, none when the text is no document.

Every call of the mutually recursive readers takes a unit of fuel, and none is made without a
character read since the last two; `parse?` gives two units for every character. Lists and inline
tables may stand in each other up to a depth of `deepest`.
-/

namespace Wharf.Toml

/-! ## Values -/

/-- How deep lists and inline tables may stand in each other. -/
def deepest : Nat := 80

mutual

/-- A value with lists and tables to a depth. -/
def value : Nat → Nat → Reader Tree
  | 0, _, _ => none
  | fuel + 1, depth, cs =>
    match depth, cs with
    | 0, '[' :: _ => none
    | depth + 1, '[' :: rest => (items fuel depth rest).map fun r => (.list r.1, r.2)
    | 0, '\x7b' :: _ => none
    | depth + 1, '\x7b' :: rest => inlineFields fuel depth [] rest
    | _, '\x22' :: _ => (string? cs).map fun r => (.text r.1, r.2)
    | _, '\x27' :: _ => (string? cs).map fun r => (.text r.1, r.2)
    | _, cs => scalar cs

/-- The items of a list up to its bracket. -/
def items : Nat → Nat → Reader (List Tree)
  | 0, _, _ => none
  | fuel + 1, depth, cs =>
    match filler (cs.length + 1) cs with
    | none => none
    | some (']' :: rest) => some ([], rest)
    | some cs =>
      match value fuel depth cs with
      | none => none
      | some (item, rest) =>
        match filler (rest.length + 1) rest with
        | some (']' :: rest) => some ([item], rest)
        | some (',' :: rest) => (items fuel depth rest).map fun r => (item :: r.1, r.2)
        | _ => none

/-- The fields of an inline table up to its brace, behind those read so far. Lines may end anywhere
between them but inside of a key. -/
def inlineFields : Nat → Nat → Level → Reader Tree
  | 0, _, _, _ => none
  | fuel + 1, depth, level, cs =>
    match filler (cs.length + 1) cs with
    | none => none
    | some ('\x7d' :: rest) => some (level.tree, rest)
    | some cs =>
      match keyPath cs with
      | none => none
      | some (path, rest) =>
        match filler (rest.length + 1) rest with
        | some ('=' :: rest) =>
          match (filler (rest.length + 1) rest).bind (value fuel depth) with
          | none => none
          | some (t, rest) =>
            match level.assign t path, filler (rest.length + 1) rest with
            | some level, some ('\x7d' :: rest) => some (level.tree, rest)
            | some level, some (',' :: rest) => inlineFields fuel depth level rest
            | _, _ => none
        | _ => none

end

/-! ## Lines -/

/-- The document so far, and the table that keys go to. -/
structure Draft where
  root : Level
  current : List String

/-- Follows a header in double brackets, behind them. -/
def elementHeader (d : Draft) (cs : List Char) : Option (Draft × List Char) :=
  match keyPath cs with
  | some (path, ']' :: ']' :: rest) =>
    path.getLast?.bind fun key =>
      (d.root.under (Level.openElement key) path.dropLast).map fun root => (⟨root, path⟩, rest)
  | _ => none

/-- Follows a header in brackets, behind the first one. -/
def tableHeader (d : Draft) (cs : List Char) : Option (Draft × List Char) :=
  match keyPath cs with
  | some (path, ']' :: rest) =>
    path.getLast?.bind fun key =>
      (d.root.under (Level.openTable key) path.dropLast).map fun root => (⟨root, path⟩, rest)
  | _ => none

/-- Sets a key. -/
def assignment (d : Draft) (cs : List Char) : Option (Draft × List Char) :=
  match keyPath cs with
  | some (path, '=' :: rest) =>
    (value (2 * rest.length + 2) deepest (blanks rest)).bind fun (t, rest) =>
      (d.root.under (fun level => level.assign t path) d.current).map fun root =>
        (⟨root, d.current⟩, rest)
  | _ => none

/-- What a line says, if it is not empty. -/
def statement (d : Draft) : List Char → Option (Draft × List Char)
  | '[' :: '[' :: rest => elementHeader d rest
  | '[' :: rest => tableHeader d rest
  | cs => assignment d cs

/-- The document of all lines. -/
def lines : Nat → Draft → List Char → Option Draft
  | 0, _, _ => none
  | fuel + 1, d, cs =>
    match filler (cs.length + 1) cs with
    | none => none
    | some [] => some d
    | some cs =>
      match statement d cs with
      | none => none
      | some (d, rest) =>
        match lineEnd rest with
        | none => none
        | some rest => lines fuel d rest

/-- The text behind a mark of the byte order. -/
def withoutMark : List Char → List Char
  | '\ufeff' :: rest => rest
  | cs => cs

/-- Reads a document. -/
def parse? (text : String) : Option Tree :=
  let cs := withoutMark text.toList
  (lines (cs.length + 1) ⟨[], []⟩ cs).map fun d => d.root.tree

end Wharf.Toml
