/-!
# JSON output

Values as JSON text over several lines.

* `Json.quoted` writes a text between quotes.
* `Json.pretty` writes a value: two blanks for each level, every item and field on a line of its
  own, and empty lists and objects closed at once.
-/

namespace Wharf.Text

/-- A value to be written. -/
inductive Json
  | number (value : Nat)
  | text (value : String)
  | list (items : List Json)
  /-- The fields are written in the order given. -/
  | object (fields : List (String × Json))

namespace Json

/-- The digit of a number below sixteen. -/
def hexDigit (n : Nat) : Char := "0123456789abcdef".toList.getD n '0'

/-- How a character is written between quotes. -/
def escaped (c : Char) : List Char :=
  if c = '\x22' then ['\\', '\x22']
  else if c = '\\' then ['\\', '\\']
  else if c = '\x08' then ['\\', 'b']
  else if c = '\x0c' then ['\\', 'f']
  else if c = '\n' then ['\\', 'n']
  else if c = '\r' then ['\\', 'r']
  else if c = '\t' then ['\\', 't']
  else if c.toNat < 0x20 then
    ['\\', 'u', '0', '0', hexDigit (c.toNat / 16), hexDigit (c.toNat % 16)]
  else [c]

/-- A text between quotes. -/
def quoted (text : String) : String :=
  String.ofList ('\x22' :: text.toList.flatMap escaped ++ ['\x22'])

/-- So many levels of blanks. -/
def blanks (level : Nat) : String := String.ofList (List.replicate (2 * level) ' ')

/-- Lines with commas behind all but the last. -/
def lines : List String → String
  | [] => ""
  | [line] => line ++ "\n"
  | line :: rest => line ++ ",\n" ++ lines rest

/-- What stands between two brackets, one line for each piece. -/
def bracketed (left right : String) (level : Nat) (pieces : List String) : String :=
  if pieces.isEmpty then left ++ right
  else left ++ "\n" ++ lines (pieces.map fun piece => blanks (level + 1) ++ piece)
    ++ blanks level ++ right

mutual

/-- A value whose first line stands at a level. -/
def prettyAt (level : Nat) : Json → String
  | number value => toString value
  | text value => quoted value
  | list items => bracketed "[" "]" level (prettyItems (level + 1) items)
  | object fields => bracketed "\x7b" "\x7d" level (prettyFields (level + 1) fields)

/-- The items of a list. -/
def prettyItems (level : Nat) : List Json → List String
  | [] => []
  | item :: rest => prettyAt level item :: prettyItems level rest

/-- The fields of an object. -/
def prettyFields (level : Nat) : List (String × Json) → List String
  | [] => []
  | (name, value) :: rest =>
    (quoted name ++ ": " ++ prettyAt level value) :: prettyFields level rest

end

/-- A value over several lines. -/
def pretty (value : Json) : String := prettyAt 0 value

end Json

end Wharf.Text
