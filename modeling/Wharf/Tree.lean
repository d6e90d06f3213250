import Wharf.Numeric.Binary64

/-!
# Document trees

What a configuration file says, before anything is expected of it: nested lists and tables of plain
values. The readers `Tree.text?`, `Tree.word?` and so on answer when a tree has the shape that is
asked for.

Numbers are kept however large they are, and whoever passes over a part of a document says by
`Tree.fits` how large they may be.
-/

namespace Wharf

/-- A document, or a part of one. -/
inductive Tree
  /-- Nothing. -/
  | null
  | flag (value : Bool)
  | integer (value : Int)
  | number (value : Binary64)
  /-- A number that is too large for the binary format. -/
  | huge
  | text (value : String)
  /-- A date, a time, or both, as written. -/
  | moment (value : String)
  | list (items : List Tree)
  | table (fields : List (String × Tree))
  deriving Inhabited

namespace Tree

/-- A text. -/
def text? : Tree → Option String
  | text value => some value
  | _ => none

/-- A text, or nothing. -/
def optionalText? : Tree → Option (Option String)
  | text value => some (some value)
  | null => some none
  | _ => none

/-- A natural number of 32 bits. -/
def word? : Tree → Option UInt32
  | integer (.ofNat n) => if n < 1 <<< 32 then some (UInt32.ofNat n) else none
  | _ => none

/-- A number; an integer is taken for the nearest one. -/
def number? : Tree → Option Binary64
  | number value => some value
  | integer value => some (.ofInt value)
  | _ => none

/-- A list. -/
def list? : Tree → Option (List Tree)
  | list items => some items
  | _ => none

/-- A table. -/
def table? : Tree → Option (List (String × Tree))
  | table fields => some fields
  | _ => none

/-- A list whose items can all be read. -/
def listOf? {α : Type} (read : Tree → Option α) (t : Tree) : Option (List α) :=
  t.list?.bind fun items => items.mapM read

/-- A list of texts. -/
def texts? (t : Tree) : Option (List String) := t.listOf? text?

/-- A table of numbers. -/
def numbers? (t : Tree) : Option (List (String × Binary64)) :=
  t.table?.bind fun fields => fields.mapM fun field => field.2.number?.map fun x => (field.1, x)

end Tree

/-! ## Ranges of integers -/

/-- A range of integers without its upper end. -/
structure IntegerRange where
  lower : Int
  upper : Int

namespace IntegerRange

/-- Whether an integer is in the range. -/
def has (range : IntegerRange) (i : Int) : Bool :=
  decide (range.lower ≤ i) && decide (i < range.upper)

/-- Words of 64 bits with a sign. -/
def signed64 : IntegerRange := ⟨-(1 <<< 63), 1 <<< 63⟩

/-- Words of 64 bits, with a sign or without one. -/
def word64 : IntegerRange := ⟨-(1 <<< 63), 1 <<< 64⟩

/-- Words of 128 bits, with a sign or without one. -/
def word128 : IntegerRange := ⟨-(1 <<< 127), 1 <<< 128⟩

end IntegerRange

mutual

/-- Whether no number in a tree is too large and all integers are in the range. -/
def Tree.fits (range : IntegerRange) : Tree → Bool
  | .integer value => range.has value
  | .huge => false
  | .list items => Tree.allFit range items
  | .table fields => Tree.fieldsFit range fields
  | _ => true

/-- Whether this holds of every item of a list. -/
def Tree.allFit (range : IntegerRange) : List Tree → Bool
  | [] => true
  | t :: rest => t.fits range && Tree.allFit range rest

/-- Whether this holds of every field of a table. -/
def Tree.fieldsFit (range : IntegerRange) : List (String × Tree) → Bool
  | [] => true
  | (_, t) :: rest => t.fits range && Tree.fieldsFit range rest

end

/-! ## Dialects -/

/-- What differs between the languages that a document may have been written in. -/
structure Dialect where
  /-- Whether a list that stands for fields may have items behind the last of them. -/
  surplus : Bool
  /-- Whether a kind that stands among other fields may be given by its number. -/
  numberedKinds : Bool
  deriving DecidableEq

namespace Dialect

/-- The language of configuration files. -/
def toml : Dialect := ⟨true, false⟩

/-- The language of messages. -/
def json : Dialect := ⟨false, true⟩

end Dialect

/-! ## Fields -/

/-- The fields of a table. -/
abbrev Fields := List (String × Tree)

namespace Fields

/-- A field that has to be there. -/
def required {α : Type} (fields : Fields) (name : String) (read : Tree → Option α) : Option α :=
  (fields.lookup name).bind read

/-- A field that may be left out. -/
def optional {α : Type} (fields : Fields) (name : String) (read : Tree → Option α) (absent : α) :
    Option α :=
  match fields.lookup name with
  | some t => read t
  | none => some absent

/-- Names the items of a list by the fields that come in this order. Items behind the last field
are passed over unread, if there may be any. -/
def ofPositions (surplus : Bool) (names : List String) (items : List Tree) : Option Fields :=
  if surplus || decide (items.length ≤ names.length) then some (names.zip items) else none

/-- Whether the numbers in all fields fit, but for the named ones. -/
def othersFit (fields : Fields) (names : List String) (range : IntegerRange) : Bool :=
  fields.all fun field => names.contains field.1 || field.2.fits range

end Fields

/-- The fields of a tree that has these fields: those of a table, of which others are passed over
as long as their numbers fit 128 bits, or the items of a list. -/
def Tree.fieldsOf? (dialect : Dialect) (names : List String) : Tree → Option Fields
  | .list items => Fields.ofPositions dialect.surplus names items
  | .table fields => if Fields.othersFit fields names .word128 then some fields else none
  | _ => none

end Wharf
