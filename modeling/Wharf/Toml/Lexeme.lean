/-!
# Characters, blanks, keys and strings

The smallest pieces of a TOML document. A reader takes the rest of the text and answers what it
read with what follows, or nothing where the text is no document.

* `blanks`, `lineEnd` and `filler` pass over what carries no meaning.
* `basicString`, `literalString` and their forms over several lines read strings.
* `keyPath` reads a dotted key.
-/

namespace Wharf.Toml

/-- Reads the beginning of a text. -/
abbrev Reader (α : Type) := List Char → Option (α × List Char)

/-! ## Characters -/

/-- A blank inside a line. -/
def isBlank (c : Char) : Bool := c == ' ' || c == '\t'

/-- A character that may stand in comments and strings: no control character but the tab. -/
def isPlain (c : Char) : Bool := c == '\t' || (0x20 ≤ c.toNat && c.toNat != 0x7f)

/-- A character of a key without quotes. -/
def isBare (c : Char) : Bool := c.isAlphanum || c == '_' || c == '-'

/-- The value of a hexadecimal digit. -/
def hexValue? (c : Char) : Option Nat :=
  if c.isDigit then some (c.toNat - 48)
  else if 'a' ≤ c && c ≤ 'f' then some (c.toNat - 87)
  else if 'A' ≤ c && c ≤ 'F' then some (c.toNat - 55)
  else none

/-- The character of a hexadecimal code point; surrogates are none. -/
def hexChar? (digits : List Char) : Option Char :=
  (digits.foldlM (fun n c => (hexValue? c).map fun d => n * 16 + d) 0).bind fun n =>
    if n.isValidChar then some (Char.ofNat n) else none

/-! ## Blanks, comments and line ends -/

/-- The text behind the blanks. -/
def blanks (cs : List Char) : List Char := cs.dropWhile isBlank

/-- The text behind one line break. -/
def lineBreak : List Char → Option (List Char)
  | '\n' :: rest => some rest
  | '\r' :: '\n' :: rest => some rest
  | _ => none

/-- The text behind a comment, up to the line break. -/
def comment : List Char → Option (List Char)
  | [] => some []
  | '\n' :: rest => some ('\n' :: rest)
  | '\r' :: '\n' :: rest => some ('\r' :: '\n' :: rest)
  | c :: rest => if isPlain c then comment rest else none

/-- The text behind a comment, if there is one here. -/
def commentHere : List Char → Option (List Char)
  | '#' :: rest => comment rest
  | cs => some cs

/-- The text behind the end of a line: blanks, perhaps a comment, and a break or the end. -/
def lineEnd (cs : List Char) : Option (List Char) :=
  (commentHere (blanks cs)).bind fun rest =>
    match rest with
    | [] => some []
    | rest => lineBreak rest

/-- The text behind blanks, comments and line breaks. -/
def filler : Nat → List Char → Option (List Char)
  | 0, _ => none
  | fuel + 1, cs =>
    (commentHere (blanks cs)).bind fun rest =>
      match lineBreak rest with
      | some more => filler fuel more
      | none => some rest

/-! ## Strings -/

/-- Puts characters in front of a string that was read. -/
def before (cs : List Char) (read : Option (List Char × List Char)) :
    Option (List Char × List Char) :=
  read.map fun r => (cs ++ r.1, r.2)

/-- The character of a short escape. -/
def escaped? : Char → Option Char
  | 'b' => some '\x08'
  | 't' => some '\t'
  | 'n' => some '\n'
  | 'f' => some '\x0c'
  | 'r' => some '\r'
  | 'e' => some '\x1b'
  | '\x22' => some '\x22'
  | '\x5c' => some '\x5c'
  | _ => none

/-- A string in double quotes, behind the first quote. -/
def basicString : Reader (List Char)
  | [] => none
  | '\x22' :: rest => some ([], rest)
  | '\x5c' :: 'x' :: a :: b :: rest =>
    (hexChar? [a, b]).bind fun c => before [c] (basicString rest)
  | '\x5c' :: 'u' :: a :: b :: c :: d :: rest =>
    (hexChar? [a, b, c, d]).bind fun c => before [c] (basicString rest)
  | '\x5c' :: 'U' :: a :: b :: c :: d :: e :: f :: g :: h :: rest =>
    (hexChar? [a, b, c, d, e, f, g, h]).bind fun c => before [c] (basicString rest)
  | '\x5c' :: e :: rest => (escaped? e).bind fun c => before [c] (basicString rest)
  | c :: rest => if isPlain c && c != '\x5c' then before [c] (basicString rest) else none

/-- A string in single quotes, behind the first quote. -/
def literalString : Reader (List Char)
  | [] => none
  | '\x27' :: rest => some ([], rest)
  | c :: rest => if isPlain c then before [c] (literalString rest) else none

/-- The quotes at the beginning of a text. -/
def quotes (quote : Char) (cs : List Char) : Nat := (cs.takeWhile (· == quote)).length

/-- The end of a string over several lines: three quotes, with up to two more in front of them
that belong to the string. -/
def closing (quote : Char) (cs : List Char) : Option (List Char × List Char) :=
  let run := min (quotes quote cs) 5
  if run < 3 then none else some (List.replicate (run - 3) quote, cs.drop run)

/-- A string over several lines in triple double quotes, behind the quotes. A backslash at the end
of a line takes the break and all blanks and breaks behind it away: `trimming` holds until the next
other character. -/
def multilineString (trimming : Bool) : Reader (List Char)
  | [] => none
  | '\x22' :: rest =>
    match closing '\x22' ('\x22' :: rest) with
    | some done => some done
    | none => before ['\x22'] (multilineString false rest)
  | '\n' :: rest =>
    if trimming then multilineString true rest else before ['\n'] (multilineString false rest)
  | '\r' :: '\n' :: rest =>
    if trimming then multilineString true rest
    else before ['\r', '\n'] (multilineString false rest)
  | '\x5c' :: 'x' :: a :: b :: rest =>
    (hexChar? [a, b]).bind fun c => before [c] (multilineString false rest)
  | '\x5c' :: 'u' :: a :: b :: c :: d :: rest =>
    (hexChar? [a, b, c, d]).bind fun c => before [c] (multilineString false rest)
  | '\x5c' :: 'U' :: a :: b :: c :: d :: e :: f :: g :: h :: rest =>
    (hexChar? [a, b, c, d, e, f, g, h]).bind fun c => before [c] (multilineString false rest)
  | '\x5c' :: e :: rest =>
    if isBlank e || e == '\n' || e == '\r' then
      if (lineBreak (blanks (e :: rest))).isSome then multilineString true (e :: rest) else none
    else (escaped? e).bind fun c => before [c] (multilineString false rest)
  | c :: rest =>
    if trimming && isBlank c then multilineString true rest
    else if isPlain c && c != '\x5c' then before [c] (multilineString false rest)
    else none

/-- A string over several lines in triple single quotes, behind the quotes. -/
def multilineLiteral : Reader (List Char)
  | [] => none
  | '\x27' :: rest =>
    match closing '\x27' ('\x27' :: rest) with
    | some done => some done
    | none => before ['\x27'] (multilineLiteral rest)
  | '\n' :: rest => before ['\n'] (multilineLiteral rest)
  | '\r' :: '\n' :: rest => before ['\r', '\n'] (multilineLiteral rest)
  | c :: rest => if isPlain c then before [c] (multilineLiteral rest) else none

/-- The text behind a line break, if there is one here. -/
def afterBreak (cs : List Char) : List Char := (lineBreak cs).getD cs

/-- A string of any of the four forms. -/
def string? : Reader String
  | '\x22' :: '\x22' :: '\x22' :: rest =>
    (multilineString false (afterBreak rest)).map fun r => (String.ofList r.1, r.2)
  | '\x22' :: rest => (basicString rest).map fun r => (String.ofList r.1, r.2)
  | '\x27' :: '\x27' :: '\x27' :: rest =>
    (multilineLiteral (afterBreak rest)).map fun r => (String.ofList r.1, r.2)
  | '\x27' :: rest => (literalString rest).map fun r => (String.ofList r.1, r.2)
  | _ => none

/-! ## Keys -/

/-- One key: bare, or a string in one line. -/
def key : Reader String
  | '\x22' :: rest => (basicString rest).map fun r => (String.ofList r.1, r.2)
  | '\x27' :: rest => (literalString rest).map fun r => (String.ofList r.1, r.2)
  | cs =>
    let bare := cs.takeWhile isBare
    if bare.isEmpty then none else some (String.ofList bare, cs.dropWhile isBare)

/-- The parts of a dotted key, which are so many at most, with blanks around them. -/
def keyParts : Nat → Reader (List String)
  | 0, _ => none
  | most + 1, cs =>
    (key (blanks cs)).bind fun (first, rest) =>
      match blanks rest with
      | '.' :: more => (keyParts most more).map fun (path, rest) => (first :: path, rest)
      | rest => some ([first], rest)

/-- How many parts a dotted key may have. -/
def longestKey : Nat := 80

/-- A dotted key. -/
def keyPath : Reader (List String) := keyParts longestKey

end Wharf.Toml
