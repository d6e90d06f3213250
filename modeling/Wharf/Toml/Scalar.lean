import Wharf.Toml.Lexeme
import Wharf.Toml.Moment
import Wharf.Tree

/-!
# Plain values

Values without quotes and brackets: truth values, integers, numbers, dates and times. Integers may
be of any size, and a number past the largest finite one is kept as such (`Tree.huge`).

* `scalar?` reads the word of one.
* `scalar` cuts the word off a text.
-/

namespace Wharf.Toml

/-- The digits of a text in which single underscores stand between digits. -/
def grouped (isDigit : Char → Bool) : List Char → Option (List Char)
  | [] => none
  | [c] => if isDigit c then some [c] else none
  | c :: '_' :: rest =>
    if isDigit c then (grouped isDigit rest).map (c :: ·) else none
  | c :: rest => if isDigit c then (grouped isDigit rest).map (c :: ·) else none

/-- Decimal digits without a zero in front. -/
def wholeDigits? (cs : List Char) : Option (List Char) :=
  (grouped Char.isDigit cs).bind fun digits =>
    match digits with
    | '0' :: _ :: _ => none
    | digits => some digits

/-- A sign, and the text behind it. -/
def signed : List Char → Bool × List Char
  | '-' :: rest => (true, rest)
  | '+' :: rest => (false, rest)
  | cs => (false, cs)

/-- The value of digits to a base. -/
def inBase (base : Nat) (digits : List Char) : Nat :=
  digits.foldl (fun n c => n * base + (hexValue? c).getD 0) 0

/-- Whether a character is a digit to a base. -/
def isDigitIn (base : Nat) (c : Char) : Bool :=
  match hexValue? c with
  | some d => decide (d < base)
  | none => false

/-- An integer to a base, behind the mark of the base. -/
def basedInteger? (base : Nat) (cs : List Char) : Option Tree :=
  (grouped (isDigitIn base) cs).map fun digits => .integer (Int.ofNat (inBase base digits))

/-- An integer. -/
def integer? : List Char → Option Tree
  | '0' :: 'x' :: rest => basedInteger? 16 rest
  | '0' :: 'o' :: rest => basedInteger? 8 rest
  | '0' :: 'b' :: rest => basedInteger? 2 rest
  | cs =>
    let (negative, magnitude) := signed cs
    (wholeDigits? magnitude).map fun digits =>
      let n := Int.ofNat (decimal digits)
      .integer (if negative then -n else n)

/-- The number nearest to a decimal, if it is finite. -/
def nearest (negative : Bool) (digits : List Char) (exponent : Int) : Tree :=
  let x := Binary64.ofDecimal negative (decimal digits) exponent
  if x.isFinite then .number x else .huge

/-- The exponent of a number. -/
def exponent? (cs : List Char) : Option Int :=
  let (negative, magnitude) := signed cs
  (grouped Char.isDigit magnitude).map fun digits =>
    let n := Int.ofNat (decimal digits)
    if negative then -n else n

/-- Whether a character marks an exponent. -/
def marksExponent (c : Char) : Bool := c == 'e' || c == 'E'

/-- A number with a fraction, an exponent, or both. -/
def decimalNumber? (negative : Bool) (cs : List Char) : Option Tree := do
  let mantissa := cs.takeWhile fun c => !marksExponent c
  let exponent ← match cs.dropWhile fun c => !marksExponent c with
    | [] => some 0
    | _ :: rest => exponent? rest
  let whole ← wholeDigits? (mantissa.takeWhile (· != '.'))
  match mantissa.dropWhile (· != '.') with
  | [] => if mantissa = cs then none else some (nearest negative whole exponent)
  | _ :: rest =>
    let fraction ← grouped Char.isDigit rest
    some (nearest negative (whole ++ fraction) (exponent - Int.ofNat fraction.length))

/-- A number that is no integer. -/
def number? (cs : List Char) : Option Tree :=
  let (negative, magnitude) := signed cs
  if magnitude = ['i', 'n', 'f'] then some (.number (.infinity negative))
  else if magnitude = ['n', 'a', 'n'] then some (.number .nan)
  else decimalNumber? negative magnitude

/-- The value of a word. -/
def scalar? (cs : List Char) : Option Tree :=
  if cs = ['t', 'r', 'u', 'e'] then some (.flag true)
  else if cs = ['f', 'a', 'l', 's', 'e'] then some (.flag false)
  else if isMoment cs then some (.moment (String.ofList cs))
  else (integer? cs).or (number? cs)

/-- A character of a word. -/
def isWord (c : Char) : Bool := isBare c || c == '+' || c == '.' || c == ':'

/-- Cuts off the word of a value. A date may have its time behind a blank. -/
def scalar (cs : List Char) : Option (Tree × List Char) :=
  let word := cs.takeWhile isWord
  let rest := cs.dropWhile isWord
  match date word, rest with
  | some [], ' ' :: c :: more =>
    if c.isDigit then
      let time := (c :: more).takeWhile isWord
      (scalar? (word ++ ' ' :: time)).map fun t => (t, (c :: more).dropWhile isWord)
    else (scalar? word).map fun t => (t, rest)
  | _, _ => (scalar? word).map fun t => (t, rest)

end Wharf.Toml
