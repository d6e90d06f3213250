/-!
# Dates and times

`isMoment` says whether a text is a date, a time of day, or a date with a time and perhaps an
offset. Seconds may be left out.
-/

namespace Wharf.Toml

/-- The number that digits write. -/
def decimal (digits : List Char) : Nat := digits.foldl (fun n c => n * 10 + (c.toNat - 48)) 0

/-- Splits off so many digits. -/
def digitsOf (count : Nat) (cs : List Char) : Option (Nat × List Char) :=
  let digits := cs.take count
  if digits.length = count ∧ digits.all Char.isDigit then some (decimal digits, cs.drop count)
  else none

/-- The days of a month. -/
def daysIn (year month : Nat) : Nat :=
  if month = 2 then
    if year % 4 = 0 ∧ (year % 100 ≠ 0 ∨ year % 400 = 0) then 29 else 28
  else if month = 4 ∨ month = 6 ∨ month = 9 ∨ month = 11 then 30 else 31

/-- The text behind a date. -/
def date (cs : List Char) : Option (List Char) := do
  let (year, cs) ← digitsOf 4 cs
  let cs ← if cs.head? = some '-' then some cs.tail else none
  let (month, cs) ← digitsOf 2 cs
  let cs ← if cs.head? = some '-' then some cs.tail else none
  let (day, cs) ← digitsOf 2 cs
  if 1 ≤ month ∧ month ≤ 12 ∧ 1 ≤ day ∧ day ≤ daysIn year month then some cs else none

/-- The text behind the fraction of a second, if there is one. -/
def secondFraction : List Char → Option (List Char)
  | '.' :: rest =>
    if (rest.takeWhile Char.isDigit).isEmpty then none else some (rest.dropWhile Char.isDigit)
  | cs => some cs

/-- The text behind the seconds, if there are any. -/
def seconds : List Char → Option (List Char)
  | ':' :: rest =>
    (digitsOf 2 rest).bind fun (second, rest) =>
      if second ≤ 60 then secondFraction rest else none
  | cs => some cs

/-- The text behind hours and minutes. -/
def clock (cs : List Char) : Option (List Char) := do
  let (hour, cs) ← digitsOf 2 cs
  let cs ← if cs.head? = some ':' then some cs.tail else none
  let (minute, cs) ← digitsOf 2 cs
  if hour ≤ 23 ∧ minute ≤ 59 then some cs else none

/-- The text behind a time of day. -/
def time (cs : List Char) : Option (List Char) := (clock cs).bind seconds

/-- Whether a text is an offset, or empty. -/
def isOffset : List Char → Bool
  | [] => true
  | ['Z'] => true
  | ['z'] => true
  | '+' :: rest => clock rest == some []
  | '-' :: rest => clock rest == some []
  | _ => false

/-- Whether a character stands between a date and a time. -/
def joinsTime (c : Char) : Bool := c == 'T' || c == 't' || c == ' '

/-- Whether a text is a date, a time, or both. -/
def isMoment (cs : List Char) : Bool :=
  match date cs with
  | some [] => true
  | some (c :: rest) =>
    joinsTime c && (match time rest with | some offset => isOffset offset | none => false)
  | none => time cs == some []

end Wharf.Toml
