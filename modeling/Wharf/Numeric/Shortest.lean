import Wharf.Numeric.Binary64

/-!
# The shortest decimal of a number

The decimal with the fewest digits that reads back as a given binary number, and among those the
nearest to it, the upper one of two as near; written out without an exponent.

* `Binary64.shortest` finds the decimal: for one digit, two digits and so on it tries the two
  neighbours of the number on that decimal grid.
* `Binary64.toText` writes a number: positional, no point for integers, `NaN`, `inf` and `-inf`.
-/

namespace Wharf

/-- The decimal `digits * 10 ^ exponent`. -/
structure Decimal where
  digits : Nat
  exponent : Int
  deriving DecidableEq

namespace Decimal

/-- Moves zeros at the end of the digits into the exponent. -/
def stripped : Nat → Nat → Int → Decimal
  | 0, digits, exponent => ⟨digits, exponent⟩
  | fuel + 1, digits, exponent =>
    if digits % 10 = 0 ∧ digits ≠ 0 then stripped fuel (digits / 10) (exponent + 1)
    else ⟨digits, exponent⟩

/-- Writes the decimal without an exponent. -/
def positional (d : Decimal) : String :=
  let text := toString d.digits
  match d.exponent with
  | .ofNat zeros => text ++ String.ofList (List.replicate zeros '0')
  | .negSucc e =>
    let places := e + 1
    let padded := List.replicate (places + 1 - text.length) '0' ++ text.toList
    let whole := padded.length - places
    String.ofList (padded.take whole) ++ "." ++ String.ofList (padded.drop whole)

end Decimal

namespace Binary64

/-- The numbers that round to a given one, all over the denominator `2 ^ 1076`. -/
structure Neighbourhood where
  lower : Nat
  centre : Nat
  upper : Nat
  closed : Bool

/-- The numbers that round to `mantissa * 2 ^ exponent / 2 ^ 1074`: half a step to either side, a
quarter below a power of two, with the ends when the mantissa is even. -/
def neighbourhood (mantissa exponent : Nat) : Neighbourhood :=
  let below := if mantissa = 1 <<< 52 ∧ exponent ≠ 0 then 1 else 2
  { lower := (4 * mantissa - below) <<< exponent
    centre := (4 * mantissa) <<< exponent
    upper := (4 * mantissa + 2) <<< exponent
    closed := mantissa % 2 == 0 }

/-- Whether `n / 2 ^ 1076` rounds to the number. -/
def Neighbourhood.has (b : Neighbourhood) (n d : Nat) : Bool :=
  if b.closed then decide (b.lower * d ≤ n) && decide (n ≤ b.upper * d)
  else decide (b.lower * d < n) && decide (n < b.upper * d)

/-- The best point of the grid of the multiples of `10 ^ exponent`: of the neighbours of the
number that round to it the nearer, of two as near the upper. -/
def Neighbourhood.onGrid (b : Neighbourhood) (exponent : Int) : Option Nat :=
  let up := match exponent with | .ofNat e => Nat.pow 10 e | .negSucc _ => 1
  let down := match exponent with | .ofNat _ => 1 | .negSucc e => Nat.pow 10 (e + 1)
  let unit := up <<< 1076
  let floor := b.centre * down / unit
  let left := b.has (floor * unit) down
  let right := b.has ((floor + 1) * unit) down
  let rest := 2 * (b.centre * down % unit)
  if left && (!right || decide (rest < unit)) then some floor
  else if right then some (floor + 1) else none

/-- The exponent of the first digit of `n / 2 ^ 1076`, looked for from `10 ^ 309` downwards. -/
def leadingExponent (n : Nat) : Nat → Int
  | 0 => -324
  | fuel + 1 =>
    let e : Int := Int.ofNat fuel - 324
    let reached := match e with
      | .ofNat k => decide (Nat.pow 10 k <<< 1076 ≤ n)
      | .negSucc k => decide (1 <<< 1076 ≤ n * Nat.pow 10 (k + 1))
    if reached then e else leadingExponent n fuel

/-- The first grid with a point that rounds to the number, the digits counted up from
`17 - fuel`. -/
def firstGrid (b : Neighbourhood) (leading : Int) : Nat → Decimal
  | 0 => ⟨b.centre, -1076⟩
  | fuel + 1 =>
    let exponent := leading - (16 - Int.ofNat fuel)
    match b.onGrid exponent with
    | some digits => Decimal.stripped 20 digits exponent
    | none => firstGrid b leading fuel

/-- The shortest decimal of a positive number. -/
def shortest (mantissa exponent : Nat) : Decimal :=
  let b := neighbourhood mantissa exponent
  firstGrid b (leadingExponent b.centre 634) 17

/-- The text of a number: its shortest decimal without an exponent. -/
def toText (x : Binary64) : String :=
  match x.parts with
  | .nan => "NaN"
  | .infinite negative => if negative then "-inf" else "inf"
  | .finite negative mantissa exponent =>
    let magnitude := if mantissa = 0 then "0" else (shortest mantissa exponent).positional
    if negative then "-" ++ magnitude else magnitude

end Binary64

end Wharf
