/-!
# Binary floating-point numbers

Numbers of the 64-bit binary interchange format, kept as their bits and computed with exactly:
every finite number is `mantissa * 2 ^ exponent / 2 ^ 1074` with natural `mantissa` and
`exponent`, so no machine arithmetic is involved.

* `Binary64.parts` reads the bits.
* `Binary64.ofRatio` rounds a quotient of natural numbers to the nearest number, a tie to the even
  mantissa; `ofDecimal` does so for a decimal.
* `Binary64.times` is the rounded product with a natural number, and `Binary64.nearestNat` the
  nearest natural number, a tie going up.
-/

namespace Wharf

/-- A number of the 64-bit binary format. -/
structure Binary64 where
  bits : UInt64
  deriving DecidableEq, Inhabited

namespace Binary64

/-- What the bits of a number mean. -/
inductive Parts
  /-- Not a number. -/
  | nan
  /-- An infinity. -/
  | infinite (negative : Bool)
  /-- The number `mantissa * 2 ^ exponent / 2 ^ 1074`, with its sign. -/
  | finite (negative : Bool) (mantissa exponent : Nat)
  deriving DecidableEq

/-- The number whose magnitude has the given bits. -/
def withSign (negative : Bool) (magnitude : Nat) : Binary64 :=
  ⟨UInt64.ofNat (if negative then 1 <<< 63 + magnitude else magnitude)⟩

/-- The quiet number that is not one. -/
def nan : Binary64 := ⟨0x7ff8000000000000⟩

/-- The infinity of a sign. -/
def infinity (negative : Bool) : Binary64 := withSign negative (2047 <<< 52)

/-- The parts of a number. A biased exponent of zero marks the numbers without the hidden bit. -/
def parts (x : Binary64) : Parts :=
  let word := x.bits.toNat
  let negative := decide (1 <<< 63 ≤ word)
  let fraction := word % 1 <<< 52
  let biased := word >>> 52 % 1 <<< 11
  if biased = 2047 then if fraction = 0 then .infinite negative else .nan
  else if biased = 0 then .finite negative fraction 0
  else .finite negative (1 <<< 52 + fraction) (biased - 1)

/-! ## Rounding -/

/-- The natural number nearest to `n / d`, a tie going to the even one. -/
def roundEven (n d : Nat) : Nat :=
  let q := n / d
  let twice := 2 * (n % d)
  if twice < d then q else if d < twice then q + 1 else q + q % 2

/-- The number nearest to `n / d`, a tie going to the even mantissa and a magnitude past the
largest finite number to infinity. The mantissa and the exponent are packed by one addition: a
mantissa rounded up to `2 ^ 53` carries into the exponent. -/
def ofRatio (negative : Bool) (n d : Nat) : Binary64 :=
  let scaled := n <<< 1074
  let exponent := Nat.log2 (scaled / d) - 52
  let magnitude := exponent <<< 52 + roundEven scaled (d <<< exponent)
  withSign negative (min magnitude (2047 <<< 52))

/-- The number nearest to `digits * 10 ^ exponent`. Exponents out of reach of the format are
answered without computing the power: they give zero or infinity. -/
def ofDecimal (negative : Bool) (digits : Nat) (exponent : Int) : Binary64 :=
  let reach := Int.ofNat (Nat.log2 digits / 3 + 1) + exponent
  if digits = 0 ∨ reach < -400 then withSign negative 0
  else if 400 < exponent then infinity negative
  else
    match exponent with
    | .ofNat e => ofRatio negative (digits * Nat.pow 10 e) 1
    | .negSucc e => ofRatio negative digits (Nat.pow 10 (e + 1))

/-- The number nearest to an integer. -/
def ofInt (i : Int) : Binary64 := ofRatio (decide (i < 0)) i.natAbs 1

/-! ## Arithmetic -/

/-- The product with a natural number, rounded. -/
def times (x : Binary64) (k : Nat) : Binary64 :=
  match x.parts with
  | .nan => nan
  | .infinite negative => infinity negative
  | .finite negative mantissa exponent => ofRatio negative (mantissa <<< exponent * k) (1 <<< 1074)

/-- Whether the number is less than zero. -/
def isNegative (x : Binary64) : Bool :=
  match x.parts with
  | .nan => false
  | .infinite negative => negative
  | .finite negative mantissa _ => negative && mantissa != 0

/-- Whether the number is neither infinite nor undefined. -/
def isFinite (x : Binary64) : Bool :=
  match x.parts with
  | .finite .. => true
  | _ => false

/-- The natural number nearest to the magnitude, a tie going up; none for an infinite one. -/
def nearestNat (x : Binary64) : Option Nat :=
  match x.parts with
  | .finite _ mantissa exponent => some ((mantissa <<< exponent + 1 <<< 1073) >>> 1074)
  | _ => none

end Binary64

end Wharf
