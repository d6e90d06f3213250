import Wharf.Numeric.Binary64

/-!
# Amounts

The quantity of one consumable, a whole number of ten-thousandths of a unit below `2 ^ 64`.

* `Amount.ofParts?`, `Amount.ofUnits` and `Amount.ofBinary64?` build amounts.
* `Amount.add?` and `Amount.sub?` refuse results outside the range.
* `Amount.fits` counts how often a demand fits.
* `Amount.toText` writes an amount in units.
-/

namespace Wharf

/-- A quantity, counted in ten-thousandths of a unit. -/
structure Amount where
  count : Nat
  count_lt : count < 1 <<< 64 := by decide
  deriving DecidableEq

namespace Amount

@[ext]
theorem ext {a b : Amount} (h : a.count = b.count) : a = b := by
  cases a; cases b; cases h; rfl

instance : Zero Amount := ⟨⟨0, by decide⟩⟩

instance : Inhabited Amount := ⟨0⟩

instance : LE Amount := ⟨fun a b => a.count ≤ b.count⟩

instance (a b : Amount) : Decidable (a ≤ b) := Nat.decLe a.count b.count

instance : Ord Amount := ⟨fun a b => compare a.count b.count⟩

@[simp]
theorem count_zero : (0 : Amount).count = 0 := rfl

theorem le_def {a b : Amount} : a ≤ b ↔ a.count ≤ b.count := Iff.rfl

/-- How many parts make a unit. -/
def perUnit : Nat := 10000

/-- The amount of a count, the largest amount when the count is past it. -/
def saturating (count : Nat) : Amount := ⟨min count (1 <<< 64 - 1), by omega⟩

/-- The amount of a count in range. -/
def ofCount? (count : Nat) : Option Amount :=
  if h : count < 1 <<< 64 then some ⟨count, h⟩ else none

/-- So many units. A count of units is a 32-bit word. -/
def ofUnits (units : UInt32) : Amount :=
  ⟨units.toNat * perUnit, by
    have := units.toNat_lt
    simp only [perUnit]
    omega⟩

/-- Units and ten-thousandths; refused when these make a unit of their own. -/
def ofParts? (units fractions : UInt32) : Option Amount :=
  if h : fractions.toNat < perUnit then
    some ⟨units.toNat * perUnit + fractions.toNat, by
      have := units.toNat_lt
      simp only [perUnit] at h ⊢
      omega⟩
  else none

/-- The amount nearest to a number of units: none for one that is negative, infinite or undefined.
The product with ten thousand is rounded to a binary number first, then to the nearest count, a
half going up; counts out of range give the largest amount. -/
def ofBinary64? (units : Binary64) : Option Amount :=
  if units.isFinite && !units.isNegative then
    some (saturating (((units.times perUnit).nearestNat).getD (1 <<< 64)))
  else none

/-- Whether nothing is there. -/
def isZero (a : Amount) : Bool := a.count == 0

/-- The whole units, as a 32-bit word: higher bits are lost. -/
def units (a : Amount) : Nat := a.count / perUnit % 1 <<< 32

/-- The ten-thousandths beside the whole units. -/
def fractions (a : Amount) : Nat := a.count % perUnit

/-! ## Arithmetic -/

/-- The sum, none when it is out of range. -/
def add? (a b : Amount) : Option Amount := ofCount? (a.count + b.count)

/-- The difference, none when it would be negative. -/
def sub? (a b : Amount) : Option Amount :=
  if b ≤ a then some ⟨a.count - b.count, by have := a.count_lt; omega⟩ else none

/-- What is left of `a` when `b` is taken away, at least nothing. -/
def minus (a b : Amount) : Amount := ⟨a.count - b.count, by have := a.count_lt; omega⟩

instance : Min Amount := ⟨fun a b => if a ≤ b then a else b⟩

/-- The sum of a list, none when it gets out of range. -/
def sum? (as : List Amount) : Option Amount := as.foldlM add? 0

/-- How often a demand fits; none for no demand, which fits any number of times. -/
def fits (a demand : Amount) : Option Nat :=
  if demand.isZero then none else some (a.count / demand.count)

theorem count_minus (a b : Amount) : (a.minus b).count = a.count - b.count := rfl

theorem add?_eq_some_iff {a b c : Amount} : add? a b = some c ↔ a.count + b.count = c.count := by
  unfold add? ofCount?
  split
  · rw [Option.some.injEq, Amount.ext_iff]
  · have := c.count_lt
    constructor
    · simp
    · omega

/-! ## Text -/

/-- The digits of the fraction: four of them, without the zeros at the end. -/
def fractionDigits (fraction : Nat) : List Char :=
  let digits := (toString fraction).toList
  let padded := List.replicate (4 - digits.length) '0' ++ digits
  (padded.reverse.dropWhile (· == '0')).reverse

/-- The text of an amount: whole units, and the fraction behind a point if there is one. -/
def toText (a : Amount) : String :=
  if a.fractions = 0 then toString a.units
  else toString a.units ++ "." ++ String.ofList (fractionDigits a.fractions)

end Amount

end Wharf
