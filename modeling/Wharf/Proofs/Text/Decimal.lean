import Mathlib.Algebra.Field.Rat
import Mathlib.Data.List.DropRight
import Mathlib.Tactic.FieldSimp

/-!
# Decimal numbers

The number that a text stands for: decimal digits, and behind a point, if there is one, further
ones.

* `Decimal.value?` reads a text. It reads back what was written as digits (`Decimal.value?_whole`,
  `Decimal.value?_point`).
* Zeros at the end of a fraction are superfluous (`Decimal.IsTrimmed`). To leave them out keeps the
  value (`Decimal.value_trimmed`).
-/

namespace Wharf.Decimal

variable {digits whole fraction : List Char}

/-! ## Digits -/

/-- One digit at least, and nothing else. -/
def isDigits (digits : List Char) : Bool := !digits.isEmpty && digits.all Char.isDigit

/-- The number that digits stand for. -/
def number (digits : List Char) : Nat := Nat.ofDigitChars 10 digits 0

theorem isDigits_iff : isDigits digits = true ↔ digits ≠ [] ∧ ∀ c ∈ digits, c.isDigit = true := by
  simp [isDigits]

theorem isDigits_toDigits (n : Nat) : isDigits (Nat.toDigits 10 n) = true :=
  isDigits_iff.2 ⟨Nat.toDigits_ne_nil, fun _ hc =>
    Nat.isDigit_of_mem_toDigits (by decide) (by decide) hc⟩

@[simp]
theorem number_toDigits (n : Nat) : number (Nat.toDigits 10 n) = n := Nat.ofDigitChars_ten_toDigits

/-- Zeros in front do not count. -/
@[simp]
theorem number_replicate_append (count : Nat) (digits : List Char) :
    number (List.replicate count '0' ++ digits) = number digits := by
  rw [number, Nat.ofDigitChars_append, Nat.ofDigitChars_replicate_zero, Nat.mul_zero, number]

/-- Zeros behind multiply by ten. -/
theorem number_append_replicate (digits : List Char) (count : Nat) :
    number (digits ++ List.replicate count '0') = 10 ^ count * number digits := by
  rw [number, Nat.ofDigitChars_append, Nat.ofDigitChars_replicate_zero, number]

/-- What is left of digits without the zeros at the end. -/
def trimmed (digits : List Char) : List Char := digits.rdropWhile (· == '0')

/-- The zeros at the end are put back. -/
theorem trimmed_append (digits : List Char) :
    ∃ count, trimmed digits ++ List.replicate count '0' = digits := by
  have hzeros : digits.rtakeWhile (· == '0') =
      List.replicate (digits.rtakeWhile (· == '0')).length '0' :=
    List.eq_replicate_iff.2 ⟨rfl, fun c hc => by simpa using List.mem_rtakeWhile_imp hc⟩
  exact ⟨_, by rw [trimmed, ← hzeros, List.rdropWhile_append_rtakeWhile]⟩

theorem getLast?_trimmed_ne (digits : List Char) : (trimmed digits).getLast? ≠ some '0' := by
  intro hlast
  have hne : trimmed digits ≠ [] := by
    intro hnil
    rw [hnil] at hlast
    cases hlast
  rw [List.getLast?_eq_some_getLast hne, Option.some.injEq] at hlast
  exact List.rdropWhile_last_not (· == '0') digits hne (beq_iff_eq.2 hlast)

theorem isDigits_trimmed (h : isDigits digits = true) (hpos : number digits ≠ 0) :
    isDigits (trimmed digits) = true := by
  obtain ⟨count, heq⟩ := trimmed_append digits
  refine isDigits_iff.2 ⟨fun hnil => hpos ?_, fun c hc => (isDigits_iff.1 h).2 c ?_⟩
  · rw [← heq, number_append_replicate, hnil]
    rfl
  · rw [← heq]
    exact List.mem_append_left _ hc

/-- **As a fraction digits have the same value without the zeros at the end.** -/
theorem value_trimmed (digits : List Char) :
    (number (trimmed digits) : ℚ) / 10 ^ (trimmed digits).length =
      number digits / 10 ^ digits.length := by
  obtain ⟨count, heq⟩ := trimmed_append digits
  have hnumber : number digits = 10 ^ count * number (trimmed digits) := by
    rw [← number_append_replicate, heq]
  have hlength : digits.length = (trimmed digits).length + count := by
    rw [← congrArg List.length heq, List.length_append, List.length_replicate]
  rw [hnumber, hlength, pow_add]
  push_cast
  field_simp

/-! ## Texts -/

/-- The number that a text stands for; none if it is not a decimal number. -/
def value? (text : String) : Option ℚ :=
  let whole := text.toList.takeWhile (· ≠ '.')
  match text.toList.dropWhile (· ≠ '.') with
  | [] => if isDigits whole then some (number whole) else none
  | _ :: fraction =>
    if isDigits whole && isDigits fraction then
      some (number whole + number fraction / 10 ^ fraction.length)
    else none

/-- No zero at the end of a fraction. -/
def IsTrimmed (text : String) : Prop := '.' ∈ text.toList → text.toList.getLast? ≠ some '0'

theorem ne_point_of_isDigits (h : isDigits digits = true) :
    ∀ c ∈ digits, decide (c ≠ '.') = true := by
  intro c hc
  rw [decide_eq_true_iff]
  rintro rfl
  exact absurd ((isDigits_iff.1 h).2 _ hc) (by decide)

theorem value?_whole (h : isDigits whole = true) :
    value? (String.ofList whole) = some (number whole : ℚ) := by
  have hpoint := ne_point_of_isDigits h
  simp only [value?, String.toList_ofList, List.takeWhile_eq_self_iff.2 hpoint,
    List.dropWhile_eq_nil_iff.2 hpoint, h, if_true]

theorem value?_point (hwhole : isDigits whole = true) (hfraction : isDigits fraction = true) :
    value? (String.ofList whole ++ "." ++ String.ofList fraction) =
      some (number whole + number fraction / 10 ^ fraction.length : ℚ) := by
  have htext : (String.ofList whole ++ "." ++ String.ofList fraction).toList =
      whole ++ '.' :: fraction := by simp
  have hpoint := ne_point_of_isDigits hwhole
  have htake : (whole ++ '.' :: fraction).takeWhile (· ≠ '.') = whole := by
    rw [List.takeWhile_append_of_pos hpoint]
    simp
  have hdrop : (whole ++ '.' :: fraction).dropWhile (· ≠ '.') = '.' :: fraction := by
    rw [List.dropWhile_append_of_pos hpoint]
    simp
  simp only [value?, htext, htake, hdrop, hwhole, hfraction, Bool.and_self, if_true]

/-- Digits alone have no fraction. -/
theorem isTrimmed_whole (h : isDigits whole = true) : IsTrimmed (String.ofList whole) := by
  intro hpoint
  rw [String.toList_ofList] at hpoint
  simpa using ne_point_of_isDigits h _ hpoint

theorem isTrimmed_point (whole : List Char) (hne : fraction ≠ [])
    (h : fraction.getLast? ≠ some '0') :
    IsTrimmed (String.ofList whole ++ "." ++ String.ofList fraction) := by
  intro _
  have htext : (String.ofList whole ++ "." ++ String.ofList fraction).toList =
      (whole ++ ['.']) ++ fraction := by simp
  rwa [htext, List.getLast?_append_of_ne_nil _ hne]

end Wharf.Decimal
