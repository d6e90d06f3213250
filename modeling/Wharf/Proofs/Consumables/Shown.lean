import Mathlib.Tactic.NormNum
import Wharf.Proofs.Consumables.Demands
import Wharf.Proofs.Text.Decimal
import Wharf.Worker.Report

/-!
# Amounts as they are shown

The text of an amount is a decimal number of units without superfluous zeros. Its whole units are a
32-bit word, so the text tells the count of parts up to a multiple of `2 ^ 32` units, and no more.

* `Amount.value?_toText` reads the text back.
* `Amount.toText_eq_iff` says which amounts look the same. All below `2 ^ 32` units differ.
* In a description or a report two amounts of one dimension make a difference just if their texts
  do, or one of them is no demand at all (`Description.describe_withAmount_eq_iff`,
  `Worker.report_withFree_eq_iff`).
* `Amount.text_tells_shown` puts these together.
-/

namespace Wharf

/-! ## The text of an amount -/

namespace Amount

/-- The least count that is not shown: `2 ^ 32` units. -/
def unshown : Nat := perUnit * 2 ^ 32

/-- The count that is shown. -/
def shown (a : Amount) : Nat := a.count % unshown

theorem shown_eq (a : Amount) : a.shown = a.fractions + perUnit * a.units := by
  calc a.shown = a.count % perUnit + perUnit * (a.count / perUnit % 2 ^ 32) := Nat.mod_mul
    _ = a.fractions + perUnit * a.units := by rw [fractions, units, Nat.one_shiftLeft]

theorem fractions_lt (a : Amount) : a.fractions < perUnit := Nat.mod_lt _ (by decide)

/-- The four digits of a fraction. -/
def fourDigits (fraction : Nat) : List Char :=
  List.replicate (4 - (Nat.toDigits 10 fraction).length) '0' ++ Nat.toDigits 10 fraction

theorem fractionDigits_eq (fraction : Nat) :
    fractionDigits fraction = Decimal.trimmed (fourDigits fraction) := by
  simp only [fractionDigits, Decimal.trimmed, List.rdropWhile, fourDigits,
    Nat.toString_eq_ofList_toDigits, String.toList_ofList]

theorem length_fourDigits {fraction : Nat} (h : fraction < perUnit) :
    (fourDigits fraction).length = 4 := by
  have hle : (Nat.toDigits 10 fraction).length ≤ 4 :=
    (Nat.length_toDigits_le_iff (by decide) (by decide)).2 h
  rw [fourDigits, List.length_append, List.length_replicate]
  omega

theorem number_fourDigits (fraction : Nat) : Decimal.number (fourDigits fraction) = fraction := by
  rw [fourDigits, Decimal.number_replicate_append, Decimal.number_toDigits]

theorem isDigits_fourDigits (fraction : Nat) :
    Decimal.isDigits (fourDigits fraction) = true := by
  obtain ⟨hne, hdigits⟩ := Decimal.isDigits_iff.1 (Decimal.isDigits_toDigits fraction)
  refine Decimal.isDigits_iff.2 ⟨List.append_ne_nil_of_right_ne_nil _ hne, fun c hc => ?_⟩
  obtain hc | hc := List.mem_append.1 hc
  · rw [List.eq_of_mem_replicate hc]
    rfl
  · exact hdigits c hc

/-- **A fraction is written without superfluous zeros.** -/
theorem isDigits_fractionDigits {fraction : Nat} (h : fraction ≠ 0) :
    Decimal.isDigits (fractionDigits fraction) = true := by
  rw [fractionDigits_eq]
  refine Decimal.isDigits_trimmed (isDigits_fourDigits fraction) ?_
  rwa [number_fourDigits]

theorem value_fractionDigits {fraction : Nat} (h : fraction < perUnit) :
    (Decimal.number (fractionDigits fraction) : ℚ) / 10 ^ (fractionDigits fraction).length =
      fraction / perUnit := by
  rw [fractionDigits_eq, Decimal.value_trimmed, length_fourDigits h, number_fourDigits]
  norm_num [perUnit]

theorem toText_eq (a : Amount) :
    a.toText = if a.fractions = 0 then String.ofList (Nat.toDigits 10 a.units)
      else String.ofList (Nat.toDigits 10 a.units) ++ "." ++
        String.ofList (fractionDigits a.fractions) := by
  simp only [toText, Nat.toString_eq_ofList_toDigits]

/-- **The text of an amount is its number of units**, as far as these are shown. -/
theorem value?_toText (a : Amount) :
    Decimal.value? a.toText = some ((a.shown : ℚ) / perUnit) := by
  have hunits := Decimal.isDigits_toDigits a.units
  have hper : (perUnit : ℚ) ≠ 0 := by norm_num [perUnit]
  rw [toText_eq, shown_eq]
  split
  · rename_i hzero
    rw [Decimal.value?_whole hunits, Decimal.number_toDigits, hzero]
    rw [Nat.zero_add, Nat.cast_mul, mul_div_cancel_left₀ _ hper]
  · rename_i hne
    rw [Decimal.value?_point hunits (isDigits_fractionDigits hne), Decimal.number_toDigits,
      value_fractionDigits a.fractions_lt]
    rw [Nat.cast_add, Nat.cast_mul, add_div, mul_div_cancel_left₀ _ hper, add_comm]

theorem isTrimmed_toText (a : Amount) : Decimal.IsTrimmed a.toText := by
  rw [toText_eq]
  split
  · exact Decimal.isTrimmed_whole (Decimal.isDigits_toDigits a.units)
  · rename_i hne
    refine Decimal.isTrimmed_point _ (Decimal.isDigits_iff.1 (isDigits_fractionDigits hne)).1 ?_
    rw [fractionDigits_eq]
    exact Decimal.getLast?_trimmed_ne _

/-- **Amounts look the same just if what is shown of them is.** -/
theorem toText_eq_iff {a b : Amount} : a.toText = b.toText ↔ a.shown = b.shown := by
  have hper : (perUnit : ℚ) ≠ 0 := by norm_num [perUnit]
  constructor
  · intro h
    have hvalue : some ((a.shown : ℚ) / perUnit) = some ((b.shown : ℚ) / perUnit) := by
      rw [← value?_toText, h, value?_toText]
    rw [Option.some.injEq, div_left_inj' hper] at hvalue
    exact_mod_cast hvalue
  · intro h
    have hfractions : a.fractions = b.fractions := by
      have := a.fractions_lt
      have := b.fractions_lt
      rw [shown_eq, shown_eq] at h
      simp only [perUnit] at *
      omega
    have hunits : a.units = b.units := by
      rw [shown_eq, shown_eq, hfractions] at h
      simp only [perUnit] at h
      omega
    rw [toText, toText, hfractions, hunits]

/-- Two amounts make no difference to a text that lists demands: they look the same, and both are
listed or none. -/
def LooksLike (a b : Amount) : Prop := a.toText = b.toText ∧ (a = 0 ↔ b = 0)

end Amount

/-! ## Lists in one line -/

namespace Text

variable {xs zs : List String} {x y : String}

theorem joined_cons_of_ne_nil (x : String) (h : xs ≠ []) :
    joined (x :: xs) = x ++ "," ++ joined xs := by
  cases xs with
  | nil => exact absurd rfl h
  | cons y ys => rfl

/-- One text of a line can be read off if the others are known. -/
theorem joined_append_cons_inj :
    joined (xs ++ x :: zs) = joined (xs ++ y :: zs) ↔ x = y := by
  induction xs with
  | nil =>
    by_cases hzs : zs = []
    · simp [hzs, joined]
    · rw [List.nil_append, List.nil_append, joined_cons_of_ne_nil x hzs,
        joined_cons_of_ne_nil y hzs, String.append_left_inj, String.append_left_inj]
  | cons w ws ih =>
    rw [List.cons_append, List.cons_append, joined_cons_of_ne_nil w (by simp),
      joined_cons_of_ne_nil w (by simp), String.append_right_inj, ih]

/-- A line gets longer by a text. -/
theorem length_joined_lt (xs zs : List String) (h : x ≠ "") :
    (joined (xs ++ zs)).length < (joined (xs ++ x :: zs)).length := by
  have hpos : 0 < x.length := by
    rw [Nat.pos_iff_ne_zero]
    exact fun hzero => h (String.length_eq_zero_iff.1 hzero)
  induction xs with
  | nil =>
    by_cases hzs : zs = []
    · simpa [hzs, joined] using hpos
    · rw [List.nil_append, List.nil_append, joined_cons_of_ne_nil x hzs, String.length_append,
        String.length_append]
      omega
  | cons w ws ih =>
    have hmore : joined (w :: (ws ++ x :: zs)) = w ++ "," ++ joined (ws ++ x :: zs) :=
      joined_cons_of_ne_nil w (by simp)
    rw [List.cons_append, List.cons_append, hmore]
    by_cases hrest : ws ++ zs = []
    · rw [hrest, joined, String.length_append, String.length_append]
      have hcomma : ",".length = 1 := rfl
      omega
    · rw [joined_cons_of_ne_nil w hrest, String.length_append, String.length_append _ (joined _)]
      omega

end Text

/-! ## Vectors, descriptions and reports -/

variable {a b : Amount}

namespace NameTable

/-- The text of a demand. -/
def writeDemand (t : NameTable) (id : Nat) (a : Amount) : String :=
  (t.name? id).getD "<unknown>" ++ "=" ++ a.toText

theorem writeDemand_ne_empty (t : NameTable) (id : Nat) (a : Amount) : t.writeDemand id a ≠ "" := by
  intro hempty
  have hlength := congrArg String.length hempty
  simp [writeDemand] at hlength

/-- A dimension has one place in the text of a vector, and none if nothing is in it. -/
theorem exists_write_set (t : NameTable) (c : Consumables) (id : Nat) :
    ∃ before after, t.write (c.set id 0) = Text.joined (before ++ after) ∧
      ∀ a, a ≠ 0 →
        t.write (c.set id a) = Text.joined (before ++ t.writeDemand id a :: after) := by
  obtain ⟨before, after, hset⟩ := c.exists_demands_set id
  refine ⟨before.map fun e => t.writeDemand e.1 e.2, after.map fun e => t.writeDemand e.1 e.2,
    ?_, fun a ha => ?_⟩
  · rw [write, hset, if_pos rfl, List.append_nil, List.map_append]
    rfl
  · rw [write, hset, if_neg ha, List.append_assoc, List.singleton_append, List.map_append,
      List.map_cons]
    rfl

/-- A demand more makes the text longer. -/
theorem write_set_zero_ne (t : NameTable) (c : Consumables) (id : Nat) (ha : a ≠ 0) :
    t.write (c.set id 0) ≠ t.write (c.set id a) := by
  obtain ⟨before, after, hzero, hset⟩ := t.exists_write_set c id
  intro heq
  have hlt := Text.length_joined_lt before after (t.writeDemand_ne_empty id a)
  rw [← hzero, ← hset a ha, heq] at hlt
  exact Nat.lt_irrefl _ hlt

/-- **Two amounts of one dimension make no difference to the text of a vector** just if they look
alike there. -/
theorem write_set_eq_iff (t : NameTable) (c : Consumables) (id : Nat) :
    t.write (c.set id a) = t.write (c.set id b) ↔ a.LooksLike b := by
  by_cases ha : a = 0
  · subst ha
    by_cases hb : b = 0
    · subst hb
      exact iff_of_true rfl ⟨rfl, Iff.rfl⟩
    · exact iff_of_false (t.write_set_zero_ne c id hb) fun h => hb (h.2.1 rfl)
  · by_cases hb : b = 0
    · subst hb
      exact iff_of_false (t.write_set_zero_ne c id ha).symm fun h => ha (h.2.2 rfl)
    · obtain ⟨before, after, -, hset⟩ := t.exists_write_set c id
      rw [hset a ha, hset b hb, Text.joined_append_cons_inj, writeDemand, writeDemand,
        String.append_right_inj]
      exact ⟨fun h => ⟨h, iff_of_false ha hb⟩, And.left⟩

end NameTable

/-- Offers or demands this much in a dimension. -/
def Description.withAmount (d : Description) (id : Nat) (a : Amount) : Description :=
  match d with
  | compute d => compute { d with consumables := d.consumables.set id a }
  | service d => service { d with consumables := d.consumables.set id a }

/-- **The same holds in descriptions.** -/
theorem Description.describe_withAmount_eq_iff (names : NameTable) (d : Description) (id : Nat) :
    (d.withAmount id a).describe names = (d.withAmount id b).describe names ↔ a.LooksLike b := by
  unfold withAmount describe
  cases d <;>
    simp only [String.append_left_inj, String.append_right_inj, NameTable.write_set_eq_iff]

namespace Worker

/-- Has this much free in a dimension. -/
def withFree (w : Worker) (id : Nat) (a : Amount) : Worker :=
  { w with slots := { w.slots with free := w.slots.free.set id a } }

/-- Is described with this much in a dimension. -/
def withAmount (w : Worker) (id : Nat) (a : Amount) : Worker :=
  { w with description := w.description.withAmount id a }

/-- The lines of a core are about the tables. -/
theorem reportCore_congr {v w : Worker} (h : v.tables = w.tables) : v.reportCore = w.reportCore := by
  have himplementation : v.reportImplementation = w.reportImplementation := by
    funext core i
    unfold reportImplementation
    rw [h]
  funext core
  unfold reportCore
  rw [h, himplementation]

theorem reportCore_withFree (w : Worker) (id : Nat) (a : Amount) :
    (w.withFree id a).reportCore = w.reportCore := reportCore_congr (by rw [withFree])

theorem reportCore_withAmount (w : Worker) (id : Nat) (a : Amount) :
    (w.withAmount id a).reportCore = w.reportCore := reportCore_congr (by rw [withAmount])

/-- **The same holds in reports**, of what is free and in the description. -/
theorem report_withFree_eq_iff (w : Worker) (names : NameTable) (id : Nat) :
    (w.withFree id a).report names = (w.withFree id b).report names ↔ a.LooksLike b := by
  rw [← names.write_set_eq_iff w.slots.free id]
  unfold report
  rw [reportCore_withFree, reportCore_withFree]
  simp only [withFree, String.append_left_inj, String.append_right_inj]

theorem report_withAmount_eq_iff (w : Worker) (names : NameTable) (id : Nat) :
    (w.withAmount id a).report names = (w.withAmount id b).report names ↔ a.LooksLike b := by
  rw [← w.description.describe_withAmount_eq_iff names id]
  unfold report
  rw [reportCore_withAmount, reportCore_withAmount]
  simp only [withAmount, String.append_left_inj, String.append_right_inj]

end Worker

/-! ## What a text tells -/

namespace Amount

theorem shown_eq_count_iff : a.shown = a.count ↔ a.count < unshown := by
  constructor
  · intro h
    rw [← h]
    exact Nat.mod_lt _ (by decide)
  · exact Nat.mod_eq_of_lt

/-- The text of an amount is the amount just if all of it is shown. -/
theorem value?_toText_eq_iff :
    Decimal.value? a.toText = some ((a.count : ℚ) / perUnit) ↔ a.count < unshown := by
  have hper : (perUnit : ℚ) ≠ 0 := by norm_num [perUnit]
  rw [value?_toText, Option.some.injEq, div_left_inj' hper, Nat.cast_inj]
  exact shown_eq_count_iff

/-- Where everything is shown, no two amounts look alike. -/
theorem looksLike_iff_eq (ha : a.count < unshown) (hb : b.count < unshown) :
    a.LooksLike b ↔ a = b := by
  constructor
  · intro h
    have hshown : a.shown = b.shown := toText_eq_iff.1 h.1
    rw [shown_eq_count_iff.2 ha, shown_eq_count_iff.2 hb] at hshown
    exact Amount.ext hshown
  · rintro rfl
    exact ⟨rfl, Iff.rfl⟩

/-- **The text of an amount tells its count of parts modulo `2 ^ 32` units, and no more.** Read as
a decimal number it gives so many parts, without superfluous zeros, and the whole amount just if
that is below `2 ^ 32` units. Two amounts have one text just if they are equal modulo `2 ^ 32`
units, and give one vector, description or report just if besides both are listed or none. -/
theorem text_tells_shown (a b : Amount) :
    Decimal.value? a.toText = some (((a.count % (perUnit * 2 ^ 32) : Nat) : ℚ) / perUnit) ∧
    Decimal.IsTrimmed a.toText ∧
    (Decimal.value? a.toText = some ((a.count : ℚ) / perUnit) ↔ a.count < perUnit * 2 ^ 32) ∧
    (a.toText = b.toText ↔ a.count % (perUnit * 2 ^ 32) = b.count % (perUnit * 2 ^ 32)) ∧
    (∀ (names : NameTable) (c : Consumables) (id : Nat),
      names.write (c.set id a) = names.write (c.set id b) ↔ a.LooksLike b) ∧
    (∀ (names : NameTable) (d : Description) (id : Nat),
      (d.withAmount id a).describe names = (d.withAmount id b).describe names ↔ a.LooksLike b) ∧
    (∀ (names : NameTable) (w : Worker) (id : Nat),
      ((w.withFree id a).report names = (w.withFree id b).report names ↔ a.LooksLike b) ∧
      ((w.withAmount id a).report names = (w.withAmount id b).report names ↔ a.LooksLike b)) ∧
    (a.count < perUnit * 2 ^ 32 → b.count < perUnit * 2 ^ 32 → (a.LooksLike b ↔ a = b)) :=
  ⟨a.value?_toText, a.isTrimmed_toText, value?_toText_eq_iff, toText_eq_iff,
    fun names c id => names.write_set_eq_iff c id,
    fun names d id => d.describe_withAmount_eq_iff names id,
    fun names w id => ⟨w.report_withFree_eq_iff names id, w.report_withAmount_eq_iff names id⟩,
    looksLike_iff_eq⟩

/-- 500.0123 units and 1.22 units are read back and look different. -/
theorem text_tells_shown_fractions :
    let a : Amount := ⟨5000123, by decide⟩
    let b : Amount := ⟨12200, by decide⟩
    a.toText = "500.0123" ∧ Decimal.value? a.toText = some (5000123 / 10000) ∧ ¬ a.LooksLike b := by
  intro a b
  have hall := text_tells_shown a b
  refine ⟨by decide, ?_, ?_⟩
  · rw [hall.2.2.1.2 (by decide)]
    norm_num [a, perUnit]
  · rw [hall.2.2.2.2.2.2.2 (by decide) (by decide)]
    decide

/-- Four and eight gibibytes of memory, as numbers of bytes, are both shown as nothing. -/
theorem gibibytes_look_alike :
    ∃ four eight : Amount,
      ofBinary64? (.ofDecimal false 4294967296 0) = some four ∧
      ofBinary64? (.ofDecimal false 8589934592 0) = some eight ∧
      four ≠ eight ∧ four.toText = "0" ∧ eight.toText = "0" ∧
      Decimal.value? four.toText ≠ some ((four.count : ℚ) / perUnit) ∧
      (Description.compute ⟨(NameTable.standard.vector [("mem", four)]).1, none, .none⟩).describe
        .standard = "compute[mem=0]" ∧
      (Description.compute ⟨(NameTable.standard.vector [("mem", eight)]).1, none, .none⟩).describe
        .standard = "compute[mem=0]" := by
  refine ⟨⟨42949672960000, by decide⟩, ⟨85899345920000, by decide⟩, by decide +kernel,
    by decide +kernel, by decide, by decide +kernel, by decide +kernel, ?_, by decide +kernel,
    by decide +kernel⟩
  rw [Ne, value?_toText_eq_iff]
  decide

end Amount

end Wharf
