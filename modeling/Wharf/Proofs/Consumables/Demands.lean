import Wharf.Proofs.Consumables.Pointwise

/-!
# The order of the demands

The demands of a vector are listed by dimension, lower ones first.

* `Consumables.below` holds what is demanded below a dimension. This is listed first
  (`Consumables.demands_eq_append`).
* The amount of one dimension stands in one place, and changing it leaves the others as they are
  (`Consumables.exists_demands_set`).
-/

namespace Wharf

namespace Consumables

variable {d : Consumables} {id : Nat}

/-! ## Cutting a vector -/

/-- The dimensions below one. -/
def below (d : Consumables) (id : Nat) : Consumables := ofList (d.amounts.take id)

theorem get_below (d : Consumables) (id j : Nat) :
    (d.below id).get j = if j < id then d.get j else 0 := by
  rw [below, ofList, get, getD_trim, List.getD_eq_getElem?_getD, List.getElem?_take]
  split
  · rw [get, List.getD_eq_getElem?_getD]
  · rfl

theorem count_get_below (d : Consumables) (id j : Nat) :
    ((d.below id).get j).count = if j < id then (d.get j).count else 0 := by
  rw [get_below]
  split <;> rfl

theorem demandsFrom_trim (as : List Amount) (start : Nat) :
    demandsFrom start (trim as) = demandsFrom start as := by
  fun_induction trim as generalizing start with
  | case1 => rfl
  | case2 as h ih =>
    rw [h] at ih
    simp [demandsFrom, ← ih]
  | case3 a as h ha ih =>
    rw [h] at ih
    simp [demandsFrom, ← ih]
  | case4 a as b bs h ih =>
    rw [h] at ih
    simp [demandsFrom, ← ih]

theorem demandsFrom_append (as bs : List Amount) (start : Nat) :
    demandsFrom start (as ++ bs) = demandsFrom start as ++ demandsFrom (start + as.length) bs := by
  induction as generalizing start with
  | nil => rfl
  | cons a as ih =>
    have hstart : start + 1 + as.length = start + (as.length + 1) := by omega
    rw [List.cons_append, demandsFrom, demandsFrom, ih, List.length_cons, hstart]
    split <;> rfl

/-- What is demanded of the dimensions below one is visited first. -/
theorem demands_eq_append (h : d.get id ≠ 0) :
    ∃ above, d.demands = (d.below id).demands ++ (id, d.get id) :: above := by
  have hlt : id < d.amounts.length := by
    refine Nat.lt_of_not_le fun hge => h ?_
    rw [get, List.getD_eq_getElem?_getD, List.getElem?_eq_none hge]
    rfl
  have hget : d.amounts[id] = d.get id := by
    rw [get, List.getD_eq_getElem?_getD, List.getElem?_eq_getElem hlt, Option.getD_some]
  have hz : ¬ (d.get id).isZero = true := fun hz => h (Amount.isZero_eq_true.1 hz)
  refine ⟨demandsFrom (id + 1) (d.amounts.drop (id + 1)), ?_⟩
  calc d.demands
      = demandsFrom 0 (d.amounts.take id ++ d.get id :: d.amounts.drop (id + 1)) := by
        rw [demands, ← hget, List.getElem_cons_drop, List.take_append_drop]
    _ = demandsFrom 0 (d.amounts.take id) ++
          demandsFrom id (d.get id :: d.amounts.drop (id + 1)) := by
        rw [demandsFrom_append, List.length_take_of_le (Nat.le_of_lt hlt), Nat.zero_add]
    _ = (d.below id).demands ++
          (id, d.get id) :: demandsFrom (id + 1) (d.amounts.drop (id + 1)) := by
        rw [below, demands, ofList, demandsFrom_trim, demandsFrom, if_neg hz]

/-! ## Changing one dimension -/

/-- The demands on both sides of a dimension do not depend on what it holds. -/
theorem exists_demandsFrom_replaceAt (as : List Amount) (start id : Nat) :
    ∃ before after, ∀ a, demandsFrom start (replaceAt as id a) =
      before ++ demandsFrom (start + id) [a] ++ after := by
  induction as generalizing start id with
  | nil =>
    induction id generalizing start with
    | zero => exact ⟨[], [], fun a => by simp [replaceAt]⟩
    | succ id ih =>
      obtain ⟨before, after, h⟩ := ih (start + 1)
      refine ⟨before, after, fun a => ?_⟩
      have hzero : (0 : Amount).isZero = true := rfl
      rw [replaceAt, demandsFrom, if_pos hzero, h, Nat.add_right_comm, Nat.add_assoc]
  | cons b rest ih =>
    cases id with
    | zero => exact ⟨[], demandsFrom (start + 1) rest, fun a => demandsFrom_append [a] rest start⟩
    | succ id =>
      obtain ⟨before, after, h⟩ := ih (start + 1) id
      refine ⟨demandsFrom start [b] ++ before, after, fun a => ?_⟩
      have happend := demandsFrom_append [b] (replaceAt rest id a) start
      rw [replaceAt, ← List.singleton_append, happend, List.length_singleton, h,
        Nat.add_right_comm, Nat.add_assoc]
      simp only [List.append_assoc]

/-- **A dimension has one place among the demands**, whatever it holds. -/
theorem exists_demands_set (c : Consumables) (id : Nat) :
    ∃ before after, ∀ a, (c.set id a).demands =
      before ++ (if a = 0 then [] else [(id, a)]) ++ after := by
  obtain ⟨before, after, h⟩ := exists_demandsFrom_replaceAt c.amounts 0 id
  refine ⟨before, after, fun a => ?_⟩
  rw [demands, set, ofList, demandsFrom_trim, h, Nat.zero_add]
  simp [demandsFrom]

end Consumables

end Wharf
