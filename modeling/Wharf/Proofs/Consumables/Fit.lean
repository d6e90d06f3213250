import Mathlib.Data.List.Basic
import Wharf.Proofs.Consumables.Pointwise

/-!
# How often a demand fits

The number of copies of a demand that fit at once is found by dividing in every demanded dimension.
Seen through `Consumables.get` it is the largest number of copies that every dimension holds.

* `Consumables.Holds` says that so many copies are held in every dimension.
* `Consumables.holds_iff_le_fitCount` ties it to `Consumables.fitCount`, which gives no number just
  when any number of copies is held.
-/

namespace Wharf

namespace Consumables

variable {c d : Consumables} {id : Nat} {a : Amount}

theorem mem_demandsFrom {as : List Amount} {start : Nat} :
    (id, a) ∈ demandsFrom start as ↔ start ≤ id ∧ as.getD (id - start) 0 = a ∧ a ≠ 0 := by
  induction as generalizing start with
  | nil =>
    simp only [demandsFrom, List.not_mem_nil, List.getD_nil, false_iff]
    rintro ⟨-, rfl, h⟩
    exact h rfl
  | cons b bs ih =>
    -- Either the dimension is the first one, or it is found among the rest.
    have hrest : (id, a) ∈ demandsFrom (start + 1) bs ↔
        start < id ∧ (b :: bs).getD (id - start) 0 = a ∧ a ≠ 0 := by
      rw [ih]
      refine and_congr_right fun hlt => ?_
      rw [getD_cons_sub b bs hlt]
    have hfirst : ∀ {x}, (x :: bs).getD (start - start) 0 = x := by
      intro x
      rw [Nat.sub_self, List.getD_cons_zero]
    unfold demandsFrom
    split
    · rename_i hb
      rw [Amount.isZero_eq_true] at hb
      rw [hrest]
      constructor
      · rintro ⟨hlt, h⟩
        exact ⟨Nat.le_of_lt hlt, h⟩
      · rintro ⟨hle, ha, hne⟩
        refine ⟨?_, ha, hne⟩
        rcases Nat.lt_or_eq_of_le hle with hlt | rfl
        · exact hlt
        · exact absurd (ha.symm.trans (hfirst.trans hb)) hne
    · rename_i hb
      rw [Amount.isZero_eq_true] at hb
      rw [List.mem_cons, Prod.mk.injEq, hrest]
      constructor
      · rintro (⟨rfl, rfl⟩ | ⟨hlt, ha, hne⟩)
        · exact ⟨Nat.le_refl _, hfirst, hb⟩
        · exact ⟨Nat.le_of_lt hlt, ha, hne⟩
      · rintro ⟨hle, ha, hne⟩
        rcases Nat.lt_or_eq_of_le hle with hlt | rfl
        · exact .inr ⟨hlt, ha, hne⟩
        · exact .inl ⟨rfl, ha.symm.trans hfirst⟩

/-- The dimensions that are visited are those in which something is demanded. -/
theorem mem_demands : (id, a) ∈ d.demands ↔ d.get id = a ∧ a ≠ 0 := by
  rw [demands, mem_demandsFrom]
  simp [get]

/-- Every dimension holds what so many copies of the demand take. -/
def Holds (c demand : Consumables) (copies : Nat) : Prop :=
  ∀ id, copies * (demand.get id).count ≤ (c.get id).count

theorem holds_one_iff : c.Holds d 1 ↔ c.covers d = true := by
  rw [covers_iff]
  exact forall_congr' fun id => by rw [Nat.one_mul, Amount.le_def]

/-- How often the demand of one dimension fits. -/
theorem mem_fits {n : Nat} :
    n ∈ d.demands.filterMap (fun entry => (c.get entry.1).fits entry.2) ↔
      ∃ id, d.get id ≠ 0 ∧ (c.get id).count / (d.get id).count = n := by
  rw [List.mem_filterMap]
  constructor
  · rintro ⟨⟨id, a⟩, hmem, hfits⟩
    obtain ⟨rfl, hne⟩ := mem_demands.1 hmem
    have hzero : ¬ (d.get id).isZero = true := fun h => hne (Amount.isZero_eq_true.1 h)
    rw [Amount.fits, if_neg hzero, Option.some.injEq] at hfits
    exact ⟨id, hne, hfits⟩
  · rintro ⟨id, hne, rfl⟩
    have hzero : ¬ (d.get id).isZero = true := fun h => hne (Amount.isZero_eq_true.1 h)
    exact ⟨(id, d.get id), mem_demands.2 ⟨rfl, hne⟩, by rw [Amount.fits, if_neg hzero]⟩

/-- A dimension holds so many copies when the quotient is as large. -/
theorem holds_iff_forall_le_div {copies : Nat} :
    c.Holds d copies ↔ ∀ id, d.get id ≠ 0 → copies ≤ (c.get id).count / (d.get id).count := by
  refine forall_congr' fun id => ?_
  by_cases hzero : d.get id = 0
  · simp [hzero]
  · have hpos : 0 < (d.get id).count := by
      rw [Nat.pos_iff_ne_zero]
      exact fun h => hzero (Amount.ext h)
    rw [Nat.le_div_iff_mul_le hpos]
    exact ⟨fun h _ => h, fun h => h hzero⟩

/-- **The fit count is the largest number of copies that every dimension holds.** -/
theorem holds_iff_le_fitCount {copies : Nat} :
    c.Holds d copies ↔ ∀ fit, c.fitCount d = some fit → copies ≤ fit := by
  rw [holds_iff_forall_le_div]
  unfold fitCount
  cases hmin : (d.demands.filterMap fun entry => (c.get entry.1).fits entry.2).min? with
  | none =>
    have hnil := List.min?_eq_none_iff.1 hmin
    refine iff_of_true (fun id hne => ?_) fun fit hfit => by cases hfit
    have hmem := (mem_fits (c := c)).2 ⟨id, hne, rfl⟩
    rw [hnil] at hmem
    cases hmem
  | some fit =>
    have hle : copies ≤ fit ↔ _ := List.le_min?_iff hmin
    constructor
    · rintro h _ ⟨⟩
      refine hle.2 fun n hn => ?_
      obtain ⟨id, hne, rfl⟩ := mem_fits.1 hn
      exact h id hne
    · exact fun h id hne => hle.1 (h fit rfl) _ (mem_fits.2 ⟨id, hne, rfl⟩)

end Consumables

end Wharf
