import Wharf.Amount

/-!
# Vectors of consumables

What a resource offers, or a task demands, in every dimension: a list of amounts indexed by
consumable id, zero past its end. Vectors are canonical, so two of them are equal as soon as they
agree in every dimension (`Consumables.ext_get`).

* `Consumables.get` and `Consumables.set` are the view and its update (`get_set`).
* `Consumables.demands` lists the dimensions that are not zero, which all other operations visit.
* `Consumables.fitCount` is how often a demand fits at once, `covers` whether it fits once.
* `Consumables.remove?` and `Consumables.add?` take away and give back a demand.
-/

namespace Wharf

/-- Amounts by consumable id. The last one is not zero. -/
structure Consumables where
  amounts : List Amount
  canonical : amounts.getLast? ≠ some 0 := by simp
  deriving DecidableEq

namespace Consumables

/-! ## Canonical lists -/

/-- Drops the zeros at the end. -/
def trim : List Amount → List Amount
  | [] => []
  | a :: as =>
    match trim as with
    | [] => if a = 0 then [] else [a]
    | b :: bs => a :: b :: bs

theorem getLast?_trim (as : List Amount) : (trim as).getLast? ≠ some 0 := by
  fun_induction trim as with
  | case1 => simp
  | case2 => simp
  | case3 a as h ha => simpa using ha
  | case4 a as b bs h ih => rw [h] at ih; simpa [List.getLast?_cons_cons] using ih

theorem getD_trim (as : List Amount) (i : Nat) : (trim as).getD i 0 = as.getD i 0 := by
  fun_induction trim as generalizing i with
  | case1 => rfl
  | case2 as h ih =>
    rw [h] at ih
    cases i with
    | zero => rfl
    | succ i => simpa using ih i
  | case3 a as h ha ih =>
    rw [h] at ih
    cases i with
    | zero => rfl
    | succ i => simpa using ih i
  | case4 a as b bs h ih => rw [h] at ih; cases i <;> simp_all

/-- The vector of a list of amounts. -/
def ofList (as : List Amount) : Consumables := ⟨trim as, getLast?_trim as⟩

/-- The vector without any amount. -/
def empty : Consumables := ⟨[], by simp⟩

instance : Inhabited Consumables := ⟨empty⟩

/-! ## Reading and writing a dimension -/

/-- The amount in a dimension. -/
def get (c : Consumables) (id : Nat) : Amount := c.amounts.getD id 0

/-- Replaces one place of a list, which grows by zeros as far as needed. -/
def replaceAt : List Amount → Nat → Amount → List Amount
  | [], 0, a => [a]
  | [], id + 1, a => 0 :: replaceAt [] id a
  | _ :: rest, 0, a => a :: rest
  | b :: rest, id + 1, a => b :: replaceAt rest id a

/-- Replaces the amount in a dimension. -/
def set (c : Consumables) (id : Nat) (a : Amount) : Consumables :=
  ofList (replaceAt c.amounts id a)

theorem getD_replaceAt (as : List Amount) (id : Nat) (a : Amount) (j : Nat) :
    (replaceAt as id a).getD j 0 = if j = id then a else as.getD j 0 := by
  induction as generalizing id j with
  | nil =>
    induction id generalizing j with
    | zero => cases j <;> simp [replaceAt]
    | succ id ih => cases j <;> simp_all [replaceAt]
  | cons b rest ih => cases id <;> cases j <;> simp_all [replaceAt]

theorem get_set (c : Consumables) (id : Nat) (a : Amount) (j : Nat) :
    (c.set id a).get j = if j = id then a else c.get j := by
  simp only [get, set, ofList, getD_trim, getD_replaceAt]

@[simp]
theorem get_empty (id : Nat) : empty.get id = 0 := by simp [empty, get]

theorem trim_of_getLast? {as : List Amount} (h : as.getLast? ≠ some 0) : trim as = as := by
  fun_induction trim as with
  | case1 => rfl
  | case2 as ht ih =>
    cases as with
    | nil => simp at h
    | cons b bs => rw [ih (by simpa [List.getLast?_cons_cons] using h)] at ht; cases ht
  | case3 a as ht ha ih =>
    cases as with
    | nil => rfl
    | cons b bs => rw [ih (by simpa [List.getLast?_cons_cons] using h)] at ht; cases ht
  | case4 a as b bs ht ih =>
    cases as with
    | nil => cases ht
    | cons c cs => rw [← ht, ih (by simpa [List.getLast?_cons_cons] using h)]

theorem trim_congr {as bs : List Amount} (h : ∀ id, as.getD id 0 = bs.getD id 0) :
    trim as = trim bs := by
  induction as generalizing bs with
  | nil =>
    induction bs with
    | nil => rfl
    | cons b bs ih =>
      have hb : b = 0 := by simpa using (h 0).symm
      have := ih fun id => by simpa using h (id + 1)
      simp only [trim, ← this, hb, if_true]
  | cons a as ih =>
    cases bs with
    | nil =>
      have ha : a = 0 := by simpa using h 0
      have := @ih [] fun id => by simpa using h (id + 1)
      simp only [trim, this, ha, if_true]
    | cons b bs =>
      have ha : a = b := by simpa using h 0
      have := @ih bs fun id => by simpa using h (id + 1)
      simp only [trim, this, ha]

/-- Two vectors are equal when they agree in every dimension. -/
theorem ext_get {c d : Consumables} (h : ∀ id, c.get id = d.get id) : c = d := by
  obtain ⟨as, has⟩ := c
  obtain ⟨bs, hbs⟩ := d
  have := trim_congr h
  rw [trim_of_getLast? has, trim_of_getLast? hbs] at this
  cases this
  rfl

/-- The vector with the given amounts set one after the other. -/
def ofAmounts (amounts : List (Nat × Amount)) : Consumables :=
  amounts.foldl (fun c entry => c.set entry.1 entry.2) empty

/-- The vector with the given units set one after the other. -/
def ofUnits (units : List (Nat × UInt32)) : Consumables :=
  ofAmounts (units.map fun entry => (entry.1, .ofUnits entry.2))

/-! ## Demands -/

/-- The dimensions of a list that are not zero, numbered from `id`. -/
def demandsFrom : Nat → List Amount → List (Nat × Amount)
  | _, [] => []
  | id, a :: rest =>
    if a.isZero then demandsFrom (id + 1) rest else (id, a) :: demandsFrom (id + 1) rest

/-- The dimensions that are not zero, by ascending id. -/
def demands (c : Consumables) : List (Nat × Amount) := demandsFrom 0 c.amounts

/-- Whether no dimension holds anything. -/
def isEmpty (c : Consumables) : Bool := c.amounts.all Amount.isZero

/-- How many copies of a demand fit at once: the least over its dimensions, none for an empty
demand. -/
def fitCount (c demand : Consumables) : Option Nat :=
  (demand.demands.filterMap fun entry => (c.get entry.1).fits entry.2).min?

/-- Whether every dimension holds what is demanded of it. -/
def covers (c demand : Consumables) : Bool :=
  demand.demands.all fun entry => decide (entry.2 ≤ c.get entry.1)

/-- Takes the demand away, dimension by dimension, if it is covered. -/
def remove? (c demand : Consumables) : Option Consumables :=
  if c.covers demand then
    some (demand.demands.foldl (fun c entry => c.set entry.1 ((c.get entry.1).minus entry.2)) c)
  else none

/-- Adds the other vector, dimension by dimension; none when a sum gets out of range. -/
def add? (c other : Consumables) : Option Consumables :=
  other.demands.foldlM
    (fun c entry => ((c.get entry.1).add? entry.2).map fun sum => c.set entry.1 sum) c

/-- The vector with every dimension cut to that of `limit`. -/
def clampedTo (c limit : Consumables) : Consumables :=
  c.demands.foldl (fun cut entry => cut.set entry.1 (min entry.2 (limit.get entry.1))) empty

end Consumables

end Wharf
