import Wharf.Consumables.Basic

/-!
# Vectors dimension by dimension

The operations on vectors visit the demanded dimensions one after the other, and the vector that
they work on is trimmed on the way. Seen through `Consumables.get` each of them is an operation on
amounts in every dimension at once.

* A pass with a partial operation that keeps what nothing is taken from or added to is pointwise
  (`foldlM_demands_eq_some_iff`), and gets through when it does in every dimension
  (`exists_foldlM_demands`).
* `Consumables.subtract?` takes a demand away by checked subtractions. Taking a covered demand away
  never gets below zero (`remove?_eq_subtract?`).
-/

namespace Wharf

namespace Amount

@[simp]
theorem isZero_eq_true {a : Amount} : a.isZero = true ↔ a = 0 := by
  rw [isZero, beq_iff_eq, Amount.ext_iff, count_zero]

@[simp]
theorem add?_zero (a : Amount) : a.add? 0 = some a := add?_eq_some_iff.2 rfl

theorem sub?_eq_some_iff {a b c : Amount} :
    a.sub? b = some c ↔ b.count ≤ a.count ∧ a.count - b.count = c.count := by
  unfold sub?
  split
  · rename_i h
    rw [Option.some.injEq, Amount.ext_iff]
    exact ⟨fun hc => ⟨h, hc⟩, fun hc => hc.2⟩
  · rename_i h
    constructor
    · intro hc
      cases hc
    · exact fun hc => absurd hc.1 h

@[simp]
theorem sub?_zero (a : Amount) : a.sub? 0 = some a :=
  sub?_eq_some_iff.2 ⟨Nat.zero_le _, rfl⟩

end Amount

namespace Consumables

variable {c d e : Consumables}

/-! ## Passes over the demands -/

/-- The step of a pass: the amount in a dimension is combined with what is demanded there. -/
def combine (f : Amount → Amount → Option Amount) (c : Consumables) (entry : Nat × Amount) :
    Option Consumables :=
  (f (c.get entry.1) entry.2).map (c.set entry.1)

theorem combine_zero {f : Amount → Amount → Option Amount} (hf : ∀ a, f a 0 = some a)
    (c : Consumables) (id : Nat) : combine f c (id, 0) = some c := by
  have hset : c.set id (c.get id) = c := by
    refine ext_get fun j => ?_
    rw [get_set]
    split
    · rename_i hj
      rw [hj]
    · rfl
  rw [combine, hf, Option.map_some, hset]

/-- A dimension in which nothing is demanded may as well be visited. -/
theorem foldlM_demandsFrom_cons {f : Amount → Amount → Option Amount} (hf : ∀ a, f a 0 = some a)
    (a : Amount) (as : List Amount) (start : Nat) (c : Consumables) :
    (demandsFrom start (a :: as)).foldlM (combine f) c =
      (combine f c (start, a)).bind fun d => (demandsFrom (start + 1) as).foldlM (combine f) d := by
  by_cases ha : a = 0
  · have hz : a.isZero = true := Amount.isZero_eq_true.2 ha
    rw [demandsFrom, if_pos hz, ha, combine_zero hf, Option.bind_some]
  · have hz : ¬ a.isZero = true := fun h => ha (Amount.isZero_eq_true.1 h)
    rw [demandsFrom, if_neg hz, List.foldlM_cons, Option.bind_eq_bind]

/-- Above the first dimension the demands are those of the rest. -/
theorem getD_cons_sub (a : Amount) (as : List Amount) {start id : Nat} (h : start < id) :
    (a :: as).getD (id - start) 0 = as.getD (id - (start + 1)) 0 := by
  have hsucc : id - start = id - (start + 1) + 1 := by omega
  rw [hsucc, List.getD_cons_succ]

theorem foldlM_demandsFrom_eq_some_iff {f : Amount → Amount → Option Amount}
    (hf : ∀ a, f a 0 = some a) (as : List Amount) (start : Nat) (c : Consumables) :
    (demandsFrom start as).foldlM (combine f) c = some e ↔
      ∀ id, if id < start then e.get id = c.get id
        else f (c.get id) (as.getD (id - start) 0) = some (e.get id) := by
  induction as generalizing start c with
  | nil =>
    simp only [demandsFrom, List.foldlM_nil, List.getD_nil, hf, Option.pure_def, Option.some.injEq]
    constructor
    · rintro rfl id
      split <;> rfl
    · intro h
      refine ext_get fun id => ?_
      have := h id
      split at this
      · exact this.symm
      · exact this
  | cons a as ih =>
    rw [foldlM_demandsFrom_cons hf, Option.bind_eq_some_iff]
    constructor
    · rintro ⟨m, hm, hrest⟩ id
      obtain ⟨sum, hsum, rfl⟩ := Option.map_eq_some_iff.1 hm
      have hid := (ih (start + 1) _).1 hrest id
      -- The first dimension is decided by the step, those above it by the rest.
      rcases Nat.lt_trichotomy id start with hlt | rfl | hlt
      · rw [if_pos (by omega), get_set, if_neg (by omega)] at hid
        rw [if_pos hlt, hid]
      · rw [if_pos (by omega), get_set, if_pos rfl] at hid
        rw [if_neg (by omega), Nat.sub_self, List.getD_cons_zero, hid, hsum]
      · rw [if_neg (by omega), get_set, if_neg (by omega)] at hid
        rw [if_neg (by omega), getD_cons_sub a as hlt, hid]
    · intro h
      have hstart := h start
      rw [if_neg (Nat.lt_irrefl _), Nat.sub_self, List.getD_cons_zero] at hstart
      refine ⟨c.set start (e.get start), by rw [combine, hstart, Option.map_some],
        (ih (start + 1) _).2 fun id => ?_⟩
      have hid := h id
      rcases Nat.lt_trichotomy id start with hlt | rfl | hlt
      · rw [if_pos hlt] at hid
        rw [if_pos (by omega), get_set, if_neg (by omega), hid]
      · rw [if_pos (by omega), get_set, if_pos rfl]
      · rw [if_neg (by omega), getD_cons_sub a as hlt] at hid
        rw [if_neg (by omega), get_set, if_neg (by omega), hid]

/-- **A pass over the demands is pointwise.** -/
theorem foldlM_demands_eq_some_iff {f : Amount → Amount → Option Amount}
    (hf : ∀ a, f a 0 = some a) :
    d.demands.foldlM (combine f) c = some e ↔ ∀ id, f (c.get id) (d.get id) = some (e.get id) := by
  rw [demands, foldlM_demandsFrom_eq_some_iff hf]
  simp [get]

/-- A pass gets through when its operation does in every dimension. -/
theorem exists_foldlM_demands {f : Amount → Amount → Option Amount} (hf : ∀ a, f a 0 = some a)
    (h : ∀ id, (f (c.get id) (d.get id)).isSome) :
    ∃ e, d.demands.foldlM (combine f) c = some e := by
  -- Made total, the operation cannot stop the pass.
  let g : Amount → Amount → Option Amount := fun a b => some ((f a b).getD 0)
  have hg : ∀ a, g a 0 = some a := fun a => by simp [g, hf]
  have total : ∀ (l : List (Nat × Amount)) (c : Consumables),
      ∃ e, l.foldlM (combine g) c = some e := by
    intro l
    induction l with
    | nil => exact fun c => ⟨c, rfl⟩
    | cons entry rest ih =>
      intro c
      obtain ⟨e, he⟩ := ih (c.set entry.1 ((f (c.get entry.1) entry.2).getD 0))
      exact ⟨e, by simpa [List.foldlM_cons, combine, g] using he⟩
  obtain ⟨e, he⟩ := total d.demands c
  refine ⟨e, (foldlM_demands_eq_some_iff hf).2 fun id => ?_⟩
  have := (foldlM_demands_eq_some_iff hg).1 he id
  obtain ⟨a, ha⟩ := Option.isSome_iff_exists.1 (h id)
  simpa [g, ha] using this

/-! ## The operations -/

theorem covers_iff : c.covers d = true ↔ ∀ id, d.get id ≤ c.get id := by
  have from_ : ∀ (as : List Amount) (start : Nat),
      ((demandsFrom start as).all fun entry => decide (entry.2 ≤ c.get entry.1)) = true ↔
        ∀ k, as.getD k 0 ≤ c.get (start + k) := by
    intro as
    induction as with
    | nil => intro start; simp [demandsFrom, Amount.le_def]
    | cons a as ih =>
      intro start
      have split : (∀ k, (a :: as).getD k 0 ≤ c.get (start + k)) ↔
          a ≤ c.get start ∧ ∀ k, as.getD k 0 ≤ c.get (start + 1 + k) := by
        constructor
        · refine fun h => ⟨h 0, fun k => ?_⟩
          have := h (k + 1)
          rwa [List.getD_cons_succ, ← Nat.add_assoc, Nat.add_right_comm] at this
        · rintro ⟨h0, h⟩ (_ | k)
          · exact h0
          · have := h k
            rwa [Nat.add_right_comm, Nat.add_assoc] at this
      rw [split, ← ih (start + 1), demandsFrom]
      by_cases ha : a = 0
      · simp [ha, Amount.le_def]
      · simp [ha]
  rw [covers, demands, from_ d.amounts 0]
  simp [get]

theorem add?_eq_some_iff :
    c.add? d = some e ↔ ∀ id, (c.get id).count + (d.get id).count = (e.get id).count := by
  rw [add?, show (fun (c : Consumables) (entry : Nat × Amount) =>
    ((c.get entry.1).add? entry.2).map fun sum => c.set entry.1 sum) = combine Amount.add? from rfl,
    foldlM_demands_eq_some_iff Amount.add?_zero]
  exact forall_congr' fun id => Amount.add?_eq_some_iff

/-- An addition goes through when every sum is in range. -/
theorem exists_add? (h : ∀ id, (c.get id).count + (d.get id).count < 1 <<< 64) :
    ∃ e, c.add? d = some e := by
  refine exists_foldlM_demands Amount.add?_zero fun id => ?_
  rw [Option.isSome_iff_exists]
  exact ⟨⟨_, h id⟩, Amount.add?_eq_some_iff.2 rfl⟩

/-- Takes a demand away by checked subtractions; none when one of them would get below zero. -/
def subtract? (c demand : Consumables) : Option Consumables :=
  demand.demands.foldlM (combine Amount.sub?) c

theorem subtract?_eq_some_iff :
    c.subtract? d = some e ↔ ∀ id, (c.get id).count = (e.get id).count + (d.get id).count := by
  rw [subtract?, foldlM_demands_eq_some_iff Amount.sub?_zero]
  refine forall_congr' fun id => ?_
  rw [Amount.sub?_eq_some_iff]
  omega

/-- **Taking a demand away never gets below zero.** -/
theorem remove?_eq_subtract? (c d : Consumables) : c.remove? d = c.subtract? d := by
  unfold remove?
  split
  · rename_i hc
    have hc := covers_iff.1 hc
    have fold : ∀ (l : List (Nat × Amount)) (c : Consumables),
        l.foldlM (combine fun a b => some (a.minus b)) c =
          some (l.foldl (fun c entry => c.set entry.1 ((c.get entry.1).minus entry.2)) c) := by
      intro l
      induction l with
      | nil => exact fun c => rfl
      | cons entry rest ih => exact fun c => by simpa [List.foldlM_cons, combine] using ih _
    have hd := (foldlM_demands_eq_some_iff (f := fun a b => some (a.minus b)) fun a => rfl).1
      (fold d.demands c)
    refine Eq.symm (subtract?_eq_some_iff.2 fun id => ?_)
    have := congrArg Amount.count (Option.some.inj (hd id))
    rw [Amount.count_minus] at this
    have := hc id
    rw [Amount.le_def] at this
    omega
  · rename_i hc
    cases hs : c.subtract? d with
    | none => rfl
    | some e =>
      refine absurd (covers_iff.2 fun id => ?_) hc
      have := subtract?_eq_some_iff.1 hs id
      rw [Amount.le_def]
      omega

theorem remove?_eq_some_iff :
    c.remove? d = some e ↔ ∀ id, (c.get id).count = (e.get id).count + (d.get id).count := by
  rw [remove?_eq_subtract?, subtract?_eq_some_iff]

end Consumables

end Wharf
