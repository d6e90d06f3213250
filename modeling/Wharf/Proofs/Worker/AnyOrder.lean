import Mathlib.Algebra.GroupWithZero.Nat
import Wharf.Proofs.Worker.Bounds
import Wharf.Proofs.Worker.Runnable

/-!
# Reservations in any order

Several demands are reserved one after the other. A vector gets shorter when its last dimension is
used up, so each order takes another way, but all ways come to the same.

* `Slots.reserveAll?_eq_some_iff`: demands go through in a row exactly when there are slots for all
  of them and every dimension holds their sum. So their order does not matter
  (`Slots.reserveAll?_perm`), and neither does it do harm to leave some of them out
  (`Worker.isSome_reserveAll?_of_subperm`).
* `Slots.canTake_release_iff`: after a release everything can start that could start before it,
  unless more was free than the total to which the release cuts. In a worker this does not happen.
* `Worker.admits_in_any_order` puts it together for workers.
-/

namespace Wharf

namespace Slots

variable {s t : Slots} {demand total : Consumables} {demands order part : List Consumables}

/-- Takes demands one after the other, all or none. -/
def reserveAll? (s : Slots) (demands : List Consumables) : Option Slots := demands.foldlM reserve? s

@[simp]
theorem reserveAll?_nil (s : Slots) : s.reserveAll? [] = some s := rfl

@[simp]
theorem reserveAll?_cons (s : Slots) (demand : Consumables) (demands : List Consumables) :
    s.reserveAll? (demand :: demands) = (s.reserve? demand).bind (·.reserveAll? demands) := rfl

/-- What demands take together in a dimension. -/
def sumOf (demands : List Consumables) (id : Nat) : Nat :=
  (demands.map fun demand => (demand.get id).count).sum

@[simp]
theorem sumOf_nil (id : Nat) : sumOf [] id = 0 := rfl

@[simp]
theorem sumOf_cons (demand : Consumables) (demands : List Consumables) (id : Nat) :
    sumOf (demand :: demands) id = (demand.get id).count + sumOf demands id := by
  simp only [sumOf, List.map_cons, List.sum_cons]

theorem sumOf_perm (h : order.Perm demands) (id : Nat) : sumOf order id = sumOf demands id :=
  (h.map _).sum_eq

/-- **Demands go through in a row when slots and sums fit.** -/
theorem reserveAll?_eq_some_iff :
    s.reserveAll? demands = some t ↔
      demands.length ≤ s.ceiling - s.used ∧ t.ceiling = s.ceiling ∧
        t.used = s.used + demands.length ∧
        ∀ id, (s.free.get id).count = (t.free.get id).count + sumOf demands id := by
  induction demands generalizing s with
  | nil =>
    rw [reserveAll?_nil, Option.some.injEq]
    constructor
    · rintro rfl
      exact ⟨Nat.zero_le _, rfl, rfl, fun _ => rfl⟩
    · rintro ⟨-, hceiling, hused, hfree⟩
      exact ext_get hceiling.symm hused.symm hfree
  | cons demand rest ih =>
    rw [reserveAll?_cons, Option.bind_eq_some_iff]
    simp only [List.length_cons, sumOf_cons]
    constructor
    · rintro ⟨m, hm, hrest⟩
      obtain ⟨hlt, hceiling, hused, hfree⟩ := reserve?_eq_some_iff.1 hm
      obtain ⟨hlength, hceiling', hused', hfree'⟩ := ih.1 hrest
      refine ⟨by omega, hceiling'.trans hceiling, by omega, fun id => ?_⟩
      rw [hfree id, hfree' id]
      omega
    · rintro ⟨hlength, hceiling, hused, hfree⟩
      -- The first demand is held, as the sum is.
      have hholds : ∀ id, demand.get id ≤ s.free.get id := by
        intro id
        rw [Amount.le_def, hfree id]
        omega
      obtain ⟨m, hm⟩ := Option.isSome_iff_exists.1 (isSome_reserve?_iff.2 ⟨by omega, hholds⟩)
      obtain ⟨-, hceiling', hused', hfree'⟩ := reserve?_eq_some_iff.1 hm
      refine ⟨m, hm, ih.2 ⟨by omega, hceiling.trans hceiling'.symm, by omega, fun id => ?_⟩⟩
      have hsum := hfree id
      rw [hfree' id] at hsum
      omega

/-- Nothing depends on the order. -/
theorem reserveAll?_perm (s : Slots) (h : order.Perm demands) :
    s.reserveAll? order = s.reserveAll? demands := by
  refine Option.ext fun t => ?_
  simp only [reserveAll?_eq_some_iff, h.length_eq, sumOf_perm h]

/-! ### After a release -/

/-- **A release only adds to what can start**, exactly when no more was free than the total. Without
a free slot nothing could start before it. -/
theorem canTake_release_iff {released : Released} (h : s.release demand total = some released) :
    (∀ wanted, s.canTake wanted = true → released.slots.canTake wanted = true) ↔
      (s.hasFree = true → ∀ id, s.free.get id ≤ total.get id) := by
  have hgives := givesBack_of_release h
  simp only [canTake, Bool.and_eq_true, Consumables.covers_iff]
  constructor
  · intro hkeeps hslot id
    -- Of all demands that can start, what is free is the largest.
    have hall := (hkeeps s.free ⟨hslot, fun _ => Nat.le_refl _⟩).2 id
    exact Nat.le_trans hall (free_release_le h id)
  · rintro hle wanted ⟨hslot, hwanted⟩
    constructor
    · rw [hasFree, decide_eq_true_iff] at hslot ⊢
      rw [hgives.used_eq, hgives.ceiling_eq]
      omega
    · intro id
      have hbound := Amount.le_def.1 (hle hslot id)
      have hdemand := Amount.le_def.1 (hwanted id)
      rw [Amount.le_def, hgives.count_free id]
      omega

end Slots

namespace Worker

variable {v w : Worker} {demand : Description} {demands order part : List Description}

/-- Reserves demands one after the other, all or none. -/
def reserveAll? (w : Worker) (demands : List Description) : Option Worker :=
  demands.foldlM reserve? w

@[simp]
theorem reserveAll?_nil (w : Worker) : w.reserveAll? [] = some w := rfl

@[simp]
theorem reserveAll?_cons (w : Worker) (demand : Description) (demands : List Description) :
    w.reserveAll? (demand :: demands) = (w.reserve? demand).bind (·.reserveAll? demands) := rfl

theorem reserveAll?_eq_some_iff :
    w.reserveAll? demands = some v ↔
      (∀ demand ∈ demands, w.description.accepts demand = true) ∧
        ∃ slots, w.slots.reserveAll? (demands.map Description.consumables) = some slots ∧
          v = { w with slots := slots } := by
  induction demands generalizing w with
  | nil =>
    rw [reserveAll?_nil, Option.some.injEq]
    constructor
    · rintro rfl
      exact ⟨List.forall_mem_nil _, w.slots, rfl, rfl⟩
    · rintro ⟨-, slots, hslots, rfl⟩
      cases hslots
      rfl
  | cons demand rest ih =>
    rw [reserveAll?_cons, Option.bind_eq_some_iff, List.forall_mem_cons, List.map_cons,
      Slots.reserveAll?_cons]
    constructor
    · rintro ⟨m, hm, hrest⟩
      obtain ⟨haccepts, slots, hslots, rfl⟩ := reserve?_eq_some_iff.1 hm
      obtain ⟨hothers, last, hlast, rfl⟩ := ih.1 hrest
      exact ⟨⟨haccepts, hothers⟩, last, Option.bind_eq_some_iff.2 ⟨slots, hslots, hlast⟩, rfl⟩
    · rintro ⟨⟨haccepts, hothers⟩, last, hlast, rfl⟩
      obtain ⟨slots, hslots, hrest⟩ := Option.bind_eq_some_iff.1 hlast
      exact ⟨{ w with slots := slots }, reserve?_eq_some_iff.2 ⟨haccepts, slots, hslots, rfl⟩,
        ih.2 ⟨hothers, last, hrest, rfl⟩⟩

theorem reserveAll?_perm (w : Worker) (h : order.Perm demands) :
    w.reserveAll? order = w.reserveAll? demands := by
  refine Option.ext fun v => ?_
  simp only [reserveAll?_eq_some_iff, h.mem_iff, w.slots.reserveAll?_perm (h.map _)]

/-- Some of the demands can be left out. -/
theorem isSome_reserveAll?_of_subperm (h : part.Subperm demands)
    (hall : w.reserveAll? demands = some v) : (w.reserveAll? part).isSome := by
  obtain ⟨moved, hmoved, hsublist⟩ := h
  obtain ⟨rest, hrest⟩ := hsublist.exists_perm_append
  have hfront : (part ++ rest).Perm demands := ((hmoved.append_right rest).symm).trans hrest.symm
  -- Those that stay are moved to the front.
  rw [← w.reserveAll?_perm hfront, reserveAll?, List.foldlM_append, Option.bind_eq_bind,
    Option.bind_eq_some_iff] at hall
  obtain ⟨m, hm, -⟩ := hall
  exact Option.isSome_iff_exists.2 ⟨m, hm⟩

theorem Reached.reserveAll (h : Reached w) (hall : w.reserveAll? demands = some v) : Reached v := by
  induction demands generalizing w with
  | nil =>
    cases hall
    exact h
  | cons demand rest ih =>
    rw [reserveAll?_cons, Option.bind_eq_some_iff] at hall
    obtain ⟨m, hm, hrest⟩ := hall
    exact ih (h.reserve hm) hrest

theorem canRunNow_of_release (hfree : ∀ id, w.slots.free.get id ≤ w.description.consumables.get id)
    (h : w.release? demand = some v) {wanted : Description} (hnow : w.canRunNow wanted = true) :
    v.canRunNow wanted = true := by
  obtain ⟨released, hrelease, rfl⟩ := Option.map_eq_some_iff.1 h
  rw [canRunNow, Bool.and_eq_true] at hnow ⊢
  exact ⟨hnow.1, (Slots.canTake_release_iff hrelease).2 (fun _ => hfree) _ hnow.2⟩

/-- **Admission does not depend on the order of requests.** Whatever goes through in a row goes
through in any other order, which leaves the same worker, and in part. A release of a worker that
calls led to, matched or not, keeps all that could start. Of other slots this holds just when no
more is free than the total, or no slot is. -/
theorem admits_in_any_order :
    (∀ (w v : Worker) (demands : List Description), w.reserveAll? demands = some v →
      (∀ order : List Description, order.Perm demands → w.reserveAll? order = some v) ∧
      ∀ part : List Description, part.Subperm demands → (w.reserveAll? part).isSome) ∧
    (∀ (w v : Worker) (demand : Description), Reached w → w.release? demand = some v →
      ∀ wanted, w.canRunNow wanted = true → v.canRunNow wanted = true) ∧
    ∀ (s : Slots) (demand total : Consumables) (released : Slots.Released),
      s.release demand total = some released →
      ((∀ wanted, s.canTake wanted = true → released.slots.canTake wanted = true) ↔
        (s.hasFree = true → ∀ id, s.free.get id ≤ total.get id)) := by
  refine ⟨fun w v demands hall => ⟨fun order horder => ?_, fun part hpart => ?_⟩,
    fun w v demand hreached hrelease wanted hnow => ?_, fun s demand total released hrelease => ?_⟩
  · rw [w.reserveAll?_perm horder, hall]
  · exact isSome_reserveAll?_of_subperm hpart hall
  · exact canRunNow_of_release hreached.free_le hrelease hnow
  · exact Slots.canTake_release_iff hrelease

/-- The second demand uses up the last dimension, so that the vector of what is free gets shorter
before the third one, or after it. To give back five of the first dimension is unmatched. -/
theorem admits_in_any_order_three_demands :
    let need (cpus mem : Nat) : Description :=
      .compute ⟨.ofAmounts [(0, .saturating cpus), (2, .saturating mem)], none, .none⟩
    let w := create "w" (need 7 4) 3 .empty
    ∃ v u, w.reserveAll? [need 3 1, need 0 3, need 2 0] = some v ∧
      v.slots.free.amounts.length = 1 ∧
      w.reserveAll? [need 0 3, need 2 0, need 3 1] = some v ∧
      (w.reserveAll? [need 2 0, need 3 1]).isSome ∧
      Reached v ∧ v.release? (need 5 0) = some u ∧ (u.slots.free.get 0).count = 7 ∧
      ∀ wanted, v.canRunNow wanted = true → u.canRunNow wanted = true := by
  intro need w
  obtain ⟨v, hall⟩ : ∃ v, w.reserveAll? [need 3 1, need 0 3, need 2 0] = some v := ⟨_, rfl⟩
  have reached : Reached v := Reached.reserveAll (.create "w" (need 7 4) 3 .empty) hall
  obtain ⟨u, hu⟩ : ∃ u, v.release? (need 5 0) = some u := by
    cases hall
    exact ⟨_, rfl⟩
  obtain ⟨hsame, hkeeps, -⟩ := admits_in_any_order
  obtain ⟨horder, hpart⟩ := hsame w v _ hall
  refine ⟨v, u, hall, ?_, horder _ (by decide), hpart _ (by decide), reached, hu, ?_,
    hkeeps v u _ reached hu⟩
  · cases hall
    decide
  · cases hall
    cases hu
    decide

end Worker

end Wharf
