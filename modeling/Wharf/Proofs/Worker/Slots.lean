import Wharf.Proofs.Consumables.Assignments
import Wharf.Worker.Basic

/-!
# Taking and giving back slots

What a reservation and a release do to the slots of a worker, dimension by dimension.

* `Slots.reserve?_eq_some_iff` and `Worker.reserve?_eq_some_iff` say when a reservation goes through
  and what it leaves.
* `Slots.GivesBack` is all that a release does, whether it matches a reservation or not
  (`Slots.release_eq_some_iff`). One that matches goes through when a slot is in use and the sums
  stay within the total (`Slots.release_eq_of_le`).
-/

namespace Wharf

namespace Slots

variable {s t : Slots} {demand total : Consumables}

theorem reserve?_eq_some_iff :
    s.reserve? demand = some t ↔
      s.used < s.ceiling ∧ t.ceiling = s.ceiling ∧ t.used = s.used + 1 ∧
        ∀ id, (s.free.get id).count = (t.free.get id).count + (demand.get id).count := by
  unfold reserve? hasFree
  by_cases hlt : s.used < s.ceiling
  · rw [if_pos (decide_eq_true hlt), Option.map_eq_some_iff]
    constructor
    · rintro ⟨free, hremove, rfl⟩
      exact ⟨hlt, rfl, rfl, Consumables.remove?_eq_some_iff.1 hremove⟩
    · rintro ⟨-, hceiling, hused, hfree⟩
      obtain ⟨_, _, _⟩ := t
      subst hceiling hused
      exact ⟨_, Consumables.remove?_eq_some_iff.2 hfree, rfl⟩
  · rw [if_neg (by simpa using hlt)]
    exact ⟨fun h => absurd h (Option.some_ne_none t).symm, fun h => absurd h.1 hlt⟩

/-- A record is determined by its ceiling, its count and what is free in every dimension. -/
theorem ext_get (hceiling : s.ceiling = t.ceiling) (hused : s.used = t.used)
    (hfree : ∀ id, (s.free.get id).count = (t.free.get id).count) : s = t := by
  have hvector : s.free = t.free := Consumables.ext_get fun id => Amount.ext (hfree id)
  cases s
  cases t
  simp_all

/-- What a release comes to: a slot is given back if one was in use, and every dimension gets the
sum, as far as the total goes. It matches if a slot was in use and nothing had to be cut. -/
structure GivesBack (s : Slots) (demand total : Consumables) (released : Released) : Prop where
  in_range : ∀ id, (s.free.get id).count + (demand.get id).count < 1 <<< 64
  ceiling_eq : released.slots.ceiling = s.ceiling
  used_eq : released.slots.used = s.used - 1
  count_free : ∀ id, (released.slots.free.get id).count =
    min ((s.free.get id).count + (demand.get id).count) (total.get id).count
  matched_iff : released.matched = true ↔
    0 < s.used ∧ ∀ id, (s.free.get id).count + (demand.get id).count ≤ (total.get id).count

theorem givesBack_of_release {released : Released}
    (h : s.release demand total = some released) : s.GivesBack demand total released := by
  obtain ⟨free, hadd, rfl⟩ := Option.map_eq_some_iff.1 h
  have hsum := Consumables.add?_eq_some_iff.1 hadd
  have hcovers : total.covers free = true ↔
      ∀ id, (s.free.get id).count + (demand.get id).count ≤ (total.get id).count := by
    rw [Consumables.covers_iff]
    exact forall_congr' fun id => by rw [hsum id, Amount.le_def]
  exact
    { in_range := fun id => hsum id ▸ (free.get id).count_lt
      ceiling_eq := rfl
      used_eq := rfl
      count_free := fun id => by
        dsimp only
        split
        · rename_i hwithin
          rw [Nat.min_eq_left (hcovers.1 hwithin id), hsum id]
        · rw [Consumables.count_get_clampedTo, hsum id]
      matched_iff := by rw [← hcovers, Bool.and_eq_true, decide_eq_true_iff] }

/-- **A release is determined by what it comes to.** -/
theorem release_eq_some_iff {released : Released} :
    s.release demand total = some released ↔ s.GivesBack demand total released := by
  refine ⟨givesBack_of_release, fun h => ?_⟩
  obtain ⟨free, hadd⟩ := Consumables.exists_add? h.in_range
  obtain ⟨done, hdone⟩ : ∃ done, s.release demand total = some done :=
    ⟨_, by rw [release, hadd, Option.map_some]⟩
  have h' := givesBack_of_release hdone
  have hslots : done.slots = released.slots :=
    ext_get (h'.ceiling_eq.trans h.ceiling_eq.symm) (h'.used_eq.trans h.used_eq.symm) fun id =>
      (h'.count_free id).trans (h.count_free id).symm
  have hmatched : done.matched = released.matched := by
    rw [Bool.eq_iff_iff, h'.matched_iff, h.matched_iff]
  rw [hdone]
  cases done
  cases released
  simp_all

/-- A release that matches a reservation. -/
theorem release_eq_of_le (hused : 0 < s.used)
    (hle : ∀ id, (s.free.get id).count + (demand.get id).count ≤ (total.get id).count) :
    ∃ t, s.release demand total = some ⟨t, true⟩ ∧ t.ceiling = s.ceiling ∧
      t.used + 1 = s.used ∧
        ∀ id, (t.free.get id).count = (s.free.get id).count + (demand.get id).count := by
  obtain ⟨free, hadd⟩ := Consumables.exists_add? (c := s.free) (d := demand) fun id =>
    Nat.lt_of_le_of_lt (hle id) (total.get id).count_lt
  have hpoint := Consumables.add?_eq_some_iff.1 hadd
  refine ⟨{ s with used := s.used - 1, free := free }, release_eq_some_iff.2 ?_, rfl,
    Nat.sub_add_cancel hused, fun id => (hpoint id).symm⟩
  exact
    { in_range := fun id => Nat.lt_of_le_of_lt (hle id) (total.get id).count_lt
      ceiling_eq := rfl
      used_eq := rfl
      count_free := fun id => by rw [Nat.min_eq_left (hle id), hpoint id]
      matched_iff := iff_of_true rfl ⟨hused, hle⟩ }

/-- Whatever is given back, no more is free afterwards than the total. -/
theorem free_release_le {released : Released} (h : s.release demand total = some released)
    (id : Nat) : released.slots.free.get id ≤ total.get id := by
  rw [Amount.le_def, (givesBack_of_release h).count_free id]
  exact Nat.min_le_right _ _

end Slots

namespace Worker

variable {v w : Worker} {demand : Description}

theorem reserve?_eq_some_iff :
    w.reserve? demand = some v ↔ w.description.accepts demand = true ∧
      ∃ slots, w.slots.reserve? demand.consumables = some slots ∧
        v = { w with slots := slots } := by
  unfold reserve?
  by_cases h : w.description.accepts demand = true
  · rw [if_pos h, Option.map_eq_some_iff]
    simp only [h, true_and, eq_comm]
  · rw [if_neg h]
    exact ⟨fun hv => absurd hv (Option.some_ne_none v).symm, fun hv => absurd hv.1 h⟩

end Worker

end Wharf
