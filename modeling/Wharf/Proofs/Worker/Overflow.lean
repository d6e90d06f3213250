import Mathlib.Data.Nat.Find
import Wharf.Proofs.Consumables.Demands
import Wharf.Proofs.Worker.Bounds

/-!
# Releases that stop halfway

What is given back is added before it is compared with the total. A sum that cannot be written down
ends the release there and then, but what it has written so far is kept.

* `Slots.releaseOrStop` is a release step by step. What it has written is there when it stops.
* An addition that gets out of range leaves the slot given back and the sums in all lower
  dimensions, and cuts nothing (`Slots.StopsAt`). Such a record is out of its bounds as soon as one
  of these sums is more than the total (`Slots.StopsAt.within_iff`).
* `Slots.releases_unless_out_of_range` says when a release goes through whatever was taken and
  given back before, and what every single one leaves.
-/

namespace Wharf

namespace Slots

variable {s t : Slots} {ceiling id : Nat} {demand total : Consumables}

/-- Adds to what is free in a dimension, or stops. -/
def addOrStop (entry : Nat × Amount) : EStateM Unit Slots Unit := do
  let s ← get
  match (s.free.get entry.1).add? entry.2 with
  | some sum => set { s with free := s.free.set entry.1 sum }
  | none => throw ()

/-- Gives back a slot and a demand, or stops on the way. -/
def releaseOrStop (demand total : Consumables) : EStateM Unit Slots Bool := do
  let inUse := decide (0 < (← get).used)
  modify fun s => { s with used := s.used - 1 }
  forM demand.demands addOrStop
  if total.covers (← get).free then return inUse
  modify fun s => { s with free := s.free.clampedTo total }
  return false

/-- The record `t` that is left when the sum in the dimension `id` is the first one out of range: of
the demand the part below is there. -/
structure StopsAt (s : Slots) (demand : Consumables) (id : Nat) (t : Slots) : Prop where
  out_of_range : 1 <<< 64 ≤ (s.free.get id).count + (demand.get id).count
  written : s.free.add? (demand.below id) = some t.free
  ceiling_eq : t.ceiling = s.ceiling
  used_eq : t.used = s.used - 1

theorem StopsAt.count_free (h : s.StopsAt demand id t) (j : Nat) :
    (t.free.get j).count =
      (s.free.get j).count + if j < id then (demand.get j).count else 0 := by
  rw [← Consumables.add?_eq_some_iff.1 h.written j, Consumables.count_get_below]

/-! ### The pass over the dimensions -/

theorem run_addOrStop (entry : Nat × Amount) (s : Slots) :
    (addOrStop entry).run s =
      match Consumables.combine Amount.add? s.free entry with
      | some free => .ok () { s with free := free }
      | none => .error () s := by
  unfold addOrStop Consumables.combine
  cases hadd : (s.free.get entry.1).add? entry.2 with
  | none => simp [hadd]
  | some sum => simp [hadd]

theorem run_forM_addOrStop {entries : List (Nat × Amount)} {free : Consumables}
    (h : entries.foldlM (Consumables.combine Amount.add?) s.free = some free) :
    (forM entries addOrStop).run s = .ok () { s with free := free } := by
  induction entries generalizing s with
  | nil =>
    cases h
    rfl
  | cons entry rest ih =>
    rw [List.foldlM_cons, Option.bind_eq_bind, Option.bind_eq_some_iff] at h
    obtain ⟨c, hc, hrest⟩ := h
    rw [List.forM_cons, EStateM.run_bind, run_addOrStop, hc]
    exact ih hrest

/-- **A sum out of range stops the pass** behind the dimensions below it. -/
theorem run_forM_addOrStop_of_overflow {free : Consumables}
    (hbelow : s.free.add? (demand.below id) = some free)
    (hover : 1 <<< 64 ≤ (s.free.get id).count + (demand.get id).count) :
    (forM demand.demands addOrStop).run s = .error () { s with free := free } := by
  have hdemand : demand.get id ≠ 0 := by
    intro hzero
    have := (s.free.get id).count_lt
    rw [hzero, Amount.count_zero] at hover
    omega
  -- In its own dimension nothing was added yet.
  have hsame : (free.get id).count = (s.free.get id).count := by
    rw [← Consumables.add?_eq_some_iff.1 hbelow id, Consumables.count_get_below,
      if_neg (Nat.lt_irrefl id), Nat.add_zero]
  have hstop : Consumables.combine Amount.add? free (id, demand.get id) = none := by
    rw [Consumables.combine, Option.map_eq_none_iff, Amount.add?, Amount.ofCount?, hsame]
    exact dif_neg (Nat.not_lt.2 hover)
  obtain ⟨above, habove⟩ := Consumables.demands_eq_append hdemand
  rw [habove, List.forM_append, EStateM.run_bind, run_forM_addOrStop hbelow]
  simp only [List.forM_cons, EStateM.run_bind, run_addOrStop, hstop]

/-! ### The release -/

theorem run_releaseOrStop_of_release {released : Released}
    (h : s.release demand total = some released) :
    (releaseOrStop demand total).run s = .ok released.matched released.slots := by
  obtain ⟨free, hadd, rfl⟩ := Option.map_eq_some_iff.1 h
  have hpass : (forM demand.demands addOrStop).run { s with used := s.used - 1 } =
      .ok () { s with used := s.used - 1, free := free } := run_forM_addOrStop hadd
  by_cases hwithin : total.covers free = true
  · simp [releaseOrStop, hpass, hwithin]
  · simp [releaseOrStop, hpass, hwithin, -bind_pure_comp]

theorem StopsAt.run_releaseOrStop (h : s.StopsAt demand id t) (total : Consumables) :
    (releaseOrStop demand total).run s = .error () t := by
  have hpass : (forM demand.demands addOrStop).run { s with used := s.used - 1 } =
      .error () { s with used := s.used - 1, free := t.free } :=
    run_forM_addOrStop_of_overflow h.written h.out_of_range
  have hleft : ({ s with used := s.used - 1, free := t.free } : Slots) = t :=
    ext_get h.ceiling_eq.symm h.used_eq.symm fun _ => rfl
  simp [releaseOrStop, hpass, hleft]

theorem exists_stopsAt_of_release_eq_none (h : s.release demand total = none) :
    ∃ id t, s.StopsAt demand id t := by
  classical
  have hover : ∃ id, 1 <<< 64 ≤ (s.free.get id).count + (demand.get id).count := by
    by_contra hno
    have hsome : (s.release demand total).isSome := isSome_release_iff.2 fun id => by
      by_contra hge
      exact hno ⟨id, Nat.le_of_not_lt hge⟩
    rw [h] at hsome
    cases hsome
  obtain ⟨free, hbelow⟩ := Consumables.exists_add? (c := s.free)
    (d := demand.below (Nat.find hover)) fun j => by
      rw [Consumables.count_get_below]
      split
      · rename_i hj
        exact Nat.lt_of_not_le (Nat.find_min hover hj)
      · exact (s.free.get j).count_lt
  exact ⟨Nat.find hover, { s with used := s.used - 1, free := free }, Nat.find_spec hover, hbelow,
    rfl, rfl⟩

/-- Nothing cuts the sums that are left. -/
theorem StopsAt.within_iff (h : s.StopsAt demand id t) (hs : Within ceiling total s) :
    Within ceiling total t ↔
      ∀ j < id, (s.free.get j).count + (demand.get j).count ≤ (total.get j).count := by
  constructor
  · intro ht j hj
    have hle := Amount.le_def.1 (ht.free_le j)
    rwa [h.count_free j, if_pos hj] at hle
  · intro hle
    have hused := hs.used_le
    refine ⟨h.ceiling_eq.trans hs.ceiling_eq, by rw [h.used_eq]; omega, fun j => ?_⟩
    have hfree := Amount.le_def.1 (hs.free_le j)
    have hsum := hle j
    rw [Amount.le_def, h.count_free j]
    split <;> omega

/-- **A release goes through unless a sum gets out of range.** Whatever was taken and given back
before, it does so just if the demand can be added to the total, and one that matches always does.
Then it does all that it should. Otherwise it stops in the first dimension whose sum is out of
range, with a slot given back and the dimensions below raised but not cut. -/
theorem releases_unless_out_of_range (ceiling : Nat) (demand total : Consumables) :
    ((∀ s, Reached ceiling total s → (s.release demand total).isSome) ↔
      ∀ id, (total.get id).count + (demand.get id).count < 1 <<< 64) ∧
    ∀ s, Reached ceiling total s →
      ((s.release demand total).isSome ↔
        ∀ id, (s.free.get id).count + (demand.get id).count < 1 <<< 64) ∧
      (0 < s.used →
        (∀ id, (s.free.get id).count + (demand.get id).count ≤ (total.get id).count) →
        ∃ t, s.release demand total = some ⟨t, true⟩) ∧
      (∀ released, s.release demand total = some released →
        (releaseOrStop demand total).run s = .ok released.matched released.slots ∧
        s.GivesBack demand total released) ∧
      (s.release demand total = none →
        ∃ id t, (releaseOrStop demand total).run s = .error () t ∧ s.StopsAt demand id t ∧
          (Within ceiling total t ↔
            ∀ j < id, (s.free.get j).count + (demand.get j).count ≤ (total.get j).count)) := by
  refine ⟨⟨fun hall => ?_, fun hsum s hs => ?_⟩, fun s hs => ⟨isSome_release_iff,
    fun hused hle => ?_, fun released hrelease => ?_, fun hrelease => ?_⟩⟩
  · -- Of all records the idle one has most to add to.
    exact isSome_release_iff.1 (hall _ .idle)
  · refine isSome_release_iff.2 fun id => ?_
    have hfree := Amount.le_def.1 (hs.within.free_le id)
    have := hsum id
    omega
  · obtain ⟨t, hrelease, -⟩ := release_eq_of_le hused hle
    exact ⟨t, hrelease⟩
  · exact ⟨run_releaseOrStop_of_release hrelease, givesBack_of_release hrelease⟩
  · obtain ⟨id, t, hstops⟩ := exists_stopsAt_of_release_eq_none hrelease
    exact ⟨id, t, hstops.run_releaseOrStop total, hstops, hstops.within_iff hs.within⟩

/-- One of four is taken. To give back two is unmatched and cut, also together with an amount of
another dimension that is only just in range. With one part more the release stops, and of the two
nothing has been cut. -/
theorem releases_unless_out_of_range_one_taken :
    let amounts (first other : Nat) : Consumables :=
      .ofAmounts [(0, .saturating first), (2, .saturating other)]
    let total := amounts 4 1
    let s : Slots := ⟨1, 1, amounts 3 1⟩
    let last := 1 <<< 64 - 2
    Reached 1 total s ∧ (s.release (amounts 2 last) total).isSome ∧
      (releaseOrStop (amounts 2 last) total).run s = .ok false ⟨1, 0, total⟩ ∧
      ¬ (s.release (amounts 2 (last + 1)) total).isSome ∧
      ∃ id t, (releaseOrStop (amounts 2 (last + 1)) total).run s = .error () t ∧
        s.StopsAt (amounts 2 (last + 1)) id t ∧ ¬ Within 1 total t := by
  intro amounts total s last
  have taken : (idle 1 total).call? total (.reserve (amounts 1 0)) = some (true, s) := by decide
  have reached : Reached 1 total s := .call .idle taken
  obtain ⟨-, hfits⟩ := releases_unless_out_of_range 1 (amounts 2 last) total
  obtain ⟨-, hexceeds⟩ := releases_unless_out_of_range 1 (amounts 2 (last + 1)) total
  obtain ⟨-, -, hgives, -⟩ := hfits s reached
  obtain ⟨hsome, -, -, hstops⟩ := hexceeds s reached
  have cut : s.release (amounts 2 last) total = some ⟨⟨1, 0, total⟩, false⟩ := by decide
  have stopped : s.release (amounts 2 (last + 1)) total = none := by decide
  obtain ⟨id, t, hrun, hleft, hwithin⟩ := hstops stopped
  have habove : 0 < id := by
    refine Nat.pos_of_ne_zero fun hzero => ?_
    have hover := hleft.out_of_range
    rw [hzero] at hover
    exact absurd hover (by decide)
  refine ⟨reached, by rw [cut]; rfl, (hgives _ cut).1, by rw [stopped]; decide, id, t, hrun, hleft,
    fun hkept => ?_⟩
  exact absurd (hwithin.1 hkept 0 habove) (by decide)

/-- The slots of a resource with four cpus and one unit of memory. One cpu is taken, and two are
given back together with the largest amount of memory. The release stops, and leaves five cpus, all
of which can be taken. -/
theorem release_stops_halfway :
    ∃ mem, Amount.ofBinary64? (.ofDecimal false 1 30) = some mem ∧
      let total := Consumables.ofUnits [(0, 4), (2, 1)]
      let demand := Consumables.ofAmounts [(0, .ofUnits 2), (2, mem)]
      let s : Slots := ⟨1, 1, .ofUnits [(0, 3), (2, 1)]⟩
      let t : Slots := ⟨1, 0, .ofUnits [(0, 5), (2, 1)]⟩
      Reached 1 total s ∧ s.release demand total = none ∧
        (releaseOrStop demand total).run s = .error () t ∧ ¬ Within 1 total t ∧
        t.canTake (.ofUnits [(0, 5)]) = true := by
  have hmem : Amount.ofBinary64? (.ofDecimal false 1 30) = some (.saturating (1 <<< 64 - 1)) := by
    decide +kernel
  refine ⟨_, hmem, ?_⟩
  intro total demand s t
  have taken : (idle 1 total).call? total (.reserve (.ofUnits [(0, 1)])) = some (true, s) := by
    decide
  have left : s.StopsAt demand 2 t := ⟨by decide, by decide, rfl, rfl⟩
  refine ⟨.call .idle taken, by decide, left.run_releaseOrStop total, fun hwithin => ?_, by decide⟩
  exact absurd (hwithin.free_le 0) (by decide)

end Slots

end Wharf
