import Wharf.Proofs.Consumables.Fit

/-!
# Vectors that are filled one dimension at a time

Where a vector is made of given amounts these are set one after the other, and the vector grows and
is trimmed on the way. What counts in the end is the last amount of each dimension.

* `Consumables.get_foldl_set` says so for any list of amounts, `Consumables.get_ofAmounts` for one
  that starts from nothing.
* A vector that is cut to a limit is filled in this way, with the amounts of its demands. In every
  dimension it holds the smaller of the two amounts (`Consumables.count_get_clampedTo`), also where
  only one of the vectors has that dimension.
-/

namespace Wharf

namespace Amount

theorem count_min (a b : Amount) : (min a b).count = min a.count b.count := by
  show (if a ≤ b then a else b).count = _
  split
  · rename_i h
    exact (Nat.min_eq_left h).symm
  · rename_i h
    exact (Nat.min_eq_right (Nat.le_of_not_le h)).symm

end Amount

namespace Consumables

/-- **The last amount of a dimension counts.** -/
theorem get_foldl_set (entries : List (Nat × Amount)) (c : Consumables) (id : Nat) :
    (entries.foldl (fun c entry => c.set entry.1 entry.2) c).get id =
      (entries.reverse.lookup id).getD (c.get id) := by
  induction entries generalizing c with
  | nil => rfl
  | cons entry rest ih =>
    obtain ⟨j, a⟩ := entry
    rw [List.foldl_cons, ih, get_set, List.reverse_cons, List.lookup_append]
    cases rest.reverse.lookup id with
    | some later => rfl
    | none =>
      by_cases hid : id = j
      · simp [hid]
      · simp [List.lookup_cons, hid, beq_eq_false_iff_ne.2 hid]

theorem get_ofAmounts (entries : List (Nat × Amount)) (id : Nat) :
    (ofAmounts entries).get id = (entries.reverse.lookup id).getD 0 := by
  rw [ofAmounts, get_foldl_set, get_empty]

/-- **To cut a vector to a limit takes the minimum in every dimension.** -/
theorem count_get_clampedTo (c limit : Consumables) (id : Nat) :
    ((c.clampedTo limit).get id).count = min (c.get id).count (limit.get id).count := by
  let cut (entry : Nat × Amount) : Nat × Amount := (entry.1, min entry.2 (limit.get entry.1))
  have hfill : c.clampedTo limit = ofAmounts (c.demands.map cut) := by
    rw [clampedTo, ofAmounts, List.foldl_map]
  rw [hfill, get_ofAmounts]
  cases hlookup : (c.demands.map cut).reverse.lookup id with
  | some a =>
    -- A dimension that is visited holds what is demanded there.
    obtain ⟨before, after, heq, -⟩ := List.lookup_eq_some_iff.1 hlookup
    have hmem : (id, a) ∈ c.demands.map cut := by
      rw [← List.mem_reverse, heq]
      simp
    obtain ⟨entry, hentry, hcut⟩ := List.mem_map.1 hmem
    obtain ⟨hget, -⟩ := mem_demands.1 hentry
    cases hcut
    rw [hget]
    exact Amount.count_min _ _
  | none =>
    -- A dimension that is not visited holds nothing.
    have hzero : c.get id = 0 := by
      by_contra hne
      have hmem : cut (id, c.get id) ∈ (c.demands.map cut).reverse :=
        List.mem_reverse.2 (List.mem_map_of_mem (mem_demands.2 ⟨rfl, hne⟩))
      have := List.lookup_eq_none_iff.1 hlookup _ hmem
      simp [cut] at this
    simp [hzero]

end Consumables

end Wharf
