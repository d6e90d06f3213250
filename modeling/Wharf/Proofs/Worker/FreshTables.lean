import Wharf.Worker.Tables

/-!
# Tables that are built afresh

What the queries of fresh tables answer: each reads the core as it is evaluated now, an unknown core
as one without implementations.
-/

namespace Wharf

namespace Tables

variable (offer : Description) (ceiling : Nat) (c : Catalog) (core : Nat)

theorem getElem?_entries_build :
    (build offer ceiling c).entries[core]? =
      (c.core? core).map fun found => .evaluate offer ceiling found.implementations := by
  rw [build, ofRows, List.map_map, List.getElem?_map]
  rfl

theorem executableOf_build :
    (build offer ceiling c).executableOf core =
      (CoreEntry.evaluate offer ceiling (c.implementationsOf core)).executable := by
  rw [executableOf, getElem?_entries_build, Catalog.implementationsOf]
  cases c.core? core <;> rfl

theorem instances_build_eq_getD (index : Nat) :
    (build offer ceiling c).instances core index =
      (CoreEntry.evaluate offer ceiling (c.implementationsOf core)).instances.getD index 0 := by
  rw [instances, getElem?_entries_build, Catalog.implementationsOf]
  cases c.core? core <;> rfl

theorem ideal_build :
    (build offer ceiling c).ideal core =
      (CoreEntry.evaluate offer ceiling (c.implementationsOf core)).ideal := by
  rw [ideal, getElem?_entries_build, Catalog.implementationsOf]
  cases c.core? core <;> rfl

theorem slots_build :
    (build offer ceiling c).slots core =
      (CoreEntry.evaluate offer ceiling (c.implementationsOf core)).slots := by
  rw [slots, getElem?_entries_build, Catalog.implementationsOf]
  cases c.core? core with
  | none => exact (Nat.zero_min ceiling).symm
  | some found => rfl

theorem executableCores_build :
    (build offer ceiling c).executableCores =
      (c.cores.filter fun core => !(CoreEntry.evaluate offer ceiling
        core.implementations).executable.isEmpty).map Core.id := by
  rw [build, ofRows, List.filter_map, List.map_map]
  rfl

end Tables

end Wharf
