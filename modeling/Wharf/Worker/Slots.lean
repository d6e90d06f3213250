import Wharf.Consumables.Basic

/-!
# Live capacity

How much of a resource is taken: the slots in use under a ceiling, and what is free of its
consumables.

* `Slots.canTake` says whether a demand can start now, `Slots.reserve?` takes it.
* `Slots.release` gives a demand back. What was never reserved is cut to the declared total and
  reported as unmatched.
-/

namespace Wharf

/-- The slots of one resource and its free consumables. -/
structure Slots where
  ceiling : Nat
  used : Nat
  free : Consumables
  deriving DecidableEq

namespace Slots

/-- Nothing is taken. -/
def idle (ceiling : Nat) (total : Consumables) : Slots := ⟨ceiling, 0, total⟩

/-- Whether a slot is free. -/
def hasFree (s : Slots) : Bool := decide (s.used < s.ceiling)

/-- Whether a demand can start now. -/
def canTake (s : Slots) (demand : Consumables) : Bool := s.hasFree && s.free.covers demand

/-- Takes a slot and the demand, both or neither. -/
def reserve? (s : Slots) (demand : Consumables) : Option Slots :=
  if s.hasFree then
    (s.free.remove? demand).map fun free => { s with used := s.used + 1, free := free }
  else none

/-- The slots after a release, and whether it matched a reservation. -/
structure Released where
  slots : Slots
  matched : Bool
  deriving DecidableEq

/-- Gives back a slot and the demand. When no slot was in use, or more would be free than the total,
the release is unmatched and the free amounts are cut to the total. None when an addition gets out
of range. -/
def release (s : Slots) (demand total : Consumables) : Option Released :=
  (s.free.add? demand).map fun free =>
    let within := total.covers free
    { slots := { s with used := s.used - 1, free := if within then free else free.clampedTo total }
      matched := decide (0 < s.used) && within }

end Slots

end Wharf
