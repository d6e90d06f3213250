import Wharf.Data.Location
import Wharf.Data.Value

/-!
# Data items

One named value and everything that is known about where it is.

* `Item.addLocation` and `Item.removeHost` change the locations. While an item is pinned its
  locations stay, and removals are put off until the last pin is gone (`Item.unpin`).
* `Item.hosts` lists the hosts of all locations, `Item.key?` is the key in the persistent store.
-/

namespace Wharf

/-- The number of an item. -/
abbrev ItemId := Nat

/-- The number of a copy. -/
abbrev CopyId := Nat

/-- A data item. -/
structure Item where
  name : String
  /-- In the order in which they were added. -/
  locations : List Location
  /-- The value, when it is in memory. -/
  value : Option Value
  /-- The transfers of the item that are registered. -/
  copies : List CopyId
  pins : Nat
  /-- The hosts to be removed once no pin is left. -/
  postponed : List NodeId
  deriving Inhabited

/-- Adds the hosts that are not there yet. -/
def addHosts (known new : List NodeId) : List NodeId :=
  new.foldl (fun hosts host => if hosts.contains host then hosts else hosts ++ [host]) known

namespace Item

/-- An item of which nothing is known. -/
def named (name : String) : Item := ⟨name, [], none, [], 0, []⟩

/-- Whether a location is known. -/
def knows (d : Item) (l : Location) : Bool := d.locations.any fun known => known.same l

/-- Adds a location, unless it is known. -/
def addLocation (d : Item) (l : Location) : Item :=
  if d.knows l then d else { d with locations := d.locations ++ [l] }

/-- The hosts of all locations, each once, in the order of the locations. -/
def hosts (d : Item) : List NodeId := d.locations.foldl (fun hosts l => addHosts hosts l.hosts) []

/-- The first key in the persistent store. -/
def key? (d : Item) : Option String := d.locations.findSome? Location.key?

/-- Forgets a host in all locations. -/
def dropHost (d : Item) (host : NodeId) : Item :=
  { d with locations := d.locations.filterMap fun l => l.without host }

/-! ## Pins -/

/-- Keeps the locations until the pin is taken back. -/
def pin (d : Item) : Item := { d with pins := d.pins + 1 }

/-- Takes back a pin. With the last one the removals that were put off are made up for. -/
def unpin (d : Item) : Item :=
  if d.pins = 1 then
    d.postponed.foldl dropHost { d with pins := 0, postponed := [] }
  else { d with pins := d.pins - 1 }

/-- Forgets a host, at once or when no pin is left. The second part says whether it was at once. -/
def removeHost (d : Item) (host : NodeId) : Item × Bool :=
  if 0 < d.pins then
    ({ d with
        postponed := if d.postponed.contains host then d.postponed else d.postponed ++ [host] },
      false)
  else (d.dropHost host, true)

/-! ## Copies -/

/-- Registers a copy. -/
def addCopy (d : Item) (copy : CopyId) : Item := { d with copies := d.copies ++ [copy] }

/-- Takes a copy off the list. -/
def removeCopy (d : Item) (copy : CopyId) : Item :=
  { d with copies := d.copies.filter fun c => c != copy }

end Item

end Wharf
