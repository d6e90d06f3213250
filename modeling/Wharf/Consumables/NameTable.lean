import Wharf.Consumables.Basic
import Wharf.Text.Joined

/-!
# Names of consumables

The table that gives consumables their ids: the place of a name in the order of registration. Four
names are there from the start.

* `NameTable.id?` and `NameTable.name?` look up one by the other.
* `NameTable.intern` looks a name up and registers it if it is new.
* `NameTable.vector` builds a vector from named amounts.
* `NameTable.write` writes a vector with names.
-/

namespace Wharf

/-- The registered names, each at the place of its id. -/
structure NameTable where
  names : List String
  deriving DecidableEq

namespace NameTable

/-- The table with the well-known names. -/
def standard : NameTable := ⟨["cpus", "gpus", "mem", "connections"]⟩

instance : Inhabited NameTable := ⟨standard⟩

/-- The id of the simultaneous connections of a service. -/
def connections : Nat := 3

/-- The id of a name. -/
def id? (t : NameTable) (name : String) : Option Nat := t.names.idxOf? name

/-- The name of an id. -/
def name? (t : NameTable) (id : Nat) : Option String := t.names[id]?

/-- The number of names. -/
def size (t : NameTable) : Nat := t.names.length

/-- The id of a name, which is registered if it is new. -/
def intern (t : NameTable) (name : String) : Nat × NameTable :=
  match t.id? name with
  | some id => (id, t)
  | none => (t.names.length, ⟨t.names ++ [name]⟩)

/-- The ids of several names, registered one after the other. -/
def internAll (t : NameTable) : List String → List Nat × NameTable
  | [] => ([], t)
  | name :: rest =>
    let (id, t) := t.intern name
    let (ids, t) := t.internAll rest
    (id :: ids, t)

/-- The vector of named amounts. New names are registered in order; of two amounts of one name the
later counts. -/
def vector (t : NameTable) (amounts : List (String × Amount)) : Consumables × NameTable :=
  let (ids, t) := t.internAll (amounts.map Prod.fst)
  (.ofAmounts (ids.zip (amounts.map Prod.snd)), t)

/-- The text of a vector: its demands by name. -/
def write (t : NameTable) (c : Consumables) : String :=
  Text.joined (c.demands.map fun entry =>
    (t.name? entry.1).getD "<unknown>" ++ "=" ++ entry.2.toText)

end NameTable

end Wharf
