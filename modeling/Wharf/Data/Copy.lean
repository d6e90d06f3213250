import Wharf.Data.Item
import Wharf.Data.Outcome

/-!
# Copies

A copy is one transfer of an item towards one target. Requests that find it in progress wait for it
instead of starting another one.

* `Copy.targets` says whether the item gets to a node by the copy.
* `Copy.listen` adds a listener, `Copy.complete` stores the outcome. Each listener is notified once:
  by the first completion, or at once when it comes later.
-/

namespace Wharf

/-- The number of a listener. -/
abbrev ListenerId := Nat

/-- A transfer of an item towards a target. -/
structure Copy where
  /-- The name of the item. -/
  item : String
  source : Option Location
  target : Location
  /-- The item that gets the target as a location. -/
  targetItem : Option ItemId
  /-- The nodes to which the item gets by the copy. -/
  hosts : List NodeId
  /-- Nothing before the copy is finished. -/
  outcome : Option Outcome
  /-- Those to be notified, in the order in which they came. -/
  listeners : List ListenerId
  deriving Inhabited

namespace Copy

/-- A copy that starts. It gets the item to the hosts of the target, and to those that the target's
item has already. -/
def start (item : String) (source : Option Location) (target : Location)
    (targetItem : Option ItemId) (targetItemHosts : List NodeId) : Copy :=
  { item := item
    source := source
    target := target
    targetItem := targetItem
    hosts := addHosts target.hosts targetItemHosts
    outcome := none
    listeners := [] }

/-- Whether the item gets to a node by the copy. -/
def targets (c : Copy) (node : NodeId) : Bool := c.hosts.contains node

/-- Whether the copy is finished. -/
def isFinished (c : Copy) : Bool := c.outcome.isSome

/-- Where the item ended up. -/
def finalTarget (c : Copy) : Option Target :=
  match c.outcome with
  | some (.ok target) => some target
  | _ => none

/-- Adds a listener. The second part is the outcome if it is to be notified at once. -/
def listen (c : Copy) (listener : ListenerId) : Copy × Option Outcome :=
  match c.outcome with
  | some outcome => (c, some outcome)
  | none => ({ c with listeners := c.listeners ++ [listener] }, none)

/-- What a completion did. -/
structure Completion where
  copy : Copy
  /-- Those to be notified of the outcome. -/
  notified : List ListenerId
  /-- Whether this was the first completion. -/
  accepted : Bool

/-- Finishes a copy. Only the first outcome counts. -/
def complete (c : Copy) (outcome : Outcome) : Completion :=
  match c.outcome with
  | some _ => ⟨c, [], false⟩
  | none => ⟨{ c with outcome := some outcome, listeners := [] }, c.listeners, true⟩

end Copy

end Wharf
