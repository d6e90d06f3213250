import Wharf.Data.Registry
import Wharf.Simulation.Script

/-!
# The state of a simulation

The world with its nodes, and what the simulation itself keeps: the scripts, the listeners, the pins
that were set by hand and the threads that wait.

* `State.act` does everything that does not lead to anything else.
* `State.copyFacts` and `State.callFacts` are what can be seen of a copy and of a call.
-/

namespace Wharf.Simulation

/-- The end of a run of a thread. -/
inductive Ending
  | replied (reply : Reply)
  /-- The thread waits for a copy. -/
  | waiting (thread : Thread)

/-- The state of a simulation. -/
structure State where
  world : World
  nodes : List Node
  /-- What the node of each handle does, call by call; the last behaviour is kept. -/
  scripts : List (List Behaviour)
  registry : Registry ItemId
  /-- The copies that were started by hand. -/
  copies : List CopyId
  /-- Tag and actions of each listener. -/
  listeners : List (String × List Action)
  /-- How many pins of each item were set by hand. -/
  pins : ItemId → Nat
  /-- The threads that were started in the course of calls, with what became of them. -/
  threads : List Ending
  events : List Event

namespace State

/-- A simulation of some nodes. -/
def start (world : World) (nodes : List Node) (scripts : List (List Behaviour)) : State :=
  { world := world
    nodes := nodes
    scripts := scripts
    registry := .empty
    copies := []
    listeners := []
    pins := fun _ => 0
    threads := []
    events := [] }

/-- Notes an event. -/
def note (s : State) (e : Event) : State := { s with events := s.events ++ [e] }

/-- Changes an item. -/
def updateItem (s : State) (item : ItemId) (f : Item → Item) : State :=
  { s with world := s.world.updateItem item f }

/-- Adds an item. Its number is the size of the items before. -/
def pushItem (s : State) (item : Item) : State :=
  { s with world := { s.world with items := s.world.items.push item } }

/-- The number of a copy that was started by hand. -/
def copyId (s : State) (copy : Nat) : CopyId := s.copies.getD copy 0

/-- The name of an item. -/
def itemName (s : State) (item : Option ItemId) : Option String :=
  item.map fun item => (s.world.items.get item).name

/-- What can be seen of a copy. -/
def copyFacts (s : State) (copy : CopyId) : CopyFacts :=
  let c := s.world.copies.get copy
  ⟨c, s.itemName c.targetItem⟩

/-- The copies of an item that are in progress. -/
def unfinished (s : State) (item : Item) : List CopyId :=
  item.copies.filter fun copy => !(s.world.copies.get copy).isFinished

/-- What a foreign node sees of a call. -/
def callFacts (s : State) (call : Call) : CallFacts :=
  let item := s.world.items.get call.request.item
  { peer := call.peer.id
    kind := call.kind
    item := item.name
    source := call.request.source
    target := call.request.target
    targetItem := s.itemName call.request.targetItem
    requester := call.request.requester
    pins := item.pins
    copies := (s.unfinished item).map s.copyFacts }

/-- The next behaviour of a foreign node, which is used up unless it is the last one. -/
def nextBehaviour (s : State) (handle : Nat) : Option Behaviour × State :=
  match s.scripts.getD handle [] with
  | [] => (none, s)
  | [last] => (some last, s)
  | behaviour :: rest => (some behaviour, { s with scripts := s.scripts.set handle rest })

/-- Writes a file. Nothing happens where none can be written; the second part says so. -/
def writeFile (s : State) (path : Path) (content : List UInt8) : State × Bool :=
  match s.world.files.create path content with
  | .ok files => ({ s with world := { s.world with files := files } }, true)
  | .error _ => (s, false)

/-- Changes the directory. -/
def redirect (s : State) (directory : Directory) : State :=
  { s with world := { s.world with directory := directory } }

/-! ## Actions that lead to nothing else -/

/-- Writes the value of an item to a file, if it has one. -/
def writeValue (s : State) (item : ItemId) (path : Path) : State × Answer :=
  match (s.world.items.get item).value with
  | none => (s, .nothing)
  | some value =>
    let (files, result) := value.writeTo s.world.files path
    ({ s with world := { s.world with files := files } }, .written result)

/-- Takes back a pin that was set by hand. -/
def unpin (s : State) (item : ItemId) : State × Answer :=
  if s.pins item = 0 then (s, .flag false)
  else
    let pins := s.pins
    ({ s.updateItem item Item.unpin with
        pins := fun i => if i = item then pins i - 1 else pins i },
      .flag true)

/-- Looks an item up by name, and creates it if it is new. -/
def createItem (s : State) (name : String) : State × Answer :=
  match s.registry.get? name with
  | some item => (s, .number (some item))
  | none =>
    let item := s.world.items.size
    ({ s.pushItem (.named name) with registry := s.registry.insert name item },
      .number (some item))

/-- What a node says of itself. -/
def describeNode (s : State) (node : Nat) (name : String) : Answer :=
  match s.nodes[node]? with
  | some (.own n) =>
    .node n s.world.directory.ids (n.complete .file name) (n.complete .object name)
      (n.complete .persistent name)
  | _ => .nothing

/-- Registers a node in the directory. -/
def registerNode (s : State) (node : Nat) : State × Answer :=
  let s := match s.nodes[node]? with
    | some n => s.redirect (s.world.directory.register n)
    | none => s
  (s, .ids s.world.directory.ids)

/-- Takes a node off the directory. -/
def unregister (s : State) (id : NodeId) : State × Answer :=
  let name := (s.world.directory.get? id).map Node.name
  let s := s.redirect (s.world.directory.remove id)
  (s, .removed name s.world.directory.ids)

/-- Does an action that leads to nothing else. -/
def act (s : State) : Action → State × Answer
  | .describeNode node name => (s, s.describeNode node name)
  | .registerNode node => s.registerNode node
  | .unregister id => s.unregister id
  | .lookUp id =>
    (s, .entry ((s.world.directory.get? id).map Node.name) s.world.directory.ids)
  | .createItem name => s.createItem name
  | .findItem name => (s, .number (s.registry.get? name))
  | .forgetItem name =>
    ({ s with registry := s.registry.remove name }, .number (s.registry.get? name))
  | .countItems => (s, .size s.registry.size)
  | .addItem item => (s.pushItem item, .number (some s.world.items.size))
  | .addLocation item location => (s.updateItem item fun d => d.addLocation location, .nothing)
  | .removeHost item host =>
    (s.updateItem item fun d => (d.removeHost host).1,
      .flag ((s.world.items.get item).removeHost host).2)
  | .setValue item value => (s.updateItem item fun d => { d with value := some value }, .nothing)
  | .takeValue item =>
    (s.updateItem item fun d => { d with value := none },
      .flag (s.world.items.get item).value.isSome)
  | .countCopies item node => (s, .number (some (s.world.copiesTo item node).length))
  | .writeValue item path => s.writeValue item path
  | .pin item =>
    let pins := s.pins
    ({ s.updateItem item Item.pin with
        pins := fun i => if i = item then pins i + 1 else pins i },
      .nothing)
  | .unpin item => s.unpin item
  | .startCopy item source target targetItem =>
    ({ s with
        world := s.world.newCopy item source target targetItem
        copies := s.copies ++ [s.world.copies.size] },
      .number (some s.copies.length))
  | .showCopy copy => (s, .copy (s.copyFacts (s.copyId copy)))
  | .copyTargets copy nodes =>
    (s, .flags (nodes.map (s.world.copies.get (s.copyId copy)).targets))
  | .await copy =>
    match (s.world.copies.get (s.copyId copy)).outcome with
    | some outcome => (s, .outcome outcome)
    | none => (s, .nothing)
  | .write path content => ((s.writeFile path content).1, .nothing)
  | .delete path =>
    ({ s with world := { s.world with files := s.world.files.remove path } }, .nothing)
  | .makeDirectory path =>
    ({ s with world := { s.world with files := s.world.files.makeDirectory path } }, .nothing)
  | .read path =>
    match s.world.files.read path with
    | .ok content => (s, .content (some content))
    | .error _ => (s, .content none)
  | _ => (s, .nothing)

end State

end Wharf.Simulation
