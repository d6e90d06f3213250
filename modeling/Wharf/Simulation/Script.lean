import Wharf.Transfer.Thread

/-!
# Scripts

What is done in a simulation, what foreign nodes do when they are called, and what is seen of it.

* `Action` is one thing to do, `Answer` what comes of it.
* `Behaviour` is the way a foreign node reacts to a call.
* `Event` is what is noted besides the answers.
-/

namespace Wharf.Simulation

/-- One thing to do. Nodes are given by their place in the list of nodes, or else by id. -/
inductive Action
  | call (kind : CallKind) (node : Nat) (request : Request)
  | describeNode (node : Nat) (name : String)
  | registerNode (node : Nat)
  | unregister (id : NodeId)
  | lookUp (id : NodeId)
  | createItem (name : String)
  | findItem (name : String)
  | forgetItem (name : String)
  | countItems
  | addItem (item : Item)
  | addLocation (item : ItemId) (location : Location)
  | removeHost (item : ItemId) (host : NodeId)
  | setValue (item : ItemId) (value : Value)
  | takeValue (item : ItemId)
  | countCopies (item : ItemId) (node : NodeId)
  | writeValue (item : ItemId) (path : Path)
  | pin (item : ItemId)
  | unpin (item : ItemId)
  | startCopy (item : String) (source : Option Location) (target : Location)
      (targetItem : Option ItemId)
  | showCopy (copy : Nat)
  | copyTargets (copy : Nat) (nodes : List NodeId)
  /-- Adds a listener, and what it does when it is notified. -/
  | listen (copy : Nat) (tag : String) (follow : List Action)
  | complete (copy : Nat) (outcome : Outcome)
  | await (copy : Nat)
  | write (path : Path) (content : List UInt8)
  | delete (path : Path)
  | makeDirectory (path : Path)
  | read (path : Path)

instance : Inhabited Action := ⟨.countItems⟩

/-- How a foreign node ends a call. -/
inductive Reaction
  | refuse
  /-- Accepts the call and forgets it. -/
  | forget
  | notify (outcome : Outcome)
  /-- Notifies the path of the target, where the content is written first if there is one. -/
  | deliver (content : Option (List UInt8))

/-- How a foreign node reacts to a call: what it does, which threads it starts and leaves waiting,
and how it ends the call. -/
structure Behaviour where
  follow : List Action
  threads : List Action
  reaction : Reaction

/-- What can be seen of a copy. -/
structure CopyFacts where
  copy : Copy
  /-- The name of the target's item. -/
  targetItem : Option String

/-- What comes of an action. -/
inductive Answer
  | nothing
  | flag (value : Bool)
  | flags (values : List Bool)
  | number (value : Option Nat)
  | size (value : Nat)
  | ids (nodes : List NodeId)
  | removed (name : Option String) (nodes : List NodeId)
  | entry (name : Option String) (nodes : List NodeId)
  /-- A node, the nodes it can call, and where it keeps an item of each kind. -/
  | node (node : LocalNode) (peers : List NodeId) (file object persistent : Location)
  | reply (value : Reply)
  | outcome (value : Outcome)
  | copy (facts : CopyFacts)
  | written (result : Except Failure Unit)
  | content (bytes : Option (List UInt8))

/-- What a foreign node sees of a call. -/
structure CallFacts where
  peer : NodeId
  kind : CallKind
  item : String
  source : Option Location
  target : Location
  targetItem : Option String
  requester : Option NodeId
  pins : Nat
  /-- The copies of the item that are in progress. -/
  copies : List CopyFacts

/-- What is noted besides the answers. -/
inductive Event
  | called (facts : CallFacts)
  /-- What came of something that was done in the course of a call or a notification. -/
  | followed (answer : Answer)
  | notified (tag : String) (outcome : Outcome)

end Wharf.Simulation
