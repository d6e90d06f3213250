import Wharf.Cells
import Wharf.Data.Copy
import Wharf.Transfer.Node

/-!
# The world of transfers

What all nodes see and change: the files, the items, the copies, and the directory. Every operation
here is done in one go; what happens between two of them is up to the threads.

* `World.copiesTo` finds the copies in progress, `World.joinOrStart` joins one of them or registers
  a new one.
* `World.copyFile` places a file, `World.copyFirst` the first one of several that can be copied.
* `World.register` notes that an item has been brought to its target.
-/

namespace Wharf

/-- Everything that threads share. -/
structure World where
  files : Files
  items : Cells Item
  copies : Cells Copy
  directory : Directory

namespace World

/-- Nothing is there. -/
def empty : World := ⟨.empty, .empty, .empty, .empty⟩

instance : Inhabited World := ⟨empty⟩

/-! ## Items -/

/-- Changes an item. -/
def updateItem (w : World) (item : ItemId) (f : Item → Item) : World :=
  { w with items := w.items.update item f }

/-- Adds a location to the item that is to get it, if there is one. -/
def addLocation (w : World) (item : Option ItemId) (l : Location) : World :=
  match item with
  | some item => w.updateItem item fun d => d.addLocation l
  | none => w

/-- Notes that the item of a request has been brought to its target. -/
def register (w : World) (r : Request) : World := w.addLocation r.targetItem r.target

/-! ## Files -/

/-- Overwrites a file with another one. Nothing is done when the paths are the same. -/
def copyFile (w : World) (source target : Path) : Except FileError World :=
  if source.same target then .ok w
  else
    match w.files.copy source target with
    | .ok files => .ok { w with files := files }
    | .error e => .error e

/-- Overwrites a file with the first of several that can be copied. -/
def copyFirst (w : World) (target : Path) : List Path → Option World
  | [] => none
  | source :: rest =>
    match w.copyFile source target with
    | .ok w => some w
    | .error _ => copyFirst w target rest

/-- The paths under which a node sees some locations. -/
def pathsIn (node : NodeId) (locations : List Location) : List Path :=
  locations.filterMap fun l => l.pathIn node

/-! ## Copies -/

/-- Whether a copy is in progress and brings its item to a node. -/
def isUnderWay (w : World) (node : NodeId) (copy : CopyId) : Bool :=
  (w.copies.get copy).targets node && !(w.copies.get copy).isFinished

/-- The copies of an item that are in progress and bring it to a node. -/
def copiesTo (w : World) (item : ItemId) (node : NodeId) : List CopyId :=
  (w.items.get item).copies.filter (w.isUnderWay node)

/-- The copy that a request gets: one that was in progress, or one of its own. -/
inductive Ticket
  | joined (copy : CopyId)
  | started (copy : CopyId)

/-- Makes a copy without registering it. -/
def newCopy (w : World) (item : String) (source : Option Location) (target : Location)
    (targetItem : Option ItemId) : World :=
  let hosts := match targetItem with
    | some item => (w.items.get item).hosts
    | none => []
  { w with copies := w.copies.push (.start item source target targetItem hosts) }

/-- Joins the first copy in progress that brings the item to a node, or else registers one for the
request. -/
def joinOrStart (w : World) (node : NodeId) (r : Request) : World × Ticket :=
  match w.copiesTo r.item node with
  | copy :: _ => (w, .joined copy)
  | [] =>
    let copy := w.copies.size
    let started := w.newCopy (w.items.get r.item).name r.source r.target r.targetItem
    (started.updateItem r.item fun d => d.addCopy copy, .started copy)

/-- Finishes a copy. -/
def complete (w : World) (copy : CopyId) (outcome : Outcome) : World :=
  { w with copies := w.copies.update copy fun c => (c.complete outcome).copy }

end World

end Wharf
