import Wharf.Data.Item
import Wharf.Settings.Node

/-!
# Nodes

The nodes that take part in transfers and the requests they get.

* `LocalNode` is a node that resolves requests itself, `ForeignNode` one of which only the calls are
  seen.
* `Directory` is the table of the nodes that can be called, by id.
-/

namespace Wharf

/-- The request to bring an item somewhere. -/
structure Request where
  item : ItemId
  /-- Where to take the item from in the first place. -/
  source : Option Location
  target : Location
  /-- The item that gets the target as a location. -/
  targetItem : Option ItemId
  /-- The node that waits for this to be sent, and is not to be asked for the item. -/
  requester : Option NodeId

/-- A node that resolves requests against the replicas it knows of. -/
structure LocalNode where
  id : NodeId
  name : String
  /-- The directory below which the node keeps files. -/
  temporary : Path
  policy : FailurePolicy
  deriving DecidableEq

namespace LocalNode

/-- The node of a configuration. -/
def ofSettings (s : NodeSettings) : LocalNode := ⟨s.id.toNat, s.name, s.temporary, s.policy⟩

/-- The location at which the node keeps an item. -/
def complete (n : LocalNode) (kind : DataKind) (name : String) : Location :=
  kind.complete n.id n.temporary name

end LocalNode

/-- A node of which nothing is known but that it can be called. -/
structure ForeignNode where
  id : NodeId
  name : String
  /-- By which the calls to it are told apart. -/
  handle : Nat
  deriving DecidableEq

/-- A node that can be called. -/
inductive Node
  | own (node : LocalNode)
  | foreign (node : ForeignNode)
  deriving DecidableEq

namespace Node

/-- The id of a node. -/
def id : Node → NodeId
  | own node => node.id
  | foreign node => node.id

/-- The name of a node. -/
def name : Node → String
  | own node => node.name
  | foreign node => node.name

end Node

/-- The nodes that can be called, each id once. -/
structure Directory where
  entries : List (NodeId × Node)
  deriving DecidableEq

namespace Directory

/-- The directory without nodes. -/
def empty : Directory := ⟨[]⟩

instance : Inhabited Directory := ⟨empty⟩

/-- The node of an id. -/
def get? (d : Directory) (id : NodeId) : Option Node := d.entries.lookup id

/-- Takes a node off the directory. -/
def remove (d : Directory) (id : NodeId) : Directory := ⟨d.entries.filter fun e => e.1 != id⟩

/-- Registers a node, over the one of its id. -/
def register (d : Directory) (node : Node) : Directory :=
  ⟨(d.remove node.id).entries ++ [(node.id, node)]⟩

theorem get?_remove (d : Directory) (id other : NodeId) :
    (d.remove id).get? other = if other = id then none else d.get? other := by
  obtain ⟨entries⟩ := d
  simp only [get?, remove]
  induction entries with
  | nil => simp
  | cons e rest ih =>
    obtain ⟨n, node⟩ := e
    by_cases hn : n = id
    · subst hn
      by_cases ho : other = n
      · simpa [ho] using ih
      · have hb : (other == n) = false := beq_false_of_ne ho
        simpa [List.lookup_cons, hb, ho] using ih
    · by_cases ho : other = n
      · subst ho
        simp [hn]
      · have hb : (other == n) = false := beq_false_of_ne ho
        simpa [hn, List.lookup_cons, hb] using ih

theorem get?_register (d : Directory) (node : Node) (id : NodeId) :
    (d.register node).get? id = if id = node.id then some node else d.get? id := by
  have hr := get?_remove d node.id id
  simp only [get?, register, List.lookup_append] at hr ⊢
  by_cases h : id = node.id
  · subst h
    simp [hr]
  · have hb : (id == node.id) = false := beq_false_of_ne h
    simp [hr, List.lookup_cons, hb, h]

/-- All ids in ascending order. -/
def ids (d : Directory) : List NodeId :=
  (d.entries.map Prod.fst).mergeSort fun a b => decide (a ≤ b)

end Directory

end Wharf
