import Wharf.Files.Path
import Wharf.Text.Joined

/-!
# Locations

Where a data item can be found: in the memory of a node, in a file that one or several nodes see, or
under a key of the persistent store.

* `Location.hosts` and `Location.pathIn` say who holds a location, and under which path.
* `Location.same` compares two; paths are compared by their parts.
* `Location.without` forgets a host.
* `DataKind.complete` is the location at which a node puts an item.
-/

namespace Wharf

/-- The id of a node. -/
abbrev NodeId := Nat

/-- A file as one node sees it. -/
structure Replica where
  host : NodeId
  path : Path
  deriving DecidableEq

/-- What makes two replicas the same. -/
def Replica.key (r : Replica) : NodeId × List Path.Part := (r.host, r.path.parts)

/-- A place that holds an item. -/
inductive Location
  /-- A value in the memory of a node. -/
  | memory (host : NodeId) (name : String)
  /-- A file, by the nodes that see it. -/
  | file (replicas : List Replica)
  /-- A key of the persistent store. -/
  | persistent (key : String)
  deriving DecidableEq

instance : Inhabited Location := ⟨.file []⟩

namespace Location

/-- The name of the kind of location. -/
def scheme : Location → String
  | memory .. => "memory"
  | file .. => "file"
  | persistent .. => "persistent"

/-- The nodes that hold the location, in the order in which they are listed. -/
def hosts : Location → List NodeId
  | memory host _ => [host]
  | file replicas => replicas.map Replica.host
  | persistent _ => []

/-- Whether a node holds the location. -/
def isHostedBy (l : Location) (node : NodeId) : Bool := l.hosts.contains node

/-- The path of the file as a node sees it. -/
def pathIn : Location → NodeId → Option Path
  | file replicas, node => (replicas.find? fun r => r.host == node).map Replica.path
  | _, _ => none

/-- The key in the persistent store. -/
def key? : Location → Option String
  | persistent key => some key
  | _ => none

/-- Whether two locations are the same. -/
def same : Location → Location → Bool
  | memory host name, memory host' name' => host == host' && name == name'
  | file replicas, file replicas' => replicas.map Replica.key == replicas'.map Replica.key
  | persistent key, persistent key' => key == key'
  | _, _ => false

@[simp]
theorem same_refl (l : Location) : l.same l = true := by cases l <;> simp [same]

theorem same_symm {l m : Location} (h : l.same m = true) : m.same l = true := by
  cases l <;> cases m <;> simp_all [same]

theorem same_trans {l m n : Location} (h : l.same m = true) (h' : m.same n = true) :
    l.same n = true := by
  cases l <;> cases m <;> cases n <;> simp_all [same]

/-- What remains of the location without a node; none when nothing does. -/
def without (l : Location) (node : NodeId) : Option Location :=
  match l with
  | memory host _ => if host = node then none else some l
  | file replicas =>
    match replicas.filter fun r => r.host != node with
    | [] => none
    | r :: rest => some (file (r :: rest))
  | persistent _ => some l

/-- The text of a location. -/
def toText : Location → String
  | memory host name => "memory://node" ++ toString host ++ "/" ++ name
  | file replicas =>
    Text.joined (replicas.map fun r => "file://node" ++ toString r.host ++ r.path.text)
  | persistent key => "persistent://" ++ key

end Location

/-- How an item is kept on a node. -/
inductive DataKind
  | file
  | object
  | persistent
  deriving DecidableEq

/-- The location at which a node keeps an item. Files lie below the temporary directory. -/
def DataKind.complete (kind : DataKind) (host : NodeId) (temporary : Path) (name : String) :
    Location :=
  match kind with
  | file => .file [⟨host, temporary.join name⟩]
  | object => .memory host name
  | persistent => .persistent name

end Wharf
