import Wharf.Transfer.Resolution

/-!
# Deliveries

How a node sends an item that it has. The hosts of the target are served one after the other until
one of them has the item: the node that asked for it gets it written to its path, any other one is
asked to get hold of it itself.

* `Delivery.step` serves one host.
-/

namespace Wharf

/-- How far a delivery is. -/
inductive DeliveryPhase
  /-- Serving the first of these hosts. -/
  | hosts (pending : List NodeId)
  /-- Waiting for the reply of a host. -/
  | asked (pending : List NodeId)
  /-- Looking at the reply. -/
  | answered (reply : Reply) (pending : List NodeId)
  | done (outcome : Outcome)

/-- A request that a node sends on. -/
structure Delivery where
  node : LocalNode
  request : Request
  phase : DeliveryPhase

namespace Delivery

/-- A delivery that has not done anything yet. -/
def start (node : LocalNode) (request : Request) : Delivery :=
  ⟨node, request, .hosts request.target.hosts⟩

/-- The delivery in another phase. -/
def inPhase (d : Delivery) (phase : DeliveryPhase) : Delivery := { d with phase := phase }

/-- The item of the request. -/
def item (d : Delivery) (w : World) : Item := w.items.get d.request.item

/-- Copies a replica on this node to a path: the declared source, or else a known one. -/
def pushReplica (d : Delivery) (w : World) (target : Path) : Option World :=
  w.copyFirst target
    (World.pathsIn d.node.id (d.request.source.toList ++ (d.item w).locations))

/-- Writes the item to a path: the value in memory, or else a replica. The world may have changed
even when nothing could be written. -/
def pushTo (d : Delivery) (w : World) (target : Path) : World × Bool :=
  let (w, written) := match (d.item w).value with
    | none => (w, false)
    | some value =>
      match value.writeTo w.files target with
      | (files, .ok ()) => ({ w with files := files }, true)
      | (files, .error _) => ({ w with files := files }, false)
  if written then (w, true)
  else match d.pushReplica w target with
    | some w => (w, true)
    | none => (w, false)

/-- Serves the host that waits for this delivery. -/
def push (d : Delivery) (w : World) (host : NodeId) (rest : List NodeId) : Move Delivery :=
  match d.request.target.pathIn host with
  | none => .advance w (d.inPhase (.hosts rest))
  | some target =>
    match d.pushTo w target with
    | (w, true) => .advance w (d.inPhase (.done (.ok (.path target))))
    | (w, false) => .advance w (d.inPhase (.hosts rest))

/-- Asks a host to get hold of the item, if it is in the directory. -/
def relay (d : Delivery) (w : World) (host : NodeId) (rest : List NodeId) : Move Delivery :=
  match w.directory.get? host with
  | none => .advance w (d.inPhase (.hosts rest))
  | some peer => .call peer d.request (d.inPhase (.asked rest))

/-- One step. -/
def step (d : Delivery) (w : World) : Move Delivery :=
  match d.phase with
  | .hosts [] => .advance w (d.inPhase (.done (.error (.noReachableHost (d.item w).name))))
  | .hosts (host :: rest) =>
    if host = d.node.id then .advance w (d.inPhase (.hosts rest))
    else if d.request.requester = some host then d.push w host rest
    else d.relay w host rest
  | .asked _ => .wait
  | .answered reply rest =>
    match reply.target? with
    | some target => .advance w (d.inPhase (.done (.ok target)))
    | none => .advance w (d.inPhase (.hosts rest))
  | .done outcome => .finish outcome

/-- Gives the delivery the reply it waits for. -/
def answer (d : Delivery) (reply : Reply) : Delivery :=
  match d.phase with
  | .asked rest => d.inPhase (.answered reply rest)
  | _ => d

end Delivery

end Wharf
