import Wharf.Transfer.World

/-!
# Resolutions

How a node gets hold of an item. A resolution goes through the ways to get it, one after the other,
until the item is at the target of the request: the key in the persistent store, the value in
memory, a copy in progress, a replica on the node itself, and at last the other nodes. Each way that
fails is given up for the next one.

* `Phase` says how far a resolution is, `Resolution.step` takes it one phase further.
* The first call to another node registers a copy, so that other resolutions for this node wait
  for it (`Phase.enlist`). From then on at most one of them calls nodes.
* The item stays pinned while its replicas are tried; in the end the pin is taken back, then
  the copy is finished and taken off the item (`Phase.leaving` to `Phase.done`).
-/

namespace Wharf

/-- How a call to a node ends. -/
inductive Reply
  /-- The call was not accepted. -/
  | refused (cause : Failure)
  /-- The call was accepted and then forgotten. -/
  | dropped
  | notified (outcome : Outcome)

/-- The target that a call was notified of. -/
def Reply.target? : Reply → Option Target
  | notified (.ok target) => some target
  | _ => none

/-- The two lists of hosts that are called. -/
inductive Round
  /-- Those of the declared source. -/
  | declared
  /-- Those that are known to have a replica. -/
  | known
  deriving DecidableEq

/-- The hosts that are still to be tried. -/
structure Route where
  round : Round
  pending : List NodeId

/-- How far a resolution is. -/
inductive Phase
  /-- Looking for a key in the persistent store. -/
  | start
  /-- Looking for a value in memory. -/
  | resident
  /-- Pinning the item and listing the copies in progress. -/
  | survey
  /-- Waiting for the first of the copies. -/
  | joining (pending : List CopyId)
  /-- Copying a replica on the node itself. -/
  | replicas
  /-- Taking the next host. -/
  | hosts (route : Route)
  /-- Looking whether the item has been delivered in the meantime. -/
  | recheck (peer : Node) (route : Route)
  /-- Joining a copy, or registering one. -/
  | enlist (peer : Node) (route : Route)
  /-- Waiting for the copy that was joined. -/
  | joined (copy : CopyId) (peer : Node) (route : Route)
  /-- Calling a node. -/
  | ask (peer : Node) (route : Route)
  /-- Waiting for the reply. -/
  | asked (route : Route)
  /-- Looking at the reply. -/
  | answered (reply : Reply) (route : Route)
  /-- Taking back the pin. -/
  | leaving (outcome : Outcome)
  /-- Finishing the copy of one's own. -/
  | completing (outcome : Outcome)
  /-- Taking that copy off the item. -/
  | withdrawing (copy : CopyId) (outcome : Outcome)
  | done (outcome : Outcome)

/-- A request that a node resolves. -/
structure Resolution where
  node : LocalNode
  request : Request
  /-- The copy that this resolution has registered. -/
  started : Option CopyId
  phase : Phase

/-- What a step leads to. -/
inductive Move (α : Type)
  /-- Going on in a changed world. -/
  | advance (world : World) (next : α)
  /-- Nothing can be done before others have moved. -/
  | wait
  /-- Going on when the node has replied to a call. -/
  | call (peer : Node) (request : Request) (next : α)
  | finish (outcome : Outcome)

namespace Resolution

/-- A resolution that has not done anything yet. -/
def start (node : LocalNode) (request : Request) : Resolution := ⟨node, request, none, .start⟩

/-- The item of the request. -/
def item (r : Resolution) (w : World) : Item := w.items.get r.request.item

/-- The path of the target as the node sees it. -/
def localTarget (r : Resolution) : Option Path := r.request.target.pathIn r.node.id

/-- The resolution in another phase. -/
def inPhase (r : Resolution) (phase : Phase) : Resolution := { r with phase := phase }

/-- Notes that the item is at the target, and ends. -/
def deliver (r : Resolution) (w : World) (target : Target) : Move Resolution :=
  .advance (w.register r.request) (r.inPhase (.leaving (.ok target)))

/-- Goes on in the same world. -/
def proceed (r : Resolution) (w : World) (phase : Phase) : Move Resolution :=
  .advance w (r.inPhase phase)

/-! ## The ways to get an item -/

/-- The key in the persistent store becomes a location of the target's item. -/
def takeKey (r : Resolution) (w : World) : Move Resolution :=
  match (r.item w).key? with
  | some key =>
    .advance (w.addLocation r.request.targetItem (.persistent key))
      (r.inPhase (.completing (.ok (.key key))))
  | none => r.proceed w .resident

/-- A value in memory is kept there, when the target is in the memory of this node. -/
def keepValue (r : Resolution) (w : World) (value : Value) (name : String) : Move Resolution :=
  let kept := match r.request.targetItem with
    | some item => w.updateItem item fun d => { d with value := some value }
    | none => w
  .advance (kept.register r.request) (r.inPhase (.completing (.ok (.object name))))

/-- A value in memory is written to a file. What follows a failure is up to the policy of the
node. -/
def writeValue (r : Resolution) (w : World) (value : Value) (path : Path) : Move Resolution :=
  match value.writeTo w.files path with
  | (files, .ok ()) =>
    .advance ({ w with files := files }.register r.request)
      (r.inPhase (.completing (.ok (.path path))))
  | (files, .error e) =>
    match r.node.policy with
    | .authoritative =>
      .advance { w with files := files }
        (r.inPhase (.completing (.error (.serialization (r.item w).name e.message))))
    | .fallThrough => .advance { w with files := files } (r.inPhase .survey)

/-- Places the value in memory, if there is one and a place for it here. -/
def placeValue (r : Resolution) (w : World) : Move Resolution :=
  match (r.item w).value, r.request.target with
  | none, _ => r.proceed w .survey
  | some value, .memory host name =>
    if host = r.node.id then r.keepValue w value name else r.proceed w .survey
  | some value, _ =>
    match r.localTarget with
    | some path => r.writeValue w value path
    | none => r.proceed w .survey

/-- Pins the item and lists the copies in progress to this node. -/
def survey (r : Resolution) (w : World) : Move Resolution :=
  .advance (w.updateItem r.request.item Item.pin)
    (r.inPhase (.joining (w.copiesTo r.request.item r.node.id)))

/-- Takes over the outcome of a copy. A file that was delivered is copied to the target on this
node; when that fails, `otherwise` follows. -/
def takeOver (r : Resolution) (w : World) (outcome : Outcome) (otherwise : Phase) :
    Move Resolution :=
  match outcome with
  | .ok (.path delivered) =>
    let target := r.localTarget.getD delivered
    match w.copyFile delivered target with
    | .ok w => r.deliver w (.path target)
    | .error _ => r.proceed w otherwise
  | .ok target => r.deliver w target
  | .error e => r.proceed w (.leaving (.error e))

/-- Waits for a copy and takes over its outcome. -/
def join (r : Resolution) (w : World) (copy : CopyId) (otherwise : Phase) : Move Resolution :=
  match (w.copies.get copy).outcome with
  | none => .wait
  | some outcome => r.takeOver w outcome otherwise

/-- The path of the target, and the world after a replica on this node was copied there. -/
def copyReplica (r : Resolution) (w : World) : Option (Path × World) :=
  match r.localTarget with
  | none => none
  | some target =>
    (w.copyFirst target (World.pathsIn r.node.id (r.item w).locations)).map fun w => (target, w)

/-- Copies a replica on this node to the target. -/
def useReplica (r : Resolution) (w : World) (otherwise : Phase) : Move Resolution :=
  match r.copyReplica w with
  | some (target, w) => r.deliver w (.path target)
  | none => r.proceed w otherwise

/-! ## Calling other nodes -/

/-- The hosts of the declared source, if there is one. -/
def declaredHosts (r : Resolution) : List NodeId :=
  match r.request.source with
  | some source => source.hosts
  | none => []

/-- Copies the declared source, as this node sees it. -/
def useSource (r : Resolution) (w : World) (otherwise : Phase) : Move Resolution :=
  match r.request.source.bind fun l => l.pathIn r.node.id, r.localTarget with
  | some path, some target =>
    match w.copyFile path target with
    | .ok w => r.deliver w (.path target)
    | .error _ => r.proceed w otherwise
  | _, _ => r.proceed w otherwise

/-- Calls a host if it is in the directory. Before the first call a copy is registered. -/
def approach (r : Resolution) (w : World) (host : NodeId) (rest : Route) : Move Resolution :=
  match w.directory.get? host with
  | none => r.proceed w (.hosts rest)
  | some peer =>
    match r.started with
    | some _ => r.proceed w (.ask peer rest)
    | none => r.proceed w (.recheck peer rest)

/-- The error for an item that could not be got in any way. -/
def exhausted (r : Resolution) (w : World) : TransferError :=
  .exhausted (r.item w).name r.request.target.toText

/-- Takes the next host: those of the declared source first, then those that are known by then. -/
def nextHost (r : Resolution) (w : World) (route : Route) : Move Resolution :=
  match route.round, route.pending with
  | .declared, [] => r.proceed w (.hosts ⟨.known, (r.item w).hosts⟩)
  | .known, [] => r.proceed w (.leaving (.error (r.exhausted w)))
  | .declared, host :: rest =>
    if host = r.node.id then r.useSource w (.hosts ⟨.declared, rest⟩)
    else r.approach w host ⟨.declared, rest⟩
  | .known, host :: rest =>
    if host = r.node.id then r.proceed w (.hosts ⟨.known, rest⟩)
    else r.approach w host ⟨.known, rest⟩

/-- Whether a copy that has ended meanwhile left the item at the target. -/
def isDelivered (r : Resolution) (w : World) (path : Path) : Bool :=
  match r.request.targetItem with
  | some item => w.files.exists? path && (w.items.get item).knows r.request.target
  | none => false

/-- Looks for what a copy that has ended meanwhile left. -/
def lookAgain (r : Resolution) (w : World) (otherwise : Phase) : Move Resolution :=
  match r.localTarget with
  | none => r.proceed w otherwise
  | some path =>
    if r.isDelivered w path then r.proceed w (.leaving (.ok (.path path)))
    else r.useReplica w otherwise

/-- Joins a copy in progress, or registers one. -/
def enlist (r : Resolution) (w : World) (peer : Node) (route : Route) : Move Resolution :=
  match w.joinOrStart r.node.id r.request with
  | (w, .joined copy) => r.proceed w (.joined copy peer route)
  | (w, .started copy) => .advance w { r with started := some copy, phase := .ask peer route }

/-- The request that goes to another node. -/
def forwarded (r : Resolution) : Request := { r.request with requester := some r.node.id }

/-- Takes over what another node delivered; without that the next host is tried. -/
def accept (r : Resolution) (w : World) (reply : Reply) (route : Route) : Move Resolution :=
  match reply.target? with
  | some target => r.deliver w target
  | none => r.proceed w (.hosts route)

/-! ## Steps -/

/-- One step. -/
def step (r : Resolution) (w : World) : Move Resolution :=
  match r.phase with
  | .start => r.takeKey w
  | .resident => r.placeValue w
  | .survey => r.survey w
  | .joining [] => r.proceed w .replicas
  | .joining (copy :: rest) => r.join w copy (.joining rest)
  | .replicas => r.useReplica w (.hosts ⟨.declared, r.declaredHosts⟩)
  | .hosts route => r.nextHost w route
  | .recheck peer route => r.lookAgain w (.enlist peer route)
  | .enlist peer route => r.enlist w peer route
  | .joined copy peer route => r.join w copy (.recheck peer route)
  | .ask peer route => .call peer r.forwarded (r.inPhase (.asked route))
  | .asked _ => .wait
  | .answered reply route => r.accept w reply route
  | .leaving outcome =>
    .advance (w.updateItem r.request.item Item.unpin) (r.inPhase (.completing outcome))
  | .completing outcome =>
    match r.started with
    | none => r.proceed w (.done outcome)
    | some copy => .advance (w.complete copy outcome) (r.inPhase (.withdrawing copy outcome))
  | .withdrawing copy outcome =>
    .advance (w.updateItem r.request.item fun d => d.removeCopy copy) (r.inPhase (.done outcome))
  | .done outcome => .finish outcome

/-- Gives the resolution the reply it waits for. -/
def answer (r : Resolution) (reply : Reply) : Resolution :=
  match r.phase with
  | .asked route => r.inPhase (.answered reply route)
  | _ => r

end Resolution

end Wharf
