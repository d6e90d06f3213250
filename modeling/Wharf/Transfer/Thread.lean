import Wharf.Transfer.Delivery

/-!
# Threads

A thread is a call to a node with all calls that it led to: a resolution asks another node to send,
which may ask a third one to resolve, and so on. Threads share one world and move in any order.

* `Thread.step` moves a thread. Calls to own nodes open a frame; those to foreign nodes are left to
  the surroundings, which give the reply by `Thread.resume`.
-/

namespace Wharf

/-- The two calls to a node. -/
inductive CallKind
  /-- Get hold of an item. -/
  | obtain
  /-- Send an item that the node has. -/
  | send
  deriving DecidableEq

/-- A call that an own node works on. -/
inductive Frame
  | obtain (resolution : Resolution)
  | send (delivery : Delivery)

namespace Frame

/-- The frame of a call. -/
def start (kind : CallKind) (node : LocalNode) (request : Request) : Frame :=
  match kind with
  | .obtain => .obtain (.start node request)
  | .send => .send (.start node request)

/-- What the calls that a frame makes ask for: resolutions have items sent, deliveries have them
got hold of. -/
def callKind : Frame → CallKind
  | obtain _ => .send
  | send _ => .obtain

/-- The same move of another thing. -/
def lift {α : Type} (f : α → Frame) : Move α → Move Frame
  | .advance world next => .advance world (f next)
  | .wait => .wait
  | .call peer request next => .call peer request (f next)
  | .finish outcome => .finish outcome

/-- One step. -/
def step (w : World) : Frame → Move Frame
  | obtain resolution => lift obtain (resolution.step w)
  | send delivery => lift send (delivery.step w)

/-- Gives the frame the reply it waits for. -/
def answer (reply : Reply) : Frame → Frame
  | obtain resolution => obtain (resolution.answer reply)
  | send delivery => send (delivery.answer reply)

end Frame

/-- The frame that is worked on, and those that wait for it, the last caller first. -/
structure Thread where
  frame : Frame
  callers : List Frame

/-- A call to a node outside. -/
structure Call where
  kind : CallKind
  peer : ForeignNode
  request : Request

/-- What became of a thread by a step. -/
inductive Progress
  | running (world : World) (thread : Thread)
  /-- Nothing can be done before another thread has moved. -/
  | waiting
  /-- The thread goes on when it has the reply to the call. -/
  | calling (call : Call) (thread : Thread)
  | finished (outcome : Outcome)

namespace Thread

/-- The thread of a call to an own node. -/
def start (kind : CallKind) (node : LocalNode) (request : Request) : Thread :=
  ⟨.start kind node request, []⟩

/-- Follows a move of the frame that is worked on. -/
def follow (callers : List Frame) (kind : CallKind) (world : World) : Move Frame → Progress
  | .advance world next => .running world ⟨next, callers⟩
  | .wait => .waiting
  | .call (.own node) request next => .running world ⟨.start kind node request, next :: callers⟩
  | .call (.foreign node) request next => .calling ⟨kind, node, request⟩ ⟨next, callers⟩
  | .finish outcome =>
    match callers with
    | [] => .finished outcome
    | caller :: rest => .running world ⟨caller.answer (.notified outcome), rest⟩

/-- One step. -/
def step (t : Thread) (w : World) : Progress :=
  follow t.callers t.frame.callKind w (t.frame.step w)

/-- Gives the thread the reply it waits for. -/
def resume (t : Thread) (reply : Reply) : Thread := { t with frame := t.frame.answer reply }

end Thread

end Wharf
