import Wharf.Simulation.State

/-!
# Runs of a simulation

Does one action after the other. A call to an own node is a thread that runs until it ends; the
foreign nodes that it calls on the way follow their scripts, which may do anything in between.

* `perform` does an action, `runThread` runs a thread until it ends or waits for another one, and
  `react` lets a foreign node react to a call.
* `turn` is one action from outside: threads that were left waiting in its course run to their ends
  after it.

Scripts may call each other without end, so the depth of these calls is bounded.
-/

namespace Wharf.Simulation

/-- The path that a foreign node delivers to: in the target as it sees it when it gets hold of the
item, and of the first other host when it sends the item. -/
def deliveryPath (call : Call) : Option Path :=
  match call.kind with
  | .obtain => call.request.target.pathIn call.peer.id
  | .send =>
    (call.request.target.hosts.filter fun host => host != call.peer.id).findSome?
      call.request.target.pathIn

/-- Ends a call. -/
def conclude (s : State) (call : Call) : Reaction → State × Reply
  | .refuse =>
    (s, .refused (.transfer ("node " ++ toString call.peer.id ++ " refuses transfers")))
  | .forget => (s, .dropped)
  | .notify outcome => (s, .notified outcome)
  | .deliver content =>
    let name := (s.world.items.get call.request.item).name
    match deliveryPath call with
    | none => (s, .notified (.error (.failed name "target has no path")))
    | some path =>
      match content with
      | none => (s, .notified (.ok (.path path)))
      | some content =>
        match s.writeFile path content with
        | (s, true) => (s, .notified (.ok (.path path)))
        | (s, false) => (s, .notified (.error (.failed name "cannot write")))

/-- Follows what a completion notifies: the listeners, in order. -/
def listenersOf (s : State) (ids : List ListenerId) : List (String × List Action) :=
  ids.filterMap fun id => s.listeners[id]?

mutual

/-- Does an action. -/
def perform : Nat → State → Action → State × Answer
  | 0, s, _ => (s, .nothing)
  | fuel + 1, s, action =>
    match action with
    | .call kind node request =>
      match s.nodes[node]? with
      | none => (s, .nothing)
      | some (.foreign n) =>
        let (s, reply) := react fuel s ⟨kind, n, request⟩
        (s, .reply reply)
      | some (.own n) =>
        match runThread fuel s (.start kind n request) with
        | (s, .replied reply) => (s, .reply reply)
        | (s, .waiting _) => (s, .reply .dropped)
    | .listen copy tag follow =>
      let id := s.copyId copy
      let (listening, outcome) := (s.world.copies.get id).listen s.listeners.length
      let s := { s with
        world := { s.world with copies := s.world.copies.set id listening }
        listeners := s.listeners ++ [(tag, follow)] }
      match outcome with
      | none => (s, .nothing)
      | some outcome => (notifyAll fuel s [(tag, follow)] outcome, .nothing)
    | .complete copy outcome =>
      let id := s.copyId copy
      let completion := (s.world.copies.get id).complete outcome
      let s := { s with
        world := { s.world with copies := s.world.copies.set id completion.copy } }
      (notifyAll fuel s (listenersOf s completion.notified) outcome, .flag completion.accepted)
    | simple => s.act simple

/-- Does actions in the course of another one, and notes what comes of them. -/
def performAll : Nat → State → List Action → State
  | 0, s, _ => s
  | _ + 1, s, [] => s
  | fuel + 1, s, action :: rest =>
    let (s, answer) := perform fuel s action
    performAll fuel (s.note (.followed answer)) rest

/-- Notifies listeners, each of which does its actions before the next one is notified. -/
def notifyAll : Nat → State → List (String × List Action) → Outcome → State
  | 0, s, _, _ => s
  | _ + 1, s, [], _ => s
  | fuel + 1, s, (tag, follow) :: rest, outcome =>
    let s := performAll fuel (s.note (.notified tag outcome)) follow
    notifyAll fuel s rest outcome

/-- Runs a thread until it ends or waits. -/
def runThread : Nat → State → Thread → State × Ending
  | 0, s, thread => (s, .waiting thread)
  | fuel + 1, s, thread =>
    match thread.step s.world with
    | .running world thread => runThread fuel { s with world := world } thread
    | .waiting => (s, .waiting thread)
    | .finished outcome => (s, .replied (.notified outcome))
    | .calling call thread =>
      let (s, reply) := react fuel s call
      runThread fuel s (thread.resume reply)

/-- Starts threads and leaves them where they wait. -/
def startThreads : Nat → State → List Action → State
  | 0, s, _ => s
  | _ + 1, s, [] => s
  | fuel + 1, s, action :: rest =>
    match action with
    | .call kind node request =>
      match s.nodes[node]? with
      | some (.own n) =>
        let (s, ending) := runThread fuel s (.start kind n request)
        startThreads fuel { s with threads := s.threads ++ [ending] } rest
      | _ => startThreads fuel s rest
    | _ => startThreads fuel s rest

/-- Lets a foreign node react to a call. -/
def react : Nat → State → Call → State × Reply
  | 0, s, _ => (s, .dropped)
  | fuel + 1, s, call =>
    let s := s.note (.called (s.callFacts call))
    match s.nextBehaviour call.peer.handle with
    | (none, s) => (s, .dropped)
    | (some behaviour, s) =>
      let s := performAll fuel s behaviour.follow
      let s := startThreads fuel s behaviour.threads
      conclude s call behaviour.reaction

end

/-- How deep scripts may call each other, and how far a thread may go. -/
def depth : Nat := 1000000

/-- Runs the threads that were left waiting, one after the other. -/
def finishThreads (s : State) : List Ending → State × List Reply
  | [] => (s, [])
  | .replied reply :: rest =>
    let (s, replies) := finishThreads s rest
    (s, reply :: replies)
  | .waiting thread :: rest =>
    let (s, ending) := runThread depth s thread
    let (s, replies) := finishThreads s rest
    match ending with
    | .replied reply => (s, reply :: replies)
    | .waiting _ => (s, .dropped :: replies)

/-- What an action from outside led to. -/
structure Turn where
  state : State
  answer : Answer
  /-- What the threads that were started in its course ended with. -/
  replies : List Reply

/-- Does an action from outside. -/
def turn (s : State) (action : Action) : Turn :=
  let (s, answer) := perform depth { s with events := [], threads := [] } action
  let (s, replies) := finishThreads s s.threads
  ⟨s, answer, replies⟩

end Wharf.Simulation
