import Wharf.Proofs.Transfer.Courses
import Wharf.Proofs.Transfer.Sessions

/-!
# When other nodes are called

A resolution that comes upon no copy in progress calls other nodes only when it has nothing else
left to try, and then it goes through the hosts in a fixed order until one of them delivers.

* `Resolution.IsLastResort` collects what has failed by then. A session in which this is not so is
  over without a call (`Session.Early`).
* `Resolution.stops` are the hosts in the order in which it is their turn, `Session.Tour` says what
  happens there, whatever the peers do (`Session.comesTo_known`, `Session.comesTo_declared`).
* `Session.peers_are_last_resort` puts this together.
-/

namespace Wharf

namespace Resolution

variable (n : LocalNode) (q : Request)

/-! ## What has failed -/

/-- The value of the item has not been placed, and what the world is like then. -/
inductive NotPlaced (w : World) : World → Prop
  | absent (noValue : (w.items.get q.item).value = none) : NotPlaced w w
  /-- The target is neither in the memory of this node nor a file that it sees. -/
  | noPlace (noMemory : ∀ name, q.target ≠ .memory n.id name)
      (noPath : q.target.pathIn n.id = none) : NotPlaced w w
  /-- The value could not be written, and the node goes on nevertheless. -/
  | failed {value : Value} {path : Path} {files : Files} {e : Failure}
      (goesOn : n.policy = .fallThrough) (hvalue : (w.items.get q.item).value = some value)
      (here : q.target.pathIn n.id = some path)
      (fault : value.writeTo w.files path = (files, .error e)) :
      NotPlaced w { w with files := files }

/-- No replica on the node can be copied to the target. -/
def NoReplica (w : World) : Prop :=
  ∀ path, q.target.pathIn n.id = some path → ∀ source ∈ ownReplicas n q w, ¬ w.CanBring path source

/-- The target is not registered yet, or is not there. -/
def NotThere (w : World) : Prop :=
  ∀ path, q.target.pathIn n.id = some path → q.isKnown w = true → w.files.exists? path = false

/-- There is nothing left to try on the node itself: no key, no value that could be placed, no
replica that can be copied, and nothing at the target already. Files are looked at after what was
tried with the value. -/
structure IsLastResort (w v : World) : Prop where
  noKey : (w.items.get q.item).key? = none
  notPlaced : NotPlaced n q w v
  noReplica : NoReplica n q v
  notThere : NotThere n q v

/-! ## The hosts whose turn it is -/

/-- Where a resolution stops on its way through the hosts. -/
inductive Stop
  /-- The node itself, where it sees the declared source. -/
  | here
  | host (id : NodeId)
  deriving DecidableEq

/-- The stops at the hosts of the declared source. -/
def declaredStops (hosts : List NodeId) : List Stop :=
  hosts.map fun host => if host = n.id then .here else .host host

/-- The stops at the hosts that are known to have the item. The node itself is not one of them. -/
def knownStops (hosts : List NodeId) : List Stop :=
  (hosts.filter fun host => host != n.id).map .host

/-- All stops: the hosts of the declared source, then those that are known to have the item. -/
def stops (w : World) : List Stop :=
  declaredStops n (start n q).declaredHosts ++ knownStops n (w.items.get q.item).hosts

/-- The node that is called at a stop. -/
def Stop.peer? (d : Directory) : Stop → Option Node
  | here => none
  | host id => d.get? id

/-- The declared source as the node sees it and the path of the target, if it has both. -/
def ownSource? : Option (Path × Path) :=
  match q.source.bind fun l => l.pathIn n.id, q.target.pathIn n.id with
  | some source, some path => some (source, path)
  | _, _ => none

/-! ## Steps before the first call -/

variable {n q} {w v u : World} {r : Resolution} {started : Option CopyId} {phase otherwise : Phase}
  {value : Value} {path : Path}

theorem NotPlaced.eq (h : NotPlaced n q w v) : v = { w with files := v.files } := by
  cases h <;> rfl

theorem NotPlaced.grows (h : NotPlaced n q w v) : w.files.Grows v.files := by
  cases h with
  | absent _ => exact .refl _
  | noPlace _ _ => exact .refl _
  | @failed value path files e _ _ _ fault =>
    have grows : w.files.Grows (value.writeTo w.files path).1 := value.grows_writeTo
    rwa [fault] at grows

/-- What comes of an attempt: the resolution has its outcome, or nothing has happened. -/
def Settles (m : Move Resolution) : Prop :=
  ∃ u r outcome, m = .advance u r ∧ r.verdict? = some outcome

theorem settles_deliver (w : World) (target : Target) : Settles (r.deliver w target) :=
  ⟨_, _, _, rfl, rfl⟩

theorem step_of_notPlaced (h : NotPlaced n q w v) :
    step ⟨n, q, started, .resident⟩ w = .advance v ⟨n, q, started, .survey⟩ := by
  rw [step]
  dsimp only
  unfold placeValue
  cases h with
  | absent noValue =>
    simp only [item, noValue]
    rfl
  | noPlace noMemory noPath =>
    simp only [item]
    split
    · rfl
    · rename_i host name _ hmemory
      split
      · rename_i hhost
        subst hhost
        exact absurd hmemory (noMemory name)
      · rfl
    · simp only [localTarget, noPath]
      rfl
  | failed goesOn hvalue here fault =>
    simp only [item, hvalue]
    split
    · cases ‹some _ = none›
    · rename_i hmemory
      rw [hmemory] at here
      cases here
    · rename_i held _
      cases held
      simp only [localTarget, here, writeValue, fault, goesOn]
      rfl

theorem settles_or_notPlaced (started : Option CopyId) (w : World) :
    Settles (step ⟨n, q, started, .resident⟩ w) ∨ ∃ v, NotPlaced n q w v := by
  rw [step]
  dsimp only
  unfold placeValue
  cases hvalue : (w.items.get q.item).value with
  | none => exact .inr ⟨w, .absent hvalue⟩
  | some value =>
    simp only [item, hvalue]
    split
    · cases ‹some _ = none›
    · rename_i host name _ hmemory
      split
      · exact .inl ⟨_, _, _, rfl, rfl⟩
      · rename_i hhost
        refine .inr ⟨w, .noPlace (fun other heq => ?_) ?_⟩
        · rw [hmemory] at heq
          cases heq
          exact hhost rfl
        · rw [hmemory]
          rfl
    · rename_i held hmemory
      cases held
      cases here : q.target.pathIn n.id with
      | none =>
        exact .inr ⟨w, .noPlace (fun name heq => hmemory n.id name heq) here⟩
      | some path =>
        simp only [localTarget, here, writeValue]
        split
        · exact .inl ⟨_, _, _, rfl, rfl⟩
        · rename_i files e fault
          split
          · exact .inl ⟨_, _, _, rfl, rfl⟩
          · rename_i goesOn
            exact .inr ⟨_, .failed goesOn hvalue here fault⟩

theorem copyReplica_eq_none_iff :
    copyReplica ⟨n, q, started, phase⟩ w = none ↔ NoReplica n q w := by
  unfold copyReplica NoReplica localTarget
  dsimp only
  cases here : q.target.pathIn n.id with
  | none => simp
  | some path =>
    simp only [Option.map_eq_none_iff, Option.some.injEq, forall_eq']
    exact World.copyFirst_eq_none_iff

theorem useReplica_of_noReplica (h : NoReplica n q w) (otherwise : Phase) :
    useReplica ⟨n, q, started, phase⟩ w otherwise = .advance w ⟨n, q, started, otherwise⟩ := by
  unfold useReplica
  rw [copyReplica_eq_none_iff.2 h]
  rfl

theorem settles_or_noReplica (started : Option CopyId) (phase otherwise : Phase) (w : World) :
    Settles (useReplica ⟨n, q, started, phase⟩ w otherwise) ∨ NoReplica n q w := by
  unfold useReplica
  split
  · exact .inl (settles_deliver _ _)
  · rename_i hnone
    exact .inr (copyReplica_eq_none_iff.1 hnone)

theorem isDelivered_iff :
    isDelivered ⟨n, q, started, phase⟩ w path = true ↔
      q.isKnown w = true ∧ w.files.exists? path = true := by
  unfold isDelivered Request.isKnown
  dsimp only
  cases q.targetItem with
  | none => simp
  | some i => rw [Bool.and_eq_true, and_comm]

theorem lookAgain_of_notThere (noReplica : NoReplica n q w) (notThere : NotThere n q w)
    (otherwise : Phase) :
    lookAgain ⟨n, q, started, phase⟩ w otherwise = .advance w ⟨n, q, started, otherwise⟩ := by
  unfold lookAgain
  split
  · rfl
  · rename_i path here
    rw [if_neg, useReplica_of_noReplica noReplica]
    intro delivered
    rw [isDelivered_iff] at delivered
    rw [notThere path here delivered.1] at delivered
    exact absurd delivered.2 Bool.false_ne_true

theorem settles_or_notThere (started : Option CopyId) (phase otherwise : Phase) (w : World) :
    Settles (lookAgain ⟨n, q, started, phase⟩ w otherwise) ∨ NotThere n q w := by
  unfold lookAgain
  split
  · rename_i nowhere
    refine .inr fun path here => ?_
    rw [show q.target.pathIn n.id = none from nowhere] at here
    cases here
  · rename_i path here
    split
    · exact .inl ⟨_, _, _, rfl, rfl⟩
    · rename_i notDelivered
      refine .inr fun path' here' known => ?_
      cases (show q.target.pathIn n.id = some path from here).symm.trans here'
      rw [isDelivered_iff] at notDelivered
      exact Bool.eq_false_iff.2 fun there => notDelivered ⟨known, there⟩

/-- The node copies the declared source where it sees it, or goes on. -/
theorem useSource_eq_ownSource (otherwise : Phase) :
    useSource ⟨n, q, started, phase⟩ w otherwise =
      match ownSource? n q with
      | some (source, path) =>
        match w.copyFile source path with
        | .ok w => deliver ⟨n, q, started, phase⟩ w (.path path)
        | .error _ => .advance w ⟨n, q, started, otherwise⟩
      | none => .advance w ⟨n, q, started, otherwise⟩ := by
  unfold useSource ownSource? localTarget
  dsimp only
  cases q.source.bind fun l => l.pathIn n.id with
  | none => rfl
  | some source =>
    cases q.target.pathIn n.id with
    | none => rfl
    | some path =>
      dsimp only
      cases w.copyFile source path <;> rfl

theorem settles_useSource_or_eq (w : World) (otherwise : Phase) :
    Settles (useSource ⟨n, q, started, phase⟩ w otherwise) ∨
      useSource ⟨n, q, started, phase⟩ w otherwise = .advance w ⟨n, q, started, otherwise⟩ := by
  rw [useSource_eq_ownSource]
  split
  · split
    · exact .inl (settles_deliver _ _)
    · exact .inr rfl
  · exact .inr rfl

/-! ## The world of the first call -/

/-- The item with one pin more. -/
def pinned (q : Request) (w : World) : World := w.updateItem q.item Item.pin

theorem sameItems_pinned (w : World) : w.SameItems (pinned q w) :=
  .updateItem ⟨rfl, rfl, rfl, rfl⟩

theorem noReplica_pinned : NoReplica n q (pinned q w) ↔ NoReplica n q w := by
  unfold NoReplica ownReplicas
  rw [(sameItems_pinned w q.item).locations]
  rfl

theorem notThere_pinned : NotThere n q (pinned q w) ↔ NotThere n q w := by
  unfold NotThere
  rw [Request.isKnown_eq (sameItems_pinned w)]
  rfl

theorem NotPlaced.sameItems (h : NotPlaced n q w v) : w.SameItems v :=
  .of_items_eq (by rw [h.eq])

theorem NotPlaced.copiesTo_eq (h : NotPlaced n q w v) :
    v.copiesTo q.item n.id = w.copiesTo q.item n.id := by
  rw [h.eq]
  rfl

theorem copiesTo_pinned (q : Request) (w : World) (node : NodeId) :
    (pinned q w).copiesTo q.item node = w.copiesTo q.item node :=
  (World.SameCopies.updateItem w q.item Item.copies_pin).copiesTo_eq _ _

end Resolution

/-! ## Before the first call -/

namespace Session

open Resolution

variable {n : LocalNode} {q : Request} {w v : World} {s : Session} {peers : Peers}

/-- The states in which nobody has been called yet. -/
inductive Early (n : LocalNode) (q : Request) (w : World) : Session → Prop
  | start : Early n q w (start w n q)
  | resident (noKey : (w.items.get q.item).key? = none) :
      Early n q w ⟨w, ⟨n, q, none, .resident⟩, []⟩
  | survey {v : World} (noKey : (w.items.get q.item).key? = none) (left : NotPlaced n q w v) :
      Early n q w ⟨v, ⟨n, q, none, .survey⟩, []⟩
  | joining {v : World} (noKey : (w.items.get q.item).key? = none) (left : NotPlaced n q w v) :
      Early n q w ⟨pinned q v, ⟨n, q, none, .joining []⟩, []⟩
  | replicas {v : World} (noKey : (w.items.get q.item).key? = none) (left : NotPlaced n q w v) :
      Early n q w ⟨pinned q v, ⟨n, q, none, .replicas⟩, []⟩
  | hosts {v : World} {route : Route} (noKey : (w.items.get q.item).key? = none)
      (left : NotPlaced n q w v) (noReplica : NoReplica n q v) :
      Early n q w ⟨pinned q v, ⟨n, q, none, .hosts route⟩, []⟩
  | recheck {v : World} {peer : Node} {route : Route} (noKey : (w.items.get q.item).key? = none)
      (left : NotPlaced n q w v) (noReplica : NoReplica n q v) :
      Early n q w ⟨pinned q v, ⟨n, q, none, .recheck peer route⟩, []⟩
  | ended {u : World} {r : Resolution} {outcome : Outcome} (verdict : r.verdict? = some outcome) :
      Early n q w ⟨u, r, []⟩

theorem early_of_settles {u : World} {r : Resolution} (h : Settles (r.step u)) :
    Early n q w (move peers ⟨u, r, []⟩) := by
  obtain ⟨u', r', outcome, hstep, verdict⟩ := h
  rw [move_of_advance hstep]
  exact .ended verdict

theorem early_of_advance {u u' : World} {r r' : Resolution} (h : r.step u = .advance u' r')
    (next : Early n q w ⟨u', r', []⟩) : Early n q w (move peers ⟨u, r, []⟩) := by
  rwa [move_of_advance h]

/-- The host whose turn it is is looked up, or nobody is left. -/
theorem early_of_hosts {route : Route} (noKey : (w.items.get q.item).key? = none)
    (left : NotPlaced n q w v) (noReplica : NoReplica n q v) :
    Early n q w (move peers ⟨pinned q v, ⟨n, q, none, .hosts route⟩, []⟩) := by
  have hosts (route : Route) : Early n q w ⟨pinned q v, ⟨n, q, none, .hosts route⟩, []⟩ :=
    .hosts noKey left noReplica
  have approach (route rest : Route) (host : NodeId)
      (hstep : step ⟨n, q, none, .hosts route⟩ (pinned q v) =
        Resolution.approach ⟨n, q, none, .hosts route⟩ (pinned q v) host rest) :
      Early n q w (Session.move peers ⟨pinned q v, ⟨n, q, none, .hosts route⟩, []⟩) := by
    unfold Resolution.approach at hstep
    split at hstep
    · exact early_of_advance hstep (hosts rest)
    · exact early_of_advance hstep (.recheck noKey left noReplica)
  obtain ⟨round, pending⟩ := route
  cases pending with
  | nil =>
    cases round with
    | declared => exact early_of_advance rfl (hosts _)
    | known => exact early_of_settles ⟨_, _, _, rfl, rfl⟩
  | cons host rest =>
    by_cases self : host = n.id
    · cases round with
      | declared =>
        have hstep : step ⟨n, q, none, .hosts ⟨.declared, host :: rest⟩⟩ (pinned q v) =
            useSource ⟨n, q, none, .hosts ⟨.declared, host :: rest⟩⟩ (pinned q v)
              (.hosts ⟨.declared, rest⟩) := by
          simp only [step, nextHost, if_pos self]
        rcases settles_useSource_or_eq (pinned q v) (.hosts ⟨.declared, rest⟩)
          with settles | goesOn
        · exact early_of_settles (hstep ▸ settles)
        · exact early_of_advance (hstep.trans goesOn) (hosts _)
      | known =>
        refine early_of_advance ?_ (hosts ⟨.known, rest⟩)
        simp only [step, nextHost, if_pos self]
        rfl
    · refine approach _ ⟨round, rest⟩ host ?_
      cases round <;> simp only [step, nextHost, if_neg self]

/-- **The first call is the last resort.** -/
theorem Early.move (free : w.copiesTo q.item n.id = []) (h : Early n q w s) :
    Early n q w (s.move peers) ∨ ∃ v, IsLastResort n q w v := by
  cases h with
  | start =>
    left
    cases hkey : (w.items.get q.item).key? with
    | some key => exact early_of_settles ⟨_, _, _, step_start_of_key hkey, rfl⟩
    | none => exact early_of_advance (step_start_of_noKey hkey) (.resident hkey)
  | resident noKey =>
    left
    rcases settles_or_notPlaced none w with settles | ⟨v, left⟩
    · exact early_of_settles settles
    · exact early_of_advance (step_of_notPlaced left) (.survey noKey left)
  | survey noKey notPlaced =>
    left
    refine early_of_advance ?_ (.joining noKey notPlaced)
    simp only [step, Resolution.survey, notPlaced.copiesTo_eq, free]
    rfl
  | joining noKey left => exact .inl (early_of_advance rfl (.replicas noKey left))
  | @replicas v noKey left =>
    left
    rcases settles_or_noReplica none .replicas
      (.hosts ⟨.declared, (Resolution.start n q).declaredHosts⟩) (pinned q v)
      with settles | noReplica
    · exact early_of_settles settles
    · exact early_of_advance (useReplica_of_noReplica noReplica _)
        (.hosts noKey left (noReplica_pinned.1 noReplica))
  | hosts noKey left noReplica => exact .inl (early_of_hosts noKey left noReplica)
  | @recheck v peer route noKey left noReplica =>
    rcases settles_or_notThere none (.recheck peer route) (.enlist peer route) (pinned q v)
      with settles | notThere
    · exact .inl (early_of_settles settles)
    · exact .inr ⟨v, noKey, left, noReplica, notThere_pinned.1 notThere⟩
  | @ended u r outcome verdict =>
    left
    rcases r.step_of_verdict (w := u) verdict with hfinish | ⟨u', r', hadvance, hverdict, -⟩
    · have stays : Session.move peers ⟨u, r, []⟩ = ⟨u, r, []⟩ := by
        simp only [Session.move, hfinish]
      rw [stays]
      exact .ended verdict
    · exact early_of_advance hadvance (.ended hverdict)

theorem Early.exchanges (h : Early n q w s) : s.exchanges = [] := by cases h <;> rfl

/-! ## From the first call on -/

/-- The request that goes to other nodes. -/
def asked (n : LocalNode) (q : Request) : Request := { q with requester := some n.id }

/-- The world in which a node is called. Before the first call a copy is registered. -/
def enlisted (n : LocalNode) (q : Request) (w : World) : List Exchange → World
  | [] => (w.joinOrStart n.id q).1
  | _ :: _ => w

/-- What happens at the stops, after what has been exchanged before: the exchanges there will have
been in the end, and the outcome. -/
inductive Tour (peers : Peers) (n : LocalNode) (q : Request) :
    World → List Exchange → List Stop → List Exchange → Outcome → Prop
  | exhausted {w : World} {exchanges : List Exchange} :
      Tour peers n q w exchanges [] exchanges
        (.error (.exhausted (w.items.get q.item).name q.target.toText))
  /-- The node has copied the declared source itself. -/
  | copied {w w' : World} {exchanges : List Exchange} {rest : List Stop} {source path : Path}
      (own : ownSource? n q = some (source, path)) (copied : w.copyFile source path = .ok w') :
      Tour peers n q w exchanges (.here :: rest) exchanges (.ok (.path path))
  | passed {w : World} {exchanges all : List Exchange} {rest : List Stop} {outcome : Outcome}
      (cannot : ∀ source path, ownSource? n q = some (source, path) → ¬ w.CanBring path source)
      (next : Tour peers n q w exchanges rest all outcome) :
      Tour peers n q w exchanges (.here :: rest) all outcome
  | absent {w : World} {exchanges all : List Exchange} {id : NodeId} {rest : List Stop}
      {outcome : Outcome} (absent : w.directory.get? id = none)
      (next : Tour peers n q w exchanges rest all outcome) :
      Tour peers n q w exchanges (.host id :: rest) all outcome
  | delivered {w w' : World} {exchanges : List Exchange} {id : NodeId} {rest : List Stop}
      {peer : Node} {reply : Reply} {target : Target}
      (present : w.directory.get? id = some peer)
      (answered : peers exchanges peer (asked n q) (enlisted n q w exchanges) = (w', reply))
      (told : reply.target? = some target) :
      Tour peers n q w exchanges (.host id :: rest) (exchanges ++ [⟨peer, asked n q, reply⟩])
        (.ok target)
  | failed {w w' : World} {exchanges all : List Exchange} {id : NodeId} {rest : List Stop}
      {peer : Node} {reply : Reply} {outcome : Outcome}
      (present : w.directory.get? id = some peer)
      (answered : peers exchanges peer (asked n q) (enlisted n q w exchanges) = (w', reply))
      (silent : reply.target? = none)
      (next : Tour peers n q w' (exchanges ++ [⟨peer, asked n q, reply⟩]) rest all outcome) :
      Tour peers n q w exchanges (.host id :: rest) all outcome

/-- The resolution goes through the hosts, and the index is as it was. -/
structure OnTour (n : LocalNode) (q : Request) (w u : World) (started : Option CopyId)
    (exchanges : List Exchange) : Prop where
  locations : (u.items.get q.item).locations = (w.items.get q.item).locations
  state : (exchanges = [] ∧ started = none ∧ ∃ v, IsLastResort n q w v ∧ u = pinned q v) ∨
    exchanges ≠ [] ∧ started.isSome

/-- Peers that do not deliver leave the name and the locations of an item alone. -/
def KeepsIndex (peers : Peers) (i : ItemId) : Prop :=
  ∀ exchanges peer q w w' reply, peers exchanges peer q w = (w', reply) → reply.target? = none →
    (w'.items.get i).name = (w.items.get i).name ∧
      (w'.items.get i).locations = (w.items.get i).locations

/-- Peers that do not deliver leave the directory alone. -/
def KeepsDirectory (peers : Peers) : Prop :=
  ∀ exchanges peer q w w' reply, peers exchanges peer q w = (w', reply) → reply.target? = none →
    w'.directory = w.directory

/-- Whenever the resolution has got to a phase on its way through the hosts, these stops are what is
left. -/
def Visits (peers : Peers) (n : LocalNode) (q : Request) (w : World) (phase : Phase)
    (stops : List Stop) : Prop :=
  ∀ u started exchanges, OnTour n q w u started exchanges → ∃ all outcome,
    ComesTo peers ⟨u, ⟨n, q, started, phase⟩, exchanges⟩ all outcome ∧
      Tour peers n q u exchanges stops all outcome

section Visits

variable {u : World} {stops : List Stop} {host : NodeId} {round : Round} {rest : List NodeId}

theorem sameItems_enlisted (w : World) (exchanges : List Exchange) :
    w.SameItems (enlisted n q w exchanges) := by
  cases exchanges with
  | cons _ _ => exact .refl w
  | nil =>
    cases free : w.copiesTo q.item n.id with
    | nil => exact .joinOrStart free
    | cons copy rest =>
      simp only [enlisted, World.joinOrStart, free]
      exact .refl w

theorem directory_enlisted (w : World) (exchanges : List Exchange) :
    (enlisted n q w exchanges).directory = w.directory := by
  cases exchanges with
  | cons _ _ => rfl
  | nil =>
    simp only [enlisted, World.joinOrStart]
    cases w.copiesTo q.item n.id <;> rfl

variable (keeps : KeepsIndex peers q.item)

include keeps

/-- The next host is called, and its reply is what counts. -/
theorem visits_ask {peer : Node} {route : Route} (next : Visits peers n q w (.hosts route) stops)
    (u : World) (exchanges : List Exchange) (c : CopyId)
    (locations : (u.items.get q.item).locations = (w.items.get q.item).locations)
    (present : u.directory.get? host = some peer) :
    ∃ all outcome,
      ComesTo peers ⟨enlisted n q u exchanges, ⟨n, q, some c, .ask peer route⟩, exchanges⟩
        all outcome ∧ Tour peers n q u exchanges (.host host :: stops) all outcome := by
  rcases hreply : peers exchanges peer (asked n q) (enlisted n q u exchanges) with ⟨u', reply⟩
  have called : step ⟨n, q, some c, .ask peer route⟩ (enlisted n q u exchanges) =
      .call peer (asked n q) ⟨n, q, some c, .asked route⟩ := rfl
  cases told : reply.target? with
  | some target =>
    have accepts : step (answer ⟨n, q, some c, .asked route⟩ reply) u' =
        .advance (u'.register q) ⟨n, q, some c, .leaving (.ok target)⟩ := by
      simp only [answer, inPhase, step, accept, told]
      rfl
    exact ⟨_, _, .of_call called hreply (.of_advance accepts (.of_verdict rfl)),
      .delivered present hreply told⟩
  | none =>
    have located : (u'.items.get q.item).locations = (w.items.get q.item).locations := by
      rw [(keeps _ _ _ _ _ _ hreply told).2, ((sameItems_enlisted u exchanges) q.item).locations,
        locations]
    obtain ⟨all, outcome, comes, tour⟩ := next u' (some c)
      (exchanges ++ [⟨peer, asked n q, reply⟩]) ⟨located, .inr ⟨by simp, rfl⟩⟩
    have goesOn : step (answer ⟨n, q, some c, .asked route⟩ reply) u' =
        .advance u' ⟨n, q, some c, .hosts route⟩ := by
      simp only [answer, inPhase, step, accept, told]
      rfl
    exact ⟨all, outcome, .of_call called hreply (.of_advance goesOn comes),
      .failed present hreply told tour⟩

/-- It is the turn of another host. -/
theorem visits_host (free : w.copiesTo q.item n.id = []) (ne : host ≠ n.id)
    (next : Visits peers n q w (.hosts ⟨round, rest⟩) stops) :
    Visits peers n q w (.hosts ⟨round, host :: rest⟩) (.host host :: stops) := by
  intro u started exchanges onTour
  have turn : step ⟨n, q, started, .hosts ⟨round, host :: rest⟩⟩ u =
      approach ⟨n, q, started, .hosts ⟨round, host :: rest⟩⟩ u host ⟨round, rest⟩ := by
    cases round <;> simp only [step, nextHost, if_neg ne]
  unfold approach at turn
  split at turn
  · rename_i absent
    obtain ⟨all, outcome, comes, tour⟩ := next u started exchanges onTour
    exact ⟨all, outcome, .of_advance turn comes, .absent absent tour⟩
  · rename_i peer present
    rcases onTour.state with ⟨rfl, rfl, v, last, rfl⟩ | ⟨called, own⟩
    · -- Nobody has been called yet: the node looks once more, and registers a copy.
      have none : (pinned q v).copiesTo q.item n.id = [] := by
        rw [copiesTo_pinned, last.notPlaced.copiesTo_eq, free]
      have looks : step ⟨n, q, .none, .recheck peer ⟨round, rest⟩⟩ (pinned q v) =
          .advance (pinned q v) ⟨n, q, .none, .enlist peer ⟨round, rest⟩⟩ :=
        lookAgain_of_notThere (noReplica_pinned.2 last.noReplica)
          (notThere_pinned.2 last.notThere) _
      have enlists : step ⟨n, q, .none, .enlist peer ⟨round, rest⟩⟩ (pinned q v) =
          .advance (enlisted n q (pinned q v) [])
            ⟨n, q, some (pinned q v).copies.size, .ask peer ⟨round, rest⟩⟩ := by
        simp only [step, enlist, enlisted, World.joinOrStart, none]
      obtain ⟨all, outcome, comes, tour⟩ := visits_ask keeps next (pinned q v) [] _
        onTour.locations present
      exact ⟨all, outcome, .of_advance turn (.of_advance looks (.of_advance enlists comes)), tour⟩
    · obtain ⟨c, rfl⟩ := Option.isSome_iff_exists.1 own
      obtain ⟨e, before, rfl⟩ := List.exists_cons_of_ne_nil called
      obtain ⟨all, outcome, comes, tour⟩ := visits_ask keeps next u (e :: before) c
        onTour.locations present
      exact ⟨all, outcome, .of_advance turn comes, tour⟩

/-- It is the turn of the hosts that are known to have the item. -/
theorem visits_known (free : w.copiesTo q.item n.id = []) (hosts : List NodeId) :
    Visits peers n q w (.hosts ⟨.known, hosts⟩) (knownStops n hosts) := by
  induction hosts with
  | nil =>
    intro u started exchanges _
    exact ⟨_, _, .of_advance rfl (.of_verdict rfl), .exhausted⟩
  | cons host rest ih =>
    by_cases self : host = n.id
    · have skipped : knownStops n (host :: rest) = knownStops n rest := by
        rw [knownStops, List.filter_cons_of_neg (by simpa using self), knownStops]
      intro u started exchanges onTour
      obtain ⟨all, outcome, comes, tour⟩ := ih u started exchanges onTour
      have turn : step ⟨n, q, started, .hosts ⟨.known, host :: rest⟩⟩ u =
          .advance u ⟨n, q, started, .hosts ⟨.known, rest⟩⟩ := by
        simp only [step, nextHost, if_pos self]
        rfl
      rw [skipped]
      exact ⟨all, outcome, .of_advance turn comes, tour⟩
    · have stop : knownStops n (host :: rest) = .host host :: knownStops n rest := by
        rw [knownStops, List.filter_cons_of_pos (by simpa using self), knownStops, List.map_cons]
      rw [stop]
      exact visits_host keeps free self ih

/-- It is the turn of the hosts of the declared source. -/
theorem visits_declared (free : w.copiesTo q.item n.id = []) (hosts : List NodeId) :
    Visits peers n q w (.hosts ⟨.declared, hosts⟩)
      (declaredStops n hosts ++ knownStops n (w.items.get q.item).hosts) := by
  induction hosts with
  | nil =>
    intro u started exchanges onTour
    obtain ⟨all, outcome, comes, tour⟩ :=
      visits_known keeps free (w.items.get q.item).hosts u started exchanges onTour
    refine ⟨all, outcome, .of_advance ?_ comes, tour⟩
    simp only [step, nextHost, item, Item.hosts, onTour.locations]
    rfl
  | cons host rest ih =>
    by_cases self : host = n.id
    · have stop : declaredStops n (host :: rest) = .here :: declaredStops n rest := by
        rw [declaredStops, List.map_cons, if_pos self, declaredStops]
      rw [stop, List.cons_append]
      intro u started exchanges onTour
      have turn : step ⟨n, q, started, .hosts ⟨.declared, host :: rest⟩⟩ u =
          useSource ⟨n, q, started, .hosts ⟨.declared, host :: rest⟩⟩ u
            (.hosts ⟨.declared, rest⟩) := by
        simp only [step, nextHost, if_pos self]
      obtain ⟨all, outcome, comes, tour⟩ := ih u started exchanges onTour
      rw [useSource_eq_ownSource] at turn
      cases own : ownSource? n q with
      | none =>
        simp only [own] at turn
        refine ⟨all, outcome, .of_advance turn comes, .passed ?_ tour⟩
        intro source path hsome
        rw [own] at hsome
        cases hsome
      | some paths =>
        obtain ⟨source, path⟩ := paths
        cases copied : u.copyFile source path with
        | ok u' =>
          simp only [own, copied] at turn
          exact ⟨_, _, .of_advance turn (.of_verdict rfl), .copied own copied⟩
        | error e =>
          simp only [own, copied] at turn
          refine ⟨all, outcome, .of_advance turn comes, .passed ?_ tour⟩
          intro source' path' hsome can
          rw [own] at hsome
          cases hsome
          obtain ⟨u', hok⟩ := World.canBring_iff.1 can
          rw [copied] at hok
          cases hok
    · have stop : declaredStops n (host :: rest) = .host host :: declaredStops n rest := by
        rw [declaredStops, List.map_cons, if_neg self, declaredStops]
      rw [stop, List.cons_append]
      exact visits_host keeps free self ih

end Visits

/-! ## What a tour comes to -/

/-- How a tour ends, with the last exchange if that has been a delivery. -/
inductive TourEnds (n : LocalNode) (q : Request) (w : World) (stops : List Stop)
    (called : List Node) : List Exchange → Outcome → Prop
  /-- A node that was called has delivered. -/
  | delivered {e : Exchange} {target : Target} (told : e.reply.target? = some target) :
      TourEnds n q w stops called [e] (.ok target)
  /-- The node has copied the declared source when it was its turn. -/
  | copied {source path : Path} (turn : .here ∈ stops)
      (own : ownSource? n q = some (source, path)) :
      TourEnds n q w stops called [] (.ok (.path path))
  /-- All have been called in vain. -/
  | exhausted (all : called = stops.filterMap (Stop.peer? w.directory)) :
      TourEnds n q w stops called []
        (.error (.exhausted (w.items.get q.item).name q.target.toText))

theorem TourEnds.mono {w' : World} {stops stops' : List Stop} {called called' : List Node}
    {last : List Exchange} {outcome : Outcome} (h : TourEnds n q w stops called last outcome)
    (name : (w'.items.get q.item).name = (w.items.get q.item).name)
    (turn : .here ∈ stops → .here ∈ stops')
    (all : called = stops.filterMap (Stop.peer? w.directory) →
      called' = stops'.filterMap (Stop.peer? w'.directory)) :
    TourEnds n q w' stops' called' last outcome := by
  cases h with
  | delivered told => exact .delivered told
  | copied here own => exact .copied (turn here) own
  | exhausted called =>
    rw [← name]
    exact .exhausted (all called)

/-- The nodes that were called are the first ones of those that are registered, in the order of the
stops, and none of them has delivered but perhaps the last one. -/
def CallsInOrder (n : LocalNode) (q : Request) (w : World) (stops : List Stop)
    (exchanges : List Exchange) (outcome : Outcome) : Prop :=
  ∃ failures last, exchanges = failures ++ last ∧ (∀ e ∈ failures, e.reply.target? = none) ∧
    exchanges.map Exchange.peer <+: stops.filterMap (Stop.peer? w.directory) ∧
    TourEnds n q w stops (failures.map Exchange.peer) last outcome

section CallsInOrder

variable {stop : Stop} {rest : List Stop} {exchanges last : List Exchange} {outcome : Outcome}
  {called : List Node}

theorem callsInOrder_nil (h : TourEnds n q w rest [] [] outcome) :
    CallsInOrder n q w rest [] outcome :=
  ⟨[], [], rfl, List.forall_mem_nil _, List.nil_prefix, h⟩

/-- A stop where nobody is called. -/
theorem CallsInOrder.skip (h : CallsInOrder n q w rest exchanges outcome)
    (nobody : stop.peer? w.directory = none) :
    CallsInOrder n q w (stop :: rest) exchanges outcome := by
  obtain ⟨failures, last, hall, silent, calls, ends⟩ := h
  have same : (stop :: rest).filterMap (Stop.peer? w.directory) =
      rest.filterMap (Stop.peer? w.directory) := List.filterMap_cons_none nobody
  exact ⟨failures, last, hall, silent, same ▸ calls,
    ends.mono rfl (List.mem_cons_of_mem _) fun all => all.trans same.symm⟩

/-- A stop where a node is called that does not deliver. -/
theorem CallsInOrder.cons {e : Exchange} (h : CallsInOrder n q w rest exchanges outcome)
    (present : stop.peer? w.directory = some e.peer) (silent : e.reply.target? = none) :
    CallsInOrder n q w (stop :: rest) (e :: exchanges) outcome := by
  obtain ⟨failures, last, hall, others, calls, ends⟩ := h
  have next : (stop :: rest).filterMap (Stop.peer? w.directory) =
      e.peer :: rest.filterMap (Stop.peer? w.directory) := List.filterMap_cons_some present
  refine ⟨e :: failures, last, congrArg (e :: ·) hall, List.forall_mem_cons.2 ⟨silent, others⟩,
    ?_, ?_⟩
  · rw [next, List.map_cons]
    exact List.cons_prefix_cons.2 ⟨rfl, calls⟩
  · refine ends.mono rfl (List.mem_cons_of_mem _) fun all => ?_
    rw [next, List.map_cons, all]

theorem CallsInOrder.congr {w' : World} (h : CallsInOrder n q w' rest exchanges outcome)
    (name : (w'.items.get q.item).name = (w.items.get q.item).name)
    (directory : w'.directory = w.directory) : CallsInOrder n q w rest exchanges outcome := by
  obtain ⟨failures, last, hall, silent, calls, ends⟩ := h
  rw [directory] at calls
  refine ⟨failures, last, hall, silent, calls, ends.mono name.symm id fun all => ?_⟩
  rw [all, directory]

/-- **Whom a tour calls**, if peers that do not deliver leave the directory alone. -/
theorem Tour.callsInOrder {before all : List Exchange} {stops : List Stop}
    (h : Tour peers n q w before stops all outcome) (keeps : KeepsIndex peers q.item)
    (still : KeepsDirectory peers) :
    ∃ exchanges, all = before ++ exchanges ∧ CallsInOrder n q w stops exchanges outcome := by
  induction h with
  | exhausted => exact ⟨[], (List.append_nil _).symm, callsInOrder_nil (.exhausted rfl)⟩
  | copied own _ =>
    exact ⟨[], (List.append_nil _).symm, callsInOrder_nil (.copied List.mem_cons_self own)⟩
  | passed _ _ ih =>
    obtain ⟨exchanges, hall, calls⟩ := ih
    exact ⟨exchanges, hall, calls.skip rfl⟩
  | absent absent _ ih =>
    obtain ⟨exchanges, hall, calls⟩ := ih
    exact ⟨exchanges, hall, calls.skip absent⟩
  | @delivered w _ _ id rest peer reply _ present _ told =>
    have first : (Stop.host id :: rest).filterMap (Stop.peer? w.directory) =
        peer :: rest.filterMap (Stop.peer? w.directory) := List.filterMap_cons_some present
    refine ⟨[⟨peer, asked n q, reply⟩], rfl, [], _, rfl, List.forall_mem_nil _, ?_,
      .delivered told⟩
    rw [first]
    exact List.cons_prefix_cons.2 ⟨rfl, List.nil_prefix⟩
  | @failed w w' before _ id rest peer reply _ present answered silent _ ih =>
    obtain ⟨exchanges, hall, calls⟩ := ih
    have directory : w'.directory = w.directory :=
      (still _ _ _ _ _ _ answered silent).trans (directory_enlisted w _)
    have name : (w'.items.get q.item).name = (w.items.get q.item).name :=
      (keeps _ _ _ _ _ _ answered silent).1.trans (sameItems_enlisted w _ q.item).name
    refine ⟨⟨peer, asked n q, reply⟩ :: exchanges, ?_, ?_⟩
    · rw [hall, List.append_assoc]
      rfl
    · exact (calls.congr name directory).cons present silent

end CallsInOrder

/-- **Other nodes are the last resort**, however they behave when they are called. A node gets hold
of an item of which no copy to it is in progress.

* Nobody is called unless there is no key, the value has not been placed, no replica on the node can
  be copied, and the target is not registered and there already. Files are looked at after what was
  tried with the value; at first the target was not there either.
* Whenever this is so the call ends after a tour of the hosts: those of the declared source first,
  then those that are known to have the item, as long as peers that do not deliver leave the index
  alone. The node is one of the former itself; it then copies the declared source.
* If they leave the directory alone too, the nodes that are called are the first ones of those that
  are registered, and none but the last one has delivered. The call ends with what that one has
  delivered, with the copy of the declared source, or with an error that names item and target, when
  all of them have been called. -/
theorem peers_are_last_resort (peers : Peers) (free : w.copiesTo q.item n.id = [])
    (keeps : KeepsIndex peers q.item) :
    (∀ k, ((start w n q).after peers k).exchanges ≠ [] →
      NotThere n q w ∧ ∃ v, IsLastResort n q w v) ∧
    ∀ v, IsLastResort n q w v → ∃ exchanges outcome,
      ComesTo peers (start w n q) exchanges outcome ∧
      Tour peers n q (pinned q v) [] (stops n q w) exchanges outcome ∧
      (KeepsDirectory peers → CallsInOrder n q w (stops n q w) exchanges outcome) := by
  constructor
  · intro k called
    have invariant : Early n q w ((start w n q).after peers k) ∨ ∃ v, IsLastResort n q w v := by
      refine after_of_invariant (P := fun s => Early n q w s ∨ ∃ v, IsLastResort n q w v)
        (fun s hs => ?_) (.inl .start) k
      exact hs.elim (fun early => early.move free) .inr
    obtain ⟨v, last⟩ := invariant.resolve_left fun early => called early.exchanges
    refine ⟨fun path here known => Bool.eq_false_iff.2 fun there => ?_, v, last⟩
    have known' : q.isKnown v = true := by rwa [Request.isKnown_eq last.notPlaced.sameItems]
    have missing := last.notThere path here known'
    rw [last.notPlaced.grows path there] at missing
    cases missing
  · intro v last
    have located : ((pinned q v).items.get q.item).locations = (w.items.get q.item).locations :=
      ((last.notPlaced.sameItems.trans (sameItems_pinned v)) q.item).locations
    obtain ⟨exchanges, outcome, comes, tour⟩ :=
      visits_declared keeps free (Resolution.start n q).declaredHosts (pinned q v) none []
        ⟨located, .inl ⟨rfl, rfl, v, last, rfl⟩⟩
    refine ⟨exchanges, outcome, ?_, tour, fun still => ?_⟩
    · have surveys : step ⟨n, q, none, .survey⟩ v =
          .advance (pinned q v) ⟨n, q, none, .joining []⟩ := by
        simp only [step, survey, last.notPlaced.copiesTo_eq, free]
        rfl
      have tries : step ⟨n, q, none, .replicas⟩ (pinned q v) = .advance (pinned q v)
          ⟨n, q, none, .hosts ⟨.declared, (Resolution.start n q).declaredHosts⟩⟩ :=
        useReplica_of_noReplica (noReplica_pinned.2 last.noReplica) _
      exact .of_advance (step_start_of_noKey last.noKey)
        (.of_advance (step_of_notPlaced last.notPlaced)
          (.of_advance surveys (.of_advance rfl (.of_advance tries comes))))
    · obtain ⟨exchanges, rfl, calls⟩ := tour.callsInOrder keeps still
      refine calls.congr ((last.notPlaced.sameItems.trans (sameItems_pinned v)) q.item).name ?_
      rw [last.notPlaced.eq]
      rfl

/-- The declared source is at a node that forgets the call, and an unknown node. Another node is
known to have the item, and delivers. -/
theorem peers_are_last_resort_two_peers :
    let node : LocalNode := ⟨1, "n1", ⟨"n1"⟩, .fallThrough⟩
    let peer (id : NodeId) : Node := .foreign ⟨id, "peer", id⟩
    let world : World :=
      { files := .empty
        items := Cells.empty.push { Item.named "x" with
          locations := [.file [⟨1, ⟨"n1/lost"⟩⟩], .file [⟨3, ⟨"n3/x"⟩⟩]] }
        copies := .empty
        directory := (Directory.empty.register (peer 2)).register (peer 3) }
    let request : Request :=
      ⟨0, some (.file [⟨2, ⟨"n2/x"⟩⟩, ⟨4, ⟨"n4/x"⟩⟩]), .file [⟨1, ⟨"n1/x"⟩⟩], none, none⟩
    let peers : Peers := fun before _ _ w => (w, match before with
      | [] => .dropped
      | _ => .notified (.ok (.path ⟨"n1/x"⟩)))
    let final := (start world node request).after peers 20
    final.exchanges.map Exchange.peer = [peer 2, peer 3] ∧
    (∃ v, IsLastResort node request world v) ∧
    ∃ exchanges outcome, ComesTo peers (start world node request) exchanges outcome ∧
      CallsInOrder node request world [.host 2, .host 4, .host 3] exchanges outcome := by
  intro node peer world request peers final
  have keeps : KeepsIndex peers 0 := by
    intro before p q w w' reply answered _
    cases answered
    exact ⟨rfl, rfl⟩
  have still : KeepsDirectory peers := by
    intro before p q w w' reply answered _
    cases answered
    rfl
  have calls : final.exchanges.map Exchange.peer = [peer 2, peer 3] := by decide +kernel
  have called : final.exchanges ≠ [] := by
    intro nobody
    rw [nobody] at calls
    cases calls
  obtain ⟨only, whenever⟩ := peers_are_last_resort (w := world) (n := node) (q := request) peers
    (by decide +kernel) keeps
  obtain ⟨-, v, last⟩ := only 20 called
  obtain ⟨exchanges, outcome, comes, -, inOrder⟩ := whenever v last
  exact ⟨calls, ⟨v, last⟩, exchanges, outcome, comes, inOrder still⟩

end Session

end Wharf
