import Wharf.Proofs.Transfer.Courses
import Wharf.Proofs.Transfer.Sessions

/-!
# Which host a delivery serves

A node that is to send an item goes through the hosts of the target until one of them has it. The
node that waits for this gets the item written to its path, all others are asked to get hold of it,
and may do anything before they reply, or reply nothing of use.

* `World.tried` is the world once the value has been tried, `Delivery.CanPush` says that the value
  or a replica can be brought to a path, and `Delivery.Brings` which of them is brought
  (`Delivery.pushTo_of_canPush`, `Delivery.pushTo_of_not_canPush`).
* A `Dispatch` is a delivery at work, with the calls that it has made and a `Visit` for every host
  whose turn it was. `Visit.Fits` says what can have been done for a host.
* `Served` says of the hosts that are left what visits and what outcome they come to
  (`Dispatch.serves`), and `Dispatch.ServesFirst` what this means for the whole delivery
  (`Dispatch.serves_first_servable`).
-/

namespace Wharf

theorem Value.writeTo_eq_ok_iff {v : Value} {fs : Files} {path : Path} :
    (v.writeTo fs path).2 = .ok () ↔
      v.encode.fault = none ∧ ∃ place, fs.writable path = .ok place := by
  unfold writeTo Files.create
  cases fs.writable path with
  | error e => simp
  | ok place =>
    cases v.encode.fault with
    | none => simp
    | some reason => simp

namespace World

/-- The world once the value of the item has been tried at a path: written, spoilt, or neither. -/
def tried (w : World) (q : Request) (path : Path) : World :=
  match (w.items.get q.item).value with
  | some value => { w with files := (value.writeTo w.files path).1 }
  | none => w

@[simp]
theorem items_tried (w : World) (q : Request) (path : Path) : (w.tried q path).items = w.items := by
  unfold tried
  split <;> rfl

end World

namespace Delivery

/-! ## Pushes -/

/-- The value of the item can be written to a path. -/
def CanWrite (q : Request) (w : World) (path : Path) : Prop :=
  ∃ value, (w.items.get q.item).value = some value ∧ value.encode.fault = none ∧
    ∃ place, w.files.writable path = .ok place

/-- The node can bring the item to a path by itself: the value can be written there, or else one of
its replicas, or the declared source as it sees it, can be copied there. -/
def CanPush (n : LocalNode) (q : Request) (w : World) (path : Path) : Prop :=
  CanWrite q w path ∨ ∃ source ∈ q.sources w n.id, (w.tried q path).CanBring path source

/-- What the node brings to a path: the value, or else the first of its files that can be copied,
the declared source before the replicas. -/
inductive Brings (n : LocalNode) (q : Request) (w : World) (path : Path) : World → Prop
  | value (can : CanWrite q w path) : Brings n q w path (w.tried q path)
  | file {earlier later : List Path} {source : Path} {w' : World} (cannot : ¬ CanWrite q w path)
      (listed : q.sources w n.id = earlier ++ source :: later)
      (others : ∀ s ∈ earlier, ¬ (w.tried q path).CanBring path s)
      (copied : (w.tried q path).copyFile source path = .ok w') : Brings n q w path w'

variable {n : LocalNode} {q : Request} {w w' : World} {path : Path} {phase : DeliveryPhase}

theorem Brings.canPush (h : Brings n q w path w') : CanPush n q w path := by
  cases h with
  | value can => exact .inl can
  | @file _ _ source _ _ listed _ copied =>
    exact .inr ⟨source, by rw [listed]; simp, World.canBring_iff.2 ⟨w', copied⟩⟩

theorem pushTo_of_canWrite (can : CanWrite q w path) :
    pushTo ⟨n, q, phase⟩ w path = (w.tried q path, true) := by
  obtain ⟨value, hvalue, hwritten⟩ := can
  have hok : (value.writeTo w.files path).2 = .ok () := Value.writeTo_eq_ok_iff.2 hwritten
  have hitem : (item ⟨n, q, phase⟩ w).value = some value := hvalue
  cases hwrite : value.writeTo w.files path with
  | mk files result =>
    rw [hwrite] at hok
    subst hok
    simp only [pushTo, hitem, hwrite, World.tried, hvalue, if_true]

theorem pushTo_of_not_canWrite (cannot : ¬ CanWrite q w path) :
    pushTo ⟨n, q, phase⟩ w path =
      match (w.tried q path).copyFirst path (q.sources w n.id) with
      | some w' => (w', true)
      | none => (w.tried q path, false) := by
  have hsources : q.sources (w.tried q path) n.id = q.sources w n.id := by
    rw [Request.sources, World.items_tried, Request.sources]
  rw [← hsources]
  cases hvalue : (w.items.get q.item).value with
  | none =>
    have hitem : (item ⟨n, q, phase⟩ w).value = none := hvalue
    simp only [pushTo, hitem, World.tried, hvalue]
    rfl
  | some value =>
    have hitem : (item ⟨n, q, phase⟩ w).value = some value := hvalue
    rcases hwrite : value.writeTo w.files path with ⟨files, e | _⟩
    · simp only [pushTo, hitem, hwrite, World.tried, hvalue]
      rfl
    · have hok : (value.writeTo w.files path).2 = .ok () := by rw [hwrite]
      exact absurd ⟨value, hvalue, Value.writeTo_eq_ok_iff.1 hok⟩ cannot

/-- **A push gets through whenever the item can be brought to the path.** -/
theorem pushTo_of_canPush (can : CanPush n q w path) (phase : DeliveryPhase) :
    ∃ w', pushTo ⟨n, q, phase⟩ w path = (w', true) ∧ Brings n q w path w' := by
  by_cases writes : CanWrite q w path
  · exact ⟨_, pushTo_of_canWrite writes, .value writes⟩
  · obtain ⟨w', hfirst⟩ := World.exists_copyFirst (can.resolve_left writes)
    obtain ⟨earlier, source, later, listed, others, copied⟩ := World.copyFirst_eq_some hfirst
    refine ⟨w', ?_, .file writes listed others copied⟩
    rw [pushTo_of_not_canWrite writes, hfirst]

/-- A push that does not get through leaves what was tried with the value. -/
theorem pushTo_of_not_canPush (cannot : ¬ CanPush n q w path) (phase : DeliveryPhase) :
    pushTo ⟨n, q, phase⟩ w path = (w.tried q path, false) := by
  rw [CanPush, not_or] at cannot
  have hnone := World.copyFirst_eq_none_iff.2 fun source hsource can =>
    cannot.2 ⟨source, hsource, can⟩
  rw [pushTo_of_not_canWrite cannot.1, hnone]

end Delivery

/-! ## Visits -/

/-- A host of the target, when it was its turn. -/
structure Visit where
  host : NodeId
  /-- The world when it was the turn of the host. -/
  before : World
  /-- The call to the host, if it was called. -/
  call : Option Exchange
  /-- The world when the host had been served, or could not be. -/
  after : World
  /-- Where the host has the item, if it got it. -/
  result : Option Target

/-- What can have been done for a host. -/
inductive Visit.Fits (n : LocalNode) (q : Request) : Visit → Prop
  /-- The host is the node itself. -/
  | itself {w : World} : Fits n q ⟨n.id, w, none, w, none⟩
  /-- The host waits for the item, and got it. -/
  | pushed {host : NodeId} {path : Path} {w w' : World} (other : host ≠ n.id)
      (waits : q.requester = some host) (place : q.target.pathIn host = some path)
      (brings : Delivery.Brings n q w path w') : Fits n q ⟨host, w, none, w', some (.path path)⟩
  /-- The host waits for the item, and nothing could be brought there. -/
  | missed {host : NodeId} {path : Path} {w : World} (other : host ≠ n.id)
      (waits : q.requester = some host) (place : q.target.pathIn host = some path)
      (cannot : ¬ Delivery.CanPush n q w path) : Fits n q ⟨host, w, none, w.tried q path, none⟩
  /-- The host waits for the item, but the target is no file that it sees. -/
  | nowhere {host : NodeId} {w : World} (other : host ≠ n.id) (waits : q.requester = some host)
      (noPath : q.target.pathIn host = none) : Fits n q ⟨host, w, none, w, none⟩
  /-- The host cannot be called. -/
  | absent {host : NodeId} {w : World} (other : host ≠ n.id) (free : q.requester ≠ some host)
      (absent : w.directory.get? host = none) : Fits n q ⟨host, w, none, w, none⟩
  /-- The host was called. -/
  | asked {host : NodeId} {w w' : World} {peer : Node} {reply : Reply} (other : host ≠ n.id)
      (free : q.requester ≠ some host) (present : w.directory.get? host = some peer) :
      Fits n q ⟨host, w, some ⟨peer, q, reply⟩, w', reply.target?⟩

namespace Visit.Fits

variable {n : LocalNode} {q : Request} {v : Visit}

/-- **The host that waits for the item is never called.** -/
theorem call_eq_none (h : v.Fits n q) (waits : q.requester = some v.host) : v.call = none := by
  cases h with
  | asked _ free _ => exact absurd waits free
  | _ => rfl

/-- **The host that waits for the item gets it exactly when it can be brought there.** -/
theorem isSome_result_iff (h : v.Fits n q) (other : v.host ≠ n.id)
    (waits : q.requester = some v.host) :
    v.result.isSome ↔
      ∃ path, q.target.pathIn v.host = some path ∧ Delivery.CanPush n q v.before path := by
  cases h with
  | itself => exact absurd rfl other
  | pushed _ _ place brings => exact iff_of_true rfl ⟨_, place, brings.canPush⟩
  | missed _ _ place cannot =>
    refine iff_of_false Bool.false_ne_true ?_
    rintro ⟨path, there, can⟩
    rw [place] at there
    cases there
    exact cannot can
  | nowhere _ _ noPath =>
    refine iff_of_false Bool.false_ne_true ?_
    rintro ⟨path, there, -⟩
    rw [noPath] at there
    cases there
  | absent _ free _ => exact absurd waits free
  | asked _ free _ => exact absurd waits free

end Visit.Fits

/-- What the hosts that are left come to: visits until one of them has got the item. -/
inductive Served (n : LocalNode) (q : Request) (w : World) :
    List NodeId → List Visit → Outcome → Prop
  | exhausted : Served n q w [] [] (.error (.noReachableHost (w.items.get q.item).name))
  | delivered {v : Visit} {rest : List NodeId} {target : Target} (fits : v.Fits n q)
      (result : v.result = some target) : Served n q w (v.host :: rest) [v] (.ok target)
  | passed {v : Visit} {rest : List NodeId} {visits : List Visit} {outcome : Outcome}
      (fits : v.Fits n q) (vain : v.result = none) (later : Served n q w rest visits outcome) :
      Served n q w (v.host :: rest) (v :: visits) outcome

/-! ## Dispatches -/

/-- A delivery at work. -/
structure Dispatch where
  world : World
  delivery : Delivery
  /-- The latest last. -/
  exchanges : List Exchange
  visits : List Visit

namespace Dispatch

/-- The dispatch of a request before anything has been done. -/
def start (w : World) (n : LocalNode) (q : Request) : Dispatch := ⟨w, .start n q, [], []⟩

/-- The visit to the host whose turn it is. -/
def visit? (s : Dispatch) (call : Option Exchange) (w : World) (δ : Delivery) : Option Visit :=
  match s.delivery.phase with
  | .hosts (host :: _) => some ⟨host, s.world, call, w, δ.phase.report?⟩
  | _ => none

/-- Goes on, after a call or without one. -/
def goOn (s : Dispatch) (call : Option Exchange) (w : World) (δ : Delivery) : Dispatch :=
  ⟨w, δ, s.exchanges ++ call.toList, s.visits ++ (s.visit? call w δ).toList⟩

/-- The next thing that the node does. -/
def move (peers : Peers) (s : Dispatch) : Dispatch :=
  match s.delivery.step s.world with
  | .advance w δ => s.goOn none w δ
  | .call peer q δ =>
    let (w, reply) := peers s.exchanges peer q s.world
    s.goOn (some ⟨peer, q, reply⟩) w (δ.answer reply)
  | .wait | .finish _ => s

/-- The dispatch in a world that others have changed. -/
def amid (s : Dispatch) (others : World → World) : Dispatch := { s with world := others s.world }

/-- The dispatch after so many moves. Before each of them others do something to the world. -/
def after (peers : Peers) : (Nat → World → World) → Nat → Dispatch → Dispatch
  | _, 0, s => s
  | others, k + 1, s => after peers (fun i => others (i + 1)) k ((s.amid (others 0)).move peers)

/-- What the listener is notified of. -/
def outcome? (s : Dispatch) : Option Outcome :=
  match s.delivery.step s.world with
  | .finish outcome => some outcome
  | _ => none

variable {peers : Peers} {others : Nat → World → World} {s s' : Dispatch} {outcome : Outcome}
  {n : LocalNode} {q : Request} {w : World}

theorem outcome?_eq_some_iff : s.outcome? = some outcome ↔ s.delivery.phase = .done outcome := by
  unfold outcome?
  constructor
  · intro h
    split at h
    · rename_i hstep
      cases h
      have made := s.delivery.canMake_step s.world
      rwa [hstep] at made
    · cases h
  · intro h
    simp only [Delivery.step, h]

theorem outcome?_hosts {w : World} {hosts : List NodeId} {exchanges : List Exchange}
    {visits : List Visit} :
    outcome? ⟨w, ⟨n, q, .hosts hosts⟩, exchanges, visits⟩ = none := by
  refine Option.eq_none_iff_forall_ne_some.2 fun outcome h => ?_
  cases outcome?_eq_some_iff.1 h

theorem outcome?_answered {w : World} {reply : Reply} {rest : List NodeId}
    {exchanges : List Exchange} {visits : List Visit} :
    outcome? ⟨w, ⟨n, q, .answered reply rest⟩, exchanges, visits⟩ = none := by
  refine Option.eq_none_iff_forall_ne_some.2 fun outcome h => ?_
  cases outcome?_eq_some_iff.1 h

/-- The dispatch comes to this in so many moves at most, and was not over before. -/
def ComesTo (peers : Peers) (others : Nat → World → World) (s s' : Dispatch) (bound : Nat) :
    Prop :=
  ∃ k ≤ bound, after peers others k s = s' ∧ ∀ l < k, (after peers others l s).outcome? = none

namespace ComesTo

variable {t : Dispatch} {bound bound' : Nat}

theorem refl (s : Dispatch) (bound : Nat) : ComesTo peers others s s bound :=
  ⟨0, Nat.zero_le bound, rfl, nofun⟩

theorem mono (h : ComesTo peers others s s' bound) (hle : bound ≤ bound') :
    ComesTo peers others s s' bound' := by
  obtain ⟨k, hk, reached⟩ := h
  exact ⟨k, Nat.le_trans hk hle, reached⟩

theorem of_move (hopen : s.outcome? = none) (moved : (s.amid (others 0)).move peers = t)
    (h : ComesTo peers (fun i => others (i + 1)) t s' bound) :
    ComesTo peers others s s' (bound + 1) := by
  subst moved
  obtain ⟨k, hk, hafter, before⟩ := h
  refine ⟨k + 1, Nat.succ_le_succ hk, hafter, fun l hl => ?_⟩
  cases l with
  | zero => exact hopen
  | succ l => exact before l (Nat.lt_of_succ_lt_succ hl)

end ComesTo

/-! ### One host after the other -/

/-- The hosts that are left are served, up to the one that gets the item. -/
def Serves (peers : Peers) (others : Nat → World → World) (n : LocalNode) (q : Request) (w : World)
    (hosts : List NodeId) (exchanges : List Exchange) (visits : List Visit) : Prop :=
  ∃ more outcome w', ComesTo peers others ⟨w, ⟨n, q, .hosts hosts⟩, exchanges, visits⟩
    ⟨w', ⟨n, q, .done outcome⟩, exchanges ++ more.filterMap Visit.call, visits ++ more⟩
    (2 * hosts.length + 1) ∧ Served n q w' hosts more outcome

section Hosts

variable {host : NodeId} {rest : List NodeId} {exchanges : List Exchange} {visits : List Visit}

/-- The next hosts are served after one that did not get the item. -/
theorem Serves.cons {v : Visit} (fits : v.Fits n q) (vain : v.result = none)
    (h : Serves peers others n q w rest (exchanges ++ v.call.toList) (visits ++ [v])) :
    ∃ more outcome w', ComesTo peers others
        ⟨w, ⟨n, q, .hosts rest⟩, exchanges ++ v.call.toList, visits ++ [v]⟩
        ⟨w', ⟨n, q, .done outcome⟩, exchanges ++ more.filterMap Visit.call, visits ++ more⟩
        (2 * rest.length + 1) ∧ Served n q w' (v.host :: rest) more outcome := by
  obtain ⟨more, outcome, w', comes, served⟩ := h
  refine ⟨v :: more, outcome, w', ?_, .passed fits vain served⟩
  have calls : (v :: more).filterMap Visit.call = v.call.toList ++ more.filterMap Visit.call := by
    rw [List.filterMap_cons]
    cases v.call <;> rfl
  rw [calls, ← List.append_assoc, List.append_cons visits v more]
  exact comes

/-- A step without a call makes a visit. -/
theorem move_of_advance {w' : World} {phase : DeliveryPhase}
    (h : Delivery.step ⟨n, q, .hosts (host :: rest)⟩ w = .advance w' ⟨n, q, phase⟩) :
    move peers ⟨w, ⟨n, q, .hosts (host :: rest)⟩, exchanges, visits⟩ =
      ⟨w', ⟨n, q, phase⟩, exchanges ++ [], visits ++ [⟨host, w, none, w', phase.report?⟩]⟩ := by
  simp only [move, h]
  rfl

theorem move_of_call {w' : World} {peer : Node} {reply : Reply}
    (h : Delivery.step ⟨n, q, .hosts (host :: rest)⟩ w = .call peer q ⟨n, q, .asked rest⟩)
    (answered : peers exchanges peer q w = (w', reply)) :
    move peers ⟨w, ⟨n, q, .hosts (host :: rest)⟩, exchanges, visits⟩ =
      ⟨w', ⟨n, q, .answered reply rest⟩, exchanges ++ [⟨peer, q, reply⟩],
        visits ++ [⟨host, w, some ⟨peer, q, reply⟩, w', reply.target?⟩]⟩ := by
  simp only [move, h, answered]
  rfl

theorem move_of_accepted {reply : Reply} {target : Target} (h : reply.target? = some target) :
    move peers ⟨w, ⟨n, q, .answered reply rest⟩, exchanges, visits⟩ =
      ⟨w, ⟨n, q, .done (.ok target)⟩, exchanges, visits⟩ := by
  simp only [move, Delivery.step, h, goOn, visit?, Delivery.inPhase, Option.toList_none,
    List.append_nil]

theorem move_of_refused {reply : Reply} (h : reply.target? = none) :
    move peers ⟨w, ⟨n, q, .answered reply rest⟩, exchanges, visits⟩ =
      ⟨w, ⟨n, q, .hosts rest⟩, exchanges, visits⟩ := by
  simp only [move, Delivery.step, h, goOn, visit?, Delivery.inPhase, Option.toList_none,
    List.append_nil]

variable (next : ∀ others w exchanges visits, Serves peers others n q w rest exchanges visits)

include next

/-- A host that is served, or passed by, without a call. -/
theorem serves_of_advance {w' : World} {phase : DeliveryPhase}
    (step : Delivery.step ⟨n, q, .hosts (host :: rest)⟩ (others 0 w) = .advance w' ⟨n, q, phase⟩)
    (fits : Visit.Fits n q ⟨host, others 0 w, none, w', phase.report?⟩)
    (hphase : phase = .hosts rest ∨ ∃ target, phase = .done (.ok target)) :
    Serves peers others n q w (host :: rest) exchanges visits := by
  rcases hphase with rfl | ⟨target, rfl⟩
  · obtain ⟨more, outcome, v, comes, served⟩ :=
      Serves.cons fits rfl (next (fun i => others (i + 1)) w' _ _)
    refine ⟨more, outcome, v, ?_, served⟩
    refine .mono (.of_move outcome?_hosts (move_of_advance step) comes) ?_
    rw [List.length_cons]
    omega
  · exact ⟨[_], .ok target, w', .of_move outcome?_hosts (move_of_advance step) (.refl _ _),
      .delivered fits rfl⟩

/-- A host that is called. -/
theorem serves_of_call {peer : Node} (other : host ≠ n.id) (free : q.requester ≠ some host)
    (present : (others 0 w).directory.get? host = some peer) :
    Serves peers others n q w (host :: rest) exchanges visits := by
  have step : Delivery.step ⟨n, q, .hosts (host :: rest)⟩ (others 0 w) =
      .call peer q ⟨n, q, .asked rest⟩ := Delivery.step_hosts_of_present other free present
  cases answered : peers exchanges peer q (others 0 w) with
  | mk v reply =>
    have fits : Visit.Fits n q ⟨host, others 0 w, some ⟨peer, q, reply⟩, v, reply.target?⟩ :=
      .asked other free present
    cases result : reply.target? with
    | some target =>
      refine ⟨[_], .ok target, others 1 v, ?_, .delivered fits result⟩
      exact .of_move outcome?_hosts (move_of_call step answered)
        (.of_move outcome?_answered (move_of_accepted result) (.refl _ _))
    | none =>
      obtain ⟨more, outcome, u, comes, served⟩ :=
        Serves.cons fits result (next (fun i => others (i + 2)) (others 1 v) _ _)
      refine ⟨more, outcome, u, ?_, served⟩
      exact .of_move outcome?_hosts (move_of_call step answered)
        (.of_move outcome?_answered (move_of_refused result) comes)

/-- The host that waits for the item. -/
theorem serves_of_requester (other : host ≠ n.id) (waits : q.requester = some host) :
    Serves peers others n q w (host :: rest) exchanges visits := by
  have hstep : Delivery.step ⟨n, q, .hosts (host :: rest)⟩ (others 0 w) =
      Delivery.push ⟨n, q, .hosts (host :: rest)⟩ (others 0 w) host rest :=
    Delivery.step_hosts_of_requester other waits
  cases place : q.target.pathIn host with
  | none =>
    refine serves_of_advance next ?_ (.nowhere other waits place) (.inl rfl)
    rw [hstep, Delivery.push]
    simp only [place]
    rfl
  | some path =>
    by_cases can : Delivery.CanPush n q (others 0 w) path
    · obtain ⟨w', hpush, brings⟩ := Delivery.pushTo_of_canPush can (.hosts (host :: rest))
      refine serves_of_advance next ?_ (.pushed other waits place brings) (.inr ⟨_, rfl⟩)
      rw [hstep, Delivery.push]
      simp only [place, hpush]
      rfl
    · have hpush := Delivery.pushTo_of_not_canPush can (.hosts (host :: rest))
      refine serves_of_advance next ?_ (.missed other waits place can) (.inl rfl)
      rw [hstep, Delivery.push]
      simp only [place, hpush]
      rfl

end Hosts

/-- **Whatever others do, the hosts are served one after the other**, and an outcome comes about. -/
theorem serves (peers : Peers) (n : LocalNode) (q : Request) (hosts : List NodeId)
    (others : Nat → World → World) (w : World) (exchanges : List Exchange) (visits : List Visit) :
    Serves peers others n q w hosts exchanges visits := by
  induction hosts generalizing others w exchanges visits with
  | nil =>
    refine ⟨[], _, others 0 w, ?_, .exhausted⟩
    rw [List.filterMap_nil, List.append_nil, List.append_nil]
    refine .of_move outcome?_hosts ?_ (.refl _ 0)
    simp only [move, amid, Delivery.step, goOn, visit?, Delivery.inPhase, Option.toList_none,
      List.append_nil]
    rfl
  | cons host rest ih =>
    by_cases other : host = n.id
    · subst other
      exact serves_of_advance ih (Delivery.step_hosts_of_self rfl) .itself (.inl rfl)
    · by_cases waits : q.requester = some host
      · exact serves_of_requester ih other waits
      · cases present : (others 0 w).directory.get? host with
        | none =>
          exact serves_of_advance ih (Delivery.step_hosts_of_absent other waits present)
            (.absent other waits present) (.inl rfl)
        | some peer => exact serves_of_call ih other waits present

/-! ### Deliveries that are over -/

theorem after_add (k l : Nat) :
    after peers others (k + l) s =
      after peers (fun i => others (i + k)) l (after peers others k s) := by
  induction k generalizing others s with
  | zero => rw [Nat.zero_add]; rfl
  | succ k ih =>
    rw [Nat.succ_add, after, ih, after]
    simp only [Nat.add_assoc]

/-- A delivery that is over does nothing any more. -/
theorem after_of_outcome (h : s.outcome? = some outcome) (peers : Peers)
    (others : Nat → World → World) (k : Nat) :
    ∃ w, after peers others k s = { s with world := w } := by
  induction k generalizing others s with
  | zero => exact ⟨s.world, rfl⟩
  | succ k ih =>
    have hphase := outcome?_eq_some_iff.1 h
    have stays : (s.amid (others 0)).move peers = s.amid (others 0) := by
      simp only [move, amid, Delivery.step, hphase]
    rw [after, stays]
    exact ih (s := s.amid (others 0)) (outcome?_eq_some_iff.2 hphase) _

end Dispatch

/-! ## The host that is served -/

namespace Served

variable {n : LocalNode} {q : Request} {w : World} {hosts : List NodeId} {visits : List Visit}
  {outcome : Outcome}

theorem hosts_prefix (h : Served n q w hosts visits outcome) : visits.map Visit.host <+: hosts := by
  induction h with
  | exhausted => exact List.prefix_refl []
  | delivered => exact List.cons_prefix_cons.2 ⟨rfl, List.nil_prefix⟩
  | passed _ _ _ ih => exact List.cons_prefix_cons.2 ⟨rfl, ih⟩

theorem fits (h : Served n q w hosts visits outcome) : ∀ v ∈ visits, v.Fits n q := by
  induction h with
  | exhausted => exact List.forall_mem_nil _
  | delivered fits _ => exact List.forall_mem_singleton.2 fits
  | passed fits _ _ ih => exact List.forall_mem_cons.2 ⟨fits, ih⟩

/-- Only the last host that was visited can have got the item. -/
theorem vain (h : Served n q w hosts visits outcome) : ∀ v ∈ visits.dropLast, v.result = none := by
  induction h with
  | exhausted => exact List.forall_mem_nil _
  | delivered => exact List.forall_mem_nil _
  | @passed v _ visits _ _ vain _ ih =>
    cases visits with
    | nil => exact List.forall_mem_nil _
    | cons v' visits => exact List.forall_mem_cons.2 ⟨vain, ih⟩

/-- A host that gets the item is what the delivery comes to. -/
theorem outcome_eq_ok (h : Served n q w hosts visits outcome) {v : Visit} (hv : v ∈ visits)
    {target : Target} (result : v.result = some target) : outcome = .ok target := by
  induction h with
  | exhausted => cases hv
  | delivered _ first =>
    cases List.mem_singleton.1 hv
    rw [first] at result
    cases result
    rfl
  | passed _ vain _ ih =>
    rcases List.mem_cons.1 hv with rfl | hv
    · rw [vain] at result
      cases result
    · exact ih hv

/-- A host has got the item, or all were visited in vain. -/
theorem outcome_cases (h : Served n q w hosts visits outcome) :
    (∃ v ∈ visits, ∃ target, v.result = some target ∧ outcome = .ok target) ∨
      (outcome = .error (.noReachableHost (w.items.get q.item).name) ∧
        (∀ v ∈ visits, v.result = none) ∧ visits.map Visit.host = hosts) := by
  induction h with
  | exhausted => exact .inr ⟨rfl, List.forall_mem_nil _, rfl⟩
  | @delivered v _ target _ result => exact .inl ⟨v, List.mem_cons_self, target, result, rfl⟩
  | passed _ vain _ ih =>
    rcases ih with ⟨v, hv, delivered⟩ | ⟨error, none, all⟩
    · exact .inl ⟨v, List.mem_cons_of_mem _ hv, delivered⟩
    · exact .inr ⟨error, List.forall_mem_cons.2 ⟨vain, none⟩, by rw [List.map_cons, all]⟩

/-- **A host is called at most once for each time that it is listed.** -/
theorem calls_le_count (h : Served n q w hosts visits outcome) (host : NodeId) :
    visits.countP (fun v => v.host == host && v.call.isSome) ≤ hosts.count host :=
  calc visits.countP (fun v => v.host == host && v.call.isSome)
    _ ≤ visits.countP ((· == host) ∘ Visit.host) :=
      List.countP_mono_left fun _ _ hv => (Bool.and_eq_true_iff.1 hv).1
    _ = (visits.map Visit.host).count host := List.countP_map.symm
    _ ≤ hosts.count host := h.hosts_prefix.sublist.count_le host

end Served

namespace Dispatch

/-- The hosts were served up to the first that could be, with this outcome. -/
structure ServesFirst (n : LocalNode) (q : Request) (s : Dispatch) (outcome : Outcome) : Prop where
  /-- The hosts had their turns in order. -/
  order : s.visits.map Visit.host <+: q.target.hosts
  fits : ∀ v ∈ s.visits, v.Fits n q
  /-- All calls were made at the turns of the hosts. -/
  calls : s.exchanges = s.visits.filterMap Visit.call
  /-- No host was called more often than it is listed. -/
  once : ∀ host, s.visits.countP (fun v => v.host == host && v.call.isSome) ≤
    q.target.hosts.count host
  /-- The host that waits was not called. -/
  spares : ∀ v ∈ s.visits, q.requester = some v.host → v.call = none
  /-- It got the item exactly when it could be brought there. -/
  pushes : ∀ v ∈ s.visits, v.host ≠ n.id → q.requester = some v.host →
    (v.result.isSome ↔
      ∃ path, q.target.pathIn v.host = some path ∧ Delivery.CanPush n q v.before path)
  /-- No host had its turn after one that got the item. -/
  stops : ∀ v ∈ s.visits.dropLast, v.result = none
  /-- The outcome is what was reported for the host that got the item. -/
  delivers : ∀ target, outcome = .ok target ↔ ∃ v ∈ s.visits, v.result = some target
  /-- The delivery failed exactly when no host got the item, and with this error only. -/
  fails : outcome = .error (.noReachableHost (s.world.items.get q.item).name) ↔
    ∀ v ∈ s.visits, v.result = none
  /-- Then all hosts had their turns. -/
  exhausts : (∀ v ∈ s.visits, v.result = none) → s.visits.map Visit.host = q.target.hosts

variable {peers : Peers} {others : Nat → World → World} {n : LocalNode} {q : Request} {w : World}
  {δ : Delivery} {visits : List Visit} {outcome : Outcome}

theorem servesFirst_of_served (h : Served n q w q.target.hosts visits outcome) :
    ServesFirst n q ⟨w, δ, visits.filterMap Visit.call, visits⟩ outcome where
  order := h.hosts_prefix
  fits := h.fits
  calls := rfl
  once := h.calls_le_count
  spares v hv := (h.fits v hv).call_eq_none
  pushes v hv := (h.fits v hv).isSome_result_iff
  stops := h.vain
  delivers target := by
    refine ⟨fun ok => ?_, fun ⟨v, hv, result⟩ => h.outcome_eq_ok hv result⟩
    rcases h.outcome_cases with ⟨v, hv, target', result, ok'⟩ | ⟨error, -⟩
    · rw [ok'] at ok
      cases ok
      exact ⟨v, hv, result⟩
    · rw [error] at ok
      cases ok
  fails := by
    rcases h.outcome_cases with ⟨v, hv, target, result, ok⟩ | ⟨error, vain, -⟩
    · refine iff_of_false (by rw [ok]; nofun) fun vain => ?_
      rw [vain v hv] at result
      cases result
    · exact iff_of_true error vain
  exhausts vain := by
    rcases h.outcome_cases with ⟨v, hv, target, result, -⟩ | ⟨-, -, all⟩
    · rw [vain v hv] at result
      cases result
    · exact all

/-- **A delivery serves the first host that can be served, and comes to one outcome.** Whatever the
hosts that are called do before they reply, whatever they reply, and whatever others do meanwhile,
there is a point up to which the listener is not notified, and from which on it has been notified of
one outcome and the delivery does nothing any more. -/
theorem serves_first_servable (peers : Peers) (n : LocalNode) (q : Request)
    (others : Nat → World → World) (w : World) :
    ∃ k ≤ 2 * q.target.hosts.length + 1, ∃ outcome,
      (∀ l < k, (after peers others l (start w n q)).outcome? = none) ∧
        (∀ l ≥ k, (after peers others l (start w n q)).outcome? = some outcome ∧
          ∃ v, after peers others l (start w n q) =
            { after peers others k (start w n q) with world := v }) ∧
        ServesFirst n q (after peers others k (start w n q)) outcome := by
  obtain ⟨visits, outcome, w', ⟨k, hk, reached, hopen⟩, served⟩ :=
    serves peers n q q.target.hosts others w [] []
  rw [List.nil_append, List.nil_append] at reached
  have ended : (after peers others k (start w n q)).outcome? = some outcome := by
    rw [start, Delivery.start, reached]
    exact outcome?_eq_some_iff.2 rfl
  refine ⟨k, hk, outcome, hopen, fun l hl => ?_, ?_⟩
  · obtain ⟨m, rfl⟩ := Nat.exists_eq_add_of_le hl
    obtain ⟨v, stays⟩ := after_of_outcome ended peers (fun i => others (i + k)) m
    have hphase := outcome?_eq_some_iff.1 ended
    rw [after_add, stays]
    exact ⟨outcome?_eq_some_iff.2 hphase, v, rfl⟩
  · rw [start, Delivery.start, reached]
    exact servesFirst_of_served served

/-- The node itself is passed by; nothing can be brought to the host that waits; the third host is
unknown, and the fourth one forgets the call. The fifth one delivers, so that the last one is not
called. -/
example :
    let peer (id : NodeId) : Node := .foreign ⟨id, "peer", id⟩
    let world : World :=
      { World.empty with
        items := Cells.empty.push { Item.named "x" with locations := [.file [⟨1, ⟨"n1/lost"⟩⟩]] }
        directory := (([2, 4, 5, 6] : List NodeId).map peer).foldl Directory.register .empty }
    let shared : List Replica := [1, 2, 3, 4, 5, 6].map fun host => ⟨host, ⟨"x"⟩⟩
    let request : Request := ⟨0, none, .file shared, none, some 2⟩
    let peers : Peers := fun before _ _ w => (w, match before with
      | [] => .dropped
      | _ => .notified (.ok (.path ⟨"n5/x"⟩)))
    let final := after peers (fun _ => id) 13 (start world ⟨1, "n1", ⟨"n1"⟩, .fallThrough⟩ request)
    final.outcome? = some (.ok (.path ⟨"n5/x"⟩)) ∧
      final.visits.map Visit.host = [1, 2, 3, 4, 5] ∧
      final.exchanges.map Exchange.peer = [peer 4, peer 5] := by
  decide +kernel

end Dispatch

end Wharf
