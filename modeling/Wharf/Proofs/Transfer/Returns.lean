import Mathlib.Logic.Relation
import Wharf.Proofs.Transfer.Moves
import Wharf.Transfer.Thread

/-!
# Calls that return

What becomes of a thread that is left alone. Where all nodes are own nodes it needs no replies from
outside, so it gets to its end, or to a point where it waits for ever.

* `Thread.Leads` is a run of such a thread, `Thread.Finishes` says that it gets to the end. A thread
  that is led to wait does not (`Thread.not_finishes`).
* `Frame.Returns` says of a frame that it gets to its end, whoever has called it. Calls are put
  together from calls by three rules: `Frame.Returns.of_finish`, `Frame.Returns.of_advance` and
  `Frame.Returns.of_call`.
* A delivery returns if those that it asks do (`Delivery.returns`), a resolution if the deliveries
  do (`Resolution.returns_start`).
-/

namespace Wharf

namespace Thread

/-- A step of a thread that needs nothing from outside. -/
def Goes (a b : World × Thread) : Prop := a.2.step a.1 = .running b.1 b.2

/-- Any number of such steps. -/
abbrev Leads : World × Thread → World × Thread → Prop := Relation.ReflTransGen Goes

/-- The thread gets to its end. -/
inductive Finishes : World → Thread → Prop
  | now {w : World} {t : Thread} {outcome : Outcome} (h : t.step w = .finished outcome) :
      Finishes w t
  | later {w w' : World} {t t' : Thread} (h : t.step w = .running w' t') (rest : Finishes w' t') :
      Finishes w t

variable {a b : World × Thread}

theorem Finishes.of_leads (h : Leads a b) (hf : Finishes b.1 b.2) : Finishes a.1 a.2 := by
  induction h using Relation.ReflTransGen.head_induction_on with
  | refl => exact hf
  | head hgoes _ ih => exact .later hgoes ih

/-- Threads that are left alone run in one way only. -/
theorem Finishes.leads (hf : Finishes a.1 a.2) (h : Leads a b) : Finishes b.1 b.2 := by
  induction h with
  | refl => exact hf
  | tail _ hgoes ih =>
    cases ih with
    | now hstep =>
      rw [Goes, hstep] at hgoes
      cases hgoes
    | later hstep rest =>
      rw [Goes, hstep, Progress.running.injEq] at hgoes
      rw [← hgoes.1, ← hgoes.2]
      exact rest

/-- **A thread that is led to wait for another one never gets to its end.** -/
theorem not_finishes (h : Leads a b) (hw : b.2.step b.1 = .waiting) : ¬ Finishes a.1 a.2 := by
  intro hf
  cases hf.leads h with
  | now hstep =>
    rw [hw] at hstep
    cases hstep
  | later hstep _ =>
    rw [hw] at hstep
    cases hstep

end Thread

namespace Frame

variable {w w' : World} {f f' : Frame} {callers : List Frame}

theorem goes_advance (h : f.step w = .advance w' f') (callers : List Frame) :
    Thread.Goes (w, ⟨f, callers⟩) (w', ⟨f', callers⟩) := by
  rw [Thread.Goes, Thread.step, h]
  rfl

theorem goes_call {n : LocalNode} {q : Request} (h : f.step w = .call (.own n) q f')
    (callers : List Frame) :
    Thread.Goes (w, ⟨f, callers⟩) (w, ⟨.start f.callKind n q, f' :: callers⟩) := by
  rw [Thread.Goes, Thread.step, h]
  rfl

theorem goes_finish {outcome : Outcome} (h : f.step w = .finish outcome) (caller : Frame)
    (callers : List Frame) :
    Thread.Goes (w, ⟨f, caller :: callers⟩) (w, ⟨caller.answer (.notified outcome), callers⟩) := by
  rw [Thread.Goes, Thread.step, h]
  rfl

/-- The frame gets to its end, and leaves a world of some kind. -/
def Returns (w : World) (f : Frame) (P : World → Prop) : Prop :=
  ∀ callers, ∃ w' f' outcome, Thread.Leads (w, ⟨f, callers⟩) (w', ⟨f', callers⟩) ∧
    f'.step w' = .finish outcome ∧ P w'

namespace Returns

variable {P Q : World → Prop}

theorem of_finish {outcome : Outcome} (h : f.step w = .finish outcome) (hp : P w) :
    f.Returns w P :=
  fun _ => ⟨w, f, outcome, .refl, h, hp⟩

theorem of_advance (h : f.step w = .advance w' f') (hr : f'.Returns w' P) : f.Returns w P := by
  intro callers
  obtain ⟨v, g, outcome, hleads, hfinish, hp⟩ := hr callers
  exact ⟨v, g, outcome, .head (goes_advance h callers) hleads, hfinish, hp⟩

theorem of_obtain {r r' : Resolution} (h : r.step w = .advance w' r')
    (hr : (Frame.obtain r').Returns w' P) : (Frame.obtain r).Returns w P :=
  of_advance (by rw [Frame.step, h]; rfl) hr

theorem of_send {δ δ' : Delivery} (h : δ.step w = .advance w' δ')
    (hr : (Frame.send δ').Returns w' P) : (Frame.send δ).Returns w P :=
  of_advance (by rw [Frame.step, h]; rfl) hr

theorem of_call {n : LocalNode} {q : Request} (h : f.step w = .call (.own n) q f')
    (hcallee : (Frame.start f.callKind n q).Returns w P)
    (hr : ∀ v outcome, P v → (f'.answer (.notified outcome)).Returns v Q) : f.Returns w Q := by
  intro callers
  obtain ⟨v, g, outcome, hleads, hfinish, hp⟩ := hcallee (f' :: callers)
  obtain ⟨v', g', outcome', hleads', hfinish', hq⟩ := hr v outcome hp callers
  refine ⟨v', g', outcome', ?_, hfinish', hq⟩
  exact (Relation.ReflTransGen.head (goes_call h callers) hleads).trans
    (.head (goes_finish hfinish f' callers) hleads')

/-- A frame that returns is the end of a thread without callers. -/
theorem finishes (h : f.Returns w P) : Thread.Finishes w ⟨f, []⟩ := by
  obtain ⟨v, g, outcome, hleads, hfinish, -⟩ := h []
  have hstep : Thread.step ⟨g, []⟩ v = .finished outcome := by
    rw [Thread.step, hfinish]
    rfl
  exact .of_leads hleads (.now hstep)

end Returns

end Frame

/-! ## Deliveries -/

namespace Directory

/-- All nodes are own nodes, registered under their ids. -/
def IsLocal (d : Directory) : Prop :=
  ∀ id peer, d.get? id = some peer → ∃ n : LocalNode, peer = .own n ∧ n.id = id

theorem isLocal_empty : empty.IsLocal := nofun

theorem IsLocal.register {d : Directory} (h : d.IsLocal) (n : LocalNode) :
    (d.register (.own n)).IsLocal := by
  intro id peer hpeer
  rw [get?_register] at hpeer
  split at hpeer
  · rename_i hid
    cases hpeer
    exact ⟨n, rfl, hid.symm⟩
  · exact h id peer hpeer

end Directory

namespace Delivery

variable {d : Directory} {I : World → Prop} {w : World} {p : LocalNode} {q : Request}

section Hosts

variable {host : NodeId} {rest : List NodeId}

theorem step_hosts_of_self (hself : host = p.id) :
    step ⟨p, q, .hosts (host :: rest)⟩ w = .advance w ⟨p, q, .hosts rest⟩ := by
  simp only [step, if_pos hself]
  rfl

theorem step_hosts_of_requester (hself : host ≠ p.id) (hrequester : q.requester = some host) :
    step ⟨p, q, .hosts (host :: rest)⟩ w = push ⟨p, q, .hosts (host :: rest)⟩ w host rest := by
  simp only [step, if_neg hself, if_pos hrequester]

theorem step_hosts_of_absent (hself : host ≠ p.id) (hrequester : q.requester ≠ some host)
    (habsent : w.directory.get? host = none) :
    step ⟨p, q, .hosts (host :: rest)⟩ w = .advance w ⟨p, q, .hosts rest⟩ := by
  simp only [step, if_neg hself, if_neg hrequester, relay, habsent]
  rfl

theorem step_hosts_of_present {peer : Node} (hself : host ≠ p.id)
    (hrequester : q.requester ≠ some host) (hpeer : w.directory.get? host = some peer) :
    step ⟨p, q, .hosts (host :: rest)⟩ w = .call peer q ⟨p, q, .asked rest⟩ := by
  simp only [step, if_neg hself, if_neg hrequester, relay, hpeer]
  rfl

end Hosts

/-- A host that is served by the delivery itself gets the item, or the next one is served. -/
theorem push_eq (w : World) (host : NodeId) (rest : List NodeId) (phase : DeliveryPhase) :
    ∃ w' phase', push ⟨p, q, phase⟩ w host rest = .advance w' ⟨p, q, phase'⟩ ∧ w.SameCopies w' ∧
      (phase' = .hosts rest ∨ ∃ outcome, phase' = .done outcome) := by
  unfold push
  split
  · exact ⟨w, _, rfl, .refl w, .inl rfl⟩
  · rename_i target _
    have hpush := sameCopies_pushTo (d := ⟨p, q, phase⟩) (w := w) target
    split <;> rename_i hw <;> rw [hw] at hpush
    · exact ⟨_, _, rfl, hpush, .inr ⟨_, rfl⟩⟩
    · exact ⟨_, _, rfl, hpush, .inl rfl⟩

theorem returns_done (outcome : Outcome) (hw : I w) :
    (Frame.send ⟨p, q, .done outcome⟩).Returns w I :=
  .of_finish rfl hw

/-- **A delivery returns if those that it asks do.** -/
theorem returns (hlocal : d.IsLocal) (hd : ∀ w, I w → w.directory = d)
    (hsame : ∀ w w', w.SameCopies w' → I w → I w') (pending : List NodeId)
    (hrelay : ∀ host ∈ pending, host ≠ p.id → q.requester ≠ some host → ∀ m : LocalNode,
      m.id = host → d.get? host = some (.own m) → ∀ w, I w →
        (Frame.obtain (.start m q)).Returns w I)
    (hw : I w) : (Frame.send ⟨p, q, .hosts pending⟩).Returns w I := by
  induction pending generalizing w with
  | nil => exact .of_advance rfl (returns_done _ hw)
  | cons host rest ih =>
    have next : ∀ {v}, I v → (Frame.send ⟨p, q, .hosts rest⟩).Returns v I :=
      ih fun host hhost => hrelay host (List.mem_cons_of_mem _ hhost)
    by_cases hself : host = p.id
    · exact .of_send (step_hosts_of_self hself) (next hw)
    · by_cases hrequester : q.requester = some host
      · obtain ⟨w', phase', hpush, same, hphase⟩ :=
          push_eq (p := p) (q := q) w host rest (.hosts (host :: rest))
        refine .of_send ((step_hosts_of_requester hself hrequester).trans hpush) ?_
        rcases hphase with rfl | ⟨outcome, rfl⟩
        · exact next (hsame w w' same hw)
        · exact returns_done _ (hsame w w' same hw)
      · cases hpeer : w.directory.get? host with
        | none => exact .of_send (step_hosts_of_absent hself hrequester hpeer) (next hw)
        | some peer =>
          have hget := hpeer
          rw [hd w hw] at hget
          obtain ⟨m, rfl, hm⟩ := hlocal host peer hget
          have hstep : step ⟨p, q, .hosts (host :: rest)⟩ w =
              .call (.own m) q ⟨p, q, .asked rest⟩ :=
            step_hosts_of_present hself hrequester hpeer
          refine .of_call (by rw [Frame.step, hstep]; rfl)
            (hrelay host List.mem_cons_self hself hrequester m hm hget w hw) fun v outcome hv => ?_
          cases outcome with
          | ok target => exact .of_advance rfl (returns_done _ hv)
          | error e => exact .of_advance rfl (next hv)

end Delivery

/-! ## Resolutions -/

namespace World

/-- No copy of the item is in progress. -/
def Quiet (w : World) (item : ItemId) : Prop :=
  ∀ c ∈ (w.items.get item).copies, (w.copies.get c).isFinished

/-- No copy of the item is in progress but the one that was started. -/
structure Calm (d : Directory) (item : ItemId) (started : Option CopyId) (w : World) : Prop where
  directory : w.directory = d
  finished : ∀ c ∈ (w.items.get item).copies, (w.copies.get c).isFinished ∨ started = some c

namespace Calm

variable {d : Directory} {item : ItemId} {started : Option CopyId} {w w' : World}

theorem quiet (h : Calm d item none w) : w.Quiet item :=
  fun c hc => (h.finished c hc).resolve_right nofun

theorem same (h : Calm d item started w) (hw : w.SameCopies w') : Calm d item started w' where
  directory := hw.directory.trans h.directory
  finished := by
    rw [hw.registered, hw.copies]
    exact h.finished

theorem copiesTo_eq_nil (h : Calm d item none w) (node : NodeId) : w.copiesTo item node = [] := by
  rw [copiesTo, List.filter_eq_nil_iff]
  intro c hc
  rw [isUnderWay, h.quiet c hc, Bool.not_true, Bool.and_false]
  exact Bool.false_ne_true

theorem joinOrStart {q : Request} {node : NodeId} (h : Calm d q.item none w) :
    Calm d q.item (some w.copies.size) (w.joinOrStart node q).1 where
  directory := by
    simp only [World.joinOrStart, h.copiesTo_eq_nil node]
    exact h.directory
  finished c hc := by
    have free := h.copiesTo_eq_nil node
    by_cases hnew : c = w.copies.size
    · rw [hnew]
      exact .inr rfl
    · rw [registered_joinOrStart free, if_pos rfl] at hc
      rw [get_copies_joinOrStart free, if_neg hnew]
      rcases List.mem_append.1 hc with hc | hc
      · exact .inl (h.quiet c hc)
      · exact absurd (List.mem_singleton.1 hc) hnew

theorem complete {copy : CopyId} (h : Calm d item (some copy) w) (outcome : Outcome) :
    Calm d item none (w.complete copy outcome) where
  directory := h.directory
  finished c hc := by
    rw [isFinished_complete]
    rcases h.finished c hc with hf | hown
    · rw [hf, Bool.or_true]
      exact .inl rfl
    · cases hown
      rw [decide_eq_true rfl]
      exact .inl rfl

theorem removeCopy (h : Calm d item none w) (copy : CopyId) :
    Calm d item none (w.updateItem item fun d => d.removeCopy copy) where
  directory := h.directory
  finished c hc := by
    rw [registered_removeCopy, if_pos rfl] at hc
    exact h.finished c (List.mem_filter.1 hc).1

end Calm

end World

namespace Resolution

variable {d : Directory} {n : LocalNode} {q : Request} {started : Option CopyId} {w : World}

/-- The resolution returns when it has got to this phase, and the item is quiet then. -/
abbrev ReturnsFrom (d : Directory) (n : LocalNode) (q : Request) (started : Option CopyId)
    (phase : Phase) (w : World) : Prop :=
  (Frame.obtain ⟨n, q, started, phase⟩).Returns w (World.Calm d q.item none)

theorem returnsFrom_completing (outcome : Outcome) (hw : World.Calm d q.item started w) :
    ReturnsFrom d n q started (.completing outcome) w := by
  cases started with
  | none => exact .of_advance rfl (.of_finish rfl hw)
  | some copy =>
    refine .of_advance rfl (.of_advance rfl (.of_finish rfl ?_))
    exact (hw.complete outcome).removeCopy copy

theorem returnsFrom_leaving (outcome : Outcome) (hw : World.Calm d q.item started w) :
    ReturnsFrom d n q started (.leaving outcome) w :=
  .of_advance rfl (returnsFrom_completing outcome (hw.same (.updateItem w _ Item.copies_unpin)))

/-- The phases in which a resolution does nothing to the copies and waits for nothing. -/
def IsQuiet : Phase → Prop
  | .start | .resident | .survey | .joining [] | .replicas => True
  | .hosts _ | .recheck .. | .answered .. => True
  | _ => False

/-- From a phase in which nothing is done to the copies it is enough to look at the next one. -/
theorem returnsFrom_of_next (phase : Phase) (quiet : IsQuiet phase)
    (hw : World.Calm d q.item started w)
    (h : ∀ w' phase', Next ⟨n, q, started, phase⟩ w phase phase' →
      World.Calm d q.item started w' → ReturnsFrom d n q started phase' w') :
    ReturnsFrom d n q started phase w := by
  have hcan := canMake_step ⟨n, q, started, phase⟩ w
  cases hstep : step ⟨n, q, started, phase⟩ w with
  | advance w' r' =>
    rw [hstep] at hcan
    refine .of_obtain hstep ?_
    cases hcan with
    | quiet same next => exact h w' _ next (hw.same same)
    | starts enlists => cases enlists; exact quiet.elim
    | completes completing => cases completing; exact quiet.elim
    | withdraws withdrawing => cases withdrawing; exact quiet.elim
  | wait =>
    rw [hstep] at hcan
    rcases hcan with ⟨route, hphase⟩ | ⟨copy, hawaits, -⟩
    · cases hphase
      exact quiet.elim
    · cases phase with
      | joining pending =>
        cases pending with
        | nil => cases hawaits
        | cons _ _ => exact quiet.elim
      | joined _ _ _ => exact quiet.elim
      | _ => cases hawaits
  | call peer request r' =>
    rw [hstep] at hcan
    obtain ⟨route, hphase, -, -⟩ := hcan
    cases hphase
    exact quiet.elim
  | finish outcome =>
    rw [hstep] at hcan
    cases hcan
    exact quiet.elim

theorem returnsFrom_of_attempt {otherwise phase : Phase} (h : Phase.Attempt otherwise phase)
    (hw : World.Calm d q.item started w) (hother : ReturnsFrom d n q started otherwise w) :
    ReturnsFrom d n q started phase w := by
  cases h with
  | succeeds outcome => exact returnsFrom_leaving outcome hw
  | fails => exact hother

section Served

/-- The other nodes send what they are asked for, or say that they cannot. -/
def IsServed (d : Directory) (n : LocalNode) (q : Request) : Prop :=
  ∀ p : LocalNode, p.id ≠ n.id → d.get? p.id = some (.own p) → ∀ c w,
    World.Calm d q.item (some c) w →
      (Frame.send (.start p { q with requester := some n.id })).Returns w
        (World.Calm d q.item (some c))

variable (hserved : IsServed d n q)

include hserved

theorem returnsFrom_ask {p : LocalNode} {c : CopyId} {rest : Route} (hp : p.id ≠ n.id)
    (hget : d.get? p.id = some (.own p)) (hw : World.Calm d q.item (some c) w)
    (next : ∀ w, World.Calm d q.item (some c) w → ReturnsFrom d n q (some c) (.hosts rest) w) :
    ReturnsFrom d n q (some c) (.ask (.own p) rest) w := by
  refine .of_call rfl (hserved p hp hget c w hw) fun v outcome hv => ?_
  refine returnsFrom_of_next _ trivial hv fun w' phase' hnext hw' => ?_
  cases hnext with
  | answered attempt => exact returnsFrom_of_attempt attempt hw' (next w' hw')

theorem returnsFrom_enlist {p : LocalNode} {rest : Route} (hp : p.id ≠ n.id)
    (hget : d.get? p.id = some (.own p)) (hw : World.Calm d q.item none w)
    (next : ∀ c w, World.Calm d q.item (some c) w →
      ReturnsFrom d n q (some c) (.hosts rest) w) :
    ReturnsFrom d n q none (.enlist (.own p) rest) w := by
  have hstep : step ⟨n, q, none, .enlist (.own p) rest⟩ w =
      .advance (w.joinOrStart n.id q).1
        ⟨n, q, some w.copies.size, .ask (.own p) rest⟩ := by
    simp only [step, enlist, World.joinOrStart, hw.copiesTo_eq_nil n.id]
  refine .of_obtain hstep ?_
  exact returnsFrom_ask hserved hp hget hw.joinOrStart (next _)

variable (hlocal : d.IsLocal)

include hlocal

/-- The hosts of a round are called one after the other; `last` is what follows the last one. -/
theorem returnsFrom_hosts {round : Round} (pending : List NodeId)
    (last : ∀ started w, World.Calm d q.item started w →
      ReturnsFrom d n q started (.hosts ⟨round, []⟩) w)
    (hw : World.Calm d q.item started w) :
    ReturnsFrom d n q started (.hosts ⟨round, pending⟩) w := by
  induction pending generalizing started w with
  | nil => exact last started w hw
  | cons host rest ih =>
    refine returnsFrom_of_next _ trivial hw fun w' phase' hnext hw' => ?_
    cases hnext with
    | here _ attempt => exact returnsFrom_of_attempt attempt hw' (ih hw')
    | absent => exact ih hw'
    | asks ne present own =>
      rw [hw.directory] at present
      obtain ⟨p, rfl, rfl⟩ := hlocal _ _ present
      obtain ⟨c, rfl⟩ := Option.isSome_iff_exists.1 own
      exact returnsFrom_ask hserved ne present hw' fun v hv => ih hv
    | looks ne present own =>
      rw [hw.directory] at present
      obtain ⟨p, rfl, rfl⟩ := hlocal _ _ present
      cases own
      refine returnsFrom_of_next _ trivial hw' fun v phase hnext hv => ?_
      cases hnext with
      | recheck attempt =>
        refine returnsFrom_of_attempt attempt hv ?_
        exact returnsFrom_enlist hserved ne present hv fun c u hu => ih hu

/-- **A resolution returns if the deliveries to it do**, as long as it finds no copy in progress. -/
theorem returns_start (hw : World.Calm d q.item none w) :
    (Frame.obtain (.start n q)).Returns w (World.Calm d q.item none) := by
  have known : ∀ pending started w, World.Calm d q.item started w →
      ReturnsFrom d n q started (.hosts ⟨.known, pending⟩) w := by
    intro pending started w hw
    refine returnsFrom_hosts hserved hlocal pending (fun started w hw => ?_) hw
    refine returnsFrom_of_next _ trivial hw fun w' phase' hnext hw' => ?_
    cases hnext with
    | exhausted outcome => exact returnsFrom_leaving outcome hw'
  have declared : ∀ pending w, World.Calm d q.item none w →
      ReturnsFrom d n q none (.hosts ⟨.declared, pending⟩) w := by
    intro pending w hw
    refine returnsFrom_hosts hserved hlocal pending (fun started w hw => ?_) hw
    refine returnsFrom_of_next _ trivial hw fun w' phase' hnext hw' => ?_
    cases hnext with
    | round => exact known _ _ _ hw'
  have survey : ∀ w, World.Calm d q.item none w → ReturnsFrom d n q none .survey w := by
    intro w hw
    refine returnsFrom_of_next _ trivial hw fun w' phase' hnext hw' => ?_
    cases hnext with
    | survey =>
      rw [hw.copiesTo_eq_nil]
      refine returnsFrom_of_next _ trivial hw' fun v phase hnext hv => ?_
      cases hnext with
      | noCopy =>
        refine returnsFrom_of_next _ trivial hv fun u phase hnext hu => ?_
        cases hnext with
        | replicas attempt => exact returnsFrom_of_attempt attempt hu (declared _ u hu)
  refine returnsFrom_of_next _ trivial hw fun w' phase' hnext hw' => ?_
  cases hnext with
  | key outcome => exact returnsFrom_completing outcome hw'
  | noKey =>
    refine returnsFrom_of_next _ trivial hw' fun v phase hnext hv => ?_
    cases hnext with
    | value outcome => exact returnsFrom_completing outcome hv
    | noValue => exact survey v hv

end Served

end Resolution

end Wharf
