import Wharf.Proofs.Transfer.Copies
import Wharf.Transfer.Delivery

/-!
# What a step does to the copies

Resolutions share the copies of an item with each other, all else they only read or add to. So a
step is looked at by what it does to the copies.

* Deliveries leave the copies alone (`Delivery.sameCopies_step`).
* `Resolution.holding` is the copy that a resolution has yet to finish, `Resolution.awaits` the one
  that it waits for. A resolution never does both (`Resolution.IsCoherent.awaits_eq_none`).
* `Resolution.canMake_step` lists what a step of a resolution can be. An advance does nothing to the
  copies, or registers one, finishes it, or takes it off the item (`Resolution.effect_step`).
* A resolution that waits for a copy takes over its outcome (`Resolution.takesOver_step`), and one
  that has its outcome gets to the end without waiting for anything (`Resolution.step_of_verdict`).
-/

namespace Wharf

namespace Delivery

variable {d d' : Delivery} {w w' : World}

theorem sameCopies_pushTo (target : Path) : w.SameCopies (d.pushTo w target).1 := by
  unfold pushTo
  split
  rename_i v written hwritten
  have hv : w.SameCopies v := by
    split at hwritten
    · cases hwritten
      exact .refl w
    · split at hwritten <;> cases hwritten <;> exact .files w _
  split
  · exact hv
  · split
    · rename_i hpush
      exact hv.trans (.copyFirst hpush)
    · exact hv

/-- **Deliveries leave the copies alone.** -/
theorem sameCopies_step (h : d.step w = .advance w' d') : w.SameCopies w' := by
  unfold step push relay at h
  split at h
  · cases h
    exact .refl w
  · split at h
    · cases h
      exact .refl w
    · split at h
      · split at h
        · cases h
          exact .refl w
        · rename_i target _
          have hpush := sameCopies_pushTo (d := d) (w := w) target
          split at h <;> rename_i hw <;> cases h <;> rw [hw] at hpush <;> exact hpush
      · split at h <;> cases h
        exact .refl w
  · cases h
  · split at h <;> cases h <;> exact .refl w
  · cases h

end Delivery

/-! ## The order of phases -/

namespace Phase

/-- What follows an attempt that delivers the item if it succeeds. -/
inductive Attempt (otherwise : Phase) : Phase → Prop
  | succeeds (outcome : Outcome) : Attempt otherwise (.leaving outcome)
  | fails : Attempt otherwise otherwise

/-- The copies that are to be waited for. -/
def listed : Phase → List CopyId
  | .joining pending => pending
  | .joined copy _ _ => [copy]
  | _ => []

end Phase

namespace Resolution

/-- The phases that follow a phase, as long as the resolution does nothing to the copies. -/
inductive Next (r : Resolution) (w : World) : Phase → Phase → Prop
  | key (outcome : Outcome) : Next r w .start (.completing outcome)
  | noKey : Next r w .start .resident
  | value (outcome : Outcome) : Next r w .resident (.completing outcome)
  | noValue : Next r w .resident .survey
  | survey : Next r w .survey (.joining (w.copiesTo r.request.item r.node.id))
  | noCopy : Next r w (.joining []) .replicas
  | join {copy : CopyId} {rest : List CopyId} {phase : Phase}
      (attempt : Phase.Attempt (.joining rest) phase) : Next r w (.joining (copy :: rest)) phase
  | replicas {phase : Phase}
      (attempt : Phase.Attempt (.hosts ⟨.declared, r.declaredHosts⟩) phase) :
      Next r w .replicas phase
  | round : Next r w (.hosts ⟨.declared, []⟩) (.hosts ⟨.known, (r.item w).hosts⟩)
  | exhausted (outcome : Outcome) : Next r w (.hosts ⟨.known, []⟩) (.leaving outcome)
  | here {round : Round} {host : NodeId} {rest : List NodeId} {phase : Phase}
      (self : host = r.node.id) (attempt : Phase.Attempt (.hosts ⟨round, rest⟩) phase) :
      Next r w (.hosts ⟨round, host :: rest⟩) phase
  | absent {round : Round} {host : NodeId} {rest : List NodeId} :
      Next r w (.hosts ⟨round, host :: rest⟩) (.hosts ⟨round, rest⟩)
  | asks {round : Round} {host : NodeId} {rest : List NodeId} {peer : Node}
      (ne : host ≠ r.node.id) (present : w.directory.get? host = some peer)
      (own : r.started.isSome) :
      Next r w (.hosts ⟨round, host :: rest⟩) (.ask peer ⟨round, rest⟩)
  | looks {round : Round} {host : NodeId} {rest : List NodeId} {peer : Node}
      (ne : host ≠ r.node.id) (present : w.directory.get? host = some peer)
      (own : r.started = none) :
      Next r w (.hosts ⟨round, host :: rest⟩) (.recheck peer ⟨round, rest⟩)
  | recheck {peer : Node} {route : Route} {phase : Phase}
      (attempt : Phase.Attempt (.enlist peer route) phase) : Next r w (.recheck peer route) phase
  | enlist {peer : Node} {route : Route} {copy : CopyId}
      (found : copy ∈ w.copiesTo r.request.item r.node.id) :
      Next r w (.enlist peer route) (.joined copy peer route)
  | joined {copy : CopyId} {peer : Node} {route : Route} {phase : Phase}
      (attempt : Phase.Attempt (.recheck peer route) phase) :
      Next r w (.joined copy peer route) phase
  | answered {reply : Reply} {route : Route} {phase : Phase}
      (attempt : Phase.Attempt (.hosts route) phase) : Next r w (.answered reply route) phase
  | leaves {outcome : Outcome} : Next r w (.leaving outcome) (.completing outcome)
  | ends {outcome : Outcome} (own : r.started = none) :
      Next r w (.completing outcome) (.done outcome)

/-- What an advance of a resolution does to the copies. -/
inductive Effect (r : Resolution) (w : World) : World → Resolution → Prop
  | quiet {w' : World} {phase : Phase} (same : w.SameCopies w') (next : r.Next w r.phase phase) :
      Effect r w w' (r.inPhase phase)
  | starts {peer : Node} {route : Route} (enlists : r.phase = .enlist peer route)
      (free : w.copiesTo r.request.item r.node.id = []) :
      Effect r w (w.joinOrStart r.node.id r.request).1
        { r with started := some w.copies.size, phase := .ask peer route }
  | completes {copy : CopyId} {outcome : Outcome} (completing : r.phase = .completing outcome)
      (own : r.started = some copy) :
      Effect r w (w.complete copy outcome) (r.inPhase (.withdrawing copy outcome))
  | withdraws {copy : CopyId} {outcome : Outcome}
      (withdrawing : r.phase = .withdrawing copy outcome) :
      Effect r w (w.updateItem r.request.item fun d => d.removeCopy copy)
        (r.inPhase (.done outcome))

/-- The copies that the resolution is to wait for. -/
def listed (r : Resolution) : List CopyId := r.phase.listed

/-- The copy that the resolution waits for. -/
def awaits (r : Resolution) : Option CopyId := r.listed.head?

/-- The moves that a resolution can make. -/
def CanMake (r : Resolution) (w : World) : Move Resolution → Prop
  | .advance w' r' => r.Effect w w' r'
  | .wait => (∃ route, r.phase = .asked route) ∨
    ∃ copy, r.awaits = some copy ∧ (w.copies.get copy).outcome = none
  | .call peer request r' => ∃ route,
    r.phase = .ask peer route ∧ request = r.forwarded ∧ r' = r.inPhase (.asked route)
  | .finish outcome => r.phase = .done outcome

variable {r r' : Resolution} {w w' v : World} {P : Phase → Prop}

/-- The move leaves the copies alone and leads to a phase of some kind. -/
def GoesTo (r : Resolution) (w : World) (P : Phase → Prop) : Move Resolution → Prop
  | .advance w' r' => w.SameCopies w' ∧ ∃ phase, P phase ∧ r' = r.inPhase phase
  | _ => False

theorem GoesTo.canMake {m : Move Resolution} (h : r.GoesTo w P m)
    (next : ∀ phase, P phase → r.Next w r.phase phase) : r.CanMake w m := by
  cases m with
  | advance w' r' =>
    obtain ⟨same, phase, hp, rfl⟩ := h
    exact .quiet same (next phase hp)
  | wait => exact h.elim
  | call _ _ _ => exact h.elim
  | finish _ => exact h.elim

theorem GoesTo.mono {m : Move Resolution} {Q : Phase → Prop} (h : r.GoesTo w P m)
    (hq : ∀ phase, P phase → Q phase) : r.GoesTo w Q m := by
  cases m with
  | advance w' r' =>
    obtain ⟨same, phase, hp, heq⟩ := h
    exact ⟨same, phase, hq phase hp, heq⟩
  | wait => exact h.elim
  | call _ _ _ => exact h.elim
  | finish _ => exact h.elim

theorem goesTo_proceed {phase : Phase} (hp : P phase) : r.GoesTo w P (r.proceed w phase) :=
  ⟨.refl w, phase, hp, rfl⟩

/-! ### The ways to get an item -/

theorem goesTo_takeKey : r.GoesTo w (r.Next w .start) (r.takeKey w) := by
  unfold takeKey
  split
  · exact ⟨.addLocation w _ _, _, .key _, rfl⟩
  · exact goesTo_proceed .noKey

theorem goesTo_keepValue (value : Value) (name : String) :
    r.GoesTo w (r.Next w .resident) (r.keepValue w value name) := by
  refine ⟨.trans ?_ (.register _ _), _, .value _, rfl⟩
  split
  · exact .updateItem w _ fun _ => rfl
  · exact .refl w

theorem goesTo_writeValue (value : Value) (path : Path) :
    r.GoesTo w (r.Next w .resident) (r.writeValue w value path) := by
  unfold writeValue
  split
  · exact ⟨(World.SameCopies.files w _).trans (.register _ _), _, .value _, rfl⟩
  · split
    · exact ⟨.files w _, _, .value _, rfl⟩
    · exact ⟨.files w _, _, .noValue, rfl⟩

theorem goesTo_placeValue : r.GoesTo w (r.Next w .resident) (r.placeValue w) := by
  unfold placeValue
  split
  · exact goesTo_proceed .noValue
  · split
    · exact goesTo_keepValue _ _
    · exact goesTo_proceed .noValue
  · split
    · exact goesTo_writeValue _ _
    · exact goesTo_proceed .noValue

theorem goesTo_deliver (hv : w.SameCopies v) (target : Target) (otherwise : Phase) :
    r.GoesTo w (Phase.Attempt otherwise) (r.deliver v target) :=
  ⟨hv.trans (.register v _), _, .succeeds _, rfl⟩

theorem goesTo_takeOver (outcome : Outcome) (otherwise : Phase) :
    r.GoesTo w (Phase.Attempt otherwise) (r.takeOver w outcome otherwise) := by
  unfold takeOver
  split
  · dsimp only
    split
    · rename_i hcopy
      exact goesTo_deliver (.copyFile hcopy) _ _
    · exact goesTo_proceed .fails
  · exact goesTo_deliver (.refl w) _ _
  · exact goesTo_proceed (.succeeds _)

theorem goesTo_useReplica (otherwise : Phase) :
    r.GoesTo w (Phase.Attempt otherwise) (r.useReplica w otherwise) := by
  unfold useReplica
  split
  · rename_i target v hreplica
    unfold copyReplica at hreplica
    split at hreplica
    · cases hreplica
    · obtain ⟨_, hcopy, heq⟩ := Option.map_eq_some_iff.1 hreplica
      cases heq
      exact goesTo_deliver (.copyFirst hcopy) _ _
  · exact goesTo_proceed .fails

/-! ### Calling other nodes -/

theorem goesTo_useSource (otherwise : Phase) :
    r.GoesTo w (Phase.Attempt otherwise) (r.useSource w otherwise) := by
  unfold useSource
  split
  · split
    · rename_i hcopy
      exact goesTo_deliver (.copyFile hcopy) _ _
    · exact goesTo_proceed .fails
  · exact goesTo_proceed .fails

theorem goesTo_approach {round : Round} {host : NodeId} {rest : List NodeId}
    (ne : host ≠ r.node.id) :
    r.GoesTo w (r.Next w (.hosts ⟨round, host :: rest⟩)) (r.approach w host ⟨round, rest⟩) := by
  unfold approach
  split
  · exact goesTo_proceed .absent
  · rename_i present
    split
    · rename_i own
      exact goesTo_proceed (.asks ne present (by rw [own]; rfl))
    · rename_i own
      exact goesTo_proceed (.looks ne present own)

theorem goesTo_nextHost (route : Route) :
    r.GoesTo w (r.Next w (.hosts route)) (r.nextHost w route) := by
  obtain ⟨round, pending⟩ := route
  cases pending with
  | nil =>
    cases round with
    | declared => exact goesTo_proceed .round
    | known => exact goesTo_proceed (.exhausted _)
  | cons host rest =>
    by_cases self : host = r.node.id
    · cases round with
      | declared =>
        simp only [nextHost, if_pos self]
        exact (goesTo_useSource _).mono fun _ => .here self
      | known =>
        simp only [nextHost, if_pos self]
        exact goesTo_proceed (.here self .fails)
    · cases round <;> simp only [nextHost, if_neg self] <;> exact goesTo_approach self

theorem goesTo_lookAgain (otherwise : Phase) :
    r.GoesTo w (Phase.Attempt otherwise) (r.lookAgain w otherwise) := by
  unfold lookAgain
  split
  · exact goesTo_proceed .fails
  · split
    · exact goesTo_proceed (.succeeds _)
    · exact goesTo_useReplica otherwise

theorem goesTo_accept (reply : Reply) (route : Route) :
    r.GoesTo w (Phase.Attempt (.hosts route)) (r.accept w reply route) := by
  unfold accept
  split
  · exact goesTo_deliver (.refl w) _ _
  · exact goesTo_proceed .fails

/-! ### Steps -/

theorem canMake_join {copy : CopyId} (otherwise : Phase) (ha : r.awaits = some copy)
    (next : ∀ phase, Phase.Attempt otherwise phase → r.Next w r.phase phase) :
    r.CanMake w (r.join w copy otherwise) := by
  unfold join
  split
  · rename_i ho
    exact .inr ⟨copy, ha, ho⟩
  · exact (goesTo_takeOver _ _).canMake next

theorem awaits_of_joining {copy : CopyId} {rest : List CopyId}
    (h : r.phase = .joining (copy :: rest)) : r.awaits = some copy := by
  rw [awaits, listed, h]
  rfl

theorem awaits_of_joined {copy : CopyId} {peer : Node} {route : Route}
    (h : r.phase = .joined copy peer route) : r.awaits = some copy := by
  rw [awaits, listed, h]
  rfl

/-- **What a step can do.** -/
theorem canMake_step (r : Resolution) (w : World) : r.CanMake w (r.step w) := by
  unfold step
  split <;> rename_i hphase
  · exact goesTo_takeKey.canMake (by rw [hphase]; exact fun _ => id)
  · exact goesTo_placeValue.canMake (by rw [hphase]; exact fun _ => id)
  · exact .quiet (.updateItem w _ Item.copies_pin) (by rw [hphase]; exact .survey)
  · exact .quiet (.refl w) (by rw [hphase]; exact .noCopy)
  · exact canMake_join _ (awaits_of_joining hphase) (by rw [hphase]; exact fun _ => .join)
  · exact (goesTo_useReplica _).canMake (by rw [hphase]; exact fun _ => .replicas)
  · exact (goesTo_nextHost _).canMake (by rw [hphase]; exact fun _ => id)
  · exact (goesTo_lookAgain _).canMake (by rw [hphase]; exact fun _ => .recheck)
  · rename_i peer route
    unfold enlist World.joinOrStart
    cases hcopies : w.copiesTo r.request.item r.node.id with
    | nil =>
      have heffect := Effect.starts (w := w) hphase hcopies
      simp only [World.joinOrStart, hcopies] at heffect
      exact heffect
    | cons copy rest =>
      refine .quiet (.refl w) ?_
      rw [hphase]
      refine .enlist ?_
      rw [hcopies]
      exact List.mem_cons_self
  · exact canMake_join _ (awaits_of_joined hphase) (by rw [hphase]; exact fun _ => .joined)
  · exact ⟨_, hphase, rfl, rfl⟩
  · exact .inl ⟨_, hphase⟩
  · exact (goesTo_accept _ _).canMake (by rw [hphase]; exact fun _ => .answered)
  · exact .quiet (.updateItem w _ Item.copies_unpin) (by rw [hphase]; exact .leaves)
  · split
    · rename_i own
      exact .quiet (.refl w) (by rw [hphase]; exact .ends own)
    · rename_i own
      exact .completes hphase own
  · exact .withdraws hphase
  · exact hphase

/-- **What an advance does to the copies.** -/
theorem effect_step (h : r.step w = .advance w' r') : r.Effect w w' r' := by
  have := r.canMake_step w
  rwa [h] at this

end Resolution

/-! ## Phases and copies -/

namespace Phase

/-- The copy that is yet to be finished, of those that have one of their own. -/
def holding (started : Option CopyId) : Phase → Option CopyId
  | .withdrawing .. | .done _ => none
  | _ => started

/-- Which phases are reached with a copy of one's own, and which without. -/
def Suits (started : Option CopyId) : Phase → Prop
  | .start | .resident | .survey | .joining _ | .replicas => started = none
  | .recheck .. | .enlist .. | .joined .. => started = none
  | .ask .. | .asked _ | .answered .. => started.isSome
  | .withdrawing copy _ => started = some copy
  | .hosts _ | .leaving _ | .completing _ | .done _ => True

/-- The outcome of a resolution that has nothing left to try. -/
def verdict? : Phase → Option Outcome
  | .leaving outcome | .completing outcome | .withdrawing _ outcome | .done outcome => some outcome
  | _ => none

/-- The steps that are left once there is an outcome. -/
def remaining : Phase → Nat
  | .leaving _ => 3
  | .completing _ => 2
  | .withdrawing .. => 1
  | _ => 0

end Phase

namespace Resolution

/-- The copy that the resolution has yet to finish. -/
def holding (r : Resolution) : Option CopyId := r.phase.holding r.started

/-- The resolution has a copy of its own just when its phase says so. -/
def IsCoherent (r : Resolution) : Prop := r.phase.Suits r.started

variable {r r' : Resolution} {w w' : World}

namespace Next

variable {phase phase' : Phase}

theorem suits (h : r.Next w phase phase') (hs : phase.Suits r.started) :
    phase'.Suits r.started := by
  cases h
  case join attempt | replicas attempt | here attempt | recheck attempt | joined attempt
      | answered attempt =>
    cases attempt
    · trivial
    · first
      | exact hs
      | trivial
  case asks own | looks own => exact own
  case noKey | noValue | survey | noCopy | enlist => exact hs
  all_goals trivial

theorem holding_eq (h : r.Next w phase phase') :
    phase'.holding r.started = phase.holding r.started := by
  cases h
  case join attempt | replicas attempt | here attempt | recheck attempt | joined attempt
      | answered attempt => cases attempt <;> rfl
  case ends own => exact own.symm
  all_goals rfl

/-- A copy is only waited for when it was found in progress. -/
theorem mem_listed (h : r.Next w phase phase') {c : CopyId} (hc : c ∈ phase'.listed) :
    c ∈ phase.listed ∨ c ∈ w.copiesTo r.request.item r.node.id := by
  cases h
  case survey => exact .inr hc
  case enlist found =>
    rw [List.mem_singleton.1 hc]
    exact .inr found
  case join attempt =>
    cases attempt
    · cases hc
    · exact .inl (List.mem_cons_of_mem _ hc)
  case replicas attempt | here attempt | recheck attempt | joined attempt | answered attempt =>
    cases attempt <;> cases hc
  all_goals cases hc

end Next

theorem Effect.isCoherent (hr : r.IsCoherent) (h : r.Effect w w' r') : r'.IsCoherent := by
  cases h with
  | quiet _ next => exact next.suits hr
  | starts _ _ => exact rfl
  | completes _ own => exact own
  | withdraws _ => exact trivial

theorem IsCoherent.started_eq_none {c : CopyId} (hr : r.IsCoherent) (h : c ∈ r.listed) :
    r.started = none := by
  unfold IsCoherent at hr
  unfold listed at h
  cases hphase : r.phase <;> rw [hphase] at hr h
  case joining | joined => exact hr
  all_goals cases h

theorem IsCoherent.started_of_withdrawing {copy : CopyId} {outcome : Outcome} (hr : r.IsCoherent)
    (h : r.phase = .withdrawing copy outcome) : r.started = some copy := by
  unfold IsCoherent at hr
  rw [h] at hr
  exact hr

theorem started_eq_of_holding {c : CopyId} (h : r.holding = some c) : r.started = some c := by
  unfold holding Phase.holding at h
  split at h
  · cases h
  · cases h
  · exact h

/-- A resolution that has yet to finish a copy of its own waits for none. -/
theorem IsCoherent.awaits_eq_none (hr : r.IsCoherent) {c : CopyId} (h : r.holding = some c) :
    r.awaits = none := by
  unfold awaits
  cases hl : r.listed with
  | nil => rfl
  | cons d rest =>
    have hs := hr.started_eq_none (c := d) (by rw [hl]; exact List.mem_cons_self)
    rw [started_eq_of_holding h] at hs
    cases hs

/-! ### Waiting for a copy -/

/-- What the outcome of a copy makes of a resolution that waits for it: it ends with the error, or
with the file that was delivered as soon as that can be copied to its own target. -/
def TakesOver (r : Resolution) (w w' : World) (outcome : Outcome) (verdict : Option Outcome) :
    Prop :=
  match outcome with
  | .error e => verdict = some (.error e)
  | .ok (.path delivered) =>
    ∀ target placed, r.localTarget = some target → w.copyFile delivered target = .ok placed →
      w' = placed.register r.request ∧ verdict = some (.ok (.path target))
  | .ok target => verdict = some (.ok target)

/-- What is certain of the end of the resolution may become so later on. -/
theorem TakesOver.mono {outcome : Outcome} {verdict verdict' : Option Outcome}
    (h : r.TakesOver w w' outcome verdict) (hv : ∀ o, verdict = some o → verdict' = some o) :
    r.TakesOver w w' outcome verdict' := by
  rcases outcome with e | (delivered | name | key)
  · exact hv _ h
  · exact fun target placed htarget hplaced =>
      ⟨(h target placed htarget hplaced).1, hv _ (h target placed htarget hplaced).2⟩
  · exact hv _ h
  · exact hv _ h

/-- How the resolution ends, once nothing is left to try. -/
def verdict? (r : Resolution) : Option Outcome := r.phase.verdict?

theorem step_of_awaits {c : CopyId} (h : r.awaits = some c) :
    ∃ otherwise, r.step w = r.join w c otherwise := by
  unfold awaits listed Phase.listed at h
  unfold step
  split at h <;> rename_i hphase
  · rename_i pending
    rw [hphase]
    cases pending with
    | nil => cases h
    | cons copy rest =>
      cases h
      exact ⟨_, rfl⟩
  · rw [hphase]
    cases h
    exact ⟨_, rfl⟩
  · cases h

theorem step_of_awaits_of_eq_none {c : CopyId} (h : r.awaits = some c)
    (hc : (w.copies.get c).outcome = none) : r.step w = .wait := by
  obtain ⟨otherwise, hstep⟩ := step_of_awaits (w := w) h
  rw [hstep, join, hc]

/-- **The outcome of a copy is taken over by those that wait for it.** -/
theorem takesOver_step {c : CopyId} {outcome : Outcome} (h : r.awaits = some c)
    (hc : (w.copies.get c).outcome = some outcome) :
    ∃ w' r', r.step w = .advance w' r' ∧ r.TakesOver w w' outcome r'.verdict? := by
  obtain ⟨otherwise, hstep⟩ := step_of_awaits (w := w) h
  rw [hstep, join, hc]
  dsimp only
  unfold takeOver TakesOver
  rcases outcome with e | (delivered | name | key)
  · exact ⟨_, _, rfl, rfl⟩
  · dsimp only
    split
    · rename_i placed hcopy
      refine ⟨_, _, rfl, fun target placed' htarget hplaced => ?_⟩
      rw [htarget, Option.getD_some] at hcopy ⊢
      rw [hcopy] at hplaced
      cases hplaced
      exact ⟨rfl, rfl⟩
    · rename_i hcopy
      refine ⟨_, _, rfl, fun target placed htarget hplaced => ?_⟩
      rw [htarget, Option.getD_some, hplaced] at hcopy
      cases hcopy
  · exact ⟨_, _, rfl, rfl⟩
  · exact ⟨_, _, rfl, rfl⟩

/-- **A resolution that has its outcome gets to the end**, whatever the world is like. -/
theorem step_of_verdict {outcome : Outcome} (h : r.verdict? = some outcome) :
    r.step w = .finish outcome ∨ ∃ w' r', r.step w = .advance w' r' ∧
      r'.verdict? = some outcome ∧ r'.phase.remaining < r.phase.remaining := by
  unfold verdict? Phase.verdict? at h
  unfold step
  split at h <;> rename_i hphase <;> cases h <;> rw [hphase]
  · exact .inr ⟨_, _, rfl, rfl, by simp [inPhase, Phase.remaining]⟩
  · right
    dsimp only
    split <;> exact ⟨_, _, rfl, rfl, by simp [inPhase, Phase.remaining]⟩
  · exact .inr ⟨_, _, rfl, rfl, by simp [inPhase, Phase.remaining]⟩
  · exact .inl rfl

/-! ### Calling a node -/

/-- The resolution calls a node, or has done so and waits for the reply. -/
def IsCalling (r : Resolution) (w : World) : Prop :=
  (∃ peer q r', r.step w = .call peer q r') ∨ ∃ route, r.phase = .asked route

instance (r : Resolution) (w : World) : Decidable (r.IsCalling w) :=
  decidable_of_iff
    (((match r.step w with
        | .call _ _ _ => true
        | _ => false) ||
      match r.phase with
        | .asked _ => true
        | _ => false) = true) <| by
    unfold IsCalling
    cases r.step w <;> cases r.phase <;> simp

/-- **Only a resolution with a copy of its own calls nodes.** -/
theorem holding_of_isCalling (hr : r.IsCoherent) (h : r.IsCalling w) :
    ∃ c, r.holding = some c := by
  have hasked : ∀ {phase}, r.phase = phase → phase.holding r.started = r.started →
      (phase.Suits r.started → r.started.isSome) → ∃ c, r.holding = some c := by
    rintro _ rfl hholding hsome
    obtain ⟨c, hc⟩ := Option.isSome_iff_exists.1 (hsome hr)
    exact ⟨c, by rw [holding, hholding, hc]⟩
  rcases h with ⟨peer, q, r', hstep⟩ | ⟨route, hphase⟩
  · have hcall := r.canMake_step w
    rw [hstep] at hcall
    obtain ⟨route, hphase, -, -⟩ := hcall
    exact hasked hphase rfl id
  · exact hasked hphase rfl id

/-- A reply goes to those that wait for one. -/
theorem answer_eq (h : ∀ route, r.phase ≠ .asked route) (reply : Reply) : r.answer reply = r := by
  unfold answer
  split
  · rename_i route hphase
    exact absurd hphase (h route)
  · rfl

theorem answer_of_verdict {outcome : Outcome} (h : r.verdict? = some outcome) (reply : Reply) :
    r.answer reply = r := by
  refine answer_eq (fun route hphase => ?_) reply
  rw [verdict?, hphase] at h
  cases h

theorem answer_of_awaits {c : CopyId} (h : r.awaits = some c) (reply : Reply) :
    r.answer reply = r := by
  refine answer_eq (fun route hphase => ?_) reply
  rw [awaits, listed, hphase] at h
  cases h

end Resolution

end Wharf
