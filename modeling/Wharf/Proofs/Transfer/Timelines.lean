import Mathlib.Data.List.Nodup
import Mathlib.Data.Nat.Init
import Wharf.Proofs.Transfer.Courses
import Wharf.Proofs.Transfer.Handling
import Wharf.Proofs.Transfer.Sharing

/-!
# Timelines

A resolution from its start on, with all that others do meanwhile.

* `World.Happens` is anything that others can do, other resolutions of the item included. The copies
  of an item come out of it as they went in, or further on (`World.Happens.onward`).
* `Resolution.Goes` is the next thing that a resolution does. There are four kinds of it
  (`Resolution.Goes.cases`).
* A `Timeline` is the whole course of a resolution. At all times the copies that it waits for are
  listed once (`Timeline.fits`), and one that it has waited for is not listed again
  (`Timeline.IsSpent.later`). So it waits for a copy once (`Timeline.resolution_eq_of_awaits`).
-/

namespace Wharf

namespace World

variable {w w' w'' : World} {item : ItemId}

/-! ## What others do -/

/-- The copies that are registered have been made, and each of them is registered once. -/
structure IsProper (w : World) (item : ItemId) : Prop where
  knows : w.Knows item
  nodup : (w.items.get item).copies.Nodup

/-- The copies are as before or further on, and none is registered a second time. -/
structure Onward (item : ItemId) (w w' : World) : Prop extends Later item w w' where
  nodup : w.IsProper item → (w'.items.get item).copies.Nodup

/-- What can happen, whoever does it. -/
inductive Happens (w : World) : World → Prop
  /-- A call does the next thing, whichever call it is and however far it has got. -/
  | moves {w' : World} {t t' : Thread} (step : t.step w = .running w' t') : Happens w w'
  | completes (copy : CopyId) (outcome : Outcome) : Happens w (w.complete copy outcome)
  /-- Something happens to files, locations, values, pins or nodes, there is a new item, or a copy
  is made and not registered. -/
  | elsewhere {w' : World} (size_le : w.copies.size ≤ w'.copies.size)
      (kept : ∀ c < w.copies.size, w'.copies.get c = w.copies.get c)
      (registered : ∀ i, (w'.items.get i).copies = (w.items.get i).copies) : Happens w w'

namespace Onward

theorem isProper (h : Onward item w w') (hw : w.IsProper item) : w'.IsProper item :=
  ⟨h.knows hw.knows, h.nodup hw⟩

theorem of_sameCopies (h : w.SameCopies w') : Onward item w w' where
  toLater := h.later
  nodup hw := by
    rw [h.registered]
    exact hw.nodup

theorem refl (w : World) : Onward item w w := of_sameCopies (.refl w)

theorem trans (h : Onward item w w') (h' : Onward item w' w'') : Onward item w w'' where
  toLater := h.toLater.trans h'.toLater
  nodup hw := h'.nodup (h.isProper hw)

/-- A copy that is registered is a new one. -/
theorem of_effect {r r' : Resolution} (h : r.Effect w w' r') : Onward item w w' where
  toLater := later_effect h
  nodup hw := by
    cases h with
    | quiet same _ => exact (of_sameCopies same).nodup hw
    | starts _ free =>
      rw [registered_joinOrStart free]
      split
      · refine List.nodup_append.2 ⟨hw.nodup, List.nodup_singleton _, ?_⟩
        rintro c hc _ hnew rfl
        exact Nat.ne_of_lt (hw.knows c hc) (List.mem_singleton.1 hnew)
      · exact hw.nodup
    | completes _ _ => exact hw.nodup
    | withdraws _ =>
      rw [registered_removeCopy]
      split
      · exact hw.nodup.filter _
      · exact hw.nodup

end Onward

theorem onward_of_turn {t t' : Thread} (h : t.Turn w w' t') : Onward item w w' := by
  cases h with
  | calls _ => exact .refl w
  | returns _ _ => exact .refl w
  | advances hstep =>
    obtain ⟨frame, callers⟩ := t
    cases frame with
    | obtain r =>
      obtain ⟨r', hadvance, -⟩ := Frame.exists_of_lift_advance hstep
      exact .of_effect (Resolution.effect_step hadvance)
    | send d =>
      obtain ⟨d', hadvance, -⟩ := Frame.exists_of_lift_advance hstep
      exact .of_sameCopies (Delivery.sameCopies_step hadvance)

/-- **Whatever happens, copies that are finished remain so**, and no copy is registered twice. -/
theorem Happens.onward (h : w.Happens w') : Onward item w w' := by
  cases h with
  | moves hstep => exact onward_of_turn (Thread.turn_of_running hstep)
  | completes copy outcome => exact ⟨later_complete, fun hw => hw.nodup⟩
  | elsewhere size_le kept registered =>
    refine ⟨⟨size_le, fun hk c hc => ?_, fun c hc outcome ho => ?_⟩, fun hw => ?_⟩
    · rw [registered] at hc
      exact Nat.lt_of_lt_of_le (hk c hc) size_le
    · rw [kept c hc, ho]
    · rw [registered]
      exact hw.nodup

theorem onward_of_happens (h : Relation.ReflTransGen Happens w w') : Onward item w w' := by
  induction h with
  | refl => exact .refl w
  | tail _ hlast ih => exact ih.trans hlast.onward

/-- A thread of own nodes does one thing after the other. -/
theorem happens_of_leads {a b : World × Thread} (h : Thread.Leads a b) :
    Relation.ReflTransGen Happens a.1 b.1 := by
  induction h with
  | refl => exact .refl
  | tail _ hgoes ih => exact ih.tail (.moves hgoes)

/-- A copy is joined or registered by some resolution. -/
theorem happens_joinOrStart (w : World) (n : LocalNode) (q : Request) :
    w.Happens (w.joinOrStart n.id q).1 := by
  let r : Resolution := ⟨n, q, none, .enlist (.own n) ⟨.known, []⟩⟩
  have hstep : ∃ r', r.step w = .advance (w.joinOrStart n.id q).1 r' := by
    simp only [r, Resolution.step, Resolution.enlist]
    split <;> rename_i hticket <;> rw [hticket] <;> exact ⟨_, rfl⟩
  obtain ⟨r', hstep⟩ := hstep
  have hrun : (Thread.mk (.obtain r) []).step w =
      .running (w.joinOrStart n.id q).1 ⟨.obtain r', []⟩ := by
    rw [Thread.step, Frame.step, hstep]
    rfl
  exact .moves hrun

end World

namespace Phase

/-- A node has been called or is about to be. -/
def IsCalling : Phase → Prop
  | .ask .. | .asked _ | .answered .. => True
  | _ => False

theorem IsCalling.suits_iff {phase : Phase} {started : Option CopyId} (h : phase.IsCalling) :
    phase.Suits started ↔ started.isSome := by
  cases phase <;> first
    | exact Iff.rfl
    | exact h.elim

theorem IsCalling.listed_eq {phase : Phase} (h : phase.IsCalling) : phase.listed = [] := by
  cases phase <;> first
    | rfl
    | exact h.elim

end Phase

namespace Resolution

variable {n : LocalNode} {q : Request} {r r' : Resolution} {w w' v : World} {c : CopyId}

/-! ## The next thing -/

/-- The next thing that a resolution does. It comes to nothing while the resolution waits, and once
it has ended. -/
inductive Goes (r : Resolution) (w : World) : World → Resolution → Prop
  | advances {w' : World} {r' : Resolution} (step : r.step w = .advance w' r') : Goes r w w' r'
  | waits (step : r.step w = .wait) : Goes r w w r
  | calls {peer : Node} {request : Request} {r' : Resolution}
      (step : r.step w = .call peer request r') : Goes r w w r'
  | replies {route : Route} (asked : r.phase = .asked route) (reply : Reply) :
      Goes r w w (r.answer reply)
  | rests {outcome : Outcome} (step : r.step w = .finish outcome) : Goes r w w r

theorem goes_go (r : Resolution) (w : World) : r.Goes w (r.go w).1 (r.go w).2 := by
  unfold go
  split <;> rename_i hstep
  · exact .advances hstep
  · exact .waits hstep
  · exact .calls hstep
  · exact .rests hstep

theorem go_of_isCalling (h : r.IsCalling w) :
    (∃ route, (r.go w).2.phase = .asked route) ∧ (r.go w).1 = w := by
  rcases h with ⟨peer, request, r', hstep⟩ | ⟨route, hphase⟩
  · have hmove := r.canMake_step w
    rw [hstep] at hmove
    obtain ⟨route, -, -, rfl⟩ := hmove
    rw [go, hstep]
    exact ⟨⟨route, rfl⟩, rfl⟩
  · have hstep : r.step w = .wait := by rw [step, hphase]
    rw [go, hstep]
    exact ⟨⟨route, hphase⟩, rfl⟩

/-- A resolution that has called a node leaves the world alone. -/
theorem course_of_isCalling {others : Nat → World → World} {k l : Nat}
    (hcalls : (course others w r k).2.IsCalling (course others w r k).1)
    (hquiet : ∀ j w, k < j → others j w = w) (hl : k ≤ l) :
    (course others w r l).2.IsCalling (course others w r l).1 ∧
      (course others w r l).1 = (course others w r k).1 := by
  induction l, hl using Nat.le_induction with
  | base => exact ⟨hcalls, rfl⟩
  | succ l hl ih =>
    obtain ⟨hasked, hworld⟩ := go_of_isCalling ih.1
    rw [course]
    dsimp only
    rw [hquiet (l + 1) _ (Nat.lt_succ_of_le hl)]
    exact ⟨.inr hasked, hworld.trans ih.2⟩

/-- A resolution that has to wait for others stays where it is until they move. -/
theorem course_of_step_eq_wait {others : Nat → World → World} {k l : Nat}
    (hwait : (course others w r k).2.step (course others w r k).1 = .wait)
    (hquiet : ∀ j w, k < j → others j w = w) (hl : k ≤ l) :
    course others w r l = course others w r k := by
  induction l, hl using Nat.le_induction with
  | base => rfl
  | succ l hl ih =>
    have hgo : (course others w r k).2.go (course others w r k).1 = course others w r k := by
      rw [go, hwait]
    rw [course, ih, hgo, hquiet (l + 1) _ (Nat.lt_succ_of_le hl)]

/-- The resolution goes on, waits for a copy, is busy with a call, or has ended. -/
theorem Goes.cases (h : r.Goes w v r') :
    r.Effect w v r' ∨
    (v = w ∧ r' = r ∧ ∃ c, r.awaits = some c ∧ (w.copies.get c).outcome = none) ∨
    (v = w ∧ r.phase.IsCalling ∧ ∃ phase : Phase, phase.IsCalling ∧ r' = r.inPhase phase) ∨
    (v = w ∧ r' = r ∧ ∃ outcome, r.phase = .done outcome) := by
  have hmove := r.canMake_step w
  cases h with
  | advances hstep => exact .inl (effect_step hstep)
  | waits hstep =>
    rw [hstep] at hmove
    rcases hmove with ⟨route, hphase⟩ | hawaits
    · exact .inr (.inr (.inl ⟨rfl, by rw [hphase]; trivial, .asked route, trivial,
        by rw [← hphase]; rfl⟩))
    · exact .inr (.inl ⟨rfl, rfl, hawaits⟩)
  | calls hstep =>
    rw [hstep] at hmove
    obtain ⟨route, hphase, -, rfl⟩ := hmove
    exact .inr (.inr (.inl ⟨rfl, by rw [hphase]; trivial, .asked route, trivial, rfl⟩))
  | @replies route hphase reply =>
    exact .inr (.inr (.inl ⟨rfl, by rw [hphase]; trivial, .answered reply route, trivial,
      by rw [answer, hphase]⟩))
  | @rests outcome hstep =>
    rw [hstep] at hmove
    exact .inr (.inr (.inr ⟨rfl, rfl, outcome, hmove⟩))

theorem Goes.onward {item : ItemId} (h : r.Goes w v r') : World.Onward item w v := by
  rcases h.cases with heffect | ⟨rfl, -⟩ | ⟨rfl, -⟩ | ⟨rfl, -⟩
  · exact .of_effect heffect
  · exact .refl v
  · exact .refl v
  · exact .refl v

/-! ## The copies that are listed -/

namespace Next

variable {phase phase' : Phase}

theorem nodup_listed (h : r.Next w phase phase')
    (hw : (w.items.get r.request.item).copies.Nodup) (hp : phase.listed.Nodup) :
    phase'.listed.Nodup := by
  cases h
  case survey => exact hw.filter _
  case enlist => exact List.nodup_singleton _
  case join attempt =>
    cases attempt
    · exact List.nodup_nil
    · exact (List.nodup_cons.1 hp).2
  case replicas attempt | here attempt | recheck attempt | joined attempt | answered attempt =>
    cases attempt <;> exact List.nodup_nil
  all_goals exact List.nodup_nil

/-- A copy that has been waited for is off the list. -/
theorem not_mem_listed (h : r.Next w phase phase') (hc : phase.listed.head? = some c)
    (hp : phase.listed.Nodup) : c ∉ phase'.listed := by
  cases h
  case join attempt =>
    cases hc
    cases attempt
    · exact List.not_mem_nil
    · exact (List.nodup_cons.1 hp).1
  case joined attempt => cases attempt <;> exact List.not_mem_nil
  all_goals cases hc

end Next

theorem Goes.mem_listed (h : r.Goes w v r') (hc : c ∈ r'.listed) :
    c ∈ r.listed ∨ c ∈ w.copiesTo r.request.item r.node.id := by
  rcases h.cases with heffect | ⟨-, rfl, -⟩ | ⟨-, -, phase, hcalling, rfl⟩ | ⟨-, rfl, -⟩
  · cases heffect with
    | quiet _ next => exact next.mem_listed hc
    | starts _ _ | completes _ _ | withdraws _ => cases hc
  · exact .inl hc
  · rw [listed, inPhase, hcalling.listed_eq] at hc
    cases hc
  · exact .inl hc

theorem Goes.nodup_listed (h : r.Goes w v r')
    (hw : (w.items.get r.request.item).copies.Nodup) (hr : r.listed.Nodup) : r'.listed.Nodup := by
  rcases h.cases with heffect | ⟨-, rfl, -⟩ | ⟨-, -, phase, hcalling, rfl⟩ | ⟨-, rfl, -⟩
  · cases heffect with
    | quiet _ next => exact next.nodup_listed hw hr
    | starts _ _ | completes _ _ | withdraws _ => exact List.nodup_nil
  · exact hr
  · rw [listed, inPhase, hcalling.listed_eq]
    exact List.nodup_nil
  · exact hr

/-- A resolution that waits for a copy stays as it is until the copy is finished. Then it is done
with that copy. -/
theorem Goes.awaits (h : r.Goes w v r') (hc : r.awaits = some c) (hr : r.listed.Nodup) :
    r' = r ∧ (w.copies.get c).outcome = none ∨
      (w.copies.get c).isFinished ∧ c ∉ r'.listed := by
  cases ho : (w.copies.get c).outcome with
  | none =>
    have hwait := step_of_awaits_of_eq_none hc ho
    cases h with
    | waits _ => exact .inl ⟨rfl, rfl⟩
    | replies _ reply => exact .inl ⟨answer_of_awaits hc reply, rfl⟩
    | rests _ => exact .inl ⟨rfl, rfl⟩
    | advances hstep | calls hstep =>
      rw [hwait] at hstep
      cases hstep
  | some outcome =>
    right
    obtain ⟨w', x, hadvance, -⟩ := takesOver_step hc ho
    refine ⟨by rw [Copy.isFinished, ho]; rfl, ?_⟩
    cases h with
    | advances hstep =>
      cases effect_step hstep with
      | quiet _ next => exact next.not_mem_listed hc hr
      | starts _ _ | completes _ _ | withdraws _ => exact List.not_mem_nil
    | replies asked _ =>
      rw [Resolution.awaits, listed, asked] at hc
      cases hc
    | waits hstep | calls hstep | rests hstep =>
      rw [hadvance] at hstep
      cases hstep

/-- What is so at all times. -/
structure Fits (n : LocalNode) (q : Request) (w : World) (r : Resolution) : Prop where
  node_eq : r.node = n
  request_eq : r.request = q
  isCoherent : r.IsCoherent
  isProper : w.IsProper q.item
  nodup : r.listed.Nodup
  listed_lt : ∀ c ∈ r.listed, c < w.copies.size

namespace Fits

theorem start (hw : w.IsProper q.item) : Fits n q w (.start n q) where
  node_eq := rfl
  request_eq := rfl
  isCoherent := rfl
  isProper := hw
  nodup := List.nodup_nil
  listed_lt _ hc := by cases hc

theorem onward (h : Fits n q v r) (hw : World.Onward q.item v w) : Fits n q w r where
  node_eq := h.node_eq
  request_eq := h.request_eq
  isCoherent := h.isCoherent
  isProper := hw.isProper h.isProper
  nodup := h.nodup
  listed_lt c hc := Nat.lt_of_lt_of_le (h.listed_lt c hc) hw.size_le

theorem goes (h : Fits n q w r) (hg : r.Goes w v r') : Fits n q v r' := by
  obtain ⟨rfl, rfl, hcoherent, hproper, hnodup, hlt⟩ := h
  have hstill : r'.node = r.node ∧ r'.request = r.request ∧ r'.IsCoherent := by
    rcases hg.cases with heffect | ⟨-, rfl, -⟩ | ⟨-, hcalls, phase, hcalling, rfl⟩ | ⟨-, rfl, -⟩
    · have := heffect.isCoherent hcoherent
      cases heffect <;> exact ⟨rfl, rfl, this⟩
    · exact ⟨rfl, rfl, hcoherent⟩
    · exact ⟨rfl, rfl, hcalling.suits_iff.2 (hcalls.suits_iff.1 hcoherent)⟩
    · exact ⟨rfl, rfl, hcoherent⟩
  have honward : World.Onward r.request.item w v := hg.onward
  refine ⟨hstill.1, hstill.2.1, hstill.2.2, honward.isProper hproper,
    hg.nodup_listed hproper.nodup hnodup, fun c hc => ?_⟩
  refine Nat.lt_of_lt_of_le ?_ honward.size_le
  rcases hg.mem_listed hc with hold | hnew
  · exact hlt c hold
  · exact hproper.knows.lt_of_mem_copiesTo hnew

end Fits

end Resolution

/-! ## Timelines -/

/-- A resolution from its start on. It does one thing after the other, and in between the others do
as many things as they like. -/
structure Timeline (n : LocalNode) (q : Request) where
  /-- The world at each time, when it is the resolution's turn. -/
  world : Nat → World
  /-- The world after that. -/
  moved : Nat → World
  resolution : Nat → Resolution
  starts : resolution 0 = .start n q
  isProper : (world 0).IsProper q.item
  goes : ∀ k, (resolution k).Goes (world k) (moved k) (resolution (k + 1))
  happens : ∀ k, Relation.ReflTransGen World.Happens (moved k) (world (k + 1))

namespace Timeline

variable {n : LocalNode} {q : Request} (t : Timeline n q) {j k l : Nat} {c : CopyId}

/-- The timeline of a resolution that is never idle but when it has to wait, where the others do
this and that before each move. -/
def among (others : Nat → World → World)
    (happens : ∀ k w, Relation.ReflTransGen World.Happens w (others k w)) (w : World)
    (isProper : (others 0 w).IsProper q.item) : Timeline n q where
  world k := (Resolution.course others w (.start n q) k).1
  moved k := ((Resolution.course others w (.start n q) k).2.go
    (Resolution.course others w (.start n q) k).1).1
  resolution k := (Resolution.course others w (.start n q) k).2
  starts := rfl
  isProper := isProper
  goes _ := Resolution.goes_go _ _
  happens k := happens (k + 1) _

/-- The copy that the resolution waits for at a time. -/
def awaits (k : Nat) : Option CopyId := (t.resolution k).awaits

/-- **What is so at the start remains so.** -/
theorem fits (k : Nat) : Resolution.Fits n q (t.world k) (t.resolution k) := by
  induction k with
  | zero =>
    rw [t.starts]
    exact .start t.isProper
  | succ k ih => exact (ih.goes (t.goes k)).onward (World.onward_of_happens (t.happens k))

theorem onward_succ (k : Nat) : World.Onward q.item (t.world k) (t.world (k + 1)) :=
  (t.goes k).onward.trans (World.onward_of_happens (t.happens k))

theorem onward (h : j ≤ k) : World.Onward q.item (t.world j) (t.world k) := by
  induction k, h using Nat.le_induction with
  | base => exact .refl _
  | succ k _ ih => exact ih.trans (t.onward_succ k)

/-- A copy has been waited for, and is not to be waited for again. -/
structure IsSpent (c : CopyId) (k : Nat) : Prop where
  lt_size : c < (t.world k).copies.size
  isFinished : ((t.world k).copies.get c).isFinished
  not_mem : c ∉ (t.resolution k).listed

variable {t}

theorem lt_size_of_awaits (h : t.awaits k = some c) : c < (t.world k).copies.size :=
  (t.fits k).listed_lt c (List.mem_of_mem_head? h)

/-- **A copy that is finished is not handed out again**, whether it is still registered or not. -/
theorem IsSpent.later (h : t.IsSpent c j) (hk : j ≤ k) : t.IsSpent c k := by
  induction k, hk using Nat.le_induction with
  | base => exact h
  | succ k _ ih =>
    obtain ⟨hlt, hfinished, hnot⟩ := ih
    have honward := t.onward_succ k
    refine ⟨Nat.lt_of_lt_of_le hlt honward.size_le, honward.isFinished hlt hfinished, fun hc => ?_⟩
    rcases (t.goes k).mem_listed hc with hold | hnew
    · exact hnot hold
    · rw [Copy.isFinished, (World.mem_copiesTo.1 hnew).2] at hfinished
      cases hfinished

theorem IsSpent.awaits_ne (h : t.IsSpent c k) : t.awaits k ≠ some c :=
  fun hc => h.not_mem (List.mem_of_mem_head? hc)

/-- Once the copy that is waited for is finished, it is spent. -/
theorem isSpent_of_isFinished (h : t.awaits k = some c)
    (hc : ((t.world k).copies.get c).isFinished) : t.IsSpent c (k + 1) := by
  have hlt := lt_size_of_awaits h
  have honward := t.onward_succ k
  rcases (t.goes k).awaits h (t.fits k).nodup with ⟨-, ho⟩ | ⟨-, hnot⟩
  · rw [Copy.isFinished, ho] at hc
    cases hc
  · exact ⟨Nat.lt_of_lt_of_le hlt honward.size_le, honward.isFinished hlt hc, hnot⟩

/-- **A copy is waited for until it is finished**, and then never again. -/
theorem resolution_eq_or_isSpent (h : t.awaits j = some c) (hk : j ≤ k) :
    t.resolution k = t.resolution j ∨ t.IsSpent c k := by
  induction k, hk using Nat.le_induction with
  | base => exact .inl rfl
  | succ k _ ih =>
    rcases ih with hsame | hspent
    · have hc : t.awaits k = some c := by rwa [awaits, hsame]
      rcases (t.goes k).awaits hc (t.fits k).nodup with ⟨hstays, -⟩ | ⟨hfinished, -⟩
      · exact .inl (hstays.trans hsame)
      · exact .inr (isSpent_of_isFinished hc hfinished)
    · exact .inr (hspent.later (Nat.le_succ k))

/-- A copy that has been waited for is spent when it is finished. -/
theorem isSpent_of_awaits (h : t.awaits j = some c) (hk : j ≤ k)
    (hc : ((t.world k).copies.get c).isFinished) : t.IsSpent c (k + 1) := by
  rcases resolution_eq_or_isSpent h hk with hsame | hspent
  · exact isSpent_of_isFinished (by rwa [awaits, hsame]) hc
  · exact hspent.later (Nat.le_succ k)

theorem resolution_eq_of_awaits (hj : t.awaits j = some c) (hk : t.awaits k = some c) (hl : j ≤ l)
    (hlk : l ≤ k) : t.resolution l = t.resolution j := by
  rcases resolution_eq_or_isSpent hj hl with hsame | hspent
  · exact hsame
  · exact absurd hk (hspent.later hlk).awaits_ne

end Timeline

end Wharf
