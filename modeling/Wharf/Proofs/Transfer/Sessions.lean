import Mathlib.Logic.Relation
import Wharf.Proofs.Transfer.Handling

/-!
# Sessions

A resolution with the nodes that it calls. Whatever a node does when it is called, and whatever goes
on elsewhere, all that the resolution sees of it is a changed world and a reply.

* A `Session` is the world, the resolution and the exchanges so far. `Session.Step` is one step of
  it, or a change by others.
* `Session.after` is the session after so many moves when the peers behave in some way and nothing
  else goes on, `Session.ComesTo` says what exchanges and what outcome it comes to.
-/

namespace Wharf

/-- What a node was asked for and what it has replied. -/
structure Exchange where
  peer : Node
  request : Request
  reply : Reply

/-- A resolution at work. -/
structure Session where
  world : World
  resolution : Resolution
  /-- The latest last. -/
  exchanges : List Exchange

/-- What the nodes do when they are called: they may change the world in any way before they reply,
and may go by what they were called for before. -/
abbrev Peers := List Exchange → Node → Request → World → World × Reply

namespace Session

/-- The session of a request before anything has been done. -/
def start (w : World) (n : LocalNode) (q : Request) : Session := ⟨w, .start n q, []⟩

/-- What can happen next. -/
inductive Step (s : Session) : Session → Prop
  | advances {w : World} {r : Resolution} (step : s.resolution.step s.world = .advance w r) :
      Step s ⟨w, r, s.exchanges⟩
  | calls {peer : Node} {q : Request} {r : Resolution}
      (step : s.resolution.step s.world = .call peer q r) (w : World) (reply : Reply) :
      Step s ⟨w, r.answer reply, s.exchanges ++ [⟨peer, q, reply⟩]⟩
  | others (w : World) : Step s { s with world := w }

/-- The next thing that happens when nobody else does anything. -/
def move (peers : Peers) (s : Session) : Session :=
  match s.resolution.step s.world with
  | .advance w r => ⟨w, r, s.exchanges⟩
  | .call peer q r =>
    let (w, reply) := peers s.exchanges peer q s.world
    ⟨w, r.answer reply, s.exchanges ++ [⟨peer, q, reply⟩]⟩
  | .wait | .finish _ => s

/-- The session after so many moves. -/
def after (peers : Peers) : Nat → Session → Session
  | 0, s => s
  | k + 1, s => after peers k (s.move peers)

/-- The outcome of a session that is over. -/
def outcome? (s : Session) : Option Outcome :=
  match s.resolution.step s.world with
  | .finish outcome => some outcome
  | _ => none

/-- The session comes to its end with these exchanges and this outcome. -/
def ComesTo (peers : Peers) (s : Session) (exchanges : List Exchange) (outcome : Outcome) : Prop :=
  ∃ k, (s.after peers k).exchanges = exchanges ∧ (s.after peers k).outcome? = some outcome

variable {peers : Peers} {s s' : Session} {exchanges all : List Exchange} {outcome : Outcome}
  {w w' : World} {r r' : Resolution}

theorem outcome?_eq_some_iff :
    s.outcome? = some outcome ↔ s.resolution.step s.world = .finish outcome := by
  unfold outcome?
  cases s.resolution.step s.world <;> simp

theorem move_of_advance (h : r.step w = .advance w' r') :
    move peers ⟨w, r, exchanges⟩ = ⟨w', r', exchanges⟩ := by
  simp only [move, h]

/-- An invariant of the moves holds after any number of them. -/
theorem after_of_invariant {P : Session → Prop} (hmove : ∀ s, P s → P (s.move peers)) (hs : P s)
    (k : Nat) : P (s.after peers k) := by
  induction k generalizing s with
  | zero => exact hs
  | succ k ih => exact ih (hmove s hs)

theorem step_of_move (peers : Peers) (s : Session) :
    s.move peers = s ∨ s.Step (s.move peers) := by
  unfold move
  split
  · rename_i hstep
    exact .inr (.advances hstep)
  · rename_i hstep
    exact .inr (.calls hstep _ _)
  · exact .inl rfl
  · exact .inl rfl

/-- Moves are steps. -/
theorem steps_after (peers : Peers) (k : Nat) (s : Session) :
    Relation.ReflTransGen Step s (s.after peers k) := by
  induction k generalizing s with
  | zero => exact .refl
  | succ k ih =>
    rcases step_of_move peers s with stays | hstep
    · rw [after, stays]
      exact ih s
    · exact .head hstep (ih _)

namespace ComesTo

theorem of_finish (h : r.step w = .finish outcome) :
    ComesTo peers ⟨w, r, exchanges⟩ exchanges outcome := ⟨0, rfl, outcome?_eq_some_iff.2 h⟩

theorem of_move (h : ComesTo peers (s.move peers) all outcome) : ComesTo peers s all outcome := by
  obtain ⟨k, hk⟩ := h
  exact ⟨k + 1, hk⟩

theorem of_advance (h : r.step w = .advance w' r')
    (next : ComesTo peers ⟨w', r', exchanges⟩ all outcome) :
    ComesTo peers ⟨w, r, exchanges⟩ all outcome := by
  refine of_move ?_
  rwa [move_of_advance h]

theorem of_call {peer : Node} {q : Request} {reply : Reply} (h : r.step w = .call peer q r')
    (answered : peers exchanges peer q w = (w', reply))
    (next : ComesTo peers ⟨w', r'.answer reply, exchanges ++ [⟨peer, q, reply⟩]⟩ all outcome) :
    ComesTo peers ⟨w, r, exchanges⟩ all outcome := by
  refine of_move ?_
  simp only [move, h, answered]
  exact next

/-- Once there is an outcome nobody is called any more. -/
theorem of_verdict (h : r.verdict? = some outcome) :
    ComesTo peers ⟨w, r, exchanges⟩ exchanges outcome := by
  induction hremaining : r.phase.remaining using Nat.strongRecOn generalizing w r with
  | _ remaining ih =>
    subst hremaining
    rcases r.step_of_verdict (w := w) h with hfinish | ⟨w', r', hadvance, hverdict, hlt⟩
    · exact of_finish hfinish
    · exact of_advance hadvance (ih _ hlt hverdict rfl)

end ComesTo

end Session

end Wharf
