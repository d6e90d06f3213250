import Wharf.Proofs.Transfer.CircularWait

/-!
# What calls end with

Where all nodes are own nodes a call that returns ends with one outcome, and leaves one world.

* `Thread.Ends` names both; they are determined by where the thread starts (`Thread.Ends.unique`),
  and the outcome can be computed (`Thread.outcomeIn`).
* `Frame.Yields` says of a frame that it gets to its end, whoever has called it, and what can be
  said of the outcome and the world then. The rules are those for frames that return
  (`Frame.Returns`), but what is known of the outcome of a call goes over to the caller.
-/

namespace Wharf

namespace Thread

variable {a b : World × Thread} {w w' v' : World} {t : Thread} {outcome outcome' : Outcome}

/-- The thread gets to its end with this outcome, and leaves this world. -/
def Ends (w : World) (t : Thread) (w' : World) (outcome : Outcome) : Prop :=
  ∃ t', Leads (w, t) (w', t') ∧ t'.step w' = .finished outcome

/-- A thread that is left alone can go on in one way only. -/
theorem goes_unique : Relator.RightUnique Goes := by
  intro a b b' h h'
  rw [Goes] at h h'
  rw [h, Progress.running.injEq] at h'
  exact Prod.ext h'.1 h'.2

/-- A thread that has got to its end is led nowhere. -/
theorem eq_of_leads_of_finished (h : Leads a b) (hf : a.2.step a.1 = .finished outcome) :
    b = a := by
  cases h using Relation.ReflTransGen.head_induction_on with
  | refl => rfl
  | head hgoes _ =>
    rw [Goes, hf] at hgoes
    cases hgoes

/-- **There is one outcome, and one world that is left.** -/
theorem Ends.unique (h : Ends w t w' outcome) (h' : Ends w t v' outcome') :
    v' = w' ∧ outcome' = outcome := by
  obtain ⟨s, hleads, hs⟩ := h
  obtain ⟨s', hleads', hs'⟩ := h'
  have heq : (v', s') = (w', s) := by
    rcases Relation.ReflTransGen.total_of_right_unique goes_unique hleads hleads'
      with hlater | hlater
    · exact eq_of_leads_of_finished hlater hs
    · exact (eq_of_leads_of_finished hlater hs').symm
  cases heq
  rw [hs, Progress.finished.injEq] at hs'
  exact ⟨rfl, hs'.symm⟩

theorem Ends.finishes (h : Ends w t w' outcome) : Finishes w t := by
  obtain ⟨t', hleads, hfinished⟩ := h
  exact .of_leads hleads (.now hfinished)

/-- The outcome of a thread that is at its end after so many steps. -/
def outcomeIn (steps : Nat) (a : World × Thread) : Option Outcome :=
  match (walk steps a).2.step (walk steps a).1 with
  | .finished outcome => some outcome
  | _ => none

theorem step_of_outcomeIn (steps : Nat) (h : outcomeIn steps a = some outcome) :
    (walk steps a).2.step (walk steps a).1 = .finished outcome := by
  unfold outcomeIn at h
  split at h
  · rename_i hfinished
    cases h
    exact hfinished
  · cases h

theorem ends_of_outcomeIn (steps : Nat) (h : outcomeIn steps (w, t) = some outcome) :
    Ends w t (walk steps (w, t)).1 outcome :=
  ⟨_, leads_walk steps (w, t), step_of_outcomeIn steps h⟩

end Thread

namespace Frame

variable {w w' : World} {f f' : Frame} {P Q : Outcome → World → Prop}

/-- The frame gets to its end, and something is known of its outcome and of the world then. -/
def Yields (w : World) (f : Frame) (Q : Outcome → World → Prop) : Prop :=
  ∀ callers, ∃ w' f' outcome, Thread.Leads (w, ⟨f, callers⟩) (w', ⟨f', callers⟩) ∧
    f'.step w' = .finish outcome ∧ Q outcome w'

namespace Yields

theorem of_finish {outcome : Outcome} (h : f.step w = .finish outcome) (hq : Q outcome w) :
    f.Yields w Q :=
  fun _ => ⟨w, f, outcome, .refl, h, hq⟩

theorem of_advance (h : f.step w = .advance w' f') (hy : f'.Yields w' Q) : f.Yields w Q := by
  intro callers
  obtain ⟨v, g, outcome, hleads, hfinish, hq⟩ := hy callers
  exact ⟨v, g, outcome, .head (goes_advance h callers) hleads, hfinish, hq⟩

theorem of_obtain {r r' : Resolution} (h : r.step w = .advance w' r')
    (hy : (Frame.obtain r').Yields w' Q) : (Frame.obtain r).Yields w Q :=
  of_advance (by rw [Frame.step, h]; rfl) hy

theorem of_send {δ δ' : Delivery} (h : δ.step w = .advance w' δ')
    (hy : (Frame.send δ').Yields w' Q) : (Frame.send δ).Yields w Q :=
  of_advance (by rw [Frame.step, h]; rfl) hy

theorem of_call {n : LocalNode} {q : Request} (h : f.step w = .call (.own n) q f')
    (hcallee : (Frame.start f.callKind n q).Yields w P)
    (hy : ∀ v outcome, P outcome v → (f'.answer (.notified outcome)).Yields v Q) :
    f.Yields w Q := by
  intro callers
  obtain ⟨v, g, outcome, hleads, hfinish, hp⟩ := hcallee (f' :: callers)
  obtain ⟨v', g', outcome', hleads', hfinish', hq⟩ := hy v outcome hp callers
  refine ⟨v', g', outcome', ?_, hfinish', hq⟩
  exact (Relation.ReflTransGen.head (goes_call h callers) hleads).trans
    (.head (goes_finish hfinish f' callers) hleads')

theorem mono (h : f.Yields w P) (hpq : ∀ outcome v, P outcome v → Q outcome v) : f.Yields w Q := by
  intro callers
  obtain ⟨v, g, outcome, hleads, hfinish, hp⟩ := h callers
  exact ⟨v, g, outcome, hleads, hfinish, hpq outcome v hp⟩

/-- A frame without callers is a thread of its own. -/
theorem exists_ends (h : f.Yields w Q) :
    ∃ w' outcome, Thread.Ends w ⟨f, []⟩ w' outcome ∧ Q outcome w' := by
  obtain ⟨v, g, outcome, hleads, hfinish, hq⟩ := h []
  refine ⟨v, outcome, ⟨⟨g, []⟩, hleads, ?_⟩, hq⟩
  rw [Thread.step, hfinish]
  rfl

end Yields

end Frame

end Wharf
