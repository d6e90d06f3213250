import Wharf.Proofs.Data.Pins
import Wharf.Proofs.Transfer.Handling
import Wharf.Proofs.Transfer.Successes

/-!
# What the calls in progress have on an item

While a node gets hold of an item, and the nodes that it calls, the item is pinned and copies of it
are registered. Each frame of the thread takes off what it has put on before it returns, so the
frames account for all of it, as long as nothing else goes on.

* `Frame.HoldPins` says so of the pins, `Frame.HoldCopies` of the copies, those of the last frames
  first. A frame has finished its own copy with its own outcome or not at all (`Frame.IsOrderly`).
* `Thread.Accounts` says so of a thread. Every step keeps it (`Thread.Accounts.goes`).
-/

namespace Wharf

/-! ## What frames have on their item -/

namespace Phase

/-- The outcome with which the copy of a resolution has been finished. -/
def settled? : Phase → Option Outcome
  | .withdrawing _ outcome | .done outcome => some outcome
  | _ => none

/-- The copy that is registered, of those that have one of their own. -/
def registered? (started : Option CopyId) : Phase → Option CopyId
  | .done _ => none
  | _ => started

end Phase

namespace Resolution.Next

variable {r : Resolution} {w : World} {phase phase' : Phase}

theorem registered?_eq (h : r.Next w phase phase') :
    phase'.registered? r.started = phase.registered? r.started := by
  cases h
  case join attempt | replicas attempt | here attempt | recheck attempt | joined attempt
      | answered attempt => cases attempt <;> rfl
  case ends own => exact own.symm
  all_goals rfl

theorem settled?_eq {c : CopyId} (h : r.Next w phase phase') (own : r.started = some c) :
    phase'.settled? = phase.settled? := by
  cases h
  case join attempt | replicas attempt | here attempt | recheck attempt | joined attempt
      | answered attempt => cases attempt <;> rfl
  case ends none =>
    rw [own] at none
    cases none
  all_goals rfl

end Resolution.Next

namespace Frame

/-- The pins that a frame has on its item. -/
def pins : Frame → Nat
  | obtain r => r.phase.pins
  | send _ => 0

/-- The copy that a frame has registered and not taken off again. -/
def registered? : Frame → Option CopyId
  | obtain r => r.phase.registered? r.started
  | send _ => none

/-- A frame has a copy of its own just when its phase says so, and has finished it with its own
outcome or not at all. -/
def IsOrderly (w : World) : Frame → Prop
  | obtain r => r.IsCoherent ∧ ∀ c, r.started = some c →
    c < w.copies.size ∧ (w.copies.get c).outcome = r.phase.settled?
  | send _ => True

/-- A frame waits for a reply. -/
def IsWaiting : Frame → Prop
  | obtain r => ∃ route, r.phase = .asked route
  | send δ => ∃ pending, δ.phase = .asked pending

/-- The pins that all of them have. -/
def allPins (frames : List Frame) : Nat := frames.foldr (fun f total => f.pins + total) 0

/-- All pins on an item are those of the frames and those that were there before. -/
def HoldPins (w₀ : World) (item : ItemId) (w : World) (frames : List Frame) : Prop :=
  ∀ i, (w.items.get i).pins =
    (w₀.items.get i).pins + if i = item then allPins frames else 0

/-- The copies of the frames, those of the last ones first. -/
def registered (frames : List Frame) : List CopyId := frames.filterMap registered?

/-- All copies that are registered are those of the frames and those that were there before, and
the others that have been registered in the meantime are finished. -/
structure HoldCopies (w₀ : World) (item : ItemId) (w : World) (frames : List Frame) : Prop where
  size_le : w₀.copies.size ≤ w.copies.size
  copies : ∀ i, (w.items.get i).copies =
    (w₀.items.get i).copies ++ if i = item then (registered frames).reverse else []
  fresh : ∀ c ∈ registered frames, w₀.copies.size ≤ c ∧ c < w.copies.size
  latest : (registered frames).Pairwise (· > ·)
  orderly : ∀ f ∈ frames, f.IsOrderly w
  finished : ∀ c, w₀.copies.size ≤ c → c < w.copies.size →
    c ∈ registered frames ∨ (w.copies.get c).isFinished

variable {w₀ w w' : World} {q : Request} {f f' : Frame} {item : ItemId} {callers : List Frame}

theorem allPins_cons (f : Frame) (callers : List Frame) :
    allPins (f :: callers) = f.pins + allPins callers := rfl

@[simp]
theorem pins_start (kind : CallKind) (n : LocalNode) (q : Request) :
    (start kind n q).pins = 0 := by cases kind <;> rfl

@[simp]
theorem registered?_start (kind : CallKind) (n : LocalNode) (q : Request) :
    (start kind n q).registered? = none := by cases kind <;> rfl

theorem isOrderly_start (kind : CallKind) (n : LocalNode) (q : Request) :
    (start kind n q).IsOrderly w := by
  cases kind
  · exact ⟨rfl, nofun⟩
  · trivial

/-- A frame that calls a node has not said anything of the item, and keeps what it has. -/
theorem keeps_of_call {peer : Node} (h : f.step w = .call peer q f') :
    f.report? = none ∧ f'.IsWaiting ∧ f'.pins = f.pins ∧ f'.registered? = f.registered? ∧
      (f.IsOrderly w → f'.IsOrderly w) := by
  cases f with
  | obtain r =>
    obtain ⟨r', hcall, rfl⟩ := exists_of_lift_call h
    have calls := r.canMake_step w
    rw [hcall] at calls
    obtain ⟨route, hphase, -, rfl⟩ := calls
    refine ⟨?_, ⟨route, rfl⟩, ?_, ?_, fun orderly => ?_⟩
    · rw [report?, hphase]
      rfl
    · rw [pins, pins, hphase]
      rfl
    · rw [registered?, registered?, hphase]
      rfl
    · rw [IsOrderly, Resolution.IsCoherent, hphase] at orderly
      exact orderly
  | send δ =>
    obtain ⟨δ', hcall, rfl⟩ := exists_of_lift_call h
    have calls := δ.canMake_step w
    rw [hcall] at calls
    obtain ⟨host, rest, hphase, -, -, rfl⟩ := calls
    refine ⟨?_, ⟨rest, rfl⟩, rfl, rfl, fun _ => trivial⟩
    rw [report?, hphase]
    rfl

/-- A frame that returns has nothing any more. -/
theorem nothing_of_finish {outcome : Outcome} (h : f.step w = .finish outcome) :
    f.pins = 0 ∧ f.registered? = none := by
  cases f with
  | obtain r =>
    have hdone := r.canMake_step w
    rw [eq_of_lift_finish h] at hdone
    change r.phase = .done outcome at hdone
    rw [pins, registered?, hdone]
    exact ⟨rfl, rfl⟩
  | send _ => exact ⟨rfl, rfl⟩

/-- A reply takes nothing from the frame that waits for it. -/
theorem keeps_of_answer (f : Frame) (reply : Reply) :
    (f.answer reply).pins = f.pins ∧ (f.answer reply).registered? = f.registered? ∧
      (f.IsOrderly w → (f.answer reply).IsOrderly w) := by
  cases f with
  | obtain r =>
    rw [answer, Resolution.answer]
    split
    · rename_i route hphase
      refine ⟨?_, ?_, fun orderly => ?_⟩
      · rw [pins, pins, hphase]
        rfl
      · rw [registered?, registered?, hphase]
        rfl
      · rw [IsOrderly, Resolution.IsCoherent, hphase] at orderly
        exact orderly
    · exact ⟨rfl, rfl, id⟩
  | send _ => exact ⟨rfl, rfl, fun _ => trivial⟩

/-- Who waits for a reply says what it says. -/
theorem report?_answer (h : f.IsWaiting) (reply : Reply) :
    (f.answer reply).report? = reply.target? := by
  cases f with
  | obtain r =>
    obtain ⟨route, hphase⟩ := h
    rw [answer, Resolution.answer_of_asked hphase]
    rfl
  | send δ =>
    obtain ⟨pending, hphase⟩ := h
    rw [answer, Delivery.answer_of_asked hphase]
    rfl

/-! ### Pins -/

/-- The pins on the item change by those of the frame. -/
theorem pins_advance (h : f.step w = .advance w' f')
    (held : f.pins ≤ (w.items.get f.request.item).pins) (i : ItemId) :
    ((w'.items.get i).pins + if i = f.request.item then f.pins else 0) =
      (w.items.get i).pins + if i = f.request.item then f'.pins else 0 := by
  have still (items : (w'.items.get i).pins = (w.items.get i).pins) (pins : f'.pins = f.pins) :
      ((w'.items.get i).pins + if i = f.request.item then f.pins else 0) =
        (w.items.get i).pins + if i = f.request.item then f'.pins else 0 := by rw [items, pins]
  cases f with
  | send δ =>
    obtain ⟨δ', hadvance, rfl⟩ := exists_of_lift_advance h
    have deed := δ.canMake_step w
    rw [hadvance] at deed
    obtain ⟨phase, deed, rfl⟩ := deed
    exact still (by rw [deed.items_eq]) rfl
  | obtain r =>
    obtain ⟨r', hadvance, rfl⟩ := exists_of_lift_advance h
    cases Resolution.handles_step hadvance with
    | passes _ pins same _ => exact still (pins i) same
    | brings _ pins same _ _ => exact still (pins i) same
    | takes start _ after _ =>
      refine still ?_ (after.trans (by rw [Frame.pins, start]; rfl))
      rw [World.pins_addLocation]
    | pins before after _ =>
      rw [request, pins, pins, before, after, World.updateItem, Cells.update, Cells.get_set]
      split
      · rename_i hi
        rw [hi]
        rfl
      · rfl
    | unpins before after _ =>
      rw [request, pins, before] at held
      rw [request, pins, pins, before, after, World.updateItem, Cells.update, Cells.get_set]
      split
      · rename_i hi
        rw [Item.pins_unpin, hi]
        omega
      · rfl

namespace HoldPins

theorem start (n : LocalNode) (q : Request) (w : World) :
    HoldPins w q.item w [Frame.start .obtain n q] := by
  intro i
  rw [allPins_cons, pins_start]
  split <;> rfl

variable (h : HoldPins w₀ item w (f :: callers))

include h

theorem advance (hitem : f.request.item = item) (hstep : f.step w = .advance w' f') :
    HoldPins w₀ item w' (f' :: callers) := by
  have held : f.pins ≤ (w.items.get f.request.item).pins := by
    rw [h, if_pos hitem, allPins_cons]
    omega
  intro i
  have before := h i
  have change := pins_advance hstep held i
  rw [hitem] at change
  rw [allPins_cons] at before ⊢
  split at change <;> split at before <;> split <;> first | omega | contradiction

theorem call {n : LocalNode} {q : Request} {kind : CallKind} {peer : Node} {q' : Request}
    (hstep : f.step w = .call peer q' f') :
    HoldPins w₀ item w (Frame.start kind n q :: f' :: callers) := by
  intro i
  rw [h i, allPins_cons, allPins_cons, allPins_cons, pins_start, (keeps_of_call hstep).2.2.1,
    Nat.zero_add]

end HoldPins

theorem HoldPins.answer {caller : Frame} {outcome : Outcome}
    (h : HoldPins w₀ item w (f :: caller :: callers)) (hstep : f.step w = .finish outcome)
    (reply : Reply) : HoldPins w₀ item w (caller.answer reply :: callers) := by
  intro i
  rw [h i, allPins_cons, allPins_cons, allPins_cons, (nothing_of_finish hstep).1,
    (keeps_of_answer (w := w) caller reply).1, Nat.zero_add]

/-! ### Copies -/

theorem registered_cons (f : Frame) (callers : List Frame) :
    registered (f :: callers) = f.registered?.toList ++ registered callers := by
  rw [registered, List.filterMap_cons]
  cases f.registered? <;> rfl

/-- The copy of a frame that waits is registered. -/
theorem mem_registered {r : Resolution} {c : CopyId} (hr : .obtain r ∈ callers)
    (waits : (Frame.obtain r).IsWaiting) (own : r.started = some c) : c ∈ registered callers := by
  obtain ⟨route, hphase⟩ := waits
  refine List.mem_filterMap.2 ⟨.obtain r, hr, ?_⟩
  rw [registered?, hphase]
  exact own

/-- A frame that waits stays orderly as long as nothing happens to its own copy. -/
theorem IsOrderly.mono (h : f.IsOrderly w) (hf : f ∈ callers) (waits : f.IsWaiting)
    (size_le : w.copies.size ≤ w'.copies.size)
    (same : ∀ c ∈ registered callers, (w'.copies.get c).outcome = (w.copies.get c).outcome) :
    f.IsOrderly w' := by
  cases f with
  | send _ => trivial
  | obtain r =>
    refine ⟨h.1, fun c own => ?_⟩
    rw [same c (mem_registered hf waits own)]
    exact ⟨Nat.lt_of_lt_of_le (h.2 c own).1 size_le, (h.2 c own).2⟩

namespace HoldCopies

theorem start (n : LocalNode) (q : Request) (w : World) :
    HoldCopies w q.item w [Frame.start .obtain n q] where
  size_le := Nat.le_refl _
  copies i := by
    rw [registered_cons, registered?_start]
    split <;> exact (List.append_nil _).symm
  fresh := nofun
  latest := .nil
  orderly f hf := by
    rw [List.mem_singleton.1 hf]
    exact isOrderly_start _ _ _
  finished c hle hlt := absurd hlt (Nat.not_lt_of_le hle)

/-- Other frames may account for the same copies. -/
theorem replace {frames frames' : List Frame} (h : HoldCopies w₀ item w frames)
    (same : registered frames' = registered frames)
    (orderly : ∀ f ∈ frames', f.IsOrderly w) : HoldCopies w₀ item w frames' where
  size_le := h.size_le
  copies := by rw [same]; exact h.copies
  fresh := by rw [same]; exact h.fresh
  latest := by rw [same]; exact h.latest
  orderly := orderly
  finished := by rw [same]; exact h.finished

section Turns

variable (h : HoldCopies w₀ item w (f :: callers))

include h

theorem call {n : LocalNode} {kind : CallKind} {peer : Node} {q q' : Request}
    (hstep : f.step w = .call peer q' f') :
    HoldCopies w₀ item w (Frame.start kind n q :: f' :: callers) := by
  obtain ⟨-, -, -, registered, orderly⟩ := keeps_of_call hstep
  obtain ⟨hf, hcallers⟩ := List.forall_mem_cons.1 h.orderly
  refine h.replace ?_ ?_
  · rw [registered_cons, registered_cons, registered_cons, registered?_start, registered]
    rfl
  · exact List.forall_mem_cons.2 ⟨isOrderly_start _ _ _,
      List.forall_mem_cons.2 ⟨orderly hf, hcallers⟩⟩

theorem quiet (same : w.SameCopies w') (registered : f'.registered? = f.registered?)
    (orderly : f.IsOrderly w → f'.IsOrderly w') (waiting : ∀ f ∈ callers, f.IsWaiting) :
    HoldCopies w₀ item w' (f' :: callers) := by
  have regs : Frame.registered (f' :: callers) = Frame.registered (f :: callers) := by
    rw [registered_cons, registered_cons, registered]
  obtain ⟨hf, hcallers⟩ := List.forall_mem_cons.1 h.orderly
  constructor
  · rw [same.copies]
    exact h.size_le
  · intro i
    rw [same.registered, regs, h.copies]
  · rw [same.copies, regs]
    exact h.fresh
  · rw [regs]
    exact h.latest
  · refine List.forall_mem_cons.2 ⟨orderly hf, fun g hg => ?_⟩
    exact (hcallers g hg).mono hg (waiting g hg) (Nat.le_of_eq (by rw [same.copies])) fun c _ => by
      rw [same.copies]
  · rw [same.copies, regs]
    exact h.finished

end Turns

theorem answer {caller : Frame} {outcome : Outcome}
    (h : HoldCopies w₀ item w (f :: caller :: callers)) (hstep : f.step w = .finish outcome)
    (reply : Reply) : HoldCopies w₀ item w (caller.answer reply :: callers) := by
  obtain ⟨-, registered, orderly⟩ := keeps_of_answer (w := w) caller reply
  obtain ⟨-, hothers⟩ := List.forall_mem_cons.1 h.orderly
  obtain ⟨hcaller, hcallers⟩ := List.forall_mem_cons.1 hothers
  refine h.replace ?_ (List.forall_mem_cons.2 ⟨orderly hcaller, hcallers⟩)
  rw [registered_cons, registered_cons, registered_cons, registered, (nothing_of_finish hstep).2]
  rfl

section Effects

variable {r : Resolution} (h : HoldCopies w₀ r.request.item w (.obtain r :: callers))
  (waiting : ∀ f ∈ callers, f.IsWaiting)

include h waiting

theorem starts {peer : Node} {route : Route} (enlists : r.phase = .enlist peer route)
    (free : w.copiesTo r.request.item r.node.id = []) :
    HoldCopies w₀ r.request.item (w.joinOrStart r.node.id r.request).1
      (.obtain { r with started := some w.copies.size, phase := .ask peer route } :: callers) := by
  obtain ⟨⟨coherent, -⟩, hcallers⟩ := List.forall_mem_cons.1 h.orderly
  have none : r.started = none := by
    rw [Resolution.IsCoherent, enlists] at coherent
    exact coherent
  have before : registered (.obtain r :: callers) = registered callers := by
    rw [registered_cons, registered?, enlists, none]
    rfl
  have after : registered (.obtain { r with started := some w.copies.size
                                            phase := .ask peer route } :: callers) =
      w.copies.size :: registered callers := by
    rw [registered_cons]
    rfl
  have fresh := h.fresh
  rw [before] at fresh
  have old (c : CopyId) (hc : c ≠ w.copies.size) :
      (w.joinOrStart r.node.id r.request).1.copies.get c = w.copies.get c := by
    rw [World.get_copies_joinOrStart free, if_neg hc]
  constructor
  · rw [World.size_joinOrStart free]
    exact Nat.le_succ_of_le h.size_le
  · intro i
    rw [World.registered_joinOrStart free, h.copies, before, after, List.reverse_cons]
    split
    · rw [List.append_assoc]
    · rfl
  · rw [after, World.size_joinOrStart free]
    refine List.forall_mem_cons.2 ⟨⟨h.size_le, Nat.lt_succ_self _⟩, fun c hc => ?_⟩
    exact ⟨(fresh c hc).1, Nat.lt_succ_of_lt (fresh c hc).2⟩
  · have latest := h.latest
    rw [before] at latest
    rw [after]
    exact .cons (fun c hc => (fresh c hc).2) latest
  · refine List.forall_mem_cons.2 ⟨⟨rfl, fun c own => ?_⟩, fun g hg => ?_⟩
    · cases own
      rw [World.get_copies_joinOrStart free, if_pos rfl, World.size_joinOrStart free]
      exact ⟨Nat.lt_succ_self _, rfl⟩
    · refine (hcallers g hg).mono hg (waiting g hg) ?_ fun c hc => ?_
      · rw [World.size_joinOrStart free]
        exact Nat.le_succ _
      · rw [old c (Nat.ne_of_lt (fresh c hc).2)]
  · intro c hle hlt
    rw [World.size_joinOrStart free] at hlt
    rw [after]
    by_cases hc : c = w.copies.size
    · rw [hc]
      exact .inl List.mem_cons_self
    · have earlier := h.finished c hle (by omega)
      rw [before] at earlier
      rw [old c hc]
      exact earlier.imp_left (List.mem_cons_of_mem _)

theorem completes {copy : CopyId} {outcome : Outcome} (completing : r.phase = .completing outcome)
    (own : r.started = some copy) :
    HoldCopies w₀ r.request.item (w.complete copy outcome)
      (.obtain (r.inPhase (.withdrawing copy outcome)) :: callers) := by
  obtain ⟨⟨-, unfinished⟩, hcallers⟩ := List.forall_mem_cons.1 h.orderly
  have before : registered (.obtain r :: callers) = copy :: registered callers := by
    rw [registered_cons, registered?, completing, own]
    rfl
  have after : registered (.obtain (r.inPhase (.withdrawing copy outcome)) :: callers) =
      copy :: registered callers := by
    rw [registered_cons, registered?, Resolution.inPhase, own]
    rfl
  have latest := h.latest
  rw [before] at latest
  refine ⟨h.size_le, fun i => ?_, ?_, by rwa [after], ?_, fun c hle hlt => ?_⟩
  · rw [after, ← before]
    exact h.copies i
  · rw [after, ← before]
    exact h.fresh
  · refine List.forall_mem_cons.2 ⟨⟨own, fun c hown => ?_⟩, fun g hg => ?_⟩
    · cases own.symm.trans hown
      refine ⟨(unfinished copy own).1, ?_⟩
      rw [World.get_copies_complete, if_pos rfl, World.outcome_complete, (unfinished copy own).2,
        completing]
      rfl
    · refine (hcallers g hg).mono hg (waiting g hg) (Nat.le_refl _) fun c hc => ?_
      rw [World.get_copies_complete, if_neg (Nat.ne_of_lt (List.rel_of_pairwise_cons latest hc))]
  · rw [after, ← before, World.isFinished_complete, Bool.or_eq_true]
    exact (h.finished c hle hlt).imp_right .inr

theorem withdraws (hknows : w₀.Knows r.request.item) {copy : CopyId} {outcome : Outcome}
    (withdrawing : r.phase = .withdrawing copy outcome) :
    HoldCopies w₀ r.request.item (w.updateItem r.request.item fun d => d.removeCopy copy)
      (.obtain (r.inPhase (.done outcome)) :: callers) := by
  obtain ⟨⟨coherent, finished⟩, hcallers⟩ := List.forall_mem_cons.1 h.orderly
  have own : r.started = some copy := coherent.started_of_withdrawing withdrawing
  have before : registered (.obtain r :: callers) = copy :: registered callers := by
    rw [registered_cons, registered?, withdrawing, own]
    rfl
  have after : registered (.obtain (r.inPhase (.done outcome)) :: callers) =
      registered callers := by
    rw [registered_cons]
    rfl
  have latest := h.latest
  have fresh := h.fresh
  rw [before] at latest fresh
  refine ⟨h.size_le, fun i => ?_, ?_, ?_, ?_, fun c hle hlt => ?_⟩
  · rw [World.registered_removeCopy, h.copies, before, after, List.reverse_cons]
    split
    · -- The copy is none of those that were there before, nor of those of the callers.
      rename_i hi
      have old : ∀ c ∈ (w₀.items.get i).copies, (c != copy) = true := by
        intro c hc
        rw [hi] at hc
        exact bne_iff_ne.2 (Nat.ne_of_lt (Nat.lt_of_lt_of_le (hknows c hc)
          (fresh copy List.mem_cons_self).1))
      have others : ∀ c ∈ (registered callers).reverse, (c != copy) = true := by
        intro c hc
        exact bne_iff_ne.2 (Nat.ne_of_lt (List.rel_of_pairwise_cons latest (List.mem_reverse.1 hc)))
      rw [List.filter_append, List.filter_append, List.filter_eq_self.2 old,
        List.filter_eq_self.2 others, List.filter_cons_of_neg (by simp), List.filter_nil,
        List.append_nil]
    · rfl
  · rw [after]
    exact fun c hc => fresh c (List.mem_cons_of_mem _ hc)
  · rw [after]
    exact latest.of_cons
  · refine List.forall_mem_cons.2 ⟨⟨trivial, fun c hown => ⟨(finished c hown).1, ?_⟩⟩, ?_⟩
    · refine (finished c hown).2.trans ?_
      rw [withdrawing]
      rfl
    · exact fun g hg => (hcallers g hg).mono hg (waiting g hg) (Nat.le_refl _) fun _ _ => rfl
  · have earlier := h.finished c hle hlt
    rw [before] at earlier
    rw [after]
    rcases earlier with hc | hc
    · rcases List.mem_cons.1 hc with rfl | hc
      · right
        change ((w.copies.get c).isFinished) = true
        rw [Copy.isFinished, (finished c own).2, withdrawing]
        rfl
      · exact .inl hc
    · exact .inr hc

end Effects

/-- **The frames account for all copies**, whatever the one that is worked on does. -/
theorem advance (h : HoldCopies w₀ item w (f :: callers)) (hknows : w₀.Knows item)
    (hitem : f.request.item = item) (waiting : ∀ f ∈ callers, f.IsWaiting)
    (hstep : f.step w = .advance w' f') : HoldCopies w₀ item w' (f' :: callers) := by
  subst hitem
  cases f with
  | send δ =>
    obtain ⟨δ', hadvance, rfl⟩ := exists_of_lift_advance hstep
    exact h.quiet (Delivery.sameCopies_step hadvance) rfl (fun _ => trivial) waiting
  | obtain r =>
    obtain ⟨r', hadvance, rfl⟩ := exists_of_lift_advance hstep
    cases Resolution.effect_step hadvance with
    | starts enlists free => exact h.starts waiting enlists free
    | completes completing own => exact h.completes waiting completing own
    | withdraws withdrawing => exact h.withdraws waiting hknows withdrawing
    | quiet same next =>
      refine h.quiet same next.registered?_eq (fun orderly => ?_) waiting
      refine ⟨next.suits orderly.1, fun c own => ?_⟩
      rw [same.copies]
      exact ⟨(orderly.2 c own).1, (orderly.2 c own).2.trans (next.settled?_eq own).symm⟩

end HoldCopies

end Frame

namespace Thread

variable {w₀ w w' : World} {q : Request} {t t' : Thread} {a b : World × Thread}

/-- The frames of a thread account for all that has been done to the items. -/
structure Accounts (w₀ : World) (q : Request) (w : World) (t : Thread) : Prop where
  isFor : t.IsFor q
  waiting : ∀ f ∈ t.callers, f.IsWaiting
  pins : Frame.HoldPins w₀ q.item w (t.frame :: t.callers)
  copies : Frame.HoldCopies w₀ q.item w (t.frame :: t.callers)

theorem accounts_start (n : LocalNode) (q : Request) (w : World) :
    Accounts w q w (.start .obtain n q) where
  isFor f hf := by
    rw [List.mem_singleton.1 hf]
    exact ⟨rfl, rfl, rfl, rfl⟩
  waiting f hf := by cases hf
  pins := Frame.HoldPins.start n q w
  copies := Frame.HoldCopies.start n q w

namespace Accounts

/-- **All is still accounted for** when the thread goes on. -/
theorem goes (h : Accounts w₀ q w t) (hknows : w₀.Knows q.item) (hgoes : Goes (w, t) (w', t')) :
    Accounts w₀ q w' t' := by
  have isFor := (goes_spec (q := q) hgoes).1 h.isFor
  obtain ⟨f, callers⟩ := t
  have hitem : f.request.item = q.item := (h.isFor f List.mem_cons_self).item
  have waiting : ∀ g ∈ callers, g.IsWaiting := h.waiting
  have pins : Frame.HoldPins w₀ q.item w (f :: callers) := h.pins
  have copies : Frame.HoldCopies w₀ q.item w (f :: callers) := h.copies
  have turn : Turn w ⟨f, callers⟩ w' t' := turn_of_running hgoes
  cases turn with
  | advances hstep =>
    exact ⟨isFor, waiting, pins.advance hitem hstep,
      copies.advance hknows hitem waiting hstep⟩
  | calls hstep =>
    refine ⟨isFor, List.forall_mem_cons.2 ⟨?_, waiting⟩, pins.call hstep, copies.call hstep⟩
    exact (Frame.keeps_of_call hstep).2.1
  | returns hstep hcallers =>
    dsimp only at hcallers
    subst hcallers
    exact ⟨isFor, (List.forall_mem_cons.1 waiting).2, pins.answer hstep _,
      copies.answer hstep _⟩

theorem leads (h : Accounts w₀ q a.1 a.2) (hknows : w₀.Knows q.item) (hleads : Leads a b) :
    Accounts w₀ q b.1 b.2 := by
  induction hleads with
  | refl => exact h
  | tail _ hgoes ih => exact ih.goes hknows hgoes

end Accounts

end Thread

end Wharf
