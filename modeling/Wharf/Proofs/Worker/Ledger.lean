import Mathlib.Algebra.BigOperators.Group.Multiset.Basic
import Wharf.Proofs.Worker.Slots

/-!
# Ledgers of reservations

A ledger keeps a worker together with the demands that were taken from it and have not been given
back. It is written up call by call, in any order, and reservations may be refused on the way.

* `Ledger.Run` is a run of calls in which only what is outstanding is given back.
* `Ledger.Balanced` is what holds all along: in every dimension that which is free and that which
  is outstanding make up the declared capacity, and there are as many slots in use as demands
  outstanding. Both kinds of calls keep the balance (`Balanced.taken`, `Balanced.release`).
* A balanced ledger is determined by what is outstanding (`Balanced.worker_eq`), so once everything
  has been given back, in whatever order, the worker is the one it was before the first call.
-/

namespace Wharf

/-- A worker with the demands that were taken and have not been given back. -/
structure Ledger where
  worker : Worker
  outstanding : Multiset Description

namespace Ledger

/-- The ledger of a worker from which nothing has been taken. -/
def opened (w : Worker) : Ledger := ⟨w, 0⟩

/-- What is outstanding in a dimension. -/
def owed (l : Ledger) (id : Nat) : Nat :=
  (l.outstanding.map fun demand => (demand.consumables.get id).count).sum

/-- A call on the worker. -/
inductive Entry
  | reserve (demand : Description)
  | release (demand : Description)
  | reserveImplementation (i : Implementation)
  | releaseImplementation (i : Implementation)

/-- The ledger after a reservation, which leaves it as it is when it was refused. -/
def taken (l : Ledger) (demand : Description) (after : Option Worker) : Ledger :=
  match after with
  | some w => ⟨w, demand ::ₘ l.outstanding⟩
  | none => l

/-- The ledger after a call; none when an addition got out of range. -/
def enter? (l : Ledger) : Entry → Option Ledger
  | .reserve demand => some (l.taken demand (l.worker.reserve? demand))
  | .release demand => (l.worker.release? demand).map fun w => ⟨w, l.outstanding.erase demand⟩
  | .reserveImplementation i =>
    some (l.taken i.requirements (l.worker.reserveImplementation? i))
  | .releaseImplementation i =>
    (l.worker.releaseImplementation? i).map fun w => ⟨w, l.outstanding.erase i.requirements⟩

/-- Whether a call gives back only what is outstanding. -/
def IsMatched (l : Ledger) : Entry → Prop
  | .reserve _ => True
  | .release demand => demand ∈ l.outstanding
  | .reserveImplementation _ => True
  | .releaseImplementation i => i.requirements ∈ l.outstanding

instance (l : Ledger) (entry : Entry) : Decidable (l.IsMatched entry) :=
  match entry with
  | .reserve _ => inferInstanceAs (Decidable True)
  | .release demand => inferInstanceAs (Decidable (demand ∈ l.outstanding))
  | .reserveImplementation _ => inferInstanceAs (Decidable True)
  | .releaseImplementation i => inferInstanceAs (Decidable (i.requirements ∈ l.outstanding))

/-- A run of calls, each of which gives back only what is outstanding then. -/
inductive Run : Ledger → List Entry → Ledger → Prop
  | done (l : Ledger) : Run l [] l
  | enter {l m n : Ledger} {entry : Entry} {rest : List Entry} (matched : l.IsMatched entry)
      (entered : l.enter? entry = some m) (run : Run m rest n) : Run l (entry :: rest) n

@[simp]
theorem owed_cons (w : Worker) (demand : Description) (outstanding : Multiset Description)
    (id : Nat) :
    (⟨w, demand ::ₘ outstanding⟩ : Ledger).owed id =
      (demand.consumables.get id).count + (⟨w, outstanding⟩ : Ledger).owed id := by
  simp only [owed, Multiset.map_cons, Multiset.sum_cons]

/-- What is given back is no longer outstanding. -/
theorem owed_erase (l : Ledger) (w : Worker) {demand : Description}
    (h : demand ∈ l.outstanding) (id : Nat) :
    (demand.consumables.get id).count + (⟨w, l.outstanding.erase demand⟩ : Ledger).owed id =
      l.owed id := by
  rw [← owed_cons, Multiset.cons_erase h]
  rfl

/-! ## The balance -/

/-- What holds of the ledger of a worker `w` that was idle when the ledger was opened. -/
structure Balanced (w : Worker) (l : Ledger) : Prop where
  /-- All but the slots of the worker stays as it was. -/
  frame : l.worker = { w with slots := l.worker.slots }
  ceiling_eq : l.worker.slots.ceiling = w.slots.ceiling
  free_add_owed : ∀ id, (l.worker.slots.free.get id).count + l.owed id =
    (w.description.consumables.get id).count
  used_eq : l.worker.slots.used = l.outstanding.card
  used_le : l.worker.slots.used ≤ w.slots.ceiling
  /-- Only what matches the worker was taken. -/
  accepted : ∀ demand ∈ l.outstanding, w.description.accepts demand = true

theorem balanced_opened (name : String) (description : Description) (ceiling : Nat)
    (catalog : Catalog) :
    Balanced (.create name description ceiling catalog)
      (opened (.create name description ceiling catalog)) where
  frame := rfl
  ceiling_eq := rfl
  free_add_owed _ := rfl
  used_eq := rfl
  used_le := Nat.zero_le _
  accepted _ h := absurd h (Multiset.notMem_zero _)

namespace Balanced

variable {w : Worker} {l m : Ledger}

theorem description_eq (h : Balanced w l) : l.worker.description = w.description := by
  rw [h.frame]

theorem withSlots_eq (h : Balanced w l) (slots : Slots) :
    ({ l.worker with slots := slots } : Worker) = { w with slots := slots } := by
  rw [h.frame]

/-- **A balanced ledger is determined by what is outstanding.** -/
theorem worker_eq (hl : Balanced w l) (hm : Balanced w m) (h : l.outstanding = m.outstanding) :
    l.worker = m.worker := by
  have hslots : l.worker.slots = m.worker.slots := by
    have hused : l.worker.slots.used = m.worker.slots.used := by rw [hl.used_eq, hm.used_eq, h]
    refine Slots.ext_get (hl.ceiling_eq.trans hm.ceiling_eq.symm) hused fun id => ?_
    have h₁ := hl.free_add_owed id
    have h₂ := hm.free_add_owed id
    rw [owed, h, ← owed] at h₁
    omega
  rw [hl.frame, hm.frame, hslots]

/-- A reservation keeps the balance, whether it is refused or not. -/
theorem taken (h : Balanced w l) (demand : Description) :
    Balanced w (l.taken demand (l.worker.reserve? demand)) := by
  cases hreserve : l.worker.reserve? demand with
  | none => exact h
  | some v =>
    obtain ⟨haccepts, slots, hslots, rfl⟩ := Worker.reserve?_eq_some_iff.1 hreserve
    obtain ⟨hlt, hceiling, hused, hfree⟩ := Slots.reserve?_eq_some_iff.1 hslots
    show Balanced w ⟨{ l.worker with slots := slots }, demand ::ₘ l.outstanding⟩
    exact
      { frame := h.withSlots_eq slots
        ceiling_eq := hceiling.trans h.ceiling_eq
        free_add_owed := fun id => by
          have := h.free_add_owed id
          have := hfree id
          rw [owed_cons]
          simp only [owed] at *
          omega
        used_eq := by rw [Multiset.card_cons, ← h.used_eq]; exact hused
        used_le := by rw [← h.ceiling_eq]; exact hused ▸ hlt
        accepted := fun other hother => by
          rcases Multiset.mem_cons.1 hother with rfl | hother
          · exact h.description_eq ▸ haccepts
          · exact h.accepted other hother }

/-- What is outstanding can be given back: the sums stay in range, the release matches, and the
balance is kept. -/
theorem release (h : Balanced w l) {demand : Description} (hd : demand ∈ l.outstanding) :
    ∃ slots, l.worker.slots.release demand.consumables w.description.consumables =
        some ⟨slots, true⟩ ∧
      l.worker.release? demand = some { l.worker with slots := slots } ∧
      Balanced w ⟨{ l.worker with slots := slots }, l.outstanding.erase demand⟩ := by
  -- In every dimension the sum is what is free once the rest is outstanding.
  have hsum : ∀ id, (l.worker.slots.free.get id).count + (demand.consumables.get id).count +
      (⟨l.worker, l.outstanding.erase demand⟩ : Ledger).owed id =
        (w.description.consumables.get id).count := by
    intro id
    rw [← h.free_add_owed id, ← owed_erase l l.worker hd id]
    omega
  have hcard : l.worker.slots.used = (l.outstanding.erase demand).card + 1 := by
    rw [h.used_eq, Multiset.card_erase_add_one hd]
  have hle : ∀ id, (l.worker.slots.free.get id).count + (demand.consumables.get id).count ≤
      (w.description.consumables.get id).count := fun id => Nat.le.intro (hsum id)
  obtain ⟨slots, hrelease, hceiling, hused, hfree⟩ := Slots.release_eq_of_le (by omega) hle
  refine ⟨slots, hrelease, ?_, ?_⟩
  · rw [Worker.release?, h.description_eq, hrelease, Option.map_some, ← h.description_eq]
  · exact
      { frame := h.withSlots_eq slots
        ceiling_eq := hceiling.trans h.ceiling_eq
        free_add_owed := fun id => by
          have := hsum id
          rw [← hfree id] at this
          exact this
        used_eq := Nat.add_right_cancel (hused.trans hcard)
        used_le := by
          have := h.used_le
          show slots.used ≤ _
          omega
        accepted := fun other hother => h.accepted other (Multiset.mem_of_mem_erase hother) }

/-- Whatever matches the description of a worker is of its kind. -/
theorem kind_eq (h : Balanced w l) {demand : Description} (hd : demand ∈ l.outstanding) :
    demand.kind = l.worker.description.kind := by
  have := h.accepted demand hd
  rw [h.description_eq]
  cases hw : w.description <;> cases demand <;> simp_all [Description.accepts, Description.kind]

/-- A call that gives back only what is outstanding is carried out, and keeps the balance. -/
theorem enter? (h : Balanced w l) {entry : Entry} (hm : l.IsMatched entry) :
    ∃ m, l.enter? entry = some m ∧ Balanced w m := by
  cases entry with
  | reserve demand => exact ⟨_, rfl, h.taken demand⟩
  | reserveImplementation i => exact ⟨_, rfl, h.taken i.requirements⟩
  | release demand =>
    obtain ⟨slots, -, hrelease, hb⟩ := h.release hm
    exact ⟨_, by rw [Ledger.enter?, hrelease, Option.map_some], hb⟩
  | releaseImplementation i =>
    obtain ⟨slots, -, hrelease, hb⟩ := h.release hm
    refine ⟨_, ?_, hb⟩
    rw [Ledger.enter?, Worker.releaseImplementation?, if_pos (h.kind_eq hm), hrelease,
      Option.map_some]

/-- **Runs keep the balance.** -/
theorem run {entries : List Entry} (hr : Run l entries m) (h : Balanced w l) : Balanced w m := by
  induction hr with
  | done l => exact h
  | enter matched entered run ih =>
    obtain ⟨_, he, hb⟩ := h.enter? matched
    rw [entered, Option.some.injEq] at he
    subst he
    exact ih hb

/-- Everything that is outstanding can be given back, in any order. -/
theorem run_release (h : Balanced w l) {order : List Description} (ho : ↑order = l.outstanding) :
    ∃ m, Run l (order.map .release) m ∧ m.outstanding = 0 := by
  induction order generalizing l with
  | nil => exact ⟨l, .done l, ho.symm⟩
  | cons demand rest ih =>
    have hd : demand ∈ l.outstanding := by
      rw [← ho]
      exact List.mem_cons_self
    obtain ⟨slots, -, hrelease, hb⟩ := h.release hd
    obtain ⟨m, hm, hz⟩ := ih hb (by rw [← ho, Multiset.coe_erase, List.erase_cons_head])
    exact ⟨m, .enter hd (by rw [Ledger.enter?, hrelease, Option.map_some]) hm, hz⟩

end Balanced

/-- **Capacity is conserved** over every run of calls in which only what is outstanding is given
back: nothing gets lost or comes up, each such call is carried out without leaving the range of
amounts, and the slots depend on nothing but what is outstanding. -/
theorem capacity_conserved (name : String) (description : Description) (ceiling : Nat)
    (catalog : Catalog) {entries : List Entry} {l : Ledger}
    (h : Run (opened (.create name description ceiling catalog)) entries l) :
    (∀ id, (l.worker.slots.free.get id).count + l.owed id =
      (description.consumables.get id).count) ∧
    l.worker.slots.used = l.outstanding.card ∧ l.worker.slots.used ≤ ceiling ∧
    (∀ demand ∈ l.outstanding, ∃ slots,
      l.worker.slots.release demand.consumables description.consumables = some ⟨slots, true⟩) ∧
    (∀ entry, l.IsMatched entry → ∃ m, l.enter? entry = some m) ∧
    (∀ demand slots, l.worker.slots.reserve? demand = some slots →
      l.worker.slots.free.subtract? demand = some slots.free) ∧
    (∀ others m, Run (opened (.create name description ceiling catalog)) others m →
      m.outstanding = l.outstanding → m.worker.slots = l.worker.slots) ∧
    ∀ order : List Description, ↑order = l.outstanding →
      Run l (order.map .release) (opened (.create name description ceiling catalog)) := by
  have h₀ := balanced_opened name description ceiling catalog
  have hl := h₀.run h
  refine ⟨hl.free_add_owed, hl.used_eq, hl.used_le, fun demand hd => ?_, fun entry hm => ?_,
    fun demand slots hslots => ?_, fun others m hm ho => ?_, fun order ho => ?_⟩
  · obtain ⟨slots, hrelease, -⟩ := hl.release hd
    exact ⟨slots, hrelease⟩
  · obtain ⟨m, hm, -⟩ := hl.enter? hm
    exact ⟨m, hm⟩
  · have hfree := (Slots.reserve?_eq_some_iff.1 hslots).2.2.2
    exact Consumables.subtract?_eq_some_iff.2 hfree
  · rw [(h₀.run hm).worker_eq hl ho]
  · obtain ⟨m, hm, hz⟩ := hl.run_release ho
    have hw := (hl.run hm).worker_eq h₀ hz
    obtain ⟨worker, outstanding⟩ := m
    subst hw hz
    exact hm

/-- Of an amount of four, three and one are taken, which fills both slots, and the three are given
back. -/
theorem capacity_conserved_three_and_one :
    let demand (count : Nat) : Description :=
      .compute ⟨.ofAmounts [(0, .saturating count)], none, .none⟩
    let start := opened (.create "w" (demand 4) 2 .empty)
    ∃ l, Run start [.reserve (demand 3), .reserve (demand 1), .reserve (demand 1),
        .release (demand 3)] l ∧
      l.outstanding = {demand 1} ∧ l.worker.slots.used = 1 ∧
      Run l [.release (demand 1)] start := by
  intro demand start
  have run : Run start [.reserve (demand 3), .reserve (demand 1), .reserve (demand 1),
      .release (demand 3)] _ :=
    .enter trivial rfl (.enter trivial rfl (.enter trivial rfl (.enter (by decide) rfl (.done _))))
  obtain ⟨-, hused, -, -, -, -, -, hback⟩ := capacity_conserved "w" (demand 4) 2 .empty run
  exact ⟨_, run, rfl, hused, hback [demand 1] rfl⟩

end Ledger

end Wharf
