import Wharf.Proofs.Worker.Admission
import Wharf.Proofs.Worker.Representation

/-!
# What is said to be runnable

Callers ask what could start now, and then reserve it. The queries go through the tables, which were
made for an idle worker, while a reservation looks at the slots alone.

* `Worker.Reached` are the workers that calls of any kind lead to, whatever is given back and
  whichever catalogs they are told of. No more is ever free than what the worker offers
  (`Worker.Reached.free_le`).
* So nothing that could start now is left out of tables that are up to date
  (`Worker.simultaneous_pos`), and whatever is listed, from tables however old, would be accepted.
  `Worker.runnable_agrees` says this of all queries.
-/

namespace Wharf

namespace Worker

variable {v w : Worker} {demand : Description}

/-- The workers that calls lead to. A reservation that is refused changes nothing; a release that
gets out of range leads nowhere. -/
inductive Reached : Worker → Prop
  | create (name : String) (offer : Description) (ceiling : Nat) {catalog : Catalog}
      (produced : catalog.Produced) : Reached (.create name offer ceiling catalog)
  | notice {w : Worker} (h : Reached w) (n : Notice) (produced : n.catalog.Produced) :
      Reached (w.notice n)
  | reserve {v w : Worker} (h : Reached w) {demand : Description}
      (reserved : w.reserve? demand = some v) : Reached v
  | release {v w : Worker} (h : Reached w) {demand : Description}
      (released : w.release? demand = some v) : Reached v

/-- To give back what an implementation needs is a release, or no call at all. -/
theorem Reached.releaseImplementation (h : Reached w) {i : Implementation}
    (hv : w.releaseImplementation? i = some v) : Reached v := by
  unfold releaseImplementation? at hv
  split at hv
  · exact h.release hv
  · cases hv
    exact h

/-- **No more is free than what is offered**, in any dimension. -/
theorem Reached.free_le (h : Reached w) (id : Nat) :
    w.slots.free.get id ≤ w.description.consumables.get id := by
  induction h with
  | create => exact Nat.le_refl _
  | notice _ n _ ih => cases n <;> exact ih
  | reserve _ reserved ih =>
    obtain ⟨-, slots, hslots, rfl⟩ := reserve?_eq_some_iff.1 reserved
    have hfree := (Slots.reserve?_eq_some_iff.1 hslots).2.2.2 id
    rw [Amount.le_def] at ih ⊢
    dsimp only
    omega
  | release _ released _ =>
    obtain ⟨_, hrelease, rfl⟩ := Option.map_eq_some_iff.1 released
    exact Slots.free_release_le hrelease id

theorem Reached.indexed (h : Reached w) : w.tables.IsIndexed := by
  induction h with
  | create _ _ _ produced => exact Tables.isIndexed_build produced.isNumbered.dense
  | notice _ n produced ih =>
    cases n with
    | update catalog changed => exact ih.rebuild produced.isNumbered.dense changed
    | updateAll catalog => exact Tables.isIndexed_build produced.isNumbered.dense
  | reserve _ reserved ih =>
    obtain ⟨-, _, -, rfl⟩ := reserve?_eq_some_iff.1 reserved
    exact ih
  | release _ released ih =>
    obtain ⟨_, -, rfl⟩ := Option.map_eq_some_iff.1 released
    exact ih

/-- A demand can start now just when it would be reserved. -/
theorem canRunNow_eq_isSome (w : Worker) (demand : Description) :
    w.canRunNow demand = (w.reserve? demand).isSome := by
  cases haccepts : w.description.accepts demand <;> cases hslot : w.slots.hasFree <;>
    cases hcovers : w.slots.free.covers demand.consumables <;>
      simp [canRunNow, reserve?, Slots.canTake, Slots.reserve?, Consumables.remove?, haccepts,
        hslot, hcovers]

/-- What can start now fits an idle worker at least once, as long as no more is free than what is
offered. -/
theorem simultaneous_pos (hfree : ∀ id, w.slots.free.get id ≤ w.description.consumables.get id)
    {i : Implementation} (hi : w.canRunNow i.requirements = true) : 0 < w.simultaneous i := by
  simp only [canRunNow, Slots.canTake, Slots.hasFree, Bool.and_eq_true, decide_eq_true_eq] at hi
  obtain ⟨haccepts, hslot, hcovers⟩ := hi
  have hholds : w.description.consumables.Holds i.requirements.consumables 1 := by
    rw [Consumables.holds_one_iff, Consumables.covers_iff]
    intro id
    exact Nat.le_trans (Consumables.covers_iff.1 hcovers id) (hfree id)
  have hroom : 1 ≤ (Slots.idle w.slots.ceiling w.description.consumables).room
      i.requirements.consumables := by
    refine Slots.le_room_iff.2 ⟨?_, hholds⟩
    simp only [Slots.idle]
    omega
  -- The number in the tables is the room of the worker when it is idle.
  let idle := create w.name w.description w.slots.ceiling .empty
  calc 0 < (Slots.idle w.slots.ceiling w.description.consumables).room
        i.requirements.consumables := hroom
    _ = idle.room i.requirements := (if_pos haccepts).symm
    _ = idle.simultaneous i := room_create w.name w.description w.slots.ceiling .empty i

/-- Nothing is runnable of a core without executable implementations. -/
theorem runnableNow_eq_nil {core : Nat} (h : w.tables.executableOf core = []) :
    w.runnableNow core = [] := by
  rw [runnableNow, h]
  rfl

/-- **Runnable is what would be reserved.** A demand can start now just when it is reserved, and so
is every implementation that a query lists, whatever the tables say. Where the tables of a core are
those of a fresh evaluation, nothing is missing from the list. The queries for all cores answer core
by core. -/
theorem runnable_agrees (h : Reached w) :
    (∀ demand, w.canRunNow demand = (w.reserve? demand).isSome) ∧
    (∀ candidates, w.filterRunnable candidates =
      candidates.filter fun i => (w.reserveImplementation? i).isSome) ∧
    (∀ core, ∀ i ∈ w.runnableNow core, (w.reserveImplementation? i).isSome) ∧
    (w.runnableImplementations = (List.range w.tables.entries.length).map w.runnableNow) ∧
    (w.runnableCores = (List.range w.tables.entries.length).filter
      fun core => !(w.runnableNow core).isEmpty) ∧
    ∀ d core, w.tables.entries[core]? =
        (Tables.build w.description w.slots.ceiling d).entries[core]? →
      w.runnableNow core =
        (d.implementationsOf core).filter fun i => (w.reserveImplementation? i).isSome := by
  have hfilter : ∀ candidates, w.filterRunnable candidates =
      candidates.filter fun i => (w.reserveImplementation? i).isSome := by
    intro candidates
    exact List.filter_congr fun i _ => w.canRunNow_eq_isSome i.requirements
  refine ⟨w.canRunNow_eq_isSome, hfilter, fun core i hi => ?_, ?_, ?_, fun d core hfresh => ?_⟩
  · rw [runnableNow, hfilter] at hi
    simpa using (List.mem_filter.1 hi).2
  · refine List.ext_getElem? fun core => ?_
    rw [runnableImplementations, List.getElem?_map, List.getElem?_map]
    by_cases hlt : core < w.tables.entries.length
    · simp [runnableNow, Tables.executableOf, hlt]
    · simp [hlt]
  · have hcores : w.tables.executableCores = _ := h.indexed
    rw [runnableCores, hcores, List.filter_filter]
    refine List.filter_congr fun core _ => ?_
    cases hexecutable : w.tables.executableOf core with
    | nil => simp [runnableNow_eq_nil hexecutable]
    | cons => simp
  · have hexecutable : w.tables.executableOf core =
        (d.implementationsOf core).filter fun i => 0 < w.simultaneous i := by
      rw [Tables.executableOf, hfresh]
      exact Tables.executableOf_build w.description w.slots.ceiling d core
    rw [runnableNow, hexecutable, hfilter, List.filter_filter]
    refine List.filter_congr fun i _ => ?_
    cases hreserve : (w.reserveImplementation? i).isSome with
    | false => rfl
    | true =>
      have hnow : w.canRunNow i.requirements = true := (w.canRunNow_eq_isSome _).trans hreserve
      simp [simultaneous_pos h.free_le hnow]

/-- Two that were never taken are given back and cut off, three of four are taken, and the worker is
told of an older catalog. What needs one is still listed and would be reserved. -/
theorem runnable_agrees_cut_release :
    let need (count : Nat) : Description :=
      .compute ⟨.ofAmounts [(0, .saturating count)], none, .none⟩
    let older := (Catalog.empty.register "sort" [("sort.three", need 3)]).catalog
    let newer := (older.register "sort" [("sort.one", need 1),
      ("sort.far", .service ⟨"sort", "prod", "80", .empty⟩)]).catalog
    ∃ w, Reached w ∧ w.slots.used = 1 ∧ (w.slots.free.get 0).count = 1 ∧
      w.tables.version = older.version ∧ w.canRunNow (need 1) = true ∧
      w.tables.entries[0]? = (Tables.build w.description w.slots.ceiling newer).entries[0]? ∧
      (w.runnableNow 0).map Implementation.index = [1] ∧
      (∀ i ∈ w.runnableNow 0, (w.reserveImplementation? i).isSome) ∧ w.runnableCores = [0] ∧
      w.runnableNow 0 =
        (newer.implementationsOf 0).filter fun i => (w.reserveImplementation? i).isSome := by
  intro need older newer
  have produced : older.Produced := .register .empty _ _
  have fresh : Reached (.create "w" (need 4) 2 newer) := .create _ _ _ (produced.register _ _)
  obtain ⟨v, released⟩ : ∃ v, (create "w" (need 4) 2 newer).release? (need 2) = some v := ⟨_, rfl⟩
  obtain ⟨busy, reserved⟩ : ∃ busy, v.reserve? (need 3) = some busy := by
    cases released
    exact ⟨_, rfl⟩
  have reached : Reached (busy.notice (.update older [])) :=
    ((fresh.release released).reserve reserved).notice _ produced
  obtain ⟨now, -, listed, -, -, complete⟩ := runnable_agrees reached
  cases released
  cases reserved
  refine ⟨_, reached, by decide, by decide, by decide, ?_, by decide, by decide, listed 0,
    by decide, complete newer 0 (by decide)⟩
  rw [now]
  decide

end Worker

end Wharf
