import Mathlib.Algebra.BigOperators.Group.Multiset.Basic
import Wharf.Proofs.Catalog.Numbering
import Wharf.Proofs.Consumables.Fit
import Wharf.Proofs.Worker.FreshTables
import Wharf.Proofs.Worker.Ledger

/-!
# How often a demand is admitted

The tables say how many instances of an implementation an idle resource runs at once. They find the
number by dividing, while live admission takes one demand away after the other. Both come to the
same.

* `attempts` makes calls in a row, `Counts` says of a number that it is how many of them are
  accepted before the others are refused (`Counts.answers_attempts`).
* `Slots.room` is that number for the slots of a worker in any state (`Slots.counts_room`), and
  `Worker.room` for a worker (`Worker.counts_room`). For an idle worker it is what the tables say
  (`Worker.room_create`).
* However reservations and releases take turns, no more of one demand is ever outstanding than fits
  an idle worker (`Ledger.Balanced.count_le_room`).
-/

namespace Wharf

section Attempts

variable {σ : Type}

/-- What so many calls in a row do: the answers, and the state in the end. A call that is refused
leaves the state as it was. -/
def attempts (take? : σ → Option σ) : Nat → σ → List Bool × σ
  | 0, s => ([], s)
  | calls + 1, s =>
    match take? s with
    | some t => (true :: (attempts take? calls t).1, (attempts take? calls t).2)
    | none => (false :: (attempts take? calls s).1, (attempts take? calls s).2)

/-- A number of calls that goes down with every call that is accepted, and is zero when one is
refused. -/
structure Counts (take? : σ → Option σ) (room : σ → Nat) : Prop where
  accepted : ∀ s t, take? s = some t → room s = room t + 1
  refused : ∀ s, take? s = none → room s = 0

/-- **As many calls in a row are accepted, and all others are refused.** -/
theorem Counts.answers_attempts {take? : σ → Option σ} {room : σ → Nat} (h : Counts take? room)
    (calls : Nat) (s : σ) :
    (attempts take? calls s).1 =
      List.replicate (min calls (room s)) true ++ List.replicate (calls - room s) false := by
  induction calls generalizing s with
  | zero => simp [attempts]
  | succ calls ih =>
    unfold attempts
    split
    · rename_i t ht
      have hroom := h.accepted s t ht
      rw [ih t, hroom, Nat.succ_min_succ, Nat.succ_sub_succ, List.replicate_succ, List.cons_append]
    · rename_i hs
      have hroom := h.refused s hs
      rw [ih s, hroom, Nat.min_zero, Nat.min_zero, Nat.sub_zero, Nat.sub_zero,
        List.replicate_succ]
      rfl

end Attempts

/-! ## Slots -/

namespace Slots

variable {s t : Slots} {demand : Consumables}

/-- How often a demand can still be taken: as often as slots are left, and as it fits what is free.
An empty demand fits any number of times. -/
def room (s : Slots) (demand : Consumables) : Nat :=
  match s.free.fitCount demand with
  | some fit => min (s.ceiling - s.used) fit
  | none => s.ceiling - s.used

theorem le_room_iff {copies : Nat} :
    copies ≤ s.room demand ↔ copies ≤ s.ceiling - s.used ∧ s.free.Holds demand copies := by
  rw [Consumables.holds_iff_le_fitCount, room]
  cases s.free.fitCount demand with
  | none => simp
  | some fit => simp

theorem room_of_reserve? (h : s.reserve? demand = some t) :
    s.room demand = t.room demand + 1 := by
  obtain ⟨hlt, hceiling, hused, hfree⟩ := reserve?_eq_some_iff.1 h
  have hsucc : ∀ copies, copies + 1 ≤ s.room demand ↔ copies ≤ t.room demand := by
    intro copies
    rw [le_room_iff, le_room_iff, hceiling, hused]
    refine and_congr (by omega) (forall_congr' fun id => ?_)
    rw [hfree id, Nat.succ_mul]
    omega
  have hle := (hsucc (t.room demand)).2 (Nat.le_refl _)
  have hge := (hsucc (s.room demand - 1)).1 (by omega)
  omega

theorem room_of_reserve?_eq_none (h : s.reserve? demand = none) : s.room demand = 0 := by
  by_contra hne
  obtain ⟨hslot, hholds⟩ := le_room_iff.1 (Nat.one_le_iff_ne_zero.2 hne)
  have hcovers := Consumables.holds_one_iff.1 hholds
  have hfree : s.hasFree = true := decide_eq_true (by omega)
  rw [reserve?, if_pos hfree, Consumables.remove?, if_pos hcovers] at h
  cases h

/-- **The room is what live admission grants.** -/
theorem counts_room (demand : Consumables) : Counts (·.reserve? demand) (room · demand) where
  accepted _ _ := room_of_reserve?
  refused _ := room_of_reserve?_eq_none

/-- What is left after calls in a row: each that was accepted took a slot and the demand, and the
others took nothing. -/
theorem attempts_reserve? (s : Slots) (demand : Consumables) (calls : Nat) :
    ((attempts (·.reserve? demand) calls s).2).ceiling = s.ceiling ∧
    ((attempts (·.reserve? demand) calls s).2).used = s.used + min calls (s.room demand) ∧
    ∀ id, (s.free.get id).count =
      (((attempts (·.reserve? demand) calls s).2).free.get id).count +
        min calls (s.room demand) * (demand.get id).count := by
  induction calls generalizing s with
  | zero => simp [attempts]
  | succ calls ih =>
    unfold attempts
    split
    · rename_i t ht
      obtain ⟨hceiling, hused, hfree⟩ := ih t
      obtain ⟨-, hceiling', hused', hfree'⟩ := reserve?_eq_some_iff.1 ht
      rw [room_of_reserve? ht, Nat.succ_min_succ]
      refine ⟨hceiling.trans hceiling', by dsimp only; omega, fun id => ?_⟩
      rw [hfree' id, hfree id, Nat.succ_mul, Nat.add_assoc]
    · rename_i hs
      have hroom := room_of_reserve?_eq_none hs
      have := ih s
      rw [hroom, Nat.min_zero] at this ⊢
      exact this

end Slots

/-! ## Workers -/

theorem Description.accepts_eq_false_of_kind_ne {offer wanted : Description}
    (h : wanted.kind ≠ offer.kind) : offer.accepts wanted = false := by
  cases offer <;> cases wanted
  · exact absurd rfl h
  · rfl
  · rfl
  · exact absurd rfl h

namespace Worker

variable {w : Worker} {demand : Description}

/-- How often a demand can still be taken from a worker. -/
def room (w : Worker) (demand : Description) : Nat :=
  if w.description.accepts demand then w.slots.room demand.consumables else 0

theorem counts_room (demand : Description) : Counts (·.reserve? demand) (room · demand) where
  accepted w v h := by
    obtain ⟨haccepts, slots, hslots, rfl⟩ := reserve?_eq_some_iff.1 h
    rw [room, room, if_pos haccepts, if_pos haccepts, Slots.room_of_reserve? hslots]
  refused w h := by
    unfold room reserve? at *
    split
    · rename_i haccepts
      rw [if_pos haccepts, Option.map_eq_none_iff] at h
      exact Slots.room_of_reserve?_eq_none h
    · rfl

variable (name : String) (offer : Description) (ceiling : Nat) (catalog : Catalog)

/-- **An idle worker has room for as many instances as the tables say.** -/
theorem room_create (i : Implementation) :
    (create name offer ceiling catalog).room i.requirements =
      (create name offer ceiling catalog).simultaneous i := by
  show (if offer.accepts i.requirements then
    (Slots.idle ceiling offer.consumables).room i.requirements.consumables else 0) =
      (simultaneous? offer ceiling i).getD 0
  simp only [simultaneous?, Slots.room, Slots.idle, Nat.sub_zero]
  by_cases haccepts : offer.accepts i.requirements = true
  · rw [if_pos haccepts, if_pos haccepts]
    cases offer.consumables.fitCount i.requirements.consumables with
    | none => rfl
    | some fit => exact Nat.min_comm ceiling fit
  · rw [if_neg haccepts, if_neg haccepts]
    rfl

theorem simultaneous_eq_zero {i : Implementation} (h : offer.accepts i.requirements = false) :
    (create name offer ceiling catalog).simultaneous i = 0 := by
  rw [← room_create, room, if_neg]
  rw [show (create name offer ceiling catalog).description = offer from rfl, h]
  exact Bool.false_ne_true

end Worker

/-- The entry of an implementation in tables that were built from its catalog. -/
theorem Tables.instances_build (offer : Description) (ceiling : Nat) {catalog : Catalog}
    (h : catalog.IsNumbered) {core index : Nat} {i : Implementation}
    (hi : catalog.implementation? core index = some i) :
    (build offer ceiling catalog).instances i.core i.index =
      (simultaneous? offer ceiling i).getD 0 := by
  obtain ⟨hcore, hindex⟩ := h.ids_eq hi
  have hplace : (catalog.implementationsOf core)[index]? = some i := hi
  simp only [instances_build_eq_getD, hcore, hindex, CoreEntry.evaluate, CoreEntry.instancesOf,
    List.getD_eq_getElem?_getD, List.getElem?_map, hplace, Option.map_some, Option.getD_some]

/-! ## Runs -/

namespace Ledger

variable {l : Ledger} {w : Worker}

/-- Every dimension owes what the outstanding demands of one kind take there. -/
theorem count_mul_le_owed (l : Ledger) (demand : Description) (id : Nat) :
    l.outstanding.count demand * (demand.consumables.get id).count ≤ l.owed id := by
  obtain ⟨rest, hrest⟩ := Multiset.le_iff_exists_add.1
    (Multiset.le_count_iff_replicate_le.1 (Nat.le_refl (l.outstanding.count demand)))
  calc l.outstanding.count demand * (demand.consumables.get id).count
      = ((Multiset.replicate (l.outstanding.count demand) demand).map fun d =>
          (d.consumables.get id).count).sum := by
        rw [Multiset.map_replicate, Multiset.sum_replicate, Nat.nsmul_eq_mul]
    _ ≤ ((Multiset.replicate (l.outstanding.count demand) demand).map fun d =>
          (d.consumables.get id).count).sum +
        (rest.map fun d => (d.consumables.get id).count).sum := Nat.le_add_right _ _
    _ = l.owed id := by rw [owed, ← Multiset.sum_add, ← Multiset.map_add, ← hrest]

/-- **No more of one demand is outstanding than the idle worker has room for.** -/
theorem Balanced.count_le_room (h : Balanced w l) (idle : w.slots.used = 0)
    (free : w.slots.free = w.description.consumables) (demand : Description) :
    l.outstanding.count demand ≤ w.room demand := by
  by_cases hmem : demand ∈ l.outstanding
  · rw [Worker.room, if_pos (h.accepted demand hmem), Slots.le_room_iff, idle, Nat.sub_zero, free]
    constructor
    · have hcard := Multiset.count_le_card demand l.outstanding
      rw [← h.used_eq] at hcard
      exact Nat.le_trans hcard h.used_le
    · intro id
      have howed := count_mul_le_owed l demand id
      have hsum := h.free_add_owed id
      omega
  · rw [Multiset.count_eq_zero.2 hmem]
    exact Nat.zero_le _

end Ledger

namespace Worker

/-- **The tables say what live admission grants.** In any state of the slots, calls in a row for one
demand are accepted as often as slots are left and the demand fits, and all later ones are refused
and take nothing. So an idle worker accepts an implementation as often in a row as its tables say,
and however calls follow each other, no more of it is ever outstanding. -/
theorem admits_simultaneous (name : String) (offer : Description) (ceiling : Nat)
    {catalog : Catalog} (h : catalog.Produced) (i : Implementation) :
    (∀ (s : Slots) (demand : Consumables) (calls : Nat),
      (attempts (·.reserve? demand) calls s).1 =
        List.replicate (min calls (s.room demand)) true ++
          List.replicate (calls - s.room demand) false ∧
      ((attempts (·.reserve? demand) calls s).2).ceiling = s.ceiling ∧
      ((attempts (·.reserve? demand) calls s).2).used = s.used + min calls (s.room demand) ∧
      ∀ id, (s.free.get id).count =
        (((attempts (·.reserve? demand) calls s).2).free.get id).count +
          min calls (s.room demand) * (demand.get id).count) ∧
    (∀ calls, (attempts (·.reserveImplementation? i) calls
        (create name offer ceiling catalog)).1 =
      List.replicate (min calls ((create name offer ceiling catalog).simultaneous i)) true ++
        List.replicate (calls - (create name offer ceiling catalog).simultaneous i) false) ∧
    (∀ core index, catalog.implementation? core index = some i →
      (Tables.build offer ceiling catalog).instances i.core i.index =
        (create name offer ceiling catalog).simultaneous i) ∧
    (i.requirements.kind ≠ offer.kind ∨ offer.accepts i.requirements = false →
      (create name offer ceiling catalog).simultaneous i = 0) ∧
    ∀ entries l, Ledger.Run (Ledger.opened (create name offer ceiling catalog)) entries l →
      l.outstanding.count i.requirements ≤
        (create name offer ceiling catalog).simultaneous i := by
  refine ⟨fun s demand calls => ⟨(Slots.counts_room demand).answers_attempts calls s,
    Slots.attempts_reserve? s demand calls⟩, fun calls => ?_, fun core index hi => ?_,
    fun hno => ?_, fun entries l hrun => ?_⟩
  · rw [← room_create]
    exact (counts_room i.requirements).answers_attempts calls _
  · exact Tables.instances_build offer ceiling h.isNumbered hi
  · refine simultaneous_eq_zero name offer ceiling catalog ?_
    exact hno.elim Description.accepts_eq_false_of_kind_ne id
  · rw [← room_create]
    have hbalanced := (Ledger.balanced_opened name offer ceiling catalog).run hrun
    exact hbalanced.count_le_room rfl rfl i.requirements

/-- Of seven and four, three and two fit twice, though there are three slots. A service fits a
compute resource never. -/
theorem admits_simultaneous_twice :
    let need (cpus mem : Nat) : Description :=
      .compute ⟨.ofAmounts [(0, .saturating cpus), (2, .saturating mem)], none, .none⟩
    let catalog := (Catalog.empty.register "sort" [("sort.one", need 3 2),
      ("sort.far", .service ⟨"sort", "prod", "80", .empty⟩)]).catalog
    let w := create "w" (need 7 4) 3 catalog
    ∃ near far l, catalog.Produced ∧ catalog.implementation? 0 0 = some near ∧
      catalog.implementation? 0 1 = some far ∧ far.requirements.kind ≠ (need 7 4).kind ∧
      (Tables.build (need 7 4) 3 catalog).instances near.core near.index = 2 ∧
      (attempts (·.reserveImplementation? near) 4 w).1 = [true, true, false, false] ∧
      w.simultaneous far = 0 ∧
      Ledger.Run (Ledger.opened w) [.reserveImplementation near, .releaseImplementation near,
        .reserveImplementation near, .reserveImplementation near,
        .reserveImplementation near] l ∧
      l.outstanding.count near.requirements ≤ 2 := by
  intro need catalog w
  have produced : catalog.Produced := .register .empty _ _
  let near : Implementation := ⟨0, 0, "sort.one", need 3 2⟩
  let far : Implementation := ⟨0, 1, "sort.far", .service ⟨"sort", "prod", "80", .empty⟩⟩
  have foundNear : catalog.implementation? 0 0 = some near := by decide
  have foundFar : catalog.implementation? 0 1 = some far := by decide
  have two : w.simultaneous near = 2 := by decide
  have kind : far.requirements.kind ≠ (need 7 4).kind := by decide
  have run : Ledger.Run (Ledger.opened w) [.reserveImplementation near,
      .releaseImplementation near, .reserveImplementation near, .reserveImplementation near,
      .reserveImplementation near] _ :=
    .enter trivial rfl (.enter (by decide) rfl (.enter trivial rfl (.enter trivial rfl
      (.enter trivial rfl (.done _)))))
  obtain ⟨-, answers, instances, -, outstanding⟩ :=
    admits_simultaneous "w" (need 7 4) 3 produced near
  obtain ⟨-, -, -, never, -⟩ := admits_simultaneous "w" (need 7 4) 3 produced far
  refine ⟨near, far, _, produced, foundNear, foundFar, kind, ?_, ?_, never (.inl kind), run, ?_⟩
  · rw [instances 0 0 foundNear, two]
  · rw [answers 4, two]
    rfl
  · exact Nat.le_trans (outstanding _ _ run) (Nat.le_of_eq two)

end Worker

end Wharf
