import Mathlib.Data.List.Dedup
import Mathlib.Data.List.Perm.Basic
import Wharf.Proofs.Transfer.Facts

/-!
# Pins and removals that are put off

Whoever works on an item holds a guard, which pins the item as long as it lives. Locations come and
hosts are forgotten meanwhile.

* `Item.Action` is what is done with an item, and `Item.after` the item after some of it. A past is
  a list of actions, the latest first. `Item.IsLawful` says that guards are dropped once.
* `Item.live` lists the guards that live, and `Item.IsDue` says that a host was to be forgotten at a
  moment from which on there has always been one.
* **Pins protect locations** (`Item.locations_guarded`). As long as a guard lives the locations
  stay, and with the last one those hosts are forgotten that are due, in whatever order.
-/

namespace Wharf

/-! ## Removals in any order -/

section Fold

variable {α β : Type} [DecidableEq α] {f : β → α → β} [RightCommutative f]

omit [DecidableEq α] in
theorem foldl_eq_of_mem (hf : ∀ b a, f (f b a) a = f b a) {a : α} {xs : List α} (ha : a ∈ xs)
    (b : β) : xs.foldl f (f b a) = xs.foldl f b := by
  induction xs generalizing b with
  | nil => cases ha
  | cons x rest ih =>
    rw [List.foldl_cons, List.foldl_cons]
    rcases List.mem_cons.1 ha with rfl | ha
    · rw [hf]
    · have swap : f (f b a) x = f (f b x) a := RightCommutative.right_comm b a x
      rw [swap, ih ha]

theorem foldl_dedup (hf : ∀ b a, f (f b a) a = f b a) (xs : List α) (b : β) :
    xs.dedup.foldl f b = xs.foldl f b := by
  induction xs generalizing b with
  | nil => rfl
  | cons x rest ih =>
    by_cases hx : x ∈ rest
    · rw [List.dedup_cons_of_mem hx, ih, List.foldl_cons, foldl_eq_of_mem hf hx]
    · rw [List.dedup_cons_of_notMem hx, List.foldl_cons, List.foldl_cons, ih]

/-- Where neither order nor repetition matters, the members of a list say it all. -/
theorem foldl_eq_of_mem_iff (hf : ∀ b a, f (f b a) a = f b a) {xs ys : List α}
    (h : ∀ a, a ∈ xs ↔ a ∈ ys) (b : β) : xs.foldl f b = ys.foldl f b := by
  rw [← foldl_dedup hf xs, ← foldl_dedup hf ys]
  refine List.Perm.foldl_eq ?_ b
  apply (List.perm_ext_iff_of_nodup xs.nodup_dedup ys.nodup_dedup).2
  intro a
  rw [List.mem_dedup, List.mem_dedup, h]

end Fold

namespace Location

theorem without_file (replicas : List Replica) (node : NodeId) :
    (file replicas).without node =
      if replicas.filter (fun r => r.host != node) = [] then none
      else some (file (replicas.filter fun r => r.host != node)) := by
  rw [without]
  split
  · rename_i hnone
    rw [if_pos hnone]
  · rename_i r rest hsome
    rw [hsome, if_neg (List.cons_ne_nil r rest)]

/-- Forgetting two hosts leaves the replicas on the others. -/
theorem bind_without_file (replicas : List Replica) (a b : NodeId) :
    ((file replicas).without a).bind (fun l => l.without b) =
      if replicas.filter (fun r => r.host != a && r.host != b) = [] then none
      else some (file (replicas.filter fun r => r.host != a && r.host != b)) := by
  have both : (replicas.filter fun r => r.host != a).filter (fun r => r.host != b) =
      replicas.filter fun r => r.host != a && r.host != b := by
    rw [List.filter_filter]
    simp only [Bool.and_comm]
  rw [without_file]
  split
  · rename_i hnone
    rw [if_pos (by rw [← both, hnone, List.filter_nil]), Option.bind_none]
  · rw [Option.bind_some, without_file, both]

theorem bind_without_comm (l : Location) (a b : NodeId) :
    (l.without a).bind (fun l => l.without b) = (l.without b).bind fun l => l.without a := by
  cases l with
  | memory host name =>
    have keeps (node : NodeId) : (memory host name).without node =
        if host = node then none else some (memory host name) := rfl
    rw [keeps, keeps]
    split <;> split <;> simp_all
  | persistent key => rfl
  | file replicas =>
    rw [bind_without_file, bind_without_file]
    simp only [Bool.and_comm]

theorem bind_without_self (l : Location) (a : NodeId) :
    (l.without a).bind (fun l => l.without a) = l.without a := by
  cases l with
  | memory host name => by_cases ha : host = a <;> simp [without, ha]
  | persistent key => rfl
  | file replicas =>
    rw [bind_without_file, without_file]
    simp only [Bool.and_self]

end Location

namespace Item

variable {d : Item}

instance : RightCommutative dropHost where
  right_comm d a b := by
    simp only [dropHost, List.filterMap_filterMap, Location.bind_without_comm]

theorem dropHost_dropHost (d : Item) (host : NodeId) :
    (d.dropHost host).dropHost host = d.dropHost host := by
  simp only [dropHost, List.filterMap_filterMap, Location.bind_without_self]

theorem pins_foldl_dropHost (hosts : List NodeId) : (hosts.foldl dropHost d).pins = d.pins := by
  induction hosts generalizing d with
  | nil => rfl
  | cons host rest ih =>
    rw [List.foldl_cons, ih]
    rfl

/-- Without a pin hosts are forgotten at once. -/
theorem foldl_removeHost (h : d.pins = 0) (hosts : List NodeId) :
    hosts.foldl (fun d host => (d.removeHost host).1) d = hosts.foldl dropHost d := by
  induction hosts generalizing d with
  | nil => rfl
  | cons host rest ih =>
    have first : (d.removeHost host).1 = d.dropHost host := by simp [removeHost, h]
    rw [List.foldl_cons, List.foldl_cons, first]
    exact ih h

theorem mem_postponed_removeHost (h : 0 < d.pins) (host host' : NodeId) :
    host' ∈ (d.removeHost host).1.postponed ↔ host' = host ∨ host' ∈ d.postponed := by
  rw [removeHost, if_pos h]
  exact mem_append_missing.trans or_comm

theorem pins_unpin (d : Item) : d.unpin.pins = d.pins - 1 := by
  unfold unpin
  split
  · rename_i hpins
    rw [pins_foldl_dropHost, hpins]
  · rfl

theorem pins_removeHost (d : Item) (host : NodeId) : (d.removeHost host).1.pins = d.pins := by
  unfold removeHost
  split <;> rfl

/-! ## What is done with an item -/

/-- The number of a guard. -/
abbrev GuardId := Nat

/-- What is done with an item. -/
inductive Action
  /-- A guard comes to life. -/
  | pin (guard : GuardId)
  /-- A guard is dropped. -/
  | drop (guard : GuardId)
  | addLocation (l : Location)
  | removeHost (host : NodeId)
  deriving DecidableEq

/-- Does something with an item. -/
def perform (d : Item) : Action → Item
  | .pin _ => d.pin
  | .drop _ => d.unpin
  | .addLocation l => d.addLocation l
  | .removeHost host => (d.removeHost host).1

/-- The item after all that was done with it, the latest first. -/
def after (d : Item) : List Action → Item
  | [] => d
  | a :: past => (d.after past).perform a

/-- The guards that live. -/
def live : List Action → List GuardId
  | [] => []
  | .pin guard :: past => guard :: live past
  | .drop guard :: past => (live past).erase guard
  | .addLocation _ :: past => live past
  | .removeHost _ :: past => live past

/-- A guard comes to life once, and only a guard that lives is dropped. -/
def IsLawful : List Action → Prop
  | [] => True
  | .pin guard :: past => guard ∉ live past ∧ IsLawful past
  | .drop guard :: past => guard ∈ live past ∧ IsLawful past
  | .addLocation _ :: past => IsLawful past
  | .removeHost _ :: past => IsLawful past

/-- After a past a guard lives, and at every moment since. -/
def IsGuarded (past recent : List Action) : Prop :=
  ∀ part, part <:+ recent → live (part ++ past) ≠ []

/-- A host was to be forgotten when a guard lived, and there has always been one since. -/
def IsDue (past : List Action) (host : NodeId) : Prop :=
  ∃ recent earlier, past = recent ++ .removeHost host :: earlier ∧
    IsGuarded (.removeHost host :: earlier) recent

section Past

variable {a : Action} {past recent : List Action}

theorem IsLawful.tail (h : IsLawful (a :: past)) : IsLawful past := by
  cases a with
  | pin guard => exact h.2
  | drop guard => exact h.2
  | addLocation l => exact h
  | removeHost host => exact h

theorem isGuarded_cons :
    IsGuarded past (a :: recent) ↔ live (a :: recent ++ past) ≠ [] ∧ IsGuarded past recent := by
  constructor
  · intro h
    exact ⟨h _ List.suffix_rfl, fun part hpart => h part (hpart.trans (List.suffix_cons a recent))⟩
  · rintro ⟨hlive, h⟩ part hpart
    rcases List.suffix_cons_iff.1 hpart with rfl | hpart
    · exact hlive
    · exact h part hpart

theorem isGuarded_nil : IsGuarded past [] ↔ live past ≠ [] := by
  constructor
  · intro h
    exact h [] List.suffix_rfl
  · intro h part hpart
    rw [List.suffix_nil.1 hpart]
    exact h

theorem not_isDue_nil (host : NodeId) : ¬ IsDue [] host := by
  rintro ⟨recent, earlier, hpast, -⟩
  simp at hpast

/-- A host is due since now or from before, and in any case only while a guard lives. -/
theorem isDue_cons (host : NodeId) :
    IsDue (a :: past) host ↔
      live (a :: past) ≠ [] ∧ (a = .removeHost host ∨ IsDue past host) := by
  constructor
  · rintro ⟨recent, earlier, hpast, hguarded⟩
    cases recent with
    | nil =>
      obtain ⟨rfl, rfl⟩ := List.cons.inj hpast
      exact ⟨isGuarded_nil.1 hguarded, .inl rfl⟩
    | cons b recent =>
      obtain ⟨rfl, rfl⟩ := List.cons.inj hpast
      obtain ⟨hlive, hguarded⟩ := isGuarded_cons.1 hguarded
      exact ⟨hlive, .inr ⟨recent, earlier, rfl, hguarded⟩⟩
  · rintro ⟨hlive, rfl | ⟨recent, earlier, rfl, hguarded⟩⟩
    · exact ⟨[], past, rfl, isGuarded_nil.2 hlive⟩
    · exact ⟨a :: recent, earlier, rfl, isGuarded_cons.2 ⟨hlive, hguarded⟩⟩

theorem IsDue.live_ne_nil {host : NodeId} (h : IsDue past host) : live past ≠ [] := by
  cases past with
  | nil => exact absurd h (not_isDue_nil host)
  | cons a past => exact ((isDue_cons host).1 h).1

end Past

/-! ## Guards, pins and what is put off -/

/-- An item counts the guards that live, and puts off what is due. -/
structure Tracks (d : Item) (past : List Action) : Prop where
  pins_eq : d.pins = (live past).length
  mem_postponed : ∀ host, host ∈ d.postponed ↔ IsDue past host

namespace Tracks

variable {past : List Action}

theorem pins_pos_iff (h : d.Tracks past) : 0 < d.pins ↔ live past ≠ [] := by
  rw [h.pins_eq, List.length_pos_iff]

theorem postponed_eq_nil (h : d.Tracks past) (hlive : live past = []) : d.postponed = [] := by
  refine List.eq_nil_iff_forall_not_mem.2 fun host hhost => ?_
  exact ((h.mem_postponed host).1 hhost).live_ne_nil hlive

/-- Without a removal, and with guards left, the same hosts are due as before. -/
theorem mem_postponed_of_ne {a : Action} (h : d.Tracks past) (ha : ∀ host, a ≠ .removeHost host)
    (hkeeps : live (a :: past) = [] → live past = []) (host : NodeId) :
    host ∈ d.postponed ↔ IsDue (a :: past) host := by
  rw [h.mem_postponed, isDue_cons, or_iff_right (ha host)]
  constructor
  · intro hdue
    exact ⟨fun hnone => hdue.live_ne_nil (hkeeps hnone), hdue⟩
  · rintro ⟨-, hdue⟩
    exact hdue

/-- Whatever is done, guards are counted and removals are put off as they should be. -/
theorem perform {a : Action} (h : d.Tracks past) (hlawful : IsLawful (a :: past)) :
    (d.perform a).Tracks (a :: past) := by
  cases a with
  | pin guard =>
    refine ⟨?_, h.mem_postponed_of_ne nofun nofun⟩
    show d.pins + 1 = (guard :: live past).length
    rw [h.pins_eq, List.length_cons]
  | drop guard =>
    have hlength : (live (.drop guard :: past)).length = d.pins - 1 := by
      rw [live, List.length_erase_of_mem hlawful.1, h.pins_eq]
    refine ⟨(pins_unpin d).trans hlength.symm, ?_⟩
    show ∀ host, host ∈ d.unpin.postponed ↔ _
    unfold unpin
    split
    · -- With the last guard nothing remains to be done later.
      rename_i hpins
      have hnone : live (.drop guard :: past) = [] := List.length_eq_zero_iff.1 (by omega)
      intro host
      rw [postponed_foldl_dropHost, isDue_cons]
      simp [hnone]
    · rename_i hpins
      refine h.mem_postponed_of_ne nofun fun hnone => List.length_eq_zero_iff.1 ?_
      have := List.length_eq_zero_iff.2 hnone
      have := h.pins_eq
      omega
  | addLocation l =>
    refine ⟨(pins_addLocation l).trans h.pins_eq, ?_⟩
    show ∀ host, host ∈ (d.addLocation l).postponed ↔ _
    rw [postponed_addLocation]
    exact h.mem_postponed_of_ne nofun id
  | removeHost host =>
    refine ⟨(pins_removeHost d host).trans h.pins_eq, fun host' => ?_⟩
    show host' ∈ (d.removeHost host).1.postponed ↔ _
    rw [isDue_cons]
    by_cases hlive : live past = []
    · have hpins : d.pins = 0 := by rw [h.pins_eq, hlive, List.length_nil]
      have hnone : live (.removeHost host :: past) = [] := hlive
      have hpostponed : (d.removeHost host).1.postponed = d.postponed := by
        simp [removeHost, hpins, dropHost]
      rw [hpostponed, h.postponed_eq_nil hlive]
      simp [hnone]
    · have hlive' : live (.removeHost host :: past) ≠ [] := hlive
      rw [mem_postponed_removeHost (h.pins_pos_iff.2 hlive), h.mem_postponed]
      simp [hlive', eq_comm]

theorem after {past : List Action} (hpins : d.pins = 0) (hpostponed : d.postponed = [])
    (hlawful : IsLawful past) : (d.after past).Tracks past := by
  induction past with
  | nil =>
    refine ⟨hpins, fun host => ?_⟩
    show host ∈ d.postponed ↔ _
    simp [hpostponed, not_isDue_nil]
  | cons a past ih => exact (ih hlawful.tail).perform hlawful

end Tracks

/-! ## Locations under guard -/

/-- What is done while a guard lives only adds locations. -/
theorem locations_prefix_perform {a : Action} (h : 0 < d.pins) (h' : 0 < (d.perform a).pins) :
    d.locations <+: (d.perform a).locations := by
  cases a with
  | pin guard => exact List.prefix_rfl
  | drop guard =>
    have hpins : d.pins ≠ 1 := by
      intro hone
      have hzero : d.unpin.pins = 0 := by rw [pins_unpin, hone]
      exact absurd hzero (Nat.ne_of_gt h')
    simp [perform, unpin, hpins]
  | addLocation l =>
    show d.locations <+: (d.addLocation l).locations
    unfold addLocation
    split
    · exact List.prefix_rfl
    · exact List.prefix_append d.locations [l]
  | removeHost host => simp [perform, removeHost, h]

variable {past : List Action}

theorem locations_prefix_after (hpins : d.pins = 0) (hpostponed : d.postponed = [])
    {recent : List Action} (hlawful : IsLawful (recent ++ past))
    (hguarded : IsGuarded past recent) :
    (d.after past).locations <+: (d.after (recent ++ past)).locations := by
  induction recent with
  | nil => exact List.prefix_rfl
  | cons a recent ih =>
    obtain ⟨hlive, hbefore⟩ := isGuarded_cons.1 hguarded
    have tracks := Tracks.after hpins hpostponed hlawful
    have tracks' := Tracks.after hpins hpostponed hlawful.tail
    refine (ih hlawful.tail hbefore).trans ?_
    exact locations_prefix_perform (tracks'.pins_pos_iff.2 (hbefore _ List.suffix_rfl))
      (tracks.pins_pos_iff.2 hlive)

/-- With the last pin those hosts are forgotten whose removal was put off, in whatever order. -/
theorem unpin_eq_foldl_removeHost (h : d.pins = 1) {hosts : List NodeId}
    (hhosts : ∀ host, host ∈ hosts ↔ host ∈ d.postponed) :
    d.unpin =
      hosts.foldl (fun d host => (d.removeHost host).1) { d with pins := 0, postponed := [] } := by
  rw [unpin, if_pos h, foldl_removeHost rfl]
  exact (foldl_eq_of_mem_iff dropHost_dropHost hhosts _).symm

/-- **Pins protect locations, and removals are only put off.** Take any past of an item that starts
without pins. It counts the guards that live. Removals are waiting only while a guard lives, and a
host is forgotten at once exactly when none does. While there is always a guard the locations stay
as they are and where they are, and others only come behind them. When the last guard is dropped,
the item is the one that forgetting all hosts that are due makes of it, in whatever order, and
nothing is waiting any more. -/
theorem locations_guarded (hpins : d.pins = 0) (hpostponed : d.postponed = [])
    (hlawful : IsLawful past) :
    (d.after past).pins = (live past).length ∧
      ((d.after past).postponed ≠ [] → live past ≠ []) ∧
      (∀ host, ((d.after past).removeHost host).2 = true ↔ live past = []) ∧
      (∀ recent, IsLawful (recent ++ past) → IsGuarded past recent →
        (d.after past).locations <+: (d.after (recent ++ past)).locations) ∧
      ∀ guard, live past = [guard] → ∀ hosts : List NodeId,
        (∀ host, host ∈ hosts ↔ IsDue past host) →
        d.after (.drop guard :: past) =
            hosts.foldl (fun d host => (d.removeHost host).1)
              { d.after past with pins := 0, postponed := [] } ∧
          (d.after (.drop guard :: past)).postponed = [] := by
  have tracks := Tracks.after hpins hpostponed hlawful
  refine ⟨tracks.pins_eq, fun hwaiting hnone => hwaiting (tracks.postponed_eq_nil hnone),
    fun host => ?_, fun recent => locations_prefix_after hpins hpostponed,
    fun guard hlast hosts hhosts => ⟨?_, ?_⟩⟩
  · rw [← not_iff_not, ← ne_eq (live past), ← tracks.pins_pos_iff]
    unfold removeHost
    split <;> simp_all
  · apply unpin_eq_foldl_removeHost
    · rw [tracks.pins_eq, hlast, List.length_singleton]
    · intro host
      rw [hhosts, tracks.mem_postponed]
  · have dropped : IsLawful (.drop guard :: past) := ⟨by simp [hlast], hlawful⟩
    exact (Tracks.after hpins hpostponed dropped).postponed_eq_nil (by simp [live, hlast])

/-- With two guards a removal waits for the second one, and so does a location that comes
meanwhile. -/
theorem locations_guarded_twice :
    let near : Location := .file [⟨1, .mk "a"⟩, ⟨2, .mk "a"⟩]
    let late : Location := .memory 1 "x"
    let d : Item := { named "x" with locations := [near] }
    let past : List Action := [.addLocation late, .drop 0, .removeHost 1, .pin 1, .pin 0]
    d.pins = 0 ∧ d.postponed = [] ∧ IsLawful past ∧ live past = [1] ∧
      (d.after past).pins = 1 ∧ (d.after past).postponed = [1] ∧
      (d.after past).locations = [near, late] ∧
      (d.after (.drop 1 :: past)).postponed = [] ∧
      (d.after (.drop 1 :: past)).locations = [.file [⟨2, .mk "a"⟩]] := by
  intro near late d past
  have hlawful : IsLawful past := by simp [past, IsLawful, live]
  have hlast : live past = [1] := by decide
  obtain ⟨hcount, -, -, -, hlater⟩ := locations_guarded (d := d) rfl rfl hlawful
  have hdue : ∀ host, host ∈ [1] ↔ IsDue past host := by
    intro host
    rw [← (Tracks.after (d := d) rfl rfl hlawful).mem_postponed]
    rfl
  obtain ⟨hdropped, hnone⟩ := hlater 1 hlast [1] hdue
  refine ⟨rfl, rfl, hlawful, hlast, by rw [hcount, hlast]; rfl, by decide +kernel,
    by decide +kernel, hnone, ?_⟩
  rw [hdropped]
  decide +kernel

end Item

end Wharf
