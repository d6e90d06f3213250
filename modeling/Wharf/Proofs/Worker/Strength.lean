import Wharf.Proofs.Description.Features
import Wharf.Proofs.Worker.Runnable

/-!
# Stronger resources

A resource is at least as strong as another one if it would do as an implementation of what the
other one offers: it matches it and holds its amounts. The same is said of what implementations
need.

* `Description.AtLeast` is this relation.
* `simultaneous_mono`: a stronger resource runs as many instances of an implementation that needs
  less. Seen from below, so many instances run if the resource matches, has slots for them, and
  every dimension holds so many copies of the demand (`le_simultaneous_iff`).
* So in tables that are built afresh nothing is less for the stronger resource
  (`CoreEntry.evaluate_within`, `Tables.build_within`).
-/

namespace Wharf

/-! ## Descriptions -/

namespace Description

variable {offer middle wanted : Description}

theorem accepts_refl (d : Description) : d.accepts d = true := by
  cases d with
  | compute d => exact ComputeDescription.accepts_iff.2 ⟨fun _ h => h, fun _ h => h⟩
  | service d => simp [accepts, ServiceDescription.accepts]

/-- What matches a match of a demand matches the demand. -/
theorem accepts_trans (h : offer.accepts middle = true) (h' : middle.accepts wanted = true) :
    offer.accepts wanted = true := by
  cases offer with
  | compute offer =>
    cases middle with
    | service middle => cases h
    | compute middle =>
      cases wanted with
      | service wanted => cases h'
      | compute wanted =>
        obtain ⟨harchitecture, hfeatures⟩ := ComputeDescription.accepts_iff.1 h
        obtain ⟨harchitecture', hfeatures'⟩ := ComputeDescription.accepts_iff.1 h'
        exact ComputeDescription.accepts_iff.2
          ⟨fun a ha => harchitecture a (harchitecture' a ha),
            fun feature hmem => hfeatures feature (hfeatures' feature hmem)⟩
  | service offer =>
    cases middle with
    | compute middle => cases h
    | service middle =>
      cases wanted with
      | compute wanted => cases h'
      | service wanted =>
        simp only [accepts, ServiceDescription.accepts, Bool.and_eq_true, beq_iff_eq] at h h' ⊢
        obtain ⟨⟨hname, hrealm⟩, hport⟩ := h
        obtain ⟨⟨hname', hrealm'⟩, hport'⟩ := h'
        exact ⟨⟨hname.trans hname', hrealm.trans hrealm'⟩, hport.trans hport'⟩

/-- Taken as a demand, `weak` is matched and covered. -/
structure AtLeast (strong weak : Description) : Prop where
  accepts : strong.accepts weak = true
  covers : strong.consumables.covers weak.consumables = true

theorem AtLeast.refl (d : Description) : d.AtLeast d :=
  ⟨d.accepts_refl, Consumables.covers_iff.2 fun _ => Nat.le_refl _⟩

end Description

/-! ## Instances -/

/-- More holds as many copies of less. -/
theorem Consumables.Holds.mono {strong weak more less : Consumables} {copies : Nat}
    (hoffer : strong.covers weak = true) (hneed : more.covers less = true)
    (h : weak.Holds more copies) : strong.Holds less copies := by
  intro id
  calc copies * (less.get id).count
      ≤ copies * (more.get id).count := Nat.mul_le_mul_left _ (covers_iff.1 hneed id)
    _ ≤ (weak.get id).count := h id
    _ ≤ (strong.get id).count := covers_iff.1 hoffer id

/-- So many instances run if the resource matches, and has slots and amounts for them. -/
theorem le_simultaneous_iff {offer : Description} {ceiling copies : Nat} {i : Implementation}
    (hpos : 0 < copies) :
    copies ≤ (simultaneous? offer ceiling i).getD 0 ↔
      offer.accepts i.requirements = true ∧ copies ≤ ceiling ∧
        offer.consumables.Holds i.requirements.consumables copies := by
  rw [Consumables.holds_iff_le_fitCount, simultaneous?]
  by_cases haccepts : offer.accepts i.requirements = true
  · rw [if_pos haccepts]
    cases offer.consumables.fitCount i.requirements.consumables with
    | none => simp [haccepts]
    | some fit => simp [haccepts, and_comm]
  · rw [if_neg haccepts, Option.getD_none]
    exact iff_of_false (Nat.not_le.2 hpos) fun h => haccepts h.1

variable {weak strong : Description} {low high : Nat}

/-- **A stronger resource runs as many instances of what needs less.** -/
theorem simultaneous_mono (hoffer : strong.AtLeast weak) (hceiling : low ≤ high)
    {i j : Implementation} (hneed : j.requirements.AtLeast i.requirements) :
    (simultaneous? weak low j).getD 0 ≤ (simultaneous? strong high i).getD 0 := by
  rcases Nat.eq_zero_or_pos ((simultaneous? weak low j).getD 0) with hzero | hpos
  · rw [hzero]
    exact Nat.zero_le _
  · obtain ⟨haccepts, hslots, hholds⟩ := (le_simultaneous_iff hpos).1 (Nat.le_refl _)
    refine (le_simultaneous_iff hpos).2 ⟨?_, Nat.le_trans hslots hceiling, ?_⟩
    · exact Description.accepts_trans hoffer.accepts
        (Description.accepts_trans haccepts hneed.accepts)
    · exact hholds.mono hoffer.covers hneed.covers

theorem simultaneous_mono_offer (hoffer : strong.AtLeast weak) (hceiling : low ≤ high)
    (i : Implementation) :
    (simultaneous? weak low i).getD 0 ≤ (simultaneous? strong high i).getD 0 :=
  simultaneous_mono hoffer hceiling (.refl _)

/-! ## Tables -/

/-- An entry in which nothing is more than in another one. -/
structure CoreEntry.Within (e f : CoreEntry) : Prop where
  executable : e.executable.Sublist f.executable
  instances_le : ∀ index, e.instances.getD index 0 ≤ f.instances.getD index 0
  ideal_le : e.ideal ≤ f.ideal
  slots_le : e.slots ≤ f.slots

/-- **A core is evaluated to no less for a stronger resource.** -/
theorem CoreEntry.evaluate_within (hoffer : strong.AtLeast weak) (hceiling : low ≤ high)
    (implementations : List Implementation) :
    (evaluate weak low implementations).Within (evaluate strong high implementations) := by
  have hinstances := simultaneous_mono_offer hoffer hceiling
  have hideal : (evaluate weak low implementations).ideal ≤
      (evaluate strong high implementations).ideal := by
    refine le_of_forall_lt fun a ha => ?_
    simp only [evaluate, instancesOf, lt_foldl_max, List.mem_map] at ha ⊢
    obtain ha | ⟨_, ⟨i, hi, rfl⟩, hlt⟩ := ha
    · exact .inl ha
    · exact .inr ⟨_, ⟨i, hi, rfl⟩, Nat.lt_of_lt_of_le hlt (hinstances i)⟩
  exact
    { executable := List.monotone_filter_right _ fun i hi => by
        have := hinstances i
        rw [decide_eq_true_iff] at hi ⊢
        omega
      instances_le := fun index => by
        simp only [evaluate, instancesOf, List.getD_eq_getElem?_getD, List.getElem?_map]
        cases implementations[index]? with
        | none => exact Nat.le_refl _
        | some i => exact hinstances i
      ideal_le := hideal
      slots_le := by
        simp only [evaluate] at hideal ⊢
        omega }

namespace Tables

/-- Tables in which nothing is more than in other ones: the entries of no core and the list of
executable cores. -/
structure Within (t u : Tables) : Prop where
  executableCores : t.executableCores.Sublist u.executableCores
  executableOf : ∀ core, (t.executableOf core).Sublist (u.executableOf core)
  instances_le : ∀ core index, t.instances core index ≤ u.instances core index
  ideal_le : ∀ core, t.ideal core ≤ u.ideal core
  slots_le : ∀ core, t.slots core ≤ u.slots core

/-- **Fresh tables hold no less for a stronger resource.** -/
theorem build_within (hoffer : strong.AtLeast weak) (hceiling : low ≤ high) (c : Catalog) :
    (build weak low c).Within (build strong high c) := by
  have hentry := CoreEntry.evaluate_within hoffer hceiling
  exact
    { executableCores := by
        rw [executableCores_build, executableCores_build]
        refine (List.monotone_filter_right _ fun core hcore => ?_).map _
        rw [Bool.not_eq_true', List.isEmpty_eq_false_iff] at hcore ⊢
        intro hnil
        have hnone := hnil ▸ (hentry core.implementations).executable
        exact hcore (List.sublist_nil.1 hnone)
      executableOf := fun core => by
        rw [executableOf_build, executableOf_build]
        exact (hentry _).executable
      instances_le := fun core index => by
        rw [instances_build_eq_getD, instances_build_eq_getD]
        exact (hentry _).instances_le index
      ideal_le := fun core => by
        rw [ideal_build, ideal_build]
        exact (hentry _).ideal_le
      slots_le := fun core => by
        rw [slots_build, slots_build]
        exact (hentry _).slots_le }

/-- **The stronger resource never does less**, nor does the implementation that needs less. Of two
resources the one that would do for what the other one offers, with no fewer slots, gets tables from
any catalog in which nothing is less. Of two implementations the one whose needs the other one's
cover gets no fewer instances in the tables of any resource. -/
theorem stronger_never_less {catalog : Catalog} (h : catalog.Produced) :
    (∀ (weak strong : Description) (low high : Nat), strong.AtLeast weak → low ≤ high →
      (build weak low catalog).Within (build strong high catalog)) ∧
    ∀ (offer : Description) (ceiling : Nat) (i j : Implementation),
      j.requirements.AtLeast i.requirements →
      (simultaneous? offer ceiling j).getD 0 ≤ (simultaneous? offer ceiling i).getD 0 ∧
      ∀ core index core' index', catalog.implementation? core index = some i →
        catalog.implementation? core' index' = some j →
        (build offer ceiling catalog).instances core' index' ≤
          (build offer ceiling catalog).instances core index := by
  refine ⟨fun weak strong low high hoffer hceiling => build_within hoffer hceiling catalog,
    fun offer ceiling i j hneed => ?_⟩
  have hle := simultaneous_mono (.refl offer) (Nat.le_refl ceiling) hneed
  refine ⟨hle, fun core index core' index' hi hj => ?_⟩
  obtain ⟨rfl, rfl⟩ := h.isNumbered.ids_eq hi
  obtain ⟨rfl, rfl⟩ := h.isNumbered.ids_eq hj
  calc (build offer ceiling catalog).instances j.core j.index
      = (simultaneous? offer ceiling j).getD 0 := instances_build offer ceiling h.isNumbered hj
    _ ≤ (simultaneous? offer ceiling i).getD 0 := hle
    _ = (build offer ceiling catalog).instances i.core i.index :=
        (instances_build offer ceiling h.isNumbered hi).symm

/-- With more cpus, an architecture and a feature the tuned implementation can run too, and with it
a core that has no other. It needs more than the plain one. -/
theorem stronger_never_less_tuned :
    let need (cpus : Nat) (architecture : Option String) (features : List String) : Description :=
      .compute ⟨.ofAmounts [(0, .saturating cpus)], architecture, .ofList features⟩
    let plain := need 1 none []
    let tuned := need 2 (some "x86") ["avx", "fma"]
    let weak := need 3 none ["avx"]
    let strong := need 9 (some "x86") ["fma", "sse", "avx"]
    let catalog := ((Catalog.empty.register "sort" [("sort.plain", plain), ("sort.tuned", tuned)])
      |>.catalog.register "render" [("render.tuned", tuned)]).catalog
    let before := build weak 3 catalog
    let after := build strong 5 catalog
    catalog.Produced ∧ strong.AtLeast weak ∧ tuned.AtLeast plain ∧ before.Within after ∧
      before.executableCores = [0] ∧ after.executableCores = [0, 1] ∧
      before.instances 0 0 = 3 ∧ after.instances 0 0 = 5 ∧ after.instances 0 1 = 4 ∧
      after.instances 0 1 ≤ after.instances 0 0 := by
  intro need plain tuned weak strong catalog before after
  have produced : catalog.Produced := .register (.register .empty _ _) _ _
  have offers : strong.AtLeast weak := ⟨by decide, by decide⟩
  have needs : tuned.AtLeast plain := ⟨by decide, by decide⟩
  obtain ⟨hoffer, hneed⟩ := stronger_never_less produced
  obtain ⟨-, hinstances⟩ :=
    hneed strong 5 ⟨0, 0, "sort.plain", plain⟩ ⟨0, 1, "sort.tuned", tuned⟩ needs
  exact ⟨produced, offers, needs, hoffer weak strong 3 5 offers (by decide), by decide, by decide,
    by decide, by decide, by decide, hinstances 0 0 0 1 (by decide) (by decide)⟩

end Tables

end Wharf
