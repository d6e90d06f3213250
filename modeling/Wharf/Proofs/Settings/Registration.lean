import Wharf.Proofs.Catalog.Identity
import Wharf.Proofs.Settings.Conversion

/-!
# Registrations that do not get through

Settings are registered core by core, and a core that cannot be converted ends the registration.
What was registered before stays, and is reported by nobody.

* `CatalogSettings.fault?` is the fault that ends a registration, `CatalogSettings.beforeFault` the
  part of the settings before it, and `CatalogSettings.namesUntilFault` the names of consumables up
  to it.
* `CatalogSettings.mem_changed_iff`: a registration that gets through reports exactly the cores that
  it changes.
* `Catalog.Lists` says that a core of the settings has nothing new to a catalog. These are the cores
  that are registered without a trace (`CatalogSettings.registerCores_eq_iff`).
* **A registration that fails is one of the part before the fault** without its report
  (`CatalogSettings.registerIn_error`). It is all or nothing exactly when this part has nothing new.
-/

namespace Wharf

/-! ## Catalogs that are extended twice -/

theorem Core.ExtendedBy.antisymm {c d : Core} (h : c.ExtendedBy d) (h' : d.ExtendedBy c) : d = c :=
  h.eq_of_length_eq
    (Nat.le_antisymm h'.implementations.length_le h.implementations.length_le)

theorem Core.addAll_of_knows {c : Core} {implementations : List (String × Description)}
    (h : ∀ i ∈ implementations, c.knows i.1 = true) : c.addAll implementations = c := by
  unfold addAll
  induction implementations with
  | nil => rfl
  | cons i rest ih =>
    have hadd : c.add i.1 i.2 = c := if_pos (h i List.mem_cons_self)
    rw [List.foldl_cons, hadd]
    exact ih fun j hj => h j (List.mem_cons_of_mem _ hj)

/-- A core knows what was converted if it knows what was declared. -/
theorem Core.knows_converted_iff (c : Core) {converted : List (String × Description)}
    {declared : List ImplementationSettings}
    (h : converted.map Prod.fst = declared.map ImplementationSettings.signature) :
    (∀ i ∈ converted, c.knows i.1 = true) ↔ ∀ i ∈ declared, c.knows i.signature = true := by
  rw [← List.forall_mem_map (P := fun signature => c.knows signature = true), h,
    List.forall_mem_map]

namespace Catalog

variable {c d e : Catalog}

/-- A core that changed once does not change back. -/
theorem ExtendedBy.core?_ne_iff (h : c.ExtendedBy d) (h' : d.ExtendedBy e) (id : Nat) :
    e.core? id ≠ c.core? id ↔ d.core? id ≠ c.core? id ∨ e.core? id ≠ d.core? id := by
  rw [← not_iff_not, not_or, not_not, not_not, not_not]
  constructor
  · intro heq
    cases hc : c.core? id with
    | some core =>
      obtain ⟨grown, hgrown, hextends⟩ := h id core hc
      obtain ⟨last, hlast, hextends'⟩ := h' id grown hgrown
      have hback : last = core := Option.some.inj (hlast.symm.trans (heq.trans hc))
      rw [hback] at hextends' hlast
      rw [hgrown, hlast, hextends.antisymm hextends']
      exact ⟨rfl, rfl⟩
    | none =>
      have hd : d.core? id = none := by
        cases hd : d.core? id with
        | none => rfl
        | some core =>
          obtain ⟨last, hlast, -⟩ := h' id core hd
          rw [heq, hc] at hlast
          cases hlast
      rw [hd, heq, hc]
      exact ⟨rfl, rfl⟩
  · rintro ⟨hd, he⟩
    rw [he, hd]

/-- A registration reports exactly the core that it changes. -/
theorem IsDense.mem_changed_iff (h : c.IsDense) (signature : String)
    (implementations : List (String × Description)) (id : Nat) :
    id ∈ (c.register signature implementations).changed ↔
      (c.register signature implementations).catalog.core? id ≠ c.core? id := by
  constructor
  · rcases h.register_cases signature implementations with
      ⟨core, hcore, -, ⟨-, heq⟩ | ⟨hgrown, heq⟩⟩ | ⟨-, heq⟩
    · simp [heq]
    · intro hid
      rw [heq] at hid ⊢
      rw [List.mem_singleton.1 hid, hcore]
      have hlt := (List.getElem?_eq_some_iff.1 hcore).1
      simp [core?, hlt, hgrown]
    · intro hid
      rw [heq] at hid ⊢
      rw [List.mem_singleton.1 hid]
      simp [core?, size]
  · intro hne
    by_contra hid
    exact hne ((c.grownBy_register signature implementations).core?_eq id hid)

/-- A registration without a trace is one of what is known. -/
theorem Produced.register_eq_iff (h : c.Produced) (signature : String)
    (implementations : List (String × Description)) :
    (c.register signature implementations).catalog = c ↔
      ∃ core, c.core? core.id = some core ∧ core.signature = signature ∧
        ∀ i ∈ implementations, core.knows i.1 = true := by
  have hdense := h.isNumbered.dense
  constructor
  · intro heq
    obtain ⟨core, hcore, hsignature, hknows, -⟩ := hdense.register_reports signature implementations
    rw [heq] at hcore
    exact ⟨core, hcore, hsignature, hknows⟩
  · rintro ⟨core, hcore, hsignature, hknows⟩
    rcases hdense.register_cases signature implementations with
      ⟨found, hfound, hsignature', ⟨-, heq⟩ | ⟨hgrown, -⟩⟩ | ⟨hnew, -⟩
    · rw [heq]
    · -- Only one core has the signature, and this one learns nothing.
      have hfind := (h.isDistinct.find?_eq_some_iff hdense).2 ⟨core, hcore, hsignature⟩
      have hfind' := (h.isDistinct.find?_eq_some_iff hdense).2 ⟨found, hfound, hsignature'⟩
      have hid : found.id = core.id := Option.some.inj (hfind'.symm.trans hfind)
      rw [hid, hcore] at hfound
      cases hfound
      exact absurd (Core.addAll_of_knows hknows) hgrown
    · exact absurd hsignature (hnew core (List.mem_of_getElem? hcore))

/-- A core of settings has nothing new: there is one of its signature that knows all its
implementations. -/
def Lists (c : Catalog) (core : CoreSettings) : Prop :=
  ∃ known, c.core? known.id = some known ∧ known.signature = core.signature ∧
    ∀ i ∈ core.implementations, known.knows i.signature = true

end Catalog

/-! ## The part before the fault -/

namespace CoreSettings

/-- The first fault among the implementations. -/
def fault? (core : CoreSettings) : Option SettingsError :=
  core.implementations.findSome? ImplementationSettings.fault?

theorem convertAll_of_faultless {core : CoreSettings} (h : core.fault? = none)
    (names : NameTable) :
    ∃ implementations names', ImplementationSettings.convertAll names core.implementations =
        (.ok implementations, names') ∧
      implementations.map Prod.fst =
        core.implementations.map ImplementationSettings.signature := by
  obtain ⟨implementations, hconverted, hsignatures⟩ :=
    ImplementationSettings.convertAll_of_faultless h names
  exact ⟨implementations, _, Prod.ext hconverted rfl, hsignatures⟩

theorem convertAll_of_fault {core : CoreSettings} {e : SettingsError} (h : core.fault? = some e)
    (names : NameTable) :
    ∃ names', ImplementationSettings.convertAll names core.implementations = (.error e, names') :=
  ⟨_, Prod.ext (ImplementationSettings.convertAll_of_fault h names) rfl⟩

end CoreSettings

namespace CatalogSettings

/-- The fault that ends the registration. -/
def fault? (s : CatalogSettings) : Option SettingsError := s.cores.findSome? CoreSettings.fault?

/-- The cores before the one with the fault. -/
def beforeFault (s : CatalogSettings) : CatalogSettings :=
  ⟨s.cores.takeWhile fun core => core.fault?.isNone⟩

/-- The names of the consumables that come before the fault, in order. -/
def namesUntilFault (s : CatalogSettings) : List String :=
  ImplementationSettings.namesUntilFault (s.cores.flatMap CoreSettings.implementations)

variable {c : Catalog} {names names' : NameTable} {before after : List Nat} {core : CoreSettings}
  {cores rest : List CoreSettings}

theorem registerCores_cons_of_ok {implementations : List (String × Description)}
    (h : ImplementationSettings.convertAll names core.implementations =
      (.ok implementations, names')) :
    registerCores c names before (core :: rest) =
      registerCores (c.register core.signature implementations).catalog names'
        (addNew before (c.register core.signature implementations).changed) rest := by
  rw [registerCores, h]

theorem registerCores_cons_of_error {e : SettingsError}
    (h : ImplementationSettings.convertAll names core.implementations = (.error e, names')) :
    registerCores c names before (core :: rest) = ⟨c, names', .error e⟩ := by
  rw [registerCores, h]

theorem outcome_registerCores_of_fault {e : SettingsError}
    (h : cores.findSome? CoreSettings.fault? = some e) (c : Catalog) (names : NameTable)
    (before : List Nat) : (registerCores c names before cores).outcome = .error e := by
  induction cores generalizing c names before with
  | nil => cases h
  | cons core rest ih =>
    rw [List.findSome?_cons] at h
    cases hcore : core.fault? with
    | some e' =>
      simp only [hcore] at h
      cases h
      obtain ⟨names', hconverted⟩ := CoreSettings.convertAll_of_fault hcore names
      rw [registerCores_cons_of_error hconverted]
    | none =>
      simp only [hcore] at h
      obtain ⟨_, _, hconverted, -⟩ := CoreSettings.convertAll_of_faultless hcore names
      rw [registerCores_cons_of_ok hconverted]
      exact ih h _ _ _

theorem outcome_registerCores_of_faultless (h : cores.findSome? CoreSettings.fault? = none)
    (c : Catalog) (names : NameTable) (before : List Nat) :
    ∃ after, (registerCores c names before cores).outcome = .ok after := by
  induction cores generalizing c names before with
  | nil => exact ⟨before, rfl⟩
  | cons core rest ih =>
    rw [List.findSome?_cons] at h
    cases hcore : core.fault? with
    | some e' => simp [hcore] at h
    | none =>
      simp only [hcore] at h
      obtain ⟨_, _, hconverted, -⟩ := CoreSettings.convertAll_of_faultless hcore names
      rw [registerCores_cons_of_ok hconverted]
      exact ih h _ _ _

/-- The names of the consumables before the first fault are registered. -/
theorem names_registerCores (c : Catalog) (names : NameTable) (before : List Nat)
    (cores : List CoreSettings) :
    (registerCores c names before cores).names = (names.internAll
      (ImplementationSettings.namesUntilFault
        (cores.flatMap CoreSettings.implementations))).2 := by
  induction cores generalizing c names before with
  | nil => rfl
  | cons core rest ih =>
    have hnames := ImplementationSettings.convertAll_names names core.implementations
    rw [List.flatMap_cons]
    cases hcore : core.fault? with
    | some e =>
      obtain ⟨_, hconverted⟩ := CoreSettings.convertAll_of_fault hcore names
      rw [registerCores_cons_of_error hconverted,
        ImplementationSettings.namesUntilFault_append_of_fault hcore, ← hnames, hconverted]
    | none =>
      obtain ⟨_, _, hconverted, -⟩ := CoreSettings.convertAll_of_faultless hcore names
      rw [registerCores_cons_of_ok hconverted, ih,
        ImplementationSettings.namesUntilFault_append_of_faultless hcore,
        NameTable.internAll_append, ← hnames, hconverted]

/-- The cores before the first fault are registered, and no other. -/
theorem catalog_registerCores_takeWhile (c : Catalog) (names : NameTable) (before : List Nat)
    (cores : List CoreSettings) :
    (registerCores c names before (cores.takeWhile fun core => core.fault?.isNone)).catalog =
      (registerCores c names before cores).catalog := by
  induction cores generalizing c names before with
  | nil => rfl
  | cons core rest ih =>
    cases hcore : core.fault? with
    | some e =>
      obtain ⟨_, hconverted⟩ := CoreSettings.convertAll_of_fault hcore names
      rw [registerCores_cons_of_error hconverted]
      simp [hcore, registerCores]
    | none =>
      obtain ⟨_, _, hconverted, -⟩ := CoreSettings.convertAll_of_faultless hcore names
      have htake : (core :: rest).takeWhile (fun core => core.fault?.isNone) =
          core :: rest.takeWhile fun core => core.fault?.isNone := by
        simp [hcore]
      rw [htake, registerCores_cons_of_ok hconverted, registerCores_cons_of_ok hconverted]
      exact ih _ _ _

/-! ## Reports and traces -/

theorem mem_changed_registerCores (hc : c.Produced)
    (h : (registerCores c names before cores).outcome = .ok after) (id : Nat) :
    id ∈ after ↔
      id ∈ before ∨ (registerCores c names before cores).catalog.core? id ≠ c.core? id := by
  induction cores generalizing c names before with
  | nil =>
    cases h
    simp [registerCores]
  | cons core rest ih =>
    cases hcore : core.fault? with
    | some e =>
      obtain ⟨_, hconverted⟩ := CoreSettings.convertAll_of_fault hcore names
      rw [registerCores_cons_of_error hconverted] at h
      cases h
    | none =>
      obtain ⟨implementations, names', hconverted, -⟩ :=
        CoreSettings.convertAll_of_faultless hcore names
      rw [registerCores_cons_of_ok hconverted] at h ⊢
      have hdense := hc.isNumbered.dense
      have hregistered := hc.register core.signature implementations
      rw [ih hregistered h, mem_addNew, or_assoc, hdense.mem_changed_iff,
        (hdense.extendedBy_register core.signature implementations).core?_ne_iff
          (extendedBy_registerCores hregistered _ _ rest)]

/-- **A registration that gets through reports exactly the cores that it changes.** -/
theorem mem_changed_iff (hc : c.Produced) {s : CatalogSettings} {changed : List Nat}
    (h : (s.registerIn c names).outcome = .ok changed) (id : Nat) :
    id ∈ changed ↔ (s.registerIn c names).catalog.core? id ≠ c.core? id := by
  rw [mem_changed_registerCores hc h]
  simp [registerIn]

/-- Cores are registered without a trace exactly when none of them has anything new. -/
theorem registerCores_eq_iff (hc : c.Produced)
    (h : ∀ core ∈ cores, core.fault? = none) :
    (registerCores c names before cores).catalog = c ↔ ∀ core ∈ cores, c.Lists core := by
  induction cores generalizing names before with
  | nil => simp [registerCores]
  | cons core rest ih =>
    rw [List.forall_mem_cons] at h ⊢
    obtain ⟨implementations, names', hconverted, hsignatures⟩ :=
      CoreSettings.convertAll_of_faultless h.1 names
    rw [registerCores_cons_of_ok hconverted]
    -- The core has nothing new when its registration leaves no trace.
    have hlists : (c.register core.signature implementations).catalog = c ↔ c.Lists core := by
      rw [hc.register_eq_iff]
      exact exists_congr fun known => and_congr_right fun _ => and_congr_right fun _ =>
        known.knows_converted_iff hsignatures
    constructor
    · intro heq
      obtain ⟨calls, hcalls⟩ := registerCores_eq_registerAll
        (c.register core.signature implementations).catalog names'
        (addNew before (c.register core.signature implementations).changed) rest
      have hgrown := (c.grownBy_register core.signature implementations).eq_or_lt
      have hlater := Catalog.eq_or_version_lt_registerAll
        (c.register core.signature implementations).catalog calls
      rw [← hcalls, heq] at hlater
      have hfirst : (c.register core.signature implementations).catalog = c := by
        rcases hgrown with hsame | hlt
        · exact hsame
        · rcases hlater with hsame | hlt'
          · exact hsame.symm
          · omega
      rw [hfirst] at heq
      exact ⟨hlists.1 hfirst, (ih h.2).1 heq⟩
    · rintro ⟨hcore, hrest⟩
      rw [hlists.2 hcore]
      exact (ih h.2).2 hrest

theorem fault?_of_mem_beforeFault {s : CatalogSettings} (h : core ∈ s.beforeFault.cores) :
    core.fault? = none := by
  have hnone := List.all_eq_true.1 List.all_takeWhile core h
  simpa using hnone

/-- **A registration that fails has registered what comes before the fault.** It ends with the first
fault of the settings. The catalog afterwards is that of the cores before the fault, and the names
up to the fault are registered. So the catalog is as before exactly when those cores have nothing
new, and the names are exactly when all of those are known. Settings that get through later report
exactly what they change themselves: seen from the catalog before the failure, the changes that the
failed registration made are missing from the report unless the same cores change again. -/
theorem registerIn_error (hc : c.Produced) {s : CatalogSettings} {e : SettingsError}
    (h : (s.registerIn c names).outcome = .error e) :
    s.fault? = some e ∧
      (s.registerIn c names).catalog = (s.beforeFault.registerIn c names).catalog ∧
      (s.registerIn c names).names = (names.internAll s.namesUntilFault).2 ∧
      ((s.registerIn c names).catalog = c ↔ ∀ core ∈ s.beforeFault.cores, c.Lists core) ∧
      ((s.registerIn c names).names = names ↔ ∀ name ∈ s.namesUntilFault, name ∈ names.names) ∧
      ∀ (s' : CatalogSettings) (names' : NameTable) (changed : List Nat),
        (s'.registerIn (s.registerIn c names).catalog names').outcome = .ok changed →
        ∀ id, (s'.registerIn (s.registerIn c names).catalog names').catalog.core? id ≠ c.core? id ↔
          id ∈ changed ∨ (s.registerIn c names).catalog.core? id ≠ c.core? id := by
  have hcatalog : (s.registerIn c names).catalog = (s.beforeFault.registerIn c names).catalog :=
    (catalog_registerCores_takeWhile c names [] s.cores).symm
  have hnames : (s.registerIn c names).names = (names.internAll s.namesUntilFault).2 :=
    names_registerCores c names [] s.cores
  refine ⟨?_, hcatalog, hnames, ?_, ?_, fun s' names' changed hok id => ?_⟩
  · cases hfault : s.cores.findSome? CoreSettings.fault? with
    | none =>
      obtain ⟨after, hok⟩ := outcome_registerCores_of_faultless hfault c names []
      cases h.symm.trans hok
    | some e' =>
      cases h.symm.trans (outcome_registerCores_of_fault hfault c names [])
      exact hfault
  · rw [hcatalog]
    apply registerCores_eq_iff hc
    intro core
    exact fault?_of_mem_beforeFault
  · rw [hnames]
    exact NameTable.internAll_eq_iff
  · have hpart := hc.registerIn s names
    rw [(extendedBy_registerIn hc s names).core?_ne_iff (extendedBy_registerIn hpart s' names'),
      mem_changed_iff hpart hok, or_comm]

/-- When the core before the fault is known already, with its consumables, the failure leaves no
trace and corrected settings report all that is new. -/
theorem registerIn_error_after_known_core :
    let demand (name : String) (count : Int) : DescriptionSettings :=
      .compute [(name, .ofInt count)] none []
    let first : CoreSettings := ⟨"sort", [⟨"one", demand "fpgas" 1⟩]⟩
    let wrong : CatalogSettings := ⟨[first, ⟨"rank", [⟨"one", demand "cpus" (-1)⟩]⟩]⟩
    let right : CatalogSettings := ⟨[first, ⟨"rank", [⟨"one", demand "cpus" 1⟩]⟩]⟩
    let known := registerIn ⟨[first]⟩ .empty .standard
    let failed := wrong.registerIn known.catalog known.names
    known.catalog.Produced ∧ failed.outcome = .error (.invalidAmount (.ofInt (-1)) "cpus") ∧
      failed.catalog = known.catalog ∧ failed.names = known.names ∧
      (right.registerIn failed.catalog failed.names).outcome = .ok [1] := by
  intro demand first wrong right known failed
  have hproduced : known.catalog.Produced := Catalog.Produced.empty.registerIn ⟨[first]⟩ .standard
  have herror : failed.outcome = .error (.invalidAmount (.ofInt (-1)) "cpus") := by decide +kernel
  obtain ⟨-, -, -, hcatalog, hnames, -⟩ := registerIn_error hproduced herror
  have hbefore : wrong.beforeFault.cores = [first] := by decide +kernel
  refine ⟨hproduced, herror, hcatalog.2 ?_, hnames.2 (by decide +kernel), by decide +kernel⟩
  rw [hbefore, List.forall_mem_singleton]
  let need : Description := .compute ⟨.ofAmounts [(4, .ofUnits 1)], none, .none⟩
  exact ⟨⟨0, "sort", [⟨0, 0, "one", need⟩]⟩, by decide +kernel, rfl, by decide +kernel⟩

/-- **A failure is not without a trace.** The core before the fault is registered, and so is its
consumable. When the settings have been corrected, that core is missing from the report, which has
both cores if there was no failure before. -/
theorem registerIn_error_keeps_first_core :
    let demand (name : String) (count : Int) : DescriptionSettings :=
      .compute [(name, .ofInt count)] none []
    let first : CoreSettings := ⟨"sort", [⟨"one", demand "fpgas" 1⟩]⟩
    let wrong : CatalogSettings := ⟨[first, ⟨"rank", [⟨"one", demand "cpus" (-1)⟩]⟩]⟩
    let right : CatalogSettings := ⟨[first, ⟨"rank", [⟨"one", demand "cpus" 1⟩]⟩]⟩
    let failed := wrong.registerIn .empty .standard
    failed.outcome = .error (.invalidAmount (.ofInt (-1)) "cpus") ∧
      failed.catalog ≠ .empty ∧ failed.names ≠ .standard ∧
      (right.registerIn failed.catalog failed.names).outcome = .ok [1] ∧
      (right.registerIn .empty .standard).outcome = .ok [0, 1] := by
  decide +kernel

end CatalogSettings

end Wharf
