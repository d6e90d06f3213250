import Wharf.Proofs.Settings.Validated

/-!
# Checked declarations

A declaration is checked in one place and converted in another one, and both convert its amounts.

* `DescriptionSettings.declared` lists what is declared by name, for both kinds: a service declares
  its connections. A check passes just if all of it can be converted, in a capacity to more than
  nothing (`DescriptionSettings.check_eq_ok_iff`).
* Without a fault a declaration is converted to the vector of its amounts
  (`DescriptionSettings.toDescription_eq_vector`). With one, the table of names stays as it was
  (`DescriptionSettings.toCompute_error`, `DescriptionSettings.toDescription_error`).
* `DescriptionSettings.converts_as_checked` puts it together.
-/

namespace Wharf

theorem Amount.pos_count_ofUnits_iff {units : UInt32} : 0 < (ofUnits units).count ↔ units ≠ 0 := by
  have hzero : units = 0 ↔ units.toNat = 0 := UInt32.toNat_inj.symm
  simp only [ofUnits, perUnit, Ne, hzero]
  omega

namespace NameTable

/-- The connections of a service are a well-known name. -/
theorem vector_connections {t : NameTable} (ht : standard.ExtendedBy t) (amount : Amount) :
    t.vector [("connections", amount)] = (Consumables.empty.set connections amount, t) := by
  have hid : t.id? "connections" = some connections := ht.id?_eq (by decide)
  simp only [vector, List.map_cons, List.map_nil, internAll, intern, hid]
  rfl

end NameTable

namespace DescriptionSettings

variable {s : DescriptionSettings} {names : NameTable} {name : String}

/-- What is declared by name, converted if possible. A service declares its connections. -/
def declared : DescriptionSettings → List (String × Option Amount)
  | compute consumables _ _ => consumables.map fun entry => (entry.1, Amount.ofBinary64? entry.2)
  | service _ _ _ connections => [("connections", some (.ofUnits connections))]

/-- The names of what is declared. -/
def declaredNames (s : DescriptionSettings) : List String := s.declared.map Prod.fst

/-- The amount that is declared under a name, of two of them the later one. None if there is none or
it cannot be converted. -/
def declaredAmount? (s : DescriptionSettings) (name : String) : Option Amount :=
  (s.declared.reverse.lookup name).join

/-- The amounts of a declaration in which all can be converted. -/
def declaredAmounts (s : DescriptionSettings) : List (String × Amount) :=
  s.declared.map fun entry => (entry.1, entry.2.getD 0)

theorem map_fst_declaredAmounts (s : DescriptionSettings) :
    s.declaredAmounts.map Prod.fst = s.declaredNames := by
  rw [declaredAmounts, declaredNames, List.map_map]
  rfl

theorem isSome_of_faultless (h : s.fault? = none) : ∀ entry ∈ s.declared, entry.2.isSome := by
  cases s with
  | compute consumables architecture features =>
    intro entry hentry
    obtain ⟨number, hnumber, rfl⟩ := List.mem_map.1 hentry
    exact fault?_eq_none_iff.1 h number hnumber
  | service name realm port connections =>
    intro entry hentry
    rw [List.mem_singleton.1 hentry]
    rfl

/-- Under each name that is declared the last amount is found. -/
theorem declaredAmount?_eq_some (h : s.fault? = none) (hname : name ∈ s.declaredNames) :
    (name, s.declaredAmount? name) ∈ s.declared ∧
      s.declaredAmount? name = some (lastAmount s.declaredAmounts name) := by
  obtain ⟨amount, hlookup⟩ : ∃ amount, s.declared.reverse.lookup name = some amount := by
    obtain ⟨entry, hentry, rfl⟩ := List.mem_map.1 hname
    refine Option.isSome_iff_exists.1 (List.lookup_isSome_iff.2 ⟨entry, ?_, beq_self_eq_true _⟩)
    exact List.mem_reverse.2 hentry
  obtain ⟨before, after, hsplit, -⟩ := List.lookup_eq_some_iff.1 hlookup
  have hmem : (name, amount) ∈ s.declared := by
    rw [← List.mem_reverse, hsplit]
    simp
  obtain ⟨a, rfl⟩ := Option.isSome_iff_exists.1 (isSome_of_faultless h _ hmem)
  have hfound : s.declaredAmount? name = some a := by
    rw [declaredAmount?, hlookup, Option.join_some]
  have hlast : lastAmount s.declaredAmounts name = a := by
    rw [lastAmount, declaredAmounts, ← List.map_reverse,
      lookup_map_snd (fun amount : Option Amount => amount.getD 0), hlookup]
    rfl
  rw [hfound, hlast]
  exact ⟨hmem, rfl⟩

/-! ### What is checked -/

/-- Consumables have names, and so has a service. -/
def IsNamed : DescriptionSettings → Prop
  | compute consumables _ _ => ∀ entry ∈ consumables, entry.1 ≠ ""
  | service name _ _ _ => name ≠ ""

theorem checkAmount_eq_ok_iff {allowZero : Bool} {x : Binary64} :
    checkAmount allowZero name x = .ok () ↔
      name ≠ "" ∧ ∃ amount, Amount.ofBinary64? x = some amount ∧
        (allowZero = false → 0 < amount.count) := by
  unfold checkAmount
  by_cases hname : name = ""
  · simp [hname]
  · cases Amount.ofBinary64? x with
    | none => simp [hname]
    | some amount =>
      cases allowZero <;> simp [hname, Amount.isZero, Nat.pos_iff_ne_zero]

/-- **A check passes just if all has a name and can be converted**, to more than nothing where zero
is not allowed. -/
theorem check_eq_ok_iff {allowZero : Bool} :
    s.check allowZero = .ok () ↔ s.IsNamed ∧ ∀ entry ∈ s.declared, ∃ amount,
      entry.2 = some amount ∧ (allowZero = false → 0 < amount.count) := by
  cases s with
  | compute consumables architecture features =>
    simp only [check, forM_eq_ok_iff, checkAmount_eq_ok_iff, IsNamed, declared, List.forall_mem_map]
    exact forall₂_and
  | service name realm port connections =>
    simp only [check, IsNamed, declared, List.forall_mem_singleton, Option.some.injEq,
      exists_eq_left', Amount.pos_count_ofUnits_iff]
    by_cases hname : name = ""
    · simp [hname]
    · by_cases hnone : connections = 0 <;> cases allowZero <;> simp [hname, hnone]

/-! ### What is converted -/

/-- **A declaration is converted to the vector of its amounts.** -/
theorem toDescription_eq_vector (h : s.fault? = none)
    (hnames : NameTable.standard.ExtendedBy names) :
    ∃ description, s.toDescription names =
        (.ok description, (names.vector s.declaredAmounts).2) ∧
      description.kind = s.kind ∧
      description.consumables = (names.vector s.declaredAmounts).1 := by
  cases s with
  | compute consumables architecture features =>
    have hamounts : (compute consumables architecture features).declaredAmounts =
        (compute consumables architecture features).converted := by
      simp only [declaredAmounts, declared, converted, amounts, List.map_map]
      rfl
    rw [hamounts]
    simp only [toDescription, kind, toCompute_of_faultless h]
    exact ⟨_, rfl, rfl, rfl⟩
  | service name realm port connections =>
    have hvector : names.vector (service name realm port connections).declaredAmounts = _ :=
      NameTable.vector_connections hnames (.ofUnits connections)
    rw [hvector]
    exact ⟨_, rfl, rfl, rfl⟩

theorem toCompute_error {e : SettingsError} {after : NameTable}
    (h : s.toCompute names = (.error e, after)) : after = names := by
  cases s with
  | service name realm port connections => exact (Prod.mk.inj h).2.symm
  | compute consumables architecture features =>
    simp only [toCompute] at h
    cases hconverted : convertAmounts consumables with
    | error e' =>
      rw [hconverted] at h
      exact (Prod.mk.inj h).2.symm
    | ok amounts =>
      rw [hconverted] at h
      cases h

theorem toDescription_error {e : SettingsError} {after : NameTable}
    (h : s.toDescription names = (.error e, after)) : after = names := by
  cases hfault : s.fault? with
  | some e' =>
    rw [toDescription_of_fault hfault] at h
    exact (Prod.mk.inj h).2.symm
  | none =>
    obtain ⟨description, hok⟩ := toDescription_of_faultless hfault names
    rw [hok] at h
    cases h

/-- **What passes its check is converted, and what fails leaves no trace.** A declaration passes, as
a demand or as a capacity, just if all has a name and can be converted, in a capacity to more than
nothing. Whatever names were registered before, it is converted to a description of its kind then.
Each declared name has an id, where the vector holds its amount. The vector holds nothing else,
known names keep their ids, and only declared names are new. A conversion that fails leaves the
table as it was. That to a service has no table at all. -/
theorem converts_as_checked (s : DescriptionSettings) {names : NameTable}
    (hnames : NameTable.standard.ExtendedBy names) :
    (∀ allowZero, s.check allowZero = .ok () ↔ s.IsNamed ∧ ∀ entry ∈ s.declared, ∃ amount,
      entry.2 = some amount ∧ (allowZero = false → 0 < amount.count)) ∧
    (∀ allowZero, s.check allowZero = .ok () →
      ∃ description after, s.toDescription names = (.ok description, after) ∧
        description.kind = s.kind ∧
        (∀ name ∈ s.declaredNames, ∃ id amount, after.id? name = some id ∧
          s.declaredAmount? name = some amount ∧ description.consumables.get id = amount ∧
          (allowZero = false → 0 < amount.count)) ∧
        (∀ id, (∀ name ∈ s.declaredNames, after.id? name ≠ some id) →
          description.consumables.get id = 0) ∧
        (∀ name id, names.id? name = some id → after.id? name = some id) ∧
        ∀ name, name ∈ after.names ↔ name ∈ names.names ∨ name ∈ s.declaredNames) ∧
    (∀ e after, s.toCompute names = (.error e, after) → after = names) ∧
    ∀ e after, s.toDescription names = (.error e, after) → after = names := by
  refine ⟨fun allowZero => check_eq_ok_iff, fun allowZero hcheck => ?_,
    fun e after h => toCompute_error h, fun e after h => toDescription_error h⟩
  have hfault := faultless_of_check hcheck
  obtain ⟨description, hok, hkind, hconsumables⟩ := toDescription_eq_vector hfault hnames
  have hmem : ∀ name, name ∈ (names.vector s.declaredAmounts).2.names ↔
      name ∈ names.names ∨ name ∈ s.declaredNames := by
    intro name
    rw [← map_fst_declaredAmounts]
    exact NameTable.mem_internAll
  have hreads : description.consumables.ReadsAs (names.vector s.declaredAmounts).2
      (lastAmount s.declaredAmounts) := hconsumables ▸ NameTable.readsAs_vector (.refl _)
  refine ⟨description, _, hok, hkind, fun name hname => ?_, fun id hid => ?_,
    fun name id hid => (names.extendedBy_internAll _).id?_eq hid, hmem⟩
  · obtain ⟨id, hid⟩ := NameTable.exists_id?_eq_some ((hmem name).2 (.inr hname))
    obtain ⟨hdeclared, hamount⟩ := declaredAmount?_eq_some hfault hname
    refine ⟨id, _, hid, hamount, hreads.get_eq name id hid, fun hcapacity => ?_⟩
    obtain ⟨amount, heq, hpos⟩ := (check_eq_ok_iff.1 hcheck).2 _ hdeclared
    rw [← Option.some.inj (hamount.symm.trans heq)] at hpos
    exact hpos hcapacity
  · rw [← map_fst_declaredAmounts] at hid
    exact hreads.get_eq_zero hid

/-- Half a part of a new consumable counts as one part and is a capacity, and less is not. Nothing
is in the dimension of a name that is known but not declared. A negative amount behind a new name
leaves the table without it. -/
theorem converts_as_checked_half_part :
    let offer (fpgas : Binary64) : DescriptionSettings :=
      .compute [("cpus", .ofInt 2), ("fpgas", fpgas)] none []
    let capacity := offer (.ofDecimal false 5 (-5))
    let broken : DescriptionSettings :=
      .compute [("fpgas", .ofInt 1), ("gpus", .ofInt (-1))] none []
    let names := (NameTable.standard.intern "disks").2
    NameTable.standard.ExtendedBy names ∧ capacity.check false = .ok () ∧
      (offer (.ofDecimal false 4 (-5))).check false = .error (.emptyConsumable "fpgas") ∧
      (∃ description after, capacity.toDescription names = (.ok description, after) ∧
        after.id? "disks" = some 4 ∧ after.id? "fpgas" = some 5 ∧
        description.consumables.get 4 = 0 ∧ (description.consumables.get 5).count = 1) ∧
      broken.toDescription names = (.error (.invalidAmount (.ofInt (-1)) "gpus"), names) := by
  intro offer capacity broken names
  have hnames : NameTable.standard.ExtendedBy names := NameTable.extendedBy_intern _ _
  have hcheck : capacity.check false = .ok () := by decide +kernel
  obtain ⟨-, hconverts, -⟩ := converts_as_checked capacity hnames
  obtain ⟨description, after, hok, -, hdeclared, hzero, hkeeps, -⟩ := hconverts false hcheck
  have hplace : after.id? "fpgas" = some 5 := by
    have hrun : (capacity.toDescription names).2.id? "fpgas" = some 5 := by decide +kernel
    rwa [hok] at hrun
  obtain ⟨id, amount, hid, hamount, hget, -⟩ := hdeclared "fpgas" (by decide +kernel)
  obtain rfl : id = 5 := Option.some.inj (hid.symm.trans hplace)
  have hone : (capacity.declaredAmount? "fpgas").map Amount.count = some 1 := by decide +kernel
  rw [hamount] at hone
  have hother : after.id? "disks" = some 4 := hkeeps "disks" 4 (by decide +kernel)
  refine ⟨hnames, hcheck, by decide +kernel, ⟨description, after, hok, hother, hplace,
    hzero 4 fun name hname h => ?_, by rw [hget]; exact Option.some.inj hone⟩, ?_⟩
  · rw [NameTable.eq_of_id?_eq h hother] at hname
    exact absurd hname (by decide +kernel)
  · obtain ⟨-, -, -, herror⟩ := converts_as_checked broken hnames
    have hfails : (broken.toDescription names).1 =
        .error (.invalidAmount (.ofInt (-1)) "gpus") := by
      decide +kernel
    obtain ⟨result, after, hrun⟩ : ∃ result after, broken.toDescription names = (result, after) :=
      ⟨_, _, rfl⟩
    rw [hrun] at hfails ⊢
    obtain rfl : result = .error (.invalidAmount (.ofInt (-1)) "gpus") := hfails
    rw [herror _ after hrun]

end DescriptionSettings

end Wharf
