import Mathlib.Data.List.Basic
import Wharf.Settings.Catalog

/-!
# What conversions leave behind

Declared amounts are converted one declaration after the other, and the names of consumables are
registered on the way. The first amount that cannot be converted ends it all.

* `DescriptionSettings.fault?` finds that amount, and `DescriptionSettings.toDescription_of_fault`
  and `toDescription_of_faultless` say what the conversion of one declaration does: with a fault it
  registers no name, without one it registers all.
* `ImplementationSettings.namesUntilFault` are the names that a list of implementations registers:
  those of the implementations before the first fault (`ImplementationSettings.convertAll_names`).
-/

namespace Wharf

namespace NameTable

variable {t : NameTable}

theorem mem_intern {name other : String} :
    other ∈ (t.intern name).2.names ↔ other ∈ t.names ∨ other = name := by
  unfold intern
  split
  · rename_i id hid
    have hname : name ∈ t.names := by
      rw [id?, List.idxOf?_eq_some_iff] at hid
      obtain ⟨hlt, hget, -⟩ := hid
      exact hget ▸ List.getElem_mem hlt
    constructor
    · exact .inl
    · rintro (h | rfl)
      · exact h
      · exact hname
  · simp

theorem intern_of_mem {name : String} (h : name ∈ t.names) : (t.intern name).2 = t := by
  unfold intern
  split
  · rfl
  · rename_i hnone
    rw [id?, List.idxOf?_eq_none_iff] at hnone
    exact absurd h hnone

theorem mem_internAll {names : List String} {other : String} :
    other ∈ (t.internAll names).2.names ↔ other ∈ t.names ∨ other ∈ names := by
  induction names generalizing t with
  | nil => simp [internAll]
  | cons name rest ih =>
    show other ∈ ((t.intern name).2.internAll rest).2.names ↔ _
    rw [ih, mem_intern, or_assoc, List.mem_cons]

theorem internAll_append (t : NameTable) (names more : List String) :
    (t.internAll (names ++ more)).2 = ((t.internAll names).2.internAll more).2 := by
  induction names generalizing t with
  | nil => rfl
  | cons name rest ih => exact ih (t.intern name).2

/-- Names leave no trace exactly when all of them are known. -/
theorem internAll_eq_iff {names : List String} :
    (t.internAll names).2 = t ↔ ∀ name ∈ names, name ∈ t.names := by
  constructor
  · intro h name hname
    rw [← h]
    exact mem_internAll.2 (.inr hname)
  · intro h
    induction names with
    | nil => rfl
    | cons name rest ih =>
      show ((t.intern name).2.internAll rest).2 = t
      rw [intern_of_mem (h name List.mem_cons_self)]
      exact ih fun other hother => h other (List.mem_cons_of_mem _ hother)

end NameTable

/-! ## One declaration -/

namespace DescriptionSettings

/-- The amounts that are declared, by name. -/
def amounts : DescriptionSettings → List (String × Binary64)
  | compute consumables _ _ => consumables
  | service .. => []

/-- What is wrong with an amount that cannot be converted. -/
def amountFault? (entry : String × Binary64) : Option SettingsError :=
  match Amount.ofBinary64? entry.2 with
  | none => some (.invalidAmount entry.2 entry.1)
  | some _ => none

/-- The fault that ends the conversion: the first amount that cannot be converted. -/
def fault? (s : DescriptionSettings) : Option SettingsError := s.amounts.findSome? amountFault?

/-- The names of the consumables. -/
def consumableNames (s : DescriptionSettings) : List String := s.amounts.map Prod.fst

/-- The amounts that the numbers of a faultless declaration are converted to. -/
def converted (s : DescriptionSettings) : List (String × Amount) :=
  s.amounts.map fun entry => (entry.1, (Amount.ofBinary64? entry.2).getD 0)

theorem convertAmounts_of_fault {entries : List (String × Binary64)} {e : SettingsError}
    (h : entries.findSome? amountFault? = some e) : convertAmounts entries = .error e := by
  induction entries with
  | nil => cases h
  | cons entry rest ih =>
    obtain ⟨name, x⟩ := entry
    rw [List.findSome?_cons] at h
    unfold convertAmounts
    cases hx : Amount.ofBinary64? x with
    | none =>
      simp only [amountFault?, hx] at h
      cases h
      rfl
    | some amount =>
      simp only [amountFault?, hx] at h
      simp only [ih h]
      rfl

theorem convertAmounts_of_faultless {entries : List (String × Binary64)}
    (h : entries.findSome? amountFault? = none) :
    convertAmounts entries =
      .ok (entries.map fun entry => (entry.1, (Amount.ofBinary64? entry.2).getD 0)) := by
  induction entries with
  | nil => rfl
  | cons entry rest ih =>
    obtain ⟨name, x⟩ := entry
    rw [List.findSome?_cons] at h
    cases hx : Amount.ofBinary64? x with
    | none => simp [amountFault?, hx] at h
    | some amount =>
      simp only [amountFault?, hx] at h
      simp only [convertAmounts, hx, ih h, List.map_cons]
      rfl

variable {s : DescriptionSettings}

/-- With a fault nothing is registered. -/
theorem toDescription_of_fault {e : SettingsError} (h : s.fault? = some e) (names : NameTable) :
    s.toDescription names = (.error e, names) := by
  cases s with
  | service name realm port connections => cases h
  | compute consumables architecture features =>
    have hconverted : convertAmounts consumables = .error e := convertAmounts_of_fault h
    simp only [toDescription, kind, toCompute, hconverted]
    rfl

theorem toCompute_of_faultless {consumables : List (String × Binary64)}
    {architecture : Option String} {features : List String}
    (h : (compute consumables architecture features).fault? = none) (names : NameTable) :
    let made := names.vector (compute consumables architecture features).converted
    (compute consumables architecture features).toCompute names =
      (.ok ⟨made.1, architecture, .ofList features⟩, made.2) := by
  have hconverted : convertAmounts consumables = .ok _ := convertAmounts_of_faultless h
  simp only [toCompute, hconverted]
  rfl

/-- A vector of the converted amounts registers the names of the consumables. -/
theorem snd_vector_converted (s : DescriptionSettings) (names : NameTable) :
    (names.vector s.converted).2 = (names.internAll s.consumableNames).2 := by
  have hnames : s.converted.map Prod.fst = s.consumableNames := by
    rw [converted, consumableNames, List.map_map]
    rfl
  rw [← hnames]
  rfl

/-- Without a fault all names are registered. -/
theorem toDescription_of_faultless (h : s.fault? = none) (names : NameTable) :
    ∃ description, s.toDescription names =
      (.ok description, (names.internAll s.consumableNames).2) := by
  cases s with
  | service name realm port connections => exact ⟨_, rfl⟩
  | compute consumables architecture features =>
    simp only [toDescription, kind, toCompute_of_faultless h]
    exact ⟨_, congrArg _ (snd_vector_converted _ names)⟩

end DescriptionSettings

/-! ## A list of implementations -/

namespace ImplementationSettings

/-- The fault of the requirements. -/
def fault? (i : ImplementationSettings) : Option SettingsError := i.requirements.fault?

/-- The names that are registered before the first fault ends the conversion. -/
def namesUntilFault (implementations : List ImplementationSettings) : List String :=
  (implementations.takeWhile fun i => i.fault?.isNone).flatMap fun i =>
    i.requirements.consumableNames

variable {i : ImplementationSettings} {rest implementations more : List ImplementationSettings}

theorem namesUntilFault_cons_of_fault {e : SettingsError} (h : i.fault? = some e) :
    namesUntilFault (i :: rest) = [] := by
  simp [namesUntilFault, h]

theorem namesUntilFault_cons_of_faultless (h : i.fault? = none) :
    namesUntilFault (i :: rest) = i.requirements.consumableNames ++ namesUntilFault rest := by
  simp [namesUntilFault, h]

/-- A fault ends it for all that comes behind. -/
theorem namesUntilFault_append_of_fault {e : SettingsError}
    (h : implementations.findSome? fault? = some e) :
    namesUntilFault (implementations ++ more) = namesUntilFault implementations := by
  induction implementations with
  | nil => cases h
  | cons i rest ih =>
    rw [List.findSome?_cons] at h
    rw [List.cons_append]
    cases hi : i.fault? with
    | some e' => rw [namesUntilFault_cons_of_fault hi, namesUntilFault_cons_of_fault hi]
    | none =>
      simp only [hi] at h
      rw [namesUntilFault_cons_of_faultless hi, namesUntilFault_cons_of_faultless hi, ih h]

theorem namesUntilFault_append_of_faultless (h : implementations.findSome? fault? = none) :
    namesUntilFault (implementations ++ more) =
      namesUntilFault implementations ++ namesUntilFault more := by
  induction implementations with
  | nil => rfl
  | cons i rest ih =>
    rw [List.findSome?_cons] at h
    cases hi : i.fault? with
    | some e' => simp [hi] at h
    | none =>
      simp only [hi] at h
      rw [List.cons_append, namesUntilFault_cons_of_faultless hi,
        namesUntilFault_cons_of_faultless hi, ih h, List.append_assoc]

theorem convertAll_cons_of_fault {e : SettingsError} (h : i.fault? = some e) (names : NameTable) :
    convertAll names (i :: rest) = (.error e, names) := by
  rw [convertAll, DescriptionSettings.toDescription_of_fault h names]

/-- The head of the list is converted with the table as it is, the rest with its names in the
table. -/
theorem convertAll_cons_of_faultless (h : i.fault? = none) (rest : List ImplementationSettings)
    (names : NameTable) :
    ∃ description,
      let later := convertAll (names.internAll i.requirements.consumableNames).2 rest
      convertAll names (i :: rest) =
        (later.1.map fun others => (i.signature, description) :: others, later.2) := by
  obtain ⟨description, hdescription⟩ :=
    DescriptionSettings.toDescription_of_faultless h names
  refine ⟨description, ?_⟩
  rw [convertAll, hdescription]

/-- The names of the implementations before the first fault are registered. -/
theorem convertAll_names (names : NameTable) (implementations : List ImplementationSettings) :
    (convertAll names implementations).2 =
      (names.internAll (namesUntilFault implementations)).2 := by
  induction implementations generalizing names with
  | nil => rfl
  | cons i rest ih =>
    cases hi : i.fault? with
    | some e =>
      rw [convertAll_cons_of_fault hi, namesUntilFault_cons_of_fault hi]
      rfl
    | none =>
      obtain ⟨description, hcons⟩ := convertAll_cons_of_faultless hi rest names
      rw [hcons, namesUntilFault_cons_of_faultless hi, NameTable.internAll_append]
      exact ih _

theorem convertAll_of_fault {e : SettingsError} (h : implementations.findSome? fault? = some e)
    (names : NameTable) : (convertAll names implementations).1 = .error e := by
  induction implementations generalizing names with
  | nil => cases h
  | cons i rest ih =>
    rw [List.findSome?_cons] at h
    cases hi : i.fault? with
    | some e' =>
      simp only [hi] at h
      cases h
      rw [convertAll_cons_of_fault hi]
    | none =>
      simp only [hi] at h
      obtain ⟨description, hcons⟩ := convertAll_cons_of_faultless hi rest names
      rw [hcons, ih h]
      rfl

/-- Without a fault each implementation keeps its signature and its place. -/
theorem convertAll_of_faultless (h : implementations.findSome? fault? = none)
    (names : NameTable) :
    ∃ converted, (convertAll names implementations).1 = .ok converted ∧
      converted.map Prod.fst = implementations.map signature := by
  induction implementations generalizing names with
  | nil => exact ⟨[], rfl, rfl⟩
  | cons i rest ih =>
    rw [List.findSome?_cons] at h
    cases hi : i.fault? with
    | some e' => simp [hi] at h
    | none =>
      simp only [hi] at h
      obtain ⟨description, hcons⟩ := convertAll_cons_of_faultless hi rest names
      obtain ⟨converted, hconverted, hsignatures⟩ := ih h _
      refine ⟨(i.signature, description) :: converted, ?_, by simp [hsignatures]⟩
      rw [hcons, hconverted]
      rfl

end ImplementationSettings

end Wharf
