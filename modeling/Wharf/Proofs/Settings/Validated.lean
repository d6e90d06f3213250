import Wharf.Proofs.Catalog.FirstDefinitions
import Wharf.Proofs.Settings.Matching
import Wharf.Proofs.Settings.Registration

/-!
# Registrations of checked settings

Settings that pass their check are registered to the end: the check refuses whatever a conversion
would stumble over.

* `CatalogSettings.faultless_of_check`: there is no fault in settings that pass.
* A declaration means the same in every table that has its names
  (`DescriptionSettings.toDescription_of_extendedBy`), so what the catalog knows afterwards can be
  told from the settings and the table at the end (`CatalogSettings.requirements?_registerCores`).
* `CatalogSettings.registerIn_of_check` puts it together: the report is exact, everything listed is
  there, and to register the settings again leaves no trace.
-/

namespace Wharf

/-! ## What a check refuses -/

theorem forM_eq_ok_iff {α ε : Type} {xs : List α} {f : α → Except ε Unit} :
    xs.forM f = .ok () ↔ ∀ x ∈ xs, f x = .ok () := by
  induction xs with
  | nil => exact iff_of_true rfl (List.forall_mem_nil _)
  | cons x rest ih =>
    rw [List.forall_mem_cons, ← ih]
    show (f x >>= fun _ => rest.forM f) = .ok () ↔ _
    cases f x <;> simp [bind, Except.bind]

theorem DescriptionSettings.faultless_of_check {s : DescriptionSettings} {allowZero : Bool}
    (h : s.check allowZero = .ok ()) : s.fault? = none := by
  rw [fault?_eq_none_iff]
  cases s with
  | service name realm port connections => simp [amounts]
  | compute consumables architecture features =>
    intro entry hentry
    have hamount := forM_eq_ok_iff.1 h entry hentry
    unfold checkAmount at hamount
    cases hx : Amount.ofBinary64? entry.2 with
    | some amount => rfl
    | none =>
      rw [hx] at hamount
      split at hamount <;> cases hamount

theorem CoreSettings.faultless_of_check {core : CoreSettings} (h : core.check = .ok ()) :
    core.fault? = none := by
  unfold check at h
  split at h
  · cases h
  · rw [fault?, List.findSome?_eq_none_iff]
    intro i hi
    have hcheck := forM_eq_ok_iff.1 h i hi
    split at hcheck
    · cases hcheck
    · exact DescriptionSettings.faultless_of_check hcheck

theorem CatalogSettings.faultless_of_check {s : CatalogSettings} (h : s.check = .ok ()) :
    ∀ core ∈ s.cores, core.fault? = none :=
  fun core hcore => CoreSettings.faultless_of_check (forM_eq_ok_iff.1 h core hcore)

/-! ## What declarations mean later -/

namespace DescriptionSettings

variable {s : DescriptionSettings} {names names' t : NameTable} {description : Description}

theorem Yields.unique {d e : ComputeDescription} (h : s.Yields t d) (h' : s.Yields t e) :
    d = e := by
  obtain ⟨harchitecture, hfeatures⟩ := h.statics_eq h'
  have hconsumables := h.reads.eq h'.reads
  cases d
  cases e
  simp_all

theorem IsConvertible.toDescription_eq (h : s.IsConvertible) (names : NameTable) :
    s.toDescription names =
      ((s.toCompute names).1.map .compute, (names.internAll s.consumableNames).2) := by
  obtain ⟨d, hd, -⟩ := h.yields_toCompute names
  simp only [toDescription, h.kind_eq, hd]

/-- **A declaration means the same in every later table**, and adds no names to it. -/
theorem toDescription_of_extendedBy
    (h : s.toDescription names = (.ok description, names')) (hext : names'.ExtendedBy t) :
    s.toDescription t = (.ok description, t) := by
  have hfault : s.fault? = none := by
    by_contra hne
    obtain ⟨e, he⟩ := Option.ne_none_iff_exists'.1 hne
    rw [toDescription_of_fault he] at h
    cases h
  cases hkind : s.kind with
  | service =>
    simp only [toDescription, hkind, Prod.mk.injEq, and_true] at h ⊢
    exact h.1
  | compute =>
    have hs : s.IsConvertible := ⟨hkind, fault?_eq_none_iff.1 hfault⟩
    obtain ⟨d, hd, hyields⟩ := hs.yields_toCompute names
    obtain ⟨e, he, hyields'⟩ := hs.yields_toCompute t
    rw [hs.toDescription_eq, hd] at h
    obtain ⟨hdescription, htable⟩ := Prod.mk.inj h
    -- All names are known to the later table, which stays as it is.
    have hknown : (t.internAll s.consumableNames).2 = t := by
      refine NameTable.internAll_eq_iff.2 fun name hname => ?_
      rw [← htable] at hext
      exact hext.subset (NameTable.mem_internAll.2 (.inr hname))
    have heq : d = e := by
      refine (hyields t (htable ▸ hext)).unique (hyields' t ?_)
      rw [hknown]
      exact .refl t
    rw [hs.toDescription_eq, he, hknown, ← heq, hdescription]

end DescriptionSettings

namespace ImplementationSettings

/-- What an implementation needs, by its signature: of two definitions the first one counts. -/
def first? (implementations : List ImplementationSettings) (signature : String) :
    Option DescriptionSettings :=
  (implementations.find? fun i => i.signature == signature).map requirements

theorem extendedBy_convertAll (names : NameTable) (implementations : List ImplementationSettings) :
    names.ExtendedBy (convertAll names implementations).2 := by
  rw [convertAll_names]
  exact names.extendedBy_internAll _

/-- The converted requirements are those of the first definition, converted at any later time. -/
theorem lookup_convertAll {implementations : List ImplementationSettings}
    {names names' t : NameTable} {converted : List (String × Description)}
    (h : convertAll names implementations = (.ok converted, names')) (hext : names'.ExtendedBy t)
    (signature : String) :
    (converted.lookup signature).map Except.ok =
      (first? implementations signature).map fun s => (s.toDescription t).1 := by
  induction implementations generalizing names converted with
  | nil =>
    cases h
    rfl
  | cons i rest ih =>
    unfold convertAll at h
    split at h
    · cases h
    · rename_i description later hdescription
      obtain ⟨hconverted, hnames⟩ := Prod.mk.inj h
      have hlater : later.ExtendedBy t := (extendedBy_convertAll later rest).trans (hnames ▸ hext)
      cases hothers : (convertAll later rest).1 with
      | error e =>
        rw [hothers] at hconverted
        cases hconverted
      | ok others =>
        rw [hothers] at hconverted
        cases hconverted
        have hmeans := DescriptionSettings.toDescription_of_extendedBy hdescription hlater
        by_cases heq : signature = i.signature
        · simp [first?, heq, hmeans]
        · have hrest := ih (Prod.ext hothers hnames)
          simpa [first?, List.lookup_cons, beq_false_of_ne heq, Ne.symm heq] using hrest

end ImplementationSettings

/-! ## What is known afterwards -/

namespace Catalog

variable {c d : Catalog}

theorem Lists.mono {core : CoreSettings} (h : c.Lists core) (hextends : c.ExtendedBy d) :
    d.Lists core := by
  obtain ⟨known, hknown, hsignature, hknows⟩ := h
  obtain ⟨grown, hgrown, hcore⟩ := hextends known.id known hknown
  exact ⟨grown, by rw [hcore.id_eq, hgrown], hcore.signature_eq.trans hsignature,
    fun i hi => hcore.knows (hknows i hi)⟩

/-- A core of an extended catalog differs when it is new or has new implementations. -/
theorem ExtendedBy.core?_ne_iff_implementationsOf (h : c.ExtendedBy d) (id : Nat) :
    d.core? id ≠ c.core? id ↔
      (c.size ≤ id ∧ id < d.size) ∨ d.implementationsOf id ≠ c.implementationsOf id := by
  cases hcore : c.core? id with
  | none =>
    have hle : c.size ≤ id := List.getElem?_eq_none_iff.1 hcore
    have hnew : d.core? id ≠ none ↔ id < d.size := by
      rw [core?, Ne, List.getElem?_eq_none_iff, Nat.not_le, size]
    rw [hnew]
    constructor
    · exact fun hlt => .inl ⟨hle, hlt⟩
    · rintro (⟨-, hlt⟩ | hne)
      · exact hlt
      · refine lt_size_of_implementationsOf_ne_nil fun hnil => hne ?_
        rw [hnil, Catalog.implementationsOf, hcore]
  | some core =>
    obtain ⟨grown, hgrown, hextends⟩ := h id core hcore
    have hlt : id < c.size := (List.getElem?_eq_some_iff.1 hcore).1
    have hlists : d.implementationsOf id = c.implementationsOf id ↔ grown = core := by
      rw [Catalog.implementationsOf, Catalog.implementationsOf, hgrown, hcore]
      exact ⟨fun heq => hextends.eq_of_length_eq (congrArg List.length heq),
        fun heq => congrArg Core.implementations heq⟩
    rw [hgrown, Ne, Ne, hlists, Option.some.injEq]
    constructor
    · exact .inr
    · rintro (⟨hle, -⟩ | hne)
      · omega
      · exact hne

end Catalog

namespace CatalogSettings

/-- The first definition of an implementation, by the signatures of the core and its own. -/
def first? (s : CatalogSettings) (core signature : String) : Option DescriptionSettings :=
  ImplementationSettings.first?
    ((s.cores.filter fun other => other.signature == core).flatMap CoreSettings.implementations)
    signature

theorem first?_cons (head : CoreSettings) (rest : List CoreSettings) (core signature : String) :
    first? ⟨head :: rest⟩ core signature =
      (if core = head.signature then ImplementationSettings.first? head.implementations signature
        else none).or (first? ⟨rest⟩ core signature) := by
  by_cases heq : core = head.signature
  · simp [first?, ImplementationSettings.first?, heq, Option.map_or]
  · simp [first?, ImplementationSettings.first?, heq, Ne.symm heq]

theorem extendedBy_names_registerCores (c : Catalog) (names : NameTable) (before : List Nat)
    (cores : List CoreSettings) : names.ExtendedBy (registerCores c names before cores).names := by
  rw [names_registerCores]
  exact names.extendedBy_internAll _

/-- **What was known stays, and for the rest the first definition counts.** -/
theorem requirements?_registerCores {c : Catalog} (hc : c.Produced) {cores : List CoreSettings}
    (h : ∀ core ∈ cores, core.fault? = none) (names : NameTable) (before : List Nat)
    (core signature : String) :
    let r := registerCores c names before cores
    (r.catalog.requirements? core signature).map Except.ok =
      ((c.requirements? core signature).map Except.ok).or
        ((first? ⟨cores⟩ core signature).map fun s => (s.toDescription r.names).1) := by
  induction cores generalizing c names before with
  | nil => exact Option.or_none.symm
  | cons head rest ih =>
    rw [List.forall_mem_cons] at h
    obtain ⟨implementations, names', hconverted, -⟩ :=
      CoreSettings.convertAll_of_faultless h.1 names
    rw [registerCores_cons_of_ok hconverted]
    intro r
    have hnames : names'.ExtendedBy r.names := extendedBy_names_registerCores _ names' _ rest
    have hlookup := ImplementationSettings.lookup_convertAll hconverted hnames signature
    rw [ih (hc.register head.signature implementations) h.2, hc.requirements?_register,
      Option.map_or, Option.or_assoc, first?_cons, Option.map_or]
    congr 2
    split
    · exact hlookup
    · rfl

theorem lists_registerCores {c : Catalog} (hc : c.Produced) {cores : List CoreSettings}
    (h : ∀ core ∈ cores, core.fault? = none) (names : NameTable) (before : List Nat) :
    ∀ core ∈ cores, (registerCores c names before cores).catalog.Lists core := by
  induction cores generalizing c names before with
  | nil => exact List.forall_mem_nil _
  | cons head rest ih =>
    rw [List.forall_mem_cons] at h ⊢
    obtain ⟨implementations, names', hconverted, hsignatures⟩ :=
      CoreSettings.convertAll_of_faultless h.1 names
    have hregistered := hc.register head.signature implementations
    rw [registerCores_cons_of_ok hconverted]
    refine ⟨?_, ih hregistered h.2 _ _⟩
    -- What the head lists is there as soon as it is registered, and the rest only adds to it.
    obtain ⟨known, hknown, hsignature, hknows, -⟩ :=
      hc.isNumbered.dense.register_reports head.signature implementations
    have hlists : (c.register head.signature implementations).catalog.Lists head :=
      ⟨known, hknown, hsignature, (known.knows_converted_iff hsignatures).1 hknows⟩
    exact hlists.mono (extendedBy_registerCores hregistered _ _ rest)

theorem nodup_registerCores {c : Catalog} {names : NameTable} {before after : List Nat}
    {cores : List CoreSettings} (hbefore : before.Nodup)
    (h : (registerCores c names before cores).outcome = .ok after) : after.Nodup := by
  induction cores generalizing c names before with
  | nil =>
    cases h
    exact hbefore
  | cons core rest ih =>
    unfold registerCores at h
    split at h
    · cases h
    · exact ih (nodup_foldl_append_missing hbefore) h

/-- Settings without anything new leave everything as it is. -/
theorem registerIn_of_lists {c : Catalog} (hc : c.Produced) {s : CatalogSettings}
    (h : ∀ core ∈ s.cores, core.fault? = none) (hlists : ∀ core ∈ s.cores, c.Lists core)
    {names : NameTable} (hknown : ∀ name ∈ s.namesUntilFault, name ∈ names.names) :
    s.registerIn c names = ⟨c, names, .ok []⟩ := by
  have hcatalog : (s.registerIn c names).catalog = c := (registerCores_eq_iff hc h).2 hlists
  have hnames : (s.registerIn c names).names = names := by
    rw [registerIn, names_registerCores, NameTable.internAll_eq_iff]
    exact hknown
  obtain ⟨changed, hok⟩ :=
    outcome_registerCores_of_faultless (List.findSome?_eq_none_iff.2 h) c names []
  have hnothing : changed = [] := by
    refine List.eq_nil_iff_forall_not_mem.2 fun id hid => ?_
    exact (mem_changed_iff hc hok id).1 hid (by rw [hcatalog])
  have houtcome : (s.registerIn c names).outcome = .ok [] := hnothing ▸ hok
  generalize s.registerIn c names = r at hcatalog hnames houtcome ⊢
  obtain ⟨catalog, table, outcome⟩ := r
  exact congr (congrArg₂ Registration.mk hcatalog hnames) houtcome

/-- **Checked settings are registered exactly, and once is enough.** Whatever is known before, the
registration gets through. It reports each core once that is new or has new implementations, and no
other. Every listed core is there afterwards with all its implementations. What an implementation
needs is what was known of its signature, or else what its first definition says. A second
registration reports nothing and changes neither the catalog nor the names. -/
theorem registerIn_of_check {c : Catalog} (hc : c.Produced) {s : CatalogSettings}
    (hs : s.check = .ok ()) (names : NameTable) :
    let r := s.registerIn c names
    ∃ changed, r.outcome = .ok changed ∧ changed.Nodup ∧
      (∀ id, id ∈ changed ↔ (c.size ≤ id ∧ id < r.catalog.size) ∨
        r.catalog.implementationsOf id ≠ c.implementationsOf id) ∧
      (∀ core ∈ s.cores, r.catalog.Lists core) ∧
      (∀ core signature, r.catalog.requirements? core signature =
        (c.requirements? core signature).or
          ((s.first? core signature).bind fun d => (d.toDescription r.names).1.toOption)) ∧
      s.registerIn r.catalog r.names = ⟨r.catalog, r.names, .ok []⟩ := by
  intro r
  have hfaultless := faultless_of_check hs
  obtain ⟨changed, hok⟩ :=
    outcome_registerCores_of_faultless (List.findSome?_eq_none_iff.2 hfaultless) c names []
  have hlists : ∀ core ∈ s.cores, r.catalog.Lists core :=
    lists_registerCores hc hfaultless names []
  refine ⟨changed, hok, nodup_registerCores List.nodup_nil hok, fun id => ?_, hlists,
    fun core signature => ?_, ?_⟩
  · rw [mem_changed_iff hc hok, (extendedBy_registerIn hc s names).core?_ne_iff_implementationsOf]
  · -- The conversions at the end succeed, so they may be read as options.
    have hmap : (r.catalog.requirements? core signature).map Except.ok =
        ((c.requirements? core signature).map Except.ok).or
          ((s.first? core signature).map fun d => (d.toDescription r.names).1) :=
      requirements?_registerCores hc hfaultless names [] core signature
    have hread := congrArg (Option.bind · Except.toOption) hmap
    cases hknown : c.requirements? core signature <;>
      simpa [hknown, Option.bind_map, Function.comp_def, Except.toOption] using hread
  · refine registerIn_of_lists (hc.registerIn s names) hfaultless hlists fun name hname => ?_
    rw [show r.names = _ from names_registerCores c names [] s.cores, NameTable.mem_internAll]
    exact .inr hname

/-- A core is known with one implementation. The settings list it twice, with that implementation
under other requirements and with another one twice, and a new core with a new consumable. The core
is reported once, its first implementation needs what it needed, and the other one what is said
first. -/
theorem registerIn_of_check_repeated :
    let demand (name : String) (count : Int) : DescriptionSettings :=
      .compute [(name, .ofInt count)] none []
    let need (id count : Nat) : Description :=
      .compute ⟨.ofAmounts [(id, .saturating count)], none, .none⟩
    let known := Catalog.empty.register "sort" [("one", need 0 7)]
    let s : CatalogSettings :=
      ⟨[⟨"sort", [⟨"one", demand "cpus" 1⟩, ⟨"two", demand "cpus" 2⟩]⟩,
        ⟨"rank", [⟨"one", demand "fpgas" 0⟩]⟩, ⟨"sort", [⟨"two", demand "fpgas" 3⟩]⟩]⟩
    let r := s.registerIn known.catalog .standard
    s.check = .ok () ∧ r.outcome = .ok [0, 1] ∧ (∀ core ∈ s.cores, r.catalog.Lists core) ∧
      r.catalog.requirements? "sort" "one" = some (need 0 7) ∧
      r.catalog.requirements? "sort" "two" = some (need 0 20000) ∧
      s.registerIn r.catalog r.names = ⟨r.catalog, r.names, .ok []⟩ := by
  intro demand need known s r
  have produced : known.catalog.Produced := .register .empty _ _
  have checked : s.check = .ok () := by decide +kernel
  obtain ⟨_, -, -, -, hlists, hfirst, hagain⟩ :=
    registerIn_of_check produced checked .standard
  refine ⟨checked, by decide +kernel, hlists, ?_, ?_, hagain⟩
  · rw [hfirst]
    decide +kernel
  · rw [hfirst]
    decide +kernel

end CatalogSettings

end Wharf
