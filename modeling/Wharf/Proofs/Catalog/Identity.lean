import Mathlib.Data.List.Nodup
import Wharf.Proofs.Catalog.Numbering

/-!
# Ids for good

Cores and implementations are told apart by their signatures and named by their ids, and whoever
keeps an id relies on what it stands for.

* `Catalog.IsDense.register_cases` is all that a registration can do: nothing at all, let a known
  core grow, or add a core behind the others.
* `Catalog.IsDistinct`: no signature is given out twice, neither among the cores nor among the
  implementations of a core.
* `Catalog.ExtendedBy`: the cores of a catalog are cores of another under the same ids, with the
  same signatures, and keep their implementations. Registrations only ever extend
  (`Catalog.IsDense.extendedBy_registerAll`), and so does every history
  (`Catalog.History.extendedBy`), whose catalogs extend each other in the order of their versions
  (`Catalog.History.extendedBy_of_version_le`).
* `Catalog.ids_stable` puts these together for any sequence of registrations, with what each of them
  reports.
-/

namespace Wharf

/-! ### Extension of a core -/

namespace Core

variable {c d e : Core}

/-- `d` is the core `c`, perhaps with more implementations. -/
structure ExtendedBy (c d : Core) : Prop where
  id_eq : d.id = c.id
  signature_eq : d.signature = c.signature
  implementations : c.implementations <+: d.implementations

namespace ExtendedBy

theorem refl (c : Core) : c.ExtendedBy c := ⟨rfl, rfl, List.prefix_refl _⟩

theorem trans (h : c.ExtendedBy d) (h' : d.ExtendedBy e) : c.ExtendedBy e where
  id_eq := h'.id_eq.trans h.id_eq
  signature_eq := h'.signature_eq.trans h.signature_eq
  implementations := h.implementations.trans h'.implementations

/-- A core that has not grown in length has not changed. -/
theorem eq_of_length_eq (h : c.ExtendedBy d)
    (hlength : d.implementations.length = c.implementations.length) : d = c := by
  have himplementations := h.implementations.eq_of_length hlength.symm
  obtain ⟨hid, hsignature, -⟩ := h
  cases c
  cases d
  simp_all

end ExtendedBy

theorem extendedBy_add (c : Core) (signature : String) (requirements : Description) :
    c.ExtendedBy (c.add signature requirements) := by
  unfold add
  split
  · exact .refl c
  · exact ⟨rfl, rfl, List.prefix_append _ _⟩

theorem extendedBy_addAll (c : Core) (implementations : List (String × Description)) :
    c.ExtendedBy (c.addAll implementations) := by
  unfold addAll
  induction implementations generalizing c with
  | nil => exact .refl c
  | cons i rest ih => exact (c.extendedBy_add i.1 i.2).trans (ih _)

/-! ### Signatures of the implementations -/

/-- No two implementations have one signature. -/
def IsDistinct (c : Core) : Prop := (c.implementations.map Implementation.signature).Nodup

theorem isDistinct_new (id : Nat) (signature : String) : IsDistinct ⟨id, signature, []⟩ :=
  List.nodup_nil

theorem knows_iff {signature : String} :
    c.knows signature = true ↔ signature ∈ c.implementations.map Implementation.signature := by
  simp [knows, List.any_eq_true]

theorem ExtendedBy.knows (h : c.ExtendedBy d) {signature : String}
    (hc : c.knows signature = true) : d.knows signature = true := by
  rw [knows_iff] at hc ⊢
  exact (h.implementations.map _).subset hc

theorem IsDistinct.add (h : c.IsDistinct) (signature : String) (requirements : Description) :
    (c.add signature requirements).IsDistinct := by
  unfold Core.add
  split
  · exact h
  · rename_i hknown
    rw [knows_iff] at hknown
    unfold IsDistinct
    rw [List.map_append, List.nodup_append]
    refine ⟨h, List.nodup_singleton _, ?_⟩
    rintro known hmem _ hnew rfl
    rw [List.map_singleton, List.mem_singleton] at hnew
    rw [hnew] at hmem
    exact hknown hmem

theorem IsDistinct.addAll (h : c.IsDistinct) (implementations : List (String × Description)) :
    (c.addAll implementations).IsDistinct := by
  unfold Core.addAll
  induction implementations generalizing c with
  | nil => exact h
  | cons i rest ih => exact ih (h.add i.1 i.2)

theorem knows_add (c : Core) (signature : String) (requirements : Description) :
    (c.add signature requirements).knows signature = true := by
  unfold add
  split
  · assumption
  · simp [knows]

/-- Whatever is added is known afterwards. -/
theorem knows_addAll (c : Core) {implementations : List (String × Description)}
    {i : String × Description} (hi : i ∈ implementations) :
    (c.addAll implementations).knows i.1 = true := by
  induction implementations generalizing c with
  | nil => cases hi
  | cons first rest ih =>
    rcases List.mem_cons.1 hi with rfl | hrest
    · exact (extendedBy_addAll _ rest).knows (c.knows_add i.1 i.2)
    · exact ih (c.add first.1 first.2) hrest

end Core

namespace Catalog

variable {c d e : Catalog}

/-! ### What a registration does -/

/-- **All that a registration can do**: leave the catalog as it is, let a known core grow, or add a
core of a new signature behind the others. -/
theorem IsDense.register_cases (h : c.IsDense) (signature : String)
    (implementations : List (String × Description)) :
    (∃ core, c.core? core.id = some core ∧ core.signature = signature ∧
      ((core.addAll implementations = core ∧ c.register signature implementations = ⟨c, []⟩) ∨
        (core.addAll implementations ≠ core ∧ c.register signature implementations =
          ⟨⟨c.version + 1, c.cores.set core.id (core.addAll implementations)⟩, [core.id]⟩))) ∨
    ((∀ core ∈ c.cores, core.signature ≠ signature) ∧ c.register signature implementations =
      ⟨⟨c.version + 1, c.cores ++ [Core.addAll ⟨c.size, signature, []⟩ implementations]⟩,
        [c.size]⟩) := by
  cases hfind : c.cores.find? (fun core => core.signature == signature) with
  | none =>
    refine .inr ⟨fun core hcore hsignature => ?_, by simp [register, find?, hfind]⟩
    have := List.find?_eq_none.1 hfind core hcore
    simp [hsignature] at this
  | some core =>
    have hsignature : core.signature = signature := by
      simpa using List.find?_some hfind
    obtain ⟨id, hid⟩ := List.mem_iff_getElem?.1 (List.mem_of_find?_eq_some hfind)
    have hcore : c.core? core.id = some core := by
      rw [h id core hid]
      exact hid
    refine .inl ⟨core, hcore, hsignature, ?_⟩
    simp only [register, find?, hfind, Option.map_some, hcore]
    split
    · rename_i hlength
      exact .inl ⟨(core.extendedBy_addAll implementations).eq_of_length_eq hlength, rfl⟩
    · rename_i hlength
      exact .inr ⟨fun heq => hlength (by rw [heq]), rfl⟩

/-- A sequence of registrations, each with the signature of a core and its implementations. -/
def registerAll (c : Catalog) (calls : List (String × List (String × Description))) : Catalog :=
  calls.foldl (fun c call => (c.register call.1 call.2).catalog) c

/-- What every single registration keeps is kept by all of them together. -/
theorem registerAll_induction {P : Catalog → Prop}
    (step : ∀ c signature implementations, P c → P (c.register signature implementations).catalog)
    (h : P c) (calls : List (String × List (String × Description))) : P (c.registerAll calls) := by
  induction calls generalizing c with
  | nil => exact h
  | cons call rest ih => exact ih (step c call.1 call.2 h)

theorem Produced.registerAll (h : c.Produced)
    (calls : List (String × List (String × Description))) : (c.registerAll calls).Produced :=
  registerAll_induction (fun _ signature implementations h => h.register signature implementations)
    h calls

/-! ### Signatures of the cores -/

/-- No signature is given out twice, neither to cores nor to the implementations of one core. -/
structure IsDistinct (c : Catalog) : Prop where
  cores : (c.cores.map Core.signature).Nodup
  implementations : ∀ core ∈ c.cores, core.IsDistinct

theorem isDistinct_empty : empty.IsDistinct where
  cores := List.nodup_nil
  implementations _ h := by cases h

/-- To put a grown core in its own place changes no signature of a core. -/
theorem map_signature_set {core grown : Core} (hcore : c.core? core.id = some core)
    (hgrown : core.ExtendedBy grown) :
    (c.cores.set core.id grown).map Core.signature = c.cores.map Core.signature := by
  have hsame : (c.cores.map Core.signature)[core.id]? = some grown.signature := by
    rw [hgrown.signature_eq, List.getElem?_map]
    exact congrArg (Option.map Core.signature) hcore
  obtain ⟨hlt, hget⟩ := List.getElem?_eq_some_iff.1 hsame
  rw [List.map_set, ← hget, List.set_getElem_self]

theorem IsDistinct.register (h : c.IsDistinct) (hdense : c.IsDense) (signature : String)
    (implementations : List (String × Description)) :
    (c.register signature implementations).catalog.IsDistinct := by
  rcases hdense.register_cases signature implementations with
    ⟨core, hcore, -, ⟨-, heq⟩ | ⟨-, heq⟩⟩ | ⟨hnew, heq⟩
  · rw [heq]
    exact h
  · rw [heq]
    constructor
    · dsimp only
      rw [map_signature_set hcore (core.extendedBy_addAll implementations)]
      exact h.cores
    · intro other hother
      rcases List.mem_or_eq_of_mem_set hother with hold | rfl
      · exact h.implementations other hold
      · exact (h.implementations core (List.mem_of_getElem? hcore)).addAll implementations
  · rw [heq]
    constructor
    · dsimp only
      rw [List.map_append, List.nodup_append]
      refine ⟨h.cores, List.nodup_singleton _, ?_⟩
      rintro known hmem _ hadded rfl
      obtain ⟨core, hcore, rfl⟩ := List.mem_map.1 hmem
      rw [List.map_singleton, List.mem_singleton, (Core.extendedBy_addAll _ _).signature_eq]
        at hadded
      exact hnew core hcore hadded
    · intro other hother
      rcases List.mem_append.1 hother with hold | hadded
      · exact h.implementations other hold
      · rw [List.mem_singleton.1 hadded]
        exact (Core.isDistinct_new _ _).addAll implementations

theorem Produced.isDistinct (h : c.Produced) : c.IsDistinct := by
  induction h with
  | empty => exact isDistinct_empty
  | register h signature implementations ih =>
    exact ih.register h.isNumbered.dense signature implementations

/-- A signature leads to the one core that has it. -/
theorem IsDistinct.find?_eq_some_iff (h : c.IsDistinct) (hdense : c.IsDense) {signature : String}
    {id : Nat} : c.find? signature = some id ↔
      ∃ core, c.core? id = some core ∧ core.signature = signature := by
  unfold find?
  constructor
  · intro hfind
    obtain ⟨core, hfound, rfl⟩ := Option.map_eq_some_iff.1 hfind
    obtain ⟨place, hplace⟩ := List.mem_iff_getElem?.1 (List.mem_of_find?_eq_some hfound)
    refine ⟨core, ?_, by simpa using List.find?_some hfound⟩
    rw [hdense place core hplace]
    exact hplace
  · rintro ⟨core, hcore, rfl⟩
    obtain ⟨hlt, hget⟩ := List.getElem?_eq_some_iff.1 hcore
    -- No core before this one has its signature.
    have hfound : c.cores.find? (fun other => other.signature == core.signature) = some core := by
      rw [List.find?_eq_some_iff_getElem]
      refine ⟨by simp, id, hlt, hget, fun j hj => ?_⟩
      have hne := List.pairwise_iff_getElem.1 h.cores j id (by rw [List.length_map]; omega)
        (by rw [List.length_map]; exact hlt) hj
      rw [List.getElem_map, List.getElem_map, hget] at hne
      simpa using hne
    rw [hfound, Option.map_some, hdense id core hcore]

/-- The implementations that are found for an id have signatures of their own. -/
theorem IsDistinct.implementationsOf (h : c.IsDistinct) (id : Nat) :
    ((c.implementationsOf id).map Implementation.signature).Nodup := by
  unfold Catalog.implementationsOf
  split
  · rename_i core hcore
    exact h.implementations core (List.mem_of_getElem? hcore)
  · exact List.nodup_nil

/-- Only a core that is there has implementations. -/
theorem lt_size_of_implementationsOf_ne_nil {id : Nat} (h : c.implementationsOf id ≠ []) :
    id < c.size := by
  by_contra hle
  refine h ?_
  rw [Catalog.implementationsOf, core?, List.getElem?_eq_none (Nat.le_of_not_lt hle)]

/-! ### Extension of a catalog -/

/-- Every core of `c` is a core of `d` under the same id, perhaps with more implementations. -/
def ExtendedBy (c d : Catalog) : Prop :=
  ∀ id core, c.core? id = some core → ∃ grown, d.core? id = some grown ∧ core.ExtendedBy grown

namespace ExtendedBy

theorem refl (c : Catalog) : c.ExtendedBy c := fun _ core h => ⟨core, h, .refl core⟩

theorem trans (h : c.ExtendedBy d) (h' : d.ExtendedBy e) : c.ExtendedBy e := by
  intro id core hcore
  obtain ⟨grown, hgrown, hextends⟩ := h id core hcore
  obtain ⟨last, hlast, hextends'⟩ := h' id grown hgrown
  exact ⟨last, hlast, hextends.trans hextends'⟩

/-- The implementations of a core are the first ones that a later catalog has. -/
theorem implementationsOf (h : c.ExtendedBy d) (id : Nat) :
    c.implementationsOf id <+: d.implementationsOf id := by
  unfold Catalog.implementationsOf
  split
  · rename_i core hcore
    obtain ⟨grown, hgrown, hextends⟩ := h id core hcore
    rw [hgrown]
    exact hextends.implementations
  · exact List.nil_prefix

/-- A pair of ids keeps its implementation. -/
theorem implementation? (h : c.ExtendedBy d) {id index : Nat} {i : Implementation}
    (hi : c.implementation? id index = some i) : d.implementation? id index = some i := by
  obtain ⟨hlt, hget⟩ := List.getElem?_eq_some_iff.1 hi
  exact (List.prefix_iff_getElem?.1 (h.implementationsOf id) index hlt).trans (congrArg some hget)

end ExtendedBy

theorem IsDense.extendedBy_register (h : c.IsDense) (signature : String)
    (implementations : List (String × Description)) :
    c.ExtendedBy (c.register signature implementations).catalog := by
  rcases h.register_cases signature implementations with
    ⟨core, hcore, -, ⟨-, heq⟩ | ⟨-, heq⟩⟩ | ⟨-, heq⟩
  · rw [heq]
    exact .refl c
  · intro id other hother
    rw [heq]
    by_cases hid : core.id = id
    · subst hid
      obtain rfl : core = other := Option.some.inj (hcore.symm.trans hother)
      refine ⟨core.addAll implementations, ?_, core.extendedBy_addAll implementations⟩
      exact List.getElem?_set_self (List.getElem?_eq_some_iff.1 hcore).1
    · exact ⟨other, (List.getElem?_set_ne hid).trans hother, .refl other⟩
  · intro id other hother
    rw [heq]
    have hlt := (List.getElem?_eq_some_iff.1 hother).1
    exact ⟨other, (List.getElem?_append_left hlt).trans hother, .refl other⟩

/-- **Registrations only extend.** -/
theorem IsDense.extendedBy_registerAll (h : c.IsDense)
    (calls : List (String × List (String × Description))) : c.ExtendedBy (c.registerAll calls) := by
  induction calls generalizing c with
  | nil => exact .refl c
  | cons call rest ih =>
    exact (h.extendedBy_register call.1 call.2).trans
      (ih ((c.grownBy_register call.1 call.2).dense h))

theorem eq_or_version_lt_registerAll (c : Catalog)
    (calls : List (String × List (String × Description))) :
    c.registerAll calls = c ∨ c.version < (c.registerAll calls).version := by
  refine registerAll_induction (P := fun d => d = c ∨ c.version < d.version) ?_ (.inl rfl) calls
  intro d signature implementations hd
  have hgrown := d.grownBy_register signature implementations
  rcases hgrown.eq_or_lt with heq | hlt
  · rw [heq]
    exact hd
  · rcases hd with rfl | hd
    · exact .inr hlt
    · right
      omega

/-- A registration reports the core of its signature and raises the version by one if it changes
anything, and else it does neither. -/
theorem IsDense.register_reports (h : c.IsDense) (signature : String)
    (implementations : List (String × Description)) :
    let u := c.register signature implementations
    ∃ core, u.catalog.core? core.id = some core ∧ core.signature = signature ∧
      (∀ i ∈ implementations, core.knows i.1 = true) ∧
      u.changed = (if u.catalog = c then [] else [core.id]) ∧
      u.catalog.version = (if u.catalog = c then c.version else c.version + 1) := by
  intro u
  rcases h.register_cases signature implementations with
    ⟨core, hcore, hsignature, ⟨hsame, heq⟩ | ⟨-, heq⟩⟩ | ⟨-, heq⟩
  · have hknows : ∀ i ∈ implementations, core.knows i.1 = true := by
      intro i hi
      rw [← hsame]
      exact core.knows_addAll hi
    refine ⟨core, ?_, hsignature, hknows, ?_⟩ <;> simp [u, heq, hcore]
  · have hne : (⟨c.version + 1, c.cores.set core.id (core.addAll implementations)⟩ : Catalog) ≠ c :=
      fun h => absurd (congrArg version h) (Nat.succ_ne_self _)
    have hlt := (List.getElem?_eq_some_iff.1 hcore).1
    have hextends := core.extendedBy_addAll implementations
    refine ⟨core.addAll implementations, ?_, hextends.signature_eq.trans hsignature,
      fun i hi => core.knows_addAll hi, ?_⟩
    · simp [u, heq, core?, hlt]
    · simp [u, heq, hne]
  · let new : Core := ⟨c.size, signature, []⟩
    have hne : (⟨c.version + 1, c.cores ++ [new.addAll implementations]⟩ : Catalog) ≠ c :=
      fun h => absurd (congrArg version h) (Nat.succ_ne_self _)
    refine ⟨new.addAll implementations, ?_, (new.extendedBy_addAll implementations).signature_eq,
      fun i hi => new.knows_addAll hi, ?_⟩
    · simp [u, heq, new, core?, size]
    · simp [u, heq, hne, new]

/-- **Ids are for good.** Of any two catalogs that registrations lead to, one after the other, the
later one extends the earlier one, and it is the same if it has the same version. In each of them
cores and implementations carry the ids of their places, and signatures are given out once. Any
further registration reports its core and a new version exactly if it changes something. -/
theorem ids_stable (before after : List (String × List (String × Description))) (signature : String)
    (implementations : List (String × Description)) :
    let c := empty.registerAll before
    let d := c.registerAll after
    let u := d.register signature implementations
    c.ExtendedBy d ∧ (∀ id index i, c.implementation? id index = some i →
      d.implementation? id index = some i) ∧
    (∀ id core, d.core? id = some core → core.id = id ∧ d.find? core.signature = some id) ∧
    (∀ id index i, d.implementation? id index = some i → i.core = id ∧ i.index = index) ∧
    (d.cores.map Core.signature).Nodup ∧
    (∀ id, ((d.implementationsOf id).map Implementation.signature).Nodup) ∧
    c.version ≤ d.version ∧ (d.version = c.version → d = c) ∧
    ∃ core, u.catalog.core? core.id = some core ∧ core.signature = signature ∧
      (∀ i ∈ implementations, core.knows i.1 = true) ∧
      u.changed = (if u.catalog = d then [] else [core.id]) ∧
      u.catalog.version = (if u.catalog = d then d.version else d.version + 1) := by
  intro c d u
  have hc : c.Produced := Produced.empty.registerAll before
  have hd : d.Produced := hc.registerAll after
  have hextends : c.ExtendedBy d := hc.isNumbered.dense.extendedBy_registerAll after
  have hdense := hd.isNumbered.dense
  have hversion := eq_or_version_lt_registerAll c after
  refine ⟨hextends, fun id index i => hextends.implementation?, fun id core hcore => ?_,
    fun id index i => hd.isNumbered.ids_eq, hd.isDistinct.cores, hd.isDistinct.implementationsOf,
    ?_, ?_, hdense.register_reports signature implementations⟩
  · refine ⟨hdense id core hcore, ?_⟩
    exact (hd.isDistinct.find?_eq_some_iff hdense).2 ⟨core, hcore, rfl⟩
  · rcases hversion with heq | hlt
    · exact Nat.le_of_eq (congrArg version heq.symm)
    · exact Nat.le_of_lt hlt
  · intro hsame
    rcases hversion with heq | hlt
    · exact heq
    · exact absurd hsame (Nat.ne_of_gt hlt)

/-- A signature that is given twice, in one call or later, keeps what it was first given. -/
example :
    let need (count : Nat) : Description :=
      .compute ⟨.ofAmounts [(0, .saturating count)], none, .none⟩
    let c := empty.registerAll
      [("sort", [("one", need 1), ("two", need 2), ("one", need 3)]), ("sort", [("two", need 4)])]
    c = ⟨1, [⟨0, "sort", [⟨0, 0, "one", need 1⟩, ⟨0, 1, "two", need 2⟩]⟩]⟩ := by
  decide

end Catalog

/-! ### Histories -/

theorem CatalogSettings.registerCores_eq_registerAll (c : Catalog) (names : NameTable)
    (changed : List Nat) (cores : List CoreSettings) :
    ∃ calls, (registerCores c names changed cores).catalog = c.registerAll calls := by
  induction cores generalizing c names changed with
  | nil => exact ⟨[], rfl⟩
  | cons core rest ih =>
    unfold registerCores
    split
    · exact ⟨[], rfl⟩
    · rename_i implementations names' _
      obtain ⟨calls, hcalls⟩ := ih (c.register core.signature implementations).catalog names' _
      exact ⟨(core.signature, implementations) :: calls, hcalls⟩

/-- Settings only extend a catalog, whether they get through or not. -/
theorem CatalogSettings.extendedBy_registerCores {c : Catalog} (hc : c.Produced) (names : NameTable)
    (changed : List Nat) (cores : List CoreSettings) :
    c.ExtendedBy (registerCores c names changed cores).catalog := by
  obtain ⟨calls, hcalls⟩ := registerCores_eq_registerAll c names changed cores
  rw [hcalls]
  exact hc.isNumbered.dense.extendedBy_registerAll calls

theorem CatalogSettings.extendedBy_registerIn {c : Catalog} (hc : c.Produced) (s : CatalogSettings)
    (names : NameTable) : c.ExtendedBy (s.registerIn c names).catalog :=
  extendedBy_registerCores hc names [] s.cores

namespace Catalog.History

variable {c : Catalog} {updates : List CatalogUpdate} {u : CatalogUpdate}

theorem produced_of_mem (h : History updates c) : ∀ d ∈ snapshots updates, d.Produced := by
  induction h with
  | empty =>
    intro d hd
    rw [List.mem_singleton.1 hd]
    exact .empty
  | core h signature implementations ih =>
    intro d hd
    rcases mem_snapshots_append.1 hd with hd | rfl
    · exact ih d hd
    · exact h.produced.register signature implementations
  | settings h s names _ ih =>
    intro d hd
    rcases mem_snapshots_append.1 hd with hd | rfl
    · exact ih d hd
    · exact h.produced.registerIn s names

theorem isNumbered (h : History updates c) : ∀ d ∈ snapshots updates, d.IsNumbered :=
  fun d hd => (h.produced_of_mem d hd).isNumbered

/-- **All catalogs that could be seen are extended by the last one.** -/
theorem extendedBy (h : History updates c) : ∀ d ∈ snapshots updates, d.ExtendedBy c := by
  induction h with
  | empty =>
    intro d hd
    rw [List.mem_singleton.1 hd]
    exact .refl _
  | core h signature implementations ih =>
    intro d hd
    rcases mem_snapshots_append.1 hd with hd | rfl
    · exact (ih d hd).trans (h.produced.isNumbered.dense.extendedBy_register signature _)
    · exact .refl _
  | settings h s names _ ih =>
    intro d hd
    rcases mem_snapshots_append.1 hd with hd | rfl
    · exact (ih d hd).trans (CatalogSettings.extendedBy_registerIn h.produced s names)
    · exact .refl _

theorem extendedBy_of_version_le_append (h : History updates c)
    (hold : ∀ d ∈ snapshots updates, ∀ e ∈ snapshots updates, d.version ≤ e.version →
      d.ExtendedBy e)
    (grown : GrownBy c u.catalog u.changed)
    (hnew : ∀ d ∈ snapshots (updates ++ [u]), d.ExtendedBy u.catalog) :
    ∀ d ∈ snapshots (updates ++ [u]), ∀ e ∈ snapshots (updates ++ [u]), d.version ≤ e.version →
      d.ExtendedBy e := by
  intro d hd e he hle
  rcases mem_snapshots_append.1 he with hold_e | rfl
  · rcases mem_snapshots_append.1 hd with hold_d | rfl
    · exact hold d hold_d e hold_e hle
    · -- No older catalog has a greater version, so the last registration changed nothing.
      have hec := h.version_le e hold_e
      have hu : u.catalog = c := grown.eq_or_lt.resolve_right (by omega)
      rw [hu] at hle ⊢
      rw [h.eq_last_of_version_eq e hold_e (by omega)]
      exact .refl c
  · exact hnew d hd

/-- **Of two catalogs that could be seen, one of no smaller version extends the other.** -/
theorem extendedBy_of_version_le (h : History updates c) :
    ∀ d ∈ snapshots updates, ∀ e ∈ snapshots updates, d.version ≤ e.version → d.ExtendedBy e := by
  induction h with
  | empty =>
    intro d hd e he _
    rw [List.mem_singleton.1 hd, List.mem_singleton.1 he]
    exact .refl _
  | core h signature implementations ih =>
    exact h.extendedBy_of_version_le_append ih (grownBy_register _ signature implementations)
      (History.core h signature implementations).extendedBy
  | settings h s names registered ih =>
    exact h.extendedBy_of_version_le_append (u := ⟨_, _⟩) ih
      (CatalogSettings.grownBy_registerIn registered)
      (History.settings h s names registered).extendedBy

end Catalog.History

end Wharf
