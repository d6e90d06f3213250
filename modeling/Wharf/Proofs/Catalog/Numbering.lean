import Wharf.Proofs.Catalog.History

/-!
# How implementations are numbered

Implementations are found again by the id of their core and their place in it. They carry both, and
registrations, which add them one by one, give them the right ones.

* `Catalog.Produced` are the catalogs that registrations lead to, whatever is registered. Settings
  count in as they are registered core by core, whether they get through or not
  (`Catalog.Produced.registerIn`).
* In all of these a core has the id of its place, and its implementations carry that id and their
  own places (`Catalog.Produced.isNumbered`).
-/

namespace Wharf

namespace Core

variable {c : Core}

/-- Every implementation carries the id of the core and its own place. -/
def IsNumbered (c : Core) : Prop :=
  ∀ index (i : Implementation), c.implementations[index]? = some i → i.core = c.id ∧ i.index = index

theorem isNumbered_new (id : Nat) (signature : String) : IsNumbered ⟨id, signature, []⟩ := by
  intro index i h
  cases h

theorem IsNumbered.add (h : c.IsNumbered) (signature : String) (requirements : Description) :
    (c.add signature requirements).IsNumbered := by
  unfold Core.add
  split
  · exact h
  · intro index i hi
    dsimp only at hi
    rw [List.getElem?_append] at hi
    split at hi
    · exact h index i hi
    · rename_i hle
      obtain ⟨hlt, rfl⟩ := List.getElem?_eq_some_iff.1 hi
      rw [List.length_singleton] at hlt
      rw [List.getElem_singleton]
      exact ⟨rfl, by dsimp only; omega⟩

theorem IsNumbered.addAll (h : c.IsNumbered) (implementations : List (String × Description)) :
    (c.addAll implementations).IsNumbered := by
  unfold Core.addAll
  induction implementations generalizing c with
  | nil => exact h
  | cons i rest ih => exact ih (h.add i.1 i.2)

end Core

namespace Catalog

variable {c : Catalog}

/-- Cores and implementations are found where their ids say. -/
structure IsNumbered (c : Catalog) : Prop where
  dense : c.IsDense
  cores : ∀ core ∈ c.cores, core.IsNumbered

theorem isNumbered_empty : empty.IsNumbered where
  dense := isDense_empty
  cores _ h := by cases h

/-- **Registrations give out the right numbers.** -/
theorem IsNumbered.register (h : c.IsNumbered) (signature : String)
    (implementations : List (String × Description)) :
    (c.register signature implementations).catalog.IsNumbered where
  dense := (c.grownBy_register signature implementations).dense h.dense
  cores core hcore := by
    unfold Catalog.register at hcore
    split at hcore
    · split at hcore
      · rename_i known hknown
        have hmem : known ∈ c.cores := List.mem_of_getElem? hknown
        dsimp only at hcore
        split at hcore
        · exact h.cores core hcore
        · rcases List.mem_or_eq_of_mem_set hcore with hold | rfl
          · exact h.cores core hold
          · exact (h.cores known hmem).addAll implementations
      · exact h.cores core hcore
    · rcases List.mem_append.1 hcore with hold | hnew
      · exact h.cores core hold
      · rw [List.mem_singleton.1 hnew]
        exact (Core.isNumbered_new _ _).addAll implementations

/-- An implementation that is found carries the ids by which it was looked for. -/
theorem IsNumbered.ids_eq (h : c.IsNumbered) {core index : Nat} {i : Implementation}
    (hi : c.implementation? core index = some i) : i.core = core ∧ i.index = index := by
  unfold implementation? implementationsOf at hi
  split at hi
  · rename_i found hfound
    obtain ⟨hcore, hindex⟩ := h.cores found (List.mem_of_getElem? hfound) index i hi
    exact ⟨hcore.trans (h.dense core found hfound), hindex⟩
  · cases hi

/-- The catalogs that registrations lead to. -/
inductive Produced : Catalog → Prop
  | empty : Produced .empty
  | register {c : Catalog} (h : Produced c) (signature : String)
      (implementations : List (String × Description)) :
      Produced (c.register signature implementations).catalog

namespace Produced

theorem isNumbered (h : c.Produced) : c.IsNumbered := by
  induction h with
  | empty => exact isNumbered_empty
  | register _ signature implementations ih => exact ih.register signature implementations

theorem registerCores (h : c.Produced) (names : NameTable) (changed : List Nat)
    (cores : List CoreSettings) :
    (CatalogSettings.registerCores c names changed cores).catalog.Produced := by
  induction cores generalizing c names changed with
  | nil => exact h
  | cons core rest ih =>
    unfold CatalogSettings.registerCores
    split
    · exact h
    · exact ih (h.register core.signature _) _ _

/-- Settings lead to such a catalog even when a fault ends their registration. -/
theorem registerIn (h : c.Produced) (s : CatalogSettings) (names : NameTable) :
    (s.registerIn c names).catalog.Produced :=
  h.registerCores names [] s.cores

end Produced

/-- All catalogs of a history are of this kind. -/
theorem History.produced {updates : List CatalogUpdate} (h : History updates c) : c.Produced := by
  induction h with
  | empty => exact .empty
  | core _ signature implementations ih => exact ih.register signature implementations
  | settings _ s names _ ih => exact ih.registerIn s names

end Catalog

end Wharf
