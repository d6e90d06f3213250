import Wharf.Proofs.Lists
import Wharf.Settings.Catalog

/-!
# Histories of the catalog

What registrations do to a catalog, one after the other, and what they report on the way.

* `Catalog.GrownBy` relates a catalog to a later one and to the ids that were reported between them:
  a core that is not among these is still what it was, and the version has grown if anything was
  reported. Registering a core (`Catalog.grownBy_register`) and registering settings
  (`CatalogSettings.grownBy_registerIn`) are both of this kind.
* `Catalog.History` is a run of registrations with what each of them published. The last catalog of
  a history is told apart from the others by its version (`History.eq_last_of_version_eq`), and a
  core of which no change was published between two catalogs is the same in both
  (`History.core?_eq`).
-/

namespace Wharf

namespace Core

@[simp]
theorem id_add (c : Core) (signature : String) (requirements : Description) :
    (c.add signature requirements).id = c.id := by
  unfold add
  split <;> rfl

@[simp]
theorem id_addAll (c : Core) (implementations : List (String × Description)) :
    (c.addAll implementations).id = c.id := by
  unfold addAll
  induction implementations generalizing c with
  | nil => rfl
  | cons i rest ih => rw [List.foldl_cons, ih, id_add]

end Core

namespace Catalog

variable {c d e : Catalog} {ids : List Nat}

/-- The id of every core is its place. -/
def IsDense (c : Catalog) : Prop := ∀ id core, c.core? id = some core → core.id = id

theorem isDense_empty : empty.IsDense := by
  intro id core h
  cases h

/-- `d` came out of `c` by registrations that reported the cores `changed`. -/
structure GrownBy (c d : Catalog) (changed : List Nat) : Prop where
  dense : c.IsDense → d.IsDense
  eq_or_lt : d = c ∨ c.version < d.version
  lt_of_mem : ∀ id ∈ changed, c.version < d.version
  core?_eq : ∀ id, id ∉ changed → d.core? id = c.core? id

namespace GrownBy

theorem refl (c : Catalog) : GrownBy c c [] where
  dense := id
  eq_or_lt := .inl rfl
  lt_of_mem _ h := absurd h List.not_mem_nil
  core?_eq _ _ := rfl

theorem version_le (h : GrownBy c d ids) : c.version ≤ d.version := by
  rcases h.eq_or_lt with rfl | hlt
  · exact Nat.le_refl _
  · omega

/-- Growth adds up. -/
theorem trans {ids' all : List Nat} (h : GrownBy c d ids) (h' : GrownBy d e ids')
    (hall : ∀ id, id ∈ all ↔ id ∈ ids ∨ id ∈ ids') : GrownBy c e all where
  dense := h'.dense ∘ h.dense
  eq_or_lt := by
    have hle := h.version_le
    rcases h'.eq_or_lt with rfl | hlt
    · exact h.eq_or_lt
    · right
      omega
  lt_of_mem id hid := by
    have hle := h.version_le
    have hle' := h'.version_le
    rcases (hall id).1 hid with hid | hid
    · have hlt := h.lt_of_mem id hid
      omega
    · have hlt := h'.lt_of_mem id hid
      omega
  core?_eq id hid := by
    rw [hall, not_or] at hid
    rw [h'.core?_eq id hid.2, h.core?_eq id hid.1]

end GrownBy

/-- A core is replaced by one of the same id. -/
theorem grownBy_set {id : Nat} {core grown : Core} (hcore : c.core? id = some core)
    (hgrown : grown.id = core.id) : GrownBy c ⟨c.version + 1, c.cores.set id grown⟩ [id] where
  dense hd j other hj := by
    simp only [core?, List.getElem?_set] at hj
    split at hj
    · rename_i hij
      split at hj
      · cases hj
        rw [hgrown, ← hij]
        exact hd id core hcore
      · cases hj
    · exact hd j other hj
  eq_or_lt := .inr (Nat.lt_succ_self _)
  lt_of_mem _ _ := Nat.lt_succ_self _
  core?_eq j hj := by
    rw [List.mem_singleton] at hj
    exact List.getElem?_set_ne (Ne.symm hj)

/-- A core is added behind the others. -/
theorem grownBy_append {core : Core} (hcore : core.id = c.size) :
    GrownBy c ⟨c.version + 1, c.cores ++ [core]⟩ [c.size] where
  dense hd j other hj := by
    simp only [core?, List.getElem?_append] at hj
    split at hj
    · exact hd j other hj
    · rename_i hle
      obtain ⟨hlt, rfl⟩ := List.getElem?_eq_some_iff.1 hj
      rw [List.length_singleton] at hlt
      simp only [List.getElem_singleton, hcore, size]
      omega
  eq_or_lt := .inr (Nat.lt_succ_self _)
  lt_of_mem _ _ := Nat.lt_succ_self _
  core?_eq j hj := by
    rw [List.mem_singleton, size] at hj
    simp only [core?, List.getElem?_append]
    split
    · rfl
    · rw [List.getElem?_eq_none (by simp only [List.length_singleton]; omega),
        List.getElem?_eq_none (by omega)]

/-- **A registration reports every core it touches**, new or grown. -/
theorem grownBy_register (c : Catalog) (signature : String)
    (implementations : List (String × Description)) :
    GrownBy c (c.register signature implementations).catalog
      (c.register signature implementations).changed := by
  unfold register
  split
  · split
    · rename_i core hcore
      dsimp only
      split
      · exact .refl c
      · exact grownBy_set hcore (Core.id_addAll core implementations)
    · exact .refl c
  · exact grownBy_append (Core.id_addAll _ implementations)

end Catalog

namespace CatalogSettings

theorem mem_addNew {ids new : List Nat} {id : Nat} :
    id ∈ addNew ids new ↔ id ∈ ids ∨ id ∈ new :=
  mem_foldl_append_missing

theorem grownBy_registerCores {cores : List CoreSettings} {c : Catalog} {names : NameTable}
    {before after : List Nat} (h : (registerCores c names before cores).outcome = .ok after) :
    ∃ ids, (∀ id, id ∈ after ↔ id ∈ before ∨ id ∈ ids) ∧
      Catalog.GrownBy c (registerCores c names before cores).catalog ids := by
  induction cores generalizing c names before with
  | nil =>
    cases h
    exact ⟨[], by simp, .refl c⟩
  | cons core rest ih =>
    unfold registerCores at h ⊢
    split at h
    · cases h
    · rename_i implementations names' hconvert
      obtain ⟨ids, hmem, hgrown⟩ := ih h
      refine ⟨(c.register core.signature implementations).changed ++ ids, fun id => ?_, ?_⟩
      · rw [hmem, mem_addNew, List.mem_append, or_assoc]
      · exact (c.grownBy_register core.signature implementations).trans hgrown
          fun id => List.mem_append

/-- **A registration of settings that gets through reports every core it touches.** -/
theorem grownBy_registerIn {s : CatalogSettings} {c : Catalog} {names : NameTable}
    {changed : List Nat} (h : (s.registerIn c names).outcome = .ok changed) :
    Catalog.GrownBy c (s.registerIn c names).catalog changed := by
  obtain ⟨ids, hmem, hgrown⟩ := grownBy_registerCores h
  refine (Catalog.GrownBy.refl c).trans hgrown fun id => ?_
  rw [hmem]

end CatalogSettings

namespace Catalog

/-- A run of registrations from the empty catalog: what each of them published, and the catalog in
the end. -/
inductive History : List CatalogUpdate → Catalog → Prop
  | empty : History [] .empty
  | core {updates : List CatalogUpdate} {c : Catalog} (h : History updates c) (signature : String)
      (implementations : List (String × Description)) :
      History (updates ++ [c.register signature implementations])
        (c.register signature implementations).catalog
  | settings {updates : List CatalogUpdate} {c : Catalog} (h : History updates c)
      (s : CatalogSettings) (names : NameTable) {changed : List Nat}
      (registered : (s.registerIn c names).outcome = .ok changed) :
      History (updates ++ [⟨(s.registerIn c names).catalog, changed⟩])
        (s.registerIn c names).catalog

/-- The catalogs that could be seen in the course of a history. -/
def snapshots (updates : List CatalogUpdate) : List Catalog :=
  .empty :: updates.map CatalogUpdate.catalog

theorem mem_snapshots_append {updates : List CatalogUpdate} {u : CatalogUpdate} :
    c ∈ snapshots (updates ++ [u]) ↔ c ∈ snapshots updates ∨ c = u.catalog := by
  simp [snapshots, or_assoc]

namespace History

variable {updates : List CatalogUpdate}

/-- A history is extended by growth, however the cores are registered. -/
@[elab_as_elim]
theorem induction {motive : List CatalogUpdate → Catalog → Prop} (empty : motive [] .empty)
    (extend : ∀ updates c (u : CatalogUpdate), History updates c → motive updates c →
      GrownBy c u.catalog u.changed → motive (updates ++ [u]) u.catalog)
    (h : History updates c) : motive updates c := by
  induction h with
  | empty => exact empty
  | core h signature implementations ih =>
    exact extend _ _ _ h ih (grownBy_register _ signature implementations)
  | settings h s names registered ih =>
    exact extend _ _ ⟨_, _⟩ h ih (CatalogSettings.grownBy_registerIn registered)

theorem mem_snapshots (h : History updates c) : c ∈ snapshots updates := by
  cases h with
  | empty => exact List.mem_cons_self
  | core h signature implementations => exact mem_snapshots_append.2 (.inr rfl)
  | settings h s names registered => exact mem_snapshots_append.2 (.inr rfl)

theorem isDense (h : History updates c) : ∀ d ∈ snapshots updates, d.IsDense := by
  refine induction ?_ (fun updates c u hc ih grown d hd => ?_) h
  · intro d hd
    rw [List.mem_singleton.1 hd]
    exact isDense_empty
  · rcases mem_snapshots_append.1 hd with hd | rfl
    · exact ih d hd
    · exact grown.dense (ih c hc.mem_snapshots)

theorem version_le (h : History updates c) : ∀ d ∈ snapshots updates, d.version ≤ c.version := by
  refine induction ?_ (fun updates c u hc ih grown d hd => ?_) h
  · intro d hd
    rcases List.mem_singleton.1 hd with rfl
    exact Nat.le_refl _
  · rcases mem_snapshots_append.1 hd with hd | rfl
    · have hle := ih d hd
      have hgrown := grown.version_le
      omega
    · exact Nat.le_refl _

theorem eq_last_of_version_eq (h : History updates c) :
    ∀ d ∈ snapshots updates, d.version = c.version → d = c := by
  refine induction ?_ (fun updates c u hc ih grown d hd hv => ?_) h
  · intro d hd _
    exact List.mem_singleton.1 hd
  · rcases mem_snapshots_append.1 hd with hd | rfl
    · have hle := hc.version_le d hd
      rcases grown.eq_or_lt with hu | hlt
      · rw [hu]
        exact ih d hd (by rw [hv, hu])
      · omega
    · rfl

/-- **A core of which no change was published between two catalogs is the same in both.** -/
theorem core?_eq (h : History updates c) (id : Nat) :
    ∀ d ∈ snapshots updates, ∀ e ∈ snapshots updates, d.version ≤ e.version →
      (∀ u ∈ updates, d.version < u.catalog.version → u.catalog.version ≤ e.version →
        id ∉ u.changed) → e.core? id = d.core? id := by
  refine induction ?_ (fun updates c u hc ih grown d hd e he hle hsame => ?_) h
  · intro d hd e he _ _
    rw [List.mem_singleton.1 hd, List.mem_singleton.1 he]
  · have hsame' : ∀ v ∈ updates, d.version < v.catalog.version →
        v.catalog.version ≤ e.version → id ∉ v.changed :=
      fun v hv => hsame v (List.mem_append_left _ hv)
    rcases mem_snapshots_append.1 hd with hd | rfl <;>
      rcases mem_snapshots_append.1 he with he | rfl
    · exact ih d hd e he hle hsame'
    · -- The step itself must not have touched the core, the rest goes up to the catalog before it.
      have hdc := hc.version_le d hd
      have hgrown := grown.version_le
      have hnot : id ∉ u.changed := by
        intro hid
        have hlt := grown.lt_of_mem id hid
        have hu : u ∈ updates ++ [u] := List.mem_append_right _ (List.mem_singleton.2 rfl)
        exact hsame u hu (by omega) (Nat.le_refl _) hid
      rw [grown.core?_eq id hnot]
      refine ih d hd c hc.mem_snapshots hdc fun v hv hlt hvc => ?_
      exact hsame' v hv hlt (by omega)
    · -- No older catalog has a greater version, so the step published nothing.
      have hec := hc.version_le e he
      have hlt : ¬ c.version < u.catalog.version := by omega
      have hu := grown.eq_or_lt.resolve_right hlt
      rw [hu] at hle ⊢
      have hversion : e.version = c.version := by omega
      rw [hc.eq_last_of_version_eq e he hversion]
    · rfl

end History

end Catalog

end Wharf
