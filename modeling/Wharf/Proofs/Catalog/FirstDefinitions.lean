import Wharf.Proofs.Catalog.Identity

/-!
# The first definition of a signature

Whoever looks up a core and an implementation by their signatures finds the first one that was
registered under these: later ones are not added.

* `Core.requirements?` and `Catalog.requirements?` look up by signature what an implementation
  needs.
* Implementations that are added to a core answer only for signatures that it did not know
  (`Core.requirements?_addAll`), and the same holds for a registration
  (`Catalog.Produced.requirements?_register`).
-/

namespace Wharf

namespace Core

/-- What the implementation of a signature needs. -/
def requirements? (c : Core) (signature : String) : Option Description :=
  (c.implementations.find? fun i => i.signature == signature).map Implementation.requirements

theorem isSome_requirements?_of_knows {c : Core} {signature : String}
    (h : c.knows signature = true) : (c.requirements? signature).isSome := by
  rw [knows, List.any_eq_true] at h
  rw [requirements?, Option.isSome_map, List.find?_isSome]
  exact h

theorem requirements?_add (c : Core) (added : String) (requirements : Description)
    (signature : String) :
    (c.add added requirements).requirements? signature =
      (c.requirements? signature).or (if signature = added then some requirements else none) := by
  unfold add
  split
  · rename_i hknown
    split
    · rename_i heq
      rw [heq, Option.or_of_isSome (isSome_requirements?_of_knows hknown)]
    · rw [Option.or_none]
  · simp only [requirements?, List.find?_append, Option.map_or]
    by_cases heq : signature = added
    · simp [heq]
    · simp [heq, Ne.symm heq]

/-- **Only for unknown signatures an added implementation answers**, the first one of each. -/
theorem requirements?_addAll (c : Core) (implementations : List (String × Description))
    (signature : String) :
    (c.addAll implementations).requirements? signature =
      (c.requirements? signature).or (implementations.lookup signature) := by
  induction implementations generalizing c with
  | nil => exact Option.or_none.symm
  | cons i rest ih =>
    obtain ⟨added, requirements⟩ := i
    show ((c.add added requirements).addAll rest).requirements? signature = _
    rw [ih, requirements?_add, Option.or_assoc]
    congr 1
    by_cases heq : signature = added
    · simp [heq]
    · simp [List.lookup_cons, heq, beq_false_of_ne heq]

end Core

namespace Catalog

variable {c : Catalog} {core : Core}

/-- The core of a signature. -/
def coreOf? (c : Catalog) (signature : String) : Option Core := (c.find? signature).bind c.core?

/-- What the implementation needs that is known for a core under a signature. -/
def requirements? (c : Catalog) (core signature : String) : Option Description :=
  (c.coreOf? core).bind fun known => known.requirements? signature

theorem Produced.coreOf?_eq_some_iff (hc : c.Produced) {signature : String} :
    c.coreOf? signature = some core ↔ c.core? core.id = some core ∧ core.signature = signature := by
  have hdense := hc.isNumbered.dense
  rw [coreOf?, Option.bind_eq_some_iff]
  constructor
  · rintro ⟨id, hfind, hcore⟩
    obtain ⟨found, hfound, hsignature⟩ := (hc.isDistinct.find?_eq_some_iff hdense).1 hfind
    cases hfound.symm.trans hcore
    rw [hdense id core hcore]
    exact ⟨hcore, hsignature⟩
  · rintro ⟨hcore, hsignature⟩
    exact ⟨core.id, (hc.isDistinct.find?_eq_some_iff hdense).2 ⟨core, hcore, hsignature⟩, hcore⟩

/-- The core that a registration is about, known before or new. -/
theorem Produced.coreOf?_register (hc : c.Produced) (signature : String)
    (implementations : List (String × Description)) :
    (c.register signature implementations).catalog.coreOf? signature =
      some (((c.coreOf? signature).getD ⟨c.size, signature, []⟩).addAll implementations) := by
  have hd := hc.register signature implementations
  rcases hc.isNumbered.dense.register_cases signature implementations with
    ⟨core, hcore, hsignature, ⟨hsame, heq⟩ | ⟨-, heq⟩⟩ | ⟨hnew, heq⟩
  · have hknown : c.coreOf? signature = some core :=
      hc.coreOf?_eq_some_iff.2 ⟨hcore, hsignature⟩
    rw [heq, hknown, Option.getD_some, hsame]
  · have hknown : c.coreOf? signature = some core :=
      hc.coreOf?_eq_some_iff.2 ⟨hcore, hsignature⟩
    rw [hknown, Option.getD_some, hd.coreOf?_eq_some_iff, heq]
    have hgrown := core.extendedBy_addAll implementations
    refine ⟨?_, hgrown.signature_eq.trans hsignature⟩
    rw [hgrown.id_eq]
    exact List.getElem?_set_self (List.getElem?_eq_some_iff.1 hcore).1
  · have hunknown : c.coreOf? signature = none := by
      by_contra hne
      obtain ⟨core, hcore⟩ := Option.ne_none_iff_exists'.1 hne
      obtain ⟨hcore, hsignature⟩ := hc.coreOf?_eq_some_iff.1 hcore
      exact hnew core (List.mem_of_getElem? hcore) hsignature
    rw [hunknown, Option.getD_none, hd.coreOf?_eq_some_iff, heq]
    have hgrown := Core.extendedBy_addAll ⟨c.size, signature, []⟩ implementations
    refine ⟨?_, hgrown.signature_eq⟩
    rw [hgrown.id_eq]
    exact List.getElem?_concat_length

/-- A core that changes, or is new, has the signature of the registration. -/
theorem IsDense.signature_of_mem_changed (h : c.IsDense) {signature : String}
    {implementations : List (String × Description)} {id : Nat}
    (hid : id ∈ (c.register signature implementations).changed)
    (hcore : (c.register signature implementations).catalog.core? id = some core) :
    core.signature = signature := by
  obtain ⟨known, hknown, hsignature, -, hchanged, -⟩ := h.register_reports signature implementations
  have hplace : id = known.id := by
    rw [hchanged] at hid
    split at hid
    · cases hid
    · exact List.mem_singleton.1 hid
  rw [hplace, hknown] at hcore
  cases hcore
  exact hsignature

/-- The cores of other signatures stay as they are. -/
theorem Produced.coreOf?_register_of_ne (hc : c.Produced) {signature other : String}
    (implementations : List (String × Description)) (hne : other ≠ signature) :
    (c.register signature implementations).catalog.coreOf? other = c.coreOf? other := by
  have hdense := hc.isNumbered.dense
  refine Option.ext fun core => ?_
  rw [(hc.register signature implementations).coreOf?_eq_some_iff, hc.coreOf?_eq_some_iff]
  refine and_congr_left fun hsignature => ?_
  by_cases hid : core.id ∈ (c.register signature implementations).changed
  · refine iff_of_false (fun hcore => ?_) fun hcore => ?_
    · exact hne (hsignature.symm.trans (hdense.signature_of_mem_changed hid hcore))
    · obtain ⟨grown, hgrown, hextends⟩ :=
        hdense.extendedBy_register signature implementations core.id core hcore
      have hgrown := hdense.signature_of_mem_changed hid hgrown
      exact hne (hsignature.symm.trans (hextends.signature_eq.symm.trans hgrown))
  · rw [(c.grownBy_register signature implementations).core?_eq core.id hid]

/-- **A registration answers only for what was unknown.** -/
theorem Produced.requirements?_register (hc : c.Produced) (registered : String)
    (implementations : List (String × Description)) (core signature : String) :
    (c.register registered implementations).catalog.requirements? core signature =
      (c.requirements? core signature).or
        (if core = registered then implementations.lookup signature else none) := by
  split
  · rename_i heq
    rw [heq, requirements?, hc.coreOf?_register, Option.bind_some, Core.requirements?_addAll,
      requirements?]
    cases c.coreOf? registered <;> rfl
  · rename_i hne
    rw [requirements?, hc.coreOf?_register_of_ne implementations hne, requirements?, Option.or_none]

end Catalog

end Wharf
