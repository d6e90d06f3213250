import Wharf.Proofs.Consumables.Named
import Wharf.Proofs.Settings.Conversion
import Wharf.Worker.Tables

/-!
# Matching declared resources

A capacity and a demand are declared by names, converted with whatever table of names there is, and
compared by ids. The outcome depends on the declarations alone.

* `DescriptionSettings.amountOf` is the amount that is declared under a name.
* `DescriptionSettings.Yields` says that a resource is what a declaration is converted to, read with
  some table; a conversion does (`DescriptionSettings.IsConvertible.yields_toCompute`).
* `DescriptionSettings.convertPair` converts two declarations in either order. How the capacity
  matches the demand is the same for all tables and orders
  (`DescriptionSettings.matching_independent`), and is said in terms of names.
-/

namespace Wharf

/-- A match looks at architectures and features only. -/
theorem ComputeDescription.accepts_congr {offer offer' wanted wanted' : ComputeDescription}
    (hoffer : offer.architecture = offer'.architecture ∧ offer.features = offer'.features)
    (hwanted : wanted.architecture = wanted'.architecture ∧ wanted.features = wanted'.features) :
    offer.accepts wanted = offer'.accepts wanted' := by
  simp only [accepts, hoffer, hwanted]

theorem simultaneous?_congr {offer offer' : Description} {i i' : Implementation} (ceiling : Nat)
    (haccepts : offer.accepts i.requirements = offer'.accepts i'.requirements)
    (hfit : offer.consumables.fitCount i.requirements.consumables =
      offer'.consumables.fitCount i'.requirements.consumables) :
    simultaneous? offer ceiling i = simultaneous? offer' ceiling i' := by
  rw [simultaneous?, simultaneous?, haccepts, hfit]

namespace DescriptionSettings

/-- The amount that is declared under a name; nothing under a name that is not declared. -/
def amountOf (s : DescriptionSettings) (name : String) : Amount := lastAmount s.converted name

/-- A compute resource is declared, and all its amounts can be converted. -/
structure IsConvertible (s : DescriptionSettings) : Prop where
  kind_eq : s.kind = .compute
  amounts : ∀ entry ∈ s.amounts, (Amount.ofBinary64? entry.2).isSome

theorem fault?_eq_none_iff {s : DescriptionSettings} :
    s.fault? = none ↔ ∀ entry ∈ s.amounts, (Amount.ofBinary64? entry.2).isSome := by
  rw [fault?, List.findSome?_eq_none_iff]
  refine forall₂_congr fun entry _ => ?_
  rw [amountFault?]
  cases Amount.ofBinary64? entry.2 <;> simp

/-- A resource is what a declaration is converted to, when its vector is read with the table. -/
structure Yields (s : DescriptionSettings) (t : NameTable) (d : ComputeDescription) : Prop where
  declared : ∃ consumables features, s = .compute consumables d.architecture features ∧
    d.features = .ofList features
  reads : d.consumables.ReadsAs t s.amountOf

variable {s offer wanted : DescriptionSettings} {t u : NameTable} {d e : ComputeDescription}

/-- Apart from the amounts, a declaration is converted to the same with every table. -/
theorem Yields.statics_eq (h : s.Yields t d) (h' : s.Yields u e) :
    d.architecture = e.architecture ∧ d.features = e.features := by
  obtain ⟨⟨consumables, features, rfl, hfeatures⟩, -⟩ := h
  obtain ⟨⟨_, _, heq, hfeatures'⟩, -⟩ := h'
  obtain ⟨-, harchitecture, rfl⟩ := compute.injEq .. ▸ heq
  exact ⟨harchitecture, hfeatures.trans hfeatures'.symm⟩

theorem mem_consumableNames_of_amountOf_ne {name : String} (h : s.amountOf name ≠ 0) :
    name ∈ s.consumableNames := by
  have hmem := mem_of_lastAmount_ne h
  rwa [converted, List.map_map] at hmem

/-- How often a demand fits, by the names of the demand. -/
def fitByName (offer wanted : DescriptionSettings) : Option Nat :=
  ((wanted.consumableNames.filter fun name => wanted.amountOf name ≠ 0).map
    fun name => (offer.amountOf name).count / (wanted.amountOf name).count).min?

/-! ### One table -/

/-- **A conversion yields a resource for its table**, and for every later one. -/
theorem IsConvertible.yields_toCompute (h : s.IsConvertible) (names : NameTable) :
    ∃ d, s.toCompute names = (.ok d, (names.internAll s.consumableNames).2) ∧
      ∀ t, (names.internAll s.consumableNames).2.ExtendedBy t → s.Yields t d := by
  have hfault : s.fault? = none := fault?_eq_none_iff.2 h.amounts
  cases s with
  | service name realm port connections => cases h.kind_eq
  | compute consumables architecture features =>
    let s : DescriptionSettings := .compute consumables architecture features
    refine ⟨⟨(names.vector s.converted).1, architecture, .ofList features⟩, ?_,
      fun t ht => { declared := ⟨_, _, rfl, rfl⟩, reads := ?_ }⟩
    · rw [toCompute_of_faultless hfault, snd_vector_converted]
    · rw [← snd_vector_converted] at ht
      exact NameTable.readsAs_vector ht

theorem Yields.covers_iff (h : offer.Yields t d) (h' : wanted.Yields t e) :
    d.consumables.covers e.consumables = true ↔
      ∀ name, wanted.amountOf name ≤ offer.amountOf name :=
  h.reads.covers_iff h'.reads

theorem Yields.fitCount_eq (h : offer.Yields t d) (h' : wanted.Yields t e) :
    d.consumables.fitCount e.consumables = fitByName offer wanted :=
  h.reads.fitCount_eq h'.reads fun _ => mem_consumableNames_of_amountOf_ne

/-! ### Two declarations -/

/-- Converts a capacity and a demand with one table, in either order. In between, others may
register names. -/
def convertPair (demandFirst : Bool) (between : List String) (names : NameTable)
    (offer wanted : DescriptionSettings) :
    Except SettingsError (ComputeDescription × ComputeDescription) :=
  if demandFirst then do
    let (demand, names) := wanted.toCompute names
    let (capacity, _) := offer.toCompute (names.internAll between).2
    return (← capacity, ← demand)
  else do
    let (capacity, names) := offer.toCompute names
    let (demand, _) := wanted.toCompute (names.internAll between).2
    return (← capacity, ← demand)

theorem yields_convertPair (hoffer : offer.IsConvertible) (hwanted : wanted.IsConvertible)
    (demandFirst : Bool) (between : List String) (names : NameTable) :
    ∃ t d e, convertPair demandFirst between names offer wanted = .ok (d, e) ∧
      offer.Yields t d ∧ wanted.Yields t e := by
  cases demandFirst with
  | true =>
    obtain ⟨e, he, hyields⟩ := hwanted.yields_toCompute names
    obtain ⟨d, hd, hyields'⟩ := hoffer.yields_toCompute
      ((names.internAll wanted.consumableNames).2.internAll between).2
    refine ⟨_, d, e, ?_, hyields' _ (.refl _), hyields _ ?_⟩
    · simp only [convertPair, he, hd]
      rfl
    · exact (NameTable.extendedBy_internAll _ _).trans (NameTable.extendedBy_internAll _ _)
  | false =>
    obtain ⟨d, hd, hyields⟩ := hoffer.yields_toCompute names
    obtain ⟨e, he, hyields'⟩ := hwanted.yields_toCompute
      ((names.internAll offer.consumableNames).2.internAll between).2
    refine ⟨_, d, e, ?_, hyields _ ?_, hyields' _ (.refl _)⟩
    · simp only [convertPair, he, hd]
      rfl
    · exact (NameTable.extendedBy_internAll _ _).trans (NameTable.extendedBy_internAll _ _)

/-- **Ids do not matter.** A capacity and a demand are converted with any two tables, in any order
and with other registrations in between. Both times the capacity matches the demand or not, covers
it or not, holds it as often, and runs as many instances of an implementation with this demand at
once. The demand is covered if it is name by name, and the fit count is the least quotient over the
demanded names. -/
theorem matching_independent (offer wanted : DescriptionSettings) (hoffer : offer.IsConvertible)
    (hwanted : wanted.IsConvertible) (first first' : Bool) (between between' : List String)
    (names names' : NameTable) :
    ∃ d e d' e', convertPair first between names offer wanted = .ok (d, e) ∧
      convertPair first' between' names' offer wanted = .ok (d', e') ∧
      d.accepts e = d'.accepts e' ∧
      d.consumables.covers e.consumables = d'.consumables.covers e'.consumables ∧
      (d.consumables.covers e.consumables = true ↔
        ∀ name, wanted.amountOf name ≤ offer.amountOf name) ∧
      d.consumables.fitCount e.consumables = d'.consumables.fitCount e'.consumables ∧
      d.consumables.fitCount e.consumables = fitByName offer wanted ∧
      ∀ ceiling (i : Implementation),
        simultaneous? (.compute d) ceiling { i with requirements := .compute e } =
          simultaneous? (.compute d') ceiling { i with requirements := .compute e' } := by
  obtain ⟨t, d, e, hpair, hd, he⟩ := yields_convertPair hoffer hwanted first between names
  obtain ⟨t', d', e', hpair', hd', he'⟩ :=
    yields_convertPair hoffer hwanted first' between' names'
  have haccepts : d.accepts e = d'.accepts e' :=
    ComputeDescription.accepts_congr (hd.statics_eq hd') (he.statics_eq he')
  have hcovers : d.consumables.covers e.consumables = d'.consumables.covers e'.consumables := by
    rw [Bool.eq_iff_iff, hd.covers_iff he, hd'.covers_iff he']
  have hfit : d.consumables.fitCount e.consumables = d'.consumables.fitCount e'.consumables := by
    rw [hd.fitCount_eq he, hd'.fitCount_eq he']
  refine ⟨d, e, d', e', hpair, hpair', haccepts, hcovers, hd.covers_iff he, hfit,
    hd.fitCount_eq he, fun ceiling i => ?_⟩
  exact simultaneous?_congr ceiling haccepts hfit

/-- In one table the first new consumable of the capacity has the id 4, in another one, in which the
demand and others come first, the id 6. Two and a half of it are offered for each one that is
wanted, and the demand of nothing does not count. -/
theorem matching_independent_other_ids :
    let offer : DescriptionSettings :=
      .compute [("cpus", .ofInt 8), ("fpgas", .ofInt 5)] (some "x86") ["avx", "sse"]
    let wanted : DescriptionSettings :=
      .compute [("disks", .ofInt 0), ("fpgas", .ofInt 2)] none ["avx"]
    ∃ d e d' e', convertPair false [] .standard offer wanted = .ok (d, e) ∧
      convertPair true ["tapes"] (NameTable.standard.intern "licenses").2 offer wanted =
        .ok (d', e') ∧
      (d.consumables.get 4).count = 50000 ∧ (d'.consumables.get 6).count = 50000 ∧
      d.accepts e = d'.accepts e' ∧
      d.consumables.covers e.consumables = d'.consumables.covers e'.consumables ∧
      d'.consumables.fitCount e'.consumables = some 2 := by
  intro offer wanted
  obtain ⟨d, e, d', e', hpair, hpair', haccepts, hcovers, -, hfit, hname, -⟩ :=
    matching_independent offer wanted ⟨rfl, by decide +kernel⟩ ⟨rfl, by decide +kernel⟩
      false true [] ["tapes"] .standard (NameTable.standard.intern "licenses").2
  have hplace : (convertPair false [] .standard offer wanted).map
      (fun pair => (pair.1.consumables.get 4).count) = .ok 50000 := by decide +kernel
  have hplace' : (convertPair true ["tapes"] (NameTable.standard.intern "licenses").2 offer
      wanted).map (fun pair => (pair.1.consumables.get 6).count) = .ok 50000 := by decide +kernel
  rw [hpair] at hplace
  rw [hpair'] at hplace'
  refine ⟨d, e, d', e', hpair, hpair', Except.ok.inj hplace, Except.ok.inj hplace', haccepts,
    hcovers, ?_⟩
  rw [← hfit, hname]
  decide +kernel

end DescriptionSettings

end Wharf
