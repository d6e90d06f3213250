import Wharf.Proofs.Worker.FreshTables
import Wharf.Proofs.Worker.Representation

/-!
# Notices that come late

Registrations are published one after the other, but who passes them on to a worker may be
overtaken. A worker takes every notice as it comes: its tables are put together for the catalog of
the notice, whether that is newer than the one before or not.

* `Tables.UpheldBy` says that nothing that was executable has gone back in later tables: the version
  is not lower, and every executable core has kept what could run of it and may have gained more.
* Tables are upheld by whatever comes after them as long as no later notice is about a catalog that
  is older than one of those before (`Worker.Represents.upheldBy_noticeAll`).
* A notice that is older does set tables back, and `Worker.upheld_unless_late` says how far: the
  version always, and of the cores that are evaluated for the notice those of which its catalog has
  an older list.
-/

namespace Wharf

/-! ### Entries -/

namespace CoreEntry

variable {offer : Description} {ceiling : Nat}

/-- What could run still can, as often, and more may have been added behind it. -/
structure ExtendedBy (e f : CoreEntry) : Prop where
  executable : e.executable <+: f.executable
  instances : e.instances <+: f.instances

theorem ExtendedBy.refl (e : CoreEntry) : e.ExtendedBy e :=
  ⟨List.prefix_refl _, List.prefix_refl _⟩

theorem ExtendedBy.executable_ne_nil {e f : CoreEntry} (h : e.ExtendedBy f)
    (he : e.executable ≠ []) : f.executable ≠ [] :=
  fun hnil => he (List.prefix_nil.1 (hnil ▸ h.executable))

theorem evaluate_extendedBy {first second : List Implementation} (h : first <+: second) :
    (evaluate offer ceiling first).ExtendedBy (evaluate offer ceiling second) :=
  ⟨h.filter _, h.map _⟩

/-- Of two lists of one core, an entry is extended by that of a longer list, and only by that. -/
theorem evaluate_extendedBy_iff {first second all : List Implementation} (hfirst : first <+: all)
    (hsecond : second <+: all) :
    (evaluate offer ceiling first).ExtendedBy (evaluate offer ceiling second) ↔
      first <+: second := by
  refine ⟨fun h => ?_, evaluate_extendedBy⟩
  have hlength := h.instances.length_le
  simp only [evaluate, instancesOf, List.length_map] at hlength
  exact List.prefix_of_prefix_length_le hfirst hsecond hlength

/-- An entry in which something is executable has been evaluated. -/
theorem IsOf.exists_evaluate {known : List Catalog} {core : Nat} {entry : CoreEntry}
    (h : entry.IsOf known offer ceiling core) (hexecutable : entry.executable ≠ []) :
    ∃ d ∈ known, d.implementationsOf core ≠ [] ∧
      entry = evaluate offer ceiling (d.implementationsOf core) := by
  obtain ⟨d, hd, rfl | rfl⟩ := h
  · refine ⟨d, hd, fun hnil => ?_, rfl⟩
    rw [hnil] at hexecutable
    exact hexecutable rfl
  · exact absurd rfl hexecutable

end CoreEntry

/-! ### Tables -/

/-- Whether a notice has a core evaluated, if its catalog has the core. -/
def Notice.evaluates : Notice → Nat → Bool
  | .update _ changed, core => changed.contains core
  | .updateAll _, _ => true

namespace Tables

/-- Nothing that was executable has gone back in later tables. -/
structure UpheldBy (t u : Tables) : Prop where
  version_le : t.version ≤ u.version
  executable : ∀ core ∈ t.executableCores, core ∈ u.executableCores
  entries : ∀ core ∈ t.executableCores, ∀ e, t.entries[core]? = some e →
    ∃ f, u.entries[core]? = some f ∧ e.ExtendedBy f

variable {offer : Description} {ceiling : Nat} {c : Catalog} {core : Nat}

theorem entries_build (offer : Description) (ceiling : Nat) (hcore : core < c.size) :
    (build offer ceiling c).entries[core]? =
      some (.evaluate offer ceiling (c.implementationsOf core)) := by
  obtain ⟨found, hfound⟩ : ∃ found, c.cores[core]? = some found :=
    ⟨_, List.getElem?_eq_getElem hcore⟩
  simp only [getElem?_entries_build, Catalog.core?, hfound, Option.map_some,
    Catalog.implementationsOf]

/-- A core that is not evaluated keeps its entry. -/
theorem entries_rebuild (t : Tables) (offer : Description) (ceiling : Nat) (hc : c.IsDense)
    (changed : List Nat) (hcore : core < c.size) :
    (t.rebuild offer ceiling c changed).entries[core]? =
      some (if changed.contains core then .evaluate offer ceiling (c.implementationsOf core)
        else t.entries[core]?.getD (.unevaluated ceiling (c.implementationsOf core))) := by
  obtain ⟨found, hfound⟩ : ∃ found, c.cores[core]? = some found :=
    ⟨_, List.getElem?_eq_getElem hcore⟩
  have hid : found.id = core := hc core found hfound
  simp only [rebuild, ofRows, List.getElem?_map, hfound, Option.map_some, hid,
    Catalog.implementationsOf, Catalog.core?]
  split
  · rfl
  · simp only [Row.carry, hid]
    cases t.entries[core]? <;> rfl

end Tables

namespace Worker

variable {known : List Catalog} {offer : Description} {ceiling : Nat} {d : Catalog} {w : Worker}
  {n : Notice} {core : Nat}

theorem Represents.mono {all : List Catalog} (h : Represents known offer ceiling d w)
    (hall : ∀ e ∈ known, e ∈ all) : Represents all offer ceiling d w :=
  { h with
    entries := fun core entry hentry => by
      obtain ⟨e, he, hmade⟩ := h.entries core entry hentry
      exact ⟨e, hall e he, hmade⟩ }

theorem Represents.entries_notice (h : Represents known offer ceiling d w)
    (hn : n.catalog.IsDense) (hcore : core < n.catalog.size) :
    (w.notice n).tables.entries[core]? =
      some (if n.evaluates core then .evaluate offer ceiling (n.catalog.implementationsOf core)
        else w.tables.entries[core]?.getD
          (.unevaluated ceiling (n.catalog.implementationsOf core))) := by
  obtain ⟨rfl, rfl, -, -, -, -⟩ := h
  cases n with
  | update catalog changed => exact Tables.entries_rebuild w.tables _ _ hn changed hcore
  | updateAll catalog => exact Tables.entries_build _ _ hcore

/-- The entry of an executable core was evaluated for a catalog that has the core. -/
theorem Represents.exists_evaluate (h : Represents known offer ceiling d w)
    (hcore : core ∈ w.tables.executableCores) :
    ∃ d ∈ known, core < d.size ∧
      w.tables.entries[core]? = some (.evaluate offer ceiling (d.implementationsOf core)) ∧
      (CoreEntry.evaluate offer ceiling (d.implementationsOf core)).executable ≠ [] := by
  obtain ⟨entry, hentry, hexecutable⟩ := h.indexed.mem_iff.1 hcore
  obtain ⟨d, hd, himplementations, rfl⟩ :=
    (h.entries core entry hentry).exists_evaluate hexecutable
  exact ⟨d, hd, Catalog.lt_size_of_implementationsOf_ne_nil himplementations, hentry, hexecutable⟩

/-- An entry that is evaluated anew keeps what could run for a list that is no longer than the one
that it is evaluated for. -/
theorem Represents.extendedBy_notice_iff (h : Represents known offer ceiling d w)
    (hn : n.catalog.IsDense) (hknown : n.catalog ∈ known) (hevaluates : n.evaluates core = true)
    {first all : List Implementation} (hne : first ≠ []) (hfirst : first <+: all)
    (hlists : n.catalog.implementationsOf core <+: all) :
    (∃ f, (w.notice n).tables.entries[core]? = some f ∧
        (CoreEntry.evaluate offer ceiling first).ExtendedBy f) ↔
      first <+: n.catalog.implementationsOf core := by
  by_cases hlt : core < n.catalog.size
  · have hevaluated : (w.notice n).tables.entries[core]? = some _ := h.entries_notice hn hlt
    rw [if_pos hevaluates] at hevaluated
    simp only [hevaluated, Option.some.injEq, exists_eq_left']
    exact CoreEntry.evaluate_extendedBy_iff hfirst hlists
  · -- A catalog without the core has an empty list of it, and the tables lose its entry.
    have hnone : (w.notice n).tables.entries[core]? = none :=
      List.getElem?_eq_none (by rw [(h.notice n hn hknown).length_eq]; omega)
    have hnil : n.catalog.implementationsOf core = [] := by
      by_contra hne
      exact hlt (Catalog.lt_size_of_implementationsOf_ne_nil hne)
    rw [hnone, hnil, List.prefix_nil]
    simp [hne]

/-- What a core could run when its entry was evaluated is still there after a notice about a catalog
that is not older, however many notices came in between. -/
theorem Represents.entry_notice (h : Represents known offer ceiling d w)
    (hn : n.catalog.IsDense) {e : Catalog} (hsize : core < e.size)
    (hextended : e.ExtendedBy n.catalog)
    (hentry : ∃ f, w.tables.entries[core]? = some f ∧
      (CoreEntry.evaluate offer ceiling (e.implementationsOf core)).ExtendedBy f) :
    ∃ f, (w.notice n).tables.entries[core]? = some f ∧
      (CoreEntry.evaluate offer ceiling (e.implementationsOf core)).ExtendedBy f := by
  obtain ⟨f, hf, hextends⟩ := hentry
  obtain ⟨grown, hgrown, -⟩ := hextended core _ (List.getElem?_eq_getElem hsize)
  have hcore : core < n.catalog.size := (List.getElem?_eq_some_iff.1 hgrown).1
  refine ⟨_, h.entries_notice hn hcore, ?_⟩
  split
  · exact CoreEntry.evaluate_extendedBy (hextended.implementationsOf core)
  · rw [hf]
    exact hextends

theorem Represents.entry_noticeAll (hnumbered : ∀ d ∈ known, d.IsNumbered) {notices : List Notice}
    (h : Represents known offer ceiling d w) (hknown : ∀ n ∈ notices, n.catalog ∈ known)
    {e : Catalog} (hsize : core < e.size)
    (hextended : ∀ n ∈ notices, e.ExtendedBy n.catalog)
    (hentry : ∃ f, w.tables.entries[core]? = some f ∧
      (CoreEntry.evaluate offer ceiling (e.implementationsOf core)).ExtendedBy f) :
    ∃ f, (w.noticeAll notices).tables.entries[core]? = some f ∧
      (CoreEntry.evaluate offer ceiling (e.implementationsOf core)).ExtendedBy f := by
  induction notices generalizing d w with
  | nil => exact hentry
  | cons n rest ih =>
    have hn : n.catalog.IsDense := (hnumbered _ (hknown n List.mem_cons_self)).dense
    exact ih (h.notice n hn (hknown n List.mem_cons_self))
      (fun m hm => hknown m (List.mem_cons_of_mem _ hm))
      (fun m hm => hextended m (List.mem_cons_of_mem _ hm))
      (h.entry_notice hn hsize (hextended n List.mem_cons_self) hentry)

/-- **Notices uphold the tables** if none of them is about a catalog that is older than one of those
before them. -/
theorem Represents.upheldBy_noticeAll {updates : List CatalogUpdate} {c : Catalog}
    (history : Catalog.History updates c) {seen : List Catalog}
    (hseen : ∀ d ∈ seen, d ∈ Catalog.snapshots updates) (hd : d ∈ seen)
    (h : Represents seen offer ceiling d w) {notices : List Notice}
    (hnotices : ∀ n ∈ notices, n.catalog ∈ Catalog.snapshots updates)
    (hlate : ∀ n ∈ notices, ∀ e ∈ seen, e.version ≤ n.catalog.version) :
    w.tables.UpheldBy (w.noticeAll notices).tables := by
  have hw : Represents (Catalog.snapshots updates) offer ceiling d w := h.mono hseen
  obtain ⟨hv, -⟩ := hw.noticeAll history.isNumbered hnotices
  have hversion : d.version ≤ ((notices.map Notice.catalog).getLastD d).version := by
    rcases List.mem_cons.1 List.getLastD_mem_cons with hlast | hlast
    · exact Nat.le_of_eq (congrArg Catalog.version hlast.symm)
    · obtain ⟨n, hn, heq⟩ := List.mem_map.1 hlast
      rw [← heq]
      exact hlate n hn d hd
  have hentry : ∀ core ∈ w.tables.executableCores, ∃ e f, w.tables.entries[core]? = some e ∧
      (w.noticeAll notices).tables.entries[core]? = some f ∧ e.ExtendedBy f ∧
      e.executable ≠ [] := by
    intro core hcore
    obtain ⟨e, he, hsize, hentry, hexecutable⟩ := h.exists_evaluate hcore
    obtain ⟨f, hf, hextends⟩ := hw.entry_noticeAll history.isNumbered hnotices hsize
      (fun n hn => history.extendedBy_of_version_le e (hseen e he) _ (hnotices n hn)
        (hlate n hn e he))
      ⟨_, hentry, .refl _⟩
    exact ⟨_, f, hentry, hf, hextends, hexecutable⟩
  exact
    { version_le := by
        rw [hw.version_eq, hv.version_eq]
        exact hversion
      executable := fun core hcore => by
        obtain ⟨e, f, -, hf, hextends, hexecutable⟩ := hentry core hcore
        exact hv.indexed.mem_iff.2 ⟨f, hf, hextends.executable_ne_nil hexecutable⟩
      entries := fun core hcore e he => by
        obtain ⟨e', f, he', hf, hextends, -⟩ := hentry core hcore
        cases he.symm.trans he'
        exact ⟨f, hf, hextends⟩ }

/-- **Tables go back by late notices only**, and by these as far as their catalogs are older.

Whatever came `before`, the tables are upheld by the notices `after` if none of these is about a
catalog that is older than one of those before. A notice at any time sets the version to that of its
catalog. Of the cores that were executable, one that the notice has evaluated keeps what it could
run just when the catalog has no shorter list of it than the one that its entry was made from, and
one that it does not have evaluated keeps its entry, provided that the catalog has the core. -/
theorem upheld_unless_late (name : String) (offer : Description) (ceiling : Nat) (start : Catalog)
    (before after : List Notice) {updates : List CatalogUpdate} {c : Catalog}
    (h : Catalog.History updates c) (hstart : start ∈ Catalog.snapshots updates)
    (hbefore : ∀ n ∈ before, n.catalog ∈ Catalog.snapshots updates)
    (hafter : ∀ n ∈ after, n.catalog ∈ Catalog.snapshots updates) :
    let w := (create name offer ceiling start).noticeAll before
    let seen := start :: before.map Notice.catalog
    ((∀ n ∈ after, ∀ d ∈ seen, d.version ≤ n.catalog.version) →
      w.tables.UpheldBy (w.noticeAll after).tables) ∧
    ∀ n, n.catalog ∈ Catalog.snapshots updates →
      (w.notice n).tables.version = n.catalog.version ∧
      ((w.notice n).tables.version < w.tables.version ↔
        n.catalog.version < ((before.map Notice.catalog).getLastD start).version) ∧
      ∀ core ∈ w.tables.executableCores, ∃ d ∈ seen, ∃ e, w.tables.entries[core]? = some e ∧
        e = .evaluate offer ceiling (d.implementationsOf core) ∧
        (n.evaluates core = true →
          ((∃ f, (w.notice n).tables.entries[core]? = some f ∧ e.ExtendedBy f) ↔
            d.implementationsOf core <+: n.catalog.implementationsOf core)) ∧
        (n.evaluates core = false → core < n.catalog.size →
          core ∈ (w.notice n).tables.executableCores ∧
            (w.notice n).tables.entries[core]? = some e) := by
  intro w seen
  have hseen : ∀ d ∈ seen, d ∈ Catalog.snapshots updates := by
    simpa [seen, hstart] using hbefore
  have hcreate : Represents seen offer ceiling start (create name offer ceiling start) :=
    represents_create name (h.isNumbered start hstart).dense List.mem_cons_self
  obtain ⟨hw, -⟩ := hcreate.noticeAll (fun d hd => h.isNumbered d (hseen d hd))
    fun n hn => List.mem_cons_of_mem _ (List.mem_map_of_mem hn)
  refine ⟨hw.upheldBy_noticeAll h hseen List.getLastD_mem_cons hafter, fun n hn => ?_⟩
  have hdense : n.catalog.IsDense := (h.isNumbered _ hn).dense
  have hnotice : Represents (Catalog.snapshots updates) offer ceiling n.catalog (w.notice n) :=
    (hw.mono hseen).notice n hdense hn
  refine ⟨hnotice.version_eq, ?_, fun core hcore => ?_⟩
  · rw [hnotice.version_eq, hw.version_eq]
  · obtain ⟨d, hd, hsize, hentry, hexecutable⟩ := hw.exists_evaluate hcore
    refine ⟨d, hd, _, hentry, rfl, fun hevaluates => ?_, fun hevaluates hlt => ?_⟩
    · exact (hw.mono hseen).extendedBy_notice_iff hdense hn hevaluates
        (fun hnil => hexecutable (by rw [hnil]; rfl))
        ((h.extendedBy d (hseen d hd)).implementationsOf core)
        ((h.extendedBy _ hn).implementationsOf core)
    · have hkept : (w.notice n).tables.entries[core]? = some _ := hw.entries_notice hdense hlt
      rw [hevaluates, hentry] at hkept
      exact ⟨hnotice.indexed.mem_iff.2 ⟨_, hkept, hexecutable⟩, hkept⟩

/-- Of two registrations the worker hears of the second one first. Whatever is said of its catalog
again leaves the tables as they are; the first catalog sets the version back, but not the entry of a
core that is not said to have changed. -/
theorem upheld_unless_late_two_registrations :
    let need (count : Nat) : Description :=
      .compute ⟨.ofAmounts [(0, .saturating count)], none, .none⟩
    let first := Catalog.empty.register "sort" [("sort.one", need 1)]
    let second := first.catalog.register "sort" [("sort.one", need 1), ("sort.two", need 2)]
    let w := (create "w" (need 4) 3 .empty).noticeAll [.update second.catalog second.changed]
    Catalog.History [first, second] second.catalog ∧ w.tables.executableCores = [0] ∧
      w.tables.UpheldBy
        (w.noticeAll [.update second.catalog [], .updateAll second.catalog]).tables ∧
      (w.notice (.update first.catalog [])).tables.version = 1 ∧
      (w.notice (.update first.catalog [])).tables.entries[0]? = w.tables.entries[0]? := by
  intro need first second w
  have history : Catalog.History [first, second] second.catalog := .core (.core .empty _ _) _ _
  have known : ∀ d ∈ [Catalog.empty, first.catalog, second.catalog],
      d ∈ Catalog.snapshots [first, second] := fun _ hd => hd
  obtain ⟨upheld, late⟩ := upheld_unless_late "w" (need 4) 3 .empty
    [.update second.catalog second.changed] [.update second.catalog [], .updateAll second.catalog]
    history (known _ (by simp)) (by simp [Notice.catalog, Catalog.snapshots])
    (by simp [Notice.catalog, Catalog.snapshots])
  obtain ⟨version, -, entry⟩ := late (.update first.catalog []) (known _ (by simp [Notice.catalog]))
  obtain ⟨d, -, e, old, -, -, kept⟩ := entry 0 (by decide)
  refine ⟨history, by decide, upheld (by simp [Notice.catalog]; decide), version, ?_⟩
  exact (kept rfl (by decide)).2.trans old.symm

/-- Two registrations of one core are passed on to a worker, each with the catalog and the ids that
it published, but the first one arrives last: the version goes down, and the implementation of the
second one is not executable any more. -/
theorem set_back_by_late_notice :
    let need (count : Nat) : Description :=
      .compute ⟨.ofAmounts [(0, .saturating count)], none, .none⟩
    let first := Catalog.empty.register "sort" [("sort.one", need 1)]
    let second := first.catalog.register "sort" [("sort.one", need 1), ("sort.two", need 2)]
    let w := (create "w" (need 4) 3 .empty).noticeAll [.update second.catalog second.changed]
    let v := w.notice (.update first.catalog first.changed)
    Catalog.History [first, second] second.catalog ∧ ¬ w.tables.UpheldBy v.tables ∧
      w.tables.version = 2 ∧ v.tables.version = 1 ∧
      (w.tables.executableOf 0).map Implementation.index = [0, 1] ∧
      (v.tables.executableOf 0).map Implementation.index = [0] := by
  intro need first second w v
  refine ⟨.core (.core .empty _ _) _ _, fun upheld => ?_, by decide, by decide, by decide,
    by decide⟩
  exact absurd upheld.version_le (by decide)

end Worker

end Wharf
