import Wharf.Proofs.Worker.Columns

/-!
# Partial updates against one catalog

A worker that is told of changes in several calls with the same catalog evaluates in each of them
the cores that are named, and carries over what the calls before have made of the others.

* A row that is carried over from tables of the same catalog is the one that they were made with
  (`Tables.carry_rebuild`), whichever way it got there: evaluated, carried over from older tables,
  or left unevaluated.
* `Tables.rebuildAll` are several updates, and `Columns.rebuildAll?` fills the columns each time.
* **Updates add up** (`Tables.updates_add_up`): what counts is which cores were named in some call.
-/

namespace Wharf

namespace Tables

variable {offer : Description} {ceiling : Nat} {c : Catalog}

theorem rebuild_eq_ofRows (t : Tables) (offer : Description) (ceiling : Nat) (c : Catalog)
    (changed : List Nat) :
    t.rebuild offer ceiling c changed =
      .ofRows c.version (c.cores.map (Worker.rowOf t offer ceiling changed)) := rfl

/-- Updates that write the same rows give the same tables. -/
theorem rebuild_eq_of_rows {t t' : Tables} {changed changed' : List Nat}
    (h : ∀ core ∈ c.cores, Worker.rowOf t offer ceiling changed core =
      Worker.rowOf t' offer ceiling changed' core) :
    t.rebuild offer ceiling c changed = t'.rebuild offer ceiling c changed' := by
  rw [rebuild_eq_ofRows, List.map_congr_left h, rebuild_eq_ofRows]

/-- Only the ids that are named count, neither their order nor how often they are named. -/
theorem rebuild_congr (t : Tables) {named all : List Nat}
    (h : ∀ core ∈ c.cores, core.id ∈ named ↔ core.id ∈ all) :
    t.rebuild offer ceiling c named = t.rebuild offer ceiling c all := by
  refine rebuild_eq_of_rows fun core hcore => ?_
  have same : named.contains core.id = all.contains core.id := by
    rw [Bool.eq_iff_iff, List.contains_iff_mem, List.contains_iff_mem, h core hcore]
  simp only [Worker.rowOf, same]

/-- If all cores are named, nothing is left of the earlier tables. -/
theorem rebuild_eq_build (t : Tables) {all : List Nat} (h : ∀ core ∈ c.cores, core.id ∈ all) :
    t.rebuild offer ceiling c all = .build offer ceiling c := by
  have rows : c.cores.map (Worker.rowOf t offer ceiling all) =
      c.cores.map (Row.evaluate offer ceiling) := by
    refine List.map_congr_left fun core hcore => ?_
    rw [Worker.rowOf, if_pos (List.contains_iff_mem.2 (h core hcore))]
  rw [rebuild_eq_ofRows, rows, build]

/-- **The next update carries over the rows that this one has written.** -/
theorem carry_rebuild (t : Tables) (hc : c.IsDense) (changed : List Nat) {core : Core}
    (hcore : core ∈ c.cores) :
    Row.carry (t.rebuild offer ceiling c changed) ceiling core =
      Worker.rowOf t offer ceiling changed core :=
  carry_ofRows hc (Worker.core_rowOf t offer ceiling changed) c.version ceiling hcore

theorem rebuild_rebuild (t : Tables) (hc : c.IsDense) (first second : List Nat) :
    (t.rebuild offer ceiling c first).rebuild offer ceiling c second =
      t.rebuild offer ceiling c (first ++ second) := by
  refine rebuild_eq_of_rows fun core hcore => ?_
  have evaluates : (first ++ second).contains core.id =
      (first.contains core.id || second.contains core.id) := List.contains_append
  rw [Worker.rowOf, carry_rebuild t hc first hcore, Worker.rowOf, Worker.rowOf, evaluates]
  cases first.contains core.id <;> cases second.contains core.id <;> rfl

/-- Evaluates the cores of several lists, one list after the other. -/
def rebuildAll (t : Tables) (offer : Description) (ceiling : Nat) (c : Catalog)
    (lists : List (List Nat)) : Tables :=
  lists.foldl (fun t changed => t.rebuild offer ceiling c changed) t

/-- One update for all. There has to be a first one: tables of another catalog change even when no
core is named. -/
theorem rebuildAll_cons (t : Tables) (hc : c.IsDense) (first : List Nat) (rest : List (List Nat)) :
    t.rebuildAll offer ceiling c (first :: rest) =
      t.rebuild offer ceiling c (first ++ rest.flatten) := by
  induction rest generalizing first with
  | nil =>
    rw [List.flatten_nil, List.append_nil]
    rfl
  | cons second rest ih =>
    have merged : t.rebuildAll offer ceiling c (first :: second :: rest) =
        t.rebuildAll offer ceiling c ((first ++ second) :: rest) :=
      congrArg (rebuildAll · offer ceiling c rest) (rebuild_rebuild t hc first second)
    rw [merged, ih, List.flatten_cons, List.append_assoc]

end Tables

namespace Columns

/-- Fills the columns anew for each of several lists. -/
def rebuildAll? (t : Columns) (offer : Description) (ceiling : Nat) (c : Catalog)
    (lists : List (List Nat)) : Option Columns :=
  lists.foldlM (fun t changed => t.rebuild? offer ceiling c changed) t

theorem rebuildAll?_eq {offer : Description} {ceiling : Nat} {c : Catalog} (hc : c.IsNumbered)
    (t : Tables) (lists : List (List Nat)) :
    t.columns.rebuildAll? offer ceiling c lists =
      some (t.rebuildAll offer ceiling c lists).columns := by
  unfold rebuildAll?
  induction lists generalizing t with
  | nil => rfl
  | cons changed rest ih =>
    rw [List.foldlM_cons, rebuild?_eq hc]
    exact ih (t.rebuild offer ceiling c changed)

end Columns

namespace Tables

variable {c last : Catalog} {updates : List CatalogUpdate}

/-- **Updates against one catalog add up.** Take any tables, of whatever catalog and for whatever
resource. To evaluate some cores and then others gives the tables of evaluating all of them at once,
and so does any number of updates, in any order, with any ids: the tables depend only on which cores
of the catalog were named. Filling the columns gets through each time, and comes to the same. When
all cores of the catalog are named, the tables are those that are built afresh. -/
theorem updates_add_up (offer : Description) (ceiling : Nat)
    (history : Catalog.History updates last) (hc : c ∈ Catalog.snapshots updates) (t : Tables) :
    (∀ first second,
      (t.rebuild offer ceiling c first).rebuild offer ceiling c second =
          t.rebuild offer ceiling c (first ++ second) ∧
        (t.rebuild offer ceiling c second).rebuild offer ceiling c first =
          t.rebuild offer ceiling c (first ++ second)) ∧
    (∀ lists all, lists ≠ [] →
      (∀ core ∈ c.cores, core.id ∈ all ↔ ∃ changed ∈ lists, core.id ∈ changed) →
      t.rebuildAll offer ceiling c lists = t.rebuild offer ceiling c all ∧
        t.columns.rebuildAll? offer ceiling c lists =
          some (t.rebuild offer ceiling c all).columns) ∧
    ∀ all, (∀ core ∈ c.cores, core.id ∈ all) →
      t.rebuild offer ceiling c all = .build offer ceiling c := by
  have numbered : c.IsNumbered := history.isNumbered c hc
  refine ⟨fun first second => ⟨rebuild_rebuild t numbered.dense first second, ?_⟩,
    fun lists all hne hall => ?_, fun all => rebuild_eq_build t⟩
  · rw [rebuild_rebuild t numbered.dense]
    refine rebuild_congr t fun core _ => ?_
    rw [List.mem_append, List.mem_append, or_comm]
  · have at_once : t.rebuildAll offer ceiling c lists = t.rebuild offer ceiling c all := by
      obtain ⟨first, rest, rfl⟩ := List.exists_cons_of_ne_nil hne
      rw [rebuildAll_cons t numbered.dense, ← List.flatten_cons]
      refine rebuild_congr t fun core hcore => ?_
      rw [List.mem_flatten, hall core hcore]
    exact ⟨at_once, by rw [Columns.rebuildAll?_eq numbered, at_once]⟩

/-- Tables of the first catalog know one core with one implementation. Updates for the third catalog
name the core that is new, an id that no core has, and then the first core, twice. The core that
nobody names stays unevaluated; once it is named, too, the tables are those that are built
afresh. -/
theorem updates_add_up_three_cores :
    let need (count : Nat) : Description :=
      .compute ⟨.ofAmounts [(0, .saturating count)], none, .none⟩
    let first := Catalog.empty.register "sort" [("sort.one", need 1)]
    let second := first.catalog.register "sort" [("sort.two", need 2)]
    let third := second.catalog.register "merge" [("merge.one", need 1)]
    let fourth := third.catalog.register "rank" [("rank.one", need 4)]
    let t := build (need 4) 3 first.catalog
    Catalog.History [first, second, third, fourth] fourth.catalog ∧
      t.rebuildAll (need 4) 3 fourth.catalog [[2, 7], [0, 0]] =
        t.rebuild (need 4) 3 fourth.catalog [0, 2] ∧
      (t.rebuild (need 4) 3 fourth.catalog [0, 2]).executableCores = [0, 2] ∧
      (t.rebuild (need 4) 3 fourth.catalog [2, 1]).rebuild (need 4) 3 fourth.catalog [0] =
        build (need 4) 3 fourth.catalog := by
  intro need first second third fourth t
  have history : Catalog.History [first, second, third, fourth] fourth.catalog :=
    .core (.core (.core (.core .empty _ _) _ _) _ _) _ _
  obtain ⟨both, several, full⟩ := updates_add_up (need 4) 3 history history.mem_snapshots t
  have ids : fourth.catalog.cores.map Core.id = [0, 1, 2] := by decide
  have named : ∀ core ∈ fourth.catalog.cores, core.id = 0 ∨ core.id = 1 ∨ core.id = 2 := by
    intro core hcore
    simpa [ids] using List.mem_map_of_mem (f := Core.id) hcore
  have together := several [[2, 7], [0, 0]] [0, 2] (List.cons_ne_nil _ _)
  refine ⟨history, (together fun core hcore => ?_).1, by decide, ?_⟩
  · rcases named core hcore with h | h | h <;> simp [h]
  · rw [(both [2, 1] [0]).1]
    refine full _ fun core hcore => ?_
    rcases named core hcore with h | h | h <;> simp [h]

end Tables

end Wharf
