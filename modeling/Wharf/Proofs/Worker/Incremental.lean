import Mathlib.Data.List.Basic
import Mathlib.Data.List.Induction
import Wharf.Proofs.Catalog.History
import Wharf.Worker.Basic

/-!
# Tables that follow the catalog

A worker that is told of the changes of the catalog evaluates the cores that changed and carries the
others over. Its tables are those that a full evaluation gives, as long as every change is told in
some call whose catalog has it.

* Tables put together from rows give each row back (`Tables.carry_ofRows`), so that rows can be
  compared one by one.
* After any calls the row of a core is the evaluated one as soon as all changes of that core were
  told (`Worker.carry_followAll`). The argument goes back to the last call that names the core: from
  there on the core is the same in every catalog.
-/

namespace Wharf

namespace Row

variable {offer : Description} {ceiling : Nat}

@[simp]
theorem core_evaluate (core : Core) : (evaluate offer ceiling core).core = core.id := rfl

@[simp]
theorem core_carry (previous : Tables) (core : Core) :
    (carry previous ceiling core).core = core.id := by
  unfold carry
  split <;> rfl

end Row

namespace Catalog

variable {c : Catalog}

theorem mem_cores_iff {core : Core} : core ∈ c.cores ↔ ∃ id, c.core? id = some core :=
  List.mem_iff_getElem?

/-- In a dense catalog a core is determined by its id. -/
theorem IsDense.eq_of_id_eq (hc : c.IsDense) {core other : Core} (h : core ∈ c.cores)
    (h' : other ∈ c.cores) (hid : core.id = other.id) : core = other := by
  obtain ⟨i, hi⟩ := mem_cores_iff.1 h
  obtain ⟨j, hj⟩ := mem_cores_iff.1 h'
  have : i = j := by rw [← hc i core hi, ← hc j other hj, hid]
  subst this
  exact Option.some.inj (hi.symm.trans hj)

/-- The catalog of the last of several calls. -/
def lastOf (start : Catalog) (calls : List (Catalog × List Nat)) : Catalog :=
  calls.foldl (fun _ call => call.1) start

@[simp]
theorem lastOf_append (start : Catalog) (calls : List (Catalog × List Nat))
    (call : Catalog × List Nat) : lastOf start (calls ++ [call]) = call.1 := by
  rw [lastOf, List.foldl_append]
  rfl

theorem lastOf_mem (start : Catalog) (calls : List (Catalog × List Nat)) :
    lastOf start calls ∈ start :: calls.map Prod.fst := by
  induction calls using List.reverseRecOn with
  | nil => exact List.mem_cons_self
  | append_singleton calls call ih => simp

/-- The versions of the calls do not go down. -/
def Ascending (start : Catalog) (calls : List (Catalog × List Nat)) : Prop :=
  (start :: calls.map Prod.fst).Pairwise fun d e => d.version ≤ e.version

section Ascending

variable {start : Catalog} {calls : List (Catalog × List Nat)} {call : Catalog × List Nat}

theorem Ascending.init (h : Ascending start (calls ++ [call])) : Ascending start calls := by
  rw [Ascending, List.map_append, ← List.cons_append, List.pairwise_append] at h
  exact h.1

theorem Ascending.version_le (h : Ascending start (calls ++ [call])) :
    ∀ d ∈ start :: calls.map Prod.fst, d.version ≤ call.1.version := by
  rw [Ascending, List.map_append, ← List.cons_append, List.pairwise_append] at h
  exact fun d hd => h.2.2 d hd call.1 (by simp)

/-- No call is newer than the last one. -/
theorem Ascending.version_le_lastOf (h : Ascending start calls) :
    ∀ d ∈ start :: calls.map Prod.fst, d.version ≤ (lastOf start calls).version := by
  rcases List.eq_nil_or_concat' calls with rfl | ⟨older, call, rfl⟩
  · intro d hd
    rcases List.mem_singleton.1 hd with rfl
    exact Nat.le_refl _
  · intro d hd
    rw [lastOf_append]
    rw [List.map_append, ← List.cons_append, List.mem_append] at hd
    rcases hd with hd | hd
    · exact h.version_le d hd
    · rcases List.mem_singleton.1 hd with rfl
      exact Nat.le_refl _

end Ascending

end Catalog

namespace Tables

/-- **Tables give their rows back.** -/
theorem carry_ofRows {c : Catalog} (hc : c.IsDense) {f : Core → Row}
    (hf : ∀ core, (f core).core = core.id) (version ceiling : Nat) {core : Core}
    (h : core ∈ c.cores) : Row.carry (ofRows version (c.cores.map f)) ceiling core = f core := by
  obtain ⟨id, hid⟩ := Catalog.mem_cores_iff.1 h
  have hentry : (ofRows version (c.cores.map f)).entries[core.id]? = some (f core).entry := by
    have hcore : c.cores[core.id]? = some core := by
      rw [hc id core hid]
      exact hid
    simp only [ofRows, List.getElem?_map, hcore, Option.map_some]
  have hexecutable : (ofRows version (c.cores.map f)).executableCores.contains core.id =
      (f core).isExecutable := by
    rw [Bool.eq_iff_iff, List.contains_iff_mem]
    simp only [ofRows, List.mem_map, List.mem_filter]
    constructor
    · rintro ⟨row, ⟨⟨other, hother, rfl⟩, hrow⟩, hcore⟩
      rw [hf other] at hcore
      rw [← hc.eq_of_id_eq hother h hcore]
      exact hrow
    · exact fun hrow => ⟨f core, ⟨⟨core, h, rfl⟩, hrow⟩, hf core⟩
  unfold Row.carry
  rw [hentry, hexecutable, ← hf core]

end Tables

namespace Worker

/-- Follows the catalog in several calls, each with a catalog and the cores that changed. -/
def followAll (w : Worker) (calls : List (Catalog × List Nat)) : Worker :=
  calls.foldl (fun w call => w.update call.1 call.2) w

theorem followAll_append (w : Worker) (calls : List (Catalog × List Nat))
    (call : Catalog × List Nat) :
    w.followAll (calls ++ [call]) = (w.followAll calls).update call.1 call.2 := by
  rw [followAll, List.foldl_append]
  rfl

/-- Following the catalog changes the tables only. -/
theorem followAll_eq (w : Worker) (calls : List (Catalog × List Nat)) :
    w.followAll calls = { w with tables := (w.followAll calls).tables } := by
  induction calls using List.reverseRecOn with
  | nil => rfl
  | append_singleton calls call ih =>
    rw [followAll_append, ih]
    rfl

/-- The row that a call gives a core. -/
def rowOf (previous : Tables) (offer : Description) (ceiling : Nat) (changed : List Nat)
    (core : Core) : Row :=
  if changed.contains core.id then .evaluate offer ceiling core
  else .carry previous ceiling core

theorem core_rowOf (previous : Tables) (offer : Description) (ceiling : Nat) (changed : List Nat)
    (core : Core) : (rowOf previous offer ceiling changed core).core = core.id := by
  unfold rowOf
  split <;> simp

variable (name : String) (offer : Description) (ceiling : Nat)

theorem tables_followAll_append (start : Catalog) (calls : List (Catalog × List Nat))
    (call : Catalog × List Nat) :
    ((create name offer ceiling start).followAll (calls ++ [call])).tables =
      .ofRows call.1.version (call.1.cores.map
        (rowOf ((create name offer ceiling start).followAll calls).tables offer ceiling
          call.2)) := by
  rw [followAll_append, followAll_eq]
  rfl

variable {updates : List CatalogUpdate} {c start : Catalog} {calls : List (Catalog × List Nat)}

/-- Every change of a core that was published between the start and the last call is told in a call
whose catalog has it. -/
def Told (updates : List CatalogUpdate) (start : Catalog) (calls : List (Catalog × List Nat))
    (core : Nat) : Prop :=
  ∀ u ∈ updates, start.version < u.catalog.version →
    u.catalog.version ≤ (Catalog.lastOf start calls).version → core ∈ u.changed →
      ∃ call ∈ calls, core ∈ call.2 ∧ u.catalog.version ≤ call.1.version

/-- A call that does not name the core tells nothing of it, so all was told before. -/
theorem Told.init {call : Catalog × List Nat} {core : Nat}
    (h : Told updates start (calls ++ [call]) core)
    (hsorted : Catalog.Ascending start (calls ++ [call])) (hnot : core ∉ call.2) :
    Told updates start calls core ∧
      ∀ u ∈ updates, (Catalog.lastOf start calls).version < u.catalog.version →
        u.catalog.version ≤ call.1.version → core ∉ u.changed := by
  have hold : ∀ u ∈ updates, start.version < u.catalog.version →
      u.catalog.version ≤ call.1.version → core ∈ u.changed →
        ∃ other ∈ calls, core ∈ other.2 ∧ u.catalog.version ≤ other.1.version := by
    intro u hu hlt hle hid
    obtain ⟨other, hother, hid', hv⟩ := h u hu hlt (by rwa [Catalog.lastOf_append]) hid
    rcases List.mem_append.1 hother with hother | hother
    · exact ⟨other, hother, hid', hv⟩
    · rw [List.mem_singleton.1 hother] at hid'
      exact absurd hid' hnot
  have hnewest := hsorted.init.version_le_lastOf
  have hlast := hsorted.version_le _ (Catalog.lastOf_mem start calls)
  constructor
  · intro u hu hlt hle hid
    exact hold u hu hlt (by omega) hid
  · intro u hu hlt hle hid
    have hstart := hnewest start List.mem_cons_self
    obtain ⟨other, hother, -, hv⟩ := hold u hu (by omega) hle hid
    have hother := hnewest other.1 (List.mem_cons_of_mem _ (List.mem_map_of_mem hother))
    omega

/-- **The row of a core is the evaluated one once all its changes were told.** -/
theorem carry_followAll (h : Catalog.History updates c)
    (hstart : start ∈ Catalog.snapshots updates)
    (hcalls : ∀ call ∈ calls, call.1 ∈ Catalog.snapshots updates)
    (hsorted : Catalog.Ascending start calls) {core : Core}
    (hcore : core ∈ (Catalog.lastOf start calls).cores) (htold : Told updates start calls core.id) :
    Row.carry ((create name offer ceiling start).followAll calls).tables ceiling core =
      Row.evaluate offer ceiling core := by
  induction calls using List.reverseRecOn with
  | nil => exact Tables.carry_ofRows (h.isDense start hstart) Row.core_evaluate _ _ hcore
  | append_singleton calls call ih =>
    rw [Catalog.lastOf_append] at hcore
    have hcall : call.1 ∈ Catalog.snapshots updates := hcalls call (by simp)
    have hdense := h.isDense call.1 hcall
    rw [tables_followAll_append, Tables.carry_ofRows hdense (core_rowOf _ _ _ _) _ _ hcore, rowOf]
    split
    · rfl
    · rename_i hnot
      have hnot : core.id ∉ call.2 := by simpa using hnot
      -- Nothing was published about the core since the catalog before the call, which has it too.
      obtain ⟨htold', hsame⟩ := htold.init hsorted hnot
      have hcalls' : ∀ other ∈ calls, other.1 ∈ Catalog.snapshots updates :=
        fun other hother => hcalls other (List.mem_append_left _ hother)
      have hlast : Catalog.lastOf start calls ∈ Catalog.snapshots updates := by
        rcases List.mem_cons.1 (Catalog.lastOf_mem start calls) with hd | hd
        · rwa [hd]
        · obtain ⟨other, hother, hd⟩ := List.mem_map.1 hd
          rw [← hd]
          exact hcalls' other hother
      have heq := h.core?_eq core.id _ hlast _ hcall
        (hsorted.version_le _ (Catalog.lastOf_mem start calls)) hsame
      obtain ⟨id, hid⟩ := Catalog.mem_cores_iff.1 hcore
      rw [← hdense id core hid] at hid
      exact ih hcalls' hsorted.init (Catalog.mem_cores_iff.2 ⟨core.id, heq ▸ hid⟩) htold'

/-- **Tables that follow the catalog are those of a full evaluation.** The catalogs that the worker
is given are seen in the course of one history, none older than the one before. -/
theorem tables_followAll_eq_build (h : Catalog.History updates c)
    (hstart : start ∈ Catalog.snapshots updates)
    (hcalls : ∀ call ∈ calls, call.1 ∈ Catalog.snapshots updates)
    (hsorted : Catalog.Ascending start calls)
    (htold : ∀ core, Told updates start calls core) :
    ((create name offer ceiling start).followAll calls).tables =
      .build offer ceiling (Catalog.lastOf start calls) := by
  rcases List.eq_nil_or_concat' calls with rfl | ⟨older, call, rfl⟩
  · rfl
  · have hrow : ∀ core ∈ call.1.cores,
        rowOf ((create name offer ceiling start).followAll older).tables offer ceiling call.2 core =
          Row.evaluate offer ceiling core := by
      intro core hcore
      have hdense := h.isDense call.1 (hcalls call (by simp))
      have := carry_followAll name offer ceiling h hstart hcalls hsorted
        (by rwa [Catalog.lastOf_append]) (htold core.id)
      rwa [tables_followAll_append, Tables.carry_ofRows hdense (core_rowOf _ _ _ _) _ _ hcore]
        at this
    rw [tables_followAll_append, Catalog.lastOf_append, Tables.build, List.map_congr_left hrow]

/-- A worker that knows one core is told in one call that this core gained an implementation and
that there is another core. The call repeats an id and names a core that does not exist. -/
theorem tables_followAll_eq_build_two_cores :
    let need (count : Nat) : Description :=
      .compute ⟨.ofAmounts [(0, .saturating count)], none, .none⟩
    let first := Catalog.empty.register "sort" [("sort.one", need 1)]
    let second := first.catalog.register "sort" [("sort.one", need 1), ("sort.two", need 2)]
    let third := second.catalog.register "merge" []
    Catalog.History [first, second, third] third.catalog ∧
      ((create "w" (need 4) 3 first.catalog).followAll [(third.catalog, [1, 0, 7, 0])]).tables =
        .build (need 4) 3 third.catalog := by
  intro need first second third
  have history : Catalog.History [first, second, third] third.catalog :=
    .core (.core (.core .empty _ _) _ _) _ _
  refine ⟨history, tables_followAll_eq_build "w" (need 4) 3 history ?_ ?_ ?_ fun core => ?_⟩
  · exact List.mem_cons_of_mem _ List.mem_cons_self
  · intro call hcall
    rw [List.mem_singleton.1 hcall]
    exact history.mem_snapshots
  · refine List.pairwise_pair.2 ?_
    decide
  · intro u hu hlt hle hcore
    refine ⟨(third.catalog, [1, 0, 7, 0]), List.mem_cons_self, ?_, hle⟩
    simp only [List.mem_cons, List.not_mem_nil, or_false] at hu
    rcases hu with rfl | rfl | rfl
    · exact absurd hlt (Nat.lt_irrefl _)
    · have : second.changed = [0] := by decide
      simp_all
    · have : third.changed = [1] := by decide
      simp_all

end Worker

end Wharf
