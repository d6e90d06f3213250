import Mathlib.Data.List.GetD
import Wharf.Proofs.Worker.Columns

/-!
# What tables stand for

A worker is told of catalogs in any order, older ones included, and with any list of cores that are
said to have changed. Its tables may then say little of the newest catalog, but they are always
tables: each entry is right in itself, and the fields agree.

* `CoreEntry.IsOf` is an entry that was made for a core as some known catalog has it, whether it was
  evaluated or not. Of these entries it is shown that their fields agree.
* `Tables.IsIndexed` says that the executable cores are those with an executable implementation, in
  order. Tables that are put together from rows are indexed if each row is marked right
  (`Tables.isIndexed_ofRows`), and rows that are carried over are.
* `Worker.Represents` collects what holds of a worker after any notices, one of them preserves it
  (`Worker.Represents.notice`), and `Worker.tables_represent` says what this means for the columns.
-/

namespace Wharf

/-! ### Entries -/

theorem lt_foldl_max {counts : List Nat} {a b : Nat} :
    a < counts.foldl max b ↔ a < b ∨ ∃ count ∈ counts, a < count := by
  induction counts generalizing b with
  | nil => simp
  | cons count rest ih =>
    have hmax : a < max b count ↔ a < b ∨ a < count := by omega
    rw [List.foldl_cons, ih, hmax, or_assoc]
    simp

theorem foldl_max_eq_max? (counts : List Nat) : counts.foldl max 0 = counts.max?.getD 0 := by
  cases counts with
  | nil => rfl
  | cons count rest => rw [List.foldl_cons, Nat.zero_max, List.max?_cons', Option.getD_some]

namespace CoreEntry

/-- An entry that was made for a core as one of the known catalogs has it. -/
def IsOf (known : List Catalog) (offer : Description) (ceiling core : Nat) (entry : CoreEntry) :
    Prop :=
  ∃ d ∈ known, entry = .evaluate offer ceiling (d.implementationsOf core) ∨
    entry = .unevaluated ceiling (d.implementationsOf core)

variable {known : List Catalog} {offer : Description} {ceiling core : Nat} {entry : CoreEntry}

theorem IsOf.ideal_eq (h : entry.IsOf known offer ceiling core) :
    entry.ideal = entry.instances.max?.getD 0 := by
  obtain ⟨d, -, rfl | rfl⟩ := h
  · exact foldl_max_eq_max? _
  · rw [← foldl_max_eq_max?, unevaluated, List.map_const']
    induction (d.implementationsOf core).length with
    | zero => rfl
    | succ n ih => exact ih

theorem IsOf.slots_eq (h : entry.IsOf known offer ceiling core) :
    entry.slots = min entry.ideal ceiling := by
  obtain ⟨d, -, rfl | rfl⟩ := h <;> rfl

/-- Something is executable just when the largest number of instances is not zero. -/
theorem IsOf.ideal_pos_iff (h : entry.IsOf known offer ceiling core) :
    0 < entry.ideal ↔ entry.executable ≠ [] := by
  obtain ⟨d, -, rfl | rfl⟩ := h
  · show 0 < (instancesOf offer ceiling (d.implementationsOf core)).foldl max 0 ↔ _
    rw [lt_foldl_max, evaluate, Ne, List.filter_eq_nil_iff]
    simp [instancesOf, Nat.pos_iff_ne_zero]
  · simp [unevaluated]

/-- The first implementations of a core, as an earlier catalog has them, make the executable ones of
the whole list be found by their numbers of instances: all later ones have none. -/
theorem filter_instances {first all : List Implementation} (hfirst : first <+: all)
    (hindex : ∀ index (i : Implementation), all[index]? = some i → i.index = index) :
    (all.filter fun i => 0 < (instancesOf offer ceiling first).getD i.index 0) =
      (evaluate offer ceiling first).executable := by
  obtain ⟨rest, rfl⟩ := hfirst
  have hknown : ∀ i ∈ first, (instancesOf offer ceiling first).getD i.index 0 =
      (simultaneous? offer ceiling i).getD 0 := by
    intro i hi
    obtain ⟨index, hget⟩ := List.mem_iff_getElem?.1 hi
    have hlt := (List.getElem?_eq_some_iff.1 hget).1
    rw [hindex index i (by rw [List.getElem?_append_left hlt, hget])]
    simp [instancesOf, List.getD_eq_getElem?_getD, hget]
  have hrest : ∀ i ∈ rest, (instancesOf offer ceiling first).getD i.index 0 = 0 := by
    intro i hi
    obtain ⟨index, hget⟩ := List.mem_iff_getElem?.1 hi
    have hplace : i.index = first.length + index := by
      refine hindex _ i ?_
      rw [List.getElem?_append_right (Nat.le_add_right _ _), Nat.add_sub_cancel_left, hget]
    rw [List.getD_eq_default]
    rw [instancesOf, List.length_map]
    omega
  have hnone :
      (rest.filter fun i => 0 < (instancesOf offer ceiling first).getD i.index 0) = [] := by
    rw [List.filter_eq_nil_iff]
    intro i hi
    rw [hrest i hi]
    simp
  rw [List.filter_append, hnone, List.append_nil, evaluate]
  exact List.filter_congr fun i hi => by rw [hknown i hi]

/-- **The executable implementations of an entry are those with a number of instances**, among all
that the core has been given. -/
theorem IsOf.executable_eq (h : entry.IsOf known offer ceiling core) {c : Catalog}
    (hc : c.IsNumbered) (hknown : ∀ d ∈ known, d.ExtendedBy c) :
    entry.executable = (c.implementationsOf core).filter
      fun i => 0 < entry.instances.getD i.index 0 := by
  obtain ⟨d, hd, rfl | rfl⟩ := h
  · have hindex : ∀ index (i : Implementation), (c.implementationsOf core)[index]? = some i →
        i.index = index := fun index i hi =>
      (hc.ids_eq (show c.implementation? core index = some i from hi)).2
    exact (filter_instances ((hknown d hd).implementationsOf core) hindex).symm
  · symm
    rw [unevaluated, List.filter_eq_nil_iff]
    intro i _
    rw [List.map_const', List.getD_eq_getElem?_getD, List.getElem?_replicate]
    split <;> simp

end CoreEntry

/-! ### Tables -/

namespace Tables

/-- The executable cores are those with an executable implementation, in order. -/
def IsIndexed (t : Tables) : Prop :=
  t.executableCores =
    (List.range t.entries.length).filter fun core => !(t.executableOf core).isEmpty

variable {t : Tables} {offer : Description} {ceiling : Nat} {c : Catalog}

theorem IsIndexed.mem_iff (h : t.IsIndexed) {core : Nat} :
    core ∈ t.executableCores ↔
      ∃ entry, t.entries[core]? = some entry ∧ entry.executable ≠ [] := by
  rw [h, List.mem_filter, List.mem_range, executableOf]
  by_cases hlt : core < t.entries.length <;> simp [hlt]

/-- **Tables are indexed if every row stands in its place and is marked right.** -/
theorem isIndexed_ofRows {rows : List Row} (version : Nat)
    (hplace : ∀ core (row : Row), rows[core]? = some row → row.core = core)
    (hmark : ∀ row ∈ rows, row.isExecutable = !row.entry.executable.isEmpty) :
    (ofRows version rows).IsIndexed := by
  have hcores : List.range rows.length = rows.map Row.core := by
    refine List.ext_getElem? fun core => ?_
    rw [List.getElem?_map]
    by_cases hlt : core < rows.length
    · rw [List.getElem?_range hlt, List.getElem?_eq_getElem hlt, Option.map_some,
        hplace core _ (List.getElem?_eq_getElem hlt)]
    · rw [List.getElem?_eq_none (by simpa using hlt), List.getElem?_eq_none (by simpa using hlt)]
      rfl
  have hentry : ∀ row ∈ rows, row.isExecutable =
      !((ofRows version rows).executableOf row.core).isEmpty := by
    intro row hrow
    obtain ⟨core, hcore⟩ := List.mem_iff_getElem?.1 hrow
    rw [hmark row hrow, hplace core row hcore]
    simp [executableOf, ofRows, hcore]
  show (rows.filter Row.isExecutable).map Row.core =
    (List.range (rows.map Row.entry).length).filter _
  rw [List.length_map, hcores, List.filter_map]
  exact congrArg _ (List.filter_congr hentry)

theorem isIndexed_ofRows_map (hc : c.IsDense) {f : Core → Row} (version : Nat)
    (hcore : ∀ core, (f core).core = core.id)
    (hmark : ∀ core, (f core).isExecutable = !(f core).entry.executable.isEmpty) :
    (ofRows version (c.cores.map f)).IsIndexed := by
  refine isIndexed_ofRows version (fun place row hrow => ?_) fun row hrow => ?_
  · rw [List.getElem?_map, Option.map_eq_some_iff] at hrow
    obtain ⟨core, hget, rfl⟩ := hrow
    rw [hcore, hc place core hget]
  · obtain ⟨core, -, rfl⟩ := List.mem_map.1 hrow
    exact hmark core

/-- A row that is carried over from indexed tables is marked right. -/
theorem IsIndexed.isExecutable_carry (h : t.IsIndexed) (core : Core) :
    (Row.carry t ceiling core).isExecutable =
      !(Row.carry t ceiling core).entry.executable.isEmpty := by
  unfold Row.carry
  split
  · rename_i entry hentry
    rw [Bool.eq_iff_iff, List.contains_iff_mem, h.mem_iff]
    simp [hentry]
  · rfl

theorem isIndexed_build (hc : c.IsDense) : (build offer ceiling c).IsIndexed :=
  isIndexed_ofRows_map hc c.version Row.core_evaluate fun _ => rfl

theorem IsIndexed.rebuild (h : t.IsIndexed) (hc : c.IsDense) (changed : List Nat) :
    (t.rebuild offer ceiling c changed).IsIndexed := by
  refine isIndexed_ofRows_map hc c.version
    (Worker.core_rowOf t offer ceiling changed) fun core => ?_
  split
  · rfl
  · exact h.isExecutable_carry core

/-! The entries of tables that are built or rebuilt. -/

variable {known : List Catalog}

/-- Every entry was made for its core as one of the known catalogs has it. -/
def IsOf (known : List Catalog) (offer : Description) (ceiling : Nat) (t : Tables) : Prop :=
  ∀ core (entry : CoreEntry), t.entries[core]? = some entry →
    entry.IsOf known offer ceiling core

theorem isOf_ofRows_map (hc : c.IsDense) {f : Core → Row} (version : Nat)
    (h : ∀ core ∈ c.cores, (f core).entry.IsOf known offer ceiling core.id) :
    IsOf known offer ceiling (ofRows version (c.cores.map f)) := by
  intro place entry hentry
  simp only [ofRows, List.getElem?_map, Option.map_map, Option.map_eq_some_iff] at hentry
  obtain ⟨core, hget, rfl⟩ := hentry
  rw [← hc place core hget]
  exact h core (List.mem_of_getElem? hget)

/-- A core that is evaluated as a known catalog has it. -/
theorem isOf_evaluate (hc : c.IsDense) (hknown : c ∈ known) {core : Core} (hcore : core ∈ c.cores) :
    (Row.evaluate offer ceiling core).entry.IsOf known offer ceiling core.id := by
  refine ⟨c, hknown, .inl ?_⟩
  rw [hc.implementationsOf_id hcore]
  rfl

theorem isOf_build (hc : c.IsDense) (hknown : c ∈ known) :
    IsOf known offer ceiling (build offer ceiling c) :=
  isOf_ofRows_map hc c.version fun _ => isOf_evaluate hc hknown

theorem IsOf.rebuild (h : IsOf known offer ceiling t) (hc : c.IsDense) (hknown : c ∈ known)
    (changed : List Nat) : IsOf known offer ceiling (t.rebuild offer ceiling c changed) := by
  refine isOf_ofRows_map hc c.version fun core hcore => ?_
  split
  · exact isOf_evaluate hc hknown hcore
  · unfold Row.carry
    split
    · rename_i entry hentry
      exact h core.id entry hentry
    · refine ⟨c, hknown, .inr ?_⟩
      rw [hc.implementationsOf_id hcore]
      rfl

end Tables

/-! ### Workers -/

/-- A worker is told of a catalog: that some cores have changed, or that any may have. -/
inductive Notice
  | update (catalog : Catalog) (changed : List Nat)
  | updateAll (catalog : Catalog)

/-- The catalog that a notice is about. -/
def Notice.catalog : Notice → Catalog
  | update catalog _ => catalog
  | updateAll catalog => catalog

/-- The columns after a notice; none when an access was out of range. -/
def Columns.notice? (offer : Description) (ceiling : Nat) (t : Columns) : Notice → Option Columns
  | .update catalog changed => t.rebuild? offer ceiling catalog changed
  | .updateAll catalog => build? offer ceiling catalog

/-- The columns of a worker that starts with a catalog and is told of others. -/
def Columns.follow? (offer : Description) (ceiling : Nat) (start : Catalog)
    (notices : List Notice) : Option Columns :=
  (build? offer ceiling start).bind fun t => notices.foldlM (notice? offer ceiling) t

namespace Worker

/-- The worker after a notice. -/
def notice (w : Worker) : Notice → Worker
  | .update catalog changed => w.update catalog changed
  | .updateAll catalog => w.updateAll catalog

/-- The worker after several notices. -/
def noticeAll (w : Worker) (notices : List Notice) : Worker := notices.foldl notice w

/-- What holds of a worker that was told of known catalogs, the last of which is `d`. -/
structure Represents (known : List Catalog) (offer : Description) (ceiling : Nat) (d : Catalog)
    (w : Worker) : Prop where
  description_eq : w.description = offer
  ceiling_eq : w.slots.ceiling = ceiling
  version_eq : w.tables.version = d.version
  length_eq : w.tables.entries.length = d.size
  indexed : w.tables.IsIndexed
  entries : w.tables.IsOf known offer ceiling

variable {known : List Catalog} {offer : Description} {ceiling : Nat} {d e : Catalog} {w : Worker}

theorem represents_create (name : String) (hd : d.IsDense) (hknown : d ∈ known) :
    Represents known offer ceiling d (create name offer ceiling d) where
  description_eq := rfl
  ceiling_eq := rfl
  version_eq := rfl
  length_eq := by simp [create, Tables.build, Tables.ofRows, Catalog.size]
  indexed := Tables.isIndexed_build hd
  entries := Tables.isOf_build hd hknown

/-- **A notice keeps what the tables stand for**, whatever it says. -/
theorem Represents.notice (h : Represents known offer ceiling d w) (n : Notice)
    (hn : n.catalog.IsDense) (hknown : n.catalog ∈ known) :
    Represents known offer ceiling n.catalog (w.notice n) := by
  obtain ⟨rfl, rfl, -, -, hindexed, hentries⟩ := h
  cases n with
  | update catalog changed =>
    exact
      { description_eq := rfl
        ceiling_eq := rfl
        version_eq := rfl
        length_eq := by
          simp [Worker.notice, update, Tables.rebuild, Tables.ofRows, Catalog.size, Notice.catalog]
        indexed := hindexed.rebuild hn changed
        entries := hentries.rebuild hn hknown changed }
  | updateAll catalog =>
    exact
      { description_eq := rfl
        ceiling_eq := rfl
        version_eq := rfl
        length_eq := by
          simp [Worker.notice, updateAll, Tables.build, Tables.ofRows, Catalog.size, Notice.catalog]
        indexed := Tables.isIndexed_build hn
        entries := Tables.isOf_build hn hknown }

theorem Represents.notice? (h : Represents known offer ceiling d w) (n : Notice)
    (hn : n.catalog.IsNumbered) :
    Columns.notice? offer ceiling w.tables.columns n = some (w.notice n).tables.columns := by
  obtain ⟨rfl, rfl, -, -, -, -⟩ := h
  cases n with
  | update catalog changed => exact Columns.rebuild?_eq hn w.tables changed
  | updateAll catalog => exact Columns.build?_eq hn

/-- Notices keep it, and the columns follow without leaving their range. -/
theorem Represents.noticeAll (hnumbered : ∀ d ∈ known, d.IsNumbered) {notices : List Notice}
    (h : Represents known offer ceiling d w) (hknown : ∀ n ∈ notices, n.catalog ∈ known) :
    Represents known offer ceiling ((notices.map Notice.catalog).getLastD d)
        (w.noticeAll notices) ∧
      notices.foldlM (Columns.notice? offer ceiling) w.tables.columns =
        some (w.noticeAll notices).tables.columns := by
  induction notices generalizing d w with
  | nil => exact ⟨h, rfl⟩
  | cons n rest ih =>
    have hn : n.catalog ∈ known := hknown n List.mem_cons_self
    obtain ⟨hrest, hcolumns⟩ := ih (h.notice n (hnumbered _ hn).dense hn)
      fun m hm => hknown m (List.mem_cons_of_mem _ hm)
    refine ⟨?_, ?_⟩
    · rw [List.map_cons, List.getLastD_cons]
      exact hrest
    · rw [List.foldlM_cons, h.notice? n (hnumbered _ hn)]
      exact hcolumns

/-- **Tables are always tables.** Whatever catalogs of a history a worker was told of, in any order
and with any cores that are said to have changed, all columns have an entry for each core of the
last one and none was left in filling them. The fields of a core agree, its executable
implementations are those with a number of instances, once each and in the order of registration,
and the executable cores are the ascending list of those that have any. -/
theorem tables_represent (name : String) (offer : Description) (ceiling : Nat)
    {updates : List CatalogUpdate} {c start : Catalog} {notices : List Notice}
    (h : Catalog.History updates c) (hstart : start ∈ Catalog.snapshots updates)
    (hnotices : ∀ n ∈ notices, n.catalog ∈ Catalog.snapshots updates) :
    let w := (create name offer ceiling start).noticeAll notices
    let last := (notices.map Notice.catalog).getLastD start
    ∃ t, Columns.follow? offer ceiling start notices = some t ∧ t = w.tables.columns ∧
      t.version = last.version ∧
      (t.executable.size = last.size ∧ t.instances.size = last.size ∧ t.ideal.size = last.size ∧
        t.slots.size = last.size) ∧
      (∀ core < last.size, ∃ executable instances ideal,
        t.executable.get? core = some executable ∧ t.instances.get? core = some instances ∧
        t.ideal.get? core = some ideal ∧ t.slots.get? core = some (min ideal ceiling) ∧
        ideal = instances.values.max?.getD 0 ∧
        executable = (c.implementationsOf core).filter
          (fun i => 0 < (instances.get? i.index).getD 0) ∧
        executable.Nodup ∧ (core ∈ t.executableCores ↔ executable ≠ [])) ∧
      t.executableCores.Pairwise (· < ·) ∧ (∀ core ∈ t.executableCores, core < last.size) ∧
      ∀ core, core ∈ t.executableCores ↔ w.canRun core = true := by
  intro w last
  have hnumbered : ∀ d ∈ Catalog.snapshots updates, d.IsNumbered := h.isNumbered
  have hcreate : Represents (Catalog.snapshots updates) offer ceiling start
      (create name offer ceiling start) :=
    represents_create name (hnumbered start hstart).dense hstart
  obtain ⟨hw, hcolumns⟩ := hcreate.noticeAll hnumbered hnotices
  have hlast : w.tables.entries.length = last.size := hw.length_eq
  have hsize : ∀ {α : Type} (f : CoreEntry → α), (w.tables.entries.map f).length = last.size :=
    fun f => by rw [List.length_map, hlast]
  have hcores : w.tables.executableCores = _ := hw.indexed
  refine ⟨w.tables.columns, ?_, rfl, hw.version_eq, ⟨hsize _, hsize _, hsize _, hsize _⟩,
    fun core hcore => ?_, ?_, fun core hcore => ?_, fun core => ?_⟩
  · rw [Columns.follow?, Columns.build?_eq (hnumbered start hstart)]
    exact hcolumns
  · have hentry : w.tables.entries[core]? = some w.tables.entries[core] :=
      List.getElem?_eq_getElem _
    generalize w.tables.entries[core] = entry at hentry
    have hof := hw.entries core entry hentry
    have hexecutable := hof.executable_eq h.produced.isNumbered h.extendedBy
    refine ⟨entry.executable, ⟨entry.instances⟩, entry.ideal, ?_, ?_, ?_, ?_, hof.ideal_eq,
      hexecutable, ?_, ?_⟩
    · simp [Tables.columns, Dense.get?, hentry]
    · simp [Tables.columns, Dense.get?, hentry]
    · simp [Tables.columns, Dense.get?, hentry]
    · simp [Tables.columns, Dense.get?, hentry, hof.slots_eq]
    · rw [hexecutable]
      exact (h.produced.isDistinct.implementationsOf core).of_map.filter _
    · show core ∈ w.tables.executableCores ↔ _
      rw [hw.indexed.mem_iff, hentry]
      simp
  · show w.tables.executableCores.Pairwise _
    rw [hcores]
    exact List.pairwise_lt_range.filter _
  · have hmem : core ∈ w.tables.executableCores := hcore
    rw [hcores, List.mem_filter, List.mem_range, hlast] at hmem
    exact hmem.1
  · show core ∈ w.tables.executableCores ↔ _
    rw [hw.indexed.mem_iff, canRun, decide_eq_true_iff, Tables.ideal]
    cases hentry : w.tables.entries[core]? with
    | none => simp
    | some entry => simp [← (hw.entries core entry hentry).ideal_pos_iff]

/-- A worker that knows two implementations of a core is told of the catalog before the second one,
and then of a core that is not said to have changed: the first core keeps both implementations, the
new one is not executable. -/
theorem tables_represent_older_catalog :
    let need (count : Nat) : Description :=
      .compute ⟨.ofAmounts [(0, .saturating count)], none, .none⟩
    let first := Catalog.empty.register "sort" [("sort.one", need 1)]
    let second := first.catalog.register "sort" [("sort.one", need 3), ("sort.two", need 2)]
    let third := second.catalog.register "merge" [("merge.one", need 1)]
    let notices := [Notice.update first.catalog [7], .update third.catalog []]
    Catalog.History [first, second, third] third.catalog ∧
      ∃ t, Columns.follow? (need 4) 3 second.catalog notices = some t ∧ t.slots.size = 2 ∧
        (t.executable.get? 0).map List.length = some 2 ∧ t.instances.get? 0 = some ⟨[3, 2]⟩ ∧
        t.ideal.get? 0 = some 3 ∧ t.executableCores = [0] ∧
        (1 ∈ t.executableCores ↔
          ((create "w" (need 4) 3 second.catalog).noticeAll notices).canRun 1 = true) := by
  intro need first second third notices
  have history : Catalog.History [first, second, third] third.catalog :=
    .core (.core (.core .empty _ _) _ _) _ _
  have start : second.catalog ∈ Catalog.snapshots [first, second, third] := by
    simp [Catalog.snapshots]
  have known : ∀ n ∈ notices, n.catalog ∈ Catalog.snapshots [first, second, third] := by
    simp [notices, Notice.catalog, Catalog.snapshots]
  obtain ⟨t, follows, rfl, -, ⟨-, -, -, size⟩, -, -, -, executable⟩ :=
    tables_represent "w" (need 4) 3 history start known
  exact ⟨history, _, follows, size, by decide, by decide, by decide, by decide, executable 1⟩

end Worker

end Wharf
