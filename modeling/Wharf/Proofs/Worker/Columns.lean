import Wharf.Dense
import Wharf.Proofs.Catalog.Identity
import Wharf.Proofs.Worker.Incremental

/-!
# Tables column by column

The entries of all cores are kept in vectors side by side, one for each field, which are filled in
one pass over the catalog and read by id. Here every access is checked.

* `Columns` are the vectors, `Tables.columns` those of given tables.
* `Columns.evaluate?` evaluates a core. It writes the instances of an implementation where the index
  of that implementation says, which is in range when implementations are numbered
  (`Columns.evaluate?_eq`).
* `Columns.build?` and `Columns.rebuild?` fill the columns. In a catalog with the right numbers none
  of their accesses is out of range, and they come to the columns of `Tables.build` and
  `Tables.rebuild` (`Columns.build?_eq`, `Columns.rebuild?_eq`).
-/

namespace Wharf

/-- Capability tables, a vector for each field. -/
structure Columns where
  version : Nat
  executableCores : List Nat
  executable : Dense (List Implementation)
  instances : Dense (Dense Nat)
  ideal : Dense Nat
  slots : Dense Nat
  deriving DecidableEq

/-- The columns of tables. -/
def Tables.columns (t : Tables) : Columns where
  version := t.version
  executableCores := t.executableCores
  executable := ⟨t.entries.map CoreEntry.executable⟩
  instances := ⟨t.entries.map fun entry => ⟨entry.instances⟩⟩
  ideal := ⟨t.entries.map CoreEntry.ideal⟩
  slots := ⟨t.entries.map CoreEntry.slots⟩

/-- A core is found by its own id. -/
theorem Catalog.IsDense.implementationsOf_id {c : Catalog} (hc : c.IsDense) {core : Core}
    (hcore : core ∈ c.cores) : c.implementationsOf core.id = core.implementations := by
  obtain ⟨id, hid⟩ := mem_cores_iff.1 hcore
  rw [implementationsOf, hc id core hid, hid]

namespace Columns

variable {offer : Description} {ceiling : Nat}

/-! ### One core -/

/-- What has been found out of a core. -/
structure Evaluation where
  executable : List Implementation
  instances : Dense Nat
  ideal : Nat
  deriving DecidableEq

/-- Nothing has been found out of so many implementations. -/
def Evaluation.blank (count : Nat) : Evaluation := ⟨[], .filled 0 count, 0⟩

/-- Takes in an implementation; none when there is no place of its index. -/
def Evaluation.take? (offer : Description) (ceiling : Nat) (e : Evaluation) (i : Implementation) :
    Option Evaluation :=
  match simultaneous? offer ceiling i with
  | some count => (e.instances.put? i.index count).map fun instances =>
    { executable := if 0 < count then e.executable ++ [i] else e.executable
      instances := instances
      ideal := max e.ideal count }
  | none => some e

/-- Takes in all implementations of a core. -/
def evaluate? (offer : Description) (ceiling : Nat) (implementations : List Implementation) :
    Option Evaluation :=
  implementations.foldlM (Evaluation.take? offer ceiling) (.blank implementations.length)

/-- The table entry of what was found out. -/
def Evaluation.entry (ceiling : Nat) (e : Evaluation) : CoreEntry :=
  ⟨e.executable, e.instances.values, e.ideal, min e.ideal ceiling⟩

/-- What is known once the first implementations were taken in and so many are left. -/
def Evaluation.after (offer : Description) (ceiling : Nat) (done : List Implementation)
    (left : Nat) : Evaluation where
  executable := (CoreEntry.evaluate offer ceiling done).executable
  instances := ⟨CoreEntry.instancesOf offer ceiling done ++ List.replicate left 0⟩
  ideal := (CoreEntry.evaluate offer ceiling done).ideal

/-- What one more implementation adds. -/
theorem Evaluation.after_append (done : List Implementation) (i : Implementation) (left : Nat) :
    let count := (simultaneous? offer ceiling i).getD 0
    after offer ceiling (done ++ [i]) left =
      { executable := if 0 < count then (after offer ceiling done left).executable ++ [i]
          else (after offer ceiling done left).executable
        instances :=
          ⟨CoreEntry.instancesOf offer ceiling done ++ count :: List.replicate left 0⟩
        ideal := max (after offer ceiling done left).ideal count } := by
  intro count
  by_cases hcount : 0 < count <;>
    simp [after, CoreEntry.evaluate, CoreEntry.instancesOf, List.filter_append, hcount, count]

/-- The next implementation finds the place of its index. -/
theorem Evaluation.take?_after {done : List Implementation} {i : Implementation} {left : Nat}
    (hindex : i.index = done.length) :
    (after offer ceiling done (left + 1)).take? offer ceiling i =
      some (after offer ceiling (done ++ [i]) left) := by
  rw [after_append]
  unfold take?
  cases hcount : simultaneous? offer ceiling i with
  | none => simp [after, List.replicate_succ]
  | some count =>
    have hlength : (CoreEntry.instancesOf offer ceiling done).length = i.index := by
      rw [CoreEntry.instancesOf, List.length_map, hindex]
    have hlt : i.index < (after offer ceiling done (left + 1)).instances.size := by
      simp only [after, Dense.size, List.length_append, List.length_replicate, hlength]
      omega
    have hset : (CoreEntry.instancesOf offer ceiling done ++ List.replicate (left + 1) 0).set
        i.index count =
          CoreEntry.instancesOf offer ceiling done ++ count :: List.replicate left 0 := by
      rw [List.set_append_right _ _ (Nat.le_of_eq hlength), hlength, Nat.sub_self,
        List.replicate_succ, List.set_cons_zero]
    dsimp only
    rw [Dense.put?, if_pos hlt, Option.map_some, after, hset]
    rfl

/-- **The index of every implementation is in range**, and they give the entry of the core. -/
theorem evaluate?_eq {implementations : List Implementation}
    (h : ∀ index (i : Implementation), implementations[index]? = some i → i.index = index) :
    evaluate? offer ceiling implementations = some (.after offer ceiling implementations 0) := by
  have pass : ∀ left done, done ++ left = implementations →
      left.foldlM (Evaluation.take? offer ceiling) (.after offer ceiling done left.length) =
        some (.after offer ceiling implementations 0) := by
    intro left
    induction left with
    | nil =>
      intro done hdone
      rw [← hdone, List.append_nil]
      rfl
    | cons i rest ih =>
      intro done hdone
      have hindex : i.index = done.length := by
        refine h _ i ?_
        rw [← hdone, List.getElem?_append_right (Nat.le_refl _), Nat.sub_self]
        rfl
      rw [List.foldlM_cons, List.length_cons, Evaluation.take?_after hindex]
      exact ih (done ++ [i]) (by rw [List.append_assoc]; exact hdone)
  exact pass implementations [] rfl

theorem entry_after (implementations : List Implementation) :
    (Evaluation.after offer ceiling implementations 0).entry ceiling =
      .evaluate offer ceiling implementations := by
  simp [Evaluation.entry, Evaluation.after, CoreEntry.evaluate]

theorem entry_blank (implementations : List Implementation) :
    (Evaluation.blank implementations.length).entry ceiling =
      .unevaluated ceiling implementations := by
  simp [Evaluation.entry, Evaluation.blank, CoreEntry.unevaluated, Dense.filled, List.map_const']

/-! ### All cores -/

/-- Columns without entries. -/
def blank (version : Nat) : Columns := ⟨version, [], ⟨[]⟩, ⟨[]⟩, ⟨[]⟩, ⟨[]⟩⟩

/-- Writes a row behind the others. -/
def add (t : Columns) (row : Row) : Columns where
  version := t.version
  executableCores := if row.isExecutable then t.executableCores ++ [row.core] else t.executableCores
  executable := t.executable.push row.entry.executable
  instances := t.instances.push ⟨row.entry.instances⟩
  ideal := t.ideal.push row.entry.ideal
  slots := t.slots.push row.entry.slots

/-- Writes a core that has just been evaluated; none when its id is not the next one. -/
def push? (ceiling : Nat) (t : Columns) (core : Nat) (e : Evaluation) : Option Columns :=
  if t.executable.size = core then some (t.add ⟨core, e.entry ceiling, !e.executable.isEmpty⟩)
  else none

/-- Copies a core of which earlier columns have the executable implementations; none when another
of these columns does not have it. -/
def keep? (previous t : Columns) (core : Nat) (executable : List Implementation) :
    Option Columns := do
  let instances ← previous.instances.get? core
  let ideal ← previous.ideal.get? core
  let slots ← previous.slots.get? core
  some (t.add ⟨core, ⟨executable, instances.values, ideal, slots⟩,
    previous.executableCores.contains core⟩)

/-- Evaluates every core. -/
def build? (offer : Description) (ceiling : Nat) (catalog : Catalog) : Option Columns :=
  catalog.cores.foldlM (fun t core =>
    (evaluate? offer ceiling (catalog.implementationsOf core.id)).bind (push? ceiling t core.id))
    (blank catalog.version)

/-- Evaluates the cores in `changed`, copies the others as far as they are known, and leaves the
rest unevaluated. -/
def rebuild? (previous : Columns) (offer : Description) (ceiling : Nat) (catalog : Catalog)
    (changed : List Nat) : Option Columns :=
  catalog.cores.foldlM (fun t core =>
    if changed.contains core.id then
      (evaluate? offer ceiling (catalog.implementationsOf core.id)).bind (push? ceiling t core.id)
    else
      match previous.executable.get? core.id with
      | some executable => keep? previous t core.id executable
      | none => push? ceiling t core.id (.blank (catalog.implementationsOf core.id).length))
    (blank catalog.version)

theorem columns_ofRows_append (version : Nat) (rows : List Row) (row : Row) :
    (Tables.ofRows version (rows ++ [row])).columns =
      (Tables.ofRows version rows).columns.add row := by
  cases hrow : row.isExecutable <;>
    simp [Tables.ofRows, Tables.columns, add, Dense.push, List.filter_append, hrow]

/-- **A pass over the cores meets every id in its turn.** -/
theorem foldlM_cores {c : Catalog} (hc : c.IsDense) {step : Columns → Core → Option Columns}
    {f : Core → Row} (hstep : ∀ t core, core ∈ c.cores → t.executable.size = core.id →
      step t core = some (t.add (f core))) (version : Nat) :
    c.cores.foldlM step (blank version) =
      some (Tables.ofRows version (c.cores.map f)).columns := by
  have pass : ∀ left done, done ++ left = c.cores →
      left.foldlM step (Tables.ofRows version (done.map f)).columns =
        some (Tables.ofRows version (c.cores.map f)).columns := by
    intro left
    induction left with
    | nil =>
      intro done hdone
      rw [← hdone, List.append_nil]
      rfl
    | cons core rest ih =>
      intro done hdone
      have hid : core.id = done.length := by
        refine hc _ core ?_
        rw [Catalog.core?, ← hdone, List.getElem?_append_right (Nat.le_refl _), Nat.sub_self]
        rfl
      have hmem : core ∈ c.cores := by
        rw [← hdone]
        exact List.mem_append_right _ List.mem_cons_self
      have hsize : (Tables.ofRows version (done.map f)).columns.executable.size = core.id := by
        simp [Tables.ofRows, Tables.columns, Dense.size, hid]
      rw [List.foldlM_cons, hstep _ core hmem hsize, ← columns_ofRows_append]
      have := ih (done ++ [core]) (by rw [List.append_assoc]; exact hdone)
      rwa [List.map_append] at this
  exact pass c.cores [] rfl

section Numbered

variable {c : Catalog} {t : Columns} {core : Core}

/-- To evaluate a core in its turn writes its row. -/
theorem evaluate?_push? (hc : c.IsNumbered) (hcore : core ∈ c.cores)
    (hsize : t.executable.size = core.id) :
    (evaluate? offer ceiling (c.implementationsOf core.id)).bind (push? ceiling t core.id) =
      some (t.add (.evaluate offer ceiling core)) := by
  have hnumbered : ∀ index (i : Implementation), core.implementations[index]? = some i →
      i.index = index := fun index i hi => (hc.cores core hcore index i hi).2
  rw [hc.dense.implementationsOf_id hcore, evaluate?_eq hnumbered, Option.bind_some, push?,
    if_pos hsize, entry_after]
  rfl

/-- **Filling all columns afresh gets through**, and gives the columns of the tables. -/
theorem build?_eq (hc : c.IsNumbered) :
    build? offer ceiling c = some (Tables.build offer ceiling c).columns := by
  refine foldlM_cores hc.dense (fun t core hcore hsize => ?_) c.version
  exact evaluate?_push? hc hcore hsize

/-- **Filling the columns from those of any earlier tables gets through**, and gives the columns of
the tables that are rebuilt. -/
theorem rebuild?_eq (hc : c.IsNumbered) (previous : Tables) (changed : List Nat) :
    rebuild? previous.columns offer ceiling c changed =
      some (previous.rebuild offer ceiling c changed).columns := by
  refine foldlM_cores hc.dense (fun t core hcore hsize => ?_) c.version
  split
  · exact evaluate?_push? hc hcore hsize
  · cases hentry : previous.entries[core.id]? with
    | some entry => simp [Tables.columns, Dense.get?, keep?, Row.carry, hentry]
    | none =>
      have hunknown : previous.columns.executable.get? core.id = none := by
        simp [Tables.columns, Dense.get?, hentry]
      rw [hunknown, hc.dense.implementationsOf_id hcore, push?, if_pos hsize, entry_blank,
        Row.carry, hentry]
      rfl

end Numbered

end Columns

end Wharf
