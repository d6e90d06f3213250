import Wharf.Consumables.NameTable
import Wharf.Proofs.Consumables.Assignments

/-!
# Vectors read by name

Which dimension a consumable has depends on the names that were registered before it. What a vector
holds by name does not, and neither do the operations that compare two vectors.

* `NameTable.ExtendedBy`: a table only grows, and every name keeps its id.
* `Consumables.ReadsAs` relates a vector to the amounts that it holds by name. A vector of named
  amounts is read with the table that came out of its making, or with any later one
  (`NameTable.readsAs_vector`).
* Two vectors that are read with one table cover each other, and fit into each other, as their
  amounts by name do (`Consumables.ReadsAs.covers_iff`, `Consumables.ReadsAs.fitCount_eq`).
-/

namespace Wharf

/-! ### Tables that grow -/

namespace NameTable

variable {t u v : NameTable} {name other : String} {id : Nat} {names : List String}

/-- `u` came out of `t` by registrations: new names stand behind the old ones. -/
def ExtendedBy (t u : NameTable) : Prop := t.names <+: u.names

theorem ExtendedBy.refl (t : NameTable) : t.ExtendedBy t := List.prefix_refl _

theorem ExtendedBy.trans (h : t.ExtendedBy u) (h' : u.ExtendedBy v) : t.ExtendedBy v :=
  List.IsPrefix.trans h h'

theorem extendedBy_intern (t : NameTable) (name : String) : t.ExtendedBy (t.intern name).2 := by
  unfold intern
  split
  · exact .refl t
  · exact List.prefix_append _ _

theorem extendedBy_internAll (t : NameTable) (names : List String) :
    t.ExtendedBy (t.internAll names).2 := by
  induction names generalizing t with
  | nil => exact .refl t
  | cons name rest ih => exact (t.extendedBy_intern name).trans (ih _)

theorem id?_eq_some_iff : t.id? name = some id ↔ name ∈ t.names ∧ t.names.idxOf name = id := by
  rw [id?, List.idxOf_eq_getD_idxOf?, ← List.isSome_idxOf?]
  cases t.names.idxOf? name <;> simp

theorem exists_id?_eq_some (h : name ∈ t.names) : ∃ id, t.id? name = some id :=
  ⟨_, id?_eq_some_iff.2 ⟨h, rfl⟩⟩

/-- A name keeps its id. -/
theorem ExtendedBy.id?_eq (h : t.ExtendedBy u) (hid : t.id? name = some id) :
    u.id? name = some id := by
  obtain ⟨more, hmore⟩ := h
  obtain ⟨hname, hplace⟩ := id?_eq_some_iff.1 hid
  rw [id?_eq_some_iff, ← hmore]
  exact ⟨List.mem_append_left _ hname, by rw [List.idxOf_append_of_mem hname, hplace]⟩

/-- No two names share an id. -/
theorem eq_of_id?_eq (h : t.id? name = some id) (h' : t.id? other = some id) : name = other := by
  obtain ⟨hname, hplace⟩ := id?_eq_some_iff.1 h
  obtain ⟨-, hplace'⟩ := id?_eq_some_iff.1 h'
  exact (List.idxOf_inj hname).1 (hplace.trans hplace'.symm)

theorem id?_intern (t : NameTable) (name : String) :
    (t.intern name).2.id? name = some (t.intern name).1 := by
  unfold intern
  split
  · rename_i id hid
    exact hid
  · rename_i hnone
    rw [id?, List.idxOf?_eq_none_iff] at hnone
    rw [id?_eq_some_iff]
    exact ⟨by simp, by simp [List.idxOf_append_of_notMem hnone]⟩

/-- **The ids that names were given are those of any later table.** -/
theorem id?_internAll (h : (t.internAll names).2.ExtendedBy u) :
    names.map u.id? = (t.internAll names).1.map some := by
  induction names generalizing t with
  | nil => rfl
  | cons name rest ih =>
    have hrest : (t.intern name).2.ExtendedBy u :=
      ((t.intern name).2.extendedBy_internAll rest).trans h
    exact congrArg₂ List.cons (hrest.id?_eq (t.id?_intern name)) (ih h)

end NameTable

/-! ### Vectors -/

/-- The least number does not depend on order and repetition. -/
theorem min?_eq_of_mem_iff {xs ys : List Nat} (h : ∀ n, n ∈ xs ↔ n ∈ ys) : xs.min? = ys.min? := by
  refine Option.ext fun n => ?_
  rw [List.min?_eq_some_iff, List.min?_eq_some_iff, h]
  exact and_congr_right fun _ => forall_congr' fun m => by rw [h]

namespace Consumables

variable {c d : Consumables} {t : NameTable} {f g : String → Amount}

/-- Read with a table, a vector holds the amounts `f` by name: each in the dimension of its name,
and nothing in a dimension without a name or under a name without a dimension. -/
structure ReadsAs (c : Consumables) (t : NameTable) (f : String → Amount) : Prop where
  get_eq : ∀ name id, t.id? name = some id → c.get id = f name
  exists_name : ∀ id, c.get id ≠ 0 → ∃ name, t.id? name = some id
  exists_id : ∀ name, f name ≠ 0 → ∃ id, t.id? name = some id

/-- A vector is determined by what is read. -/
theorem ReadsAs.eq (hc : c.ReadsAs t f) (hd : d.ReadsAs t f) : c = d := by
  refine ext_get fun id => ?_
  by_cases hzero : c.get id = 0 ∧ d.get id = 0
  · rw [hzero.1, hzero.2]
  · obtain ⟨name, hid⟩ : ∃ name, t.id? name = some id := by
      by_cases h : c.get id = 0
      · exact hd.exists_name id fun h' => hzero ⟨h, h'⟩
      · exact hc.exists_name id h
    rw [hc.get_eq name id hid, hd.get_eq name id hid]

/-- **A demand is covered just when each of its amounts is, name by name.** -/
theorem ReadsAs.covers_iff (hc : c.ReadsAs t f) (hd : d.ReadsAs t g) :
    c.covers d = true ↔ ∀ name, g name ≤ f name := by
  rw [Consumables.covers_iff]
  constructor
  · intro h name
    by_cases hzero : g name = 0
    · rw [hzero]
      exact Nat.zero_le _
    · obtain ⟨id, hid⟩ := hd.exists_id name hzero
      rw [← hc.get_eq name id hid, ← hd.get_eq name id hid]
      exact h id
  · intro h id
    by_cases hzero : d.get id = 0
    · rw [hzero]
      exact Nat.zero_le _
    · obtain ⟨name, hid⟩ := hd.exists_name id hzero
      rw [hc.get_eq name id hid, hd.get_eq name id hid]
      exact h name

/-- The numbers of copies of which the fit count is the least, name by name. -/
theorem ReadsAs.mem_fits (hc : c.ReadsAs t f) (hd : d.ReadsAs t g) {n : Nat} :
    n ∈ d.demands.filterMap (fun entry => (c.get entry.1).fits entry.2) ↔
      ∃ name, g name ≠ 0 ∧ (f name).count / (g name).count = n := by
  rw [Consumables.mem_fits]
  constructor
  · rintro ⟨id, hne, rfl⟩
    obtain ⟨name, hid⟩ := hd.exists_name id hne
    rw [hd.get_eq name id hid] at hne ⊢
    exact ⟨name, hne, by rw [hc.get_eq name id hid]⟩
  · rintro ⟨name, hne, rfl⟩
    obtain ⟨id, hid⟩ := hd.exists_id name hne
    refine ⟨id, ?_, ?_⟩
    · rw [hd.get_eq name id hid]
      exact hne
    · rw [hc.get_eq name id hid, hd.get_eq name id hid]

/-- **The fit count is the least over the demanded names**, in any list that has them all. -/
theorem ReadsAs.fitCount_eq (hc : c.ReadsAs t f) (hd : d.ReadsAs t g) {names : List String}
    (hnames : ∀ name, g name ≠ 0 → name ∈ names) :
    c.fitCount d = ((names.filter fun name => g name ≠ 0).map
      fun name => (f name).count / (g name).count).min? := by
  refine min?_eq_of_mem_iff fun n => ?_
  rw [hc.mem_fits hd, List.mem_map]
  refine exists_congr fun name => and_congr_left fun _ => ?_
  simp only [List.mem_filter, decide_eq_true_eq]
  exact ⟨fun hne => ⟨hnames name hne, hne⟩, And.right⟩

end Consumables

/-! ### Vectors of named amounts -/

/-- The amount under a name: of two of them the later one, without one nothing. -/
def lastAmount (amounts : List (String × Amount)) (name : String) : Amount :=
  (amounts.reverse.lookup name).getD 0

theorem mem_of_lookup_getD_ne {κ : Type} [BEq κ] [LawfulBEq κ] {entries : List (κ × Amount)} {k : κ}
    (h : (entries.lookup k).getD 0 ≠ 0) : k ∈ entries.map Prod.fst := by
  cases hlookup : entries.lookup k with
  | none =>
    rw [hlookup] at h
    exact absurd rfl h
  | some a =>
    obtain ⟨before, after, rfl, -⟩ := List.lookup_eq_some_iff.1 hlookup
    simp

theorem mem_of_lastAmount_ne {amounts : List (String × Amount)} {name : String}
    (h : lastAmount amounts name ≠ 0) : name ∈ amounts.map Prod.fst := by
  have hmem := mem_of_lookup_getD_ne h
  rwa [List.map_reverse, List.mem_reverse] at hmem

/-- Nothing is in a dimension that belongs to none of the names. -/
theorem Consumables.ReadsAs.get_eq_zero {c : Consumables} {t : NameTable}
    {amounts : List (String × Amount)} (h : c.ReadsAs t (lastAmount amounts)) {id : Nat}
    (hid : ∀ name ∈ amounts.map Prod.fst, t.id? name ≠ some id) : c.get id = 0 := by
  by_contra hne
  obtain ⟨name, hname⟩ := h.exists_name id hne
  rw [h.get_eq name id hname] at hne
  exact hid name (mem_of_lastAmount_ne hne) hname

/-- A list with other amounts is looked up in the same place. -/
theorem lookup_map_snd {κ α β : Type} [BEq κ] (f : α → β) (entries : List (κ × α)) (k : κ) :
    (entries.map fun entry => (entry.1, f entry.2)).lookup k = (entries.lookup k).map f := by
  induction entries with
  | nil => rfl
  | cons entry rest ih =>
    rw [List.map_cons, List.lookup_cons, List.lookup_cons, ih]
    split <;> rfl

/-- A list is looked up under new keys as under the old ones if these are told apart. -/
theorem lookup_map_of_injOn {entries : List (String × Amount)} {key : String → Nat} {name : String}
    (hkey : ∀ other ∈ entries.map Prod.fst, key name = key other → name = other) :
    (entries.map fun entry => (key entry.1, entry.2)).lookup (key name) =
      entries.lookup name := by
  induction entries with
  | nil => rfl
  | cons entry rest ih =>
    obtain ⟨other, a⟩ := entry
    have hrest := ih fun other hother => hkey other (List.mem_cons_of_mem _ hother)
    by_cases hname : name = other
    · simp [hname]
    · have hne : key name ≠ key other := fun h => hname (hkey other List.mem_cons_self h)
      simp only [List.map_cons, List.lookup_cons, beq_false_of_ne hname, beq_false_of_ne hne]
      exact hrest

namespace NameTable

/-- **A vector of named amounts holds the last amount of each name**, read with the table that its
making leaves behind or with any later one. -/
theorem readsAs_vector {t u : NameTable} {amounts : List (String × Amount)}
    (h : (t.vector amounts).2.ExtendedBy u) :
    (t.vector amounts).1.ReadsAs u (lastAmount amounts) := by
  let key (name : String) : Nat := (u.id? name).getD 0
  have hids : (amounts.map Prod.fst).map u.id? =
      (t.internAll (amounts.map Prod.fst)).1.map some := id?_internAll h
  have hkeys : (t.internAll (amounts.map Prod.fst)).1 = (amounts.map Prod.fst).map key := by
    have hget := congrArg (List.map fun id? : Option Nat => id?.getD 0) hids
    simpa [key, Function.comp_def] using hget.symm
  have hid : ∀ name ∈ amounts.map Prod.fst, u.id? name = some (key name) := by
    intro name hname
    have hmem : u.id? name ∈ (t.internAll (amounts.map Prod.fst)).1.map some :=
      hids ▸ List.mem_map_of_mem hname
    obtain ⟨id, -, hid⟩ := List.mem_map.1 hmem
    simp [key, ← hid]
  have hvector : (t.vector amounts).1 = .ofAmounts (amounts.map fun e => (key e.1, e.2)) := by
    show Consumables.ofAmounts (List.zip (t.internAll (amounts.map Prod.fst)).1 _) = _
    rw [hkeys, List.map_map, List.zip_map']
    rfl
  have hget : ∀ id, (t.vector amounts).1.get id =
      ((amounts.reverse.map fun e => (key e.1, e.2)).lookup id).getD 0 := by
    intro id
    rw [hvector, Consumables.get_ofAmounts, List.map_reverse]
  exact
    { get_eq := fun name id hname => by
        have hplace : id = key name := by simp [key, hname]
        rw [hget, hplace, lookup_map_of_injOn, lastAmount]
        intro other hother heq
        rw [List.map_reverse, List.mem_reverse] at hother
        refine eq_of_id?_eq hname ?_
        rw [hplace, heq]
        exact hid other hother
      exists_name := fun id hne => by
        rw [hget] at hne
        have hmem := mem_of_lookup_getD_ne hne
        simp only [List.map_map, List.mem_map, List.mem_reverse] at hmem
        obtain ⟨entry, hentry, rfl⟩ := hmem
        exact ⟨entry.1, hid _ (List.mem_map_of_mem hentry)⟩
      exists_id := fun name hne => ⟨_, hid name (mem_of_lastAmount_ne hne)⟩ }

end NameTable

end Wharf
