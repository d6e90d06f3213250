import Mathlib.Data.List.AList
import Wharf.Proofs.Consumables.Named
import Wharf.Proofs.Lists

/-!
# The index of names

The names of consumables are kept twice: listed by id, to write vectors, and in a map from names to
ids, to read them. Ids are 32-bit words.

* `NameIndex` is the two of them, and what registers a name in both.
* As long as the ids are not used up, the index shows a `NameTable` (`NameIndex.Shows`) and makes
  the same vectors: `NameIndex.Shows.allocate`, `NameIndex.Shows.vectorFrom`.
* `NameIndex.stable_bijection` puts together what follows for any sequence of calls.
-/

namespace Wharf

/-! ## Calls -/

namespace NameTable

variable {t u : NameTable} {name other : String} {id : Nat}

/-- What may register names. -/
inductive Call
  /-- The id of a name is asked for. -/
  | allocate (name : String)
  /-- The vector of named amounts is asked for. -/
  | vector (items : List (String × Amount))

/-- The table that a call leaves behind. -/
def call (t : NameTable) : Call → NameTable
  | .allocate name => (t.intern name).2
  | .vector items => (t.vector items).2

/-- The table after some calls. -/
def after (t : NameTable) (calls : List Call) : NameTable := calls.foldl call t

theorem extendedBy_call (t : NameTable) (c : Call) : t.ExtendedBy (t.call c) := by
  cases c with
  | allocate name => exact t.extendedBy_intern name
  | vector items => exact t.extendedBy_internAll _

theorem extendedBy_after (t : NameTable) (calls : List Call) : t.ExtendedBy (t.after calls) := by
  induction calls generalizing t with
  | nil => exact .refl t
  | cons c rest ih => exact (t.extendedBy_call c).trans (ih _)

theorem names_intern (t : NameTable) (name : String) :
    (t.intern name).2.names =
      if t.names.contains name then t.names else t.names ++ [name] := by
  have hknown : (t.id? name).isSome = t.names.contains name :=
    Bool.eq_iff_iff.2 (List.isSome_idxOf?.trans List.contains_iff_mem.symm)
  unfold intern
  split
  · rename_i hid
    rw [if_pos (by rw [← hknown, hid, Option.isSome_some])]
  · rename_i hid
    rw [if_neg (by rw [← hknown, hid]; exact Bool.false_ne_true)]

theorem names_internAll (t : NameTable) (names : List String) :
    (t.internAll names).2.names =
      names.foldl (fun known name => if known.contains name then known else known ++ [name])
        t.names := by
  induction names generalizing t with
  | nil => rfl
  | cons name rest ih => rw [List.foldl_cons, ← names_intern, ← ih, internAll]

theorem nodup_after (h : t.names.Nodup) (calls : List Call) : (t.after calls).names.Nodup := by
  induction calls generalizing t with
  | nil => exact h
  | cons c rest ih =>
    refine ih ?_
    cases c with
    | allocate name =>
      rw [call, names_intern]
      exact nodup_append_missing h
    | vector items =>
      rw [call, vector, names_internAll]
      exact nodup_foldl_append_missing h

/-- **Ids and names are looked up one by the other.** -/
theorem id?_eq_some_iff_name? (h : t.names.Nodup) :
    t.id? name = some id ↔ t.name? id = some name := by
  rw [id?_eq_some_iff, name?]
  constructor
  · rintro ⟨hmem, rfl⟩
    exact List.getElem?_idxOf hmem
  · intro hid
    obtain ⟨hlt, rfl⟩ := List.getElem?_eq_some_iff.1 hid
    exact ⟨List.getElem_mem hlt, h.idxOf_getElem id hlt⟩

/-- To register a name is nothing to the others. -/
theorem id?_intern_of_ne (h : other ≠ name) : (t.intern name).2.id? other = t.id? other := by
  unfold intern
  split
  · rfl
  · refine Option.ext fun id => ?_
    rw [id?_eq_some_iff, id?_eq_some_iff, List.mem_append, List.mem_singleton, or_iff_left h]
    exact and_congr_right fun hmem => by rw [List.idxOf_append_of_mem hmem]

end NameTable

/-! ## The index -/

/-- The names by id, and the ids by name. -/
structure NameIndex where
  names : List String
  ids : AList fun _ : String => UInt32

namespace NameIndex

open NameTable (Call)

variable {x y : NameIndex} {t : NameTable} {name : String} {items : List (String × Amount)}

/-- The id of a name. -/
def id? (x : NameIndex) (name : String) : Option UInt32 := x.ids.lookup name

/-- The name of an id. -/
def name? (x : NameIndex) (id : UInt32) : Option String := x.names[id.toNat]?

/-- The id of a name. A new name gets the number of names so far, of which only 32 bits count. -/
def allocate (x : NameIndex) (name : String) : UInt32 × NameIndex :=
  match x.id? name with
  | some id => (id, x)
  | none =>
    let id := UInt32.ofNat x.names.length
    (id, ⟨x.names ++ [name], x.ids.insert name id⟩)

/-- Sets named amounts one after the other, each as soon as its name is registered. -/
def vectorFrom (c : Consumables) (x : NameIndex) : List (String × Amount) → Consumables × NameIndex
  | [] => (c, x)
  | (name, a) :: rest =>
    let (id, x) := x.allocate name
    vectorFrom (c.set id.toNat a) x rest

theorem vectorFrom_cons (c : Consumables) (x : NameIndex) (item : String × Amount)
    (rest : List (String × Amount)) : vectorFrom c x (item :: rest) =
      vectorFrom (c.set (x.allocate item.1).1.toNat item.2) (x.allocate item.1).2 rest := rfl

/-- The vector of named amounts. -/
def vector (x : NameIndex) (items : List (String × Amount)) : Consumables × NameIndex :=
  vectorFrom .empty x items

/-- The index that a call leaves behind. -/
def call (x : NameIndex) : Call → NameIndex
  | .allocate name => (x.allocate name).2
  | .vector items => (x.vector items).2

/-- The index after some calls. -/
def after (x : NameIndex) (calls : List Call) : NameIndex := calls.foldl call x

/-- The index with the well-known names, registered in this order. -/
def standard : NameIndex :=
  after ⟨[], ∅⟩ (["cpus", "gpus", "mem", "connections"].map Call.allocate)

/-! ## Indexes grow -/

theorem names_prefix_allocate (x : NameIndex) (name : String) :
    x.names <+: (x.allocate name).2.names := by
  unfold allocate
  split
  · exact List.prefix_refl _
  · exact List.prefix_append _ _

theorem names_prefix_vectorFrom (c : Consumables) (x : NameIndex) (items : List (String × Amount)) :
    x.names <+: (vectorFrom c x items).2.names := by
  induction items generalizing c x with
  | nil => exact List.prefix_refl _
  | cons item rest ih => exact (x.names_prefix_allocate item.1).trans (ih _ _)

theorem names_prefix_call (x : NameIndex) (c : Call) : x.names <+: (x.call c).names := by
  cases c with
  | allocate name => exact x.names_prefix_allocate name
  | vector items => exact names_prefix_vectorFrom _ x items

theorem names_prefix_after (x : NameIndex) (calls : List Call) :
    x.names <+: (x.after calls).names := by
  induction calls generalizing x with
  | nil => exact List.prefix_refl _
  | cons c rest ih => exact (x.names_prefix_call c).trans (ih _)

/-! ## The table that an index shows -/

/-- The ids still fit their words. -/
def Fits (x : NameIndex) : Prop := x.names.length ≤ 1 <<< 32

theorem Fits.of_prefix (h : y.Fits) (hxy : x.names <+: y.names) : x.Fits :=
  Nat.le_trans hxy.length_le h

/-- The index lists the names of a table and finds each of them where the table does. -/
structure Shows (x : NameIndex) (t : NameTable) : Prop where
  names_eq : x.names = t.names
  id?_eq : ∀ name, (x.id? name).map UInt32.toNat = t.id? name

theorem Shows.id?_eq_some_iff (h : x.Shows t) {id : UInt32} :
    x.id? name = some id ↔ t.id? name = some id.toNat := by
  rw [← h.id?_eq, Option.map_eq_some_iff]
  constructor
  · exact fun hid => ⟨id, hid, rfl⟩
  · rintro ⟨id', hid', heq⟩
    rw [hid', UInt32.toNat_inj.1 heq]

/-- **To register a name in the index is to register it in the table.** -/
theorem Shows.allocate (h : x.Shows t) (hfits : (x.allocate name).2.Fits) :
    (x.allocate name).1.toNat = (t.intern name).1 ∧
      (x.allocate name).2.Shows (t.intern name).2 := by
  have hid := h.id?_eq name
  cases hx : x.id? name with
  | some id =>
    rw [hx, Option.map_some] at hid
    simp only [NameIndex.allocate, hx, NameTable.intern, ← hid]
    exact ⟨trivial, h⟩
  | none =>
    rw [hx, Option.map_none] at hid
    have hnew : t.intern name = (t.names.length, ⟨t.names ++ [name]⟩) := by
      simp only [NameTable.intern, ← hid]
    have hword : (UInt32.ofNat x.names.length).toNat = t.names.length := by
      simp only [NameIndex.allocate, hx, Fits, List.length_append, List.length_singleton] at hfits
      rw [← h.names_eq]
      exact UInt32.toNat_ofNat_of_lt' (Nat.lt_of_succ_le hfits)
    have hfound := t.id?_intern name
    have hothers : ∀ other, other ≠ name → _ := fun other hne => t.id?_intern_of_ne hne
    rw [hnew] at hfound hothers ⊢
    simp only [NameIndex.allocate, hx]
    refine ⟨hword, by rw [h.names_eq], fun other => ?_⟩
    by_cases hother : other = name
    · subst hother
      rw [id?, AList.lookup_insert, Option.map_some, hword, hfound]
    · rw [id?, AList.lookup_insert_ne hother, hothers other hother, ← h.id?_eq]
      rfl

/-- **An index makes the vectors of its table**, although it sets an amount before it registers the
next name. -/
theorem Shows.vectorFrom (h : x.Shows t) (c : Consumables)
    (hfits : (NameIndex.vectorFrom c x items).2.Fits) :
    (NameIndex.vectorFrom c x items).1 =
      ((t.internAll (items.map Prod.fst)).1.zip (items.map Prod.snd)).foldl
        (fun c entry => c.set entry.1 entry.2) c ∧
    (NameIndex.vectorFrom c x items).2.Shows (t.internAll (items.map Prod.fst)).2 := by
  induction items generalizing c x t with
  | nil => exact ⟨rfl, h⟩
  | cons item rest ih =>
    have hfirst : (x.allocate item.1).2.Fits :=
      hfits.of_prefix (names_prefix_vectorFrom _ _ rest)
    obtain ⟨hid, hshows⟩ := h.allocate hfirst
    rw [vectorFrom_cons, hid] at hfits ⊢
    exact ih hshows _ hfits

theorem Shows.vector (h : x.Shows t) (hfits : (x.vector items).2.Fits) :
    (x.vector items).1 = (t.vector items).1 ∧ (x.vector items).2.Shows (t.vector items).2 :=
  h.vectorFrom _ hfits

theorem Shows.after (h : x.Shows t) {calls : List Call} (hfits : (x.after calls).Fits) :
    (x.after calls).Shows (t.after calls) := by
  induction calls generalizing x t with
  | nil => exact h
  | cons c rest ih =>
    refine ih ?_ hfits
    have hcall : (x.call c).Fits := hfits.of_prefix (names_prefix_after _ rest)
    cases c with
    | allocate name => exact (h.allocate hcall).2
    | vector items => exact (h.vector hcall).2

theorem standard_shows : standard.Shows .standard := by
  have hempty : (⟨[], ∅⟩ : NameIndex).Shows ⟨[]⟩ := ⟨rfl, fun _ => rfl⟩
  exact hempty.after (show (4 : Nat) ≤ 1 <<< 32 by decide)

/-- Ids and names are looked up one by the other. -/
theorem Shows.id?_eq_some_iff_name? (h : x.Shows t) (hnodup : t.names.Nodup) {id : UInt32} :
    x.id? name = some id ↔ x.name? id = some name := by
  rw [h.id?_eq_some_iff, NameTable.id?_eq_some_iff_name? hnodup, NameTable.name?, ← h.names_eq,
    name?]

/-! ## Runs from the well-known names -/

section

variable {before rest : List Call} {c : Call}

theorem shows_after {calls : List Call} (h : (standard.after calls).Fits) :
    (standard.after calls).Shows (NameTable.standard.after calls) :=
  standard_shows.after h

theorem nodup_names (calls : List Call) : (NameTable.standard.after calls).names.Nodup :=
  NameTable.nodup_after (by decide) calls

theorem fits_before (h : (standard.after (before ++ rest)).Fits) :
    (standard.after before).Fits := by
  rw [after, List.foldl_append] at h
  exact h.of_prefix (names_prefix_after _ rest)

theorem extendedBy_later (before rest : List Call) :
    (NameTable.standard.after before).ExtendedBy (NameTable.standard.after (before ++ rest)) := by
  rw [NameTable.after, NameTable.after, List.foldl_append]
  exact NameTable.extendedBy_after _ rest

/-- What a call in the middle of a run leaves behind fits. -/
theorem fits_call (h : (standard.after (before ++ c :: rest)).Fits) :
    ((standard.after before).call c).Fits := by
  rw [List.append_cons] at h
  have hcall := fits_before h
  rwa [after, List.foldl_append] at hcall

theorem extendedBy_call (before : List Call) (c : Call) (rest : List Call) :
    ((NameTable.standard.after before).call c).ExtendedBy
      (NameTable.standard.after (before ++ c :: rest)) := by
  have hlater := extendedBy_later (before ++ [c]) rest
  rw [← List.append_cons] at hlater
  rwa [NameTable.after, List.foldl_append] at hlater

/-- A pair stays as it is. -/
theorem id?_after_append (h : (standard.after (before ++ rest)).Fits) {id : UInt32}
    (hid : (standard.after before).id? name = some id) :
    (standard.after (before ++ rest)).id? name = some id :=
  (shows_after h).id?_eq_some_iff.2 ((extendedBy_later before rest).id?_eq
    ((shows_after (fits_before h)).id?_eq_some_iff.1 hid))

/-- The id that a call gives is that of the name from then on. -/
theorem id?_of_allocate (h : (standard.after (before ++ .allocate name :: rest)).Fits) :
    (standard.after (before ++ .allocate name :: rest)).id? name =
      some ((standard.after before).allocate name).1 := by
  have hgiven := ((shows_after (fits_before h)).allocate (fits_call h)).1
  refine (shows_after h).id?_eq_some_iff.2 ?_
  rw [hgiven]
  exact (extendedBy_call before _ rest).id?_eq (NameTable.id?_intern _ name)

/-- **A vector holds what was named last**, under every name of this or any later time. -/
theorem readsAs_of_vector (h : (standard.after (before ++ .vector items :: rest)).Fits) :
    ((standard.after before).vector items).1 =
        ((NameTable.standard.after before).vector items).1 ∧
      ((standard.after before).vector items).1.ReadsAs
        (NameTable.standard.after (before ++ .vector items :: rest)) (lastAmount items) := by
  rw [((shows_after (fits_before h)).vector (fits_call h)).1]
  exact ⟨rfl, NameTable.readsAs_vector (extendedBy_call before (.vector items) rest)⟩

/-- The names of a vector are registered. -/
theorem exists_id?_of_vector (h : (standard.after (before ++ .vector items :: rest)).Fits)
    (hname : name ∈ items.map Prod.fst) :
    ∃ id, (standard.after (before ++ .vector items :: rest)).id? name = some id := by
  have hids := NameTable.id?_internAll (extendedBy_call before (.vector items) rest)
  have hmem := List.mem_map_of_mem (f := (NameTable.standard.after
    (before ++ .vector items :: rest)).id?) hname
  rw [hids, ← (shows_after h).id?_eq, List.mem_map] at hmem
  obtain ⟨given, -, heq⟩ := hmem
  obtain ⟨id, hid, -⟩ := Option.map_eq_some_iff.1 heq.symm
  exact ⟨id, hid⟩

end

/-- **The index is a bijection that only grows.** After any calls whose names fit their ids the
names are distinct, ids and names are looked up one by the other, for every name and every id in
use, and each pair is there from the call that made it. The id that a call gives is that of its
name. A vector holds the last amount that was named in it under every name, nothing under names
that were not, and nothing in other dimensions. Names, ids and vectors are those of `NameTable`. -/
theorem stable_bijection {calls : List Call}
    (h : (standard.after calls).names.length ≤ 1 <<< 32) :
    let x := standard.after calls
    x.names.Nodup ∧
    (∀ name id, x.id? name = some id ↔ x.name? id = some name) ∧
    (∀ name ∈ x.names, ∃ id, x.id? name = some id ∧ x.name? id = some name) ∧
    (∀ id : UInt32, id.toNat < x.names.length →
      ∃ name, x.name? id = some name ∧ x.id? name = some id) ∧
    (∀ before rest, calls = before ++ rest → ∀ name id,
      ((standard.after before).id? name = some id → x.id? name = some id) ∧
      ((standard.after before).name? id = some name → x.name? id = some name)) ∧
    (∀ before name rest, calls = before ++ .allocate name :: rest →
      x.id? name = some ((standard.after before).allocate name).1) ∧
    (∀ before items rest, calls = before ++ .vector items :: rest →
      let c := ((standard.after before).vector items).1
      (∀ name ∈ items.map Prod.fst, ∃ id, x.id? name = some id) ∧
      (∀ name id, x.id? name = some id → c.get id.toNat = lastAmount items name) ∧
      (∀ name id, x.id? name = some id → name ∉ items.map Prod.fst → c.get id.toNat = 0) ∧
      (∀ id, (∀ name, (x.id? name).map UInt32.toNat ≠ some id) → c.get id = 0) ∧
      c = ((NameTable.standard.after before).vector items).1) ∧
    x.names = (NameTable.standard.after calls).names ∧
    ∀ name, (x.id? name).map UInt32.toNat = (NameTable.standard.after calls).id? name := by
  intro x
  have hshows : x.Shows (NameTable.standard.after calls) := shows_after h
  have hinverse : ∀ name id, x.id? name = some id ↔ x.name? id = some name :=
    fun _ _ => hshows.id?_eq_some_iff_name? (nodup_names calls)
  refine ⟨?nodup, hinverse, ?names, ?ids, ?pairs, ?given, ?vectors, hshows.names_eq,
    hshows.id?_eq⟩
  case nodup =>
    rw [hshows.names_eq]
    exact nodup_names calls
  case names =>
    intro name hname
    obtain ⟨i, hi, hget⟩ := List.mem_iff_getElem.1 hname
    have hword : (UInt32.ofNat i).toNat = i :=
      UInt32.toNat_ofNat_of_lt' (Nat.lt_of_lt_of_le hi h)
    have hat : x.name? (.ofNat i) = some name := by
      rw [name?, hword, List.getElem?_eq_getElem hi, hget]
    exact ⟨.ofNat i, (hinverse _ _).2 hat, hat⟩
  case ids =>
    intro id hid
    have hat : x.name? id = some x.names[id.toNat] := List.getElem?_eq_getElem hid
    exact ⟨_, hat, (hinverse _ _).2 hat⟩
  case pairs =>
    rintro before rest rfl name id
    refine ⟨id?_after_append h, fun hname => (hinverse name id).1 (id?_after_append h ?_)⟩
    exact ((shows_after (fits_before h)).id?_eq_some_iff_name? (nodup_names before)).2 hname
  case given =>
    rintro before name rest rfl
    exact id?_of_allocate h
  case vectors =>
    rintro before items rest rfl c
    obtain ⟨hsame, hreads⟩ := readsAs_of_vector h
    have hget : ∀ name id, x.id? name = some id → c.get id.toNat = lastAmount items name :=
      fun name id hid => hreads.get_eq name id.toNat (hshows.id?_eq_some_iff.1 hid)
    refine ⟨fun name => exists_id?_of_vector h, hget, fun name id hid hnot => ?_, fun id hid => ?_,
      hsame⟩
    · rw [hget name id hid]
      by_contra hne
      exact hnot (mem_of_lastAmount_ne hne)
    · by_contra hne
      obtain ⟨name, hname⟩ := hreads.exists_name id hne
      rw [← hshows.id?_eq] at hname
      exact hid name hname

/-- A name is new, named twice in one vector, and asked for later. -/
theorem stable_bijection_new_name :
    let items : List (String × Amount) :=
      [("licenses", .ofUnits 2), ("cpus", .ofUnits 4), ("licenses", 0), ("fpgas", .ofUnits 1)]
    let calls : List Call := [.vector items, .allocate "licenses", .allocate "nics"]
    let x := standard.after calls
    let c := (standard.vector items).1
    x.names = ["cpus", "gpus", "mem", "connections", "licenses", "fpgas", "nics"] ∧
      x.id? "licenses" = some 4 ∧ x.name? 4 = some "licenses" ∧
      ((standard.after [.vector items]).allocate "licenses").1 = 4 ∧
      c.get 0 = .ofUnits 4 ∧ c.get 4 = 0 ∧ c.get 5 = .ofUnits 1 ∧ c.get 6 = 0 := by
  intro items calls x c
  have hnames : x.names = ["cpus", "gpus", "mem", "connections", "licenses", "fpgas", "nics"] := by
    decide +kernel
  have hfits : x.names.length ≤ 1 <<< 32 := by
    rw [hnames]
    decide
  obtain ⟨-, hinverse, -, -, -, hgiven, hvector, -⟩ := stable_bijection hfits
  obtain ⟨-, hlast, hzero, -⟩ := hvector [] items _ rfl
  have hlicenses : x.id? "licenses" = some 4 := by decide +kernel
  have hallocated := hgiven [.vector items] "licenses" _ rfl
  refine ⟨hnames, hlicenses, (hinverse _ _).1 hlicenses, ?_, ?_, ?_, ?_, ?_⟩
  · exact Option.some.inj (hallocated.symm.trans hlicenses)
  · exact hlast "cpus" 0 (by decide +kernel)
  · exact hlast "licenses" 4 hlicenses
  · exact hlast "fpgas" 5 (by decide +kernel)
  · exact hzero "nics" 6 (by decide +kernel) (by decide)

end NameIndex

end Wharf
