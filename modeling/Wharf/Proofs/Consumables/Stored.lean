import Mathlib.Data.List.DropRight
import Wharf.Proofs.Consumables.Fit

/-!
# Vectors updated in place

A stored vector is a list of amounts that is updated in place, and nothing but the way it is updated
keeps it canonical. To set one dimension may lengthen the list by zeros or shorten it by several
places, and addition and removal do so in a loop over another vector.

* `Consumables.Stored` has the operations. A loop over a vector finds in every dimension what was
  there when it started (`Stored.get_of_pass`).
* The lists that the operations lead to are those of vectors (`Stored.reached_iff`), on which they
  do what the operations of `Consumables` do.
* `Stored.canonical` draws the conclusions.
-/

namespace Wharf

namespace Consumables

/-- Amounts by consumable id, any list of them. -/
structure Stored where
  amounts : List Amount
  deriving DecidableEq

namespace Stored

/-! ## The operations -/

/-- Nothing is stored. -/
def new : Stored := ⟨[]⟩

/-- The amount in a dimension, zero past the end. -/
def get (s : Stored) (id : Nat) : Amount := (s.amounts[id]?).getD 0

/-- A list that has a place for the dimension, by zeros at its end if need be. -/
def grown (as : List Amount) (id : Nat) : List Amount :=
  if as.length ≤ id then as ++ List.replicate (id + 1 - as.length) 0 else as

/-- Sets a dimension, and takes zeros away as long as there is one at the end. -/
def set (s : Stored) (id : Nat) (a : Amount) : Stored :=
  ⟨((grown s.amounts id).set id a).rdropWhile Amount.isZero⟩

/-- The dimensions that are not zero, with their places. -/
def entries (s : Stored) : List (Nat × Amount) :=
  (s.amounts.zipIdx.filter fun entry => !entry.1.isZero).map Prod.swap

/-- Whether every dimension holds what is demanded of it. -/
def covers (s demand : Stored) : Bool :=
  demand.entries.all fun entry => decide (entry.2 ≤ s.get entry.1)

/-- Combines the dimensions of a list one after the other with what the list has for them. -/
def pass (f : Amount → Amount → Option Amount) (s : Stored) (entries : List (Nat × Amount)) :
    Option Stored :=
  entries.foldlM (fun s entry => (f (s.get entry.1) entry.2).map (s.set entry.1)) s

/-- Adds a vector; none when a sum gets out of range. -/
def add? (s other : Stored) : Option Stored := s.pass Amount.add? other.entries

/-- Takes a demand away and says so, if it is covered; none when a difference gets below zero. -/
def tryRemove? (s demand : Stored) : Option (Bool × Stored) :=
  if s.covers demand then (s.pass Amount.sub? demand.entries).map fun t => (true, t)
  else some (false, s)

/-- The vector with the given units set one after the other. -/
def ofUnits (units : List (Nat × UInt32)) : Stored :=
  units.foldl (fun s entry => s.set entry.1 (.ofUnits entry.2)) new

/-- The vectors that the operations lead to, with operands that they lead to. -/
inductive Reached : Stored → Prop
  | new : Reached new
  | ofUnits (units : List (Nat × UInt32)) : Reached (ofUnits units)
  | set {s : Stored} (id : Nat) (a : Amount) : Reached s → Reached (s.set id a)
  | add {s d t : Stored} : Reached s → Reached d → s.add? d = some t → Reached t
  | tryRemove {s d t : Stored} (removed : Bool) :
    Reached s → Reached d → s.tryRemove? d = some (removed, t) → Reached t

variable {s d t : Stored} {f : Amount → Amount → Option Amount}

/-! ## Setting a dimension -/

theorem getD_rdropWhile (as : List Amount) (id : Nat) :
    (as.rdropWhile Amount.isZero).getD id 0 = as.getD id 0 := by
  have hzeros : ∀ a ∈ as.rtakeWhile Amount.isZero, a = 0 :=
    fun a ha => Amount.isZero_eq_true.1 (List.mem_rtakeWhile_imp ha)
  conv_rhs => rw [← List.rdropWhile_append_rtakeWhile (p := Amount.isZero) (l := as)]
  rw [List.getD_eq_getElem?_getD, List.getD_eq_getElem?_getD, List.getElem?_append]
  split
  · rfl
  · rename_i hge
    rw [List.getElem?_eq_none (Nat.le_of_not_lt hge)]
    cases hlast : (as.rtakeWhile Amount.isZero)[id - (as.rdropWhile Amount.isZero).length]? with
    | none => rfl
    | some a => exact (hzeros a (List.mem_of_getElem? hlast)).symm

/-- **To take zeros away one by one is to trim.** -/
theorem rdropWhile_isZero (as : List Amount) : as.rdropWhile Amount.isZero = trim as := by
  have hlast : (as.rdropWhile Amount.isZero).getLast? ≠ some 0 := by
    intro h
    have hne : as.rdropWhile Amount.isZero ≠ [] := by
      intro hnil
      rw [hnil] at h
      cases h
    refine List.rdropWhile_last_not Amount.isZero as hne (Amount.isZero_eq_true.2 ?_)
    exact Option.some.inj ((List.getLast?_eq_some_getLast hne).symm.trans h)
  rw [← trim_of_getLast? hlast, trim_congr (getD_rdropWhile as)]

theorem getD_set_grown (as : List Amount) (id : Nat) (a : Amount) (j : Nat) :
    ((grown as id).set id a).getD j 0 = if j = id then a else as.getD j 0 := by
  have hlt : id < (grown as id).length := by
    unfold grown
    split
    · rw [List.length_append, List.length_replicate]
      omega
    · omega
  rw [List.getD_eq_getElem?_getD, List.getElem?_set]
  split
  · rename_i hj
    rw [if_pos hj.symm, Option.getD_some]
  · rename_i hj
    rw [if_neg (Ne.symm hj), ← List.getD_eq_getElem?_getD]
    unfold grown
    split
    · grind
    · rfl

theorem get_set (s : Stored) (id : Nat) (a : Amount) (j : Nat) :
    (s.set id a).get j = if j = id then a else s.get j := by
  simp only [get, set, ← List.getD_eq_getElem?_getD, getD_rdropWhile, getD_set_grown]

/-! ## Loops over another vector -/

theorem pass_cons_eq_some_iff {entry : Nat × Amount} {rest : List (Nat × Amount)} :
    s.pass f (entry :: rest) = some t ↔
      ∃ a, f (s.get entry.1) entry.2 = some a ∧ (s.set entry.1 a).pass f rest = some t := by
  simp only [pass, List.foldlM_cons, Option.bind_eq_bind, Option.bind_eq_some_iff,
    Option.map_eq_some_iff, exists_exists_and_eq_and]

/-- **The dimensions of a loop do not disturb each other.** Each is combined with what was there
when the loop started, and the others stay as they are. -/
theorem get_of_pass {entries : List (Nat × Amount)} (hids : (entries.map Prod.fst).Nodup)
    (h : s.pass f entries = some t) (id : Nat) :
    (id ∉ entries.map Prod.fst → t.get id = s.get id) ∧
      ∀ a, (id, a) ∈ entries → f (s.get id) a = some (t.get id) := by
  induction entries generalizing s with
  | nil =>
    cases h
    exact ⟨fun _ => rfl, fun a ha => absurd ha List.not_mem_nil⟩
  | cons entry rest ih =>
    obtain ⟨b, hb, hrest⟩ := pass_cons_eq_some_iff.1 h
    obtain ⟨hfirst, hids⟩ := List.nodup_cons.1 hids
    obtain ⟨hkeep, hcombine⟩ := ih hids hrest
    by_cases hid : id = entry.1
    · subst hid
      have hget : t.get entry.1 = b := by rw [hkeep hfirst, get_set, if_pos rfl]
      refine ⟨fun hnot => absurd List.mem_cons_self hnot, fun a ha => ?_⟩
      obtain ha | ha := List.mem_cons.1 ha
      · rw [← ha] at hb
        rw [hget, hb]
      · exact absurd (List.mem_map_of_mem ha) hfirst
    · have hget : (s.set entry.1 b).get id = s.get id := by rw [get_set, if_neg hid]
      refine ⟨fun hnot => ?_, fun a ha => ?_⟩
      · rw [hkeep fun hmem => hnot (List.mem_cons_of_mem _ hmem), hget]
      · obtain rfl | ha := List.mem_cons.1 ha
        · exact absurd rfl hid
        · rw [← hget, hcombine a ha]

theorem nodup_entries (s : Stored) : (s.entries.map Prod.fst).Nodup := by
  have hids : s.entries.map Prod.fst =
      (s.amounts.zipIdx.filter fun entry => !entry.1.isZero).map Prod.snd := by
    rw [entries, List.map_map]
    rfl
  have hsub : (s.entries.map Prod.fst).Sublist (s.amounts.zipIdx.map Prod.snd) := by
    rw [hids]
    exact List.filter_sublist.map Prod.snd
  rw [List.zipIdx_map_snd] at hsub
  exact hsub.nodup List.nodup_range'

/-! ## What the operations lead to -/

end Stored

/-- A vector as it is stored. -/
def stored (c : Consumables) : Stored := ⟨c.amounts⟩

namespace Stored

variable (c e : Consumables) {s d t : Stored} {f : Amount → Amount → Option Amount}

theorem stored_inj {c e : Consumables} : c.stored = e.stored ↔ c = e := by
  constructor
  · intro h
    cases c
    cases e
    cases h
    rfl
  · exact congrArg stored

@[simp]
theorem stored_get (id : Nat) : c.stored.get id = c.get id :=
  List.getD_eq_getElem?_getD.symm

@[simp]
theorem stored_set (id : Nat) (a : Amount) : (c.set id a).stored = c.stored.set id a := by
  simp only [stored, Consumables.set, ofList, set, rdropWhile_isZero, Stored.mk.injEq]
  exact trim_congr fun j => by rw [getD_replaceAt, getD_set_grown]

@[simp]
theorem stored_entries : c.stored.entries = c.demands := by
  have hfrom : ∀ (as : List Amount) (start : Nat),
      ((as.zipIdx start).filter fun entry => !entry.1.isZero).map Prod.swap =
        demandsFrom start as := by
    intro as
    induction as with
    | nil => exact fun _ => rfl
    | cons a as ih =>
      intro start
      rw [List.zipIdx_cons, List.filter_cons, demandsFrom, ← ih]
      cases a.isZero <;> rfl
  exact hfrom c.amounts 0

@[simp]
theorem stored_covers : c.stored.covers e.stored = c.covers e := by
  simp only [covers, Consumables.covers, stored_entries, stored_get]

theorem stored_pass (entries : List (Nat × Amount)) :
    c.stored.pass f entries = (entries.foldlM (combine f) c).map stored := by
  induction entries generalizing c with
  | nil => rfl
  | cons entry rest ih =>
    simp only [pass, combine, List.foldlM_cons, Option.bind_eq_bind, stored_get] at ih ⊢
    cases f (c.get entry.1) entry.2 with
    | none => rfl
    | some a => exact (congrArg (fun s => pass f s rest) (stored_set c entry.1 a).symm).trans (ih _)

@[simp]
theorem stored_add? : c.stored.add? e.stored = (c.add? e).map stored := by
  rw [add?, stored_entries, stored_pass]
  rfl

/-- A removal that is refused leaves the vector as it is. -/
@[simp]
theorem stored_tryRemove? :
    c.stored.tryRemove? e.stored = some ((c.remove? e).elim (false, c.stored) fun r =>
      (true, r.stored)) := by
  have hpass : c.stored.pass Amount.sub? e.stored.entries = (c.remove? e).map stored := by
    rw [stored_entries, stored_pass, remove?_eq_subtract?, subtract?]
  rw [tryRemove?, stored_covers, hpass]
  split
  · rename_i hcovers
    rw [remove?, if_pos hcovers]
    rfl
  · rename_i hcovers
    rw [remove?, if_neg hcovers]
    rfl

/-- To set the dimensions one after the other builds any vector. -/
theorem reached_stored : c.stored.Reached := by
  have hget : ∀ (as : List Amount) (id : Nat), (ofList as).get id = as.getD id 0 := getD_trim
  have hall : ∀ as : List Amount, (ofList as).stored.Reached := by
    intro as
    induction as using List.reverseRecOn with
    | nil => exact .new
    | append_singleton as a ih =>
      have hset : ofList (as ++ [a]) = (ofList as).set as.length a := by
        refine ext_get fun id => ?_
        rw [Consumables.get_set, hget, hget]
        grind
      rw [hset, stored_set]
      exact ih.set _ _
  have hc : c = ofList c.amounts := ext_get fun id => (hget c.amounts id).symm
  rw [hc]
  exact hall c.amounts

theorem stored_ofUnits (units : List (Nat × UInt32)) :
    (Consumables.ofUnits units).stored = ofUnits units := by
  have hfrom : ∀ (units : List (Nat × UInt32)) (c : Consumables),
      ((units.map fun entry => (entry.1, Amount.ofUnits entry.2)).foldl
        (fun c entry => c.set entry.1 entry.2) c).stored =
      units.foldl (fun s entry => s.set entry.1 (.ofUnits entry.2)) c.stored := by
    intro units
    induction units with
    | nil => exact fun _ => rfl
    | cons entry rest ih =>
      intro c
      rw [List.map_cons, List.foldl_cons, List.foldl_cons, ih, stored_set]
  exact hfrom units Consumables.empty

/-- **What the operations lead to are the vectors.** -/
theorem reached_iff : s.Reached ↔ ∃ c : Consumables, s = c.stored := by
  constructor
  · intro h
    induction h with
    | new => exact ⟨Consumables.empty, rfl⟩
    | ofUnits units => exact ⟨Consumables.ofUnits units, (stored_ofUnits units).symm⟩
    | set id a _ ih =>
      obtain ⟨c, rfl⟩ := ih
      exact ⟨c.set id a, (stored_set c id a).symm⟩
    | add _ _ hadd ihs ihd =>
      obtain ⟨c, rfl⟩ := ihs
      obtain ⟨e, rfl⟩ := ihd
      rw [stored_add?] at hadd
      obtain ⟨r, -, rfl⟩ := Option.map_eq_some_iff.1 hadd
      exact ⟨r, rfl⟩
    | tryRemove removed _ _ hremove ihs ihd =>
      obtain ⟨c, rfl⟩ := ihs
      obtain ⟨e, rfl⟩ := ihd
      rw [stored_tryRemove?, Option.some.injEq] at hremove
      cases hr : c.remove? e with
      | none =>
        rw [hr] at hremove
        cases hremove
        exact ⟨c, rfl⟩
      | some r =>
        rw [hr] at hremove
        cases hremove
        exact ⟨r, rfl⟩
  · rintro ⟨c, rfl⟩
    exact reached_stored c

/-! ## What holds of all of them -/

/-- A vector equals another one just if it agrees with it everywhere. -/
theorem Reached.eq_iff (hs : s.Reached) (hd : d.Reached) : s = d ↔ ∀ id, s.get id = d.get id := by
  obtain ⟨c, rfl⟩ := reached_iff.1 hs
  obtain ⟨e, rfl⟩ := reached_iff.1 hd
  simp only [stored_inj, stored_get]
  constructor
  · rintro rfl id
    rfl
  · exact ext_get

theorem Reached.covers_iff (hs : s.Reached) (hd : d.Reached) :
    s.covers d = true ↔ ∀ id, d.get id ≤ s.get id := by
  obtain ⟨c, rfl⟩ := reached_iff.1 hs
  obtain ⟨e, rfl⟩ := reached_iff.1 hd
  simp only [stored_covers, stored_get, Consumables.covers_iff]

theorem Reached.mem_entries (hd : d.Reached) {id : Nat} {a : Amount} :
    (id, a) ∈ d.entries ↔ d.get id = a ∧ a ≠ 0 := by
  obtain ⟨e, rfl⟩ := reached_iff.1 hd
  rw [stored_entries, stored_get, mem_demands]

/-- A demand that is covered is taken away, and comes back by adding it. -/
theorem Reached.exists_tryRemove (hs : s.Reached) (hd : d.Reached) (h : s.covers d = true) :
    ∃ t, s.tryRemove? d = some (true, t) ∧
      (∀ id, (t.get id).count = (s.get id).count - (d.get id).count) ∧ t.add? d = some s := by
  obtain ⟨c, rfl⟩ := reached_iff.1 hs
  obtain ⟨e, rfl⟩ := reached_iff.1 hd
  rw [stored_covers] at h
  obtain ⟨r, hr⟩ : ∃ r, c.remove? e = some r := by
    rw [remove?, if_pos h]
    exact ⟨_, rfl⟩
  have hcount := remove?_eq_some_iff.1 hr
  have hadd : r.add? e = some c := add?_eq_some_iff.2 fun id => (hcount id).symm
  refine ⟨r.stored, by rw [stored_tryRemove?, hr, Option.elim_some], fun id => ?_, ?_⟩
  · have := hcount id
    simp only [stored_get]
    omega
  · rw [stored_add?, hadd, Option.map_some]

/-- A vector whose sums are in range is added, and comes off again. -/
theorem Reached.exists_add_iff (hs : s.Reached) (hd : d.Reached) :
    (∀ id, (s.get id).count + (d.get id).count < 1 <<< 64) ↔
      ∃ t, s.add? d = some t ∧
        (∀ id, (t.get id).count = (s.get id).count + (d.get id).count) ∧
        t.tryRemove? d = some (true, s) := by
  obtain ⟨c, rfl⟩ := reached_iff.1 hs
  obtain ⟨e, rfl⟩ := reached_iff.1 hd
  constructor
  · intro h
    obtain ⟨r, hr⟩ : ∃ r, c.add? e = some r := exists_add? fun id => by simpa using h id
    have hcount := add?_eq_some_iff.1 hr
    have hremove : r.remove? e = some c := remove?_eq_some_iff.2 fun id => (hcount id).symm
    refine ⟨r.stored, by rw [stored_add?, hr, Option.map_some], fun id => ?_, ?_⟩
    · simp only [stored_get, hcount id]
    · rw [stored_tryRemove?, hremove, Option.elim_some]
  · rintro ⟨t, -, hcount, -⟩ id
    rw [← hcount]
    exact (t.get id).count_lt

/-- **A loop over a vector is not disturbed** by what the list becomes meanwhile. Wherever it
stands, the dimensions that it has visited are combined with what they held at the start, the
others are as they were, and those still to come hold what the other vector has for them. -/
theorem Reached.get_of_pass_append (hd : d.Reached) {before after : List (Nat × Amount)}
    (hentries : d.entries = before ++ after) (h : s.pass f before = some t) :
    (∀ id, some (t.get id) =
      if id ∈ before.map Prod.fst then f (s.get id) (d.get id) else some (s.get id)) ∧
    ∀ entry ∈ after, t.get entry.1 = s.get entry.1 ∧ d.get entry.1 = entry.2 := by
  have hnodup := nodup_entries d
  rw [hentries, List.map_append, List.nodup_append] at hnodup
  obtain ⟨hids, -, hapart⟩ := hnodup
  have hget := get_of_pass hids h
  have hmem : ∀ id a, (id, a) ∈ before ++ after → d.get id = a := by
    intro id a ha
    rw [← hentries] at ha
    exact (hd.mem_entries.1 ha).1
  constructor
  · intro id
    split
    · rename_i hid
      obtain ⟨⟨visited, a⟩, ha, rfl⟩ := List.mem_map.1 hid
      rw [← (hget visited).2 a ha, hmem visited a (List.mem_append_left _ ha)]
    · rename_i hid
      rw [(hget id).1 hid]
  · rintro ⟨id, a⟩ ha
    refine ⟨(hget id).1 fun hid => ?_, hmem id a (List.mem_append_right _ ha)⟩
    exact hapart id hid id (List.mem_map_of_mem ha) rfl

/-- **Vectors are canonical.** Of two that the operations lead to, none ends with a zero, and they
are equal just if they agree everywhere. Setting a dimension changes that one only. Removal takes a
covered demand away in every dimension, and to add it gives the vector back; a demand that is not
covered changes nothing. Addition goes through just if every sum is in range, adds in every
dimension, and to remove gives the vector back. A loop over the other vector stands in every
dimension where the vectors at its start put it. All this is what the operations of `Consumables`
do. -/
theorem canonical_of_reached {s d : Stored} (hs : s.Reached) (hd : d.Reached) :
    s.amounts.getLast? ≠ some 0 ∧
    (s = d ↔ ∀ id, s.get id = d.get id) ∧
    (∀ id a j, (s.set id a).get j = if j = id then a else s.get j) ∧
    (s.covers d = true ↔ ∀ id, d.get id ≤ s.get id) ∧
    (s.covers d = true → ∃ t, s.tryRemove? d = some (true, t) ∧
      (∀ id, (t.get id).count = (s.get id).count - (d.get id).count) ∧ t.add? d = some s) ∧
    (s.covers d = false → s.tryRemove? d = some (false, s)) ∧
    ((∀ id, (s.get id).count + (d.get id).count < 1 <<< 64) ↔
      ∃ t, s.add? d = some t ∧
        (∀ id, (t.get id).count = (s.get id).count + (d.get id).count) ∧
        t.tryRemove? d = some (true, s)) ∧
    (∀ (f : Amount → Amount → Option Amount) (before after : List (Nat × Amount)) (t : Stored),
      d.entries = before ++ after → s.pass f before = some t →
      (∀ id, some (t.get id) =
        if id ∈ before.map Prod.fst then f (s.get id) (d.get id) else some (s.get id)) ∧
      ∀ entry ∈ after, t.get entry.1 = s.get entry.1 ∧ d.get entry.1 = entry.2) ∧
    ∃ c e : Consumables, c.stored = s ∧ e.stored = d ∧ (∀ id, c.get id = s.get id) ∧
      (∀ id a, (c.set id a).stored = s.set id a) ∧ (c.add? e).map stored = s.add? d ∧
      s.tryRemove? d = some ((c.remove? e).elim (false, s) fun r => (true, r.stored)) := by
  refine ⟨?last, hs.eq_iff hd, get_set s, hs.covers_iff hd, hs.exists_tryRemove hd, ?refused,
    hs.exists_add_iff hd, fun f before after t hentries h => ?loop, ?same⟩
  case last =>
    obtain ⟨c, rfl⟩ := reached_iff.1 hs
    exact c.canonical
  case refused =>
    intro h
    rw [tryRemove?, h, if_neg Bool.false_ne_true]
  case loop => exact hd.get_of_pass_append hentries h
  case same =>
    obtain ⟨c, rfl⟩ := reached_iff.1 hs
    obtain ⟨e, rfl⟩ := reached_iff.1 hd
    exact ⟨c, e, rfl, rfl, fun id => (stored_get c id).symm, stored_set c, (stored_add? c e).symm,
      stored_tryRemove? c e⟩

/-- Removal shortens the vector from six dimensions to one, and addition makes it grow again. -/
theorem canonical_of_reached_six_dimensions :
    let s := ofUnits [(5, 2), (0, 4), (2, 1), (7, 0)]
    let d := ofUnits [(2, 1), (5, 2)]
    let rest := ofUnits [(0, 4)]
    s.Reached ∧ d.Reached ∧ s.amounts.length = 6 ∧ rest.amounts.length = 1 ∧
      s.tryRemove? d = some (true, rest) ∧ rest.add? d = some s ∧
      rest.tryRemove? d = some (false, rest) ∧
      (∀ id, (rest.get id).count + (d.get id).count < 1 <<< 64) ∧
      ∃ t, s.pass Amount.sub? [(2, .ofUnits 1)] = some t ∧ t.get 5 = s.get 5 := by
  intro s d rest
  have hs : s.Reached := .ofUnits _
  have hd : d.Reached := .ofUnits _
  have hrest : rest.Reached := .ofUnits _
  obtain ⟨-, -, -, hcovers, hremove, -, -, hloop, -⟩ := canonical_of_reached hs hd
  obtain ⟨-, -, -, -, -, hrefused, -⟩ := canonical_of_reached hrest hd
  have hcovered : s.covers d = true := by decide +kernel
  obtain ⟨t, ht, hcount, hback⟩ := hremove hcovered
  obtain rfl : t = rest := by
    have hrun : s.tryRemove? d = some (true, rest) := by decide +kernel
    rw [hrun] at ht
    cases ht
    rfl
  have hmiddle : s.pass Amount.sub? [(2, .ofUnits 1)] = some (ofUnits [(0, 4), (5, 2)]) := by
    decide +kernel
  have hentries : d.entries = [(2, .ofUnits 1)] ++ [(5, .ofUnits 2)] := by decide +kernel
  obtain ⟨-, hafter⟩ := hloop Amount.sub? _ _ _ hentries hmiddle
  refine ⟨hs, hd, by decide +kernel, by decide +kernel, ht, hback, hrefused (by decide +kernel),
    fun id => ?_, _, hmiddle, (hafter (5, .ofUnits 2) (List.mem_singleton_self _)).1⟩
  have hle := hcovers.1 hcovered id
  have hlt := (s.get id).count_lt
  rw [Amount.le_def] at hle
  rw [hcount id]
  omega

end Stored

end Consumables

end Wharf
