import Wharf.Proofs.Transfer.Copies

/-!
# What is known of the items

Resolutions pin items and register copies on them all the time. What is known of an item otherwise
only changes when it has been brought somewhere.

* `Item.SameFacts` says that name, locations, value and removals that were put off are the same,
  `World.SameItems` says so of all items.
* `Item.Within` says that no location has been added, and no path to one. Forgetting hosts adds
  none (`Item.within_unpin`).
* `Item.IsSettled` says that nothing is put off without a pin. It holds of a new item and is kept by
  all that happens to items; then the last pin is taken back without a trace
  (`Item.sameFacts_unpin`).
-/

namespace Wharf

/-! ## Hosts that are forgotten -/

/-- What is left of a location when hosts are forgotten: its key, and some of the paths. -/
structure Location.Within (l m : Location) : Prop where
  key?_eq : l.key? = m.key?
  pathIn : ∀ node path, l.pathIn node = some path → m.pathIn node = some path

theorem Location.within_of_without {l m : Location} {host : NodeId}
    (h : m.without host = some l) : l.Within m := by
  cases m with
  | memory node name =>
    simp only [without] at h
    split at h
    · cases h
    · cases h
      exact ⟨rfl, fun _ _ => id⟩
  | persistent key =>
    cases h
    exact ⟨rfl, fun _ _ => id⟩
  | file replicas =>
    simp only [without] at h
    split at h
    · cases h
    · rename_i r rest hkept
      cases h
      refine ⟨rfl, fun node path hpath => ?_⟩
      rw [← hkept, Location.pathIn, List.find?_filter] at hpath
      obtain ⟨replica, hfind, rfl⟩ := Option.map_eq_some_iff.1 hpath
      obtain ⟨hother, hnode⟩ : replica.host ≠ host ∧ replica.host = node := by
        simpa using List.find?_some hfind
      -- A replica of that node is not one of the host that is forgotten.
      have keeps : (fun a : Replica => a.host == node) =
          fun a => decide ((a.host != host) = true ∧ (a.host == node) = true) := by
        funext a
        by_cases ha : a.host = node
        · simp [ha, ← hnode, hother]
        · simp [ha]
      exact Option.map_eq_some_iff.2 ⟨replica, by rw [keeps, hfind], rfl⟩

namespace Item

variable {d d' d'' : Item}

/-- No location has been added, and no path to one. -/
def Within (d d' : Item) : Prop := ∀ l ∈ d.locations, ∃ m ∈ d'.locations, l.Within m

namespace Within

theorem of_locations_eq (h : d.locations = d'.locations) : Within d d' := by
  intro l hl
  rw [h] at hl
  exact ⟨l, hl, rfl, fun _ _ => id⟩

theorem trans (h : Within d d') (h' : Within d' d'') : Within d d'' := by
  intro l hl
  obtain ⟨m, hm, hlm⟩ := h l hl
  obtain ⟨k, hk, hmk⟩ := h' m hm
  exact ⟨k, hk, hlm.key?_eq.trans hmk.key?_eq,
    fun node path hpath => hmk.pathIn node path (hlm.pathIn node path hpath)⟩

theorem key?_eq_none (h : Within d d') (hnone : d'.key? = none) : d.key? = none := by
  unfold key? at hnone ⊢
  rw [List.findSome?_eq_none_iff] at hnone ⊢
  intro l hl
  obtain ⟨m, hm, hlm⟩ := h l hl
  rw [hlm.key?_eq, hnone m hm]

end Within

theorem within_foldl_dropHost (hosts : List NodeId) : Within (hosts.foldl dropHost d) d := by
  induction hosts generalizing d with
  | nil => exact .of_locations_eq rfl
  | cons host rest ih =>
    refine ih.trans fun l hl => ?_
    obtain ⟨m, hm, hwithout⟩ := List.mem_filterMap.1 hl
    exact ⟨m, hm, Location.within_of_without hwithout⟩

theorem within_unpin (d : Item) : Within d.unpin d := by
  unfold unpin
  split
  · exact (within_foldl_dropHost _).trans (.of_locations_eq rfl)
  · exact .of_locations_eq rfl

/-- What is known of an item besides its copies and pins is the same. -/
structure SameFacts (d d' : Item) : Prop where
  name : d'.name = d.name
  locations : d'.locations = d.locations
  value : d'.value = d.value
  postponed : d'.postponed = d.postponed

namespace SameFacts

theorem refl (d : Item) : SameFacts d d := ⟨rfl, rfl, rfl, rfl⟩

theorem trans (h : SameFacts d d') (h' : SameFacts d' d'') : SameFacts d d'' :=
  ⟨h'.name.trans h.name, h'.locations.trans h.locations, h'.value.trans h.value,
    h'.postponed.trans h.postponed⟩

theorem knows_eq (h : SameFacts d d') (l : Location) : d'.knows l = d.knows l := by
  rw [knows, h.locations, knows]

theorem hosts_eq (h : SameFacts d d') : d'.hosts = d.hosts := by
  rw [hosts, h.locations, hosts]

theorem key?_eq (h : SameFacts d d') : d'.key? = d.key? := by
  rw [key?, h.locations, key?]

theorem addLocation (h : SameFacts d d') (l : Location) :
    SameFacts (d.addLocation l) (d'.addLocation l) := by
  unfold Item.addLocation
  rw [h.knows_eq]
  split
  · exact h
  · exact ⟨h.name, congrArg (· ++ [l]) h.locations, h.value, h.postponed⟩

end SameFacts

theorem knows_addLocation (d : Item) (l : Location) : (d.addLocation l).knows l = true := by
  unfold addLocation
  split
  · assumption
  · simp [knows]

theorem addLocation_of_knows {l : Location} (h : d.knows l = true) : d.addLocation l = d :=
  if_pos h

theorem pins_addLocation (l : Location) : (d.addLocation l).pins = d.pins := by
  unfold addLocation
  split <;> rfl

theorem postponed_addLocation (l : Location) : (d.addLocation l).postponed = d.postponed := by
  unfold addLocation
  split <;> rfl

/-! ## Removals that were put off -/

/-- Removals are only put off while there is a pin. -/
def IsSettled (d : Item) : Prop := d.pins = 0 → d.postponed = []

theorem isSettled_named (name : String) : (named name).IsSettled := fun _ => rfl

theorem postponed_foldl_dropHost (hosts : List NodeId) :
    (hosts.foldl dropHost d).postponed = d.postponed := by
  induction hosts generalizing d with
  | nil => rfl
  | cons host rest ih =>
    rw [List.foldl_cons, ih]
    rfl

namespace IsSettled

variable (h : d.IsSettled)

include h

theorem addLocation (l : Location) : (d.addLocation l).IsSettled := by
  unfold Item.addLocation
  split <;> exact h

theorem removeHost (host : NodeId) : (d.removeHost host).1.IsSettled := by
  unfold Item.removeHost
  split
  · rename_i hpins
    exact fun hzero => absurd hzero (Nat.ne_of_gt hpins)
  · exact h

theorem unpin : d.unpin.IsSettled := by
  unfold Item.unpin
  split
  · intro _
    rw [postponed_foldl_dropHost]
  · intro hzero
    refine h ?_
    dsimp only at hzero
    omega

end IsSettled

theorem isSettled_pin (d : Item) : d.pin.IsSettled := fun hzero => nomatch hzero

/-- The last pin is taken back without a trace when nothing was put off. -/
theorem sameFacts_unpin (h : d.pins = 1 → d.postponed = []) : SameFacts d d.unpin := by
  unfold unpin
  split
  · rename_i hpins
    rw [h hpins]
    exact ⟨rfl, rfl, rfl, (h hpins).symm⟩
  · exact ⟨rfl, rfl, rfl, rfl⟩

end Item

namespace World

variable {u v w w' : World} {q : Request}

theorem within_updateItem {item : ItemId} {f : Item → Item}
    (hf : (f (w.items.get item)).Within (w.items.get item)) (i : ItemId) :
    ((w.updateItem item f).items.get i).Within (w.items.get i) := by
  rw [World.updateItem, Cells.update, Cells.get_set]
  split
  · rename_i hi
    rw [hi]
    exact hf
  · exact .of_locations_eq rfl

/-- What is known of the items is the same. -/
def SameItems (w w' : World) : Prop :=
  ∀ item, Item.SameFacts (w.items.get item) (w'.items.get item)

namespace SameItems

theorem refl (w : World) : SameItems w w := fun _ => .refl _

theorem trans (h : SameItems u v) (h' : SameItems v w) : SameItems u w :=
  fun item => (h item).trans (h' item)

theorem of_items_eq (h : w'.items = w.items) : SameItems w w' := by
  intro item
  rw [h]
  exact .refl _

theorem updateItem {item : ItemId} {f : Item → Item}
    (hf : Item.SameFacts (w.items.get item) (f (w.items.get item))) :
    SameItems w (w.updateItem item f) := by
  intro i
  rw [World.updateItem, Cells.update, Cells.get_set]
  split
  · rename_i hi
    rw [hi]
    exact hf
  · exact .refl _

theorem joinOrStart {node : NodeId} (h : w.copiesTo q.item node = []) :
    SameItems w (w.joinOrStart node q).1 := by
  simp only [World.joinOrStart, h]
  exact .trans (.of_items_eq rfl) (.updateItem ⟨rfl, rfl, rfl, rfl⟩)

end SameItems

theorem get_items_addLocation (w : World) (i : ItemId) (l : Location) (item : ItemId) :
    ((w.addLocation (some i) l).items.get item) =
      if item = i then (w.items.get i).addLocation l else w.items.get item := rfl

theorem SameItems.register (h : SameItems w w') (q : Request) :
    SameItems (w.register q) (w'.register q) := by
  unfold World.register
  cases q.targetItem with
  | none => exact h
  | some i =>
    intro item
    rw [get_items_addLocation, get_items_addLocation]
    split
    · exact (h i).addLocation q.target
    · exact h item

@[simp]
theorem files_register (w : World) (q : Request) : (w.register q).files = w.files := by
  unfold register addLocation
  split <;> rfl

/-- Registering a target has nothing to do with pins. -/
theorem pins_register (w : World) (q : Request) (item : ItemId) :
    ((w.register q).items.get item).pins = (w.items.get item).pins ∧
      ((w.register q).items.get item).postponed = (w.items.get item).postponed := by
  unfold register
  cases q.targetItem with
  | none => exact ⟨rfl, rfl⟩
  | some i =>
    rw [get_items_addLocation]
    split
    · rename_i hi
      rw [hi]
      exact ⟨Item.pins_addLocation _, Item.postponed_addLocation _⟩
    · exact ⟨rfl, rfl⟩

/-- A target that has been registered is known. -/
theorem knows_register (w : World) {q : Request} {i : ItemId} (hi : q.targetItem = some i) :
    ((w.register q).items.get i).knows q.target = true := by
  rw [register, hi, get_items_addLocation, if_pos rfl]
  exact Item.knows_addLocation _ _

/-- A target that is known already is registered without a trace. -/
theorem sameItems_register_of_knows
    (h : ∀ i, q.targetItem = some i → (w.items.get i).knows q.target = true) :
    SameItems (w.register q) w := by
  unfold register
  cases hi : q.targetItem with
  | none => exact .refl w
  | some i =>
    intro item
    rw [get_items_addLocation]
    split
    · rename_i heq
      rw [Item.addLocation_of_knows (h i hi), heq]
      exact .refl _
    · exact .refl _

/-- What it takes to overwrite a file with another one. -/
theorem copyFile_eq_ok_iff {source target : Path} :
    w.copyFile source target = .ok w' ↔
      source.same target = true ∧ w' = w ∨
        source.same target = false ∧
          ∃ files, w.files.copy source target = .ok files ∧ w' = { w with files := files } := by
  unfold copyFile
  cases source.same target with
  | true => simp [eq_comm]
  | false =>
    cases w.files.copy source target with
    | error e => simp
    | ok files => simp [eq_comm]

end World

end Wharf
