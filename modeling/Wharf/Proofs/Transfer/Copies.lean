import Wharf.Proofs.Lists
import Wharf.Transfer.World

/-!
# The copies of a world

How the operations on a world change the copies that are in progress. Most of them do not touch the
copies at all, the others register one, finish one, or take one off its item.

* `World.SameCopies` says that two worlds have the same copies and the same nodes, `World.Later`
  that the copies of the second world are at least as far on.
* A copy that is registered because there is none in progress becomes the only one
  (`World.copiesTo_joinOrStart`).
* A copy that is finished (`World.copiesTo_complete`) or taken off (`World.copiesTo_removeCopy`) is
  no longer in progress, and all others still are.
-/

namespace Wharf

theorem mem_addHosts {host : NodeId} {known new : List NodeId} :
    host ∈ addHosts known new ↔ host ∈ known ∨ host ∈ new :=
  mem_foldl_append_missing

theorem Location.mem_hosts_of_pathIn {l : Location} {node : NodeId} {path : Path}
    (h : l.pathIn node = some path) : node ∈ l.hosts := by
  cases l with
  | file replicas =>
    obtain ⟨r, hfind, -⟩ := Option.map_eq_some_iff.1 h
    have hhost := List.find?_some hfind
    rw [beq_iff_eq] at hhost
    exact List.mem_map.2 ⟨r, List.mem_of_find?_eq_some hfind, hhost⟩
  | memory _ _ => cases h
  | persistent _ => cases h

namespace Item

variable (d : Item)

@[simp]
theorem copies_pin : d.pin.copies = d.copies := rfl

@[simp]
theorem copies_addLocation (l : Location) : (d.addLocation l).copies = d.copies := by
  unfold addLocation
  split <;> rfl

theorem copies_foldl_dropHost (hosts : List NodeId) :
    (hosts.foldl dropHost d).copies = d.copies := by
  induction hosts generalizing d with
  | nil => rfl
  | cons host rest ih =>
    rw [List.foldl_cons, ih]
    rfl

@[simp]
theorem copies_unpin : d.unpin.copies = d.copies := by
  unfold unpin
  split
  · rw [copies_foldl_dropHost]
  · rfl

end Item

/-! ## Worlds with the same copies -/

namespace World

/-- The copies are the same, the places where they are registered, and the nodes that can be
called. -/
structure SameCopies (w w' : World) : Prop where
  copies : w'.copies = w.copies
  registered : ∀ item, (w'.items.get item).copies = (w.items.get item).copies
  directory : w'.directory = w.directory

namespace SameCopies

variable {w w' w'' : World}

theorem refl (w : World) : SameCopies w w := ⟨rfl, fun _ => rfl, rfl⟩

theorem trans (h : SameCopies w w') (h' : SameCopies w' w'') : SameCopies w w'' :=
  ⟨h'.copies.trans h.copies, fun item => (h'.registered item).trans (h.registered item),
    h'.directory.trans h.directory⟩

theorem copiesTo_eq (h : SameCopies w w') (item : ItemId) (node : NodeId) :
    w'.copiesTo item node = w.copiesTo item node := by
  unfold copiesTo isUnderWay
  rw [h.registered, h.copies]

theorem files (w : World) (fs : Files) : SameCopies w { w with files := fs } :=
  ⟨rfl, fun _ => rfl, rfl⟩

theorem updateItem (w : World) (item : ItemId) {f : Item → Item}
    (hf : ∀ d, (f d).copies = d.copies) : SameCopies w (w.updateItem item f) where
  copies := rfl
  registered i := by
    simp only [World.updateItem, Cells.update, Cells.get_set]
    split
    · rename_i hi
      rw [hf, hi]
    · rfl
  directory := rfl

theorem addLocation (w : World) (item : Option ItemId) (l : Location) :
    SameCopies w (w.addLocation item l) := by
  cases item with
  | none => exact refl w
  | some item => exact updateItem w item fun d => d.copies_addLocation l

theorem register (w : World) (r : Request) : SameCopies w (w.register r) :=
  addLocation w r.targetItem r.target

theorem copyFile {source target : Path} (h : w.copyFile source target = .ok w') :
    SameCopies w w' := by
  unfold World.copyFile at h
  split at h
  · cases h
    exact refl w
  · split at h
    · cases h
      exact files w _
    · cases h

theorem copyFirst {target : Path} {sources : List Path}
    (h : w.copyFirst target sources = some w') : SameCopies w w' := by
  induction sources with
  | nil => cases h
  | cons source rest ih =>
    unfold World.copyFirst at h
    split at h
    · rename_i hcopy
      cases h
      exact copyFile hcopy
    · exact ih h

end SameCopies

variable {w w' : World} {item : ItemId} {node : NodeId}

/-! ## Copies to one node -/

/-- The copies of an item that are registered and bring it to a node, finished or not. -/
def registeredTo (w : World) (item : ItemId) (node : NodeId) : List CopyId :=
  (w.items.get item).copies.filter fun c => (w.copies.get c).targets node

/-- Nothing is registered but copies that have been given out. -/
def Knows (w : World) (item : ItemId) : Prop :=
  ∀ c ∈ (w.items.get item).copies, c < w.copies.size

theorem copiesTo_eq (w : World) (item : ItemId) (node : NodeId) :
    w.copiesTo item node =
      (w.registeredTo item node).filter fun c => !(w.copies.get c).isFinished := by
  unfold copiesTo registeredTo isUnderWay
  rw [List.filter_filter]
  refine List.filter_congr fun c _ => ?_
  rw [Bool.and_comm]

theorem mem_copiesTo {c : CopyId} : c ∈ w.copiesTo item node ↔
    c ∈ w.registeredTo item node ∧ (w.copies.get c).outcome = none := by
  rw [copiesTo_eq, List.mem_filter, Copy.isFinished, Bool.not_eq_true', Option.isSome_eq_false_iff,
    Option.isNone_iff_eq_none]

theorem Knows.lt_of_mem_copiesTo (h : w.Knows item) {c : CopyId} (hc : c ∈ w.copiesTo item node) :
    c < w.copies.size :=
  h c (List.mem_filter.1 hc).1

/-- The copies are as before or further on: there may be more, and a copy that was finished has kept
its outcome. -/
structure Later (item : ItemId) (w w' : World) : Prop where
  size_le : w.copies.size ≤ w'.copies.size
  knows : w.Knows item → w'.Knows item
  outcome_eq : ∀ c < w.copies.size, ∀ outcome, (w.copies.get c).outcome = some outcome →
    (w'.copies.get c).outcome = some outcome

theorem Later.isFinished (h : Later item w w') {c : CopyId} (hc : c < w.copies.size)
    (hf : (w.copies.get c).isFinished) : (w'.copies.get c).isFinished := by
  obtain ⟨outcome, ho⟩ := Option.isSome_iff_exists.1 hf
  rw [Copy.isFinished, h.outcome_eq c hc outcome ho]
  rfl

theorem Later.trans {w'' : World} (h : Later item w w') (h' : Later item w' w'') :
    Later item w w'' where
  size_le := Nat.le_trans h.size_le h'.size_le
  knows hk := h'.knows (h.knows hk)
  outcome_eq c hc outcome ho :=
    h'.outcome_eq c (Nat.lt_of_lt_of_le hc h.size_le) outcome (h.outcome_eq c hc outcome ho)

theorem SameCopies.later (h : w.SameCopies w') : Later item w w' where
  size_le := Nat.le_of_eq (by rw [h.copies])
  knows hk := by
    unfold Knows
    rw [h.registered, h.copies]
    exact hk
  outcome_eq c _ _ hc := by rw [h.copies, hc]

theorem SameCopies.registeredTo_eq (h : w.SameCopies w') :
    w'.registeredTo item node = w.registeredTo item node := by
  unfold registeredTo
  rw [h.registered, h.copies]

/-! ## Registering a copy -/

section Register

variable {q : Request}

theorem get_copies_joinOrStart (h : w.copiesTo q.item node = []) (c : CopyId) :
    ((w.joinOrStart node q).1.copies.get c) = if c = w.copies.size then
      .start (w.items.get q.item).name q.source q.target q.targetItem
        (match q.targetItem with
        | some item => (w.items.get item).hosts
        | none => [])
    else w.copies.get c := by
  simp only [joinOrStart, h]
  rfl

theorem size_joinOrStart (h : w.copiesTo q.item node = []) :
    (w.joinOrStart node q).1.copies.size = w.copies.size + 1 := by
  simp only [joinOrStart, h]
  rfl

theorem registered_joinOrStart (h : w.copiesTo q.item node = []) (item : ItemId) :
    ((w.joinOrStart node q).1.items.get item).copies =
      if item = q.item then (w.items.get item).copies ++ [w.copies.size]
      else (w.items.get item).copies := by
  simp only [joinOrStart, h, updateItem, Cells.update, Cells.get_set]
  split
  · rename_i hitem
    rw [hitem]
    rfl
  · rfl

theorem later_joinOrStart (h : w.copiesTo q.item node = []) :
    Later item w (w.joinOrStart node q).1 where
  size_le := by
    rw [size_joinOrStart h]
    exact Nat.le_succ _
  knows hk c hc := by
    rw [registered_joinOrStart h] at hc
    rw [size_joinOrStart h]
    split at hc
    · rcases List.mem_append.1 hc with hc | hc
      · exact Nat.lt_succ_of_lt (hk c hc)
      · rw [List.mem_singleton.1 hc]
        exact Nat.lt_succ_self _
    · exact Nat.lt_succ_of_lt (hk c hc)
  outcome_eq c hlt outcome hc := by
    rw [get_copies_joinOrStart h, if_neg (Nat.ne_of_lt hlt), hc]

/-- A copy that is registered is in progress to all hosts of its target. -/
theorem isUnderWay_joinOrStart (h : w.copiesTo q.item node = []) {host : NodeId}
    (hhost : host ∈ q.target.hosts) :
    (w.joinOrStart node q).1.isUnderWay host w.copies.size = true := by
  unfold isUnderWay
  rw [get_copies_joinOrStart h, if_pos rfl, Bool.and_eq_true]
  refine ⟨?_, rfl⟩
  rw [Copy.targets, List.contains_iff_mem]
  exact mem_addHosts.2 (.inl hhost)

/-- **A copy that is registered is the only one in progress.** -/
theorem copiesTo_joinOrStart (hk : w.Knows q.item) (h : w.copiesTo q.item node = [])
    (hnode : node ∈ q.target.hosts) :
    (w.joinOrStart node q).1.copiesTo q.item node = [w.copies.size] := by
  have hold : ∀ c ∈ (w.items.get q.item).copies,
      (w.joinOrStart node q).1.isUnderWay node c = w.isUnderWay node c := by
    intro c hc
    unfold isUnderWay
    rw [get_copies_joinOrStart h, if_neg (Nat.ne_of_lt (hk c hc))]
  have hnew := isUnderWay_joinOrStart h hnode
  unfold copiesTo at h ⊢
  rw [registered_joinOrStart h, if_pos rfl, List.filter_append, List.filter_congr hold, h,
    List.nil_append, List.filter_cons_of_pos hnew, List.filter_nil]

end Register

/-! ## Finishing a copy and taking it off the item -/

section Finish

variable {copy : CopyId} {outcome : Outcome}

theorem get_copies_complete (c : CopyId) :
    (w.complete copy outcome).copies.get c =
      if c = copy then ((w.copies.get copy).complete outcome).copy else w.copies.get c := rfl

theorem outcome_complete (c : Copy) :
    (c.complete outcome).copy.outcome = some (c.outcome.getD outcome) := by
  unfold Copy.complete
  split
  · rename_i hc
    rw [hc]
    rfl
  · rename_i hc
    rw [hc]
    rfl

theorem hosts_complete (c : Copy) : (c.complete outcome).copy.hosts = c.hosts := by
  unfold Copy.complete
  split <;> rfl

theorem targets_complete (c : CopyId) :
    ((w.complete copy outcome).copies.get c).targets node = (w.copies.get c).targets node := by
  rw [get_copies_complete]
  split
  · rename_i hc
    rw [Copy.targets, hosts_complete, hc, Copy.targets]
  · rfl

theorem later_complete : Later item w (w.complete copy outcome) where
  size_le := Nat.le_refl _
  knows hk := hk
  outcome_eq c _ o hc := by
    rw [get_copies_complete]
    split
    · rename_i heq
      rw [outcome_complete, ← heq, hc, Option.getD_some]
    · exact hc

theorem isFinished_complete (c : CopyId) :
    ((w.complete copy outcome).copies.get c).isFinished =
      (decide (c = copy) || (w.copies.get c).isFinished) := by
  rw [Copy.isFinished, get_copies_complete]
  split
  · rename_i hc
    rw [outcome_complete, decide_eq_true hc]
    rfl
  · rename_i hc
    rw [decide_eq_false hc]
    rfl

theorem copiesTo_complete :
    (w.complete copy outcome).copiesTo item node =
      (w.copiesTo item node).filter fun c => c != copy := by
  unfold copiesTo
  rw [List.filter_filter]
  refine List.filter_congr fun c _ => ?_
  unfold isUnderWay
  rw [targets_complete, isFinished_complete]
  by_cases hc : c = copy <;> simp [hc]

theorem registered_removeCopy (item' : ItemId) :
    ((w.updateItem item fun d => d.removeCopy copy).items.get item').copies =
      if item' = item then (w.items.get item').copies.filter fun c => c != copy
      else (w.items.get item').copies := by
  simp only [updateItem, Cells.update, Cells.get_set]
  split
  · rename_i h
    rw [h]
    rfl
  · rfl

theorem later_removeCopy (item' : ItemId) :
    Later item' w (w.updateItem item fun d => d.removeCopy copy) where
  size_le := Nat.le_refl _
  knows hk c hc := by
    rw [registered_removeCopy] at hc
    split at hc
    · exact hk c (List.mem_filter.1 hc).1
    · exact hk c hc
  outcome_eq _ _ _ hc := hc

theorem copiesTo_removeCopy :
    (w.updateItem item fun d => d.removeCopy copy).copiesTo item node =
      (w.copiesTo item node).filter fun c => c != copy := by
  unfold copiesTo
  rw [registered_removeCopy, if_pos rfl, List.filter_filter, List.filter_filter]
  refine List.filter_congr fun c _ => ?_
  rw [Bool.and_comm]
  rfl

end Finish

end World

end Wharf
