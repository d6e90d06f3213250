import Wharf.Proofs.Data.Pins

/-!
# What a removal leaves

A host that is forgotten goes from all locations. What it had alone goes with it, all else stays
where it is.

* `Location.IsLeftOf` relates a location to what is left of it without a host, and
  `Location.isOnlyOn` says that nothing is (`Location.without_eq_none_iff`).
* The hosts of an item come in the order in which they are first listed, with or without the one
  that is forgotten (`Item.hosts_dropHost`).
* **A removal removes one host** (`Item.removes_host_only`), and several do so in any order.
-/

namespace Wharf

theorem filter_append_missing (known : List NodeId) (host : NodeId) (p : NodeId → Bool) :
    (if known.contains host then known else known ++ [host]).filter p =
      if p host then
        if (known.filter p).contains host then known.filter p else known.filter p ++ [host]
      else known.filter p := by
  cases hp : p host with
  | false =>
    split
    · rfl
    · rw [List.filter_append, List.filter_singleton, hp]
      exact List.append_nil _
  | true =>
    have same : (known.filter p).contains host = known.contains host := by
      rw [Bool.eq_iff_iff, List.contains_iff_mem, List.contains_iff_mem, List.mem_filter, hp]
      exact and_iff_left rfl
    rw [if_pos rfl, same]
    split
    · rfl
    · rw [List.filter_append, List.filter_singleton, hp]
      rfl

/-- Hosts may be left out before or after they are gathered. -/
theorem filter_addHosts (known new : List NodeId) (p : NodeId → Bool) :
    (addHosts known new).filter p = addHosts (known.filter p) (new.filter p) := by
  unfold addHosts
  induction new generalizing known with
  | nil => rfl
  | cons host rest ih =>
    rw [List.foldl_cons, ih, filter_append_missing, List.filter_cons]
    split <;> rfl

namespace Location

/-- Whether the node holds the location and no other one does. -/
def isOnlyOn (l : Location) (node : NodeId) : Bool :=
  !l.hosts.isEmpty && l.hosts.all fun host => host == node

/-- What is left of a location without a node: the other hosts in order, all that they see of it,
and the whole location where the node does not hold it. -/
structure IsLeftOf (node : NodeId) (l m : Location) : Prop where
  hosts_eq : m.hosts = l.hosts.filter fun host => host != node
  pathIn_eq : ∀ other, other ≠ node → m.pathIn other = l.pathIn other
  pathIn_node : m.pathIn node = none
  eq_of_notMem : node ∉ l.hosts → m = l
  replicas_eq : ∀ replicas, l = file replicas →
    m = file (replicas.filter fun r => r.host != node)

variable {l m : Location} {node : NodeId}

theorem isOnlyOn_iff : l.isOnlyOn node = true ↔ l.hosts ≠ [] ∧ ∀ host ∈ l.hosts, host = node := by
  simp [isOnlyOn]

theorem isOnlyOn_file {replicas : List Replica} :
    (file replicas).isOnlyOn node = true ↔
      replicas ≠ [] ∧ replicas.filter (fun r => r.host != node) = [] := by
  simp [isOnlyOn_iff, hosts]

/-- The path on another host does not change when replicas of a node are left out. -/
theorem pathIn_filter (replicas : List Replica) {other : NodeId} (hne : other ≠ node) :
    (file (replicas.filter fun r => r.host != node)).pathIn other =
      (file replicas).pathIn other := by
  have same : (fun r : Replica => decide ((r.host != node) = true ∧ (r.host == other) = true)) =
      fun r => r.host == other := by
    funext r
    by_cases hr : r.host = other
    · simp [hr, hne]
    · simp [hr]
  rw [pathIn, pathIn, List.find?_filter, same]

theorem pathIn_eq_none (h : node ∉ l.hosts) : l.pathIn node = none := by
  cases l with
  | memory host name => rfl
  | persistent key => rfl
  | file replicas =>
    rw [pathIn, Option.map_eq_none_iff, List.find?_eq_none]
    intro r hr hhost
    exact h (List.mem_map.2 ⟨r, hr, eq_of_beq hhost⟩)

theorem filter_hosts_eq (h : node ∉ l.hosts) :
    (l.hosts.filter fun host => host != node) = l.hosts :=
  List.filter_eq_self.2 fun _ hhost => bne_iff_ne.2 fun heq => h (heq ▸ hhost)

/-- Where the node does not hold a location it is left as it is. -/
theorem isLeftOf_self (h : node ∉ l.hosts) : IsLeftOf node l l where
  hosts_eq := (filter_hosts_eq h).symm
  pathIn_eq _ _ := rfl
  pathIn_node := pathIn_eq_none h
  eq_of_notMem _ := rfl
  replicas_eq replicas hl := by
    subst hl
    rw [List.filter_eq_self.2]
    intro r hr
    exact bne_iff_ne.2 fun heq => h (List.mem_map.2 ⟨r, hr, heq⟩)

theorem isLeftOf_file (replicas : List Replica) :
    IsLeftOf node (file replicas) (file (replicas.filter fun r => r.host != node)) where
  hosts_eq := by
    rw [hosts, hosts, List.filter_map]
    rfl
  pathIn_eq _ := pathIn_filter replicas
  pathIn_node := by
    refine pathIn_eq_none fun hmem => ?_
    obtain ⟨r, hr, hhost⟩ := List.mem_map.1 hmem
    exact bne_iff_ne.1 (List.mem_filter.1 hr).2 hhost
  eq_of_notMem h := ((isLeftOf_self h).replicas_eq replicas rfl).symm
  replicas_eq others hl := by rw [Location.file.inj hl]

/-- **What a location is without a node**: nothing if the node alone held it, what is left of it
otherwise. -/
theorem without_spec (h : l ≠ file []) (node : NodeId) :
    if l.isOnlyOn node then l.without node = none
    else ∃ m, l.without node = some m ∧ IsLeftOf node l m := by
  cases l with
  | memory host name =>
    by_cases hhost : host = node
    · rw [if_pos (by simp [isOnlyOn_iff, hosts, hhost]), without, if_pos hhost]
    · rw [if_neg (by simp [isOnlyOn_iff, hosts, hhost]), without, if_neg hhost]
      exact ⟨_, rfl, isLeftOf_self (by simpa [hosts] using Ne.symm hhost)⟩
  | persistent key =>
    rw [if_neg (by simp [isOnlyOn_iff, hosts])]
    exact ⟨_, rfl, isLeftOf_self List.not_mem_nil⟩
  | file replicas =>
    have hne : replicas ≠ [] := fun hnil => h (congrArg file hnil)
    rw [without_file]
    by_cases hnone : replicas.filter (fun r => r.host != node) = []
    · rw [if_pos (isOnlyOn_file.2 ⟨hne, hnone⟩), if_pos hnone]
    · rw [if_neg fun honly => hnone (isOnlyOn_file.1 honly).2, if_neg hnone]
      exact ⟨_, rfl, isLeftOf_file replicas⟩

theorem ne_file_nil_of_without (h : l.without node = some m) (hl : l ≠ file []) : m ≠ file [] := by
  cases l with
  | memory host name =>
    simp only [without, Option.ite_none_left_eq_some, Option.some.injEq] at h
    rw [← h.2]
    exact hl
  | persistent key =>
    cases h
    exact hl
  | file replicas =>
    rw [without_file, Option.ite_none_left_eq_some, Option.some.injEq] at h
    rw [← h.2]
    exact fun heq => h.1 (Location.file.inj heq)

/-- The hosts of what remains, of nothing none. -/
theorem hosts_without (l : Location) (node : NodeId) :
    (l.without node).elim [] hosts = l.hosts.filter fun host => host != node := by
  by_cases hl : l = file []
  · rw [hl]
    rfl
  · have spec := without_spec hl node
    split at spec
    · rename_i honly
      rw [spec, Option.elim_none, eq_comm, List.filter_eq_nil_iff]
      intro host hhost
      simpa using (isOnlyOn_iff.1 honly).2 host hhost
    · obtain ⟨m, hm, left⟩ := spec
      rw [hm, Option.elim_some, left.hosts_eq]

end Location

namespace Item

variable {d : Item} {node : NodeId}

/-- **The other hosts stay in their order.** -/
theorem hosts_dropHost (d : Item) (node : NodeId) :
    (d.dropHost node).hosts = d.hosts.filter fun host => host != node := by
  have gathered : ∀ (locations : List Location) (known : List NodeId),
      (locations.filterMap fun l => l.without node).foldl (fun hosts l => addHosts hosts l.hosts)
          (known.filter fun host => host != node) =
        (locations.foldl (fun hosts l => addHosts hosts l.hosts) known).filter
          fun host => host != node := by
    intro locations
    induction locations with
    | nil => exact fun _ => rfl
    | cons l rest ih =>
      intro known
      have added := filter_addHosts known l.hosts fun host => host != node
      rw [← Location.hosts_without] at added
      rw [List.foldl_cons, ← ih, added, List.filterMap_cons]
      cases l.without node with
      | none => rfl
      | some m => rfl
  exact gathered d.locations []

theorem locations_dropHost (h : ∀ l ∈ d.locations, l ≠ .file []) (node : NodeId) :
    List.Forall₂ (Location.IsLeftOf node) (d.locations.filter fun l => !l.isOnlyOn node)
      (d.dropHost node).locations := by
  show List.Forall₂ _ _ (d.locations.filterMap fun l => l.without node)
  generalize d.locations = locations at h
  induction locations with
  | nil => exact .nil
  | cons l rest ih =>
    obtain ⟨hl, hrest⟩ := List.forall_mem_cons.1 h
    have spec := Location.without_spec hl node
    rw [List.filter_cons, List.filterMap_cons]
    split at spec
    · rename_i honly
      rw [honly, spec]
      exact ih hrest
    · rename_i honly
      obtain ⟨m, hm, left⟩ := spec
      rw [Bool.eq_false_iff.2 honly, hm]
      exact .cons left (ih hrest)

/-- Locations that the node does not hold are all left, in their order. -/
theorem sublist_locations_dropHost (h : ∀ l ∈ d.locations, l ≠ .file []) (node : NodeId) :
    (d.locations.filter fun l => !l.isHostedBy node).Sublist (d.dropHost node).locations := by
  show List.Sublist _ (d.locations.filterMap fun l => l.without node)
  generalize d.locations = locations at h
  induction locations with
  | nil => exact .slnil
  | cons l rest ih =>
    obtain ⟨hl, hrest⟩ := List.forall_mem_cons.1 h
    rw [List.filter_cons, List.filterMap_cons]
    cases held : l.isHostedBy node with
    | true =>
      rw [if_neg (by simp)]
      cases l.without node with
      | none => exact ih hrest
      | some m => exact (ih hrest).cons m
    | false =>
      have hnot : node ∉ l.hosts := fun hmem => by
        rw [Location.isHostedBy, List.contains_iff_mem.2 hmem] at held
        cases held
      have others : l.isOnlyOn node = false := by
        refine Bool.eq_false_iff.2 fun honly => ?_
        obtain ⟨hne, all⟩ := Location.isOnlyOn_iff.1 honly
        obtain ⟨host, hhost⟩ := List.exists_mem_of_ne_nil _ hne
        exact hnot (all host hhost ▸ hhost)
      have spec := Location.without_spec hl node
      rw [others, if_neg (by simp)] at spec
      obtain ⟨m, hm, left⟩ := spec
      rw [if_pos (by simp), hm, left.eq_of_notMem hnot]
      exact (ih hrest).cons_cons l

theorem removeHost_of_unpinned (h : d.pins = 0) (node : NodeId) :
    d.removeHost node = (d.dropHost node, true) := by
  rw [removeHost, if_neg (Nat.not_lt.2 (Nat.le_of_eq h))]

/-- **A removal removes one host, and nothing else.** Take an item without pins whose files all have
a replica. The removal is done at once and changes the locations only. The hosts of the item are the
others, in their order. Locations that the node does not hold are all left; of the rest those go
that the node holds alone, and the others keep their places, their other hosts, and the path under
which each of these sees them. No file is left without a replica. Removing the node again changes
nothing, and two nodes may be removed in either order. -/
theorem removes_host_only (hpins : d.pins = 0) (hfiles : ∀ l ∈ d.locations, l ≠ .file [])
    (node : NodeId) :
    let removed := d.removeHost node
    removed.2 = true ∧ removed.1 = { d with locations := removed.1.locations } ∧
      removed.1.hosts = (d.hosts.filter fun host => host != node) ∧
      (d.locations.filter fun l => !l.isHostedBy node).Sublist removed.1.locations ∧
      List.Forall₂ (Location.IsLeftOf node) (d.locations.filter fun l => !l.isOnlyOn node)
        removed.1.locations ∧
      (∀ l ∈ removed.1.locations, l ≠ .file []) ∧
      (removed.1.removeHost node).1 = removed.1 ∧
      ∀ other, (removed.1.removeHost other).1 = ((d.removeHost other).1.removeHost node).1 := by
  intro removed
  have hremoved : removed = (d.dropHost node, true) := removeHost_of_unpinned hpins node
  have still : ∀ host, (d.dropHost host).pins = 0 := fun _ => hpins
  rw [hremoved]
  refine ⟨rfl, rfl, hosts_dropHost d node, sublist_locations_dropHost hfiles node,
    locations_dropHost hfiles node, fun l hl => ?_, ?_, fun other => ?_⟩
  · obtain ⟨m, hm, hwithout⟩ := List.mem_filterMap.1 hl
    exact Location.ne_file_nil_of_without hwithout (hfiles m hm)
  · rw [removeHost_of_unpinned (still node)]
    exact dropHost_dropHost d node
  · have swap : (d.dropHost node).dropHost other = (d.dropHost other).dropHost node :=
      RightCommutative.right_comm d node other
    rw [removeHost_of_unpinned (still node), removeHost_of_unpinned hpins,
      removeHost_of_unpinned (still other)]
    exact swap

/-- Of the locations of an item one is on the first node alone, and one is a file that this node
shares, where it is listed twice. -/
theorem removes_host_only_shared_file :
    let shared : Location := .file [⟨1, .mk "a"⟩, ⟨3, .mk "c"⟩, ⟨1, .mk "b"⟩, ⟨2, .mk "a"⟩]
    let d : Item := { named "x" with
      locations := [.persistent "k", .memory 1 "x", shared, .memory 2 "x", .file [⟨1, .mk "a"⟩]] }
    let removed := (d.removeHost 1).1
    d.pins = 0 ∧ (∀ l ∈ d.locations, l ≠ .file []) ∧ d.hosts = [1, 3, 2] ∧
      removed.hosts = [3, 2] ∧
      removed.locations =
        [.persistent "k", .file [⟨3, .mk "c"⟩, ⟨2, .mk "a"⟩], .memory 2 "x"] ∧
      (∀ l ∈ removed.locations, l ≠ .file []) ∧
      (removed.removeHost 1).1 = removed ∧
      (removed.removeHost 3).1 = ((d.removeHost 3).1.removeHost 1).1 := by
  intro shared d removed
  have files : ∀ l ∈ d.locations, l ≠ .file [] := by simp [d, shared]
  obtain ⟨-, -, hosts, -, -, left, again, swap⟩ := removes_host_only (d := d) rfl files 1
  exact ⟨rfl, files, by decide, hosts.trans (by decide), by decide, left, again, swap 3⟩

end Item

end Wharf
