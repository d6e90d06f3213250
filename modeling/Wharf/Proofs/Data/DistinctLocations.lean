import Wharf.Proofs.Data.Pins

/-!
# Locations that become the same

A location is added to an item only if it is not known. Hosts that are forgotten are cut out of the
files that they share with others, though, and what is left of one file may be what another one is,
or what is left of it.

* `Item.IsSet` says that no two locations of an item are the same.
* `Item.forgotten` are the hosts that are forgotten when something is done, and `Item.Merges` says
  that two files of the item are the same but for replicas on them.
* What is done keeps the locations apart just when it merges none (`Item.isSet_perform_iff`), and so
  does a whole past (`Item.distinct_unless_merged`). A host that is cut out of a file that it shares
  may leave a location twice (`Item.same_after_removal`).
-/

namespace Wharf

/-! ## What is left of a location -/

namespace Location

/-- The replicas that are not on these hosts. -/
def outside (hosts : List NodeId) (replicas : List Replica) : List Replica :=
  replicas.filter fun r => !hosts.contains r.host

/-- The location without what is on these hosts, be it that nothing is left of it. Only files are
cut. -/
def cut (hosts : List NodeId) : Location → Location
  | file replicas => file (outside hosts replicas)
  | l => l

/-- What remains of the location without several nodes; none when nothing does. -/
def withoutAll (l : Location) (hosts : List NodeId) : Option Location := hosts.foldlM without l

variable {l m : Location} {hosts : List NodeId}

@[simp]
theorem outside_nil (replicas : List Replica) : outside [] replicas = replicas := by
  simp [outside]

theorem outside_cons (host : NodeId) (rest : List NodeId) (replicas : List Replica) :
    outside (host :: rest) replicas = outside rest (replicas.filter fun r => r.host != host) := by
  rw [outside, outside, List.filter_filter]
  congr 1
  funext r
  rw [List.contains_cons, Bool.not_or]
  exact Bool.and_comm _ _

theorem withoutAll_cons (l : Location) (host : NodeId) (rest : List NodeId) :
    l.withoutAll (host :: rest) = (l.without host).bind fun m => m.withoutAll rest :=
  List.foldlM_cons

/-- Of a file the replicas on other hosts are left, as long as there are any. -/
theorem withoutAll_file (hne : hosts ≠ []) (replicas : List Replica) :
    (file replicas).withoutAll hosts =
      if outside hosts replicas = [] then none else some (file (outside hosts replicas)) := by
  induction hosts generalizing replicas with
  | nil => exact absurd rfl hne
  | cons host rest ih =>
    rw [withoutAll_cons, without_file, outside_cons]
    cases rest with
    | nil =>
      rw [outside_nil]
      split <;> rfl
    | cons other rest =>
      split
      · rename_i hnone
        rw [hnone, outside, List.filter_nil, if_pos rfl, Option.bind_none]
      · exact ih (List.cons_ne_nil other rest) _

theorem withoutAll_file_of_outside {replicas : List Replica} (h : outside hosts replicas ≠ []) :
    (file replicas).withoutAll hosts = some (file (outside hosts replicas)) := by
  by_cases hne : hosts = []
  · rw [hne, outside_nil]
    rfl
  · rw [withoutAll_file hne, if_neg h]

/-- What is left of a location is what was cut. -/
theorem eq_cut_of_withoutAll (h : l.withoutAll hosts = some m) : m = l.cut hosts := by
  induction hosts generalizing l with
  | nil =>
    cases h
    cases m with
    | file replicas => rw [cut, outside_nil]
    | memory node name => rfl
    | persistent key => rfl
  | cons host rest ih =>
    rw [withoutAll_cons] at h
    obtain ⟨k, hk, hm⟩ := Option.bind_eq_some_iff.1 h
    rw [ih hm]
    cases l with
    | memory node name =>
      simp only [without, Option.ite_none_left_eq_some, Option.some.injEq] at hk
      rw [← hk.2]
      rfl
    | persistent key =>
      cases hk
      rfl
    | file replicas =>
      rw [without_file, Option.ite_none_left_eq_some, Option.some.injEq] at hk
      rw [← hk.2, cut, cut, outside_cons]

/-- Only files become the same when they are cut. -/
theorem exists_of_same_cut (apart : l.same m = false)
    (h : (l.cut hosts).same (m.cut hosts) = true) :
    ∃ replicas others, l = file replicas ∧ m = file others ∧
      (outside hosts replicas).map Replica.key = (outside hosts others).map Replica.key := by
  cases l with
  | memory host name =>
    cases m with
    | file others => cases h
    | memory host' name' => exact absurd h (Bool.eq_false_iff.1 apart)
    | persistent key => cases h
  | persistent key =>
    cases m with
    | file others => cases h
    | memory host name => cases h
    | persistent key' => exact absurd h (Bool.eq_false_iff.1 apart)
  | file replicas =>
    cases m with
    | file others => exact ⟨replicas, others, rfl, rfl, eq_of_beq h⟩
    | memory host name => cases h
    | persistent key => cases h

/-- Files that are apart do not have the same replicas. -/
theorem keys_ne_of_apart {replicas others : List Replica}
    (h : (file replicas).same (file others) = false) :
    replicas.map Replica.key ≠ others.map Replica.key := fun hkeys => by
  have same : (file replicas).same (file others) = true := beq_iff_eq.2 hkeys
  rw [h] at same
  cases same

theorem outside_ne_nil_of_keys {replicas others : List Replica}
    (hkeys : (outside hosts replicas).map Replica.key = (outside hosts others).map Replica.key)
    (h : outside hosts replicas ≠ []) : outside hosts others ≠ [] := fun hnone => by
  rw [hnone, List.map_nil, List.map_eq_nil_iff] at hkeys
  exact h hkeys

end Location

/-! ## Items -/

namespace Item

open Location

variable {d : Item} {hosts : List NodeId}

/-- No two locations are the same. -/
def IsSet (d : Item) : Prop := d.locations.Pairwise fun l m => l.same m = false

/-- Two files of the item have the same replicas on other hosts than these, in the same order, and
have such replicas. -/
def Merges (d : Item) (hosts : List NodeId) : Prop :=
  ∃ replicas others, [.file replicas, .file others].Sublist d.locations ∧
    (outside hosts replicas).map Replica.key = (outside hosts others).map Replica.key ∧
    outside hosts replicas ≠ []

/-- Two locations, the first one before the second, are not the same. -/
theorem IsSet.apart (h : d.IsSet) {l m : Location} (hsub : [l, m].Sublist d.locations) :
    l.same m = false :=
  List.pairwise_iff_forall_sublist.1 h hsub

theorem IsSet.not_merges_nil (h : d.IsSet) : ¬ d.Merges [] := by
  rintro ⟨replicas, others, hsub, hkeys, -⟩
  rw [outside_nil, outside_nil] at hkeys
  exact keys_ne_of_apart (h.apart hsub) hkeys

theorem locations_foldl_dropHost (d : Item) (hosts : List NodeId) :
    (hosts.foldl dropHost d).locations = d.locations.filterMap fun l => l.withoutAll hosts := by
  induction hosts generalizing d with
  | nil => exact List.filterMap_some.symm
  | cons host rest ih =>
    rw [List.foldl_cons, ih, dropHost, List.filterMap_filterMap]
    simp only [withoutAll_cons]

/-- **Hosts that are forgotten leave the locations apart just when this merges none.** -/
theorem isSet_foldl_dropHost_iff (h : d.IsSet) :
    (hosts.foldl dropHost d).IsSet ↔ ¬ d.Merges hosts := by
  rw [IsSet, locations_foldl_dropHost, List.pairwise_filterMap, List.pairwise_iff_forall_sublist]
  constructor
  · rintro still ⟨replicas, others, hsub, hkeys, hleft⟩
    have hleft' := outside_ne_nil_of_keys hkeys hleft
    have apart := still hsub _ (withoutAll_file_of_outside hleft) _
      (withoutAll_file_of_outside hleft')
    exact keys_ne_of_apart apart hkeys
  · intro merges l m hsub l' hl m' hm
    by_cases hne : hosts = []
    · subst hne
      cases hl
      cases hm
      exact h.apart hsub
    · refine Bool.eq_false_iff.2 fun same => merges ?_
      rw [eq_cut_of_withoutAll hl, eq_cut_of_withoutAll hm] at same
      obtain ⟨replicas, others, rfl, rfl, hkeys⟩ := exists_of_same_cut (h.apart hsub) same
      refine ⟨replicas, others, hsub, hkeys, fun hnone => ?_⟩
      rw [withoutAll_file hne, if_pos hnone] at hl
      cases hl

/-! ## What is done with an item -/

/-- The hosts that are forgotten when something is done: one at once while there is no pin, those
that were put off with the last pin. -/
def forgotten (d : Item) : Action → List NodeId
  | .pin _ => []
  | .drop _ => if d.pins = 1 then d.postponed else []
  | .addLocation _ => []
  | .removeHost host => if d.pins = 0 then [host] else []

/-- Unless one is added, the locations are those that are left without the hosts that are
forgotten. -/
theorem locations_perform {a : Action} (ha : ∀ l, a ≠ .addLocation l) :
    (d.perform a).locations = ((d.forgotten a).foldl dropHost d).locations := by
  cases a with
  | pin guard => rfl
  | addLocation l => exact absurd rfl (ha l)
  | drop guard =>
    show d.unpin.locations = _
    simp only [unpin, forgotten]
    split
    · rw [locations_foldl_dropHost, locations_foldl_dropHost]
    · rfl
  | removeHost host =>
    show (d.removeHost host).1.locations = _
    simp only [removeHost, forgotten]
    split
    · rename_i hpins
      rw [if_neg (Nat.ne_of_gt hpins)]
      rfl
    · rename_i hpins
      rw [if_pos (Nat.eq_zero_of_not_pos hpins)]
      rfl

theorem IsSet.addLocation (h : d.IsSet) (l : Location) : (d.addLocation l).IsSet := by
  unfold Item.addLocation
  split
  · exact h
  · rename_i hnew
    refine List.pairwise_append.2 ⟨h, List.pairwise_singleton _ l, fun k hk m hm => ?_⟩
    rw [List.mem_singleton.1 hm]
    exact Bool.eq_false_iff.2 fun same => hnew (List.any_eq_true.2 ⟨k, hk, same⟩)

/-- **What is done keeps the locations apart just when it merges none.** -/
theorem isSet_perform_iff (h : d.IsSet) (a : Action) :
    (d.perform a).IsSet ↔ ¬ d.Merges (d.forgotten a) := by
  by_cases ha : ∃ l, a = .addLocation l
  · obtain ⟨l, rfl⟩ := ha
    exact iff_of_true (h.addLocation l) h.not_merges_nil
  · have left := locations_perform (d := d) fun l hl => ha ⟨l, hl⟩
    rw [IsSet, left]
    exact isSet_foldl_dropHost_iff h

/-! ## Hosts that share no file -/

/-- Wherever one of the hosts has a location it is the only one. -/
def AreAlone (gone : NodeId → Prop) (l : Location) : Prop :=
  ∀ host, gone host → host ∈ l.hosts → ∀ other ∈ l.hosts, other = host

theorem AreAlone.eq_of_withoutAll {gone : NodeId → Prop} {l m : Location} (h : AreAlone gone l)
    (hgone : ∀ host ∈ hosts, gone host) (hm : l.withoutAll hosts = some m) : m = l := by
  have hcut := eq_cut_of_withoutAll hm
  cases l with
  | memory host name => exact hcut
  | persistent key => exact hcut
  | file replicas =>
    rw [hcut, cut, outside, List.filter_eq_self.2 fun r hr => ?_]
    rw [Bool.not_eq_true', Bool.eq_false_iff]
    intro hhost
    have hhost : r.host ∈ hosts := List.contains_iff_mem.1 hhost
    -- One replica on a host that is forgotten means that nothing would be left.
    have nothing : outside hosts replicas = [] := by
      refine List.filter_eq_nil_iff.2 fun other hother => ?_
      have := h r.host (hgone _ hhost) (List.mem_map_of_mem hr) other.host
        (List.mem_map_of_mem hother)
      simp [this, hhost]
    rw [withoutAll_file (List.ne_nil_of_mem hhost), if_pos nothing] at hm
    cases hm

/-- The locations are apart and among those that are known, and so are the hosts whose removal is
put off. -/
structure IsSetAmong (known : Location → Prop) (gone : NodeId → Prop) (d : Item) : Prop where
  isSet : d.IsSet
  known : ∀ l ∈ d.locations, known l
  gone : ∀ host ∈ d.postponed, gone host

namespace IsSetAmong

variable {known : Location → Prop} {gone : NodeId → Prop}

theorem forgotten {a : Action} (h : d.IsSetAmong known gone)
    (hgone : ∀ host, a = .removeHost host → gone host) : ∀ host ∈ d.forgotten a, gone host := by
  intro host hhost
  cases a with
  | pin guard => cases hhost
  | addLocation l => cases hhost
  | drop guard =>
    simp only [Item.forgotten] at hhost
    split at hhost
    · exact h.gone host hhost
    · cases hhost
  | removeHost other =>
    simp only [Item.forgotten] at hhost
    split at hhost
    · exact hgone host (congrArg Action.removeHost (List.mem_singleton.1 hhost).symm)
    · cases hhost

theorem postponed {a : Action} (h : d.IsSetAmong known gone)
    (hgone : ∀ host, a = .removeHost host → gone host) :
    ∀ host ∈ (d.perform a).postponed, gone host := by
  intro host hhost
  cases a with
  | pin guard => exact h.gone host hhost
  | addLocation l =>
    change host ∈ (d.addLocation l).postponed at hhost
    rw [postponed_addLocation] at hhost
    exact h.gone host hhost
  | drop guard =>
    change host ∈ d.unpin.postponed at hhost
    unfold unpin at hhost
    split at hhost
    · rw [postponed_foldl_dropHost] at hhost
      cases hhost
    · exact h.gone host hhost
  | removeHost other =>
    change host ∈ (d.removeHost other).1.postponed at hhost
    by_cases hpins : 0 < d.pins
    · rcases (mem_postponed_removeHost hpins other host).1 hhost with rfl | hhost
      · exact hgone host rfl
      · exact h.gone host hhost
    · rw [removeHost, if_neg hpins] at hhost
      exact h.gone host hhost

/-- **Hosts that share no file merge nothing.** -/
theorem not_merges (h : d.IsSetAmong known gone) (alone : ∀ l, known l → AreAlone gone l)
    (hgone : ∀ host ∈ hosts, gone host) : ¬ d.Merges hosts := by
  rintro ⟨replicas, others, hsub, hkeys, hleft⟩
  have hleft' := outside_ne_nil_of_keys hkeys hleft
  have whole : ∀ rs, .file rs ∈ d.locations → outside hosts rs ≠ [] → outside hosts rs = rs := by
    intro rs hrs hne
    exact Location.file.inj ((alone _ (h.known _ hrs)).eq_of_withoutAll hgone
      (withoutAll_file_of_outside hne))
  rw [whole replicas (hsub.subset (by simp)) hleft, whole others (hsub.subset (by simp)) hleft']
    at hkeys
  exact keys_ne_of_apart (h.isSet.apart hsub) hkeys

theorem perform {a : Action} (h : d.IsSetAmong known gone) (alone : ∀ l, known l → AreAlone gone l)
    (hknown : ∀ l, a = .addLocation l → known l)
    (hgone : ∀ host, a = .removeHost host → gone host) :
    (d.perform a).IsSetAmong known gone := by
  refine ⟨(isSet_perform_iff h.isSet a).2 (h.not_merges alone (h.forgotten hgone)), ?_,
    h.postponed hgone⟩
  intro l hl
  by_cases ha : ∃ new, a = .addLocation new
  · obtain ⟨new, rfl⟩ := ha
    change l ∈ (d.addLocation new).locations at hl
    unfold Item.addLocation at hl
    split at hl
    · exact h.known l hl
    · rcases List.mem_append.1 hl with hl | hl
      · exact h.known l hl
      · rw [List.mem_singleton.1 hl]
        exact hknown new rfl
  · rw [locations_perform fun new hnew => ha ⟨new, hnew⟩, locations_foldl_dropHost] at hl
    obtain ⟨m, hm, hwithout⟩ := List.mem_filterMap.1 hl
    rw [(alone m (h.known m hm)).eq_of_withoutAll (h.forgotten hgone) hwithout]
    exact h.known m hm

theorem after {past : List Action} (h : d.IsSetAmong known gone)
    (alone : ∀ l, known l → AreAlone gone l) (hknown : ∀ l, .addLocation l ∈ past → known l)
    (hgone : ∀ host, .removeHost host ∈ past → gone host) :
    (d.after past).IsSetAmong known gone := by
  induction past with
  | nil => exact h
  | cons a past ih =>
    have before := ih (fun l hl => hknown l (List.mem_cons_of_mem _ hl))
      fun host hhost => hgone host (List.mem_cons_of_mem _ hhost)
    refine before.perform alone (fun l hl => hknown l ?_) fun host hhost => hgone host ?_
    · rw [hl]
      exact List.mem_cons_self
    · rw [hhost]
      exact List.mem_cons_self

end IsSetAmong

/-! ## Any past -/

variable {past : List Action}

/-- **Locations are a set unless some are merged.** Take any past of an item whose locations are
apart. They have been apart all the time just when nothing that was done has merged any: no host was
forgotten, at once or with the last pin, without which two files that differed were the same. So
locations that are added are always apart from the others, and so is what is left after any removal,
if the hosts that are to be forgotten share no file with others. -/
theorem distinct_unless_merged (h : d.IsSet) (past : List Action) :
    ((∀ part, part <:+ past → (d.after part).IsSet) ↔
      ∀ a earlier, a :: earlier <:+ past →
        ¬ (d.after earlier).Merges ((d.after earlier).forgotten a)) ∧
    ((∀ l, l ∈ d.locations ∨ .addLocation l ∈ past →
        ∀ host, host ∈ d.postponed ∨ .removeHost host ∈ past → host ∈ l.hosts →
          ∀ other ∈ l.hosts, other = host) →
      ∀ part, part <:+ past → (d.after part).IsSet) := by
  refine ⟨⟨fun sets a earlier hsuffix => ?_, fun merges part => ?_⟩, fun alone part hpart => ?_⟩
  · have before : (d.after earlier).IsSet := sets _ ((List.suffix_cons a earlier).trans hsuffix)
    exact (isSet_perform_iff before a).1 (sets _ hsuffix)
  · induction part with
    | nil => exact fun _ => h
    | cons a earlier ih =>
      intro hsuffix
      have before := ih ((List.suffix_cons a earlier).trans hsuffix)
      exact (isSet_perform_iff before a).2 (merges a earlier hsuffix)
  · have start : d.IsSetAmong (fun l => l ∈ d.locations ∨ .addLocation l ∈ past)
        fun host => host ∈ d.postponed ∨ .removeHost host ∈ past :=
      ⟨h, fun _ => .inl, fun _ => .inl⟩
    exact (start.after alone (fun l hl => .inr (hpart.subset hl))
      fun host hhost => .inr (hpart.subset hhost)).isSet

instance (d : Item) : Decidable d.IsSet :=
  inferInstanceAs (Decidable (d.locations.Pairwise fun l m => l.same m = false))

/-- The removal of a host is put off while a file comes that two other hosts share. The host shares
no file itself, so the locations are apart all the time. -/
theorem distinct_unless_merged_shared_file :
    let single : Location := .file [⟨1, .mk "n1/x"⟩]
    let shared : Location := .file [⟨2, .mk "n2/x"⟩, ⟨3, .mk "n3/x"⟩]
    let past : List Action :=
      [.drop 0, .addLocation shared, .removeHost 1, .pin 0, .addLocation single]
    (named "x").IsSet ∧ IsLawful past ∧ ((named "x").after past).locations = [shared] ∧
      ∀ part, part <:+ past → ((named "x").after part).IsSet := by
  intro single shared past
  have start : (named "x").IsSet := List.Pairwise.nil
  have lawful : IsLawful past := by simp [past, IsLawful, live]
  refine ⟨start, lawful, by decide +kernel, (distinct_unless_merged start past).2 ?_⟩
  intro l hl host hhost hmem
  obtain rfl : host = 1 := by simpa [past, named] using hhost
  obtain rfl | rfl : l = shared ∨ l = single := by simpa [past, named] using hl
  · revert hmem
    decide
  · decide

/-- A file is known on two hosts, and the one on the second host as a file of its own. When the
first host is forgotten, at once or with the last pin, the two are the same. -/
theorem same_after_removal :
    let both : Location := .file [⟨1, .mk "n1/x"⟩, ⟨2, .mk "n2/x"⟩]
    let single : Location := .file [⟨2, .mk "n2/x"⟩]
    let added : List Action := [.addLocation single, .addLocation both]
    let at_once : List Action := .removeHost 1 :: added
    let later : List Action := .drop 0 :: .removeHost 1 :: .pin 0 :: added
    IsLawful at_once ∧ IsLawful later ∧ ((named "x").after added).IsSet ∧
      ((named "x").after at_once).locations = [single, single] ∧
      ((named "x").after later).locations = [single, single] ∧
      ¬ ((named "x").after at_once).IsSet ∧ ¬ ((named "x").after later).IsSet := by
  intro both single added at_once later
  have lawful : IsLawful at_once ∧ IsLawful later := by simp [at_once, later, added, IsLawful, live]
  exact ⟨lawful.1, lawful.2, by decide +kernel, by decide +kernel, by decide +kernel,
    by decide +kernel, by decide +kernel⟩

end Item

end Wharf
