import Mathlib.Logic.Relation
import Wharf.Proofs.Transfer.Moves

/-!
# Resolutions share one copy

Several resolutions on one node are after the same item. However they take turns, and whatever goes
on elsewhere meanwhile, the item is on its way to the node at most once.

* `Siblings.Step` is one step of one of the resolutions, or of something elsewhere: there the copies
  of the item to this node are left alone (`World.Elsewhere`). Deliveries are of this kind
  (`World.Elsewhere.of_sameCopies`), and so are resolutions that have nothing to do with such a copy
  (`World.Elsewhere.of_effect`).
* `Siblings.Invariant` ties the copies in progress to the resolutions: there is at most one, and
  the one that holds it is the only one to call nodes. Every step keeps it (`Invariant.step`).
* `Siblings.one_transfer` is what follows for whole runs, with what becomes of those that wait.
-/

namespace Wharf

namespace World

variable {w w' : World} {item : ItemId} {node : NodeId}

/-! ## What goes on elsewhere -/

/-- What happens elsewhere leaves the copies of the item to the node alone. -/
structure Elsewhere (item : ItemId) (node : NodeId) (w w' : World) : Prop extends
    Later item w w' where
  registeredTo_eq : w'.registeredTo item node = w.registeredTo item node
  same : ∀ c ∈ w.registeredTo item node, (w'.copies.get c).outcome = (w.copies.get c).outcome

theorem Elsewhere.copiesTo_eq (h : Elsewhere item node w w') :
    w'.copiesTo item node = w.copiesTo item node := by
  rw [World.copiesTo_eq, World.copiesTo_eq, h.registeredTo_eq]
  refine List.filter_congr fun c hc => ?_
  rw [Copy.isFinished, Copy.isFinished, h.same c hc]

theorem Elsewhere.of_sameCopies (h : w.SameCopies w') : Elsewhere item node w w' where
  toLater := h.later
  registeredTo_eq := h.registeredTo_eq
  same c _ := by rw [h.copies]

namespace Elsewhere

variable {copy : CopyId}

/-- A copy is registered elsewhere if it is not to the node. -/
theorem joinOrStart {q : Request} {n : NodeId} (hk : w.Knows item) (free : w.copiesTo q.item n = [])
    (hnew : w.copies.size ∉ (w.joinOrStart n q).1.registeredTo item node) :
    Elsewhere item node w (w.joinOrStart n q).1 := by
  have hget : ∀ c ∈ (w.items.get item).copies,
      (w.joinOrStart n q).1.copies.get c = w.copies.get c := by
    intro c hc
    rw [get_copies_joinOrStart free, if_neg (Nat.ne_of_lt (hk c hc))]
  have hold : ∀ c ∈ (w.items.get item).copies,
      ((w.joinOrStart n q).1.copies.get c).targets node = (w.copies.get c).targets node := by
    intro c hc
    rw [hget c hc]
  refine ⟨later_joinOrStart free, ?_, fun c hc => by rw [hget c (List.mem_filter.1 hc).1]⟩
  unfold registeredTo at hnew ⊢
  rw [registered_joinOrStart free] at hnew ⊢
  split
  · rw [if_pos ‹_›, List.filter_append, List.mem_append, not_or] at hnew
    rw [List.filter_append, List.filter_congr hold, List.append_right_eq_self,
      List.filter_eq_nil_iff]
    intro c hc hcopy
    rw [List.mem_singleton.1 hc] at hcopy
    exact hnew.2 (List.mem_filter.2 ⟨List.mem_cons_self, hcopy⟩)
  · exact List.filter_congr hold

theorem complete {outcome : Outcome} (h : copy ∉ w.registeredTo item node) :
    Elsewhere item node w (w.complete copy outcome) := by
  refine ⟨later_complete, List.filter_congr fun c _ => targets_complete c, fun c hc => ?_⟩
  rw [get_copies_complete, if_neg]
  rintro rfl
  exact h hc

theorem removeCopy {other : ItemId} (h : copy ∉ w.registeredTo item node) :
    Elsewhere item node w (w.updateItem other fun d => d.removeCopy copy) := by
  refine ⟨later_removeCopy item, ?_, fun _ _ => rfl⟩
  have hne : ∀ c ∈ w.registeredTo item node, (c != copy) = true := by
    intro c hc
    rw [bne_iff_ne]
    rintro rfl
    exact h hc
  rw [← List.filter_eq_self.2 hne]
  unfold registeredTo
  rw [registered_removeCopy, List.filter_filter]
  split
  · rw [List.filter_filter]
    refine List.filter_congr fun c _ => ?_
    rw [Bool.and_comm]
    rfl
  · rw [← List.filter_filter]
    exact (List.filter_eq_self.2 hne).symm

end Elsewhere

theorem later_effect {r r' : Resolution} (h : r.Effect w w' r') : Later item w w' := by
  cases h with
  | quiet same _ => exact same.later
  | starts _ free => exact later_joinOrStart free
  | completes _ _ => exact later_complete
  | withdraws _ => exact later_removeCopy item

/-- A resolution of which no copy of its own is on its way to the node is at work elsewhere. -/
theorem Elsewhere.of_effect {r r' : Resolution} (hr : r.IsCoherent) (hk : w.Knows item)
    (h : r.Effect w w' r') (before : ∀ c, r.started = some c → c ∉ w.registeredTo item node)
    (after : ∀ c, r'.started = some c → c ∉ w'.registeredTo item node) :
    Elsewhere item node w w' := by
  cases h with
  | quiet same _ => exact .of_sameCopies same
  | starts _ free => exact .joinOrStart hk free (after _ rfl)
  | completes _ own => exact .complete (before _ own)
  | withdraws withdrawing => exact .removeCopy (before _ (hr.started_of_withdrawing withdrawing))

end World

/-! ## Turns -/

/-- A resolution of requests for an item that have a path for it on a node. -/
structure Resolution.Serves (item : ItemId) (node : NodeId) (r : Resolution) : Prop where
  node_eq : r.node.id = node
  item_eq : r.request.item = item
  exists_path : ∃ path, r.localTarget = some path

/-- The resolutions on one node that are after the same item, in one world. -/
structure Siblings where
  world : World
  members : List Resolution

namespace Resolution

variable {item : ItemId} {node : NodeId} {r r' : Resolution} {w w' : World}

theorem Serves.of_eq (h : r.Serves item node) (hn : r'.node = r.node)
    (hq : r'.request = r.request) : r'.Serves item node where
  node_eq := by rw [hn, h.node_eq]
  item_eq := by rw [hq, h.item_eq]
  exists_path := by
    rw [localTarget, hn, hq]
    exact h.exists_path

theorem Serves.effect (h : r.Serves item node) (he : r.Effect w w' r') : r'.Serves item node := by
  cases he with
  | quiet _ _ => exact h.of_eq rfl rfl
  | starts _ _ => exact h.of_eq rfl rfl
  | completes _ _ => exact h.of_eq rfl rfl
  | withdraws _ => exact h.of_eq rfl rfl

theorem Serves.mem_hosts (h : r.Serves item node) : node ∈ r.request.target.hosts := by
  obtain ⟨path, hpath⟩ := h.exists_path
  rw [localTarget, h.node_eq] at hpath
  exact Location.mem_hosts_of_pathIn hpath

end Resolution

namespace Siblings

variable {item : ItemId} {node : NodeId}

/-- The resolution of a number. -/
def member? (s : Siblings) (i : Nat) : Option Resolution := s.members[i]?

/-- One more resolution. -/
def join (s : Siblings) (r : Resolution) : Siblings := { s with members := s.members ++ [r] }

/-- Another world, in which one of the resolutions has changed. -/
def replace (s : Siblings) (w : World) (i : Nat) (r : Resolution) : Siblings :=
  ⟨w, s.members.set i r⟩

/-- One step. New resolutions come up at any time, and replies come when they like. -/
inductive Step (item : ItemId) (node : NodeId) (s : Siblings) : Siblings → Prop
  | elsewhere {w : World} (h : World.Elsewhere item node s.world w) :
      Step item node s { s with world := w }
  | joins {n : LocalNode} {q : Request} (serves : (Resolution.start n q).Serves item node) :
      Step item node s (s.join (.start n q))
  | advances {i : Nat} {r r' : Resolution} {w : World} (member : s.member? i = some r)
      (h : r.step s.world = .advance w r') : Step item node s (s.replace w i r')
  | calls {i : Nat} {r r' : Resolution} {peer : Node} {q : Request}
      (member : s.member? i = some r) (h : r.step s.world = .call peer q r') :
      Step item node s (s.replace s.world i r')
  | replies {i : Nat} {r : Resolution} (member : s.member? i = some r) (reply : Reply) :
      Step item node s (s.replace s.world i (r.answer reply))

/-- Any number of steps. -/
abbrev Run (item : ItemId) (node : NodeId) : Siblings → Siblings → Prop :=
  Relation.ReflTransGen (Step item node)

variable {s s' : Siblings} {i : Nat} {r r' : Resolution} {w : World}

theorem member?_join (s : Siblings) (r : Resolution) (j : Nat) :
    (s.join r).member? j = if j = s.members.length then some r else s.member? j := by
  unfold join member?
  rw [List.getElem?_append]
  split
  · rw [if_neg (by omega)]
  · split
    · rename_i hj
      rw [hj, Nat.sub_self]
      rfl
    · rw [List.getElem?_eq_none (by rw [List.length_singleton]; omega),
        List.getElem?_eq_none (by omega)]

theorem member?_replace (hi : s.member? i = some r) (j : Nat) :
    (s.replace w i r').member? j = if j = i then some r' else s.member? j := by
  have hlt := (List.getElem?_eq_some_iff.1 hi).1
  unfold replace member?
  rw [List.getElem?_set]
  by_cases hj : j = i
  · rw [if_pos hj, if_pos hj.symm, if_pos hlt]
  · rw [if_neg hj, if_neg (Ne.symm hj)]

/-- What is to be shown of all resolutions after one of them has changed. -/
theorem forall_member?_replace {P : Nat → Resolution → Prop} (hi : s.member? i = some r)
    (hp : P i r') (h : ∀ j x, j ≠ i → s.member? j = some x → P j x) :
    ∀ j x, (s.replace w i r').member? j = some x → P j x := by
  intro j x hx
  rw [member?_replace hi] at hx
  split at hx
  · rename_i hj
    cases hx
    rw [hj]
    exact hp
  · rename_i hj
    exact h j x hj hx

theorem forall_member?_join {P : Nat → Resolution → Prop} (hp : P s.members.length r)
    (h : ∀ j x, s.member? j = some x → P j x) : ∀ j x, (s.join r).member? j = some x → P j x := by
  intro j x hx
  rw [member?_join] at hx
  split at hx
  · rename_i hj
    cases hx
    rw [hj]
    exact hp
  · exact h j x hx

/-! ## The invariant -/

/-- What ties the copies in progress to the resolutions. -/
structure Invariant (item : ItemId) (node : NodeId) (s : Siblings) : Prop where
  knows : s.world.Knows item
  serves : ∀ i r, s.member? i = some r → r.Serves item node
  isCoherent : ∀ i r, s.member? i = some r → r.IsCoherent
  started_lt : ∀ i r, s.member? i = some r → ∀ c, r.started = some c → c < s.world.copies.size
  /-- Every copy is started by one resolution only. -/
  started_inj : ∀ i r, s.member? i = some r → ∀ j r', s.member? j = some r' →
    ∀ c, r.started = some c → r'.started = some c → i = j
  /-- The copies in progress are those that the resolutions hold. -/
  mem_copiesTo : ∀ c, c ∈ s.world.copiesTo item node ↔
    ∃ i r, s.member? i = some r ∧ r.holding = some c
  length_le : (s.world.copiesTo item node).length ≤ 1
  listed_lt : ∀ i r, s.member? i = some r → ∀ c ∈ r.listed, c < s.world.copies.size
  /-- Nothing is waited for but copies in progress and those that are through. -/
  listed : ∀ i r, s.member? i = some r → ∀ c ∈ r.listed,
    c ∈ s.world.copiesTo item node ∨ (s.world.copies.get c).isFinished

/-- A world in which no resolution has started yet. -/
def opening (w : World) : Siblings := ⟨w, []⟩

theorem invariant_opening (hk : w.Knows item) (h : w.copiesTo item node = []) :
    Invariant item node (opening w) where
  knows := hk
  serves _ _ hr := by cases hr
  isCoherent _ _ hr := by cases hr
  started_lt _ _ hr := by cases hr
  started_inj _ _ hr := by cases hr
  mem_copiesTo c := by
    rw [opening, h]
    constructor
    · intro hc
      cases hc
    · rintro ⟨i, r, hr, -⟩
      cases hr
  length_le := by
    rw [opening, h]
    exact Nat.zero_le _
  listed_lt _ _ hr := by cases hr
  listed _ _ hr := by cases hr

namespace Invariant

variable (h : Invariant item node s)

include h

theorem elsewhere (hw : World.Elsewhere item node s.world w) :
    Invariant item node { s with world := w } where
  knows := hw.knows h.knows
  serves := h.serves
  isCoherent := h.isCoherent
  started_lt i r hr c hc := Nat.lt_of_lt_of_le (h.started_lt i r hr c hc) hw.size_le
  started_inj := h.started_inj
  mem_copiesTo c := by
    rw [hw.copiesTo_eq]
    exact h.mem_copiesTo c
  length_le := by
    rw [hw.copiesTo_eq]
    exact h.length_le
  listed_lt i r hr c hc := Nat.lt_of_lt_of_le (h.listed_lt i r hr c hc) hw.size_le
  listed i r hr c hc := by
    rw [hw.copiesTo_eq]
    exact (h.listed i r hr c hc).imp_right (hw.isFinished (h.listed_lt i r hr c hc))

theorem join {n : LocalNode} {q : Request} (serves : (Resolution.start n q).Serves item node) :
    Invariant item node (s.join (.start n q)) where
  knows := h.knows
  serves := forall_member?_join serves h.serves
  isCoherent := forall_member?_join rfl h.isCoherent
  started_lt := forall_member?_join (fun c hc => by cases hc) h.started_lt
  started_inj := by
    refine forall_member?_join (fun j x _ c hc => by cases hc) fun i r hr => ?_
    exact forall_member?_join (fun c _ hc => by cases hc) (h.started_inj i r hr)
  mem_copiesTo c := by
    refine (h.mem_copiesTo c).trans ⟨?_, ?_⟩
    · rintro ⟨i, r, hr, hc⟩
      refine ⟨i, r, ?_, hc⟩
      have hlt := (List.getElem?_eq_some_iff.1 hr).1
      rw [member?_join, if_neg (Nat.ne_of_lt hlt), hr]
    · rintro ⟨i, r, hr, hc⟩
      rw [member?_join] at hr
      split at hr
      · cases hr
        cases hc
      · exact ⟨i, r, hr, hc⟩
  length_le := h.length_le
  listed_lt := forall_member?_join (fun c hc => by cases hc) h.listed_lt
  listed := forall_member?_join (fun c hc => by cases hc) h.listed

section Replace

variable (hi : s.member? i = some r)

include hi

/-- The copies in progress are the one that the resolution holds and those that the others hold. -/
theorem mem_copiesTo_iff (c : CopyId) : c ∈ s.world.copiesTo item node ↔
    r.holding = some c ∨ ∃ j x, j ≠ i ∧ s.member? j = some x ∧ x.holding = some c := by
  rw [h.mem_copiesTo]
  constructor
  · rintro ⟨j, x, hx, hc⟩
    by_cases hj : j = i
    · rw [hj, hi] at hx
      cases hx
      exact .inl hc
    · exact .inr ⟨j, x, hj, hx, hc⟩
  · rintro (hc | ⟨j, x, -, hx, hc⟩)
    · exact ⟨i, r, hi, hc⟩
    · exact ⟨j, x, hx, hc⟩

/-- A move keeps the invariant as long as the resolution starts no copy but a new one, and what is
no longer in progress is through. -/
theorem replace (hw : World.Later item s.world w) (hserves : r'.Serves item node)
    (hcoherent : r'.IsCoherent)
    (hstarted : ∀ c, r'.started = some c → r.started = some c ∨
      s.world.copies.size ≤ c ∧ c < w.copies.size)
    (hcopies : ∀ c, c ∈ w.copiesTo item node ↔
      r'.holding = some c ∨ ∃ j x, j ≠ i ∧ s.member? j = some x ∧ x.holding = some c)
    (hlength : (w.copiesTo item node).length ≤ 1)
    (hgone : ∀ c ∈ s.world.copiesTo item node,
      c ∈ w.copiesTo item node ∨ (w.copies.get c).isFinished)
    (hlisted : ∀ c ∈ r'.listed, c ∈ r.listed ∨ c ∈ s.world.copiesTo item node) :
    Invariant item node (s.replace w i r') := by
  have hother : ∀ j x, j ≠ i → s.member? j = some x → ∀ c, r'.started = some c →
      x.started ≠ some c := by
    intro j x hj hx c hc hc'
    rcases hstarted c hc with hold | ⟨hnew, -⟩
    · exact hj (h.started_inj j x hx i r hi c hc' hold)
    · exact absurd (h.started_lt j x hx c hc') (Nat.not_lt.2 hnew)
  have hstill : ∀ c, c < s.world.copies.size →
      c ∈ s.world.copiesTo item node ∨ (s.world.copies.get c).isFinished →
        c ∈ w.copiesTo item node ∨ (w.copies.get c).isFinished := by
    rintro c hlt (hc | hf)
    · exact hgone c hc
    · exact .inr (hw.isFinished hlt hf)
  have hlisted_lt : ∀ c ∈ r'.listed, c < s.world.copies.size := by
    intro c hc
    rcases hlisted c hc with hc | hc
    · exact h.listed_lt i r hi c hc
    · exact h.knows.lt_of_mem_copiesTo hc
  exact
  { knows := hw.knows h.knows
    serves := forall_member?_replace hi hserves fun j x _ => h.serves j x
    isCoherent := forall_member?_replace hi hcoherent fun j x _ => h.isCoherent j x
    started_lt := by
      refine forall_member?_replace hi (fun c hc => ?_) fun j x _ hx c hc => ?_
      · rcases hstarted c hc with hold | ⟨-, hlt⟩
        · exact Nat.lt_of_lt_of_le (h.started_lt i r hi c hold) hw.size_le
        · exact hlt
      · exact Nat.lt_of_lt_of_le (h.started_lt j x hx c hc) hw.size_le
    started_inj := by
      refine forall_member?_replace hi ?_ fun j x hj hx => ?_
      · refine forall_member?_replace hi (fun _ _ _ => rfl) fun k y hk hy c hc hc' => ?_
        exact absurd hc' (hother k y hk hy c hc)
      · refine forall_member?_replace hi (fun c hc hc' => ?_) fun k y _ hy => ?_
        · exact absurd hc (hother j x hj hx c hc')
        · exact h.started_inj j x hx k y hy
    mem_copiesTo := fun c => by
      refine (hcopies c).trans ⟨?_, ?_⟩
      · rintro (hc | ⟨j, x, hj, hx, hc⟩)
        · exact ⟨i, r', by rw [member?_replace hi, if_pos rfl], hc⟩
        · exact ⟨j, x, by rw [member?_replace hi, if_neg hj, hx], hc⟩
      · rintro ⟨j, x, hx, hc⟩
        rw [member?_replace hi] at hx
        split at hx
        · cases hx
          exact .inl hc
        · rename_i hj
          exact .inr ⟨j, x, hj, hx, hc⟩
    length_le := hlength
    listed_lt := by
      refine forall_member?_replace hi (fun c hc => ?_) fun j x _ hx c hc => ?_
      · exact Nat.lt_of_lt_of_le (hlisted_lt c hc) hw.size_le
      · exact Nat.lt_of_lt_of_le (h.listed_lt j x hx c hc) hw.size_le
    listed := by
      refine forall_member?_replace hi (fun c hc => ?_) fun j x _ hx c hc => ?_
      · refine hstill c (hlisted_lt c hc) ?_
        exact (hlisted c hc).elim (h.listed i r hi c) .inl
      · exact hstill c (h.listed_lt j x hx c hc) (h.listed j x hx c hc) }

/-- **A move that leaves the copies alone keeps the invariant.** -/
theorem replace_of_sameCopies (hw : s.world.SameCopies w) (hserves : r'.Serves item node)
    (hcoherent : r'.IsCoherent) (hstarted : r'.started = r.started)
    (hholding : r'.holding = r.holding)
    (hlisted : ∀ c ∈ r'.listed, c ∈ r.listed ∨ c ∈ s.world.copiesTo item node) :
    Invariant item node (s.replace w i r') := by
  have hcopies := hw.copiesTo_eq item node
  refine h.replace hi hw.later hserves hcoherent (fun c hc => ?_) (fun c => ?_) ?_ (fun c hc => ?_)
    hlisted
  · rw [hstarted] at hc
    exact .inl hc
  · rw [hcopies, h.mem_copiesTo_iff hi, hholding]
  · rw [hcopies]
    exact h.length_le
  · rw [hcopies]
    exact .inl hc

/-- **Registering a copy keeps the invariant** when there is none in progress. -/
theorem replace_of_starts (hw : World.Later item s.world w) (hserves : r'.Serves item node)
    (hcoherent : r'.IsCoherent) (free : s.world.copiesTo item node = [])
    (hcopies : w.copiesTo item node = [s.world.copies.size])
    (hsize : w.copies.size = s.world.copies.size + 1)
    (hstarted : r'.started = some s.world.copies.size)
    (hholding : r'.holding = some s.world.copies.size) (hlisted : r'.listed = []) :
    Invariant item node (s.replace w i r') := by
  have hnone : ∀ j x, s.member? j = some x → ∀ c, x.holding ≠ some c := by
    intro j x hx c hc
    have := (h.mem_copiesTo c).2 ⟨j, x, hx, hc⟩
    rw [free] at this
    cases this
  refine h.replace hi hw hserves hcoherent (fun c hc => ?_) (fun c => ?_) ?_ (fun c hc => ?_)
    fun c hc => ?_
  · rw [hstarted] at hc
    cases hc
    rw [hsize]
    exact .inr ⟨Nat.le_refl _, Nat.lt_succ_self _⟩
  · rw [hcopies, List.mem_singleton, hholding, Option.some.injEq, eq_comm]
    refine ⟨.inl, ?_⟩
    rintro (hc | ⟨j, x, -, hx, hc⟩)
    · exact hc
    · exact absurd hc (hnone j x hx c)
  · exact Nat.le_of_eq (congrArg List.length hcopies)
  · rw [free] at hc
    cases hc
  · rw [hlisted] at hc
    cases hc

/-- **Giving up a copy keeps the invariant**, be it by finishing it or by taking it off. -/
theorem replace_of_ends {copy : CopyId} (hw : World.Later item s.world w)
    (hserves : r'.Serves item node) (hcoherent : r'.IsCoherent)
    (hcopies : w.copiesTo item node = (s.world.copiesTo item node).filter fun c => c != copy)
    (hown : r.started = some copy) (hstarted : r'.started = r.started)
    (hholding : r'.holding = none) (hlisted : r'.listed = [])
    (hfinished : copy ∈ s.world.copiesTo item node → (w.copies.get copy).isFinished) :
    Invariant item node (s.replace w i r') := by
  refine h.replace hi hw hserves hcoherent (fun c hc => ?_) (fun c => ?_) ?_ (fun c hc => ?_)
    fun c hc => ?_
  · rw [hstarted] at hc
    exact .inl hc
  · rw [hcopies, List.mem_filter, h.mem_copiesTo_iff hi, bne_iff_ne, hholding]
    constructor
    · rintro ⟨hc | hc, hne⟩
      · rw [Resolution.started_eq_of_holding hc] at hown
        exact absurd (Option.some.inj hown) hne
      · exact .inr hc
    · rintro (hc | ⟨j, x, hj, hx, hc⟩)
      · cases hc
      · refine ⟨.inr ⟨j, x, hj, hx, hc⟩, ?_⟩
        rintro rfl
        exact hj (h.started_inj j x hx i r hi c (Resolution.started_eq_of_holding hc) hown)
  · rw [hcopies]
    exact Nat.le_trans (List.length_filter_le _ _) h.length_le
  · rw [hcopies, List.mem_filter, bne_iff_ne]
    by_cases hne : c = copy
    · subst hne
      exact .inr (hfinished hc)
    · exact .inl ⟨hc, hne⟩
  · rw [hlisted] at hc
    cases hc

/-- A copy that is in progress has not been given up by the one that started it. -/
theorem holding_of_mem_copiesTo {c : CopyId} (hown : r.started = some c)
    (hc : c ∈ s.world.copiesTo item node) : r.holding = some c := by
  obtain ⟨j, x, hx, hholding⟩ := (h.mem_copiesTo c).1 hc
  have hj := h.started_inj j x hx i r hi c (Resolution.started_eq_of_holding hholding) hown
  rw [hj, hi] at hx
  cases hx
  exact hholding

theorem advance (hstep : r.step s.world = .advance w r') :
    Invariant item node (s.replace w i r') := by
  have hcoherent := h.isCoherent i r hi
  have hserves := h.serves i r hi
  have he := Resolution.effect_step hstep
  have hserves' := hserves.effect he
  have hcoherent' := he.isCoherent hcoherent
  obtain ⟨hnode, hitem, -⟩ := hserves
  cases he with
  | quiet same next =>
    refine h.replace_of_sameCopies hi same hserves' hcoherent' rfl next.holding_eq fun c hc => ?_
    have := next.mem_listed hc
    rwa [hnode, hitem] at this
  | starts enlists free =>
    subst hnode hitem
    have hcopies := World.copiesTo_joinOrStart h.knows free hserves'.mem_hosts
    exact h.replace_of_starts hi (World.later_joinOrStart free) hserves' hcoherent' free hcopies
      (World.size_joinOrStart free) rfl rfl rfl
  | completes completing own =>
    refine h.replace_of_ends hi World.later_complete hserves' hcoherent' World.copiesTo_complete own
      rfl rfl rfl fun _ => ?_
    rw [World.isFinished_complete, decide_eq_true rfl]
    rfl
  | @withdraws copy outcome withdrawing =>
    have hown := hcoherent.started_of_withdrawing withdrawing
    have hnone : r.holding = none := by
      rw [Resolution.holding, withdrawing]
      rfl
    subst hitem
    refine h.replace_of_ends hi (World.later_removeCopy _) hserves' hcoherent'
      World.copiesTo_removeCopy hown rfl rfl rfl fun hc => ?_
    rw [h.holding_of_mem_copiesTo hi hown hc] at hnone
    cases hnone

/-- A call or a reply takes a resolution to another phase, and changes nothing else. -/
theorem replace_inPhase {phase : Phase} (hsuits : r.phase.Suits r.started → phase.Suits r.started)
    (hholding : phase.holding r.started = r.phase.holding r.started) (hlisted : phase.listed = []) :
    Invariant item node (s.replace s.world i (r.inPhase phase)) := by
  have hserves := h.serves i r hi
  have hcoherent := h.isCoherent i r hi
  refine h.replace_of_sameCopies hi (.refl _) (hserves.of_eq rfl rfl) (hsuits hcoherent) rfl
    hholding fun c hc => ?_
  rw [Resolution.listed, Resolution.inPhase, hlisted] at hc
  cases hc

end Replace

omit h

/-- **Every step keeps the invariant.** -/
theorem step (h : Invariant item node s) (hs : Step item node s s') : Invariant item node s' := by
  cases hs with
  | elsewhere hw => exact h.elsewhere hw
  | joins serves => exact h.join serves
  | advances member hstep => exact h.advance member hstep
  | @calls i r r' peer q member hstep =>
    have hcall := r.canMake_step s.world
    rw [hstep] at hcall
    obtain ⟨route, hphase, -, rfl⟩ := hcall
    exact h.replace_inPhase member (by rw [hphase]; exact id) (by rw [hphase]; rfl) rfl
  | @replies i r member reply =>
    unfold Resolution.answer
    split
    · rename_i route hphase
      exact h.replace_inPhase member (by rw [hphase]; exact id) (by rw [hphase]; rfl) rfl
    · exact h.replace_of_sameCopies member (.refl _) (h.serves i r member) (h.isCoherent i r member)
        rfl rfl fun _ => .inl

/-- **Runs keep the invariant.** -/
theorem run (h : Invariant item node s) (hs : Run item node s s') : Invariant item node s' := by
  induction hs with
  | refl => exact h
  | tail _ hstep ih => exact ih.step hstep

end Invariant

/-! ## Waiting for the outcome -/

namespace Step

/-- What a step does to one resolution: nothing, or its own move. -/
theorem member?_cases (hs : Step item node s s') (hi : s.member? i = some r) :
    s'.member? i = some r ∨
    (∃ w r', r.step s.world = .advance w r' ∧ s'.member? i = some r' ∧ s'.world = w) ∨
    (∃ peer q r', r.step s.world = .call peer q r' ∧ s'.member? i = some r') ∨
    ∃ reply, s'.member? i = some (r.answer reply) := by
  have hreplace : ∀ {j x w x'}, s.member? j = some x → j ≠ i →
      (s.replace w j x').member? i = some r := by
    intro j x w x' hj hne
    rw [member?_replace hj, if_neg (Ne.symm hne), hi]
  cases hs with
  | elsewhere _ => exact .inl hi
  | joins _ =>
    have hlt := (List.getElem?_eq_some_iff.1 hi).1
    left
    rw [member?_join, if_neg (Nat.ne_of_lt hlt), hi]
  | @advances j x x' w member hstep =>
    by_cases hj : j = i
    · subst hj
      rw [hi] at member
      cases member
      exact .inr (.inl ⟨w, x', hstep, by rw [member?_replace hi, if_pos rfl], rfl⟩)
    · exact .inl (hreplace member hj)
  | @calls j x x' peer q member hstep =>
    by_cases hj : j = i
    · subst hj
      rw [hi] at member
      cases member
      exact .inr (.inr (.inl ⟨peer, q, x', hstep, by rw [member?_replace hi, if_pos rfl]⟩))
    · exact .inl (hreplace member hj)
  | @replies j x member reply =>
    by_cases hj : j = i
    · subst hj
      rw [hi] at member
      cases member
      exact .inr (.inr (.inr ⟨reply, by rw [member?_replace hi, if_pos rfl]⟩))
    · exact .inl (hreplace member hj)

theorem later (hs : Step item node s s') : World.Later item s.world s'.world := by
  cases hs with
  | elsewhere hw => exact hw.toLater
  | joins _ => exact (World.SameCopies.refl _).later
  | advances _ hstep => exact World.later_effect (Resolution.effect_step hstep)
  | calls _ _ => exact (World.SameCopies.refl _).later
  | replies _ _ => exact (World.SameCopies.refl _).later

/-- A resolution that has its outcome keeps it. -/
theorem verdict? (hs : Step item node s s') (hi : s.member? i = some r) :
    ∃ r', s'.member? i = some r' ∧ ∀ outcome, r.verdict? = some outcome →
      r'.verdict? = some outcome := by
  rcases hs.member?_cases hi with
    hsame | ⟨w, r', hstep, hr', -⟩ | ⟨_, _, r', hstep, hr'⟩ | ⟨reply, hr'⟩
  · exact ⟨r, hsame, fun _ => id⟩
  · refine ⟨r', hr', fun outcome hv => ?_⟩
    rcases Resolution.step_of_verdict (w := s.world) hv with hf | ⟨_, _, hadv, hv', -⟩
    · rw [hf] at hstep
      cases hstep
    · rw [hadv] at hstep
      cases hstep
      exact hv'
  · refine ⟨r', hr', fun outcome hv => ?_⟩
    rcases Resolution.step_of_verdict (w := s.world) hv with hf | ⟨_, _, hadv, -⟩
    · rw [hf] at hstep
      cases hstep
    · rw [hadv] at hstep
      cases hstep
  · exact ⟨_, hr', fun outcome hv => by rw [Resolution.answer_of_verdict hv, hv]⟩

/-- A resolution that waits for a copy goes on waiting, or takes over its outcome. -/
theorem awaits (hs : Step item node s s') (hi : s.member? i = some r) {c : CopyId}
    (ha : r.awaits = some c) :
    s'.member? i = some r ∨ ∃ outcome r', (s.world.copies.get c).outcome = some outcome ∧
      s'.member? i = some r' ∧ r.TakesOver s.world s'.world outcome r'.verdict? := by
  rcases hs.member?_cases hi with
    hsame | ⟨w, r', hstep, hr', rfl⟩ | ⟨_, _, r', hstep, hr'⟩ | ⟨reply, hr'⟩
  · exact .inl hsame
  · cases ho : (s.world.copies.get c).outcome with
    | none =>
      rw [Resolution.step_of_awaits_of_eq_none ha ho] at hstep
      cases hstep
    | some outcome =>
      obtain ⟨w, x, hadv, htakes⟩ := Resolution.takesOver_step ha ho
      rw [hadv] at hstep
      cases hstep
      exact .inr ⟨outcome, r', rfl, hr', htakes⟩
  · cases ho : (s.world.copies.get c).outcome with
    | none =>
      rw [Resolution.step_of_awaits_of_eq_none ha ho] at hstep
      cases hstep
    | some outcome =>
      obtain ⟨w, x, hadv, -⟩ := Resolution.takesOver_step ha ho
      rw [hadv] at hstep
      cases hstep
  · rw [Resolution.answer_of_awaits ha] at hr'
    exact .inl hr'

end Step

namespace Run

/-- A copy that is through keeps its outcome. -/
theorem later (hs : Run item node s s') : World.Later item s.world s'.world := by
  induction hs with
  | refl => exact (World.SameCopies.refl _).later
  | tail _ hstep ih => exact ih.trans hstep.later

/-- **A resolution that waits for a copy takes over its outcome**, as the world is then. -/
theorem awaits (hs : Run item node s s') (hi : s.member? i = some r) {c : CopyId}
    (ha : r.awaits = some c) :
    s'.member? i = some r ∨ ∃ s₁ s₂ outcome r', Run item node s s₁ ∧ Step item node s₁ s₂ ∧
      Run item node s₂ s' ∧ (s₁.world.copies.get c).outcome = some outcome ∧
      s'.member? i = some r' ∧ r.TakesOver s₁.world s₂.world outcome r'.verdict? := by
  induction hs with
  | refl => exact .inl hi
  | @tail s₁ s₂ hrun hstep ih =>
    rcases ih with hsame | ⟨t₁, t₂, outcome, x, hrun₁, hstep₁, hrun₂, ho, hx, htakes⟩
    · rcases hstep.awaits hsame ha with hsame' | ⟨outcome, x, ho, hx, htakes⟩
      · exact .inl hsame'
      · exact .inr ⟨s₁, s₂, outcome, x, hrun, hstep, .refl, ho, hx, htakes⟩
    · obtain ⟨y, hy, hv⟩ := hstep.verdict? hx
      exact .inr ⟨t₁, t₂, outcome, y, hrun₁, hstep₁, hrun₂.tail hstep, ho, hy, htakes.mono hv⟩

end Run

/-- A resolution takes its turn, if it can go on by itself. -/
def turn (s : Siblings) (i : Nat) : Siblings :=
  match s.member? i with
  | some r =>
    match r.step s.world with
    | .advance w r' => s.replace w i r'
    | _ => s
  | none => s

theorem run_turn (s : Siblings) (i : Nat) : Run item node s (s.turn i) := by
  unfold turn
  split
  · rename_i r hr
    split
    · rename_i hstep
      exact .single (.advances hr hstep)
    · exact .refl
  · exact .refl

/-- Any order of turns is a run. -/
theorem run_turns (s : Siblings) (turns : List Nat) : Run item node s (turns.foldl turn s) := by
  induction turns generalizing s with
  | nil => exact .refl
  | cons i rest ih => exact (run_turn s i).trans (ih (s.turn i))

/-- A resolution that is about to call a node calls it and gets the reply. -/
def exchange (s : Siblings) (i : Nat) (reply : Reply) : Siblings :=
  match s.member? i with
  | some r =>
    match r.step s.world with
    | .call _ _ r' => s.replace s.world i (r'.answer reply)
    | _ => s
  | none => s

theorem run_exchange (s : Siblings) (i : Nat) (reply : Reply) :
    Run item node s (s.exchange i reply) := by
  unfold exchange
  split
  · rename_i r hr
    split
    · rename_i r' hstep
      have hmember : (s.replace s.world i r').member? i = some r' := by
        rw [member?_replace hr, if_pos rfl]
      have htwice : s.replace s.world i (r'.answer reply) =
          (s.replace s.world i r').replace s.world i (r'.answer reply) := by
        rw [replace, replace, replace, List.set_set]
      rw [htwice]
      exact .tail (.single (.calls hr hstep)) (.replies hmember reply)
    · exact .refl
  · exact .refl

/-- **There is one transfer at a time.** Nothing is assumed of the world at the beginning but that
the item is not on its way to the node; from then on the resolutions take turns as they like.

At every moment at most one copy to the node is in progress. Only the resolution that started it
calls nodes, so there are no two of them. Those that wait for a copy wait for one that is through,
or that is in the hands of a resolution that waits for none itself; they end like the copy, with its
error, or with its file copied to their own target if that is possible. -/
theorem one_transfer {w : World} (known : w.Knows item) (free : w.copiesTo item node = [])
    (run : Run item node (opening w) s) :
    (s.world.copiesTo item node).length ≤ 1 ∧
    (∀ i r, s.member? i = some r → r.IsCalling s.world →
      ∃ c, r.started = some c ∧ s.world.copiesTo item node = [c]) ∧
    (∀ i r j r', s.member? i = some r → s.member? j = some r' → r.IsCalling s.world →
      r'.IsCalling s.world → i = j) ∧
    (∀ i r c, s.member? i = some r → r.awaits = some c →
      (∃ w r', r.step s.world = .advance w r') ∨
      ∃ j r', s.member? j = some r' ∧ r'.holding = some c ∧ r'.awaits = none) ∧
    (∀ i r c, s.member? i = some r → r.awaits = some c → ∀ s', Run item node s s' →
      s'.member? i = some r ∨ ∃ s₁ s₂ outcome r', Run item node s s₁ ∧ Step item node s₁ s₂ ∧
        Run item node s₂ s' ∧ (s₁.world.copies.get c).outcome = some outcome ∧
        (s'.world.copies.get c).outcome = some outcome ∧ s'.member? i = some r' ∧
        r.TakesOver s₁.world s₂.world outcome r'.verdict?) ∧
    ∀ i r outcome, s.member? i = some r → r.verdict? = some outcome →
      r.step s.world = .finish outcome ∨ ∃ w r', r.step s.world = .advance w r' ∧
        r'.verdict? = some outcome ∧ r'.phase.remaining < r.phase.remaining := by
  have h : Invariant item node s := (invariant_opening known free).run run
  have hcalling : ∀ i r, s.member? i = some r → r.IsCalling s.world →
      ∃ c, r.started = some c ∧ s.world.copiesTo item node = [c] := by
    intro i r hr hcall
    obtain ⟨c, hc⟩ := Resolution.holding_of_isCalling (h.isCoherent i r hr) hcall
    have hmem := (h.mem_copiesTo c).2 ⟨i, r, hr, hc⟩
    refine ⟨c, Resolution.started_eq_of_holding hc, ?_⟩
    obtain ⟨d, hd⟩ := List.length_eq_one_iff.1
      (Nat.le_antisymm h.length_le (List.length_pos_of_mem hmem))
    rw [hd] at hmem
    rw [hd, List.mem_singleton.1 hmem]
  refine ⟨h.length_le, hcalling, fun i r j r' hr hr' hcall hcall' => ?_, fun i r c hr ha => ?_,
    fun i r c hr ha s' hrun => ?_, fun i r outcome _ hv => Resolution.step_of_verdict hv⟩
  · obtain ⟨c, hc, hone⟩ := hcalling i r hr hcall
    obtain ⟨d, hd, hone'⟩ := hcalling j r' hr' hcall'
    rw [hone] at hone'
    cases hone'
    exact h.started_inj i r hr j r' hr' c hc hd
  · have hlisted : c ∈ r.listed := List.mem_of_mem_head? ha
    rcases h.listed i r hr c hlisted with hc | hf
    · obtain ⟨j, r', hr', hholding⟩ := (h.mem_copiesTo c).1 hc
      exact .inr ⟨j, r', hr', hholding, (h.isCoherent j r' hr').awaits_eq_none hholding⟩
    · obtain ⟨outcome, ho⟩ := Option.isSome_iff_exists.1 hf
      obtain ⟨w, r', hadv, -⟩ := Resolution.takesOver_step ha ho
      exact .inl ⟨w, r', hadv⟩
  · have hlt : c < s.world.copies.size := h.listed_lt i r hr c (List.mem_of_mem_head? ha)
    rcases hrun.awaits hr ha with hsame | ⟨s₁, s₂, outcome, r', hrun₁, hstep, hrun₂, ho, hr', ht⟩
    · exact .inl hsame
    · have hlate := (hstep.later.trans hrun₂.later).outcome_eq c
        (Nat.lt_of_lt_of_le hlt hrun₁.later.size_le) outcome ho
      exact .inr ⟨s₁, s₂, outcome, r', hrun₁, hstep, hrun₂, ho, hlate, hr', ht⟩

/-- Of two resolutions the first gets as far as calling a node, and the second waits for it. The
node writes the file of the first one and replies. Both go on, and the second one ends with that
file at its own target. -/
theorem one_transfer_two_members :
    let item : Item := { Item.named "x" with locations := [.file [⟨2, ⟨"n2/x"⟩⟩]] }
    let world : World :=
      { World.empty with
        items := Cells.empty.push item
        directory := Directory.empty.register (.foreign ⟨2, "peer", 0⟩) }
    let request (path : String) : Request := ⟨0, none, .file [⟨1, ⟨path⟩⟩], none, none⟩
    let node : LocalNode := ⟨1, "n1", ⟨"n1"⟩, .authoritative⟩
    let s := [0, 0, 0, 0, 0, 0, 0, 0, 0, 0, 1, 1, 1].foldl turn
      (((opening world).join (.start node (request "a"))).join (.start node (request "b")))
    let files := s.world.files.put ["tmp", "work", "a"] (.file [120])
    let outcome : Outcome := .ok (.path ⟨"a"⟩)
    let s' := [0, 0, 0, 0, 1, 1, 1].foldl turn
      (exchange { s with world := { s.world with files := files } } 0 (.notified outcome))
    Run 0 1 (opening world) s ∧ (∃ r, s.member? 0 = some r ∧ r.IsCalling s.world) ∧
      (s.member? 1).map Resolution.awaits = some (some 0) ∧ s.world.copiesTo 0 1 = [0] ∧
      Run 0 1 s s' ∧ (s'.world.copies.get 0).outcome = some outcome ∧
      (∃ s₁ s₂ r r', Run 0 1 s s₁ ∧ Step 0 1 s₁ s₂ ∧ Run 0 1 s₂ s' ∧
        (s₁.world.copies.get 0).outcome = some outcome ∧ s.member? 1 = some r ∧
        s'.member? 1 = some r' ∧ r.TakesOver s₁.world s₂.world outcome r'.verdict? ∧
        r'.step s'.world = .finish (.ok (.path ⟨"b"⟩))) := by
  intro item world request node s files outcome s'
  have run : Run 0 1 (opening world) s :=
    ((Relation.ReflTransGen.single (.joins ⟨rfl, rfl, _, rfl⟩)).tail
      (.joins ⟨rfl, rfl, _, rfl⟩)).trans (run_turns _ _)
  have known : world.Knows 0 := fun c hc => by cases hc
  obtain ⟨-, one, -, -, waits, -⟩ := one_transfer known rfl run
  have first : (s.member? 0).any fun r => decide (r.IsCalling s.world) && r.started == some 0 := by
    decide +kernel
  have second : (s.member? 1).map Resolution.awaits = some (some 0) := by decide +kernel
  obtain ⟨r, hr, hfirst⟩ := (Option.any_eq_true _ _).1 first
  rw [Bool.and_eq_true, decide_eq_true_eq, beq_iff_eq] at hfirst
  obtain ⟨c, started, copies⟩ := one 0 r hr hfirst.1
  rw [hfirst.2] at started
  cases started
  have rest : Run 0 1 s s' :=
    (Relation.ReflTransGen.single (.elsewhere (.of_sameCopies (.files _ files)))).trans
      ((run_exchange _ 0 _).trans (run_turns _ _))
  have ended : (s'.world.copies.get 0).outcome = some outcome := by decide +kernel
  have last : (s'.member? 1).any fun r => decide (r.verdict? = some (.ok (.path ⟨"b"⟩))) &&
      r.phase.remaining == 0 && r.awaits == none := by
    decide +kernel
  clear_value s'
  obtain ⟨waiting, hwaiting, awaits⟩ := Option.map_eq_some_iff.1 second
  obtain ⟨r', hr', hlast⟩ := (Option.any_eq_true _ _).1 last
  rw [Bool.and_eq_true, Bool.and_eq_true, decide_eq_true_eq, beq_iff_eq, beq_iff_eq] at hlast
  obtain ⟨⟨verdict, remaining⟩, hnone⟩ := hlast
  have taken : ∃ s₁ s₂ r r', Run 0 1 s s₁ ∧ Step 0 1 s₁ s₂ ∧ Run 0 1 s₂ s' ∧
      (s₁.world.copies.get 0).outcome = some outcome ∧ s.member? 1 = some r ∧
      s'.member? 1 = some r' ∧ r.TakesOver s₁.world s₂.world outcome r'.verdict? ∧
      r'.step s'.world = .finish (.ok (.path ⟨"b"⟩)) := by
    rcases waits 1 waiting 0 hwaiting awaits s' rest with
      hsame | ⟨s₁, s₂, outcome', x, run₁, step, run₂, ho, ho', hx, takes⟩
    · rw [hr'] at hsame
      cases hsame
      rw [awaits] at hnone
      cases hnone
    · rw [ended] at ho'
      cases ho'
      rw [hr'] at hx
      cases hx
      obtain ⟨-, -, -, -, -, ends⟩ := one_transfer known rfl (run.trans rest)
      refine ⟨s₁, s₂, waiting, r', run₁, step, run₂, ho, hwaiting, hr', takes, ?_⟩
      rcases ends 1 r' _ hr' verdict with hfinish | ⟨_, _, _, _, hless⟩
      · exact hfinish
      · rw [remaining] at hless
        cases hless
  exact ⟨run, ⟨r, hr, hfirst.1⟩, second, copies, rest, ended, taken⟩

end Siblings

end Wharf
