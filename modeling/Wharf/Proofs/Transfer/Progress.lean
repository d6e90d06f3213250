import Mathlib.Data.Set.Card
import Wharf.Proofs.Transfer.Enlisting

/-!
# Joining makes progress

The turns in which a resolution joins a copy or registers one of its own have no counter, and others
may register new copies all the time.

* `Timeline.IsTurn` says when a turn begins, `Timeline.Misses` when a copy that was waited for could
  not be brought to the target. All turns but the first come right after that
  (`Timeline.exists_misses`).
* `Timeline.ofOthers` are the copies to the node that others have registered. All copies that are
  waited for are among them (`Timeline.mem_ofOthers`), so there is at most one turn more
  (`Timeline.encard_turns_le`).
* As long as each wait ends, turns would be followed by other turns for ever
  (`Timeline.infinite_turns`). So the loop is left (`Timeline.exists_leaves`), and just in that case
  (`Timeline.Leaves.exists_isFinished`).
* `Timeline.Registers` says when the resolution registers a copy itself, which it does at most once
  (`Timeline.Registers.iff`), and not at all when the last turn leads to an outcome
  (`Timeline.outcome_or_registers`).
* `Timeline.makes_progress` puts this together. A wait need not end: nodes may wait for each other in
  a circle (`Timeline.never_leaves_three_nodes`).
-/

namespace Wharf

namespace Timeline

variable {n : LocalNode} {q : Request} (t : Timeline n q) {i j k l : Nat} {c d : CopyId}

/-- A turn begins. -/
def IsTurn (k : Nat) : Prop := (t.resolution k).LooksAgain

/-- The copy that the resolution waits for is finished. It has brought the item to a file, and that
cannot be copied to the requested target. -/
def Misses (k : Nat) (c : CopyId) : Prop :=
  t.awaits k = some c ∧ ∃ delivered path e,
    ((t.world k).copies.get c).outcome = some (.ok (.path delivered)) ∧
    q.target.pathIn n.id = some path ∧ (t.world k).copyFile delivered path = .error e

/-- The resolution registers a copy. -/
def Registers (k : Nat) (c : CopyId) : Prop :=
  c ∉ ((t.world k).items.get q.item).copies ∧ c ∈ ((t.moved k).items.get q.item).copies

/-- The loop of the turns is left for good. There is an outcome, and the resolution never registers a
copy, or it registers the only one that it ever does. -/
structure Leaves (k : Nat) : Prop where
  isEnlisting : (t.resolution k).phase.IsEnlisting
  not_isEnlisting : ∀ l, k < l → ¬ (t.resolution l).phase.IsEnlisting
  ends : (∃ outcome, (t.resolution (k + 1)).verdict? = some outcome) ∧ (∀ l c, ¬ t.Registers l c) ∨
    ∃ c, ∀ l d, t.Registers l d ↔ l = k ∧ d = c

/-- The copies of the item to the node that others have registered at some time. -/
def ofOthers : Set CopyId :=
  {c | (∃ k, c ∈ (t.world k).registeredTo q.item n.id) ∧ ∀ k, ¬ t.Registers k c}

variable {t}

theorem IsTurn.isEnlisting (h : t.IsTurn k) : (t.resolution k).phase.IsEnlisting := by
  obtain ⟨peer, route, hphase⟩ := h
  rw [hphase]
  trivial

theorem IsTurn.awaits_eq (h : t.IsTurn k) : t.awaits k = none := by
  obtain ⟨peer, route, hphase⟩ := h
  rw [awaits, Resolution.awaits, Resolution.listed, hphase]
  rfl

theorem Misses.isSpent (h : t.Misses k c) : t.IsSpent c (k + 1) := by
  obtain ⟨hc, delivered, path, e, ho, -⟩ := h
  exact isSpent_of_isFinished hc (by rw [Copy.isFinished, ho]; rfl)

/-- **Each copy is missed once.** -/
theorem Misses.eq (hi : t.Misses i c) (hj : t.Misses j c) : i = j := by
  rcases Nat.lt_trichotomy i j with hlt | heq | hlt
  · exact absurd hj.1 (hi.isSpent.later hlt).awaits_ne
  · exact heq
  · exact absurd hi.1 (hj.isSpent.later hlt).awaits_ne

/-! ### The copy of one's own -/

theorem started_succ (h : (t.resolution k).started = some c) :
    (t.resolution (k + 1)).started = some c := by
  rcases (t.goes k).started_cases (t.fits k).isCoherent with ⟨hsame, -⟩ | ⟨hnone, -⟩
  · rw [hsame, h]
  · rw [hnone] at h
    cases h

/-- A copy of one's own is kept in mind. -/
theorem started_of_le (h : (t.resolution j).started = some c) (hk : j ≤ k) :
    (t.resolution k).started = some c := by
  induction k, hk using Nat.le_induction with
  | base => exact h
  | succ k _ ih => exact started_succ ih

theorem started_eq_none_of_le (h : (t.resolution k).started = none) (hj : j ≤ k) :
    (t.resolution j).started = none := by
  cases hs : (t.resolution j).started with
  | none => rfl
  | some c =>
    rw [started_of_le hs hj] at h
    cases h

theorem Registers.starts (h : t.Registers k c) :
    c = (t.world k).copies.size ∧ (t.resolution k).started = none ∧
      (t.resolution (k + 1)).started = some c := by
  obtain ⟨hnot, hmem⟩ := h
  have hfits := t.fits k
  rcases (t.goes k).started_cases hfits.isCoherent with
    ⟨-, hsub⟩ | ⟨hnone, hsome, hcopies⟩
  · exact absurd (hsub q.item hmem) hnot
  · rw [hfits.request_eq] at hcopies
    rw [hcopies, List.mem_append, List.mem_singleton] at hmem
    rcases hmem with hmem | rfl
    · exact absurd hmem hnot
    · exact ⟨rfl, hnone, hsome⟩

theorem registers_of_started (hk : (t.resolution k).started = none)
    (hc : (t.resolution (k + 1)).started = some c) : t.Registers k c := by
  have hfits := t.fits k
  rcases (t.goes k).started_cases hfits.isCoherent with
    ⟨hsame, -⟩ | ⟨-, hsome, hcopies⟩
  · rw [hsame, hk] at hc
    cases hc
  · rw [hsome] at hc
    cases hc
    rw [hfits.request_eq] at hcopies
    refine ⟨fun hmem => Nat.lt_irrefl _ (hfits.isProper.knows _ hmem), ?_⟩
    rw [hcopies]
    exact List.mem_append_right _ List.mem_cons_self

/-- **At most one copy is registered.** -/
theorem Registers.iff (h : t.Registers k c) :
    t.Registers l d ↔ l = k ∧ d = c := by
  obtain ⟨-, hbefore, hafter⟩ := h.starts
  constructor
  · intro hl
    obtain ⟨-, hnone, hsome⟩ := hl.starts
    rcases Nat.lt_trichotomy l k with hlt | rfl | hlt
    · rw [started_of_le hsome hlt] at hbefore
      cases hbefore
    · rw [hsome] at hafter
      exact ⟨rfl, Option.some.inj hafter⟩
    · rw [started_of_le hafter hlt] at hnone
      cases hnone
  · rintro ⟨rfl, rfl⟩
    exact h

/-- **Only copies of others are waited for**, and only those to the node. -/
theorem mem_ofOthers (h : c ∈ (t.resolution k).listed) : c ∈ t.ofOthers := by
  constructor
  · induction k with
    | zero =>
      rw [t.starts] at h
      cases h
    | succ k ih =>
      have hfits := t.fits k
      rcases (t.goes k).mem_listed h with hold | hnew
      · exact ih hold
      · rw [hfits.request_eq, hfits.node_eq] at hnew
        exact ⟨k, (World.mem_copiesTo.1 hnew).1⟩
  · intro l hl
    obtain ⟨rfl, hnone, hsome⟩ := hl.starts
    have hstarted := (t.fits k).isCoherent.started_eq_none h
    have hlt := (t.fits k).listed_lt _ h
    -- A copy that is registered before is one's own by now, one that is registered later is new.
    rcases Nat.lt_or_ge l k with hlk | hkl
    · rw [started_of_le hsome hlk] at hstarted
      cases hstarted
    · exact absurd (t.onward hkl).size_le (Nat.not_le.2 hlt)

theorem lt_of_mem_ofOthers {size : Nat} (h : ∀ l, k ≤ l → (t.world l).copies.size ≤ size)
    (hc : c ∈ t.ofOthers) : c < size := by
  obtain ⟨⟨j, hj⟩, -⟩ := hc
  calc c < (t.world j).copies.size := (t.fits j).isProper.knows c (List.mem_filter.1 hj).1
    _ ≤ (t.world (max j k)).copies.size := (t.onward (le_max_left j k)).size_le
    _ ≤ size := h _ (le_max_right j k)

/-! ### One turn after the other -/

theorem isThrough_of_le (h : (t.resolution j).IsThrough) (hk : j ≤ k) :
    (t.resolution k).IsThrough := by
  induction k, hk using Nat.le_induction with
  | base => exact h
  | succ k _ ih => exact (t.goes k).isThrough (t.fits k).isCoherent ih

theorem not_isTurn_of_isThrough (h : (t.resolution j).IsThrough) (hk : j ≤ k) : ¬ t.IsTurn k :=
  fun hturn => (isThrough_of_le h hk).not_isEnlisting (t.fits k).isCoherent hturn.isEnlisting

theorem awaits_eq_none_of_isThrough (h : (t.resolution j).IsThrough) (hk : j ≤ k) :
    t.awaits k = none :=
  (isThrough_of_le h hk).awaits_eq_none (t.fits k).isCoherent

/-- With the first turn the resolution is in the loop, and it stays there until it is through. -/
theorem isEnlisting_or_isThrough (h : t.IsTurn j) (hk : j ≤ k) :
    (t.resolution k).phase.IsEnlisting ∨ (t.resolution k).IsThrough := by
  induction k, hk using Nat.le_induction with
  | base => exact .inl h.isEnlisting
  | succ k _ ih =>
    rcases ih with henlists | hthrough
    · have hpart := (t.goes k).part henlists
      generalize t.resolution (k + 1) = r at hpart
      cases hpart with
      | looks _ | joins _ | misses _ => exact .inl trivial
      | waits _ => exact .inl henlists
      | starts _ => exact .inr (.inr rfl)
      | settles _ => exact .inr (.inl rfl)
    · exact .inr ((t.goes k).isThrough (t.fits k).isCoherent hthrough)

theorem misses_of_isTurn (h : (t.resolution k).phase.IsEnlisting) (hturn : t.IsTurn (k + 1)) :
    ∃ c, t.Misses k c := by
  obtain ⟨peer, route, hphase⟩ := hturn
  obtain ⟨c, delivered, path, e, hc, ho, htarget, herror⟩ := (t.goes k).gives_up h hphase
  have hfits := t.fits k
  rw [Resolution.localTarget, hfits.request_eq, hfits.node_eq] at htarget
  exact ⟨c, hc, delivered, path, e, ho, htarget, herror⟩

/-- **All turns but the first begin when a copy has been missed.** -/
theorem exists_misses (hj : t.IsTurn j) (hk : t.IsTurn k) (hjk : j < k) :
    ∃ i c, j < i ∧ i + 1 = k ∧ t.Misses i c := by
  obtain ⟨i, rfl⟩ := Nat.exists_eq_add_one_of_ne_zero (Nat.ne_zero_of_lt hjk)
  have hji : j ≤ i := Nat.le_of_lt_succ hjk
  rcases isEnlisting_or_isThrough hj hji with henlists | hthrough
  · obtain ⟨c, hc⟩ := misses_of_isTurn henlists hk
    refine ⟨i, c, Nat.lt_of_le_of_ne hji ?_, rfl, hc⟩
    rintro rfl
    have hawaits := hc.1
    rw [hj.awaits_eq] at hawaits
    cases hawaits
  · exact absurd hk (not_isTurn_of_isThrough hthrough (Nat.le_succ i))

/-- **There is at most one turn more than there are copies of others.** -/
theorem encard_turns_le (t : Timeline n q) : {k | t.IsTurn k}.encard ≤ t.ofOthers.encard + 1 := by
  classical
  by_cases hturn : ∃ k, t.IsTurn k
  · obtain ⟨j, hj, hfirst⟩ := Nat.findX hturn
    have hsub : {k | t.IsTurn k} ⊆ insert j {k | t.IsTurn k ∧ j < k} := by
      intro k hk
      rcases Nat.lt_trichotomy k j with hlt | rfl | hlt
      · exact absurd hk (hfirst k hlt)
      · exact Set.mem_insert k _
      · exact Set.mem_insert_of_mem j ⟨hk, hlt⟩
    -- Each turn after the first one belongs to the copy that was missed right before.
    have hmissed : ∀ k, t.IsTurn k → j < k → ∃ c, t.Misses (k - 1) c := by
      intro k hk hlt
      obtain ⟨i, c, -, rfl, hc⟩ := exists_misses hj hk hlt
      exact ⟨c, hc⟩
    choose! missed hmissed using hmissed
    have hmaps : Set.MapsTo missed {k | t.IsTurn k ∧ j < k} t.ofOthers := fun k hk =>
      mem_ofOthers (List.mem_of_mem_head? (hmissed k hk.1 hk.2).1)
    have hinj : Set.InjOn missed {k | t.IsTurn k ∧ j < k} := by
      intro k hk l hl heq
      have hkl := (hmissed k hk.1 hk.2).eq (heq ▸ hmissed l hl.1 hl.2)
      have hk := hk.2
      have hl := hl.2
      omega
    calc {k | t.IsTurn k}.encard ≤ (insert j {k | t.IsTurn k ∧ j < k}).encard :=
          Set.encard_le_encard hsub
      _ ≤ {k | t.IsTurn k ∧ j < k}.encard + 1 := Set.encard_insert_le _ _
      _ ≤ t.ofOthers.encard + 1 :=
          add_le_add (Set.encard_le_encard_of_injOn hmaps hinj) le_rfl
  · have hempty : {k | t.IsTurn k} = ∅ :=
      Set.eq_empty_of_forall_notMem fun k hk => hturn ⟨k, hk⟩
    rw [hempty, Set.encard_empty]
    exact bot_le

/-! ### The end of the turns -/

section Endless

variable (hin : ∀ l, k ≤ l → (t.resolution l).phase.IsEnlisting)

include hin

/-- While there are turns, a copy is waited for sooner or later. -/
theorem exists_awaits : ∃ l c, k ≤ l ∧ t.awaits l = some c := by
  induction hleft : (t.resolution k).phase.untilJoined using Nat.strongRecOn generalizing k with
  | ind left ih =>
    have hpart := (t.goes k).part (hin k (Nat.le_refl k))
    rcases hpart.awaits_or_lt (hin (k + 1) (Nat.le_succ k)) with ⟨c, hc⟩ | hlt
    · exact ⟨k, c, Nat.le_refl k, hc⟩
    · obtain ⟨l, c, hl, hc⟩ :=
        ih _ (hleft ▸ hlt) (fun l hl => hin l (Nat.le_of_succ_le hl)) rfl
      exact ⟨l, c, Nat.le_of_succ_le hl, hc⟩

/-- A wait that ends is followed by another turn. -/
theorem exists_isTurn_of_awaits (hc : t.awaits k = some c) (hl : k ≤ l)
    (hne : t.awaits l ≠ some c) : ∃ m, k < m ∧ t.IsTurn m := by
  by_contra hnone
  have hstill : ∀ m, k ≤ m → t.awaits m = some c := by
    intro m hm
    induction m, hm using Nat.le_induction with
    | base => exact hc
    | succ m hm ih =>
      have hpart := (t.goes m).part (hin m hm)
      rcases hpart.eq_or_looksAgain (hin (m + 1) (Nat.le_succ_of_le hm)) ih with hsame | hturn
      · rwa [awaits, hsame]
      · exact absurd ⟨m + 1, Nat.lt_succ_of_le hm, hturn⟩ hnone
  exact hne (hstill l hl)

/-- There is no last turn, as long as each wait ends. -/
theorem infinite_turns
    (hends : ∀ l c, k ≤ l → t.awaits l = some c →
      ∃ m, l ≤ m ∧ ((t.world m).copies.get c).isFinished) :
    {k | t.IsTurn k}.Infinite := by
  refine Set.infinite_of_forall_exists_gt fun bound => ?_
  have hlater : ∀ l, max k bound ≤ l → (t.resolution l).phase.IsEnlisting := fun l hl =>
    hin l (le_of_max_le_left hl)
  obtain ⟨l, c, hl, hc⟩ := exists_awaits hlater
  obtain ⟨m, hm, hfinished⟩ := hends l c (le_of_max_le_left hl) hc
  have hspent := isSpent_of_awaits hc hm hfinished
  obtain ⟨next, hlt, hturn⟩ :=
    exists_isTurn_of_awaits (fun m hm => hlater m (hl.trans hm)) hc (Nat.le_succ_of_le hm)
      hspent.awaits_ne
  exact ⟨next, hturn, lt_of_le_of_lt (le_of_max_le_right hl) hlt⟩

end Endless

/-- After the last turn there is an outcome, and then the resolution never registers a copy, or it has
registered the only one that it ever does. -/
theorem outcome_or_registers (hk : (t.resolution k).phase.IsEnlisting)
    (hout : ¬ (t.resolution (k + 1)).phase.IsEnlisting) :
    ((∃ outcome, (t.resolution (k + 1)).verdict? = some outcome) ∧ ∀ l c, ¬ t.Registers l c) ∨
    ∃ c, ∀ l d, t.Registers l d ↔ l = k ∧ d = c := by
  have hnone := hk.started_eq_none (t.fits k).isCoherent
  cases hstarted : (t.resolution (k + 1)).started with
  | some c => exact .inr ⟨c, fun _ _ => (registers_of_started hnone hstarted).iff⟩
  | none =>
    left
    have hpart := (t.goes k).part hk
    have hverdict : ∃ outcome, (t.resolution (k + 1)).verdict? = some outcome := by
      generalize t.resolution (k + 1) = r at hpart hout hstarted
      cases hpart with
      | settles outcome => exact ⟨outcome, rfl⟩
      | starts _ => cases hstarted
      | waits _ => exact absurd hk hout
      | looks _ | joins _ | misses _ => exact absurd trivial hout
    refine ⟨hverdict, fun l c hl => ?_⟩
    obtain ⟨outcome, ho⟩ := hverdict
    have hlater : ∀ l, k + 1 ≤ l →
        (t.resolution l).verdict? = some outcome ∧ (t.resolution l).started = none := by
      intro l hl
      induction l, hl using Nat.le_induction with
      | base => exact ⟨ho, hstarted⟩
      | succ l _ ih =>
        obtain ⟨hkept, hsame⟩ := (t.goes l).verdict? ih.1
        exact ⟨hkept, hsame.trans ih.2⟩
    obtain ⟨-, -, hsome⟩ := hl.starts
    have hnever : (t.resolution (l + 1)).started = none := by
      rcases Nat.le_total (k + 1) (l + 1) with hle | hle
      · exact (hlater (l + 1) hle).2
      · exact started_eq_none_of_le hstarted hle
    rw [hnever] at hsome
    cases hsome

/-- **The loop is left**, if there are only so many copies of others and each wait in it ends. -/
theorem exists_leaves (hfinite : t.ofOthers.Finite) (hj : t.IsTurn j)
    (hends : ∀ k c, j ≤ k → t.awaits k = some c →
      ∃ l, k ≤ l ∧ ((t.world l).copies.get c).isFinished) :
    ∃ k, j ≤ k ∧ t.Leaves k := by
  have hleft : ∃ k, j ≤ k ∧ (t.resolution k).phase.IsEnlisting ∧
      ¬ (t.resolution (k + 1)).phase.IsEnlisting := by
    by_contra hnever
    push Not at hnever
    have hin : ∀ k, j ≤ k → (t.resolution k).phase.IsEnlisting := by
      intro k hk
      induction k, hk using Nat.le_induction with
      | base => exact hj.isEnlisting
      | succ k hk ih => exact hnever k hk ih
    have hturns : {k | t.IsTurn k}.Finite := by
      refine Set.encard_lt_top_iff.1 (lt_of_le_of_lt t.encard_turns_le ?_)
      exact ENat.add_lt_top.2 ⟨hfinite.encard_lt_top, ENat.one_lt_top⟩
    exact infinite_turns hin hends hturns
  obtain ⟨k, hk, hin, hout⟩ := hleft
  have hthrough := (isEnlisting_or_isThrough hj (Nat.le_succ_of_le hk)).resolve_left hout
  exact ⟨k, hk, hin, fun l hl =>
    (isThrough_of_le hthrough hl).not_isEnlisting (t.fits l).isCoherent,
    outcome_or_registers hin hout⟩

theorem Leaves.isThrough (h : t.Leaves k) : (t.resolution (k + 1)).IsThrough := by
  rcases h.ends with ⟨⟨outcome, ho⟩, -⟩ | ⟨c, hone⟩
  · exact .inl (by rw [ho]; rfl)
  · obtain ⟨-, -, hsome⟩ := ((hone k c).2 ⟨rfl, rfl⟩).starts
    exact .inr (by rw [hsome]; rfl)

/-- Once the loop has been left, all copies that were waited for are finished. -/
theorem Leaves.exists_isFinished (h : t.Leaves k) (hc : t.awaits j = some c) :
    ∃ l, j ≤ l ∧ ((t.world l).copies.get c).isFinished := by
  have hnone : ∀ l, k + 1 ≤ l → t.awaits l ≠ some c := by
    intro l hl hawaits
    rw [awaits_eq_none_of_isThrough h.isThrough hl] at hawaits
    cases hawaits
  have hj : j ≤ k + 1 := Nat.le_of_not_le fun hle => hnone j hle hc
  rcases resolution_eq_or_isSpent hc hj with hsame | hspent
  · exact absurd (by rwa [awaits, hsame]) (hnone (k + 1) (Nat.le_refl _))
  · exact ⟨k + 1, hj, hspent.isFinished⟩

/-- **Joining makes progress**, whatever others do meanwhile. A resolution waits for each copy once,
be it one that was in progress when it first looked, or one that it came upon later.

All turns of the loop but the first begin when a copy has been missed, each with another one. So
there is at most one turn more than there are copies to the node that others ever register. The loop
is left then, with an outcome or with the only copy that the resolution ever registers, just in case
each copy that it waits for in the loop is finished at some time. -/
theorem makes_progress (t : Timeline n q) :
    (∀ j k c, j ≤ k → t.awaits j = some c → t.awaits k = some c →
      ∀ l, j ≤ l → l ≤ k → t.resolution l = t.resolution j) ∧
    (∀ j k, j < k → t.IsTurn j → t.IsTurn k → ∃ i c, j < i ∧ i + 1 = k ∧ t.Misses i c) ∧
    (∀ i j c, t.Misses i c → t.Misses j c → i = j) ∧
    ∀ m : ℕ, t.ofOthers.encard ≤ m →
      {k | t.IsTurn k}.encard ≤ m + 1 ∧
      ∀ j, t.IsTurn j →
        ((∃ k, j ≤ k ∧ t.Leaves k) ↔
          ∀ k c, j ≤ k → t.awaits k = some c →
            ∃ l, k ≤ l ∧ ((t.world l).copies.get c).isFinished) := by
  refine ⟨fun j k c _ hj hk l hl hlk => resolution_eq_of_awaits hj hk hl hlk,
    fun j k hjk hj hk => exists_misses hj hk hjk, fun i j c hi hj => hi.eq hj,
    fun m hm => ⟨(encard_turns_le t).trans (add_le_add hm le_rfl), fun j hj => ⟨?_, ?_⟩⟩⟩
  · rintro ⟨k, -, hleaves⟩ i c - hc
    exact hleaves.exists_isFinished hc
  · exact exists_leaves (Set.finite_of_encard_le_coe hm) hj

/-- Others register a copy before the resolution starts, and another one between its look at what is
there and its attempt to register one of its own. Both bring the item to a file that is not there.
-/
theorem makes_progress_two_copies :
    let item : Item := { Item.named "x" with locations := [.file [⟨2, ⟨"n2/x"⟩⟩]] }
    let world : World :=
      { World.empty with
        items := Cells.empty.push item
        directory := Directory.empty.register (.foreign ⟨2, "peer", 0⟩) }
    let request (path : String) : Request := ⟨0, none, .file [⟨1, ⟨path⟩⟩], none, none⟩
    let node : LocalNode := ⟨1, "n1", ⟨"n1"⟩, .authoritative⟩
    let lost : Outcome := .ok (.path ⟨"lost"⟩)
    let others (k : Nat) (w : World) : World :=
      if k = 0 ∨ k = 10 then (w.joinOrStart node.id (request "b")).1
      else if k = 4 then w.complete 0 lost
      else if k = 12 then w.complete 1 lost
      else w
    ∃ t : Timeline node (request "a"),
      (∀ k, (t.world k, t.resolution k) =
        Resolution.course others world (.start node (request "a")) k) ∧
      t.awaits 3 = some 0 ∧ t.awaits 4 = some 0 ∧ t.resolution 4 = t.resolution 3 ∧
      t.IsTurn 9 ∧ t.IsTurn 13 ∧ (∀ k, t.Misses k 1 ↔ k = 12) ∧
      t.ofOthers.encard ≤ 2 ∧ {k | t.IsTurn k}.encard ≤ 3 ∧
      t.Leaves 14 ∧ ∀ k c, t.Registers k c ↔ k = 14 ∧ c = 2 := by
  intro item world request node lost others
  have happens (k : Nat) (w : World) : Relation.ReflTransGen World.Happens w (others k w) := by
    simp only [others]
    split
    · exact .single (w.happens_joinOrStart node (request "b"))
    · split
      · exact .single (.completes 0 lost)
      · split
        · exact .single (.completes 1 lost)
        · exact .refl
  have proper : (others 0 world).IsProper 0 :=
    (World.onward_of_happens (happens 0 world)).isProper
      ⟨fun _ hc => absurd hc List.not_mem_nil, List.nodup_nil⟩
  let course := Resolution.course others world (.start node (request "a"))
  obtain ⟨t, ht⟩ : ∃ t : Timeline node (request "a"),
      ∀ k, t.world k = (course k).1 ∧ t.resolution k = (course k).2 :=
    ⟨.among others happens world proper, fun _ => ⟨rfl, rfl⟩⟩
  have awaits₃ : t.awaits 3 = some 0 := by
    rw [awaits, (ht 3).2]
    decide +kernel
  have awaits₄ : t.awaits 4 = some 0 := by
    rw [awaits, (ht 4).2]
    decide +kernel
  have awaits₁₂ : t.awaits 12 = some 1 := by
    rw [awaits, (ht 12).2]
    decide +kernel
  have turn₉ : t.IsTurn 9 := by
    rw [IsTurn, (ht 9).2]
    decide +kernel
  have turn₁₃ : t.IsTurn 13 := by
    rw [IsTurn, (ht 13).2]
    decide +kernel
  have started₁₄ : (t.resolution 14).started = none := by
    rw [(ht 14).2]
    decide +kernel
  have started₁₅ : (t.resolution 15).started = some 2 := by
    rw [(ht 15).2]
    decide +kernel
  have registers : t.Registers 14 2 := registers_of_started started₁₄ started₁₅
  -- Once the node is called nothing happens any more.
  have size : ∀ k, 15 ≤ k → (t.world k).copies.size ≤ 3 := by
    intro k hk
    have hcalls : (course 15).2.IsCalling (course 15).1 := by decide +kernel
    have hquiet : ∀ j w, 15 < j → others j w = w := by
      intro j w hj
      simp only [others]
      rw [if_neg (by omega), if_neg (by omega), if_neg (by omega)]
    have hworld : (course k).1 = (course 15).1 :=
      (Resolution.course_of_isCalling hcalls hquiet hk).2
    rw [(ht k).1, hworld]
    decide +kernel
  have ofOthers : t.ofOthers.encard ≤ 2 := by
    have hsub : t.ofOthers ⊆ {0, 1} := by
      intro c hc
      have hlt := lt_of_mem_ofOthers size hc
      have hne : c ≠ 2 := by
        rintro rfl
        exact hc.2 14 registers
      have hcases : ∀ i : Nat, i < 3 → i ≠ 2 → i = 0 ∨ i = 1 := by omega
      exact hcases c hlt hne
    exact (Set.encard_le_encard hsub).trans (Set.encard_pair (by decide)).le
  obtain ⟨once, misses, each, bound⟩ := makes_progress t
  obtain ⟨turns, ends⟩ := bound 2 ofOthers
  have missed : t.Misses 12 1 := by
    obtain ⟨i, c, -, hi, hc⟩ := misses 9 13 (by decide) turn₉ turn₁₃
    obtain rfl : i = 12 := Nat.succ.inj hi
    obtain rfl : c = 1 := Option.some.inj (hc.1.symm.trans awaits₁₂)
    exact hc
  -- From the first turn on there is one copy to wait for.
  have early : ∀ k < 15, 9 ≤ k → (course k).2.awaits = none ∨
      k ≤ 12 ∧ (course k).2.awaits = some 1 := by
    decide +kernel
  have through : (t.resolution 15).IsThrough := .inr (by rw [started₁₅]; rfl)
  have waits : ∀ k c, 9 ≤ k → t.awaits k = some c → k ≤ 12 ∧ c = 1 := by
    intro k c hk hc
    rcases Nat.lt_or_ge k 15 with hlt | hge
    · rw [awaits, (ht k).2] at hc
      rcases early k hlt hk with hnone | ⟨hle, hone⟩
      · rw [hnone] at hc
        cases hc
      · rw [hone] at hc
        exact ⟨hle, (Option.some.inj hc).symm⟩
    · rw [awaits_eq_none_of_isThrough through hge] at hc
      cases hc
  have finished : ((t.world 12).copies.get 1).isFinished := by
    rw [(ht 12).1]
    decide +kernel
  obtain ⟨k, -, leaves⟩ := (ends 9 turn₉).2 fun k c hk hc =>
    ⟨12, (waits k c hk hc).1, (waits k c hk hc).2 ▸ finished⟩
  have left : t.Leaves 14 ∧ ∀ k c, t.Registers k c ↔ k = 14 ∧ c = 2 := by
    rcases leaves.ends with ⟨-, hnone⟩ | ⟨c, hone⟩
    · exact absurd registers (hnone 14 2)
    · obtain ⟨rfl, rfl⟩ := (hone 14 2).1 registers
      exact ⟨leaves, hone⟩
  have same := once 3 4 0 (by decide) awaits₃ awaits₄ 4 (by decide) (by decide)
  have only (k : Nat) : t.Misses k 1 ↔ k = 12 :=
    ⟨fun hk => each k 12 1 hk missed, fun hk => hk ▸ missed⟩
  exact ⟨t, fun k => Prod.ext (ht k).1 (ht k).2, awaits₃, awaits₄, same, turn₉, turn₁₃, only,
    ofOthers, turns, left⟩

/-- Three nodes, of which the second one has the item in a file. The third one gets hold of it for
itself. When it has looked for copies in progress, the first one gets hold of the item for itself
and the third one. It calls the second one, which asks the third one first, so that the copy of the
first one is waited for in the course of its own call. The resolution that began first comes upon
this copy too, and never leaves the loop, although others register no other one. -/
theorem never_leaves_three_nodes :
    let node (id : NodeId) (directory : String) : LocalNode :=
      ⟨id, directory, ⟨directory⟩, .authoritative⟩
    let item : Item := { Item.named "x" with locations := [.file [⟨2, ⟨"n2/x"⟩⟩]] }
    let files := [["tmp", "work", "n1"], ["tmp", "work", "n2"], ["tmp", "work", "n3"]].foldl
      (fun fs place => Files.put fs place .directory) Files.empty
    let world : World :=
      { files := files.put ["tmp", "work", "n2", "x"] (.file [120])
        items := Cells.empty.push item
        copies := .empty
        directory := ((Directory.empty.register (.own (node 1 "n1"))).register
          (.own (node 2 "n2"))).register (.own (node 3 "n3")) }
    let caller : Thread := .start .obtain (node 1 "n1")
      ⟨0, none, .file [⟨3, ⟨"n3/x"⟩⟩, ⟨1, ⟨"n1/x"⟩⟩], none, none⟩
    let request : Request := ⟨0, none, .file [⟨3, ⟨"n3/y"⟩⟩], none, none⟩
    let others (k : Nat) (w : World) : World :=
      if k = 5 then (Thread.walk 14 (w, caller)).1 else w
    ∃ t : Timeline (node 3 "n3") request,
      (∀ k, (t.world k, t.resolution k) =
        Resolution.course others world (.start (node 3 "n3") request) k) ∧
      t.ofOthers.encard ≤ 1 ∧ t.IsTurn 7 ∧
      (∃ thread, Thread.Leads (t.moved 4, caller) (t.world 5, thread) ∧
        ∀ k, 9 ≤ k → t.awaits k = some 0 ∧ thread.step (t.world k) = .waiting) ∧
      ¬ ∃ k, 7 ≤ k ∧ t.Leaves k := by
  intro node item files world caller request others
  have happens (k : Nat) (w : World) : Relation.ReflTransGen World.Happens w (others k w) := by
    simp only [others]
    split
    · exact World.happens_of_leads (Thread.leads_walk 14 (w, caller))
    · exact .refl
  have proper : world.IsProper 0 := ⟨fun _ hc => absurd hc List.not_mem_nil, List.nodup_nil⟩
  let course := Resolution.course others world (.start (node 3 "n3") request)
  obtain ⟨t, ht⟩ : ∃ t : Timeline (node 3 "n3") request, ∀ k, t.world k = (course k).1 ∧
      t.resolution k = (course k).2 ∧ t.moved k = ((course k).2.go (course k).1).1 :=
    ⟨.among others happens world proper, fun _ => ⟨rfl, rfl, rfl⟩⟩
  have turn : t.IsTurn 7 := by
    rw [IsTurn, (ht 7).2.1]
    decide +kernel
  obtain ⟨stuck, hstuck⟩ : ∃ stuck, course 9 = stuck := ⟨_, rfl⟩
  have awaits : stuck.2.awaits = some 0 := by
    rw [← hstuck]
    decide +kernel
  have unfinished : (stuck.1.copies.get 0).outcome = none := by
    rw [← hstuck]
    decide +kernel
  have still : ∀ k, 9 ≤ k → course k = stuck := by
    intro k hk
    have hwait : (course 9).2.step (course 9).1 = .wait := by
      rw [hstuck]
      exact Resolution.step_of_awaits_of_eq_none awaits unfinished
    have hquiet : ∀ j w, 9 < j → others j w = w := fun j w hj => if_neg (by omega)
    rw [← hstuck]
    exact Resolution.course_of_step_eq_wait hwait hquiet hk
  have waits : ∀ k, 9 ≤ k → t.awaits k = some 0 ∧ ((t.world k).copies.get 0).outcome = none := by
    intro k hk
    rw [Timeline.awaits, (ht k).1, (ht k).2.1, still k hk]
    exact ⟨awaits, unfinished⟩
  have ofOthers : t.ofOthers.encard ≤ 1 := by
    have hsize : ∀ k, 9 ≤ k → (t.world k).copies.size ≤ 1 := by
      intro k hk
      rw [(ht k).1, still k hk, ← hstuck]
      decide +kernel
    have hsub : t.ofOthers ⊆ {0} := fun c hc => Nat.lt_one_iff.1 (lt_of_mem_ofOthers hsize hc)
    exact (Set.encard_le_encard hsub).trans (Set.encard_singleton 0).le
  obtain ⟨thread, leads, threadAwaits⟩ : ∃ thread : Thread,
      Thread.Leads (t.moved 4, caller) (t.world 5, thread) ∧ thread.awaits = some 0 := by
    have hnext : ∀ k, t.world (k + 1) = others (k + 1) (t.moved k) := by
      intro k
      rw [(ht (k + 1)).1, (ht k).2.2]
      rfl
    have hworld : t.world 5 = (Thread.walk 14 (t.moved 4, caller)).1 :=
      (hnext 4).trans (if_pos rfl)
    refine ⟨(Thread.walk 14 (t.moved 4, caller)).2, ?_, ?_⟩
    · rw [hworld]
      exact Thread.leads_walk 14 (t.moved 4, caller)
    · rw [(ht 4).2.2]
      decide +kernel
  refine ⟨t, fun k => Prod.ext (ht k).1 (ht k).2.1, ofOthers, turn, ⟨thread, leads, fun k hk =>
    ⟨(waits k hk).1, Thread.step_of_awaits threadAwaits (waits k hk).2⟩⟩, ?_⟩
  rintro ⟨k, -, leaves⟩
  obtain ⟨l, hl, finished⟩ := leaves.exists_isFinished (waits 9 (Nat.le_refl 9)).1
  rw [Copy.isFinished, (waits l hl).2] at finished
  cases finished

end Timeline

end Wharf
