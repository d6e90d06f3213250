import Wharf.Proofs.Transfer.Timelines

/-!
# Joining or registering a copy

Before a resolution calls a node for the first time, it joins a copy in progress or registers one of
its own. This goes in turns, of which each has three parts: it looks for what a copy has left, it
finds out whether there is one in progress, and if so waits for it.

* `Resolution.Part` lists the parts of a turn and what the last one leads to
  (`Resolution.Goes.part`). A further turn follows only when what the copy has delivered cannot be
  copied to the target (`Resolution.Goes.gives_up`).
* Copies are registered nowhere else (`Resolution.Goes.started_cases`).
* A resolution `IsThrough` once it has an outcome or a copy of its own. It remains so
  (`Resolution.Goes.isThrough`).
-/

namespace Wharf

namespace Phase

/-- Before the first call: a copy is joined or registered. -/
def IsEnlisting : Phase → Prop
  | .recheck .. | .enlist .. | .joined .. => True
  | _ => False

/-- The parts of a turn that are left before a copy is waited for. -/
def untilJoined : Phase → Nat
  | .recheck .. => 2
  | .enlist .. => 1
  | _ => 0

theorem IsEnlisting.started_eq_none {phase : Phase} {started : Option CopyId}
    (h : phase.IsEnlisting) (hs : phase.Suits started) : started = none := by
  cases phase <;> first
    | exact hs
    | exact h.elim

theorem IsCalling.not_isEnlisting {phase : Phase} (h : phase.IsCalling) :
    ¬ phase.IsEnlisting := by
  cases phase <;> first
    | exact h.elim
    | exact id

theorem IsCalling.verdict?_eq {phase : Phase} (h : phase.IsCalling) : phase.verdict? = none := by
  cases phase <;> first
    | rfl
    | exact h.elim

end Phase

namespace Resolution

variable {n : LocalNode} {q : Request} {r r' : Resolution} {w v : World} {c : CopyId}

/-- What was joined is given up only when it has brought the item to a file, and that could not be
copied to the target. -/
theorem exists_of_takeOver {outcome : Outcome} {otherwise : Phase}
    (h : r.takeOver w outcome otherwise = .advance v r') (hv : r'.verdict? = none) :
    ∃ delivered path e, outcome = .ok (.path delivered) ∧ r.localTarget = some path ∧
      w.copyFile delivered path = .error e := by
  rcases outcome with e | (delivered | name | key)
  · cases h
    cases hv
  · simp only [takeOver] at h
    split at h
    · cases h
      cases hv
    · rename_i e hcopy
      cases htarget : r.localTarget with
      | none =>
        -- Without a path for the target the file stays where it is, which cannot fail.
        rw [htarget, Option.getD_none, World.copyFile, if_pos (Path.same_refl _)] at hcopy
        cases hcopy
      | some path =>
        rw [htarget, Option.getD_some] at hcopy
        exact ⟨delivered, path, e, rfl, rfl, hcopy⟩
  · cases h
    cases hv
  · cases h
    cases hv

/-- The resolution is about to look for what a copy has left. -/
def LooksAgain (r : Resolution) : Prop := ∃ peer route, r.phase = .recheck peer route

instance (r : Resolution) : Decidable r.LooksAgain :=
  decidable_of_iff
    ((match r.phase with
      | .recheck _ _ => true
      | _ => false) = true) <| by
    unfold LooksAgain
    cases r.phase <;> simp

/-- The resolution is done with joining: it has an outcome or a copy of its own. -/
def IsThrough (r : Resolution) : Prop := r.verdict?.isSome ∨ r.started.isSome

theorem IsThrough.not_isEnlisting (h : r.IsThrough) (hr : r.IsCoherent) :
    ¬ r.phase.IsEnlisting := by
  intro hphase
  rcases h with hverdict | hstarted
  · rw [verdict?] at hverdict
    cases hp : r.phase <;> rw [hp] at hphase hverdict
    case recheck | enlist | joined => cases hverdict
    all_goals exact hphase
  · rw [hphase.started_eq_none hr] at hstarted
    cases hstarted

theorem IsThrough.awaits_eq_none (h : r.IsThrough) (hr : r.IsCoherent) : r.awaits = none := by
  rcases h with hverdict | hstarted
  · obtain ⟨outcome, ho⟩ := Option.isSome_iff_exists.1 hverdict
    exact awaits_eq_none_of_verdict ho
  · cases hawaits : r.awaits with
    | none => rfl
    | some c =>
      rw [hr.started_eq_none (List.mem_of_mem_head? hawaits)] at hstarted
      cases hstarted

/-! ## One step -/

/-- A copy is registered when there is none of one's own yet, and noted then. -/
theorem Goes.started_cases (h : r.Goes w v r') (hr : r.IsCoherent) :
    r'.started = r.started ∧
      (∀ item, (v.items.get item).copies ⊆ (w.items.get item).copies) ∨
    r.started = none ∧ r'.started = some w.copies.size ∧
      (v.items.get r.request.item).copies =
        (w.items.get r.request.item).copies ++ [w.copies.size] := by
  rcases h.cases with heffect | ⟨rfl, rfl, -⟩ | ⟨rfl, -, phase, -, rfl⟩ | ⟨rfl, rfl, -⟩
  · cases heffect with
    | quiet same _ =>
      refine .inl ⟨rfl, fun item => ?_⟩
      rw [same.registered]
      exact List.Subset.refl _
    | starts enlists free =>
      refine .inr ⟨?_, rfl, by rw [World.registered_joinOrStart free, if_pos rfl]⟩
      rwa [IsCoherent, enlists] at hr
    | completes _ _ => exact .inl ⟨rfl, fun _ => List.Subset.refl _⟩
    | withdraws _ =>
      refine .inl ⟨rfl, fun item => ?_⟩
      rw [World.registered_removeCopy]
      split
      · exact List.filter_subset_self _
      · exact List.Subset.refl _
  · exact .inl ⟨rfl, fun _ => List.Subset.refl _⟩
  · exact .inl ⟨rfl, fun _ => List.Subset.refl _⟩
  · exact .inl ⟨rfl, fun _ => List.Subset.refl _⟩

/-- An outcome is kept, and no copy is registered any more. -/
theorem Goes.verdict? {outcome : Outcome} (h : r.Goes w v r')
    (hv : r.verdict? = some outcome) : r'.verdict? = some outcome ∧ r'.started = r.started := by
  rcases h.cases with heffect | ⟨-, rfl, -⟩ | ⟨-, hcalls, -⟩ | ⟨-, rfl, -⟩
  · cases heffect with
    | quiet _ next =>
      refine ⟨?_, rfl⟩
      unfold Resolution.verdict? at hv ⊢
      cases hp : r.phase <;> rw [hp] at hv next <;> cases hv <;> cases next <;> rfl
    | starts enlists _ =>
      rw [Resolution.verdict?, enlists] at hv
      cases hv
    | completes completing _ =>
      rw [Resolution.verdict?, completing] at hv
      exact ⟨hv, rfl⟩
    | withdraws withdrawing =>
      rw [Resolution.verdict?, withdrawing] at hv
      exact ⟨hv, rfl⟩
  · exact ⟨hv, rfl⟩
  · rw [Resolution.verdict?, hcalls.verdict?_eq] at hv
    cases hv
  · exact ⟨hv, rfl⟩

theorem Goes.isThrough (h : r.Goes w v r') (hr : r.IsCoherent) (ht : r.IsThrough) :
    r'.IsThrough := by
  rcases ht with hverdict | hstarted
  · obtain ⟨outcome, ho⟩ := Option.isSome_iff_exists.1 hverdict
    exact .inl (by rw [(h.verdict? ho).1]; rfl)
  · rcases h.started_cases hr with ⟨hsame, -⟩ | ⟨hnone, -⟩
    · exact .inr (by rwa [hsame])
    · rw [hnone] at hstarted
      cases hstarted

/-- The parts of a turn, and how the turns end. -/
inductive Part (r : Resolution) : Resolution → Prop
  | looks {peer : Node} {route : Route} (phase : r.phase = .recheck peer route) :
      Part r (r.inPhase (.enlist peer route))
  | joins {peer : Node} {route : Route} {copy : CopyId} (phase : r.phase = .enlist peer route) :
      Part r (r.inPhase (.joined copy peer route))
  | waits {copy : CopyId} (awaits : r.awaits = some copy) : Part r r
  /-- The next turn begins. -/
  | misses {peer : Node} {route : Route} {copy : CopyId}
      (phase : r.phase = .joined copy peer route) : Part r (r.inPhase (.recheck peer route))
  | starts (copy : CopyId) {peer : Node} {route : Route} :
      Part r { r with started := some copy, phase := .ask peer route }
  | settles (outcome : Outcome) : Part r (r.inPhase (.leaving outcome))

theorem Goes.part (h : r.Goes w v r') (hp : r.phase.IsEnlisting) : r.Part r' := by
  rcases h.cases with heffect | ⟨-, rfl, c, hc, -⟩ | ⟨-, hcalls, -⟩ | ⟨-, rfl, outcome, hdone⟩
  · cases heffect with
    | @quiet _ phase _ next =>
      cases hphase : r.phase <;> rw [hphase] at hp next <;> try exact hp.elim
      case recheck =>
        cases next with
        | recheck attempt =>
          cases attempt with
          | succeeds outcome => exact .settles outcome
          | fails => exact .looks hphase
      case enlist =>
        cases next with
        | enlist _ => exact .joins hphase
      case joined =>
        cases next with
        | joined attempt =>
          cases attempt with
          | succeeds outcome => exact .settles outcome
          | fails => exact .misses hphase
    | starts _ _ => exact .starts _
    | completes completing _ =>
      rw [completing] at hp
      exact hp.elim
    | withdraws withdrawing =>
      rw [withdrawing] at hp
      exact hp.elim
  · exact .waits hc
  · exact absurd hp hcalls.not_isEnlisting
  · rw [hdone] at hp
    exact hp.elim

namespace Part

variable (h : r.Part r') (hp : r'.phase.IsEnlisting)

include h hp

/-- In a turn a copy is waited for sooner or later. -/
theorem awaits_or_lt :
    (∃ c, r.awaits = some c) ∨ r'.phase.untilJoined < r.phase.untilJoined := by
  cases h with
  | looks hphase | joins hphase =>
    right
    rw [hphase]
    exact Nat.lt_succ_self _
  | waits hc => exact .inl ⟨_, hc⟩
  | misses hphase => exact .inl ⟨_, awaits_of_joined hphase⟩
  | starts _ | settles _ => exact hp.elim

/-- A wait goes on, or is over and the next turn begins. -/
theorem eq_or_looksAgain (hc : r.awaits = some c) : r' = r ∨ r'.LooksAgain := by
  cases h with
  | waits _ => exact .inl rfl
  | misses _ => exact .inr ⟨_, _, rfl⟩
  | looks hphase | joins hphase =>
    rw [awaits, listed, hphase] at hc
    cases hc
  | starts _ | settles _ => exact hp.elim

end Part

/-- **A further turn begins when a copy has been given up.** -/
theorem Goes.gives_up (h : r.Goes w v r') (hp : r.phase.IsEnlisting) {peer : Node} {route : Route}
    (hphase : r'.phase = .recheck peer route) :
    ∃ c delivered path e, r.awaits = some c ∧
      (w.copies.get c).outcome = some (.ok (.path delivered)) ∧ r.localTarget = some path ∧
      w.copyFile delivered path = .error e := by
  have hpart : ∃ c, r.awaits = some c ∧ r' ≠ r := by
    cases h.part hp with
    | looks _ | joins _ | starts _ | settles _ => cases hphase
    | waits hc =>
      rw [Resolution.awaits, listed, hphase] at hc
      cases hc
    | misses hjoined =>
      refine ⟨_, awaits_of_joined hjoined, fun hsame => ?_⟩
      rw [hsame, hjoined] at hphase
      cases hphase
  obtain ⟨c, hc, hne⟩ := hpart
  refine ⟨c, ?_⟩
  obtain ⟨otherwise, hjoin⟩ := step_of_awaits (w := w) hc
  cases h with
  | waits _ | rests _ => exact absurd rfl hne
  | replies _ reply => exact absurd (answer_of_awaits hc reply) hne
  | calls hstep =>
    have hmove := r.canMake_step w
    rw [hstep] at hmove
    obtain ⟨route, hask, -, -⟩ := hmove
    rw [Resolution.awaits, listed, hask] at hc
    cases hc
  | advances hstep =>
    rw [hjoin, join] at hstep
    split at hstep
    · cases hstep
    · rename_i outcome ho
      have hverdict : r'.verdict? = none := by
        rw [Resolution.verdict?, hphase]
        rfl
      obtain ⟨delivered, path, e, rfl, htarget, herror⟩ := exists_of_takeOver hstep hverdict
      exact ⟨delivered, path, e, hc, ho, htarget, herror⟩

end Resolution

end Wharf
