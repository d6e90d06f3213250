import Wharf.Proofs.Transfer.Trail

/-!
# Waiting for the copies of others

A node that has an item can always bring it to a target of its own. Before it looks at its own
replicas it waits, though, for the copies of the item that are on their way to it, one after the
other, and others go on meanwhile.

* `Resolution.course` is a resolution among others, who may do anything to the world before each of
  its moves.
* `Resolution.IsAtHand` says that the node has the item in a file that it can bring to the target.
* `Resolution.Decides` is a stretch of a course that leads to an outcome. While copies are waited
  for, one of them comes about sooner or later (`Resolution.exists_decides`), and it is an error
  just when it is that of a copy.
* `Resolution.ends_unless_copy_fails` puts the whole course together. A copy that fails takes the
  resolution with it, although the item is at hand (`Resolution.fails_with_copy`).
-/

namespace Wharf

namespace World

variable {w w' : World} {path source : Path} {sources : List Path}

/-- A file can be brought to the target just when the copy gets through. -/
theorem canBring_iff : w.CanBring path source ↔ ∃ w', w.copyFile source path = .ok w' := by
  simp only [CanBring, copyFile_eq_ok_iff]
  constructor
  · rintro (same | ⟨⟨content, hread⟩, place, hwritable⟩)
    · exact ⟨w, .inl ⟨same, rfl⟩⟩
    · obtain ⟨files, hcopy⟩ := Files.exists_copy_of_read hread hwritable
      cases same : source.same path
      · exact ⟨_, .inr ⟨rfl, files, hcopy, rfl⟩⟩
      · exact ⟨w, .inl ⟨rfl, rfl⟩⟩
  · rintro ⟨w', ⟨same, -⟩ | ⟨-, files, hcopy, -⟩⟩
    · exact .inl same
    · obtain ⟨content, place, hread, hwritable⟩ := Files.exists_of_copy hcopy
      exact .inr ⟨⟨content, hread⟩, place, hwritable⟩

theorem not_canBring_of_error {e : FileError} (h : w.copyFile source path = .error e) :
    ¬ w.CanBring path source := fun can => by
  obtain ⟨w', hw'⟩ := canBring_iff.1 can
  rw [h] at hw'
  cases hw'

/-- No file is copied just when none can be brought to the target. -/
theorem copyFirst_eq_none_iff :
    w.copyFirst path sources = none ↔ ∀ source ∈ sources, ¬ w.CanBring path source := by
  induction sources with
  | nil => exact iff_of_true rfl (List.forall_mem_nil _)
  | cons first rest ih =>
    rw [List.forall_mem_cons, ← ih, copyFirst]
    cases hfirst : w.copyFile first path with
    | ok v =>
      exact iff_of_false (Option.some_ne_none v) fun h => h.1 (canBring_iff.2 ⟨v, hfirst⟩)
    | error e => exact (and_iff_right (not_canBring_of_error hfirst)).symm

/-- One file that can be brought to the target is enough. -/
theorem exists_copyFirst (h : ∃ source ∈ sources, w.CanBring path source) :
    ∃ w', w.copyFirst path sources = some w' := by
  obtain ⟨source, hsource, can⟩ := h
  exact Option.ne_none_iff_exists'.1 fun hnone => copyFirst_eq_none_iff.1 hnone source hsource can

/-- The file that is copied is the first one that can be brought to the target. -/
theorem copyFirst_eq_some (h : w.copyFirst path sources = some w') :
    ∃ earlier source later, sources = earlier ++ source :: later ∧
      (∀ s ∈ earlier, ¬ w.CanBring path s) ∧ w.copyFile source path = .ok w' := by
  induction sources with
  | nil => cases h
  | cons first rest ih =>
    rw [copyFirst] at h
    cases hfirst : w.copyFile first path with
    | ok v =>
      rw [hfirst] at h
      cases h
      exact ⟨[], first, rest, rfl, List.forall_mem_nil _, hfirst⟩
    | error e =>
      rw [hfirst] at h
      obtain ⟨earlier, source, later, rfl, others, copied⟩ := ih h
      exact ⟨first :: earlier, source, later, rfl,
        List.forall_mem_cons.2 ⟨not_canBring_of_error hfirst, others⟩, copied⟩

end World

namespace Resolution

/-! ### Moves -/

/-- The world after a move of a resolution, and the resolution, which stays as it is while it waits
and once it has ended. -/
def go (r : Resolution) (w : World) : World × Resolution :=
  match r.step w with
  | .advance w' r' => (w', r')
  | .wait => (w, r)
  | .call _ _ r' => (w, r')
  | .finish _ => (w, r)

/-- The node has the item in a file that it can bring to the target, and nowhere else that would be
looked at before. -/
structure IsAtHand (n : LocalNode) (q : Request) (path : Path) (w : World) : Prop where
  noKey : (w.items.get q.item).key? = none
  noValue : (w.items.get q.item).value = none
  exists_source : ∃ source ∈ ownReplicas n q w, w.CanBring path source

/-- The resolution waits for a copy that has ended with an error. -/
def Fails (r : Resolution) (w : World) (e : TransferError) : Prop :=
  ∃ c, r.awaits = some c ∧ (w.copies.get c).outcome = some (.error e)

variable {n : LocalNode} {q : Request} {path : Path} {w : World} {r : Resolution} {c : CopyId}
  {pending rest : List CopyId} {outcome : Outcome}

theorem IsAtHand.pin (h : IsAtHand n q path w) :
    IsAtHand n q path (w.updateItem q.item Item.pin) := by
  obtain ⟨hkey, hvalue, hsource⟩ := h
  have hitem : (w.updateItem q.item Item.pin).items.get q.item = (w.items.get q.item).pin := by
    simp only [World.updateItem, Cells.update, Cells.get_set, if_pos]
  constructor
  · rw [hitem]
    exact hkey
  · rw [hitem]
    exact hvalue
  · rw [ownReplicas, hitem]
    exact hsource

theorem go_start (h : IsAtHand n q path w) :
    (start n q).go w = (w, (start n q).inPhase .resident) := by
  have hkey : ((start n q).item w).key? = none := h.noKey
  simp only [go, step, start] at hkey ⊢
  simp only [takeKey, hkey]
  rfl

theorem go_resident (h : IsAtHand n q path w) :
    ((start n q).inPhase .resident).go w = (w, (start n q).inPhase .survey) := by
  have hvalue : (((start n q).inPhase .resident).item w).value = none := h.noValue
  simp only [go, step, start, inPhase] at hvalue ⊢
  simp only [placeValue, hvalue]
  rfl

/-- The replicas of the node are the last resort, and enough. -/
theorem exists_go_replicas (h : IsAtHand n q path w) (here : q.target.pathIn n.id = some path) :
    ∃ w', ((start n q).inPhase .replicas).go w =
      (w', (start n q).inPhase (.leaving (.ok (.path path)))) := by
  obtain ⟨w', hcopied⟩ := World.exists_copyFirst h.exists_source
  have hreplica : ((start n q).inPhase .replicas).copyReplica w = some (path, w') := by
    unfold copyReplica
    rw [show ((start n q).inPhase .replicas).localTarget = some path from here]
    exact congrArg (Option.map fun w => (path, w)) hcopied
  refine ⟨w'.register q, ?_⟩
  simp only [go, step, inPhase, start] at hreplica ⊢
  simp only [useReplica, hreplica]
  rfl

theorem go_of_outcome_eq_none (hc : (w.copies.get c).outcome = none) :
    (r.inPhase (.joining (c :: rest))).go w = (w, r.inPhase (.joining (c :: rest))) := by
  simp only [go, step, inPhase, join, hc]

theorem go_of_error {e : TransferError} (hc : (w.copies.get c).outcome = some (.error e)) :
    (r.inPhase (.joining (c :: rest))).go w = (w, r.inPhase (.leaving (.error e))) := by
  simp only [go, step, inPhase, join, hc, takeOver, proceed]

/-- What a copy has delivered is taken over, unless it cannot be brought to the target. -/
theorem takeOver_ok (r : Resolution) (w : World) (target : Target) (otherwise : Phase) :
    (∃ w' t, r.takeOver w (.ok target) otherwise =
      .advance w' (r.inPhase (.leaving (.ok t)))) ∨
        r.takeOver w (.ok target) otherwise = r.proceed w otherwise := by
  cases target with
  | path delivered =>
    simp only [takeOver]
    split
    · exact .inl ⟨_, _, rfl⟩
    · exact .inr rfl
  | object name => exact .inl ⟨_, _, rfl⟩
  | key key => exact .inl ⟨_, _, rfl⟩

theorem go_of_ok (r : Resolution) (rest : List CopyId) {target : Target}
    (hc : (w.copies.get c).outcome = some (.ok target)) :
    (∃ w' t, (r.inPhase (.joining (c :: rest))).go w = (w', r.inPhase (.leaving (.ok t)))) ∨
      (r.inPhase (.joining (c :: rest))).go w = (w, r.inPhase (.joining rest)) := by
  have hstep : (r.inPhase (.joining (c :: rest))).step w =
      (r.inPhase (.joining (c :: rest))).takeOver w (.ok target) (.joining rest) := by
    simp only [step, inPhase, join, hc]
  unfold go
  rw [hstep]
  rcases (r.inPhase (.joining (c :: rest))).takeOver_ok w target (.joining rest) with
    ⟨w', t, htake⟩ | htake
  · exact .inl ⟨w', t, by rw [htake]; rfl⟩
  · exact .inr (by rw [htake]; rfl)

theorem go_of_verdict (h : r.verdict? = some outcome) :
    (r.go w).2.verdict? = some outcome ∧
      (r.step w = .finish outcome ∨ (r.go w).2.phase.remaining < r.phase.remaining) := by
  rcases step_of_verdict (w := w) h with hstep | ⟨w', r', hstep, hverdict, hremaining⟩
  · exact ⟨by rw [go, hstep]; exact h, .inl hstep⟩
  · exact ⟨by rw [go, hstep]; exact hverdict, .inr (by rw [go, hstep]; exact hremaining)⟩

theorem awaits_eq_none_of_verdict (h : r.verdict? = some outcome) : r.awaits = none := by
  unfold verdict? Phase.verdict? at h
  unfold awaits listed
  split at h <;> rename_i hphase
  case h_5 => cases h
  all_goals
    rw [hphase]
    rfl

/-! ### Courses -/

/-- A resolution among others. Before each of its moves the others do something to the world. -/
def course (others : Nat → World → World) (w : World) (r : Resolution) : Nat → World × Resolution
  | 0 => (others 0 w, r)
  | k + 1 =>
    let after := (course others w r k).2.go (course others w r k).1
    (others (k + 1) after.1, after.2)

section Course

variable (others : Nat → World → World) (w : World) (n : LocalNode) (q : Request) (path : Path)

/-- At some time the resolution is in a phase, and the item still at hand. -/
structure Passes (k : Nat) (phase : Phase) : Prop where
  eq : (course others w (start n q) k).2 = (start n q).inPhase phase
  atHand : IsAtHand n q path (course others w (start n q) k).1

/-- Between two times an outcome comes about: an error just when it is that of a copy that is waited
for. No copies are waited for but those that are listed. -/
structure Decides (k l : Nat) (listed : List CopyId) (outcome : Outcome) : Prop where
  le : k ≤ l
  verdict : (course others w (start n q) l).2.verdict? = some outcome
  error_iff : ∀ e, outcome = .error e ↔ ∃ j, k ≤ j ∧ j < l ∧
    (course others w (start n q) j).2.Fails (course others w (start n q) j).1 e
  awaits : ∀ j c, k ≤ j → j < l → (course others w (start n q) j).2.awaits = some c → c ∈ listed

variable {others w n q path} {k l : Nat} {phase next : Phase} {listed : List CopyId}

/-- An outcome is kept, and the end comes after a few more moves. -/
theorem course_of_verdict (h : (course others w r k).2.verdict? = some outcome) :
    (∀ l, k ≤ l → (course others w r l).2.verdict? = some outcome) ∧
      ∃ l, (course others w r l).2.step (course others w r l).1 = .finish outcome := by
  constructor
  · intro l hl
    obtain ⟨moves, rfl⟩ := Nat.exists_eq_add_of_le hl
    clear hl
    induction moves with
    | zero => exact h
    | succ moves ih => exact (go_of_verdict ih).1
  · generalize hleft : (course others w r k).2.phase.remaining = left
    induction left using Nat.strongRecOn generalizing k with
    | ind left ih =>
      obtain ⟨hverdict, hstep | hless⟩ := go_of_verdict (w := (course others w r k).1) h
      · exact ⟨k, hstep⟩
      · exact ih _ (hleft ▸ hless) (k := k + 1) hverdict rfl

/-- A move that leaves the item at hand leads on to the next phase. -/
theorem Passes.move (h : Passes others w n q path k phase) {v : World}
    (hothers : ∀ k v, IsAtHand n q path v → IsAtHand n q path (others k v))
    (hgo : ((start n q).inPhase phase).go (course others w (start n q) k).1 =
      (v, (start n q).inPhase next)) (hv : IsAtHand n q path v) :
    Passes others w n q path (k + 1) next := by
  rw [← h.eq] at hgo
  constructor
  · simp only [course, hgo]
  · simp only [course, hgo]
    exact hothers (k + 1) v hv

/-- A move to an outcome. -/
theorem Passes.decides (h : Passes others w n q path k phase) {v : World}
    (hgo : ((start n q).inPhase phase).go (course others w (start n q) k).1 =
      (v, (start n q).inPhase (.leaving outcome)))
    (herror : ∀ e, outcome = .error e ↔
      ((start n q).inPhase phase).Fails (course others w (start n q) k).1 e)
    (hawaits : ∀ c, ((start n q).inPhase phase).awaits = some c → c ∈ listed) :
    Decides others w n q k (k + 1) listed outcome := by
  rw [← h.eq] at hgo herror hawaits
  refine ⟨Nat.le_succ k, ?_, fun e => ?_, fun j c hk hj hc => ?_⟩
  · simp only [course, hgo]
    rfl
  · rw [herror]
    constructor
    · exact fun hfails => ⟨k, Nat.le_refl k, Nat.lt_succ_self k, hfails⟩
    · rintro ⟨j, hk, hj, hfails⟩
      obtain rfl : j = k := by omega
      exact hfails
  · obtain rfl : j = k := by omega
    exact hawaits c hc

/-- A move after which an outcome comes about, and which does not wait for a copy that failed. -/
theorem Decides.before {others : Nat → World → World} {w : World} {pending : List CopyId}
    (h : Decides others w n q (k + 1) l pending outcome)
    (hfails : ∀ e, ¬ (course others w (start n q) k).2.Fails (course others w (start n q) k).1 e)
    (hawaits : ∀ c, (course others w (start n q) k).2.awaits = some c → c ∈ listed)
    (hsub : ∀ c ∈ pending, c ∈ listed) : Decides others w n q k l listed outcome := by
  obtain ⟨hle, hverdict, herror, hpending⟩ := h
  refine ⟨by omega, hverdict, fun e => ?_, fun j c hk hj hc => ?_⟩
  · rw [herror]
    constructor
    · rintro ⟨j, hk, hj, hj'⟩
      exact ⟨j, by omega, hj, hj'⟩
    · rintro ⟨j, hk, hj, hj'⟩
      rcases Nat.eq_or_lt_of_le hk with rfl | hlt
      · exact absurd hj' (hfails e)
      · exact ⟨j, hlt, hj, hj'⟩
  · rcases Nat.eq_or_lt_of_le hk with rfl | hlt
    · exact hawaits c hc
    · exact hsub c (hpending j c hlt hj hc)

/-- A resolution that has no copy left to wait for uses the replicas of the node. -/
theorem Passes.decides_of_joining_nil (h : Passes others w n q path k (.joining []))
    (hothers : ∀ k v, IsAtHand n q path v → IsAtHand n q path (others k v))
    (here : q.target.pathIn n.id = some path) :
    Decides others w n q k (k + 2) [] (.ok (.path path)) := by
  have hnone : ∀ {phase : Phase} {v : World} {e : TransferError}, phase.listed = [] →
      ¬ ((start n q).inPhase phase).Fails v e := by
    rintro phase v e hlisted ⟨c, hc, -⟩
    have hc : phase.listed.head? = some c := hc
    rw [hlisted] at hc
    cases hc
  have hreplicas : Passes others w n q path (k + 1) .replicas := h.move hothers rfl h.atHand
  obtain ⟨w', hgo⟩ := exists_go_replicas hreplicas.atHand here
  have hdecides : Decides others w n q (k + 1) (k + 2) [] (.ok (.path path)) :=
    hreplicas.decides hgo (fun e => iff_of_false (fun h => by cases h) (hnone rfl))
      fun c hc => by cases hc
  refine hdecides.before (fun e => ?_) (fun c hc => ?_) fun c hc => hc
  · rw [h.eq]
    exact hnone rfl
  · rw [h.eq] at hc
    cases hc

theorem awaits_joining (r : Resolution) (c : CopyId) (rest : List CopyId) :
    (r.inPhase (.joining (c :: rest))).awaits = some c := rfl

/-- The first of the copies is finished, and the others are still to be waited for. -/
theorem Passes.exists_decides_of_isFinished
    (h : Passes others w n q path k (.joining (c :: rest)))
    (hothers : ∀ k v, IsAtHand n q path v → IsAtHand n q path (others k v))
    (hc : ((course others w (start n q) k).1.copies.get c).isFinished = true)
    (hrest : Passes others w n q path (k + 1) (.joining rest) →
      ∃ l outcome, Decides others w n q (k + 1) l rest outcome) :
    ∃ l outcome, Decides others w n q k l (c :: rest) outcome := by
  obtain ⟨outcome, houtcome⟩ := Option.isSome_iff_exists.1 hc
  have hfails : ∀ e, ((start n q).inPhase (.joining (c :: rest))).Fails
      (course others w (start n q) k).1 e ↔ outcome = .error e := by
    intro e
    constructor
    · rintro ⟨other, hother, hfailed⟩
      cases hother
      rw [houtcome] at hfailed
      exact Option.some.inj hfailed
    · rintro rfl
      exact ⟨c, rfl, houtcome⟩
  have hmem : ∀ other, ((start n q).inPhase (.joining (c :: rest))).awaits = some other →
      other ∈ c :: rest := by
    rintro other ⟨⟩
    exact List.mem_cons_self
  cases outcome with
  | error e =>
    exact ⟨_, _, h.decides (go_of_error houtcome) (fun e' => (hfails e').symm) hmem⟩
  | ok target =>
    rcases go_of_ok (start n q) rest houtcome with ⟨v, t, hgo⟩ | hgo
    · refine ⟨_, _, h.decides hgo (fun e => ?_) hmem⟩
      rw [hfails]
      exact iff_of_false (fun h => by cases h) fun h => by cases h
    · obtain ⟨l, outcome, hdecides⟩ := hrest (h.move hothers hgo h.atHand)
      refine ⟨l, outcome, hdecides.before (fun e => ?_) (fun other hother => ?_)
        fun _ => List.mem_cons_of_mem _⟩
      · rw [h.eq, hfails]
        exact fun h => by cases h
      · rw [h.eq] at hother
        exact hmem other hother

/-- **An outcome comes about**, as long as every copy that is waited for is finished at some
time. -/
theorem exists_decides (hothers : ∀ k v, IsAtHand n q path v → IsAtHand n q path (others k v))
    (hends : ∀ k c, (course others w (start n q) k).2.awaits = some c →
      ∃ l, k ≤ l ∧ ((course others w (start n q) l).1.copies.get c).isFinished = true)
    (here : q.target.pathIn n.id = some path) (h : Passes others w n q path k (.joining pending)) :
    ∃ l outcome, Decides others w n q k l pending outcome := by
  induction pending generalizing k with
  | nil => exact ⟨_, _, h.decides_of_joining_nil hothers here⟩
  | cons c rest ih =>
    obtain ⟨l, hkl, hl⟩ := hends k c (by rw [h.eq, awaits_joining])
    obtain ⟨moves, rfl⟩ := Nat.exists_eq_add_of_le hkl
    clear hkl
    -- The resolution stays as it is up to the first time at which the copy is finished.
    induction moves generalizing k with
    | zero => exact h.exists_decides_of_isFinished hothers hl ih
    | succ moves ihmoves =>
      cases hc : ((course others w (start n q) k).1.copies.get c).outcome with
      | some outcome =>
        exact h.exists_decides_of_isFinished hothers (Option.isSome_iff_exists.2 ⟨_, hc⟩) ih
      | none =>
        have hlater := h.move hothers (go_of_outcome_eq_none hc) h.atHand
        obtain ⟨l, outcome, hdecides⟩ := ihmoves hlater (by rwa [Nat.succ_add_eq_add_succ])
        refine ⟨l, outcome, hdecides.before (fun e => ?_) (fun other hother => ?_)
          fun _ hmem => hmem⟩
        · rw [h.eq]
          rintro ⟨other, hother, hfailed⟩
          cases hother
          rw [hc] at hfailed
          cases hfailed
        · rw [h.eq, awaits_joining] at hother
          cases hother
          exact List.mem_cons_self

/-- **A resolution of an item that is at hand always ends**, whatever the others do meanwhile, if
they leave the item at hand and every copy that is waited for is finished at some time. It ends
well, unless a copy that it waits for has ended with an error: then it ends with that error. The
copies that it waits for are among those that were in progress when it looked. -/
theorem ends_unless_copy_fails (here : q.target.pathIn n.id = some path)
    (hw : IsAtHand n q path w)
    (hothers : ∀ k v, IsAtHand n q path v → IsAtHand n q path (others k v))
    (hends : ∀ k c, (course others w (start n q) k).2.awaits = some c →
      ∃ l, k ≤ l ∧ ((course others w (start n q) l).1.copies.get c).isFinished = true) :
    ∃ k outcome, (course others w (start n q) k).2.step (course others w (start n q) k).1 =
        .finish outcome ∧
      (∀ e, outcome = .error e ↔ ∃ j c, (course others w (start n q) j).2.awaits = some c ∧
        ((course others w (start n q) j).1.copies.get c).outcome = some (.error e)) ∧
      ∀ j c, (course others w (start n q) j).2.awaits = some c →
        c ∈ (course others w (start n q) 2).1.copiesTo q.item n.id := by
  have h₀ : Passes others w n q path 0 .start := ⟨rfl, hothers 0 w hw⟩
  have h₁ := h₀.move hothers (go_start h₀.atHand) h₀.atHand
  have h₂ := h₁.move hothers (go_resident h₁.atHand) h₁.atHand
  have h₃ : Passes others w n q path 3 (.joining _) := h₂.move hothers rfl h₂.atHand.pin
  obtain ⟨l, outcome, -, hverdict, herror, hawaits⟩ := exists_decides hothers hends here h₃
  obtain ⟨hkept, k, hstep⟩ := course_of_verdict hverdict
  -- Nothing is waited for before the copies are listed, or once there is an outcome.
  have hwithin : ∀ j c, (course others w (start n q) j).2.awaits = some c → 3 ≤ j ∧ j < l := by
    intro j c hc
    constructor
    · by_contra hj
      obtain rfl | rfl | rfl : j = 0 ∨ j = 1 ∨ j = 2 := by omega
      · rw [h₀.eq] at hc
        cases hc
      · rw [h₁.eq] at hc
        cases hc
      · rw [h₂.eq] at hc
        cases hc
    · by_contra hj
      rw [awaits_eq_none_of_verdict (hkept j (by omega))] at hc
      cases hc
  refine ⟨k, outcome, hstep, fun e => ?_, fun j c hc => ?_⟩
  · rw [herror]
    constructor
    · rintro ⟨j, -, -, c, hc, hfailed⟩
      exact ⟨j, c, hc, hfailed⟩
    · rintro ⟨j, c, hc, hfailed⟩
      obtain ⟨hj, hjl⟩ := hwithin j c hc
      exact ⟨j, hj, hjl, c, hc, hfailed⟩
  · obtain ⟨hj, hjl⟩ := hwithin j c hc
    exact hawaits j c hj hjl hc

/-- To finish a copy changes nothing of what is at hand. -/
theorem IsAtHand.complete (h : IsAtHand n q path w) (c : CopyId) (outcome : Outcome) :
    IsAtHand n q path (w.complete c outcome) := ⟨h.noKey, h.noValue, h.exists_source⟩

/-- A copy that is waited for has delivered a file that is gone. The node goes on to its own replica
and brings it to the target. -/
theorem ends_unless_copy_fails_lost_file :
    let node : LocalNode := ⟨1, "n1", ⟨"n1"⟩, .authoritative⟩
    let world : World :=
      { files := (Files.empty.put ["tmp", "work", "n1"] .directory).put
          ["tmp", "work", "n1", "x"] (.file [120])
        items := Cells.empty.push { Item.named "x" with
          locations := [.file [⟨1, ⟨"n1/x"⟩⟩]] }
        copies := .empty
        directory := Directory.empty.register (.own node) }
    let first : Request := ⟨0, none, .file [⟨1, ⟨"missing/a"⟩⟩], none, none⟩
    let second : Request := ⟨0, none, .file [⟨1, ⟨"n1/b"⟩⟩], none, none⟩
    let begun := (world.joinOrStart 1 first).1
    let others (k : Nat) (v : World) : World :=
      if k = 5 then v.complete 0 (.ok (.path ⟨"n1/gone"⟩)) else v
    begun.copiesTo 0 1 = [0] ∧ IsAtHand node second ⟨"n1/b"⟩ begun ∧
      ∃ k outcome, (course others begun (start node second) k).2.step
          (course others begun (start node second) k).1 = .finish outcome ∧
        (∀ e, outcome = .error e ↔ ∃ j c,
          (course others begun (start node second) j).2.awaits = some c ∧
            ((course others begun (start node second) j).1.copies.get c).outcome =
              some (.error e)) ∧
        ∀ j c, (course others begun (start node second) j).2.awaits = some c → c = 0 := by
  intro node world first second begun others
  have source : begun.CanBring ⟨"n1/b"⟩ ⟨"n1/x"⟩ :=
    .inr ⟨⟨[120], by decide +kernel⟩, ["tmp", "work", "n1", "b"], by decide +kernel⟩
  have atHand : IsAtHand node second ⟨"n1/b"⟩ begun :=
    ⟨by decide +kernel, rfl, ⟨"n1/x"⟩, by decide +kernel, source⟩
  have kept : ∀ k v, IsAtHand node second ⟨"n1/b"⟩ v →
      IsAtHand node second ⟨"n1/b"⟩ (others k v) := by
    intro k v h
    by_cases hk : k = 5
    · simp only [others, if_pos hk]
      exact h.complete 0 _
    · simp only [others, if_neg hk]
      exact h
  have early : ∀ k < 8, (course others begun (start node second) k).2.awaits = none ∨
      k ≤ 5 ∧ (course others begun (start node second) k).2.awaits = some 0 := by
    decide +kernel
  have verdict : (course others begun (start node second) 8).2.verdict? =
      some (.ok (.path ⟨"n1/b"⟩)) := by
    decide +kernel
  have waits : ∀ k c, (course others begun (start node second) k).2.awaits = some c →
      k ≤ 5 ∧ c = 0 := by
    intro k c hc
    by_cases hk : k < 8
    · rcases early k hk with hnone | ⟨hle, hzero⟩
      · rw [hnone] at hc
        cases hc
      · rw [hzero] at hc
        exact ⟨hle, (Option.some.inj hc).symm⟩
    · rw [awaits_eq_none_of_verdict ((course_of_verdict verdict).1 k (by omega))] at hc
      cases hc
  have finished : ((course others begun (start node second) 5).1.copies.get 0).isFinished := by
    decide +kernel
  obtain ⟨k, outcome, hstep, herror, -⟩ := ends_unless_copy_fails rfl atHand kept
    fun k c hc => ⟨5, (waits k c hc).1, (waits k c hc).2 ▸ finished⟩
  exact ⟨by decide +kernel, atHand, k, outcome, hstep, herror, fun j c hc => (waits j c hc).2⟩

/-- A copy that is waited for fails, because its own target cannot be written. The resolution ends
with that error, although the node has the item in a file that it could bring to its target. -/
theorem fails_with_copy :
    let node : LocalNode := ⟨1, "n1", ⟨"n1"⟩, .authoritative⟩
    let world : World :=
      { files := (Files.empty.put ["tmp", "work", "n1"] .directory).put
          ["tmp", "work", "n1", "x"] (.file [120])
        items := Cells.empty.push { Item.named "x" with
          locations := [.file [⟨1, ⟨"n1/x"⟩⟩]] }
        copies := .empty
        directory := Directory.empty.register (.own node) }
    let first : Request := ⟨0, none, .file [⟨1, ⟨"missing/a"⟩⟩], none, none⟩
    let second : Request := ⟨0, none, .file [⟨1, ⟨"n1/b"⟩⟩], none, none⟩
    let begun := (world.joinOrStart 1 first).1
    let error : TransferError := .exhausted "x" first.target.toText
    let others (k : Nat) (v : World) : World := if k = 5 then v.complete 0 (.error error) else v
    begun.copiesTo 0 1 = [0] ∧ IsAtHand node second ⟨"n1/b"⟩ begun ∧
      (∀ k v, IsAtHand node second ⟨"n1/b"⟩ v → IsAtHand node second ⟨"n1/b"⟩ (others k v)) ∧
      ((course others begun (start node second) 5).1.copies.get 0).isFinished = true ∧
      ∃ k, (course others begun (start node second) k).2.step
        (course others begun (start node second) k).1 = .finish (.error error) := by
  intro node world first second begun error others
  have source : begun.CanBring ⟨"n1/b"⟩ ⟨"n1/x"⟩ :=
    .inr ⟨⟨[120], by decide +kernel⟩, ["tmp", "work", "n1", "b"], by decide +kernel⟩
  have verdict : (course others begun (start node second) 6).2.verdict? = some (.error error) := by
    decide +kernel
  refine ⟨by decide +kernel, ⟨by decide +kernel, rfl, ⟨"n1/x"⟩, by decide +kernel, source⟩,
    fun k v h => ?_, by decide +kernel, (course_of_verdict verdict).2⟩
  by_cases hk : k = 5
  · simp only [others, if_pos hk]
    exact h.complete 0 _
  · simp only [others, if_neg hk]
    exact h

end Course

end Resolution

end Wharf
