import Wharf.Proofs.Worker.Slots

/-!
# Slots that are not given back as they were taken

Nobody keeps a caller from giving back what was never taken, or from giving it back twice. The slots
of a worker stay within their bounds all the same, as long as the sums can be written down.

* `Slots.reserveInPlace` and `Slots.releaseInPlace` change one record step by step: a reservation
  writes the dimensions one after the other, and a release counts first, adds then, and cuts in the
  end. They come to what `Slots.reserve?` and `Slots.release` say (`Slots.run_inPlace`).
* `Slots.Reached` are the records that calls lead to, whatever they take or give back. All of them
  are within the bounds (`Slots.Reached.within`), and `Slots.stays_in_bounds` says what any further
  call does to them.
-/

namespace Wharf

namespace Slots

variable {s t : Slots} {ceiling : Nat} {demand total : Consumables}

/-- A call of someone who wants slots or has had some. -/
inductive Call
  | reserve (demand : Consumables)
  | release (demand : Consumables)
  deriving DecidableEq

/-- The answer to a call, and the slots after it; none when an addition gets out of range. -/
def call? (s : Slots) (total : Consumables) : Call → Option (Bool × Slots)
  | .reserve demand =>
    match s.reserve? demand with
    | some t => some (true, t)
    | none => some (false, s)
  | .release demand =>
    (s.release demand total).map fun released => (released.matched, released.slots)

/-! ### Step by step -/

/-- Combines what is free in a dimension with what is demanded there. -/
def writeInPlace (f : Amount → Amount → Option Amount) (entry : Nat × Amount) :
    StateT Slots Option Unit := do
  let s ← get
  let a ← f (s.free.get entry.1) entry.2
  set { s with free := s.free.set entry.1 a }

/-- Takes a slot and a demand. -/
def reserveInPlace (demand : Consumables) : StateT Slots Option Bool := do
  if !(← get).hasFree then return false
  if !(← get).free.covers demand then return false
  forM demand.demands (writeInPlace Amount.sub?)
  modify fun s => { s with used := s.used + 1 }
  return true

/-- Gives back a slot and a demand. -/
def releaseInPlace (demand total : Consumables) : StateT Slots Option Bool := do
  let inUse := decide (0 < (← get).used)
  modify fun s => { s with used := s.used - 1 }
  forM demand.demands (writeInPlace Amount.add?)
  if total.covers (← get).free then return inUse
  modify fun s => { s with free := s.free.clampedTo total }
  return false

/-- The steps of a call. -/
def Call.inPlace (total : Consumables) : Call → StateT Slots Option Bool
  | .reserve demand => reserveInPlace demand
  | .release demand => releaseInPlace demand total

/-- Writing all dimensions is a pass over the free amounts. -/
theorem run_forM_writeInPlace (f : Amount → Amount → Option Amount)
    (entries : List (Nat × Amount)) (s : Slots) :
    (forM entries (writeInPlace f)).run s =
      (entries.foldlM (Consumables.combine f) s.free).map fun free =>
        ((), { s with free := free }) := by
  induction entries generalizing s with
  | nil => rfl
  | cons entry rest ih =>
    rw [List.forM_cons, List.foldlM_cons, StateT.run_bind]
    cases hwrite : f (s.free.get entry.1) entry.2 with
    | none => simp [writeInPlace, Consumables.combine, hwrite]
    | some a => simp [writeInPlace, Consumables.combine, hwrite, ih]

/-- Once the demand was found to be there, no subtraction fails. -/
theorem run_reserveInPlace (s : Slots) (demand total : Consumables) :
    (reserveInPlace demand).run s = s.call? total (.reserve demand) := by
  have hremove := Consumables.remove?_eq_subtract? s.free demand
  rw [Consumables.subtract?, Consumables.remove?] at hremove
  unfold reserveInPlace call? reserve? Consumables.remove?
  cases hslot : s.hasFree with
  | false => simp [hslot]
  | true =>
    cases hcovers : s.free.covers demand with
    | false => simp [hslot, hcovers]
    | true =>
      rw [hcovers, if_pos rfl] at hremove
      simp [hslot, hcovers, run_forM_writeInPlace, ← hremove]

theorem run_releaseInPlace (s : Slots) (demand total : Consumables) :
    (releaseInPlace demand total).run s = s.call? total (.release demand) := by
  have hadd : s.free.add? demand =
      demand.demands.foldlM (Consumables.combine Amount.add?) s.free := rfl
  simp only [releaseInPlace, call?, release, hadd]
  cases hpass : demand.demands.foldlM (Consumables.combine Amount.add?) s.free with
  | none => simp [run_forM_writeInPlace, hpass]
  | some free =>
    by_cases hwithin : total.covers free = true
    · simp [run_forM_writeInPlace, hpass, hwithin]
    · simp [run_forM_writeInPlace, hpass, hwithin]

/-- **Step by step a call does what it should**, and only an addition can stop it. -/
theorem run_inPlace (s : Slots) (total : Consumables) (c : Call) :
    (c.inPlace total).run s = s.call? total c := by
  cases c with
  | reserve demand => exact run_reserveInPlace s demand total
  | release demand => exact run_releaseInPlace s demand total

/-! ### One call -/

/-- A reservation goes through when a slot is left and every dimension holds what is demanded. -/
theorem isSome_reserve?_iff :
    (s.reserve? demand).isSome ↔
      s.used < s.ceiling ∧ ∀ id, demand.get id ≤ s.free.get id := by
  unfold reserve? hasFree Consumables.remove?
  rw [← Consumables.covers_iff]
  by_cases hslot : s.used < s.ceiling <;> by_cases hcovers : s.free.covers demand = true <;>
    simp [hslot, hcovers]

/-- A release goes through when all sums are in range. -/
theorem isSome_release_iff :
    (s.release demand total).isSome ↔
      ∀ id, (s.free.get id).count + (demand.get id).count < 1 <<< 64 := by
  rw [release, Option.isSome_map, Option.isSome_iff_exists]
  constructor
  · rintro ⟨free, hadd⟩ id
    rw [Consumables.add?_eq_some_iff.1 hadd id]
    exact (free.get id).count_lt
  · exact Consumables.exists_add?

/-- The slots are within their bounds. -/
structure Within (ceiling : Nat) (total : Consumables) (s : Slots) : Prop where
  ceiling_eq : s.ceiling = ceiling
  used_le : s.used ≤ ceiling
  free_le : ∀ id, s.free.get id ≤ total.get id

theorem within_idle (ceiling : Nat) (total : Consumables) :
    Within ceiling total (idle ceiling total) where
  ceiling_eq := rfl
  used_le := Nat.zero_le _
  free_le _ := Nat.le_refl _

/-- **A call keeps the bounds**, whatever is taken or given back. -/
theorem Within.call (h : Within ceiling total s) {c : Call} {answer : Bool}
    (called : s.call? total c = some (answer, t)) : Within ceiling total t := by
  cases c with
  | reserve demand =>
    cases hreserve : s.reserve? demand with
    | none =>
      simp only [call?, hreserve] at called
      cases called
      exact h
    | some u =>
      simp only [call?, hreserve] at called
      cases called
      obtain ⟨hlt, hceiling, hused, hfree⟩ := reserve?_eq_some_iff.1 hreserve
      rw [h.ceiling_eq] at hlt hceiling
      refine ⟨hceiling, by omega, fun id => ?_⟩
      have hbound := Amount.le_def.1 (h.free_le id)
      have hfree := hfree id
      rw [Amount.le_def]
      omega
  | release demand =>
    obtain ⟨released, hrelease, heq⟩ := Option.map_eq_some_iff.1 called
    cases heq
    have hgives := givesBack_of_release hrelease
    have hle := h.used_le
    exact ⟨hgives.ceiling_eq.trans h.ceiling_eq, by rw [hgives.used_eq]; omega,
      free_release_le hrelease⟩

/-! ### Any calls -/

/-- The slots that calls lead to from idle ones. A call that gets out of range leads nowhere. -/
inductive Reached (ceiling : Nat) (total : Consumables) : Slots → Prop
  | idle : Reached ceiling total (.idle ceiling total)
  | call {s t : Slots} (h : Reached ceiling total s) {c : Call} {answer : Bool}
      (called : s.call? total c = some (answer, t)) : Reached ceiling total t

theorem Reached.within (h : Reached ceiling total s) : Within ceiling total s := by
  induction h with
  | idle => exact within_idle ceiling total
  | call _ called ih => exact ih.call called

/-- **Slots stay within their bounds**, whatever is taken and given back. A reservation always
answers; if it is refused nothing has changed. A release answers just when all sums are in range. It
lowers the count unless that is zero, leaves in every dimension the sum or what was declared,
whichever is less, and matches just when a slot was in use and no dimension had to be cut. -/
theorem stays_in_bounds (h : Reached ceiling total s) :
    s.ceiling = ceiling ∧ s.used ≤ ceiling ∧ (∀ id, s.free.get id ≤ total.get id) ∧
    (∀ c : Call, (c.inPlace total).run s = s.call? total c) ∧
    (∀ demand, ∃ answer t, s.call? total (.reserve demand) = some (answer, t) ∧
      (answer = true ↔ s.used < ceiling ∧ ∀ id, demand.get id ≤ s.free.get id) ∧
      (answer = false → t = s) ∧
      (answer = true → t.ceiling = ceiling ∧ t.used = s.used + 1 ∧
        ∀ id, (s.free.get id).count = (t.free.get id).count + (demand.get id).count)) ∧
    (∀ demand, (s.call? total (.release demand)).isSome ↔
      ∀ id, (s.free.get id).count + (demand.get id).count < 1 <<< 64) ∧
    ∀ demand answer t, s.call? total (.release demand) = some (answer, t) →
      t.ceiling = ceiling ∧ (t.used = if s.used = 0 then 0 else s.used - 1) ∧
      (∀ id, (t.free.get id).count =
        min ((s.free.get id).count + (demand.get id).count) (total.get id).count) ∧
      (answer = true ↔ 0 < s.used ∧
        ∀ id, (s.free.get id).count + (demand.get id).count ≤ (total.get id).count) := by
  have hwithin := h.within
  have hceiling := hwithin.ceiling_eq
  refine ⟨hceiling, hwithin.used_le, hwithin.free_le, s.run_inPlace total, fun demand => ?_,
    fun demand => ?_, fun demand answer t hcall => ?_⟩
  · have hgoes : (s.reserve? demand).isSome ↔
        s.used < s.ceiling ∧ ∀ id, demand.get id ≤ s.free.get id := isSome_reserve?_iff
    cases hreserve : s.reserve? demand with
    | none =>
      rw [hreserve, hceiling] at hgoes
      exact ⟨false, s, by rw [call?, hreserve], by simpa using hgoes, fun _ => rfl,
        fun hno => absurd hno Bool.false_ne_true⟩
    | some t =>
      rw [hreserve, hceiling] at hgoes
      obtain ⟨-, hceiling', hused, hfree⟩ := reserve?_eq_some_iff.1 hreserve
      exact ⟨true, t, by rw [call?, hreserve], by simpa using hgoes,
        fun hno => absurd hno.symm Bool.false_ne_true,
        fun _ => ⟨hceiling'.trans hceiling, hused, hfree⟩⟩
  · rw [call?, Option.isSome_map]
    exact isSome_release_iff
  · obtain ⟨released, hrelease, heq⟩ := Option.map_eq_some_iff.1 hcall
    cases heq
    have hgives := givesBack_of_release hrelease
    refine ⟨hgives.ceiling_eq.trans hceiling, ?_, hgives.count_free, hgives.matched_iff⟩
    rw [hgives.used_eq]
    split <;> omega

/-- Two of a dimension, and one that is not declared at all, are given back without having been
taken, and cut off. Then three of four are taken and two more are refused. To give back five matches
in the number of slots but not in the amount. -/
theorem stays_in_bounds_after_cut :
    let amounts (first other : Nat) : Consumables :=
      .ofAmounts [(0, .saturating first), (7, .saturating other)]
    let total := amounts 4 0
    let s : Slots := ⟨2, 1, amounts 1 0⟩
    Reached 2 total s ∧ s.used ≤ 2 ∧ (∀ id, s.free.get id ≤ total.get id) ∧
      s.call? total (.reserve (amounts 2 0)) = some (false, s) ∧
      ∃ t, s.call? total (.release (amounts 5 1)) = some (false, t) ∧ t.used = 0 ∧
        (t.free.get 0).count = 4 ∧ (t.free.get 7).count = 0 := by
  intro amounts total s
  let start : Slots := .idle 2 total
  have cut : start.call? total (.release (amounts 2 1)) = some (false, start) := by decide
  have taken : start.call? total (.reserve (amounts 3 0)) = some (true, s) := by decide
  have reached : Reached 2 total s := (Reached.idle.call cut).call taken
  obtain ⟨-, hused, hfree, -, hreserve, -, hrelease⟩ := stays_in_bounds reached
  refine ⟨reached, hused, hfree, ?_, ?_⟩
  · obtain ⟨answer, t, hcall, -, hsame, -⟩ := hreserve (amounts 2 0)
    have hrefused : answer = false := by
      have hanswer : (s.call? total (.reserve (amounts 2 0))).map Prod.fst = some false := by decide
      simpa [hcall] using hanswer
    rw [hcall, hrefused, hsame hrefused]
  · have back : s.call? total (.release (amounts 5 1)) = some (false, ⟨2, 0, total⟩) := by decide
    obtain ⟨-, hcount, hcut, -⟩ := hrelease (amounts 5 1) false _ back
    exact ⟨_, back, hcount, hcut 0, hcut 7⟩

end Slots

end Wharf
