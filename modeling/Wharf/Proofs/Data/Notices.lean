import Mathlib.Data.List.Nodup
import Wharf.Data.Copy

/-!
# Notices of the end of a copy

Many callers share a copy. Each call does its part under the lock of the copy and notifies listeners
afterwards, when others may have had the lock again.

* `Copy.Scene` is a copy with the calls that have had the lock, the notices that these still owe,
  and those that have been given. `Copy.Scene.IsReached` lets the calls come in any order, and the
  notices of different calls be given in any order.
* `Copy.IsFirst` finds the first completion among the calls.
* **Listeners are notified exactly once** (`Copy.Scene.notified_once`), of the first outcome, by the
  first completion or by the call that adds them, whichever is later.
-/

namespace Wharf

theorem getElem?_concat_eq_some {α : Type} {xs : List α} {x y : α} {i : Nat} :
    (xs ++ [x])[i]? = some y ↔ xs[i]? = some y ∨ i = xs.length ∧ x = y := by
  rw [List.getElem?_append]
  split
  · rename_i hi
    simp [Nat.ne_of_lt hi]
  · rename_i hi
    have hnone : xs[i]? = none := List.getElem?_eq_none (Nat.le_of_not_lt hi)
    rw [hnone, List.getElem?_singleton]
    split
    · simp
      omega
    · simp
      omega

namespace Copy

/-! ## Calls and notices -/

/-- What is called. A caller that waits for the end listens, and returns when it is notified. -/
inductive Call
  | listen (listener : ListenerId)
  | complete (outcome : Outcome)
  deriving DecidableEq

/-- A notice of the end. -/
structure Notice where
  /-- The number of the call that gives it. -/
  call : Nat
  listener : ListenerId
  outcome : Outcome
  deriving DecidableEq

/-- A copy among its callers. -/
structure Scene where
  copy : Copy
  /-- In the order in which they had the lock. -/
  calls : List Call
  /-- The notices that are still to be given; those of one call in order. -/
  owed : List Notice
  given : List Notice

namespace Scene

/-- A listener is added. If it comes late, its notice is up to this call. -/
def listen (s : Scene) (listener : ListenerId) : Scene :=
  let listened := s.copy.listen listener
  { s with
    copy := listened.1
    calls := s.calls ++ [.listen listener]
    owed := s.owed ++
      listened.2.toList.map fun outcome => ⟨s.calls.length, listener, outcome⟩ }

/-- The copy is completed. The notices of all who listened are up to this call. -/
def complete (s : Scene) (outcome : Outcome) : Scene :=
  let completion := s.copy.complete outcome
  { s with
    copy := completion.copy
    calls := s.calls ++ [.complete outcome]
    owed := s.owed ++
      completion.notified.map fun listener => ⟨s.calls.length, listener, outcome⟩ }

/-- What can become of a copy that starts. A listener is added once, and a call gives its notices in
order. -/
inductive IsReached : Scene → Prop
  | start (item : String) (source : Option Location) (target : Location)
      (targetItem : Option ItemId) (targetItemHosts : List NodeId) :
      IsReached ⟨Copy.start item source target targetItem targetItemHosts, [], [], []⟩
  | listen {s : Scene} (listener : ListenerId) (h : IsReached s)
      (hnew : .listen listener ∉ s.calls) : IsReached (s.listen listener)
  | complete {s : Scene} (outcome : Outcome) (h : IsReached s) : IsReached (s.complete outcome)
  | notify {s : Scene} {before after : List Notice} {n : Notice} (h : IsReached s)
      (howed : s.owed = before ++ n :: after) (hfirst : ∀ m ∈ before, m.call ≠ n.call) :
      IsReached { s with owed := before ++ after, given := s.given ++ [n] }

/-- All notices to a listener, those that are still to be given included. -/
def noticesTo (s : Scene) (listener : ListenerId) : List Notice :=
  (s.given ++ s.owed).filter fun n => n.listener == listener

/-- A call has had the lock and owes no notice. -/
def HasReturned (s : Scene) (call : Nat) : Prop :=
  call < s.calls.length ∧ ∀ n ∈ s.owed, n.call ≠ call

end Scene

/-- The first completion has a number and an outcome. -/
structure IsFirst (calls : List Call) (number : Nat) (outcome : Outcome) : Prop where
  call_eq : calls[number]? = some (.complete outcome)
  le : ∀ i outcome', calls[i]? = some (.complete outcome') → number ≤ i

theorem IsFirst.append {calls : List Call} {number : Nat} {outcome : Outcome}
    (h : IsFirst calls number outcome) (call : Call) :
    IsFirst (calls ++ [call]) number outcome := by
  refine ⟨getElem?_concat_eq_some.2 (.inl h.call_eq), fun i outcome' hi => ?_⟩
  rcases getElem?_concat_eq_some.1 hi with hi | ⟨rfl, -⟩
  · exact h.le i outcome' hi
  · exact Nat.le_of_lt (List.getElem?_eq_some_iff.1 h.call_eq).1

theorem isFirst_concat {calls : List Call} (hnone : ∀ outcome, .complete outcome ∉ calls)
    (outcome : Outcome) : IsFirst (calls ++ [.complete outcome]) calls.length outcome := by
  refine ⟨List.getElem?_concat_length, fun i outcome' hi => ?_⟩
  rcases getElem?_concat_eq_some.1 hi with hi | ⟨rfl, -⟩
  · exact absurd (List.mem_of_getElem? hi) (hnone outcome')
  · exact Nat.le_refl _

/-! ## Before and after the end -/

namespace Scene

/-- Nothing has ended: all who were added are in the queue, and nobody is told anything. -/
structure Waits (s : Scene) : Prop where
  outcome_eq : s.copy.outcome = none
  not_mem_calls : ∀ outcome, .complete outcome ∉ s.calls
  owed_eq : s.owed = []
  given_eq : s.given = []
  nodup : s.copy.listeners.Nodup
  mem_listeners : ∀ listener, listener ∈ s.copy.listeners ↔ .listen listener ∈ s.calls

/-- The first completion has had the lock: nobody is in the queue, and each listener has got its
notice or is about to get it. -/
structure Ended (s : Scene) (number : Nat) (outcome : Outcome) : Prop where
  outcome_eq : s.copy.outcome = some outcome
  listeners_eq : s.copy.listeners = []
  first : IsFirst s.calls number outcome
  noticesTo : ∀ i listener, s.calls[i]? = some (.listen listener) →
    s.noticesTo listener = [⟨max i number, listener, outcome⟩]
  others : ∀ listener, .listen listener ∉ s.calls → s.noticesTo listener = []

variable {s : Scene}

/-- Giving a notice that is owed does not change who gets which. -/
theorem noticesTo_notify {before after : List Notice} {n : Notice}
    (howed : s.owed = before ++ n :: after) (listener : ListenerId) :
    (Scene.noticesTo { s with owed := before ++ after, given := s.given ++ [n] } listener).Perm
      (s.noticesTo listener) := by
  unfold noticesTo
  apply List.Perm.filter
  rw [howed, List.append_assoc, List.singleton_append]
  exact List.Perm.append_left _ List.perm_middle.symm

namespace Waits

theorem listen (h : s.Waits) {listener : ListenerId} (hnew : .listen listener ∉ s.calls) :
    (s.listen listener).Waits := by
  have hlistened : s.copy.listen listener =
      ({ s.copy with listeners := s.copy.listeners ++ [listener] }, none) := by
    simp [Copy.listen, h.outcome_eq]
  unfold Scene.listen
  rw [hlistened]
  refine ⟨h.outcome_eq, fun outcome hmem => ?_, by simp [h.owed_eq], h.given_eq, ?_,
    fun other => ?_⟩
  · rcases List.mem_append.1 hmem with hmem | hmem
    · exact h.not_mem_calls outcome hmem
    · simp at hmem
  · refine List.nodup_append.2 ⟨h.nodup, List.nodup_singleton _, ?_⟩
    rintro a ha b hb rfl
    rw [List.mem_singleton.1 hb] at ha
    exact hnew ((h.mem_listeners listener).1 ha)
  · rw [List.mem_append, List.mem_append, h.mem_listeners]
    simp

/-- The first completion notifies all who are in the queue. -/
theorem complete (h : s.Waits) (outcome : Outcome) :
    (s.complete outcome).Ended s.calls.length outcome := by
  have hcompletion : s.copy.complete outcome =
      ⟨{ s.copy with outcome := some outcome, listeners := [] }, s.copy.listeners, true⟩ := by
    simp [Copy.complete, h.outcome_eq]
  have hnotices : ∀ listener, (s.complete outcome).noticesTo listener =
      (s.copy.listeners.filter fun l => l == listener).map
        fun l => ⟨s.calls.length, l, outcome⟩ := by
    intro listener
    simp [Scene.complete, Scene.noticesTo, hcompletion, h.owed_eq, h.given_eq, List.filter_map,
      Function.comp_def]
  refine ⟨?_, ?_, isFirst_concat h.not_mem_calls outcome, fun i listener hi => ?_,
    fun listener hno => ?_⟩
  · simp [Scene.complete, hcompletion]
  · simp [Scene.complete, hcompletion]
  · rcases getElem?_concat_eq_some.1 hi with hi | ⟨-, hcall⟩
    · have hmem := (h.mem_listeners listener).2 (List.mem_of_getElem? hi)
      have hi : i ≤ s.calls.length := Nat.le_of_lt (List.getElem?_eq_some_iff.1 hi).1
      rw [hnotices, List.filter_beq, List.count_eq_one_of_mem h.nodup hmem, Nat.max_eq_right hi]
      rfl
    · cases hcall
  · have hmem : listener ∉ s.copy.listeners := by
      rw [h.mem_listeners]
      exact fun hin => hno (List.mem_append_left _ hin)
    rw [hnotices, List.filter_beq, List.count_eq_zero.2 hmem]
    rfl

end Waits

namespace Ended

variable {number : Nat} {outcome : Outcome} (h : s.Ended number outcome)

include h

/-- One who comes late is notified at once. -/
theorem listen {listener : ListenerId} (hnew : .listen listener ∉ s.calls) :
    (s.listen listener).Ended number outcome := by
  have hlistened : s.copy.listen listener = (s.copy, some outcome) := by
    simp [Copy.listen, h.outcome_eq]
  have hnotices : ∀ other, (s.listen listener).noticesTo other =
      s.noticesTo other ++
        if listener = other then [⟨s.calls.length, listener, outcome⟩] else [] := by
    intro other
    simp only [Scene.listen, Scene.noticesTo, hlistened, Option.toList_some, List.map_cons,
      List.map_nil, ← List.append_assoc, List.filter_append _ [_], List.filter_singleton,
      Bool.cond_eq_ite, beq_iff_eq]
  refine ⟨?_, ?_, h.first.append _, fun i other hi => ?_, fun other hno => ?_⟩
  · simp [Scene.listen, hlistened, h.outcome_eq]
  · simp [Scene.listen, hlistened, h.listeners_eq]
  · rcases getElem?_concat_eq_some.1 hi with hi | ⟨rfl, hcall⟩
    · have hne : listener ≠ other := by
        rintro rfl
        exact hnew (List.mem_of_getElem? hi)
      rw [hnotices, if_neg hne, List.append_nil, h.noticesTo i other hi]
    · cases hcall
      have hlast : number ≤ s.calls.length :=
        Nat.le_of_lt (List.getElem?_eq_some_iff.1 h.first.call_eq).1
      rw [hnotices, if_pos rfl, h.others listener hnew, Nat.max_eq_left hlast, List.nil_append]
  · have hne : listener ≠ other := by
      rintro rfl
      exact hno (by simp [Scene.listen])
    rw [hnotices, if_neg hne, List.append_nil]
    exact h.others other fun hin => hno (List.mem_append_left _ hin)

theorem complete_eq (outcome' : Outcome) : s.copy.complete outcome' = ⟨s.copy, [], false⟩ := by
  simp [Copy.complete, h.outcome_eq]

/-- A later completion does nothing. -/
theorem complete (outcome' : Outcome) : (s.complete outcome').Ended number outcome := by
  have hnotices : ∀ listener, (s.complete outcome').noticesTo listener = s.noticesTo listener := by
    intro listener
    simp [Scene.complete, Scene.noticesTo, h.complete_eq]
  refine ⟨?_, ?_, h.first.append _, fun i listener hi => ?_, fun listener hno => ?_⟩
  · simp [Scene.complete, h.complete_eq, h.outcome_eq]
  · simp [Scene.complete, h.complete_eq, h.listeners_eq]
  · rcases getElem?_concat_eq_some.1 hi with hi | ⟨-, hcall⟩
    · rw [hnotices, h.noticesTo i listener hi]
    · cases hcall
  · rw [hnotices]
    exact h.others listener fun hin => hno (List.mem_append_left _ hin)

theorem notify {before after : List Notice} {n : Notice} (howed : s.owed = before ++ n :: after) :
    Ended { s with owed := before ++ after, given := s.given ++ [n] } number outcome := by
  refine ⟨h.outcome_eq, h.listeners_eq, h.first, fun i listener hi => ?_, fun listener hno => ?_⟩
  · have hperm := noticesTo_notify howed listener
    rw [h.noticesTo i listener hi] at hperm
    exact List.perm_singleton.1 hperm
  · have hperm := noticesTo_notify howed listener
    rw [h.others listener hno] at hperm
    exact List.perm_nil.1 hperm

end Ended

theorem IsReached.waits_or_ended (h : s.IsReached) :
    s.Waits ∨ ∃ number outcome, s.Ended number outcome := by
  induction h with
  | start item source target targetItem targetItemHosts =>
    refine .inl ⟨rfl, by simp, rfl, rfl, ?_, ?_⟩
    · simp [Copy.start]
    · simp [Copy.start]
  | listen listener _ hnew ih =>
    rcases ih with h | ⟨number, outcome, h⟩
    · exact .inl (h.listen hnew)
    · exact .inr ⟨number, outcome, h.listen hnew⟩
  | complete outcome' _ ih =>
    rcases ih with h | ⟨number, outcome, h⟩
    · exact .inr ⟨_, outcome', h.complete outcome'⟩
    · exact .inr ⟨number, outcome, h.complete outcome'⟩
  | notify _ howed _ ih =>
    rcases ih with h | ⟨number, outcome, h⟩
    · rw [h.owed_eq] at howed
      simp at howed
    · exact .inr ⟨number, outcome, h.notify howed⟩

theorem Ended.eq_of_isFirst {number number' : Nat} {outcome outcome' : Outcome}
    (h : s.Ended number outcome) (h' : IsFirst s.calls number' outcome') :
    number = number' ∧ outcome = outcome' := by
  have heq : number = number' :=
    Nat.le_antisymm (h.first.le _ _ h'.call_eq) (h'.le _ _ h.first.call_eq)
  have hcall := h.first.call_eq
  rw [heq, h'.call_eq] at hcall
  cases hcall
  exact ⟨heq, rfl⟩

/-- **Listeners are notified exactly once.** However calls and notices are interleaved, nobody is in
the queue of a copy with an outcome. As long as there has been no completion, nobody has been told
anything, those who were added are in the queue, and a completion would be accepted. Once there has
been one, each listener that was added has one notice and no other. It is of the first outcome, it
is up to the first completion or to the call that added the listener, whichever came later, and
when that call has returned it has been given. Others have no notice, and further completions are
refused without a change. -/
theorem notified_once (h : s.IsReached) :
    (s.copy.outcome.isSome = true → s.copy.listeners = []) ∧
      ((∀ outcome, .complete outcome ∉ s.calls) →
        s.copy.outcome = none ∧
          (∀ listener, listener ∈ s.copy.listeners ↔ .listen listener ∈ s.calls) ∧
          (∀ listener, s.noticesTo listener = []) ∧
          ∀ outcome, (s.copy.complete outcome).accepted = true) ∧
      ∀ number outcome, IsFirst s.calls number outcome →
        s.copy.outcome = some outcome ∧
          (∀ i listener, s.calls[i]? = some (.listen listener) →
            s.noticesTo listener = [⟨max i number, listener, outcome⟩] ∧
              (s.HasReturned (max i number) → ⟨max i number, listener, outcome⟩ ∈ s.given)) ∧
          (∀ listener, .listen listener ∉ s.calls → s.noticesTo listener = []) ∧
          ∀ outcome', s.copy.complete outcome' = ⟨s.copy, [], false⟩ := by
  rcases h.waits_or_ended with hwaits | ⟨number, outcome, hended⟩
  · refine ⟨fun hsome => ?_, fun _ => ⟨hwaits.outcome_eq, hwaits.mem_listeners, ?_, ?_⟩,
      fun number outcome hfirst => ?_⟩
    · simp [hwaits.outcome_eq] at hsome
    · simp [noticesTo, hwaits.given_eq, hwaits.owed_eq]
    · simp [Copy.complete, hwaits.outcome_eq]
    · exact absurd (List.mem_of_getElem? hfirst.call_eq) (hwaits.not_mem_calls outcome)
  · refine ⟨fun _ => hended.listeners_eq, fun hnone => ?_, fun number' outcome' hfirst => ?_⟩
    · exact absurd (List.mem_of_getElem? hended.first.call_eq) (hnone outcome)
    · obtain ⟨rfl, rfl⟩ := hended.eq_of_isFirst hfirst
      refine ⟨hended.outcome_eq, fun i listener hi => ?_, hended.others, hended.complete_eq⟩
      have hone := hended.noticesTo i listener hi
      refine ⟨hone, fun hreturned => ?_⟩
      -- The one notice is owed or given, and the call owes none any more.
      have hmem : ⟨max i number, listener, outcome⟩ ∈ s.noticesTo listener := by simp [hone]
      rcases List.mem_append.1 (List.mem_filter.1 hmem).1 with hgiven | howed
      · exact hgiven
      · exact absurd rfl (hreturned.2 _ howed)

/-- A listener comes while the notices of the completion are still owed, and is notified before
them. Then the copy is completed a second time. -/
theorem notified_once_between :
    let first : Outcome := .ok (.object "x")
    let second : Outcome := .error (.failed "x" "late")
    let started : Scene := ⟨Copy.start "x" none (.memory 1 "x") none [], [], [], []⟩
    let called := (((started.listen 0).complete first).listen 1).complete second
    let s : Scene := { called with owed := [⟨1, 0, first⟩], given := [⟨2, 1, first⟩] }
    s.IsReached ∧ IsFirst s.calls 1 first ∧ s.copy.outcome = some first ∧
      s.noticesTo 0 = [⟨1, 0, first⟩] ∧ s.noticesTo 1 = [⟨2, 1, first⟩] ∧
      s.HasReturned 2 ∧ ⟨2, 1, first⟩ ∈ s.given ∧
      s.copy.complete second = ⟨s.copy, [], false⟩ := by
  intro first second started called s
  have hcalled : called.IsReached :=
    .complete second (.listen 1 (.complete first (.listen 0 (.start ..) (by decide))) (by decide))
  have hs : s.IsReached :=
    @IsReached.notify _ [⟨1, 0, first⟩] [] ⟨2, 1, first⟩ hcalled rfl (by simp)
  have hcompleted : IsFirst ([.listen 0] ++ [.complete first]) 1 first :=
    isFirst_concat (by simp) first
  have hfirst : IsFirst s.calls 1 first := (hcompleted.append (.listen 1)).append (.complete second)
  have hreturned : s.HasReturned 2 := ⟨by decide, by simp [s]⟩
  obtain ⟨-, -, hended⟩ := notified_once hs
  obtain ⟨houtcome, hnotices, -, hrefused⟩ := hended 1 first hfirst
  exact ⟨hs, hfirst, houtcome, (hnotices 0 0 rfl).1, (hnotices 2 1 rfl).1, hreturned,
    (hnotices 2 1 rfl).2 hreturned, hrefused second⟩

end Scene

end Copy

end Wharf
