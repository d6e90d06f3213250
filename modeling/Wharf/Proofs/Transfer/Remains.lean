import Wharf.Proofs.Transfer.Accounts
import Wharf.Proofs.Transfer.Outcomes
import Wharf.Proofs.Transfer.Sharing

/-!
# What a call leaves behind

A node gets hold of an item, and nothing else goes on. When the call returns, the pins and copies
are those that were there before, and next to nothing else has changed.

* What is known of the items stays the same until somebody says that the item is at the target. Then
  the target is all that is gained (`Frame.HasSpread`).
* `Thread.leaves_nothing_else` is what follows for the call as a whole.
-/

namespace Wharf

namespace Frame

variable {w₀ w w' : World} {q : Request} {f f' : Frame}

/-- What is known of the items is the same until the frame says that the item is at the target. The
target is all that is gained by then. -/
structure HasSpread (w₀ : World) (q : Request) (w : World) (f : Frame) : Prop where
  told : f.report? = none → w₀.SameItems w
  gained : w₀.SameItems w ∨ w₀.Gains q q.target w

namespace HasSpread

theorem of_sameItems (h : HasSpread w₀ q w f) (same : w.SameItems w')
    (silent : f'.report? = none → f.report? = none) : HasSpread w₀ q w' f' where
  told hsilent := (h.told (silent hsilent)).trans same
  gained := h.gained.imp (fun before => before.trans same) fun gains => gains.trans_sameItems same

theorem of_report (h : HasSpread w₀ q w f) (report : f'.report? = f.report?) :
    HasSpread w₀ q w f' :=
  h.of_sameItems (.refl w) fun hsilent => report.symm.trans hsilent

theorem postponed (h : HasSpread w₀ q w f) (i : ItemId) :
    (w.items.get i).postponed = (w₀.items.get i).postponed := by
  rcases h.gained with same | gains
  · exact (same i).postponed
  · by_cases hi : q.targetItem = some i
    · exact (gains.gained i hi).postponed
    · exact (gains.elsewhere i hi).postponed

/-- **Nothing but the target is gained**, whatever the frame does, unless the item had a key. -/
theorem advance (h : HasSpread w₀ q w f) (alike : q.Alike f.request)
    (noKey : (w₀.items.get q.item).key? = none) (settled : (w₀.items.get q.item).IsSettled)
    (held : (w₀.items.get q.item).pins + f.pins ≤ (w.items.get q.item).pins)
    (hstep : f.step w = .advance w' f') : HasSpread w₀ q w' f' := by
  cases f with
  | send δ =>
    obtain ⟨δ', hadvance, rfl⟩ := exists_of_lift_advance hstep
    have deed := δ.canMake_step w
    rw [hadvance] at deed
    obtain ⟨phase, deed, rfl⟩ := deed
    exact h.of_sameItems (.of_items_eq deed.items_eq) deed.silent
  | obtain r =>
    obtain ⟨r', hadvance, rfl⟩ := exists_of_lift_advance hstep
    have alike : q.Alike r.request := alike
    cases Resolution.handles_step hadvance with
    | passes items _ _ report =>
      exact h.of_sameItems items fun hsilent => report.symm.trans hsilent
    | pins _ _ report =>
      exact h.of_sameItems (.updateItem ⟨rfl, rfl, rfl, rfl⟩)
        fun hsilent => report.symm.trans hsilent
    | unpins before _ report =>
      refine h.of_sameItems (.updateItem (Item.sameFacts_unpin fun last => ?_))
        fun hsilent => report.symm.trans hsilent
      -- It is the last pin only when there was none at first, and nothing was put off then.
      rw [alike.item] at last ⊢
      rw [pins, before, last] at held
      rw [h.postponed]
      exact settled (by omega)
    | takes start found _ _ =>
      have silent : (Frame.obtain r).report? = none := by
        rw [report?, start]
        rfl
      rw [Resolution.item, alike.item, (h.told silent q.item).key?_eq, noKey] at found
      cases found
    | brings gains _ _ report _ =>
      have gains : w.Gains q q.target w' := by
        have gains := World.Gains.of_alike alike gains
        rwa [alike.target] at gains
      constructor
      · intro hsilent
        rw [report?, report] at hsilent
        cases hsilent
      · exact .inr (h.gained.elim (fun same => gains.of_sameItems same) fun before =>
          before.trans gains)

end HasSpread

end Frame

namespace Thread

variable {w₀ w w' : World} {q : Request} {t t' : Thread} {a b : World × Thread}

namespace Accounts

/-- What is known of the items stays accounted for as well. -/
theorem hasSpread (h : Accounts w₀ q w t) (noKey : (w₀.items.get q.item).key? = none)
    (settled : (w₀.items.get q.item).IsSettled) (spread : t.frame.HasSpread w₀ q w)
    (hgoes : Goes (w, t) (w', t')) : t'.frame.HasSpread w₀ q w' := by
  have turn : t.Turn w w' t' := turn_of_running hgoes
  cases turn with
  | advances hstep =>
    refine spread.advance (h.isFor _ List.mem_cons_self) noKey settled ?_ hstep
    rw [h.pins, if_pos rfl, Frame.allPins_cons]
    omega
  | calls hstep =>
    have silent : t.frame.report? = none := (Frame.keeps_of_call hstep).1
    exact spread.of_report ((Frame.report?_start _ _ _).trans silent.symm)
  | returns hstep hcallers =>
    refine spread.of_report ?_
    have waits := h.waiting _ (by rw [hcallers]; exact List.mem_cons_self)
    rw [Frame.report?_answer waits, Frame.report?_of_finish hstep]
    rename_i outcome _ _
    cases outcome <;> rfl

theorem hasSpread_of_leads (h : Accounts w₀ q a.1 a.2) (hknows : w₀.Knows q.item)
    (noKey : (w₀.items.get q.item).key? = none) (settled : (w₀.items.get q.item).IsSettled)
    (spread : a.2.frame.HasSpread w₀ q a.1) (hleads : Leads a b) :
    b.2.frame.HasSpread w₀ q b.1 := by
  induction hleads with
  | refl => exact spread
  | tail before hgoes ih => exact (h.leads hknows before).hasSpread noKey settled ih hgoes

end Accounts

theorem later_of_leads (item : ItemId) (hleads : Leads a b) : World.Later item a.1 b.1 := by
  induction hleads with
  | refl => exact (World.SameCopies.refl _).later
  | @tail b c _ hgoes ih =>
    refine ih.trans ?_
    have turn : b.2.Turn b.1 c.1 c.2 := turn_of_running hgoes
    generalize b.2 = t, c.2 = t', b.1 = w, c.1 = w' at turn
    cases turn with
    | calls _ => exact (World.SameCopies.refl w).later
    | returns _ _ => exact (World.SameCopies.refl w).later
    | advances hstep =>
      obtain ⟨frame, callers⟩ := t
      cases frame with
      | obtain r =>
        obtain ⟨r', hadvance, -⟩ := Frame.exists_of_lift_advance hstep
        exact World.later_effect (Resolution.effect_step hadvance)
      | send δ =>
        obtain ⟨δ', hadvance, -⟩ := Frame.exists_of_lift_advance hstep
        exact (Delivery.sameCopies_step hadvance).later

/-- What ends has no callers. -/
theorem step_of_finished {outcome : Outcome} (h : t.step w = .finished outcome) :
    t.frame.step w = .finish outcome ∧ t.callers = [] := by
  unfold step follow at h
  split at h <;> rename_i hstep
  · cases h
  · cases h
  · cases h
  · cases h
  · split at h <;> rename_i hcallers <;> cases h
    exact ⟨hstep, hcallers⟩

section Ends

variable {n : LocalNode} {outcome : Outcome}

/-- A call for an item with a key in the persistent store gives the key. -/
theorem ends_of_key {key : String} (hkey : (w.items.get q.item).key? = some key) :
    Ends w (.start .obtain n q) (w.addLocation q.targetItem (.persistent key))
      (.ok (.key key)) := by
  refine ⟨⟨.obtain ⟨n, q, none, .done (.ok (.key key))⟩, []⟩, ?_, rfl⟩
  exact .head (Resolution.goes_step (Resolution.step_start_of_key hkey) [])
    (.single (Resolution.goes_step rfl []))

/-- What a call spreads of the item. -/
theorem spread_of_ends (hknows : w.Knows q.item) (hsettled : (w.items.get q.item).IsSettled)
    (h : Ends w (.start .obtain n q) w' outcome) :
    (∀ e, outcome = .error e → w.SameItems w') ∧
      (w.SameItems w' ∨ ∃ l, w.Gains q l w' ∧ (l = q.target ∨
        ∃ key, outcome = .ok (.key key) ∧ (w.items.get q.item).key? = some key ∧
          l = .persistent key)) := by
  cases hkey : (w.items.get q.item).key? with
  | some key =>
    obtain ⟨rfl, rfl⟩ := (ends_of_key hkey).unique h
    exact ⟨nofun, .inr ⟨_, World.gains_addLocation rfl _, .inr ⟨key, rfl, rfl, rfl⟩⟩⟩
  | none =>
    obtain ⟨t', hleads, hfinished⟩ := h
    have spread : t'.frame.HasSpread w q w' :=
      (accounts_start n q w).hasSpread_of_leads hknows hkey hsettled
        ⟨fun _ => .refl w, .inl (.refl w)⟩ hleads
    refine ⟨?_, spread.gained.imp_right fun gains => ⟨_, gains, .inl rfl⟩⟩
    rintro e rfl
    exact spread.told (report?_of_finished hfinished)

/-- **What a call leaves behind**, whatever it ends with. A node gets hold of an item, all nodes
that are called are own nodes, and nothing else goes on.

* Every item has the copies and the pins that it had, and every item but the target's is the same in
  all else. After an error that one is the same too.
* After a success the target's item may have gained one location: the target of the request, or the
  key if the item has one in the persistent store. It may have gained the value of the item, if the
  target is in memory.
* All copies that have been registered are finished, and the copy of each resolution with the
  outcome that the resolution has given. -/
theorem leaves_nothing_else (hknows : w.Knows q.item)
    (hsettled : (w.items.get q.item).IsSettled) (h : Ends w (.start .obtain n q) w' outcome) :
    (∀ i, (w'.items.get i).copies = (w.items.get i).copies ∧
      (w'.items.get i).pins = (w.items.get i).pins) ∧
    (∀ i, q.targetItem ≠ some i → w'.items.get i = w.items.get i) ∧
    (∀ e i, outcome = .error e → w'.items.get i = w.items.get i) ∧
    (∀ target i, outcome = .ok target → q.targetItem = some i →
      (w'.items.get i).name = (w.items.get i).name ∧
      (w'.items.get i).postponed = (w.items.get i).postponed ∧
      ((w'.items.get i).locations = (w.items.get i).locations ∨
        ∃ l, (w'.items.get i).locations = (w.items.get i).locations ++ [l] ∧
          (l = q.target ∨ ∃ key, target = .key key ∧ (w.items.get q.item).key? = some key ∧
            l = .persistent key)) ∧
      ((w'.items.get i).value = (w.items.get i).value ∨
        (∃ host name, q.target = .memory host name) ∧
          (w'.items.get i).value = (w.items.get q.item).value)) ∧
    (∀ c, w.copies.size ≤ c → c < w'.copies.size → (w'.copies.get c).isFinished) ∧
    ∀ v r callers o c, Leads (w, .start .obtain n q) (v, ⟨.obtain r, callers⟩) →
      r.step v = .finish o → r.started = some c → (w'.copies.get c).outcome = some o := by
  obtain ⟨failed, spread⟩ := spread_of_ends hknows hsettled h
  obtain ⟨t', hleads, hfinished⟩ := h
  have accounts : Accounts w q w' t' := (accounts_start n q w).leads hknows hleads
  obtain ⟨hfinish, callers⟩ := step_of_finished hfinished
  obtain ⟨noPins, noCopy⟩ := Frame.nothing_of_finish hfinish
  have noCopies : Frame.registered (t'.frame :: t'.callers) = [] := by
    rw [callers, Frame.registered_cons, noCopy]
    rfl
  have pins : ∀ i, (w'.items.get i).pins = (w.items.get i).pins := by
    intro i
    rw [accounts.pins i, callers, Frame.allPins_cons, noPins]
    split <;> rfl
  have copies : ∀ i, (w'.items.get i).copies = (w.items.get i).copies := by
    intro i
    rw [accounts.copies.copies i, noCopies]
    split <;> exact List.append_nil _
  have same : ∀ i, Item.SameFacts (w.items.get i) (w'.items.get i) →
      w'.items.get i = w.items.get i := fun i facts => facts.eq_of (copies i) (pins i)
  refine ⟨fun i => ⟨copies i, pins i⟩, fun i hi => same i ?_, ?_, ?_, fun c hle hlt => ?_, ?_⟩
  · rcases spread with items | ⟨l, gains, -⟩
    · exact items i
    · exact gains.elsewhere i hi
  · exact fun e i he => same i (failed e he i)
  · rintro target i rfl hi
    rcases spread with items | ⟨l, gains, hl⟩
    · exact ⟨(items i).name, (items i).postponed, .inl (items i).locations, .inl (items i).value⟩
    · have gained := gains.gained i hi
      refine ⟨gained.name, gained.postponed, ?_, gains.value i hi⟩
      rw [gained.locations, Item.addLocation]
      split
      · exact .inl rfl
      · refine .inr ⟨l, rfl, hl.imp_right ?_⟩
        rintro ⟨key, htarget, hkey, hpersistent⟩
        exact ⟨key, Except.ok.inj htarget, hkey, hpersistent⟩
  · have settled := accounts.copies.finished c hle hlt
    rw [noCopies] at settled
    exact settled.resolve_left (List.not_mem_nil)
  · intro v r rest o c hreached hdone own
    have done : r.phase = .done o := by
      have can := r.canMake_step v
      rwa [hdone] at can
    have orderly : Frame.IsOrderly v (.obtain r) :=
      ((accounts_start n q w).leads hknows hreached).copies.orderly _ List.mem_cons_self
    obtain ⟨known, completed⟩ := orderly.2 c own
    rw [done] at completed
    -- The run goes on from there to the end of the call.
    have onward : Leads (v, ⟨.obtain r, rest⟩) (w', t') := by
      rcases Relation.ReflTransGen.total_of_right_unique goes_unique hreached hleads
        with later | earlier
      · exact later
      · rw [eq_of_leads_of_finished earlier hfinished]
    exact (later_of_leads q.item onward).outcome_eq c known o completed

/-- Two nodes have lost their replicas of an item that somebody has pinned. The first one calls the
second one in vain. The copy that was registered for that is finished, and the items are as they
were. -/
theorem leaves_nothing_else_two_nodes :
    let node (id : NodeId) (directory : String) : LocalNode :=
      ⟨id, directory, ⟨directory⟩, .authoritative⟩
    let world : World :=
      { files := [["tmp", "work", "n1"], ["tmp", "work", "n2"]].foldl
          (fun fs place => Files.put fs place .directory) Files.empty
        items := (Cells.empty.push { Item.named "x" with
          locations := [.file [⟨1, ⟨"n1/lost"⟩⟩], .file [⟨2, ⟨"n2/lost"⟩⟩]]
          pins := 1
          postponed := [2] }).push (.named "y")
        copies := .empty
        directory := (Directory.empty.register (.own (node 1 "n1"))).register
          (.own (node 2 "n2")) }
    let request : Request := ⟨0, none, .file [⟨1, ⟨"n1/x"⟩⟩], some 1, none⟩
    let error : TransferError := .exhausted "x" "file://node1n1/x"
    ∃ w, Ends world (.start .obtain (node 1 "n1") request) w (.error error) ∧
      w.copies.size = 1 ∧ (w.copies.get 0).isFinished ∧ ∀ i, w.items.get i = world.items.get i := by
  intro node world request error
  have ends : Ends world (.start .obtain (node 1 "n1") request) _ (.error error) :=
    ends_of_outcomeIn 40 (by decide +kernel)
  have size : (walk 40 (world, .start .obtain (node 1 "n1") request)).1.copies.size = 1 := by
    decide +kernel
  have knows : world.Knows request.item := fun c hc => by cases hc
  have settled : (world.items.get request.item).IsSettled := fun unpinned => by cases unpinned
  obtain ⟨-, -, failed, -, finished, -⟩ := leaves_nothing_else knows settled ends
  refine ⟨_, ends, size, finished 0 (Nat.zero_le _) ?_, fun i => failed error i rfl⟩
  rw [size]
  exact Nat.one_pos

end Ends

end Thread

end Wharf
