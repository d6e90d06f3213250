import Wharf.Proofs.Transfer.Replies

/-!
# What a step does to the items

Resolutions change items in few ways: they pin the item and take the pin back, register their copy
and take it off, and note where the item has been brought. Deliveries leave the items alone.

* `Phase.pins` counts the pins that a resolution has on its item.
* `World.Gains` says what is known more when the item of a request has been brought to its target.
* `Resolution.Handles` lists what an advance does to what is known of the items and to their pins,
  and where the item is said to be then (`Resolution.handles_step`).
* `Thread.Turn` lists what a thread does by itself.
-/

namespace Wharf

namespace Item

/-- What is known of an item is the same, but for a location that may be new, and the value. -/
structure Gains (l : Location) (d d' : Item) : Prop where
  name : d'.name = d.name
  locations : d'.locations = (d.addLocation l).locations
  postponed : d'.postponed = d.postponed

theorem name_addLocation (d : Item) (l : Location) : (d.addLocation l).name = d.name := by
  unfold addLocation
  split <;> rfl

theorem value_addLocation (d : Item) (l : Location) : (d.addLocation l).value = d.value := by
  unfold addLocation
  split <;> rfl

variable {d d' d'' : Item} {l : Location}

/-- With the same copies and pins nothing is left that may differ. -/
theorem SameFacts.eq_of (h : SameFacts d d') (copies : d'.copies = d.copies)
    (pins : d'.pins = d.pins) : d' = d := by
  obtain ⟨name, locations, value, postponed⟩ := h
  cases d
  cases d'
  simp_all

/-- The locations after an addition depend on the locations only. -/
theorem locations_addLocation_congr (h : d'.locations = d.locations) (l : Location) :
    (d'.addLocation l).locations = (d.addLocation l).locations := by
  unfold addLocation knows
  rw [h]
  split
  · exact h
  · rfl

theorem gains_addLocation (d : Item) (l : Location) : Gains l d (d.addLocation l) :=
  ⟨name_addLocation d l, rfl, postponed_addLocation l⟩

theorem Gains.of_knows (h : d.knows l = true) : Gains l d d := by
  have gains := gains_addLocation d l
  rwa [addLocation_of_knows h] at gains

theorem SameFacts.trans_gains (h : SameFacts d d') (hg : Gains l d' d'') : Gains l d d'' where
  name := hg.name.trans h.name
  locations := hg.locations.trans (locations_addLocation_congr h.locations l)
  postponed := hg.postponed.trans h.postponed

theorem Gains.trans_sameFacts (hg : Gains l d d') (h : SameFacts d' d'') : Gains l d d'' where
  name := h.name.trans hg.name
  locations := h.locations.trans hg.locations
  postponed := h.postponed.trans hg.postponed

/-- What has been gained is not gained twice. -/
theorem Gains.trans (h : Gains l d d') (h' : Gains l d' d'') : Gains l d d'' where
  name := h'.name.trans h.name
  locations := by
    rw [h'.locations, locations_addLocation_congr h.locations,
      addLocation_of_knows (knows_addLocation d l)]
  postponed := h'.postponed.trans h.postponed

end Item

/-! ## Bringing an item to its target -/

namespace World

/-- What is known more when the item of a request has been brought to a location: the target's item
has gained the location, and the value of the item if the target is in memory. -/
structure Gains (q : Request) (l : Location) (w w' : World) : Prop where
  elsewhere : ∀ i, q.targetItem ≠ some i → Item.SameFacts (w.items.get i) (w'.items.get i)
  gained : ∀ i, q.targetItem = some i → (w.items.get i).Gains l (w'.items.get i)
  value : ∀ i, q.targetItem = some i → (w'.items.get i).value = (w.items.get i).value ∨
    (∃ host name, q.target = .memory host name) ∧
      (w'.items.get i).value = (w.items.get q.item).value

variable {q q' : Request} {l : Location} {u v w w' : World}

theorem gains_addLocation (h : w.items = u.items) (l : Location) :
    u.Gains q l (w.addLocation q.targetItem l) := by
  have items : ∀ i j, q.targetItem = some i → (w.addLocation q.targetItem l).items.get j =
      if j = i then (u.items.get i).addLocation l else u.items.get j := by
    intro i j hi
    rw [hi, get_items_addLocation, h]
  constructor
  · intro j hj
    cases hi : q.targetItem with
    | none =>
      rw [addLocation, h]
      exact .refl _
    | some i =>
      have ne : j ≠ i := by
        rintro rfl
        exact hj hi
      rw [← hi, items i j hi, if_neg ne]
      exact .refl _
  · intro i hi
    rw [items i i hi, if_pos rfl]
    exact Item.gains_addLocation _ l
  · intro i hi
    rw [items i i hi, if_pos rfl]
    exact .inl (Item.value_addLocation _ l)

theorem pins_addLocation (w : World) (item : Option ItemId) (l : Location) (i : ItemId) :
    ((w.addLocation item l).items.get i).pins = (w.items.get i).pins := by
  cases item with
  | none => rfl
  | some j =>
    rw [get_items_addLocation]
    split
    · rename_i hi
      rw [hi, Item.pins_addLocation]
    · rfl

namespace Gains

/-- A location that is known already is gained without a trace. -/
theorem of_isKnown (h : q.isKnown w = true) : w.Gains q q.target w where
  elsewhere _ _ := .refl _
  gained i hi := by
    obtain ⟨j, hj, hknows⟩ := Request.isKnown_iff.1 h
    rw [hi] at hj
    cases hj
    exact .of_knows hknows
  value _ _ := .inl rfl

theorem of_alike (h : q.Alike q') (hg : w.Gains q' l w') : w.Gains q l w' where
  elsewhere := by
    rw [← h.targetItem]
    exact hg.elsewhere
  gained := by
    rw [← h.targetItem]
    exact hg.gained
  value := by
    rw [← h.targetItem, ← h.target, ← h.item]
    exact hg.value

theorem of_sameItems (h : u.SameItems w) (hg : w.Gains q l w') : u.Gains q l w' where
  elsewhere i hi := (h i).trans (hg.elsewhere i hi)
  gained i hi := (h i).trans_gains (hg.gained i hi)
  value i hi := by
    rw [← (h i).value, ← (h q.item).value]
    exact hg.value i hi

theorem trans_sameItems (hg : u.Gains q l w) (h : w.SameItems w') : u.Gains q l w' where
  elsewhere i hi := (hg.elsewhere i hi).trans (h i)
  gained i hi := (hg.gained i hi).trans_sameFacts (h i)
  value i hi := by
    rw [(h i).value]
    exact hg.value i hi

theorem value_item (h : u.Gains q l w) :
    (w.items.get q.item).value = (u.items.get q.item).value := by
  by_cases hi : q.targetItem = some q.item
  · exact (h.value q.item hi).elim id And.right
  · exact (h.elsewhere q.item hi).value

theorem trans (h : u.Gains q l w) (h' : w.Gains q l w') : u.Gains q l w' where
  elsewhere i hi := (h.elsewhere i hi).trans (h'.elsewhere i hi)
  gained i hi := (h.gained i hi).trans (h'.gained i hi)
  value i hi := by
    rcases h'.value i hi with hvalue | ⟨memory, hvalue⟩
    · rw [hvalue]
      exact h.value i hi
    · exact .inr ⟨memory, hvalue.trans h.value_item⟩

end Gains

end World

/-! ## Resolutions -/

/-- The pins that a resolution has on its item. -/
def Phase.pins : Phase → Nat
  | .start | .resident | .survey | .completing _ | .withdrawing .. | .done _ => 0
  | _ => 1

namespace Resolution

/-- What an advance does to what is known of the items and to their pins, and the phase that it
leads to. -/
inductive Handles (r : Resolution) (w : World) : World → Phase → Prop
  /-- Nothing is done. -/
  | passes {w' : World} {phase : Phase} (items : w.SameItems w')
      (pins : ∀ i, (w'.items.get i).pins = (w.items.get i).pins)
      (still : phase.pins = r.phase.pins) (report : phase.report? = r.phase.report?) :
      Handles r w w' phase
  | pins {phase : Phase} (before : r.phase.pins = 0) (after : phase.pins = 1)
      (report : phase.report? = r.phase.report?) :
      Handles r w (w.updateItem r.request.item Item.pin) phase
  | unpins {phase : Phase} (before : r.phase.pins = 1) (after : phase.pins = 0)
      (report : phase.report? = r.phase.report?) :
      Handles r w (w.updateItem r.request.item Item.unpin) phase
  /-- The key in the persistent store is noted. -/
  | takes {key : String} {phase : Phase} (start : r.phase = .start)
      (found : (r.item w).key? = some key) (after : phase.pins = 0)
      (report : phase.report? = some (.key key)) :
      Handles r w (w.addLocation r.request.targetItem (.persistent key)) phase
  /-- The target is noted. A path that the item is said to be at is that of the target on the node,
  if there is one, or it was said before. -/
  | brings {w' : World} {phase : Phase} {target : Target}
      (gains : w.Gains r.request r.request.target w')
      (pins : ∀ i, (w'.items.get i).pins = (w.items.get i).pins)
      (still : phase.pins = r.phase.pins) (report : phase.report? = some target)
      (placed : ∀ path, target = .path path →
        r.localTarget.getD path = path ∨ r.phase.report? = some target) :
      Handles r w w' phase

/-- The world that a move leads to is accounted for. -/
def HandlesBy (r : Resolution) (w : World) : Move Resolution → Prop
  | .advance w' r' => r.Handles w w' r'.phase
  | _ => True

variable {r r' : Resolution} {v w w' : World} {phase otherwise : Phase}

theorem handles_proceed (still : phase.pins = r.phase.pins)
    (report : phase.report? = r.phase.report?) : r.HandlesBy w (r.proceed w phase) :=
  .passes (.refl w) (fun _ => rfl) still report

/-- To go on with other files does nothing to the items. -/
theorem handles_of_items_eq (items : v.items = w.items) (still : phase.pins = r.phase.pins)
    (report : phase.report? = r.phase.report?) : r.Handles w v phase :=
  .passes (.of_items_eq items) (fun i => by rw [items]) still report

theorem gains_register (items : v.items = w.items) (q : Request) :
    w.Gains q q.target (v.register q) ∧
      ∀ i, ((v.register q).items.get i).pins = (w.items.get i).pins := by
  refine ⟨World.gains_addLocation items q.target, fun i => ?_⟩
  rw [World.register, World.pins_addLocation, items]

theorem handles_deliver {target : Target} (items : v.items = w.items) (pinned : r.phase.pins = 1)
    (placed : ∀ path, target = .path path →
      r.localTarget.getD path = path ∨ r.phase.report? = some target) :
    r.HandlesBy w (r.deliver v target) :=
  .brings (gains_register items _).1 (gains_register items _).2 pinned.symm rfl placed

theorem pins_updateItem {item : ItemId} {f : Item → Item} (hf : ∀ d, (f d).pins = d.pins)
    (i : ItemId) : ((w.updateItem item f).items.get i).pins = (w.items.get i).pins := by
  rw [World.updateItem, Cells.update, Cells.get_set]
  split
  · rename_i hi
    rw [hf, hi]
  · rfl

theorem pins_joinOrStart {node : NodeId} {q : Request} (h : w.copiesTo q.item node = [])
    (i : ItemId) : ((w.joinOrStart node q).1.items.get i).pins = (w.items.get i).pins := by
  simp only [World.joinOrStart, h]
  exact pins_updateItem (f := fun d => d.addCopy w.copies.size) (fun _ => rfl) i

theorem items_of_copyFile {source target : Path} (h : w.copyFile source target = .ok w') :
    w'.items = w.items := by
  rcases World.copyFile_eq_ok_iff.1 h with ⟨-, rfl⟩ | ⟨-, files, -, rfl⟩ <;> rfl

/-- The first step of a call for an item with a key in the persistent store. -/
theorem step_start_of_key {n : LocalNode} {q : Request} {key : String}
    (hkey : (w.items.get q.item).key? = some key) :
    (start n q).step w = .advance (w.addLocation q.targetItem (.persistent key))
      ⟨n, q, none, .completing (.ok (.key key))⟩ := by
  simp only [start, step, takeKey, item, hkey]
  rfl

/-- The first step of a call for an item without one. -/
theorem step_start_of_noKey {n : LocalNode} {q : Request}
    (noKey : (w.items.get q.item).key? = none) :
    (start n q).step w = .advance w ⟨n, q, none, .resident⟩ := by
  simp only [start, step, takeKey, item, noKey]
  rfl

theorem handles_takeKey (start : r.phase = .start) : r.HandlesBy w (r.takeKey w) := by
  unfold takeKey
  split
  · rename_i key found
    exact .takes start found rfl rfl
  · exact handles_proceed (by rw [start]; rfl) (by rw [start]; rfl)

theorem get_items_keeping (r : Resolution) (w : World) (value : Value) (i : ItemId) :
    (r.keeping w value).items.get i = if r.request.targetItem = some i then
      { w.items.get i with value := some value } else w.items.get i := by
  unfold keeping
  cases r.request.targetItem with
  | none => rw [if_neg (by simp)]
  | some item =>
    simp only [World.updateItem, Cells.update, Cells.get_set, Option.some.injEq]
    by_cases hi : i = item
    · rw [hi, if_pos rfl]
    · rw [if_neg hi, if_neg (Ne.symm hi)]

theorem handles_keepValue {value : Value} {host : NodeId} {name : String}
    (resident : r.phase = .resident) (hvalue : (r.item w).value = some value)
    (memory : r.request.target = .memory host name) :
    r.HandlesBy w (r.keepValue w value name) := by
  have kept := get_items_keeping r w value
  obtain ⟨gains, pins⟩ := gains_register (rfl : (r.keeping w value).items = _) r.request
  refine .brings ⟨fun i hi => ?_, fun i hi => ?_, fun i hi => .inr ⟨⟨host, name, memory⟩, ?_⟩⟩
    (fun i => ?_) (by rw [resident]; rfl) rfl nofun
  · have same := gains.elsewhere i hi
    rwa [kept, if_neg hi] at same
  · have gained := gains.gained i hi
    rw [kept, if_pos hi] at gained
    refine ⟨gained.name, gained.locations.trans ?_, gained.postponed⟩
    refine Item.locations_addLocation_congr ?_ _
    rfl
  · have held : ((r.keeping w value).items.get i).value = some value := by rw [kept, if_pos hi]
    exact (value_register _ r.request i).trans (held.trans hvalue.symm)
  · refine (pins i).trans ?_
    rw [kept]
    split <;> rfl

theorem handles_writeValue {value : Value} {path : Path} (resident : r.phase = .resident)
    (here : r.localTarget = some path) : r.HandlesBy w (r.writeValue w value path) := by
  have still : Phase.pins .survey = r.phase.pins := by rw [resident]; rfl
  have silent : none = r.phase.report? := by rw [resident]; rfl
  unfold writeValue
  split
  · rename_i files _
    have items : ({ w with files := files } : World).items = w.items := rfl
    obtain ⟨gains, pins⟩ := gains_register items r.request
    refine .brings gains pins (by rw [resident]; rfl) rfl fun p hp => .inl ?_
    rw [here]
    exact Target.path.inj hp
  · split
    · exact handles_of_items_eq rfl still silent
    · exact handles_of_items_eq rfl still silent

theorem handles_placeValue (resident : r.phase = .resident) :
    r.HandlesBy w (r.placeValue w) := by
  have goesOn : r.HandlesBy w (r.proceed w .survey) :=
    handles_proceed (by rw [resident]; rfl) (by rw [resident]; rfl)
  unfold placeValue
  split
  · exact goesOn
  · rename_i hvalue memory
    split
    · exact handles_keepValue resident hvalue memory
    · exact goesOn
  · split
    · rename_i here
      exact handles_writeValue resident here
    · exact goesOn

section Attempts

variable (pinned : r.phase.pins = 1) (silent : r.phase.report? = none)
  (still : otherwise.pins = 1) (mute : otherwise.report? = none)

include pinned silent still mute

theorem handles_otherwise : r.HandlesBy w (r.proceed w otherwise) :=
  handles_proceed (still.trans pinned.symm) (mute.trans silent.symm)

theorem handles_takeOver (outcome : Outcome) :
    r.HandlesBy w (r.takeOver w outcome otherwise) := by
  rcases outcome with e | (delivered | name | key)
  · exact handles_proceed pinned.symm silent.symm
  · unfold takeOver
    dsimp only
    split
    · rename_i copied
      refine handles_deliver (items_of_copyFile copied) pinned fun path hpath => .inl ?_
      -- Where the target has no path on this node, the file is the one that was delivered.
      rw [← Target.path.inj hpath]
      cases r.localTarget <;> rfl
    · exact handles_otherwise pinned silent still mute
  · exact handles_deliver rfl pinned nofun
  · exact handles_deliver rfl pinned nofun

theorem handles_join (copy : CopyId) : r.HandlesBy w (r.join w copy otherwise) := by
  unfold join
  split
  · trivial
  · exact handles_takeOver pinned silent still mute _

omit silent still mute in
theorem handles_copied {path : Path} (here : r.localTarget = some path)
    (items : v.items = w.items) : r.HandlesBy w (r.deliver v (.path path)) := by
  refine handles_deliver items pinned fun p hp => .inl ?_
  rw [here]
  exact Target.path.inj hp

theorem handles_useReplica : r.HandlesBy w (r.useReplica w otherwise) := by
  unfold useReplica copyReplica
  cases here : r.localTarget with
  | none => exact handles_otherwise pinned silent still mute
  | some path =>
    dsimp only
    cases hfirst : w.copyFirst path (World.pathsIn r.node.id (r.item w).locations) with
    | none => exact handles_otherwise pinned silent still mute
    | some placed =>
      obtain ⟨source, -, copied⟩ := World.exists_of_copyFirst hfirst
      exact handles_copied pinned here (items_of_copyFile copied)

theorem handles_useSource : r.HandlesBy w (r.useSource w otherwise) := by
  unfold useSource
  split
  · rename_i here
    split
    · rename_i copied
      exact handles_copied pinned here (items_of_copyFile copied)
    · exact handles_otherwise pinned silent still mute
  · exact handles_otherwise pinned silent still mute

theorem handles_lookAgain : r.HandlesBy w (r.lookAgain w otherwise) := by
  unfold lookAgain
  split
  · exact handles_otherwise pinned silent still mute
  · rename_i path here
    split
    · rename_i delivered
      have known : r.request.isKnown w = true := by
        unfold isDelivered at delivered
        split at delivered
        · rename_i i hi
          rw [Bool.and_eq_true] at delivered
          exact Request.isKnown_iff.2 ⟨i, hi, delivered.2⟩
        · cases delivered
      refine .brings (.of_isKnown known) (fun _ => rfl) pinned.symm rfl fun p hp => .inl ?_
      rw [here]
      exact Target.path.inj hp
    · exact handles_useReplica pinned silent still mute

end Attempts

theorem handles_approach {host : NodeId} {route rest : Route} (hosts : r.phase = .hosts route) :
    r.HandlesBy w (r.approach w host rest) := by
  have goesOn {phase : Phase} (pins : phase.pins = 1) (mute : phase.report? = none) :
      r.HandlesBy w (r.proceed w phase) :=
    handles_otherwise (by rw [hosts]; rfl) (by rw [hosts]; rfl) pins mute
  unfold approach
  split
  · exact goesOn rfl rfl
  · split <;> exact goesOn rfl rfl

theorem handles_nextHost {route : Route} (hosts : r.phase = .hosts route) :
    r.HandlesBy w (r.nextHost w route) := by
  have pinned : r.phase.pins = 1 := by rw [hosts]; rfl
  have silent : r.phase.report? = none := by rw [hosts]; rfl
  unfold nextHost
  split
  · exact handles_otherwise pinned silent rfl rfl
  · exact handles_otherwise pinned silent rfl rfl
  · split
    · exact handles_useSource pinned silent rfl rfl
    · exact handles_approach hosts
  · split
    · exact handles_otherwise pinned silent rfl rfl
    · exact handles_approach hosts

theorem handles_enlist {peer : Node} {route : Route} (enlists : r.phase = .enlist peer route) :
    r.HandlesBy w (r.enlist w peer route) := by
  have still : r.phase.pins = 1 := by rw [enlists]; rfl
  have silent : r.phase.report? = none := by rw [enlists]; rfl
  unfold enlist
  split
  · rename_i w' copy hticket
    unfold World.joinOrStart at hticket
    split at hticket <;> cases hticket
    exact handles_otherwise still silent rfl rfl
  · rename_i w' copy hticket
    cases free : w.copiesTo r.request.item r.node.id with
    | cons _ _ =>
      simp only [World.joinOrStart, free] at hticket
      cases hticket
    | nil =>
      have items : w.SameItems (w.joinOrStart r.node.id r.request).1 := .joinOrStart free
      have pins := pins_joinOrStart free
      rw [hticket] at items pins
      exact .passes items pins still.symm silent.symm

theorem handles_accept {reply : Reply} {route : Route}
    (answered : r.phase = .answered reply route) : r.HandlesBy w (r.accept w reply route) := by
  have pinned : r.phase.pins = 1 := by rw [answered]; rfl
  have report : r.phase.report? = reply.target? := by rw [answered]; rfl
  unfold accept
  split
  · rename_i told
    refine handles_deliver rfl pinned fun path hpath => .inr ?_
    rw [report, told]
  · rename_i told
    exact handles_proceed pinned.symm (told.symm.trans report.symm)

/-- **What an advance does to the items.** -/
theorem handles_step (h : r.step w = .advance w' r') : r.Handles w w' r'.phase := by
  have handles : r.HandlesBy w (r.step w) := by
    unfold step
    split <;> rename_i hphase
    · exact handles_takeKey hphase
    · exact handles_placeValue hphase
    · exact .pins (by rw [hphase]; rfl) rfl (by rw [hphase]; rfl)
    · exact handles_proceed (by rw [hphase]; rfl) (by rw [hphase]; rfl)
    · exact handles_join (by rw [hphase]; rfl) (by rw [hphase]; rfl) rfl rfl _
    · exact handles_useReplica (by rw [hphase]; rfl) (by rw [hphase]; rfl) rfl rfl
    · exact handles_nextHost hphase
    · exact handles_lookAgain (by rw [hphase]; rfl) (by rw [hphase]; rfl) rfl rfl
    · exact handles_enlist hphase
    · exact handles_join (by rw [hphase]; rfl) (by rw [hphase]; rfl) rfl rfl _
    · trivial
    · trivial
    · exact handles_accept hphase
    · rename_i outcome
      exact .unpins (by rw [hphase]; rfl) rfl (by rw [hphase]; cases outcome <;> rfl)
    · rename_i outcome
      have silent {phase : Phase} (h : phase.verdict? = some outcome) :
          phase.report? = r.phase.report? := by
        rw [Phase.report?_of_verdict h, hphase]
        cases outcome <;> rfl
      split
      · exact handles_proceed (by rw [hphase]; rfl) (silent rfl)
      · exact handles_of_items_eq rfl (by rw [hphase]; rfl) (silent rfl)
    · rename_i copy outcome
      refine .passes (.updateItem ⟨rfl, rfl, rfl, rfl⟩) (fun i => ?_) (by rw [hphase]; rfl) ?_
      · exact pins_updateItem (f := fun d => d.removeCopy copy) (fun _ => rfl) i
      · rw [hphase]
        cases outcome <;> rfl
    · trivial
  rwa [h] at handles

end Resolution

/-! ## Deliveries -/

namespace Delivery

variable {δ : Delivery} {w w' : World} {phase : DeliveryPhase}

/-- **Deliveries leave the items alone.** -/
theorem Deed.items_eq (h : δ.Deed w w' phase) : w'.items = w.items := by
  cases h with
  | goesOn _ _ => rfl
  | givesUp _ => rfl
  | pushes _ _ pushed => exact (pushTo_spec pushed).1
  | misses _ _ missed => exact (pushTo_spec missed).1
  | takes _ => rfl

/-- What has been said of the item is not taken back. -/
theorem Deed.silent (h : δ.Deed w w' phase) (hsilent : phase.report? = none) :
    δ.phase.report? = none := by
  cases h with
  | goesOn _ silent => exact silent
  | givesUp silent => exact silent
  | misses _ silent _ => exact silent
  | pushes _ _ _ => cases hsilent
  | takes _ => cases hsilent

end Delivery

/-! ## Threads -/

namespace Thread

/-- What a thread does by itself: the frame that is worked on goes on, calls an own node, or gives
its outcome to the last caller. -/
inductive Turn (w : World) (t : Thread) : World → Thread → Prop
  | advances {w' : World} {f : Frame} (step : t.frame.step w = .advance w' f) :
      Turn w t w' ⟨f, t.callers⟩
  | calls {n : LocalNode} {q : Request} {f : Frame} (step : t.frame.step w = .call (.own n) q f) :
      Turn w t w ⟨.start t.frame.callKind n q, f :: t.callers⟩
  | returns {outcome : Outcome} {caller : Frame} {rest : List Frame}
      (step : t.frame.step w = .finish outcome) (callers : t.callers = caller :: rest) :
      Turn w t w ⟨caller.answer (.notified outcome), rest⟩

theorem turn_of_running {w w' : World} {t t' : Thread} (h : t.step w = .running w' t') :
    t.Turn w w' t' := by
  unfold step follow at h
  split at h <;> rename_i hstep
  · cases h
    exact .advances hstep
  · cases h
  · cases h
    exact .calls hstep
  · cases h
  · split at h <;> rename_i hcallers <;> cases h
    exact .returns hstep hcallers

end Thread

end Wharf
