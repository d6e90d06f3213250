import Wharf.Proofs.Transfer.Trail

/-!
# Values that cannot be written

A value with a fault empties the target before the fault is noticed. What follows is up to the
policy of the node: it gives up, or goes on as if there were no value.

* `World.forget` is the world without the value. What is known of the item otherwise is the same, so
  the trail of a resolution is the same with and without the value (`Resolution.trail_forget`).
* Both runs are served by the same file of the trail, and it makes up for what was spoilt unless it
  is the target itself (`Resolution.Served.alike`).
* `Thread.faults_leave_no_trace` is the result for calls. A replica that is the target itself is
  lost, and delivered all the same (`Thread.delivers_spoilt_replica`).
-/

namespace Wharf

namespace World

/-- The world in which the item has no value. -/
def forget (w : World) (item : ItemId) : World :=
  w.updateItem item fun d => { d with value := none }

variable {w : World} {item : ItemId}

theorem get_items_forget (w : World) (item i : ItemId) :
    (w.forget item).items.get i =
      if i = item then { w.items.get i with value := none } else w.items.get i := by
  rw [forget, updateItem, Cells.update, Cells.get_set]
  split
  · rename_i hi
    rw [hi]
  · rfl

@[simp]
theorem locations_forget (i : ItemId) :
    ((w.forget item).items.get i).locations = (w.items.get i).locations := by
  rw [get_items_forget]
  split <;> rfl

theorem knows_forget (i : ItemId) (l : Location) :
    ((w.forget item).items.get i).knows l = (w.items.get i).knows l := by
  rw [Item.knows, locations_forget, Item.knows]

theorem value_forget : ((w.forget item).items.get item).value = none := by
  rw [get_items_forget, if_pos rfl]

theorem name_forget (i : ItemId) : ((w.forget item).items.get i).name = (w.items.get i).name := by
  rw [get_items_forget]
  split <;> rfl

/-- What is registered does not depend on the value. -/
theorem locations_register_forget (q : Request) (i : ItemId) :
    (((w.forget item).register q).items.get i).locations =
      ((w.register q).items.get i).locations := by
  unfold register
  cases q.targetItem with
  | none => exact locations_forget i
  | some target =>
    rw [get_items_addLocation, get_items_addLocation]
    split
    · unfold Item.addLocation
      rw [knows_forget]
      split
      · exact locations_forget target
      · exact congrArg (· ++ [q.target]) (locations_forget target)
    · exact locations_forget i

end World

namespace Request

variable {q : Request} {w : World} {item : ItemId}

theorem mentions_forget (path : Path) : q.Mentions (w.forget item) path ↔ q.Mentions w path := by
  unfold Mentions
  rw [World.locations_forget]

theorem isKnown_forget : q.isKnown (w.forget item) = q.isKnown w := by
  unfold isKnown
  split
  · exact World.knows_forget _ _
  · rfl

theorem sources_forget (node : NodeId) : q.sources (w.forget item) node = q.sources w node := by
  rw [sources, World.locations_forget, sources]

end Request

namespace Resolution

variable {n : LocalNode} {q : Request} {path source : Path} {w w' v' : World} {item : ItemId}
  {outcome outcome' : Outcome} {sources : List Path}

/-- **The same files are tried without the value.** -/
theorem trail_forget : trail n q path (w.forget item) = trail n q path w := by
  have htries : ∀ round, tries n q path (w.forget item) round = tries n q path w round := by
    intro round
    funext host
    unfold tries
    rw [Request.isKnown_forget, Request.sources_forget]
    rfl
  unfold trail ownReplicas
  rw [World.locations_forget, htries, htries, Item.hosts, World.locations_forget, Item.hosts]

theorem Uncontested.forget (hu : Uncontested n q path w) (hunknown : q.isKnown w = false) :
    Uncontested n q path (w.forget q.item) where
  isLocal := hu.isLocal
  spares := hu.spares
  quiet := by
    intro c hc
    rw [World.get_items_forget, if_pos rfl] at hc
    exact hu.quiet c hc
  settled := by
    rw [World.get_items_forget, if_pos rfl]
    exact hu.settled
  noKey := by
    rw [Item.key?, World.locations_forget]
    exact hu.noKey
  target := hu.target
  apart source hm := hu.apart source ((Request.mentions_forget source).1 hm)
  known hknown := by
    rw [Request.isKnown_forget, hunknown] at hknown
    cases hknown

/-- Two ends of which one took place without the value. They differ in the target at most, and not
even there when the item was delivered from another file. -/
structure Alike (path : Path) (sources : List Path) (outcome : Outcome) (w' v' : World) : Prop where
  locations : ∀ i, (w'.items.get i).locations = (v'.items.get i).locations
  files : Files.SameBut path w'.files v'.files
  delivered : (∀ source ∈ sources, source.same path = false) → ∀ target, outcome = .ok target →
    ∀ place, w'.files.find place = v'.files.find place

theorem Alike.cons (h : Alike path sources outcome w' v') (source : Path) :
    Alike path (source :: sources) outcome w' v' :=
  ⟨h.locations, h.files, fun apart =>
    h.delivered fun s hs => apart s (List.mem_cons_of_mem source hs)⟩

/-- **With and without the value the same file serves.** -/
theorem Served.alike (h : Served q path w sources outcome w')
    (h' : Served q path (w.forget q.item) sources outcome' v') :
    outcome' = outcome ∧ Alike path sources outcome w' v' := by
  induction h with
  | exhausted items kept =>
    cases h' with
    | exhausted items' kept' =>
      refine ⟨by rw [World.name_forget], fun i => ?_, ?_, nofun⟩
      · rw [(items i).locations, (items' i).locations, World.locations_forget]
      · exact kept.sameBut.symm.trans kept'.sameBut
  | brought can items brings =>
    cases h' with
    | missed cannot => exact absurd can cannot
    | brought can' items' brings' =>
      refine ⟨rfl, fun i => ?_, ?_, fun apart _ _ place => ?_⟩
      · rw [(items i).locations, (items' i).locations, World.locations_register_forget]
      · exact brings.sameBut.symm.trans brings'.sameBut
      · have ne := apart _ List.mem_cons_self
        cases brings with
        | stays same => rw [ne] at same; cases same
        | copied _ read overwritten =>
          cases brings' with
          | stays same => rw [ne] at same; cases same
          | copied _ read' overwritten' =>
            cases read.symm.trans read'
            exact overwritten.find_eq (.refl path w.files) overwritten' place
  | missed cannot _ ih =>
    cases h' with
    | brought can => exact absurd can cannot
    | missed _ later =>
      obtain ⟨houtcome, alike⟩ := ih later
      exact ⟨houtcome, alike.cons _⟩

end Resolution

namespace Thread

open Resolution

variable {n : LocalNode} {q : Request} {path : Path} {w : World} {v : Value}

/-- **What a value that cannot be written leaves behind.** The target is a file of this node, and
the item has no key. If the value is authoritative, the call ends with its fault, and no file but
the target has changed. If it is not, and the target is not known yet, the call ends as without the
value: with the same outcome, the same locations, and the same files but for the target. When it
ends well the target is the same too, unless it is itself a replica of the item or the declared
source. -/
theorem faults_leave_no_trace (hkey : (w.items.get q.item).key? = none)
    (htarget : q.target.pathIn n.id = some path)
    (hvalue : (w.items.get q.item).value = some v) (hfault : v.encode.fault.isSome) :
    (n.policy = .authoritative → ∃ w' e, v.writeTo w.files path = (w'.files, .error e) ∧
      Ends w (.start .obtain n q) w'
        (.error (.serialization (w.items.get q.item).name e.message)) ∧
      Files.SameBut path w.files w'.files ∧ w.SameItems w') ∧
    (n.policy = .fallThrough → Uncontested n q path w → q.isKnown w = false →
      ∃ w' v' outcome, Ends w (.start .obtain n q) w' outcome ∧
        Ends (w.forget q.item) (.start .obtain n q) v' outcome ∧
        (∀ i, (w'.items.get i).locations = (v'.items.get i).locations) ∧
        Files.SameBut path w'.files v'.files ∧
        ((∀ source, q.Mentions w source → source.same path = false) →
          ∀ target, outcome = .ok target →
            ∀ place, w'.files.find place = v'.files.find place)) := by
  obtain ⟨fs, e, hwrite, sameBut⟩ := v.exists_error_writeTo hfault w.files path
  constructor
  · intro hpolicy
    obtain ⟨w', outcome, hends, rfl, hfiles, items⟩ :=
      (yields_refused (Q := fun outcome w' =>
        outcome = .error (.serialization (w.items.get q.item).name e.message) ∧
          w'.files = fs ∧ w.SameItems w') hkey htarget hvalue hpolicy hwrite
        fun u hfiles items => ⟨rfl, hfiles, items⟩).exists_ends
    refine ⟨w', e, ?_, hends, ?_, items⟩
    · rw [hfiles, hwrite]
    · rw [hfiles]
      exact sameBut
  · intro hpolicy hu hunknown
    have unplaced : Unplaced n q path w := by
      intro v' hv'
      rw [hvalue] at hv'
      cases hv'
      exact ⟨hpolicy, .inl hfault⟩
    have unplaced' : Unplaced n q path (w.forget q.item) := by
      intro v' hv'
      rw [World.value_forget] at hv'
      cases hv'
    obtain ⟨w', outcome, hends, served⟩ := (yields_served hu unplaced).exists_ends
    obtain ⟨v', outcome', hends', served'⟩ :=
      (yields_served (hu.forget hunknown) unplaced').exists_ends
    rw [trail_forget] at served'
    obtain ⟨rfl, alike⟩ := served.alike served'
    refine ⟨w', v', outcome', hends, hends', alike.locations, alike.files, fun apart => ?_⟩
    refine alike.delivered fun source hsource => ?_
    rcases mentions_of_mem_trail hsource with mentioned | ⟨-, known⟩
    · exact apart source mentioned
    · rw [hunknown] at known
      cases known

/-- The first of two nodes has a value with a fault, the second one a replica. -/
theorem faults_leave_no_trace_two_nodes :
    let node (id : NodeId) (directory : String) (policy : FailurePolicy) : LocalNode :=
      ⟨id, directory, ⟨directory⟩, policy⟩
    let files := [["tmp", "work", "n1"], ["tmp", "work", "n2"]].foldl
      (fun fs place => Files.put fs place .directory) Files.empty
    let value : Value := .tuple [.integer 1 1, .failing "boom"]
    let world : World :=
      { files := files.put ["tmp", "work", "n2", "x"] (.file [120])
        items := Cells.empty.push { Item.named "x" with
          locations := [.file [⟨2, ⟨"n2/x"⟩⟩]], value := some value }
        copies := .empty
        directory := (Directory.empty.register (.own (node 1 "n1" .fallThrough))).register
          (.own (node 2 "n2" .fallThrough)) }
    let request : Request := ⟨0, none, .file [⟨1, ⟨"n1/x"⟩⟩], none, none⟩
    (∃ w' e, Ends world (.start .obtain (node 1 "n1" .authoritative) request) w'
      (.error (.serialization "x" (Failure.message e))) ∧
        Files.SameBut ⟨"n1/x"⟩ world.files w'.files) ∧
    ∃ w' v' outcome, Ends world (.start .obtain (node 1 "n1" .fallThrough) request) w' outcome ∧
      Ends (world.forget 0) (.start .obtain (node 1 "n1" .fallThrough) request) v' outcome ∧
      ∀ target, outcome = .ok target → ∀ place, w'.files.find place = v'.files.find place := by
  intro node files value world request
  have mentioned : ∀ source, request.Mentions world source → source = ⟨"n2/x"⟩ :=
    fun _ => Request.eq_of_mentions ⟨2, ⟨"n2/x"⟩⟩ rfl rfl
  have there : world.files.locate ⟨"n2/x"⟩ = .ok ["tmp", "work", "n2", "x"] := by decide +kernel
  have target : world.files.locate ⟨"n1/x"⟩ = .ok ["tmp", "work", "n1", "x"] := by decide +kernel
  have uncontested : Uncontested (node 1 "n1" .fallThrough) request ⟨"n1/x"⟩ world :=
    { isLocal := (Directory.isLocal_empty.register _).register _
      spares := world.directory.sparesObtain_of_hosts (by decide)
      quiet := fun c hc => List.not_mem_nil.elim hc
      settled := fun _ => rfl
      noKey := rfl
      target := rfl
      apart := by
        intro source hm _ place hplace hpath
        rw [mentioned source hm, there, Except.ok.injEq] at hplace
        rw [target, ← hplace] at hpath
        revert hpath
        decide
      known := nofun }
  constructor
  · obtain ⟨w', e, -, hends, sameBut, -⟩ := (faults_leave_no_trace (w := world) (q := request)
      (n := node 1 "n1" .authoritative) rfl rfl rfl (by decide +kernel)).1 rfl
    exact ⟨w', e, hends, sameBut⟩
  · obtain ⟨w', v', outcome, hends, hends', -, -, same⟩ := (faults_leave_no_trace (w := world)
      (q := request) (n := node 1 "n1" .fallThrough) rfl rfl rfl (by decide +kernel)).2 rfl
      uncontested rfl
    refine ⟨w', v', outcome, hends, hends', same fun source hm => ?_⟩
    rw [mentioned source hm]
    decide

/-- A node is to deliver an item to the file in which it has its only replica. The value is written
there first, and what is left of it is delivered; without the value it would have been the
replica. -/
theorem delivers_spoilt_replica :
    let node : LocalNode := ⟨1, "n1", ⟨"n1"⟩, .fallThrough⟩
    let files := (Files.empty.put ["tmp", "work", "n1"] .directory).put
      ["tmp", "work", "n1", "x"] (.file [103, 111, 111, 100])
    let value : Value := .tuple [.integer 1 1, .failing "boom"]
    let world : World :=
      { files := files
        items := Cells.empty.push { Item.named "x" with
          locations := [.file [⟨1, ⟨"n1/x"⟩⟩]], value := some value }
        copies := .empty
        directory := Directory.empty.register (.own node) }
    let request : Request := ⟨0, none, .file [⟨1, ⟨"n1/x"⟩⟩], none, none⟩
    ∃ w' v', Ends world (.start .obtain node request) w' (.ok (.path ⟨"n1/x"⟩)) ∧
      w'.files.read ⟨"n1/x"⟩ = .ok [1] ∧
      Ends (world.forget 0) (.start .obtain node request) v' (.ok (.path ⟨"n1/x"⟩)) ∧
      v'.files.read ⟨"n1/x"⟩ = .ok [103, 111, 111, 100] := by
  intro node files value world request
  exact ⟨_, _, ends_of_outcomeIn 20 (by decide +kernel), by decide +kernel,
    ends_of_outcomeIn 20 (by decide +kernel), by decide +kernel⟩

end Thread

end Wharf
