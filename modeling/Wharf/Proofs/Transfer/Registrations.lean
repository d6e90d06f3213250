import Wharf.Proofs.Files.Places
import Wharf.Proofs.Transfer.CircularWait
import Wharf.Proofs.Transfer.Facts

/-!
# What is registered

A resolution registers the target of its request when the item is there, or when somebody says so.

* `Resolution.Deed` lists what a step does to what is known of the items, as long as the resolution
  has no outcome (`Resolution.deed_step`): it takes over a key, or registers the target after it has
  kept a value, written one, or copied a file, or on trust.
* `Resolution.IsTruthful` says of a step that the item is at the target then.
* It is only on trust that a target is registered where the item is not, or because it was missing
  in a file that was the target already (`Resolution.Deed.isTruthful`).
-/

namespace Wharf

namespace World

theorem exists_of_copyFirst {w w' : World} {target : Path} {sources : List Path}
    (h : w.copyFirst target sources = some w') :
    ∃ source ∈ sources, w.copyFile source target = .ok w' := by
  induction sources with
  | nil => cases h
  | cons source rest ih =>
    unfold copyFirst at h
    split at h
    · rename_i hcopy
      cases h
      exact ⟨source, List.mem_cons_self, hcopy⟩
    · obtain ⟨s, hs, hcopy⟩ := ih h
      exact ⟨s, List.mem_cons_of_mem _ hs, hcopy⟩

/-- Copying a file to another path leaves it there, and takes none away. -/
theorem grows_of_copyFile {w w' : World} {source target : Path}
    (h : w.copyFile source target = .ok w') :
    w.files.Grows w'.files ∧ (source.same target = false → w'.files.exists? target = true) := by
  rcases copyFile_eq_ok_iff.1 h with ⟨same, rfl⟩ | ⟨-, files, hcopy, rfl⟩
  · exact ⟨.refl _, fun ne => by rw [same] at ne; cases ne⟩
  · exact ⟨(Files.grows_of_copy hcopy).1, fun _ => (Files.grows_of_copy hcopy).2⟩

end World

/-- Where the item is said to be: by a reply that has come in, or by an outcome. -/
def Phase.report? : Phase → Option Target
  | .answered reply _ => reply.target?
  | .leaving (.ok target) | .completing (.ok target) | .withdrawing _ (.ok target)
  | .done (.ok target) => some target
  | _ => none

namespace Resolution

variable {r r' : Resolution} {w w' : World} {phase otherwise : Phase}

/-! ## What a step notes -/

/-- The item is said to be somewhere, and cannot be copied from there to a target on this node. -/
inductive IsTold (r : Resolution) (w : World) : Prop
  /-- A copy has ended at a place that is no path, or the target has none on this node. -/
  | copy {c : CopyId} {target : Target} (awaits : r.awaits = some c)
      (outcome : (w.copies.get c).outcome = some (.ok target))
      (unplaced : r.localTarget = none ∨ ∀ path, target ≠ .path path)
  /-- A node that was called has delivered. -/
  | reply {reply : Reply} {route : Route} {target : Target}
      (answered : r.phase = .answered reply route) (target_eq : reply.target? = some target)

/-- The files that are copied to the target. -/
inductive Offers (r : Resolution) (w : World) : Path → Prop
  | replica {source : Path} (mem : source ∈ World.pathsIn r.node.id (r.item w).locations) :
      Offers r w source
  | declared {source : Path}
      (eq : (r.request.source.bind fun l => l.pathIn r.node.id) = some source) : Offers r w source
  | copy {c : CopyId} {source : Path} (awaits : r.awaits = some c)
      (outcome : (w.copies.get c).outcome = some (.ok (.path source))) : Offers r w source

/-- The world in which the target's item has the value. -/
def keeping (r : Resolution) (w : World) (value : Value) : World :=
  match r.request.targetItem with
  | some item => w.updateItem item fun d => { d with value := some value }
  | none => w

/-- What a step does to what is known of the items, and where the item is said to be then. -/
inductive Deed (r : Resolution) (w : World) : World → Option Target → Prop
  | idle {w' : World} (same : ∀ i, (w'.items.get i).locations = (w.items.get i).locations)
      (grows : w.files.Grows w'.files) : Deed r w w' none
  | takes {key : String} (found : (r.item w).key? = some key) :
      Deed r w (w.addLocation r.request.targetItem (.persistent key)) (some (.key key))
  | finds {path : Path} (here : r.localTarget = some path) (there : w.files.exists? path = true) :
      Deed r w w (some (.path path))
  | keeps {value : Value} {name : String} (here : r.request.target = .memory r.node.id name) :
      Deed r w ((r.keeping w value).register r.request) (some (.object name))
  | writes {value : Value} {path : Path} {files : Files} (here : r.localTarget = some path)
      (written : value.writeTo w.files path = (files, .ok ())) :
      Deed r w ({ w with files := files }.register r.request) (some (.path path))
  | copies {source path : Path} {placed : World} (offers : r.Offers w source)
      (here : r.localTarget = some path) (copied : w.copyFile source path = .ok placed) :
      Deed r w (placed.register r.request) (some (.path path))
  | trusts {target : Target} (told : r.IsTold w) : Deed r w (w.register r.request) (some target)

/-- The world that a move leads to is accounted for. -/
def Notes (r : Resolution) (w : World) : Move Resolution → Prop
  | .advance w' r' => r.Deed w w' r'.phase.report?
  | _ => True

theorem notes_proceed (h : phase.report? = none) : r.Notes w (r.proceed w phase) := by
  have idle : r.Deed w w none := .idle (fun _ => rfl) (.refl _)
  rwa [← h] at idle

theorem notes_takeKey : r.Notes w (r.takeKey w) := by
  unfold takeKey
  split
  · rename_i key found
    exact .takes found
  · exact notes_proceed rfl

theorem notes_writeValue {value : Value} {path : Path} (here : r.localTarget = some path) :
    r.Notes w (r.writeValue w value path) := by
  have grows : w.files.Grows (value.writeTo w.files path).1 := value.grows_writeTo
  unfold writeValue
  split
  · rename_i files written
    exact .writes here written
  · rename_i files e written
    rw [written] at grows
    split <;> exact .idle (fun _ => rfl) grows

theorem notes_placeValue : r.Notes w (r.placeValue w) := by
  unfold placeValue
  split
  · exact notes_proceed rfl
  · rename_i value host name _ htarget
    split
    · rename_i hhost
      subst hhost
      exact .keeps htarget
    · exact notes_proceed rfl
  · split
    · rename_i path here
      exact notes_writeValue here
    · exact notes_proceed rfl

theorem notes_takeOver {c : CopyId} {outcome : Outcome} (hother : otherwise.report? = none)
    (awaits : r.awaits = some c) (houtcome : (w.copies.get c).outcome = some outcome) :
    r.Notes w (r.takeOver w outcome otherwise) := by
  rcases outcome with e | (delivered | name | key)
  · exact notes_proceed rfl
  · unfold takeOver
    cases here : r.localTarget with
    | none =>
      -- The file stays where it is, so there is nothing to be copied.
      have stays : w.copyFile delivered delivered = .ok w :=
        World.copyFile_eq_ok_iff.2 (.inl ⟨Path.same_refl delivered, rfl⟩)
      simp only [Option.getD_none, stays]
      exact .trusts (.copy awaits houtcome (.inl here))
    | some path =>
      simp only [Option.getD_some]
      split
      · rename_i placed copied
        exact .copies (.copy awaits houtcome) here copied
      · exact notes_proceed hother
  · exact .trusts (.copy awaits houtcome (.inr fun path => by simp))
  · exact .trusts (.copy awaits houtcome (.inr fun path => by simp))

theorem notes_join {c : CopyId} (hother : otherwise.report? = none) (awaits : r.awaits = some c) :
    r.Notes w (r.join w c otherwise) := by
  unfold join
  split
  · trivial
  · rename_i outcome houtcome
    exact notes_takeOver hother awaits houtcome

theorem notes_useReplica (hother : otherwise.report? = none) :
    r.Notes w (r.useReplica w otherwise) := by
  unfold useReplica copyReplica
  cases here : r.localTarget with
  | none => exact notes_proceed hother
  | some path =>
    dsimp only
    cases hfirst : w.copyFirst path (World.pathsIn r.node.id (r.item w).locations) with
    | none => exact notes_proceed hother
    | some placed =>
      obtain ⟨source, mem, copied⟩ := World.exists_of_copyFirst hfirst
      exact .copies (.replica mem) here copied

theorem notes_useSource (hother : otherwise.report? = none) :
    r.Notes w (r.useSource w otherwise) := by
  unfold useSource
  split
  · rename_i source path declared here
    split
    · rename_i placed copied
      exact .copies (.declared declared) here copied
    · exact notes_proceed hother
  · exact notes_proceed hother

theorem notes_approach {host : NodeId} {rest : Route} : r.Notes w (r.approach w host rest) := by
  unfold approach
  split
  · exact notes_proceed rfl
  · split <;> exact notes_proceed rfl

theorem notes_nextHost {route : Route} : r.Notes w (r.nextHost w route) := by
  unfold nextHost
  split
  · exact notes_proceed rfl
  · exact notes_proceed rfl
  · split
    · exact notes_useSource rfl
    · exact notes_approach
  · split
    · exact notes_proceed rfl
    · exact notes_approach

theorem notes_lookAgain (hother : otherwise.report? = none) :
    r.Notes w (r.lookAgain w otherwise) := by
  unfold lookAgain
  split
  · exact notes_proceed hother
  · rename_i path here
    split
    · rename_i delivered
      unfold isDelivered at delivered
      split at delivered
      · rw [Bool.and_eq_true] at delivered
        exact .finds here delivered.1
      · cases delivered
    · exact notes_useReplica hother

theorem notes_enlist {peer : Node} {route : Route} : r.Notes w (r.enlist w peer route) := by
  unfold enlist
  split
  · rename_i w' copy hticket
    unfold World.joinOrStart at hticket
    split at hticket <;> cases hticket
    exact notes_proceed rfl
  · rename_i w' copy hticket
    unfold World.joinOrStart at hticket
    split at hticket
    · cases hticket
    · rename_i free
      have items : w.SameItems (w.joinOrStart r.node.id r.request).1 := .joinOrStart free
      simp only [World.joinOrStart, free] at items
      cases hticket
      exact .idle (fun i => (items i).locations) (.refl _)

theorem notes_accept {reply : Reply} {route : Route} (answered : r.phase = .answered reply route) :
    r.Notes w (r.accept w reply route) := by
  unfold accept
  split
  · rename_i target told
    exact .trusts (.reply answered told)
  · exact notes_proceed rfl

/-- **What a step does to what is known of the items**, as long as there is no outcome. -/
theorem deed_step (hopen : r.verdict? = none) (hstep : r.step w = .advance w' r') :
    r.Deed w w' r'.phase.report? := by
  have hnotes : r.Notes w (r.step w) := by
    unfold step
    split <;> rename_i hphase
    · exact notes_takeKey
    · exact notes_placeValue
    · have items : w.SameItems (w.updateItem r.request.item Item.pin) :=
        .updateItem ⟨rfl, rfl, rfl, rfl⟩
      exact .idle (fun i => (items i).locations) (.refl _)
    · exact notes_proceed rfl
    · exact notes_join rfl (awaits_of_joining hphase)
    · exact notes_useReplica rfl
    · exact notes_nextHost
    · exact notes_lookAgain rfl
    · exact notes_enlist
    · exact notes_join rfl (awaits_of_joined hphase)
    · trivial
    · trivial
    · exact notes_accept hphase
    all_goals
      rw [verdict?, hphase] at hopen
      cases hopen
  rwa [hstep] at hnotes

/-! ## What is true of it -/

/-- The item is at the target after the step: as a value when that is the memory of this node, as a
file for one of the hosts, or under the key that it has had all along. -/
def IsTruthful (r : Resolution) (w w' : World) : Prop :=
  match r.request.target with
  | .memory host _ => host = r.node.id →
    ∃ i, r.request.targetItem = some i ∧ ((w'.items.get i).value).isSome
  | .file replicas => ∃ replica ∈ replicas, w'.files.exists? replica.path = true
  | .persistent key => .persistent key ∈ (r.item w).locations

/-- A file that is to be copied is the target already, and is not there. -/
def IsMissing (r : Resolution) (w : World) : Prop :=
  ∃ source path, r.Offers w source ∧ r.localTarget = some path ∧ source.same path = true ∧
    w.files.exists? path = false

theorem isTruthful_of_exists? {path : Path} (here : r.localTarget = some path)
    (h : w'.files.exists? path = true) : r.IsTruthful w w' := by
  unfold localTarget Location.pathIn at here
  unfold IsTruthful
  split at here
  · rename_i replicas node htarget
    obtain ⟨replica, hfind, rfl⟩ := Option.map_eq_some_iff.1 here
    rw [htarget]
    exact ⟨replica, List.mem_of_find?_eq_some hfind, h⟩
  · cases here

theorem value_register (w : World) (q : Request) (i : ItemId) :
    ((w.register q).items.get i).value = (w.items.get i).value := by
  unfold World.register
  cases q.targetItem with
  | none => rfl
  | some target =>
    rw [World.get_items_addLocation]
    split
    · rename_i hi
      rw [hi, Item.addLocation]
      split <;> rfl
    · rfl

/-- **What is registered is true**, unless it was registered on trust, or the item was to be found
in a file that was the target already and is missing. Nothing else has been done then. -/
theorem Deed.isTruthful {i : ItemId} {report : Option Target} (h : r.Deed w w' report)
    (hi : r.request.targetItem = some i)
    (hnew : (w.items.get i).knows r.request.target = false)
    (hknown : (w'.items.get i).knows r.request.target = true) :
    r.IsTruthful w w' ∨ (r.IsTold w ∨ r.IsMissing w) ∧ w' = w.register r.request := by
  cases h with
  | idle same _ =>
    rw [Item.knows, same, ← Item.knows, hnew] at hknown
    cases hknown
  | finds _ _ =>
    rw [hnew] at hknown
    cases hknown
  | @takes key found =>
    rw [hi, World.get_items_addLocation, if_pos rfl, Item.addLocation] at hknown
    split at hknown
    · rw [hnew] at hknown
      cases hknown
    · have same : (Location.persistent key).same r.request.target = true := by
        rw [Item.knows, List.any_append, ← Item.knows, hnew] at hknown
        simpa using hknown
      obtain ⟨l, hl, hkey⟩ := List.exists_of_findSome?_eq_some found
      left
      unfold IsTruthful
      cases htarget : r.request.target with
      | persistent key' =>
        rw [htarget, Location.same, beq_iff_eq] at same
        subst same
        cases l with
        | persistent _ =>
          cases hkey
          exact hl
        | memory _ _ => cases hkey
        | file _ => cases hkey
      | memory _ _ => rw [htarget] at same; cases same
      | file _ => rw [htarget] at same; cases same
  | @keeps value name here =>
    left
    unfold IsTruthful
    rw [here]
    refine fun _ => ⟨i, hi, ?_⟩
    rw [value_register, keeping, hi]
    simp [World.updateItem, Cells.update, Cells.get_set_self]
  | writes here written =>
    refine .inl (isTruthful_of_exists? here ?_)
    rw [World.files_register]
    exact Files.exists?_of_read (Value.overwritten_writeTo written).2.read_eq
  | @copies source path placed offers here copied =>
    cases there : placed.files.exists? path with
    | true =>
      refine .inl (isTruthful_of_exists? here ?_)
      rw [World.files_register, there]
    | false =>
      rcases World.copyFile_eq_ok_iff.1 copied with ⟨same, rfl⟩ | ⟨ne, -⟩
      · exact .inr ⟨.inr ⟨source, path, offers, here, same, there⟩, rfl⟩
      · rw [(World.grows_of_copyFile copied).2 ne] at there
        cases there
  | trusts told => exact .inr ⟨.inl told, rfl⟩

/-- What a resolution is told it registers, and does nothing else. -/
theorem exists_step_of_isTold (told : r.IsTold w) :
    ∃ r', r.step w = .advance (w.register r.request) r' := by
  cases told with
  | copy awaits outcome unplaced =>
    obtain ⟨otherwise, hstep⟩ := step_of_awaits (w := w) awaits
    rw [hstep, join, outcome]
    rename_i target
    cases target with
    | path delivered =>
      have here : r.localTarget = none := by
        refine unplaced.resolve_right fun h => h delivered rfl
      have stays : w.copyFile delivered delivered = .ok w :=
        World.copyFile_eq_ok_iff.2 (.inl ⟨Path.same_refl delivered, rfl⟩)
      simp only [takeOver, here, Option.getD_none, stays]
      exact ⟨_, rfl⟩
    | object name => exact ⟨_, rfl⟩
    | key key => exact ⟨_, rfl⟩
  | reply answered told =>
    rw [step, answered]
    simp only [accept, told]
    exact ⟨_, rfl⟩

end Resolution

end Wharf
