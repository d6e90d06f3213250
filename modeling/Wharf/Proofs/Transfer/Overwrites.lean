import Wharf.Proofs.Files.Aliases
import Wharf.Proofs.Transfer.Replies

/-!
# What steps do to files

A step of a call writes to one file at most, the target of the frame that is worked on. What becomes
of it, and of all other files, depends on what the frame has to copy.

* `Frame.copies` lists the files that a frame may copy now, each with the path where it is to be.
* `Frame.IsMisled`: the target has no file but looks as if it had, because it is among the files to
  be copied there, or because it is a directory.
* `Frame.Spoils`: a file is at the target, and what may come there is a value, something else, or
  the file itself under another path.
* `Resolution.Makes` lists what a step of a resolution makes of the files, `Delivery.Pushes` what a
  push does.
* `Frame.advance_spec` is all that a step does: it takes no file away, it says that the item is in a
  file only where there is one, unless it is misled, and a file keeps its content unless it is
  spoilt.
-/

namespace Wharf

namespace World

variable {w w' : World} {file source target : Path} {held : List UInt8}

theorem keepsFiles_of_copyFile (h : w.copyFile source target = .ok w') :
    w.files.KeepsFiles w'.files := by
  rcases copyFile_eq_ok_iff.1 h with ⟨-, rfl⟩ | ⟨-, files, hcopy, rfl⟩
  · exact .refl _
  · exact (Files.keepsFiles_of_copy hcopy).1

/-- **After a copy there is a file at the target**, unless the target was to be copied to itself and
was not there. -/
theorem hasFile_of_copyFile (h : w.copyFile source target = .ok w') :
    w'.files.HasFile target ∨ source.same target = true ∧ ¬ w.files.HasFile target := by
  rcases copyFile_eq_ok_iff.1 h with ⟨same, rfl⟩ | ⟨-, files, hcopy, rfl⟩
  · by_cases hfile : w'.files.HasFile target
    · exact .inl hfile
    · exact .inr ⟨same, hfile⟩
  · exact .inl (Files.keepsFiles_of_copy hcopy).2

theorem read_of_copyFile (h : w.copyFile source target = .ok w')
    (hread : w.files.read file = .ok held) :
    w'.files.read file = .ok held ∨ w.files.Meet file target ∧
      (source.same target = false ∧ w.files.Meet source target ∨
        w.files.HasFile source ∧ w.files.read source ≠ .ok held) := by
  rcases copyFile_eq_ok_iff.1 h with ⟨-, rfl⟩ | ⟨ne, files, hcopy, rfl⟩
  · exact .inl hread
  · refine (Files.read_of_copy hcopy hread).imp_right (And.imp_right (Or.imp_left ?_))
    exact fun hmeet => ⟨ne, hmeet⟩

@[simp]
theorem files_addLocation (w : World) (item : Option ItemId) (l : Location) :
    (w.addLocation item l).files = w.files := by
  cases item <;> rfl

@[simp]
theorem files_joinOrStart (w : World) (node : NodeId) (q : Request) :
    (w.joinOrStart node q).1.files = w.files := by
  unfold joinOrStart
  split <;> rfl

end World

/-! ## What there is to be copied -/

/-- The path of a file. -/
def Target.path? : Target → Option Path
  | .path p => some p
  | _ => none

/-- The files that a resolution may copy to its target: the replicas on the node, the declared
source, and what the copy has brought that is waited for. -/
def Resolution.offered (r : Resolution) (w : World) : List Path :=
  World.pathsIn r.node.id (r.item w).locations ++
    (r.request.source.bind fun l => l.pathIn r.node.id).toList ++
    (r.awaits.bind fun c => (w.copies.get c).finalTarget.bind Target.path?).toList

theorem Resolution.mem_offered {r : Resolution} {w : World} {source : Path}
    (h : r.Offers w source) : source ∈ r.offered w := by
  unfold offered
  cases h with
  | replica mem => exact List.mem_append_left _ (List.mem_append_left _ mem)
  | declared eq =>
    exact List.mem_append_left _ (List.mem_append_right _ (Option.mem_toList.2 eq))
  | @copy c _ awaits outcome =>
    refine List.mem_append_right _ (Option.mem_toList.2 ?_)
    simp [awaits, Copy.finalTarget, outcome, Target.path?]

/-- The path of the target for the node that waits for the delivery. -/
def Delivery.outlet? (δ : Delivery) : Option Path :=
  δ.request.requester.bind δ.request.target.pathIn

namespace Frame

/-- The request that is worked on. -/
def request : Frame → Request
  | obtain r => r.request
  | send δ => δ.request

/-- The item that is worked on. -/
def item (w : World) (f : Frame) : Item := w.items.get f.request.item

/-- The path where the frame itself brings the item. -/
def outlet? : Frame → Option Path
  | obtain r => r.localTarget
  | send δ => δ.outlet?

/-- The files that may be copied now, each with the path where it is to be. A file that a copy has
brought stays where it is if the target has no path on the node. -/
def copies (w : World) : Frame → List (Path × Path)
  | obtain r => (r.offered w).map fun source => (source, r.localTarget.getD source)
  | send δ =>
    match δ.outlet? with
    | some path => (δ.request.sources w δ.node.id).map fun source => (source, path)
    | none => []

/-- There is no file where the item is to be, but it seems that there is: it is to be copied to
itself, or there is a directory. -/
def IsMisled (w : World) (f : Frame) : Prop :=
  (∃ c ∈ f.copies w, c.1.same c.2 = true ∧ ¬ w.files.HasFile c.2) ∨
    ∃ path ∈ f.outlet?, w.files.exists? path = true ∧ ¬ w.files.HasFile path

instance (w : World) (f : Frame) : Decidable (f.IsMisled w) :=
  inferInstanceAs (Decidable ((∃ c ∈ f.copies w, c.1.same c.2 = true ∧ ¬ w.files.HasFile c.2) ∨
    ∃ path ∈ f.outlet?, w.files.exists? path = true ∧ ¬ w.files.HasFile path))

/-- A file with some content is where the item is to be, and either there is a value in memory,
which may be written there, or a file may be copied there that holds something else, or that is this
very file under another path. -/
def Spoils (w : World) (f : Frame) (file : Path) (held : List UInt8) : Prop :=
  ((f.item w).value.isSome = true ∧ ∃ path ∈ f.outlet?, w.files.Meet file path) ∨
    ∃ c ∈ f.copies w, w.files.Meet file c.2 ∧
      (c.1.same c.2 = false ∧ w.files.Meet c.1 c.2 ∨
        w.files.HasFile c.1 ∧ w.files.read c.1 ≠ .ok held)

instance (w : World) (f : Frame) (file : Path) (held : List UInt8) :
    Decidable (f.Spoils w file held) :=
  inferInstanceAs (Decidable
    (((f.item w).value.isSome = true ∧ ∃ path ∈ f.outlet?, w.files.Meet file path) ∨
      ∃ c ∈ f.copies w, w.files.Meet file c.2 ∧
        (c.1.same c.2 = false ∧ w.files.Meet c.1 c.2 ∨
          w.files.HasFile c.1 ∧ w.files.read c.1 ≠ .ok held)))

/-- Where the item is said to be in a file, there is one. -/
def IsTrue (w : World) (f : Frame) : Prop :=
  ∀ path, f.report? = some (.path path) → w.files.HasFile path

theorem IsTrue.mono {w w' : World} {f : Frame} (h : f.IsTrue w)
    (keeps : w.files.KeepsFiles w'.files) : f.IsTrue w' :=
  fun path hpath => keeps path (h path hpath)

theorem isTrue_of_report? {w : World} {f : Frame} (h : f.report? = none) : f.IsTrue w := by
  intro path hpath
  rw [h] at hpath
  cases hpath

end Frame

/-! ## Resolutions -/

namespace Resolution

variable {r r' : Resolution} {w w' v : World} {phase otherwise : Phase} {file : Path}
  {held : List UInt8} {fs : Files}

/-- What a step makes of the files. -/
inductive Makes (r : Resolution) (w : World) : Files → Prop
  | same : Makes r w w.files
  | writes {value : Value} {path : Path} (resident : (r.item w).value = some value)
      (here : r.localTarget = some path) : Makes r w (value.writeTo w.files path).1
  | copies {source : Path} {placed : World} (offers : r.Offers w source)
      (copied : w.copyFile source (r.localTarget.getD source) = .ok placed) :
      Makes r w placed.files

/-- The files that a move leads to are accounted for. -/
def MakesFiles (r : Resolution) (w : World) : Move Resolution → Prop
  | .advance w' _ => r.Makes w w'.files
  | _ => True

theorem makesFiles_proceed : r.MakesFiles w (r.proceed w phase) := .same

theorem makesFiles_deliver {target : Target} (h : r.Makes w v.files) :
    r.MakesFiles w (r.deliver v target) := by
  show r.Makes w (v.register r.request).files
  rwa [World.files_register]

theorem makesFiles_takeKey : r.MakesFiles w (r.takeKey w) := by
  unfold takeKey
  split
  · show r.Makes w (w.addLocation _ _).files
    rw [World.files_addLocation]
    exact .same
  · exact makesFiles_proceed

theorem makesFiles_keepValue {value : Value} {name : String} :
    r.MakesFiles w (r.keepValue w value name) := by
  show r.Makes w (World.register _ r.request).files
  rw [World.files_register]
  split <;> exact .same

theorem makesFiles_writeValue {value : Value} {path : Path}
    (resident : (r.item w).value = some value) (here : r.localTarget = some path) :
    r.MakesFiles w (r.writeValue w value path) := by
  have made : r.Makes w (value.writeTo w.files path).1 := .writes resident here
  unfold writeValue
  split <;> rename_i hwrite <;> rw [hwrite] at made
  · show r.Makes w (World.register _ r.request).files
    rwa [World.files_register]
  · split <;> exact made

theorem makesFiles_placeValue : r.MakesFiles w (r.placeValue w) := by
  unfold placeValue
  split
  · exact makesFiles_proceed
  · split
    · exact makesFiles_keepValue
    · exact makesFiles_proceed
  · rename_i value resident _
    split
    · rename_i path here
      exact makesFiles_writeValue resident here
    · exact makesFiles_proceed

theorem makesFiles_takeOver {c : CopyId} {outcome : Outcome} (awaits : r.awaits = some c)
    (houtcome : (w.copies.get c).outcome = some outcome) :
    r.MakesFiles w (r.takeOver w outcome otherwise) := by
  rcases outcome with e | (delivered | name | key)
  · exact makesFiles_proceed
  · unfold takeOver
    dsimp only
    split
    · rename_i placed copied
      exact makesFiles_deliver (.copies (.copy awaits houtcome) copied)
    · exact makesFiles_proceed
  · exact makesFiles_deliver .same
  · exact makesFiles_deliver .same

theorem makesFiles_join {c : CopyId} (awaits : r.awaits = some c) :
    r.MakesFiles w (r.join w c otherwise) := by
  unfold join
  split
  · trivial
  · rename_i houtcome
    exact makesFiles_takeOver awaits houtcome

theorem makesFiles_useReplica : r.MakesFiles w (r.useReplica w otherwise) := by
  unfold useReplica copyReplica
  cases here : r.localTarget with
  | none => exact makesFiles_proceed
  | some path =>
    dsimp only
    cases hfirst : w.copyFirst path (World.pathsIn r.node.id (r.item w).locations) with
    | none => exact makesFiles_proceed
    | some placed =>
      obtain ⟨source, mem, copied⟩ := World.exists_of_copyFirst hfirst
      exact makesFiles_deliver (.copies (.replica mem) (by rwa [here]))

theorem makesFiles_useSource : r.MakesFiles w (r.useSource w otherwise) := by
  unfold useSource
  split
  · rename_i source path declared here
    split
    · rename_i placed copied
      exact makesFiles_deliver (.copies (.declared declared) (by rwa [here]))
    · exact makesFiles_proceed
  · exact makesFiles_proceed

theorem makesFiles_approach {host : NodeId} {rest : Route} :
    r.MakesFiles w (r.approach w host rest) := by
  unfold approach
  split
  · exact makesFiles_proceed
  · split <;> exact makesFiles_proceed

theorem makesFiles_nextHost {route : Route} : r.MakesFiles w (r.nextHost w route) := by
  unfold nextHost
  split
  · exact makesFiles_proceed
  · exact makesFiles_proceed
  · split
    · exact makesFiles_useSource
    · exact makesFiles_approach
  · split
    · exact makesFiles_proceed
    · exact makesFiles_approach

theorem makesFiles_lookAgain : r.MakesFiles w (r.lookAgain w otherwise) := by
  unfold lookAgain
  split
  · exact makesFiles_proceed
  · split
    · exact makesFiles_proceed
    · exact makesFiles_useReplica

theorem makesFiles_enlist {peer : Node} {route : Route} :
    r.MakesFiles w (r.enlist w peer route) := by
  have made : r.Makes w (w.joinOrStart r.node.id r.request).1.files := by
    rw [World.files_joinOrStart]
    exact .same
  unfold enlist
  split <;> rename_i hticket <;> rw [hticket] at made <;> exact made

theorem makesFiles_accept {reply : Reply} {route : Route} :
    r.MakesFiles w (r.accept w reply route) := by
  unfold accept
  split
  · exact makesFiles_deliver .same
  · exact makesFiles_proceed

/-- **All that a step can make of the files.** -/
theorem makes_step (hstep : r.step w = .advance w' r') : r.Makes w w'.files := by
  have made : r.MakesFiles w (r.step w) := by
    unfold step
    split <;> rename_i hphase
    · exact makesFiles_takeKey
    · exact makesFiles_placeValue
    · exact .same
    · exact makesFiles_proceed
    · exact makesFiles_join (awaits_of_joining hphase)
    · exact makesFiles_useReplica
    · exact makesFiles_nextHost
    · exact makesFiles_lookAgain
    · exact makesFiles_enlist
    · exact makesFiles_join (awaits_of_joined hphase)
    · trivial
    · trivial
    · exact makesFiles_accept
    · exact .same
    · split <;> exact .same
    · exact .same
    · trivial
  rwa [hstep] at made

theorem Makes.keepsFiles (h : r.Makes w fs) : w.files.KeepsFiles fs := by
  cases h with
  | same => exact .refl _
  | writes _ _ => exact Value.keepsFiles_writeTo _ _ _
  | copies _ copied => exact World.keepsFiles_of_copyFile copied

theorem mem_copies {source : Path} (offers : r.Offers w source) :
    (source, r.localTarget.getD source) ∈ (Frame.obtain r).copies w :=
  List.mem_map.2 ⟨source, mem_offered offers, rfl⟩

theorem Makes.read_or_spoils (h : r.Makes w fs) (hread : w.files.read file = .ok held) :
    fs.read file = .ok held ∨ (Frame.obtain r).Spoils w file held := by
  cases h with
  | same => exact .inl hread
  | @writes value path resident here =>
    refine (value.sameBut_writeTo.read_or_meet hread).imp_right fun hmeet => .inl ?_
    exact ⟨Option.isSome_iff_exists.2 ⟨value, resident⟩, path, here, hmeet⟩
  | copies offers copied =>
    refine (World.read_of_copyFile copied hread).imp_right fun hspoils => .inr ?_
    exact ⟨_, mem_copies offers, hspoils⟩

/-- What a copy says that has ended is taken for true when the target has no path on the node. -/
theorem isTrue_of_isTold (silent : r.phase.report? = none) (hstep : r.step w = .advance w' r')
    (told : r.IsTold w) :
    (∀ path, r'.phase.report? = some (.path path) → w.files.HasFile path) ∨
      (Frame.obtain r).IsMisled w := by
  cases told with
  | reply answered told =>
    rw [answered, Phase.report?, told] at silent
    cases silent
  | @copy c target awaits outcome unplaced =>
    obtain ⟨otherwise, hjoin⟩ := step_of_awaits (w := w) awaits
    rw [hjoin, join, outcome] at hstep
    cases target with
    | object name =>
      cases hstep
      exact .inl (by rintro path ⟨⟩)
    | key key =>
      cases hstep
      exact .inl (by rintro path ⟨⟩)
    | path delivered =>
      have here : r.localTarget = none := unplaced.resolve_right fun hne => hne delivered rfl
      have stays : w.copyFile delivered delivered = .ok w :=
        World.copyFile_eq_ok_iff.2 (.inl ⟨Path.same_refl delivered, rfl⟩)
      simp only [takeOver, here, Option.getD_none, stays, deliver, Move.advance.injEq] at hstep
      obtain ⟨-, rfl⟩ := hstep
      by_cases hfile : w.files.HasFile delivered
      · refine .inl fun path hpath => ?_
        cases hpath
        exact hfile
      · refine .inr (.inl ⟨_, mem_copies (.copy awaits outcome), ?_⟩)
        rw [here]
        exact ⟨Path.same_refl delivered, hfile⟩

/-- **A resolution says that the item is in a file only where there is one**, unless it is
misled. -/
theorem isTrue_step (h : (Frame.obtain r).IsTrue w) (hstep : r.step w = .advance w' r') :
    (Frame.obtain r').IsTrue w' ∨ (Frame.obtain r).IsMisled w := by
  cases hverdict : r.verdict? with
  | some outcome =>
    obtain ⟨verdict', files, -⟩ := upkeep_step hverdict hstep
    refine .inl fun path hpath => ?_
    rw [files]
    apply h path
    rw [← hpath]
    exact (Phase.report?_of_verdict hverdict).trans (Phase.report?_of_verdict verdict').symm
  | none =>
    cases hreport : r.phase.report? with
    | some target =>
      -- The word of another node is taken.
      obtain ⟨reply, route, hphase, htarget⟩ := Phase.exists_of_report? hreport hverdict
      rw [step, hphase] at hstep
      simp only [accept, htarget, deliver, Move.advance.injEq] at hstep
      obtain ⟨rfl, rfl⟩ := hstep
      refine .inl fun path hpath => ?_
      rw [World.files_register]
      exact h path (hreport.trans hpath)
    | none =>
      have deed := deed_step hverdict hstep
      unfold Frame.IsTrue Frame.report?
      dsimp only
      generalize hsaid : r'.phase.report? = said at deed
      cases deed with
      | idle _ _ => exact .inl (by rintro path ⟨⟩)
      | takes _ => exact .inl (by rintro path ⟨⟩)
      | keeps _ => exact .inl (by rintro path ⟨⟩)
      | @finds path here there =>
        by_cases hfile : w.files.HasFile path
        · refine .inl fun path' hpath => ?_
          cases hpath
          exact hfile
        · exact .inr (.inr ⟨path, here, there, hfile⟩)
      | writes here written =>
        refine .inl fun path' hpath => ?_
        cases hpath
        rw [World.files_register]
        exact ⟨_, (Value.overwritten_writeTo written).2.read_eq⟩
      | @copies source path placed offers here copied =>
        rcases World.hasFile_of_copyFile copied with hfile | hmissing
        · refine .inl fun path' hpath => ?_
          cases hpath
          rwa [World.files_register]
        · refine .inr (.inl ⟨_, mem_copies offers, ?_⟩)
          rwa [here]
      | trusts told =>
        rw [← hsaid, World.files_register]
        exact isTrue_of_isTold hreport hstep told

end Resolution

/-! ## Deliveries -/

namespace Delivery

variable {δ δ' : Delivery} {w w' : World} {path file : Path} {held : List UInt8} {pushed : Bool}

/-- The world in which replicas are tried: there is no value, or it could not be written. -/
inductive Fallback (δ : Delivery) (w : World) (path : Path) : World → Prop
  | absent (noValue : (δ.item w).value = none) : Fallback δ w path w
  | unwritten {value : Value} {files : Files} {e : Failure}
      (resident : (δ.item w).value = some value)
      (failed : value.writeTo w.files path = (files, .error e)) :
      Fallback δ w path { w with files := files }

/-- What a push can do: it writes the value, or else copies a replica, or does neither. -/
inductive Pushes (δ : Delivery) (w : World) (path : Path) : World → Bool → Prop
  | value {value : Value} {files : Files} (resident : (δ.item w).value = some value)
      (written : value.writeTo w.files path = (files, .ok ())) :
      Pushes δ w path { w with files := files } true
  | replica {v placed : World} {source : Path} (fallback : Fallback δ w path v)
      (mem : source ∈ δ.request.sources v δ.node.id)
      (copied : v.copyFile source path = .ok placed) : Pushes δ w path placed true
  | nothing {v : World} (fallback : Fallback δ w path v) : Pushes δ w path v false

theorem Fallback.pushes {v : World} (fallback : Fallback δ w path v)
    (h : (match δ.pushReplica v path with | some w => (w, true) | none => (v, false)) =
      (w', pushed)) : Pushes δ w path w' pushed := by
  cases hreplica : δ.pushReplica v path with
  | none =>
    rw [hreplica] at h
    cases h
    exact .nothing fallback
  | some placed =>
    rw [hreplica] at h
    cases h
    obtain ⟨source, mem, copied⟩ := World.exists_of_copyFirst hreplica
    exact .replica fallback mem copied

theorem pushes_of_pushTo (h : δ.pushTo w path = (w', pushed)) : Pushes δ w path w' pushed := by
  cases hvalue : (δ.item w).value with
  | none =>
    simp only [pushTo, hvalue] at h
    exact (Fallback.absent hvalue).pushes h
  | some value =>
    rcases hwrite : value.writeTo w.files path with ⟨files, e | _⟩
    · simp only [pushTo, hvalue, hwrite] at h
      exact (Fallback.unwritten hvalue hwrite).pushes h
    · simp only [pushTo, hvalue, hwrite] at h
      cases h
      exact .value hvalue hwrite

namespace Fallback

variable {v : World} (h : Fallback δ w path v)

include h

theorem items_eq : v.items = w.items := by
  cases h <;> rfl

theorem keepsFiles : w.files.KeepsFiles v.files := by
  cases h with
  | absent _ => exact .refl _
  | @unwritten value files e _ failed =>
    have keeps := value.keepsFiles_writeTo w.files path
    rwa [failed] at keeps

theorem sameBut : Files.SameBut path w.files v.files := by
  cases h with
  | absent _ => exact .refl path _
  | @unwritten value files e _ failed =>
    have sameBut : Files.SameBut path w.files (value.writeTo w.files path).1 :=
      value.sameBut_writeTo
    rwa [failed] at sameBut

/-- Files are as they were, or there is a value. -/
theorem resident_or_files_eq : (δ.item w).value.isSome = true ∨ v.files = w.files := by
  cases h with
  | absent _ => exact .inr rfl
  | unwritten resident _ => exact .inl (Option.isSome_iff_exists.2 ⟨_, resident⟩)

theorem mem_copies (here : δ.outlet? = some path) {source : Path}
    (mem : source ∈ δ.request.sources v δ.node.id) : (source, path) ∈ (Frame.send δ).copies w := by
  rw [Request.sources, h.items_eq] at mem
  simp only [Frame.copies, here]
  exact List.mem_map.2 ⟨source, mem, rfl⟩

end Fallback

theorem spoils_of_resident (here : δ.outlet? = some path)
    (resident : (δ.item w).value.isSome = true) (hmeet : w.files.Meet file path) :
    (Frame.send δ).Spoils w file held :=
  .inl ⟨resident, path, here, hmeet⟩

namespace Pushes

variable (h : Pushes δ w path w' pushed)

include h

theorem keepsFiles : w.files.KeepsFiles w'.files := by
  cases h with
  | @value value files _ written =>
    have keeps := value.keepsFiles_writeTo w.files path
    rwa [written] at keeps
  | replica fallback _ copied =>
    exact fallback.keepsFiles.trans (World.keepsFiles_of_copyFile copied)
  | nothing fallback => exact fallback.keepsFiles

/-- What has been pushed is there. -/
theorem hasFile_or_isMisled (here : δ.outlet? = some path) (hpushed : pushed = true) :
    w'.files.HasFile path ∨ (Frame.send δ).IsMisled w := by
  cases h with
  | value _ written => exact .inl ⟨_, (Value.overwritten_writeTo written).2.read_eq⟩
  | replica fallback mem copied =>
    refine (World.hasFile_of_copyFile copied).imp_right fun hmissing => .inl ?_
    exact ⟨_, fallback.mem_copies here mem, hmissing.1, mt (fallback.keepsFiles path) hmissing.2⟩
  | nothing _ => cases hpushed

/-- A file is spoilt at the target only. -/
theorem read_or_spoils (here : δ.outlet? = some path) (hread : w.files.read file = .ok held) :
    w'.files.read file = .ok held ∨ (Frame.send δ).Spoils w file held := by
  -- Where there is a value it is to blame for all that happens at the target.
  have kept_or_resident : ∀ v, Fallback δ w path v → v.files.read file = .ok held ∨
      (Frame.send δ).Spoils w file held := by
    intro v fallback
    rcases fallback.resident_or_files_eq with resident | heq
    · refine (fallback.sameBut.read_or_meet hread).imp_right fun hmeet => ?_
      exact spoils_of_resident here resident hmeet
    · exact .inl (by rwa [heq])
  cases h with
  | @value value files resident written =>
    have sameBut : Files.SameBut path w.files (value.writeTo w.files path).1 :=
      value.sameBut_writeTo
    rw [written] at sameBut
    refine (sameBut.read_or_meet hread).imp_right fun hmeet => ?_
    exact spoils_of_resident here (Option.isSome_iff_exists.2 ⟨value, resident⟩) hmeet
  | @replica v _ source fallback mem copied =>
    refine (kept_or_resident v fallback).elim (fun hkept => ?_) .inr
    refine (World.read_of_copyFile copied hkept).imp_right fun hspoils => ?_
    rcases fallback.resident_or_files_eq with resident | heq
    · obtain ⟨⟨place, hfile, hpath⟩, -⟩ := hspoils
      refine spoils_of_resident here resident ⟨place, ?_, ?_⟩
      · exact fallback.sameBut.locate_iff.2 hfile
      · exact fallback.sameBut.locate_iff.2 hpath
    · rw [heq] at hspoils
      exact .inr ⟨_, fallback.mem_copies here mem, hspoils⟩
  | nothing fallback => exact kept_or_resident _ fallback

end Pushes

/-- **All that a step of a delivery does**: it pushes the item to the node that waits, or it touches
nothing and says what it has been told. -/
theorem step_cases (hstep : δ.step w = .advance w' δ') :
    δ'.request = δ.request ∧
      (w' = w ∧ δ'.phase.report? = δ.phase.report? ∨
        ∃ path pushed, δ.outlet? = some path ∧ δ.pushTo w path = (w', pushed) ∧
          δ'.phase.report? = if pushed then some (.path path) else none) := by
  unfold step push relay at hstep
  split at hstep <;> rename_i hphase
  · cases hstep
    exact ⟨rfl, .inl ⟨rfl, by rw [hphase]; rfl⟩⟩
  · rename_i host rest
    split at hstep
    · cases hstep
      exact ⟨rfl, .inl ⟨rfl, by rw [hphase]; rfl⟩⟩
    · split at hstep
      · rename_i hrequester
        split at hstep
        · cases hstep
          exact ⟨rfl, .inl ⟨rfl, by rw [hphase]; rfl⟩⟩
        · rename_i path hpath
          have here : δ.outlet? = some path := by rw [outlet?, hrequester]; exact hpath
          split at hstep <;> rename_i hpush <;> cases hstep
          · exact ⟨rfl, .inr ⟨path, true, here, hpush, rfl⟩⟩
          · exact ⟨rfl, .inr ⟨path, false, here, hpush, rfl⟩⟩
      · split at hstep
        · cases hstep
          exact ⟨rfl, .inl ⟨rfl, by rw [hphase]; rfl⟩⟩
        · cases hstep
  · cases hstep
  · rename_i reply rest
    split at hstep <;> rename_i hreply <;> cases hstep
    · exact ⟨rfl, .inl ⟨rfl, by rw [hphase]; exact hreply.symm⟩⟩
    · exact ⟨rfl, .inl ⟨rfl, by rw [hphase]; exact hreply.symm⟩⟩
  · cases hstep

end Delivery

/-! ## Frames -/

namespace Frame

variable {f f' : Frame} {w w' : World}

/-- **All that a step does to files.** It takes none away. If the frame says that the item is in a
file only where there is one, it goes on to do so, unless it is misled. And a file keeps its
content, unless it is spoilt. -/
theorem advance_spec (hstep : f.step w = .advance w' f') :
    f'.request = f.request ∧ w.files.KeepsFiles w'.files ∧
      (f.IsTrue w → f'.IsTrue w' ∨ f.IsMisled w) ∧
      ∀ file held, w.files.read file = .ok held →
        w'.files.read file = .ok held ∨ f.Spoils w file held := by
  cases f with
  | obtain r =>
    obtain ⟨r', hr, rfl⟩ := exists_of_lift_advance hstep
    have made := r.makes_step hr
    exact ⟨(r.effect_step hr).request_eq, made.keepsFiles, fun h => r.isTrue_step h hr,
      fun file held => made.read_or_spoils⟩
  | send δ =>
    obtain ⟨δ', hδ, rfl⟩ := exists_of_lift_advance hstep
    obtain ⟨request, ⟨rfl, report⟩ | ⟨path, pushed, here, hpush, report⟩⟩ := δ.step_cases hδ
    · refine ⟨request, .refl _, fun h => .inl fun path hpath => h path ?_, fun _ _ => .inl⟩
      exact report.symm.trans hpath
    · have pushes := Delivery.pushes_of_pushTo hpush
      refine ⟨request, pushes.keepsFiles, fun _ => ?_, fun file held => pushes.read_or_spoils here⟩
      cases pushed with
      | false => exact .inl (isTrue_of_report? report)
      | true =>
        refine (pushes.hasFile_or_isMisled here rfl).imp_left fun hfile path' hpath => ?_
        have heq : some (Target.path path') = some (.path path) := hpath.symm.trans report
        cases heq
        exact hfile

end Frame

end Wharf
