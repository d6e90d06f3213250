import Wharf.Proofs.Transfer.Outcomes
import Wharf.Proofs.Transfer.Overwrites

/-!
# What a success leaves on disk

A call goes on in the company of others. What can be said of the files when it has ended depends on
what it has come upon in its course.

* `Thread.Proceeds` is a run of a call among others, with the moments at which it moved.
* `Thread.goes_spec` is all that a move does to files, and `Thread.Proceeds.spec` all that a run
  does: what is said to be in a file is there unless the call was misled at some moment, and a file
  keeps its content unless it was spoilt at some moment.
* `Resolution.proceeds_of_stranded` says when the ways to get an item are given up.
* `Thread.success_leaves_files` puts this together for a call to get hold of an item. A call that is
  misled ends well without a file (`Thread.success_without_file`).
-/

namespace Wharf

theorem Request.Alike.trans {q q' q'' : Request} (h : q.Alike q') (h' : q'.Alike q'') :
    q.Alike q'' where
  item := h'.item.trans h.item
  source := h'.source.trans h.source
  target := h'.target.trans h.target
  targetItem := h'.targetItem.trans h.targetItem

/-! ## Nothing to copy -/

/-- A copy that gets through has found its source, or has not looked for it. -/
theorem World.hasFile_or_same_of_copyFile {w w' : World} {source target : Path}
    (h : w.copyFile source target = .ok w') :
    w.files.HasFile source ∨ source.same target = true := by
  rcases copyFile_eq_ok_iff.1 h with ⟨same, -⟩ | ⟨-, files, hcopy, -⟩
  · exact .inr same
  · obtain ⟨content, place, hread, -⟩ := Files.exists_of_copy hcopy
    exact .inl ⟨content, hread⟩

/-- None of the files to be copied is there, and none is spelled like the target. -/
def Frame.IsStranded (w : World) (f : Frame) : Prop :=
  ∀ c ∈ f.copies w, ¬ w.files.HasFile c.1 ∧ c.1.same c.2 = false

instance (w : World) (f : Frame) : Decidable (f.IsStranded w) :=
  inferInstanceAs (Decidable (∀ c ∈ f.copies w, ¬ w.files.HasFile c.1 ∧ c.1.same c.2 = false))

theorem Frame.IsStranded.copyFile_ne_ok {w w' : World} {f : Frame} {source path : Path}
    (h : f.IsStranded w) (mem : (source, path) ∈ f.copies w) :
    w.copyFile source path ≠ .ok w' := by
  intro copied
  obtain ⟨missing, ne⟩ := h _ mem
  rcases World.hasFile_or_same_of_copyFile copied with hfile | same
  · exact missing hfile
  · rw [ne] at same
    cases same

/-- **With nothing to copy a resolution tries the next way**: after its own replicas, after the
declared source, and after a copy that has brought a file. -/
theorem Resolution.proceeds_of_stranded {r : Resolution} {w : World}
    (h : (Frame.obtain r).IsStranded w) (otherwise : Phase) :
    r.useReplica w otherwise = r.proceed w otherwise ∧
      r.useSource w otherwise = r.proceed w otherwise ∧
      ∀ c path, r.awaits = some c → (w.copies.get c).outcome = some (.ok (.path path)) →
        r.join w c otherwise = r.proceed w otherwise := by
  have fails : ∀ source w', r.Offers w source →
      w.copyFile source (r.localTarget.getD source) ≠ .ok w' :=
    fun source w' offers => h.copyFile_ne_ok (mem_copies offers)
  refine ⟨?_, ?_, fun c path awaits outcome => ?_⟩
  · unfold useReplica copyReplica
    cases here : r.localTarget with
    | none => rfl
    | some path =>
      dsimp only
      cases hfirst : w.copyFirst path (World.pathsIn r.node.id (r.item w).locations) with
      | none => rfl
      | some placed =>
        obtain ⟨source, mem, copied⟩ := World.exists_of_copyFirst hfirst
        exact absurd (by rwa [here]) (fails source placed (.replica mem))
  · unfold useSource
    split
    · rename_i source path declared here
      split
      · rename_i placed copied
        exact absurd (by rwa [here]) (fails source placed (.declared declared))
      · rfl
    · rfl
  · unfold join takeOver
    simp only [outcome]
    split
    · rename_i placed copied
      exact absurd copied (fails path placed (.copy awaits outcome))
    · rfl

/-- With nothing to copy a delivery finds no replica to push. -/
theorem Delivery.pushReplica_of_stranded {δ : Delivery} {w : World} {path : Path}
    (h : (Frame.send δ).IsStranded w) (here : δ.outlet? = some path) :
    δ.pushReplica w path = none := by
  cases hpush : δ.pushReplica w path with
  | none => rfl
  | some placed =>
    obtain ⟨source, mem, copied⟩ := World.exists_of_copyFirst hpush
    refine absurd copied (h.copyFile_ne_ok ?_)
    simp only [Frame.copies, here]
    exact List.mem_map.2 ⟨source, mem, rfl⟩

/-! ## Calls and replies -/

namespace Frame

variable {f f' : Frame} {w : World}

@[simp]
theorem report?_start (kind : CallKind) (n : LocalNode) (q : Request) :
    (Frame.start kind n q).report? = none := by
  cases kind <;> rfl

@[simp]
theorem request_start (kind : CallKind) (n : LocalNode) (q : Request) :
    (Frame.start kind n q).request = q := by
  cases kind <;> rfl

/-- A call asks for the same item at the same target, and nothing is said of it before the reply. -/
theorem call_spec {peer : Node} {q : Request} (hstep : f.step w = .call peer q f') :
    f'.request = f.request ∧ f'.report? = none ∧ f.request.Alike q := by
  cases f with
  | obtain r =>
    obtain ⟨r', hcall, rfl⟩ := exists_of_lift_call hstep
    have calls := r.canMake_step w
    rw [hcall] at calls
    obtain ⟨route, -, rfl, rfl⟩ := calls
    exact ⟨rfl, rfl, ⟨rfl, rfl, rfl, rfl⟩⟩
  | send δ =>
    obtain ⟨δ', hcall, rfl⟩ := exists_of_lift_call hstep
    have calls := δ.canMake_step w
    rw [hcall] at calls
    obtain ⟨host, rest, -, -, rfl, rfl⟩ := calls
    exact ⟨rfl, rfl, ⟨rfl, rfl, rfl, rfl⟩⟩

/-- A frame ends with what it has said. -/
theorem report?_of_finish {outcome : Outcome} (hstep : f.step w = .finish outcome) :
    f.report? = outcome.toOption := by
  cases f with
  | obtain r =>
    have hdone := r.canMake_step w
    rw [eq_of_lift_finish hstep] at hdone
    exact Phase.report?_of_verdict (congrArg Phase.verdict? hdone)
  | send δ =>
    have hdone := δ.canMake_step w
    rw [eq_of_lift_finish hstep] at hdone
    change δ.phase = .done outcome at hdone
    rw [report?, hdone]
    cases outcome <;> rfl

/-- A reply goes to those that wait for one, and they say what it says. -/
theorem answer_spec (f : Frame) (reply : Reply) :
    (f.answer reply).request = f.request ∧
      ((f.answer reply).report? = f.report? ∨ (f.answer reply).report? = reply.target?) := by
  cases f with
  | obtain r =>
    rw [answer, Resolution.answer]
    split
    · exact ⟨rfl, .inr rfl⟩
    · exact ⟨rfl, .inl rfl⟩
  | send δ =>
    rw [answer, Delivery.answer]
    split
    · exact ⟨rfl, .inr rfl⟩
    · exact ⟨rfl, .inl rfl⟩

end Frame

/-! ## Moves -/

namespace Thread

variable {q : Request} {w w' : World} {t t' : Thread}

/-- Each frame says that the item is in a file only where there is one. -/
def IsTrue (w : World) (t : Thread) : Prop := ∀ f ∈ t.frame :: t.callers, f.IsTrue w

/-- Each frame works on the request, whoever waits for it. -/
def IsFor (q : Request) (t : Thread) : Prop := ∀ f ∈ t.frame :: t.callers, q.Alike f.request

theorem IsTrue.mono (h : t.IsTrue w) (keeps : w.files.KeepsFiles w'.files) : t.IsTrue w' :=
  fun f hf => (h f hf).mono keeps

/-- **All that a move does to files.** -/
theorem goes_spec (h : Goes (w, t) (w', t')) :
    (t.IsFor q → t'.IsFor q) ∧ w.files.KeepsFiles w'.files ∧
      (t.IsTrue w → t'.IsTrue w' ∨ t.frame.IsMisled w) ∧
      ∀ file held, w.files.read file = .ok held →
        w'.files.read file = .ok held ∨ t.frame.Spoils w file held := by
  obtain ⟨f, callers⟩ := t
  change Thread.step ⟨f, callers⟩ w = .running w' t' at h
  unfold Thread.step follow at h
  split at h <;> rename_i hstep
  · cases h
    obtain ⟨request, keeps, isTrue, kept⟩ := Frame.advance_spec hstep
    refine ⟨fun hfor => ?_, keeps, fun htrue => ?_, kept⟩
    · obtain ⟨hf, hcallers⟩ := List.forall_mem_cons.1 hfor
      exact List.forall_mem_cons.2 ⟨request ▸ hf, hcallers⟩
    · obtain ⟨hf, hcallers⟩ := List.forall_mem_cons.1 htrue
      refine (isTrue hf).imp_left fun hf' => List.forall_mem_cons.2 ⟨hf', ?_⟩
      exact fun g hg => (hcallers g hg).mono keeps
  · cases h
  · cases h
    obtain ⟨request, silent, alike⟩ := Frame.call_spec hstep
    refine ⟨fun hfor => ?_, .refl _, fun htrue => .inl ?_, fun _ _ => .inl⟩
    · obtain ⟨hf, hcallers⟩ := List.forall_mem_cons.1 hfor
      refine List.forall_mem_cons.2 ⟨?_, List.forall_mem_cons.2 ⟨request ▸ hf, hcallers⟩⟩
      rw [Frame.request_start]
      exact Request.Alike.trans hf alike
    · obtain ⟨-, hcallers⟩ := List.forall_mem_cons.1 htrue
      refine List.forall_mem_cons.2 ⟨?_, List.forall_mem_cons.2 ⟨?_, hcallers⟩⟩
      · exact Frame.isTrue_of_report? (Frame.report?_start _ _ _)
      · exact Frame.isTrue_of_report? silent
  · cases h
  · rename_i outcome
    split at h <;> rename_i hcallers <;> cases h
    rename_i caller rest
    dsimp only at hcallers
    subst hcallers
    obtain ⟨request, said⟩ := Frame.answer_spec caller (.notified outcome)
    refine ⟨fun hfor => ?_, .refl _, fun htrue => .inl ?_, fun _ _ => .inl⟩
    · obtain ⟨-, hcallers⟩ := List.forall_mem_cons.1 hfor
      obtain ⟨hcaller, hrest⟩ := List.forall_mem_cons.1 hcallers
      exact List.forall_mem_cons.2 ⟨request ▸ hcaller, hrest⟩
    · -- The caller says what it has said before, or what the frame has ended with.
      obtain ⟨hf, hcallers⟩ := List.forall_mem_cons.1 htrue
      obtain ⟨hcaller, hrest⟩ := List.forall_mem_cons.1 hcallers
      refine List.forall_mem_cons.2 ⟨fun path hpath => ?_, hrest⟩
      rcases said with heq | heq
      · exact hcaller path (heq.symm.trans hpath)
      · have told : (Reply.notified outcome).target? = outcome.toOption := by cases outcome <;> rfl
        apply hf path
        rw [Frame.report?_of_finish hstep, ← told, ← heq, hpath]

/-! ## Runs -/

/-- A run of a call among others, with the moments at which it moved itself. In between others do
something to the world. -/
inductive Proceeds (others : World → World → Prop) (a : World × Thread) :
    List (World × Thread) → World × Thread → Prop
  | refl : Proceeds others a [] a
  | move {moments : List (World × Thread)} {b c : World × Thread}
      (run : Proceeds others a moments b) (goes : Goes b c) : Proceeds others a (moments ++ [b]) c
  | other {moments : List (World × Thread)} {b : World × Thread} {w : World}
      (run : Proceeds others a moments b) (change : others b.1 w) :
      Proceeds others a moments (w, b.2)

variable {others : World → World → Prop} {a b c : World × Thread} {moments : List (World × Thread)}

theorem Proceeds.head (goes : Goes a b) (run : Proceeds others b moments c) :
    Proceeds others a (a :: moments) c := by
  induction run with
  | refl => exact .move .refl goes
  | move _ hgoes ih => exact .move ih hgoes
  | other _ change ih => exact .other ih change

/-- The moments of so many moves, as far as a thread goes by itself. -/
def trace : Nat → World × Thread → List (World × Thread)
  | 0, _ => []
  | steps + 1, a =>
    match a.2.step a.1 with
    | .running w t => a :: trace steps (w, t)
    | _ => []

theorem proceeds_walk (others : World → World → Prop) (steps : Nat) (a : World × Thread) :
    Proceeds others a (trace steps a) (walk steps a) := by
  induction steps generalizing a with
  | zero => exact .refl
  | succ steps ih =>
    cases hstep : a.2.step a.1 with
    | running w t =>
      simp only [trace, walk, hstep]
      have hgoes : Goes a (w, t) := hstep
      exact .head hgoes (ih (w, t))
    | waiting | calling _ _ | finished _ =>
      simp only [trace, walk, hstep]
      exact .refl

/-- **All that a run does to files**, as long as others take none away. -/
theorem Proceeds.spec (run : Proceeds others a moments b)
    (hothers : ∀ u v, others u v → u.files.KeepsFiles v.files) (hfor : a.2.IsFor q)
    (htrue : a.2.IsTrue a.1) :
    b.2.IsFor q ∧ (∀ m ∈ moments, m.2.IsFor q) ∧ a.1.files.KeepsFiles b.1.files ∧
      (b.2.IsTrue b.1 ∨ ∃ m ∈ moments, m.2.frame.IsMisled m.1) ∧
      ∀ file held, a.1.files.read file = .ok held →
        (∀ u v, others u v → u.files.read file = .ok held → v.files.read file = .ok held) →
        b.1.files.read file = .ok held ∨ ∃ m ∈ moments, m.2.frame.Spoils m.1 file held := by
  induction run with
  | refl => exact ⟨hfor, by simp, .refl _, .inl htrue, fun _ _ hread _ => .inl hread⟩
  | @move moments b c _ hgoes ih =>
    obtain ⟨hforb, hformoments, keeps, said, kept⟩ := ih
    obtain ⟨hforc, keepsc, saidc, keptc⟩ := goes_spec (q := q) hgoes
    have earlier : ∀ m ∈ moments, m ∈ moments ++ [b] := fun m => List.mem_append_left [b]
    have now : b ∈ moments ++ [b] := List.mem_append_right moments (List.mem_singleton_self b)
    refine ⟨hforc hforb, ?_, keeps.trans keepsc, ?_, fun file held hread hkeep => ?_⟩
    · intro m hm
      rcases List.mem_append.1 hm with hm | hm
      · exact hformoments m hm
      · rwa [List.mem_singleton.1 hm]
    · rcases said with said | ⟨m, hm, misled⟩
      · exact (saidc said).imp_right fun misled => ⟨b, now, misled⟩
      · exact .inr ⟨m, earlier m hm, misled⟩
    · rcases kept file held hread hkeep with kept | ⟨m, hm, spoils⟩
      · exact (keptc file held kept).imp_right fun spoils => ⟨b, now, spoils⟩
      · exact .inr ⟨m, earlier m hm, spoils⟩
  | @other moments b v _ change ih =>
    obtain ⟨hforb, hformoments, keeps, said, kept⟩ := ih
    have keepsv : b.1.files.KeepsFiles v.files := hothers _ _ change
    refine ⟨hforb, hformoments, keeps.trans keepsv, ?_, fun file held hread hkeep => ?_⟩
    · exact said.imp_left fun said => said.mono keepsv
    · exact (kept file held hread hkeep).imp_left fun kept => hkeep _ _ change kept

/-- What a thread ends with it has said. -/
theorem report?_of_finished {outcome : Outcome} (h : t.step w = .finished outcome) :
    t.frame.report? = outcome.toOption := by
  unfold step follow at h
  split at h <;> rename_i hstep
  · cases h
  · cases h
  · cases h
  · cases h
  · split at h <;> cases h
    exact Frame.report?_of_finish hstep

/-- **What a success leaves on disk.** A node gets hold of an item, and all nodes that are called
are own nodes. Others may do anything meanwhile that takes no file away, as calls to own nodes do.

* When the call ends with a path, a file is there, unless the call was misled at some moment: the
  target had no file, but was a directory, or was spelled like a file to be copied there.
* No file is taken away, and one that others leave alone keeps its content, unless it was spoilt at
  some moment: it was at the target, and a value could come there, or a file with another content,
  or it could be copied to itself under another spelling.
* Whatever is tried is tried for this request. Where none of the files to be copied is there, and
  none is spelled like the target, the next way is tried. -/
theorem success_leaves_files {n : LocalNode} {q : Request} {others : World → World → Prop}
    {w w' : World} {t : Thread} {moments : List (World × Thread)}
    (hothers : ∀ u v, others u v → u.files.KeepsFiles v.files)
    (run : Proceeds others (w, .start .obtain n q) moments (w', t)) :
    (∀ path, t.step w' = .finished (.ok (.path path)) →
      w'.files.HasFile path ∨ ∃ m ∈ moments, m.2.frame.IsMisled m.1) ∧
    w.files.KeepsFiles w'.files ∧
    (∀ file held, w.files.read file = .ok held →
      (∀ u v, others u v → u.files.read file = .ok held → v.files.read file = .ok held) →
      w'.files.read file = .ok held ∨ ∃ m ∈ moments, m.2.frame.Spoils m.1 file held) ∧
    ∀ m ∈ moments, q.Alike m.2.frame.request ∧ (m.2.frame.IsStranded m.1 →
      (∀ r, m.2.frame = .obtain r → ∀ otherwise,
        r.useReplica m.1 otherwise = r.proceed m.1 otherwise ∧
        r.useSource m.1 otherwise = r.proceed m.1 otherwise ∧
        ∀ c path, r.awaits = some c → (m.1.copies.get c).outcome = some (.ok (.path path)) →
          r.join m.1 c otherwise = r.proceed m.1 otherwise) ∧
      ∀ δ path, m.2.frame = .send δ → δ.outlet? = some path → δ.pushReplica m.1 path = none) := by
  have hfor : (Thread.start .obtain n q).IsFor q := by
    intro f hf
    rw [List.mem_singleton.1 hf]
    exact ⟨rfl, rfl, rfl, rfl⟩
  have htrue : (Thread.start .obtain n q).IsTrue w := by
    intro f hf
    rw [List.mem_singleton.1 hf]
    exact Frame.isTrue_of_report? rfl
  obtain ⟨-, hformoments, keeps, said, kept⟩ := run.spec hothers hfor htrue
  refine ⟨fun path hfinished => ?_, keeps, kept, fun m hm => ⟨?_, fun stranded => ⟨?_, ?_⟩⟩⟩
  · refine said.imp_left fun said => said t.frame List.mem_cons_self path ?_
    exact report?_of_finished hfinished
  · exact hformoments m hm m.2.frame List.mem_cons_self
  · intro r hr otherwise
    rw [hr] at stranded
    exact Resolution.proceeds_of_stranded stranded otherwise
  · intro δ path hδ here
    rw [hδ] at stranded
    exact Delivery.pushReplica_of_stranded stranded here

/-- The first of two nodes has lost its replica. It asks the second one, which brings what it has to
another path of the first node. -/
theorem success_leaves_files_two_replicas :
    let node (id : NodeId) (directory : String) : LocalNode :=
      ⟨id, directory, ⟨directory⟩, .authoritative⟩
    let files := [["tmp", "work", "n1"], ["tmp", "work", "n2"]].foldl
      (fun fs place => Files.put fs place .directory) Files.empty
    let world : World :=
      { files := files.put ["tmp", "work", "n2", "x"] (.file [120])
        items := Cells.empty.push { Item.named "x" with
          locations := [.file [⟨1, ⟨"n1/lost"⟩⟩], .file [⟨2, ⟨"n2/x"⟩⟩]] }
        copies := .empty
        directory := (Directory.empty.register (.own (node 1 "n1"))).register
          (.own (node 2 "n2")) }
    let request : Request := ⟨0, none, .file [⟨1, ⟨"n1/y"⟩⟩], none, none⟩
    let others (u v : World) : Prop := v.files = u.files
    ∃ moments w t, Proceeds others (world, .start .obtain (node 1 "n1") request) moments (w, t) ∧
      (∃ m ∈ moments, m.2.frame.IsStranded m.1) ∧
      t.step w = .finished (.ok (.path ⟨"n1/y"⟩)) ∧ w.files.HasFile ⟨"n1/y"⟩ ∧
      w.files.read ⟨"n2/x"⟩ = .ok [120] := by
  intro node files world request others
  let a : World × Thread := (world, .start .obtain (node 1 "n1") request)
  have hothers : ∀ u v, others u v → u.files.KeepsFiles v.files := by
    intro u v same
    rw [show v.files = u.files from same]
    exact .refl _
  have untouched : ∀ u v, others u v →
      u.files.read ⟨"n2/x"⟩ = .ok [120] → v.files.read ⟨"n2/x"⟩ = .ok [120] := by
    intro u v same hread
    rwa [show v.files = u.files from same]
  have run : Proceeds others a (trace 40 a) (walk 40 a) := proceeds_walk others 40 a
  obtain ⟨said, -, kept, -⟩ := success_leaves_files hothers run
  have finished : (walk 40 a).2.step (walk 40 a).1 = .finished (.ok (.path ⟨"n1/y"⟩)) :=
    step_of_outcomeIn 40 (by decide +kernel)
  have notMisled : ¬ ∃ m ∈ trace 40 a, m.2.frame.IsMisled m.1 := by decide +kernel
  have notSpoilt : ¬ ∃ m ∈ trace 40 a, m.2.frame.Spoils m.1 ⟨"n2/x"⟩ [120] := by decide +kernel
  refine ⟨trace 40 a, (walk 40 a).1, (walk 40 a).2, run, ?_, finished, ?_, ?_⟩
  · decide +kernel
  · exact (said _ finished).resolve_right notMisled
  · exact (kept _ _ (by decide +kernel) untouched).resolve_right notSpoilt

/-- **Two ways to succeed without the item.**

* The target is known to have the item, but its file is lost. The call ends well, no file is there,
  and the second node, which has one, is not asked.
* The only replica is the target in another spelling. The call ends well, and the file is empty. -/
theorem success_without_file :
    let node (id : NodeId) (directory : String) : LocalNode :=
      ⟨id, directory, ⟨directory⟩, .authoritative⟩
    let files := [["tmp", "work", "n1"], ["tmp", "work", "n2"]].foldl
      (fun fs place => Files.put fs place .directory) Files.empty
    let world (place : Place) (locations : List Location) : World :=
      { files := files.put place (.file [120])
        items := Cells.empty.push { Item.named "x" with locations := locations }
        copies := .empty
        directory := (Directory.empty.register (.own (node 1 "n1"))).register
          (.own (node 2 "n2")) }
    let request : Request := ⟨0, none, .file [⟨1, ⟨"n1/x"⟩⟩], none, none⟩
    let lost : World := world ["tmp", "work", "n2", "x"]
      [.file [⟨1, ⟨"n1/x"⟩⟩], .file [⟨2, ⟨"n2/x"⟩⟩]]
    let respelled : World := world ["tmp", "work", "n1", "x"] [.file [⟨1, ⟨"./n1/x"⟩⟩]]
    (∃ w, Ends lost (.start .obtain (node 1 "n1") request) w (.ok (.path ⟨"n1/x"⟩)) ∧
      lost.files.HasFile ⟨"n2/x"⟩ ∧ ¬ w.files.HasFile ⟨"n1/x"⟩) ∧
    ∃ w, Ends respelled (.start .obtain (node 1 "n1") request) w (.ok (.path ⟨"n1/x"⟩)) ∧
      respelled.files.read ⟨"./n1/x"⟩ = .ok [120] ∧ w.files.read ⟨"./n1/x"⟩ = .ok [] := by
  intro node files world request lost respelled
  exact ⟨⟨_, ends_of_outcomeIn 20 (by decide +kernel), by decide +kernel, by decide +kernel⟩,
    ⟨_, ends_of_outcomeIn 20 (by decide +kernel), by decide +kernel, by decide +kernel⟩⟩

end Thread

end Wharf
