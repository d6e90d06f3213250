import Wharf.Proofs.Transfer.Trail

/-!
# What is delivered

If all that is to be found of an item holds one and the same content, then this is what is at the
target when the call ends well, in whichever way it was brought there.

* `World.Holds` says what is to be found: the value, the files, and what is at the target already.
* Every file of a trail is one of those, so a resolution is served with the content
  (`Resolution.Served.delivered`), unless it places the value at once.
* `Thread.delivers` is the result for calls.
-/

namespace Wharf

/-- All that is to be found of an item holds the same content. -/
structure World.Holds (q : Request) (path : Path) (content : List UInt8) (w : World) : Prop where
  value : ∀ v, (w.items.get q.item).value = some v → v.encode = ⟨content, none⟩
  files : ∀ source, q.Mentions w source → ∀ found, w.files.read source = .ok found →
    found = content
  target : (∃ source, q.Mentions w source ∧ source.same path = true) ∨ q.isKnown w = true →
    w.files.read path = .ok content

namespace Resolution

variable {n : LocalNode} {q : Request} {path source : Path} {content : List UInt8}
  {w w' : World} {outcome : Outcome}

/-- What is left when an item has been delivered: the content is at the target, which is known, and
no other file has changed. -/
structure Delivered (q : Request) (path : Path) (content : List UInt8) (w w' : World) : Prop where
  content : w'.files.read path = .ok content
  known : q.targetItem.isSome → q.isKnown w' = true
  elsewhere : ∀ place, w.files.locate path ≠ .ok place →
    w'.files.find place = w.files.find place

/-- What there is to say of the end of a call: if it is a good one, then the item was delivered. -/
def DeliversIfOk (q : Request) (path : Path) (content : List UInt8) (w : World)
    (outcome : Outcome) (w' : World) : Prop :=
  ∀ target, outcome = .ok target → target = .path path ∧ Delivered q path content w w'

theorem Delivered.of_sameBut (hread : w'.files.read path = .ok content)
    (items : (w.register q).SameItems w') (sameBut : Files.SameBut path w.files w'.files) :
    Delivered q path content w w' where
  content := hread
  known hsome := by
    obtain ⟨i, hi⟩ := Option.isSome_iff_exists.1 hsome
    refine Request.isKnown_iff.2 ⟨i, hi, ?_⟩
    rw [(items i).knows_eq]
    exact w.knows_register hi
  elsewhere place hne := (sameBut.elsewhere place hne).symm

/-- **A trail on which all files hold the content serves with the content.** -/
theorem Served.delivered {sources : List Path} {target : Target}
    (hc : w.Holds q path content)
    (hm : ∀ source ∈ sources, q.Mentions w source ∨ source = path ∧ q.isKnown w = true)
    (h : Served q path w sources (.ok target) w') :
    target = .path path ∧ Delivered q path content w w' := by
  generalize houtcome : Except.ok target = outcome at h
  induction h with
  | exhausted items kept => cases houtcome
  | brought can items brings =>
    rename_i source rest w'
    cases houtcome
    have hsource := hm source List.mem_cons_self
    refine ⟨rfl, ?_⟩
    cases brings with
    | stays same kept =>
      have faultless : ∀ v, (w.items.get q.item).value = some v → v.encode.fault = none := by
        intro v hv
        rw [hc.value v hv]
      have there : w.files.read path = .ok content := by
        refine hc.target (hsource.imp (fun mentioned => ⟨source, mentioned, same⟩) And.right)
      refine .of_sameBut ?_ items kept.sameBut
      rw [kept.unspoiled faultless, there]
    | copied ne read overwritten =>
      have mentioned : q.Mentions w source := by
        refine hsource.resolve_right fun hpath => ?_
        rw [hpath.1, Path.same_refl] at ne
        cases ne
      have heq := hc.files source mentioned _ read
      subst heq
      exact .of_sameBut overwritten.read_eq items overwritten.sameBut
  | missed cannot later ih =>
    exact ih (fun s hs => hm s (List.mem_cons_of_mem _ hs)) houtcome

end Resolution

namespace Thread

open Resolution

variable {n : LocalNode} {q : Request} {path : Path} {content : List UInt8} {w : World}

/-- **Delivered means delivered.** All nodes are own nodes, the item has no key and no copy in
progress, and the target is a file of this node only. If all that is to be found of the item holds
the content, then the call returns; and when it ends well it does so with the path of the target,
the content is there, the target's item knows about it, and no other file has changed. -/
theorem delivers (hlocal : w.directory.IsLocal) (hquiet : w.Quiet q.item)
    (hsettled : (w.items.get q.item).IsSettled) (hkey : (w.items.get q.item).key? = none)
    (htarget : q.target.pathIn n.id = some path) (honly : ∀ host ∈ q.target.hosts, host = n.id)
    (hspelled : ∀ source, q.Mentions w source → source.same path = false →
      ∀ place, w.files.locate source = .ok place → w.files.locate path ≠ .ok place)
    (hholds : w.Holds q path content) :
    Finishes w (.start .obtain n q) ∧ ∀ w' target, Ends w (.start .obtain n q) w' (.ok target) →
      target = .path path ∧ w'.files.read path = .ok content ∧
        (q.targetItem.isSome → q.isKnown w' = true) ∧
        ∀ place, w.files.locate path ≠ .ok place → w'.files.find place = w.files.find place := by
  have faultless : ∀ v, (w.items.get q.item).value = some v → v.encode.fault = none := by
    intro v hv
    rw [hholds.value v hv]
  have hu : Uncontested n q path w :=
    { isLocal := hlocal
      spares := w.directory.sparesObtain_of_hosts honly
      quiet := hquiet
      settled := hsettled
      noKey := hkey
      target := htarget
      apart := hspelled
      known := fun hknown => ⟨Files.exists?_of_read (hholds.target (.inr hknown)), faultless⟩ }
  have yields : YieldsFrom n q none .start w (DeliversIfOk q path content w) := by
    have served : Unplaced n q path w →
        YieldsFrom n q none .start w (DeliversIfOk q path content w) := by
      refine fun hv => (yields_served hu hv).mono fun outcome w' h target houtcome => ?_
      subst houtcome
      exact h.delivered hholds fun _ => mentions_of_mem_trail
    cases hvalue : (w.items.get q.item).value with
    | none =>
      refine served fun v hv => ?_
      rw [hvalue] at hv
      cases hv
    | some v =>
      cases hwrite : v.writeTo w.files path with
      | mk fs result =>
        cases result with
        | ok _ =>
          obtain ⟨-, overwritten⟩ := Value.overwritten_writeTo hwrite
          rw [hholds.value v hvalue] at overwritten
          refine yields_placed hkey htarget hvalue hwrite fun u hfiles items target ho => ?_
          cases ho
          subst hfiles
          exact ⟨rfl, .of_sameBut overwritten.read_eq items overwritten.sameBut⟩
        | error e =>
          cases hpolicy : n.policy with
          | authoritative =>
            exact yields_refused hkey htarget hvalue hpolicy hwrite fun _ _ _ _ ho => nomatch ho
          | fallThrough =>
            -- The value has no fault of its own, so it is the target that cannot be written.
            refine served fun v' hv' => ⟨hpolicy, .inr fun place hplace => ?_⟩
            rw [hvalue] at hv'
            cases hv'
            simp only [Value.writeTo, Files.create, hplace, faultless v hvalue] at hwrite
            cases hwrite
  obtain ⟨w', outcome, hends, hdelivered⟩ := yields.exists_ends
  refine ⟨hends.finishes, fun v target hv => ?_⟩
  obtain ⟨rfl, houtcome⟩ := hends.unique hv
  obtain ⟨htarget, delivered⟩ := hdelivered target houtcome.symm
  exact ⟨htarget, delivered.content, delivered.known, delivered.elsewhere⟩

/-- The first of two nodes gets hold of what the second one has in a file. -/
theorem delivers_two_nodes :
    let node (id : NodeId) (directory : String) : LocalNode :=
      ⟨id, directory, ⟨directory⟩, .authoritative⟩
    let files := [["tmp", "work", "n1"], ["tmp", "work", "n2"]].foldl
      (fun fs place => Files.put fs place .directory) Files.empty
    let world : World :=
      { files := files.put ["tmp", "work", "n2", "x"] (.file [120])
        items := (Cells.empty.push { Item.named "x" with
          locations := [.file [⟨2, ⟨"n2/x"⟩⟩]] }).push (.named "y")
        copies := .empty
        directory := (Directory.empty.register (.own (node 1 "n1"))).register
          (.own (node 2 "n2")) }
    let request : Request := ⟨0, none, .file [⟨1, ⟨"n1/x"⟩⟩], some 1, none⟩
    ∃ w', Ends world (.start .obtain (node 1 "n1") request) w' (.ok (.path ⟨"n1/x"⟩)) ∧
      w'.files.read ⟨"n1/x"⟩ = .ok [120] ∧ request.isKnown w' = true ∧
      ∀ place, world.files.locate ⟨"n1/x"⟩ ≠ .ok place →
        w'.files.find place = world.files.find place := by
  intro node files world request
  have mentioned : ∀ source, request.Mentions world source → source = ⟨"n2/x"⟩ :=
    fun _ => Request.eq_of_mentions ⟨2, ⟨"n2/x"⟩⟩ rfl rfl
  have there : world.files.locate ⟨"n2/x"⟩ = .ok ["tmp", "work", "n2", "x"] := by decide +kernel
  have target : world.files.locate ⟨"n1/x"⟩ = .ok ["tmp", "work", "n1", "x"] := by decide +kernel
  have content : world.files.read ⟨"n2/x"⟩ = .ok [120] := by decide +kernel
  have holds : world.Holds request ⟨"n1/x"⟩ [120] := by
    refine ⟨nofun, fun source hm found hread => ?_, ?_⟩
    · rw [mentioned source hm, content, Except.ok.injEq] at hread
      exact hread.symm
    · rintro (⟨source, hm, same⟩ | known)
      · rw [mentioned source hm] at same
        revert same
        decide
      · revert known
        decide
  obtain ⟨-, hends⟩ := delivers ((Directory.isLocal_empty.register _).register _)
    (fun c hc => List.not_mem_nil.elim hc) (fun _ => rfl) rfl rfl (by decide)
    (fun source hm _ place hplace hpath => by
      rw [mentioned source hm, there, Except.ok.injEq] at hplace
      rw [target, ← hplace] at hpath
      revert hpath
      decide) holds (n := node 1 "n1") (q := request)
  obtain ⟨w', ends⟩ : ∃ w', Ends world (.start .obtain (node 1 "n1") request) w'
      (.ok (.path ⟨"n1/x"⟩)) := ⟨_, ends_of_outcomeIn 40 (by decide +kernel)⟩
  obtain ⟨-, hread, hknown, helsewhere⟩ := hends _ _ ends
  exact ⟨w', ends, hread, hknown rfl, helsewhere⟩

end Thread

end Wharf
