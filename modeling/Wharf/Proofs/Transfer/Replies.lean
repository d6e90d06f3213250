import Mathlib.Data.List.Basic
import Wharf.Proofs.Transfer.Registrations
import Wharf.Proofs.Transfer.Trail

/-!
# What other nodes say

A resolution takes the word of the nodes that it calls. In a call that is left alone, with own nodes
only, it can: a node that says that it has brought the item to the target has done so.

* `Request.IsOpen` is what holds as long as the item has not been brought anywhere, and
  `Location.IsThere` what holds when it has been.
* `Thread.IsSound` is the invariant. The frame that is worked on says that the item is at the target
  only when it is there, and before that nothing is registered. Every step keeps it
  (`Thread.IsSound.step`): an advance (`Resolution.stands_step`, `Delivery.Deed.stands`), a call
  (`Thread.IsSound.call`) and a return (`Thread.IsSound.answer`).
* `Resolution.registers_truthfully` is what follows, with what can be said of a step alone.
-/

namespace Wharf

/-- As far as files tell, the item is at the location. It never gets to the persistent store. -/
def Location.IsThere (fs : Files) : Location → Prop
  | memory .. => True
  | file replicas => ∃ replica ∈ replicas, fs.exists? replica.path = true
  | persistent _ => False

theorem Location.isThere_of_exists? {l : Location} {node : NodeId} {path : Path} {fs : Files}
    (hpath : l.pathIn node = some path) (h : fs.exists? path = true) : l.IsThere fs := by
  cases l with
  | file replicas =>
    obtain ⟨replica, hfind, rfl⟩ := Option.map_eq_some_iff.1 hpath
    exact ⟨replica, List.mem_of_find?_eq_some hfind, h⟩
  | memory _ _ => cases hpath
  | persistent _ => cases hpath

namespace Request

variable {q q' : Request} {w w' : World}

/-- A file that is mentioned and is the target itself, as some host sees it, is there. -/
def IsBacked (q : Request) (w : World) : Prop :=
  ∀ source path host, q.Mentions w source → q.target.pathIn host = some path →
    source.same path = true → w.files.exists? path = true

/-- The item has not been brought anywhere yet. -/
structure IsOpen (q : Request) (w : World) : Prop where
  noKey : (w.items.get q.item).key? = none
  backed : q.IsBacked w

theorem IsOpen.mono (h : q.IsOpen w) (within : (w'.items.get q.item).Within (w.items.get q.item))
    (grows : w.files.Grows w'.files) : q.IsOpen w' where
  noKey := within.key?_eq_none h.noKey
  backed := by
    rintro source path host ⟨l, hl, node, hpath⟩ htarget same
    refine grows path (h.backed source path host ?_ htarget same)
    rcases List.mem_append.1 hl with hl | hl
    · exact ⟨l, List.mem_append_left _ hl, node, hpath⟩
    · obtain ⟨m, hm, hlm⟩ := within l hl
      exact ⟨m, List.mem_append_right _ hm, node, hlm.pathIn node source hpath⟩

/-- The same request, whoever waits for it. -/
structure Alike (q q' : Request) : Prop where
  item : q'.item = q.item
  source : q'.source = q.source
  target : q'.target = q.target
  targetItem : q'.targetItem = q.targetItem

theorem Alike.mentions {source : Path} (h : q.Alike q') (hm : q'.Mentions w source) :
    q.Mentions w source := by
  rwa [Mentions, h.item, h.source] at hm

/-- The item is not to be kept in the memory of the node that waits for it. -/
def IsRelayed (q : Request) : Prop :=
  ∀ host name, q.target = .memory host name → q.requester ≠ some host

theorem isRelayed_of_ne {host : NodeId} (hhost : host ∈ q.target.hosts)
    (ne : q.requester ≠ some host) : q.IsRelayed := by
  rintro node name htarget
  rw [htarget] at hhost
  rwa [List.mem_singleton.1 hhost] at ne

theorem isRelayed_of_pathIn {host : NodeId} {path : Path} (h : q.target.pathIn host = some path) :
    q.IsRelayed := by
  rintro node name htarget
  rw [htarget] at h
  cases h

end Request

/-- The hosts that are still to be served. -/
def DeliveryPhase.pending : DeliveryPhase → List NodeId
  | .hosts pending | .asked pending | .answered _ pending => pending
  | .done _ => []

/-- Where the item is said to be: by a reply that has come in, or by an outcome. -/
def DeliveryPhase.report? : DeliveryPhase → Option Target
  | .answered reply _ => reply.target?
  | .done (.ok target) => some target
  | _ => none

namespace Frame

/-- Where the item is said to be. -/
def report? : Frame → Option Target
  | obtain r => r.phase.report?
  | send δ => δ.phase.report?

/-- The copies that the frame is to wait for. -/
def listed : Frame → List CopyId
  | obtain r => r.listed
  | send _ => []

/-- The frame works on a request, whoever waits for it. -/
def WorksOn (q : Request) : Frame → Prop
  | obtain r => q.Alike r.request
  | send δ => q.Alike δ.request ∧ ∀ host ∈ δ.phase.pending, host ∈ q.target.hosts

/-- What is said of the item is not said to the node that is to keep it in memory. -/
def IsRelayed : Frame → Prop
  | obtain r => r.verdict? = none → r.forwarded.IsRelayed
  | send δ => δ.request.IsRelayed

/-- The frame waits for the reply of another one. -/
def HasCalled : Frame → Frame → Prop
  | obtain r, send δ => (∃ route, r.phase = .asked route) ∧ δ.request = r.forwarded
  | send δ, obtain r =>
    (∃ pending, δ.phase = .asked pending) ∧ r.request = δ.request ∧ δ.request.IsRelayed
  | _, _ => False

/-- A caller keeps waiting while the frame that it has called goes on. -/
theorem HasCalled.obtain {caller : Frame} {r r' : Resolution} (h : caller.HasCalled (.obtain r))
    (hr : r'.request = r.request) : caller.HasCalled (.obtain r') := by
  cases caller with
  | obtain _ => exact h.elim
  | send _ => exact ⟨h.1, hr.trans h.2.1, h.2.2⟩

theorem HasCalled.send {caller : Frame} {δ δ' : Delivery} (h : caller.HasCalled (.send δ))
    (hδ : δ'.request = δ.request) : caller.HasCalled (.send δ') := by
  cases caller with
  | obtain _ => exact ⟨h.1, hδ.trans h.2⟩
  | send _ => exact h.elim

/-- Each frame has been called by the one behind it. -/
def AreLinked (frames : List Frame) : Prop :=
  frames.IsChain fun callee caller => caller.HasCalled callee

theorem AreLinked.replace {f f' : Frame} {callers : List Frame} (h : AreLinked (f :: callers))
    (same : ∀ caller : Frame, caller.HasCalled f → caller.HasCalled f') :
    AreLinked (f' :: callers) := by
  cases h with
  | singleton _ => exact .singleton _
  | cons_cons hcalled rest => exact .cons_cons (same _ hcalled) rest

/-- Nothing is said of the item but what is true. -/
structure Stands (q : Request) (w : World) (f : Frame) : Prop where
  silent : f.report? = none → q.IsOpen w
  reported : ∀ target, f.report? = some target → q.target.IsThere w.files ∧ f.IsRelayed

end Frame

/-! ## Resolutions -/

namespace Phase

theorem report?_of_verdict {phase : Phase} {outcome : Outcome} (h : phase.verdict? = some outcome) :
    phase.report? = outcome.toOption := by
  unfold verdict? at h
  split at h <;> cases h <;> cases outcome <;> rfl

/-- As long as there is no outcome it is only replies that say where the item is. -/
theorem exists_of_report? {phase : Phase} {target : Target} (h : phase.report? = some target)
    (hopen : phase.verdict? = none) :
    ∃ reply route, phase = .answered reply route ∧ reply.target? = some target := by
  unfold report? at h
  split at h
  · exact ⟨_, _, rfl, h⟩
  · cases hopen
  · cases hopen
  · cases hopen
  · cases hopen
  · cases h

end Phase

namespace Resolution

variable {q : Request} {r r' : Resolution} {w w' : World} {source : Path}

theorem Effect.request_eq (h : r.Effect w w' r') : r'.request = r.request := by
  cases h <;> rfl

/-- A reply does not come in by a step of the resolution itself. -/
theorem Next.ne_answered {phase phase' : Phase} {reply : Reply} {route : Route}
    (h : r.Next w phase phase') : phase' ≠ .answered reply route := by
  rintro rfl
  cases h
  case join attempt | replicas attempt | here attempt | recheck attempt | joined attempt
    | answered attempt => cases attempt

/-- So where a step says that the item is, there it ends. -/
theorem Effect.verdict?_ne_none {target : Target} (h : r.Effect w w' r')
    (hr : r'.phase.report? = some target) : r'.verdict? ≠ none := by
  intro hopen
  obtain ⟨reply, route, hphase, -⟩ := Phase.exists_of_report? hr hopen
  cases h with
  | quiet _ next => exact next.ne_answered hphase
  | starts _ _ => cases hphase
  | completes _ _ => cases hphase
  | withdraws _ => cases hphase

/-- The copies that are waited for are not finished, as long as nobody else moves. -/
theorem Effect.unfinished (h : r.Effect w w' r')
    (hr : ∀ c ∈ r.listed, (w.copies.get c).outcome = none) :
    ∀ c ∈ r'.listed, (w'.copies.get c).outcome = none := by
  cases h with
  | quiet same next =>
    intro c hc
    rw [same.copies]
    rcases next.mem_listed hc with hc | hc
    · exact hr c hc
    · exact (World.mem_copiesTo.1 hc).2
  | starts _ _ => nofun
  | completes _ _ => nofun
  | withdraws _ => nofun

/-- What is left to do once there is an outcome adds nothing to what is known. -/
theorem upkeep_step {outcome : Outcome} (h : r.verdict? = some outcome)
    (hstep : r.step w = .advance w' r') :
    r'.verdict? = some outcome ∧ w'.files = w.files ∧
      ∀ i, (w'.items.get i).Within (w.items.get i) := by
  have verdict : r'.verdict? = some outcome := by
    rcases step_of_verdict (w := w) h with hfinish | ⟨v, s, hadvance, hverdict, -⟩
    · rw [hstep] at hfinish
      cases hfinish
    · rw [hstep, Move.advance.injEq] at hadvance
      rw [hadvance.2, hverdict]
  refine ⟨verdict, ?_⟩
  unfold verdict? Phase.verdict? at h
  split at h
  · rename_i hphase
    rw [step, hphase, Move.advance.injEq] at hstep
    rw [← hstep.1]
    exact ⟨rfl, World.within_updateItem (Item.within_unpin _)⟩
  · rename_i hphase
    rw [step, hphase] at hstep
    dsimp only at hstep
    split at hstep <;> cases hstep <;> exact ⟨rfl, fun _ => .of_locations_eq rfl⟩
  · rename_i hphase
    rw [step, hphase, Move.advance.injEq] at hstep
    rw [← hstep.1]
    exact ⟨rfl, World.within_updateItem (.of_locations_eq rfl)⟩
  · rename_i hphase
    rw [step, hphase] at hstep
    cases hstep
  · cases h

theorem answer_of_asked {route : Route} (h : r.phase = .asked route) (reply : Reply) :
    r.answer reply = r.inPhase (.answered reply route) := by
  rw [answer, h]

section Stands

variable {source : Path} {report : Option Target} (alike : q.Alike r.request)
  (unfinished : ∀ c ∈ r.listed, (w.copies.get c).outcome = none)

include alike

theorem item_eq (w : World) : r.item w = w.items.get q.item := by
  rw [item, alike.item]

theorem localTarget_eq : r.localTarget = q.target.pathIn r.node.id := by
  rw [localTarget, alike.target]

include unfinished

/-- No copy that is waited for offers anything. -/
theorem mentions_of_offers (h : r.Offers w source) : q.Mentions w source := by
  cases h with
  | replica mem =>
    rw [item_eq alike] at mem
    exact Request.mentions_of_mem_replicas mem
  | declared eq =>
    rw [alike.source] at eq
    exact Request.mentions_of_source eq
  | copy awaits outcome =>
    rw [unfinished _ (List.mem_of_mem_head? awaits)] at outcome
    cases outcome

theorem not_isMissing (backed : q.IsBacked w) : ¬ r.IsMissing w := by
  rintro ⟨source, path, offers, here, same, missing⟩
  have mentioned := mentions_of_offers alike unfinished offers
  rw [localTarget_eq alike] at here
  rw [backed source path _ mentioned here same] at missing
  cases missing

omit alike in
theorem not_isTold (silent : r.phase.report? = none) : ¬ r.IsTold w := by
  intro told
  cases told with
  | copy awaits outcome =>
    rw [unfinished _ (List.mem_of_mem_head? awaits)] at outcome
    cases outcome
  | reply answered told =>
    rw [answered, Phase.report?, told] at silent
    cases silent

/-- **As long as nobody has said where the item is**, nothing is done but to go on, or to bring it
to the target. -/
theorem Deed.stands (h : r.Deed w w' report) (hopen : q.IsOpen w)
    (hsilent : r.phase.report? = none) :
    (report = none → q.IsOpen w') ∧ ∀ target, report = some target → q.target.IsThere w'.files := by
  have there : ∀ {path fs}, r.localTarget = some path → fs.exists? path = true →
      q.target.IsThere fs := by
    intro path fs here
    rw [localTarget_eq alike] at here
    exact Location.isThere_of_exists? here
  cases h with
  | idle same grows =>
    exact ⟨fun _ => hopen.mono (.of_locations_eq (same _)) grows, nofun⟩
  | takes found =>
    rw [item_eq alike, hopen.noKey] at found
    cases found
  | finds here exists? => exact ⟨nofun, fun _ _ => there here exists?⟩
  | keeps here =>
    refine ⟨nofun, fun _ _ => ?_⟩
    rw [← alike.target, here]
    trivial
  | writes here written =>
    refine ⟨nofun, fun _ _ => there here ?_⟩
    rw [World.files_register]
    exact Files.exists?_of_read (Value.overwritten_writeTo written).2.read_eq
  | @copies source path placed offers here copied =>
    refine ⟨nofun, fun _ _ => there here ?_⟩
    rw [World.files_register]
    obtain ⟨grows, copied⟩ := World.grows_of_copyFile copied
    cases same : source.same path with
    | false => exact copied same
    | true =>
      have mentioned := mentions_of_offers alike unfinished offers
      rw [localTarget_eq alike] at here
      exact grows path (hopen.backed source path _ mentioned here same)
  | trusts told => exact absurd told (not_isTold unfinished hsilent)

/-- **A resolution says nothing but what is true.** -/
theorem stands_step (h : (Frame.obtain r).Stands q w) (hstep : r.step w = .advance w' r') :
    (Frame.obtain r').Stands q w' := by
  have decided : ∀ target, r'.phase.report? = some target → r'.verdict? ≠ none :=
    fun target => (effect_step hstep).verdict?_ne_none
  have relayed : ∀ target, r'.phase.report? = some target → (Frame.obtain r').IsRelayed :=
    fun target hr hopen => absurd hopen (decided target hr)
  cases hverdict : r.verdict? with
  | some outcome =>
    -- There is nothing left but to tidy up.
    obtain ⟨verdict', files, within⟩ := upkeep_step hverdict hstep
    have report : r'.phase.report? = r.phase.report? := by
      rw [Phase.report?_of_verdict verdict', Phase.report?_of_verdict hverdict]
    constructor
    · intro hsilent
      refine (h.silent (report.symm.trans hsilent)).mono (within _) ?_
      rw [files]
      exact .refl _
    · intro target hreport
      rw [files]
      exact ⟨(h.reported target (report.symm.trans hreport)).1, relayed target hreport⟩
  | none =>
    cases hreport : r.phase.report? with
    | none =>
      have deed := (deed_step hverdict hstep).stands alike unfinished (h.silent hreport) hreport
      exact ⟨deed.1, fun target hr => ⟨deed.2 target hr, relayed target hr⟩⟩
    | some target =>
      -- The word of another node is taken.
      obtain ⟨reply, route, hphase, htarget⟩ := Phase.exists_of_report? hreport hverdict
      rw [step, hphase] at hstep
      simp only [accept, htarget, deliver, Move.advance.injEq] at hstep
      obtain ⟨rfl, rfl⟩ := hstep
      constructor
      · intro hsilent
        cases hsilent
      · intro target' hr
        refine ⟨?_, relayed target' hr⟩
        rw [World.files_register]
        exact (h.reported target hreport).1

end Stands

end Resolution

/-! ## Deliveries -/

namespace Delivery

variable {q : Request} {δ δ' : Delivery} {w w' : World} {path : Path} {pushed : Bool}

/-- What is pushed is there, unless it should have been there already. -/
theorem pushTo_spec (h : δ.pushTo w path = (w', pushed)) :
    w'.items = w.items ∧ w.files.Grows w'.files ∧
      (pushed = true → w'.files.exists? path = true ∨
        ∃ source, δ.request.Mentions w source ∧ source.same path = true) := by
  unfold pushTo at h
  split at h
  rename_i v written hwritten
  have hv : v.items = w.items ∧ w.files.Grows v.files ∧
      (written = true → v.files.exists? path = true) := by
    split at hwritten
    · cases hwritten
      exact ⟨rfl, .refl _, nofun⟩
    · rename_i value _
      have grows : w.files.Grows (value.writeTo w.files path).1 := value.grows_writeTo
      split at hwritten <;> rename_i hwrite <;> rw [hwrite] at grows <;> cases hwritten
      · exact ⟨rfl, grows, fun _ => Files.exists?_of_read
          (Value.overwritten_writeTo hwrite).2.read_eq⟩
      · exact ⟨rfl, grows, nofun⟩
  obtain ⟨items, grows, there⟩ := hv
  split at h
  · rename_i hpushed
    cases h
    exact ⟨items, grows, fun _ => .inl (there hpushed)⟩
  · split at h
    · rename_i placed hreplica
      cases h
      obtain ⟨source, mem, hcopy⟩ := World.exists_of_copyFirst hreplica
      have mentioned : δ.request.Mentions w source := by
        rw [item, items] at mem
        exact Request.mentions_of_mem_sources mem
      obtain ⟨grows', copied⟩ := World.grows_of_copyFile hcopy
      refine ⟨?_, grows.trans grows', fun _ => ?_⟩
      · rcases World.copyFile_eq_ok_iff.1 hcopy with ⟨-, rfl⟩ | ⟨-, files, -, rfl⟩ <;> exact items
      · cases same : source.same path with
        | true => exact .inr ⟨source, mentioned, same⟩
        | false => exact .inl (copied same)
    · cases h
      exact ⟨items, grows, nofun⟩

/-- What an advance of a delivery does, and the phase that it leads to. -/
inductive Deed (δ : Delivery) (w : World) : World → DeliveryPhase → Prop
  | goesOn {rest : List NodeId} (later : ∀ host ∈ rest, host ∈ δ.phase.pending)
      (silent : δ.phase.report? = none) : Deed δ w w (.hosts rest)
  | givesUp {e : TransferError} (silent : δ.phase.report? = none) : Deed δ w w (.done (.error e))
  | pushes {host : NodeId} {path : Path} {w' : World} (silent : δ.phase.report? = none)
      (htarget : δ.request.target.pathIn host = some path) (pushed : δ.pushTo w path = (w', true)) :
      Deed δ w w' (.done (.ok (.path path)))
  | misses {rest : List NodeId} {path : Path} {w' : World}
      (later : ∀ host ∈ rest, host ∈ δ.phase.pending) (silent : δ.phase.report? = none)
      (missed : δ.pushTo w path = (w', false)) : Deed δ w w' (.hosts rest)
  | takes {target : Target} (told : δ.phase.report? = some target) : Deed δ w w (.done (.ok target))

/-- The moves that a delivery can make. -/
def CanMake (δ : Delivery) (w : World) : Move Delivery → Prop
  | .advance w' δ' => ∃ phase, δ.Deed w w' phase ∧ δ' = δ.inPhase phase
  | .call _ q δ' => ∃ host rest, δ.phase = .hosts (host :: rest) ∧
    δ.request.requester ≠ some host ∧ q = δ.request ∧ δ' = δ.inPhase (.asked rest)
  | .wait => True
  | .finish outcome => δ.phase = .done outcome

/-- **What a step of a delivery can do.** -/
theorem canMake_step (δ : Delivery) (w : World) : δ.CanMake w (δ.step w) := by
  unfold step
  split <;> rename_i hphase
  · exact ⟨_, .givesUp (by rw [hphase]; rfl), rfl⟩
  · rename_i host rest
    have silent : δ.phase.report? = none := by rw [hphase]; rfl
    have later : ∀ other ∈ rest, other ∈ δ.phase.pending := by
      intro other hother
      rw [hphase]
      exact List.mem_cons_of_mem _ hother
    split
    · exact ⟨_, .goesOn later silent, rfl⟩
    · split
      · unfold push
        split
        · exact ⟨_, .goesOn later silent, rfl⟩
        · rename_i htarget
          split <;> rename_i hpush
          · exact ⟨_, .pushes silent htarget hpush, rfl⟩
          · exact ⟨_, .misses later silent hpush, rfl⟩
      · rename_i hrequester
        unfold relay
        split
        · exact ⟨_, .goesOn later silent, rfl⟩
        · exact ⟨host, rest, hphase, hrequester, rfl, rfl⟩
  · trivial
  · rename_i reply rest
    have report : δ.phase.report? = reply.target? := by rw [hphase]; rfl
    split <;> rename_i hreply
    · exact ⟨_, .takes (report.trans hreply), rfl⟩
    · refine ⟨_, .goesOn (fun _ hother => ?_) (report.trans hreply), rfl⟩
      rw [hphase]
      exact hother
  · exact hphase

theorem answer_of_asked {rest : List NodeId} (h : δ.phase = .asked rest) (reply : Reply) :
    δ.answer reply = δ.inPhase (.answered reply rest) := by
  rw [answer, h]

section Deeds

variable {phase : DeliveryPhase} (works : (Frame.send δ).WorksOn q)

include works

theorem Deed.worksOn (h : δ.Deed w w' phase) : (Frame.send (δ.inPhase phase)).WorksOn q := by
  refine ⟨works.1, fun host hhost => ?_⟩
  cases h with
  | goesOn later _ => exact works.2 host (later host hhost)
  | misses later _ _ => exact works.2 host (later host hhost)
  | givesUp _ => cases hhost
  | pushes _ _ _ => cases hhost
  | takes _ => cases hhost

/-- **A delivery says nothing but what is true.** -/
theorem Deed.stands (h : δ.Deed w w' phase) (hδ : (Frame.send δ).Stands q w) :
    (Frame.send (δ.inPhase phase)).Stands q w' := by
  have alike : q.Alike δ.request := works.1
  cases h with
  | goesOn _ silent => exact ⟨fun _ => hδ.silent silent, nofun⟩
  | givesUp silent => exact ⟨fun _ => hδ.silent silent, nofun⟩
  | takes told => exact ⟨nofun, fun _ _ => hδ.reported _ told⟩
  | misses _ silent missed =>
    obtain ⟨items, grows, -⟩ := pushTo_spec missed
    refine ⟨fun _ => (hδ.silent silent).mono (.of_locations_eq ?_) grows, nofun⟩
    rw [items]
  | @pushes host path _ silent htarget pushed =>
    obtain ⟨-, grows, there⟩ := pushTo_spec pushed
    refine ⟨nofun, fun _ _ => ⟨?_, Request.isRelayed_of_pathIn htarget⟩⟩
    rw [alike.target] at htarget
    apply Location.isThere_of_exists? htarget
    rcases there rfl with there | ⟨source, mentioned, same⟩
    · exact there
    · have backed := (hδ.silent silent).backed source path host (alike.mentions mentioned)
      exact grows path (backed htarget same)

end Deeds

end Delivery

/-! ## Threads -/

namespace Frame

variable {α : Type} {m : Move α} {g : α → Frame} {f : Frame} {w : World}

theorem exists_of_lift_advance (h : lift g m = .advance w f) :
    ∃ x, m = .advance w x ∧ f = g x := by
  cases m <;> cases h
  exact ⟨_, rfl, rfl⟩

theorem exists_of_lift_call {peer : Node} {q : Request} (h : lift g m = .call peer q f) :
    ∃ x, m = .call peer q x ∧ f = g x := by
  cases m <;> cases h
  exact ⟨_, rfl, rfl⟩

theorem eq_of_lift_finish {outcome : Outcome} (h : lift g m = .finish outcome) :
    m = .finish outcome := by
  cases m <;> cases h
  rfl

end Frame

namespace Thread

variable {q : Request} {w w' : World} {t t' : Thread} {f f' : Frame} {callers : List Frame}

/-- The thread says nothing of the item but what is true. -/
structure IsSound (q : Request) (w : World) (t : Thread) : Prop where
  linked : Frame.AreLinked (t.frame :: t.callers)
  works : ∀ f ∈ t.frame :: t.callers, f.WorksOn q
  unfinished : ∀ c ∈ t.frame.listed, (w.copies.get c).outcome = none
  stands : t.frame.Stands q w

namespace IsSound

theorem start (n : LocalNode) (hopen : q.IsOpen w) : (Thread.start .obtain n q).IsSound q w where
  linked := .singleton _
  works := by
    intro f hf
    rw [List.mem_singleton.1 hf]
    exact ⟨rfl, rfl, rfl, rfl⟩
  unfinished := nofun
  stands := ⟨fun _ => hopen, nofun⟩

theorem advance (h : IsSound q w ⟨f, callers⟩) (hstep : f.step w = .advance w' f') :
    IsSound q w' ⟨f', callers⟩ := by
  have works := h.works f List.mem_cons_self
  have others : ∀ g ∈ callers, g.WorksOn q := fun g hg => h.works g (List.mem_cons_of_mem _ hg)
  cases f with
  | obtain r =>
    obtain ⟨r', hadvance, rfl⟩ := Frame.exists_of_lift_advance hstep
    have effect := Resolution.effect_step hadvance
    have works' : q.Alike r'.request := by
      rw [effect.request_eq]
      exact works
    exact ⟨h.linked.replace fun _ hcalled => hcalled.obtain effect.request_eq,
      List.forall_mem_cons.2 ⟨works', others⟩, effect.unfinished h.unfinished,
      Resolution.stands_step works h.unfinished h.stands hadvance⟩
  | send δ =>
    obtain ⟨δ', hadvance, rfl⟩ := Frame.exists_of_lift_advance hstep
    have deed := δ.canMake_step w
    rw [hadvance] at deed
    obtain ⟨phase, deed, rfl⟩ := deed
    exact ⟨h.linked.replace fun _ hcalled => hcalled.send rfl,
      List.forall_mem_cons.2 ⟨deed.worksOn works, others⟩, nofun, deed.stands works h.stands⟩

theorem call {n : LocalNode} {q' : Request} (h : IsSound q w ⟨f, callers⟩)
    (hstep : f.step w = .call (.own n) q' f') :
    IsSound q w ⟨.start f.callKind n q', f' :: callers⟩ := by
  have works := h.works f List.mem_cons_self
  have others : ∀ g ∈ callers, g.WorksOn q := fun g hg => h.works g (List.mem_cons_of_mem _ hg)
  cases f with
  | obtain r =>
    obtain ⟨r', hcall, rfl⟩ := Frame.exists_of_lift_call hstep
    have calls := r.canMake_step w
    rw [hcall] at calls
    obtain ⟨route, hphase, rfl, rfl⟩ := calls
    have alike : q.Alike r.request := works
    have silent : r.phase.report? = none := by rw [hphase]; rfl
    have callee : (Frame.send (.start n r.forwarded)).WorksOn q := by
      refine ⟨⟨alike.item, alike.source, alike.target, alike.targetItem⟩, fun host hhost => ?_⟩
      rw [← alike.target]
      exact hhost
    have linked : Frame.AreLinked (.obtain (r.inPhase (.asked route)) :: callers) :=
      h.linked.replace fun _ hcalled => hcalled.obtain rfl
    exact ⟨.cons_cons ⟨⟨route, rfl⟩, rfl⟩ linked,
      List.forall_mem_cons.2 ⟨callee, List.forall_mem_cons.2 ⟨alike, others⟩⟩, nofun,
      fun _ => h.stands.silent silent, nofun⟩
  | send δ =>
    obtain ⟨δ', hcall, rfl⟩ := Frame.exists_of_lift_call hstep
    have calls := δ.canMake_step w
    rw [hcall] at calls
    obtain ⟨host, rest, hphase, hrequester, rfl, rfl⟩ := calls
    obtain ⟨alike, hosts⟩ := works
    rw [hphase] at hosts
    have silent : δ.phase.report? = none := by rw [hphase]; rfl
    have relayed : δ.request.IsRelayed := by
      refine Request.isRelayed_of_ne ?_ hrequester
      rw [alike.target]
      exact hosts host List.mem_cons_self
    have caller : (Frame.send (δ.inPhase (.asked rest))).WorksOn q :=
      ⟨alike, fun other hother => hosts other (List.mem_cons_of_mem _ hother)⟩
    have linked : Frame.AreLinked (.send (δ.inPhase (.asked rest)) :: callers) :=
      h.linked.replace fun _ hcalled => hcalled.send rfl
    exact ⟨.cons_cons ⟨⟨rest, rfl⟩, rfl, relayed⟩ linked,
      List.forall_mem_cons.2 ⟨alike, List.forall_mem_cons.2 ⟨caller, others⟩⟩, nofun,
      fun _ => h.stands.silent silent, nofun⟩

theorem answer {caller : Frame} {outcome : Outcome} (h : IsSound q w ⟨f, caller :: callers⟩)
    (hstep : f.step w = .finish outcome) :
    IsSound q w ⟨caller.answer (.notified outcome), callers⟩ := by
  have works := h.works caller (List.mem_cons_of_mem _ List.mem_cons_self)
  have others : ∀ g ∈ callers, g.WorksOn q :=
    fun g hg => h.works g (List.mem_cons_of_mem _ (List.mem_cons_of_mem _ hg))
  have told : (Reply.notified outcome).target? = outcome.toOption := by cases outcome <;> rfl
  obtain ⟨hcalled, linked⟩ : caller.HasCalled f ∧ Frame.AreLinked (caller :: callers) :=
    List.isChain_cons_cons.1 h.linked
  cases f with
  | obtain r =>
    cases caller with
    | obtain _ => exact hcalled.elim
    | send δ =>
      obtain ⟨⟨pending, hphase⟩, -, relayed⟩ := hcalled
      have hdone := r.canMake_step w
      rw [Frame.eq_of_lift_finish hstep] at hdone
      have said : r.phase.report? = outcome.toOption :=
        Phase.report?_of_verdict (congrArg Phase.verdict? hdone)
      rw [← told] at said
      rw [Frame.answer, Delivery.answer_of_asked hphase]
      refine ⟨linked.replace fun _ hcalled => hcalled.send rfl, ?_, nofun, ?_⟩
      · refine List.forall_mem_cons.2 ⟨⟨works.1, fun host hhost => works.2 host ?_⟩, others⟩
        rw [hphase]
        exact hhost
      · refine ⟨fun hsilent => h.stands.silent (said.trans hsilent), fun target htarget => ?_⟩
        exact ⟨(h.stands.reported target (said.trans htarget)).1, relayed⟩
  | send δ =>
    cases caller with
    | send _ => exact hcalled.elim
    | obtain r =>
      obtain ⟨⟨route, hphase⟩, hrequest⟩ := hcalled
      have hdone := δ.canMake_step w
      rw [Frame.eq_of_lift_finish hstep] at hdone
      change δ.phase = .done outcome at hdone
      have said : δ.phase.report? = outcome.toOption := by
        rw [hdone]
        cases outcome <;> rfl
      rw [← told] at said
      rw [Frame.answer, Resolution.answer_of_asked hphase]
      refine ⟨linked.replace fun _ hcalled => hcalled.obtain rfl,
        List.forall_mem_cons.2 ⟨works, others⟩, nofun,
        fun hsilent => h.stands.silent (said.trans hsilent), fun target htarget => ?_⟩
      obtain ⟨there, relayed⟩ := h.stands.reported target (said.trans htarget)
      rw [Frame.IsRelayed, hrequest] at relayed
      exact ⟨there, fun _ => relayed⟩

/-- **Every step of a thread that is left alone keeps it sound.** -/
theorem step (h : t.IsSound q w) (hgoes : Goes (w, t) (w', t')) : t'.IsSound q w' := by
  obtain ⟨f, callers⟩ := t
  change Thread.step ⟨f, callers⟩ w = .running w' t' at hgoes
  unfold Thread.step follow at hgoes
  split at hgoes <;> rename_i hstep
  · cases hgoes
    exact h.advance hstep
  · cases hgoes
  · cases hgoes
    exact h.call hstep
  · cases hgoes
  · split at hgoes <;> rename_i hcallers <;> cases hgoes
    dsimp only at hcallers
    subst hcallers
    exact h.answer hstep

/-- **So does every run.** -/
theorem leads {a b : World × Thread} (h : a.2.IsSound q a.1) (hleads : Leads a b) :
    b.2.IsSound q b.1 := by
  induction hleads with
  | refl => exact h
  | tail _ hgoes ih => exact ih.step hgoes

end IsSound

/-- The outcome of a call that has no callers stays what it is. -/
theorem verdict_of_leads {a b : World × Thread} (hleads : Leads a b) {s : Resolution}
    {outcome : Outcome} (ha : a.2 = ⟨.obtain s, []⟩) (hs : s.verdict? = some outcome) :
    ∃ r, b.2 = ⟨.obtain r, []⟩ ∧ r.verdict? = some outcome := by
  induction hleads with
  | refl => exact ⟨s, ha, hs⟩
  | tail _ hgoes ih =>
    obtain ⟨r, hr, hverdict⟩ := ih
    rw [Goes, hr, Thread.step, Frame.step] at hgoes
    rcases r.step_of_verdict hverdict with hfinish | ⟨v, r', hadvance, hverdict', -⟩
    · rw [hfinish] at hgoes
      cases hgoes
    · rw [hadvance] at hgoes
      simp only [Frame.lift, follow, Progress.running.injEq] at hgoes
      exact ⟨r', hgoes.2.symm, hverdict'⟩

/-- A call for an item with a key has its outcome with the first step. -/
theorem eq_start_of_key {n : LocalNode} {key : String} {r : Resolution}
    (hkey : (w.items.get q.item).key? = some key)
    (hleads : Leads (w, .start .obtain n q) (w', ⟨.obtain r, callers⟩))
    (hopen : r.verdict? = none) : w' = w ∧ r = .start n q := by
  have hstep : (Resolution.start n q).step w =
      .advance (w.addLocation q.targetItem (.persistent key))
        ⟨n, q, none, .completing (.ok (.key key))⟩ := by
    simp only [Resolution.start, Resolution.step, Resolution.takeKey, Resolution.item, hkey]
    rfl
  rcases Relation.ReflTransGen.cases_head hleads with heq | ⟨c, hgoes, hrest⟩
  · cases heq
    exact ⟨rfl, rfl⟩
  · obtain rfl := goes_unique (Resolution.goes_step hstep []) hgoes
    obtain ⟨s, hs, hverdict⟩ := verdict_of_leads hrest rfl rfl
    cases hs
    rw [hopen] at hverdict
    cases hverdict

/-- The request for an item that is worked on while no caller waits for it. -/
def alone? : Thread → Option Resolution
  | ⟨.obtain r, []⟩ => some r
  | _ => none

theorem alone?_eq_some_iff {t : Thread} {r : Resolution} :
    t.alone? = some r ↔ t = ⟨.obtain r, []⟩ := by
  constructor
  · intro h
    unfold alone? at h
    split at h
    · cases h
      rfl
    · cases h
  · rintro rfl
    rfl

end Thread

namespace Resolution

variable {q : Request} {r r' : Resolution} {w w' : World}

/-- What another node has said is true. -/
theorem isTruthful_register (alike : q.Alike r.request) (there : q.target.IsThere w.files)
    (relayed : r.forwarded.IsRelayed) : r.IsTruthful w (w.register r.request) := by
  unfold IsTruthful
  rw [← alike.target] at there
  split <;> rename_i htarget
  · rename_i host name
    intro hhost
    exact absurd (congrArg some hhost.symm) (relayed host name htarget)
  · rw [htarget] at there
    rw [World.files_register]
    exact there
  · rw [htarget] at there
    exact there.elim

/-- **Which registrations are true.** However far a resolution has got, and whatever the world is
like: when a step registers a target that was not known yet, then the item is there, unless the
target was registered on trust, or the item was to be found in a file that was the target already
and is missing. What is taken on trust is registered in any case, and nothing else is done. In a
call that is left alone, with own nodes only, every registration is true, if no such file is missing
from the outset: what other nodes say can be trusted then. -/
theorem registers_truthfully {i : ItemId} (hopen : r.verdict? = none)
    (hstep : r.step w = .advance w' r') (hi : r.request.targetItem = some i)
    (hnew : (w.items.get i).knows r.request.target = false)
    (hknown : (w'.items.get i).knows r.request.target = true) :
    (r.IsTruthful w w' ∨ (r.IsTold w ∨ r.IsMissing w) ∧ w' = w.register r.request) ∧
      (r.IsTold w → w' = w.register r.request) ∧
      ∀ w₀ n q callers, Thread.Leads (w₀, .start .obtain n q) (w, ⟨.obtain r, callers⟩) →
        q.IsBacked w₀ → r.IsTruthful w w' := by
  have registered : r.IsTold w → w' = w.register r.request := by
    intro told
    obtain ⟨r'', hstep'⟩ := exists_step_of_isTold told
    rw [hstep, Move.advance.injEq] at hstep'
    exact hstep'.1
  have truthful := (deed_step hopen hstep).isTruthful hi hnew hknown
  refine ⟨truthful, registered, fun w₀ n q callers hleads backed => ?_⟩
  have if_silent : q.Alike r.request → (∀ c ∈ r.listed, (w.copies.get c).outcome = none) →
      r.phase.report? = none → q.IsBacked w → r.IsTruthful w w' := by
    intro alike unfinished silent backed
    refine truthful.resolve_right fun h => ?_
    exact h.1.elim (not_isTold unfinished silent) (not_isMissing alike unfinished backed)
  cases hkey : (w₀.items.get q.item).key? with
  | some key =>
    obtain ⟨rfl, rfl⟩ := Thread.eq_start_of_key hkey hleads hopen
    exact if_silent ⟨rfl, rfl, rfl, rfl⟩ nofun rfl backed
  | none =>
    have sound : Thread.IsSound q w ⟨.obtain r, callers⟩ :=
      (Thread.IsSound.start n ⟨hkey, backed⟩).leads hleads
    have alike : q.Alike r.request := sound.works _ List.mem_cons_self
    cases hreport : r.phase.report? with
    | none => exact if_silent alike sound.unfinished hreport (sound.stands.silent hreport).backed
    | some target =>
      obtain ⟨there, relayed⟩ := sound.stands.reported target hreport
      obtain ⟨reply, route, hphase, htarget⟩ := Phase.exists_of_report? hreport hopen
      rw [registered (.reply hphase htarget)]
      exact isTruthful_register alike there (relayed hopen)

/-- The second of two nodes says that it has brought what it has in a file to the first one. -/
theorem registers_truthfully_two_nodes :
    let node (id : NodeId) (directory : String) : LocalNode :=
      ⟨id, directory, ⟨directory⟩, .authoritative⟩
    let files := [["tmp", "work", "n1"], ["tmp", "work", "n2"]].foldl
      (fun fs place => Files.put fs place .directory) Files.empty
    let world : World :=
      { files := files.put ["tmp", "work", "n2", "x"] (.file [120])
        items := (Cells.empty.push { Item.named "x" with
          locations := [.file [⟨2, ⟨"n2/x"⟩⟩]] }).push (.named "y")
        copies := .empty
        directory := (Directory.empty.register (.own (node 1 "n1"))).register
          (.own (node 2 "n2")) }
    let request : Request := ⟨0, none, .file [⟨1, ⟨"n1/x"⟩⟩], some 1, none⟩
    ∃ w r w' r', Thread.Leads (world, .start .obtain (node 1 "n1") request) (w, ⟨.obtain r, []⟩) ∧
      r.IsTold w ∧ r.step w = .advance w' r' ∧
      (w'.items.get 1).knows r.request.target = true ∧ r.IsTruthful w w' := by
  intro node files world request
  have apart : Path.same ⟨"n2/x"⟩ ⟨"n1/x"⟩ = false := by decide
  have backed : request.IsBacked world := by
    rintro source path host mentioned htarget same
    obtain rfl : source = ⟨"n2/x"⟩ :=
      Request.eq_of_mentions ⟨2, ⟨"n2/x"⟩⟩ rfl rfl mentioned
    obtain ⟨replica, hfind, rfl⟩ := Option.map_eq_some_iff.1 htarget
    rw [List.mem_singleton.1 (List.mem_of_find?_eq_some hfind), apart] at same
    cases same
  have hleads := Thread.leads_walk 12 (world, .start .obtain (node 1 "n1") request)
  have reached :
      let last := Thread.walk 12 (world, .start .obtain (node 1 "n1") request)
      (last.2.alone?.any fun r => r.phase.report?.isSome && r.verdict?.isNone &&
        r.request.targetItem == some 1 && !(last.1.items.get 1).knows r.request.target) = true := by
    decide +kernel
  generalize Thread.walk 12 (world, .start .obtain (node 1 "n1") request) = last at hleads reached
  obtain ⟨w, t⟩ := last
  obtain ⟨r, halone, hr⟩ := (Option.any_eq_true _ _).1 reached
  simp only [Bool.and_eq_true, beq_iff_eq, Bool.not_eq_true', Option.isNone_iff_eq_none] at hr
  obtain ⟨⟨⟨hreport, hopen⟩, hi⟩, hnew⟩ := hr
  obtain ⟨target, hreport⟩ := Option.isSome_iff_exists.1 hreport
  obtain ⟨reply, route, hphase, htarget⟩ := Phase.exists_of_report? hreport hopen
  obtain rfl := Thread.alone?_eq_some_iff.1 halone
  have told : r.IsTold w := .reply hphase htarget
  obtain ⟨r', hstep⟩ := exists_step_of_isTold told
  have hknown := w.knows_register hi
  exact ⟨w, r, _, r', hleads, told, hstep, hknown,
    (registers_truthfully hopen hstep hi hnew hknown).2.2 _ _ _ _ hleads backed⟩

/-- A node is to keep an item in memory, and finds a copy in progress that brings it to a file of
the node. When that has ended, the memory is registered without a value. -/
theorem registers_without_value :
    let node : LocalNode := ⟨1, "n1", ⟨"n1"⟩, .authoritative⟩
    let request : Request := ⟨0, none, .memory 1 "m", some 1, none⟩
    let copy : Copy := .start "x" none (.file [⟨1, ⟨"n1/x"⟩⟩]) none []
    let world : World :=
      { files := .empty
        items := (Cells.empty.push { Item.named "x" with copies := [0] }).push (.named "y")
        copies := Cells.empty.push copy
        directory := .empty }
    let ended (w : World) : World := w.complete 0 (.ok (.path ⟨"n1/x"⟩))
    ∃ w r w' r', Thread.Leads (world, .start .obtain node request) (w, ⟨.obtain r, []⟩) ∧
      r.step w = .wait ∧ r.step (ended w) = .advance w' r' ∧
      ((ended w).items.get 1).knows request.target = false ∧
      (w'.items.get 1).knows request.target = true ∧ ¬ r.IsTruthful (ended w) w' := by
  intro node request copy world ended
  let r : Resolution := ⟨node, request, none, .joining [0]⟩
  have start : step ⟨node, request, none, .start⟩ world =
      .advance world ⟨node, request, none, .resident⟩ := rfl
  have resident : step ⟨node, request, none, .resident⟩ world =
      .advance world ⟨node, request, none, .survey⟩ := rfl
  have survey : step ⟨node, request, none, .survey⟩ world =
      .advance (world.updateItem 0 Item.pin) r := rfl
  have told : r.IsTold (ended (world.updateItem 0 Item.pin)) := .copy rfl rfl (.inl rfl)
  obtain ⟨r', hstep⟩ := exists_step_of_isTold told
  refine ⟨world.updateItem 0 Item.pin, r, _, r', ?_, rfl, hstep, ?_, ?_, fun truthful => ?_⟩
  · exact .head (goes_step start []) (.head (goes_step resident []) (.single (goes_step survey [])))
  · decide +kernel
  · decide +kernel
  · obtain ⟨i, hi, hvalue⟩ := truthful rfl
    cases hi
    revert hvalue
    decide +kernel

end Resolution

end Wharf
