import Mathlib.Tactic.ByContra
import Mathlib.Tactic.Push
import Wharf.Proofs.Transfer.Returns

/-!
# Waiting for oneself

A resolution that calls other nodes registers a copy to all hosts of its target. A node that is to
send the item may ask one of these hosts to get hold of it, and the host then finds the copy of the
very resolution that waits for it.

* `Directory.Spares` says of a call that this cannot happen: no host of the target is left to be
  asked by a node that is called. Then the call returns whatever is known of the item
  (`Directory.Spares.finishes`).
* Otherwise there are items for which the call gets into a circle (`World.IsRemote`): it is led to a
  resolution that waits for a copy of one of its own callers (`Thread.WaitsForCaller`).
* `Thread.finishes_iff_spares` puts both together.
-/

namespace Wharf

namespace Directory

/-- A node that is asked by this one to send an item finds no other host of the target to ask. -/
def SparesObtain (d : Directory) (node : NodeId) (target : Location) : Prop :=
  ∀ peer host, (d.get? peer).isSome → peer ≠ node → host ∈ target.hosts → (d.get? host).isSome →
    host ≠ node → host = peer

/-- No resolution in the course of the call comes upon a copy that was registered in its course. -/
def Spares (d : Directory) (kind : CallKind) (node : NodeId) (target : Location)
    (requester : Option NodeId) : Prop :=
  match kind with
  | .obtain => d.SparesObtain node target
  | .send => ∀ host ∈ target.hosts, (d.get? host).isSome → host ≠ node → requester ≠ some host →
    d.SparesObtain host target

variable {d : Directory} {w : World} {q : Request}

theorem exists_of_not_sparesObtain {node : NodeId} {target : Location}
    (h : ¬ d.SparesObtain node target) :
    ∃ peer host, (d.get? peer).isSome ∧ peer ≠ node ∧ host ∈ target.hosts ∧
      (d.get? host).isSome ∧ host ≠ node ∧ host ≠ peer := by
  unfold SparesObtain at h
  push Not at h
  exact h

theorem SparesObtain.isServed (hlocal : d.IsLocal) {n : LocalNode}
    (h : d.SparesObtain n.id q.target) : Resolution.IsServed d n q := by
  intro p hp hget c w hw
  refine Delivery.returns hlocal (fun _ => World.Calm.directory) (fun _ _ same hv => hv.same same)
    _ (fun host hhost hself hrequester m hm hgetm => ?_) hw
  have heq := h p.id host (by rw [hget]; rfl) hp hhost (by rw [hgetm]; rfl)
    fun hn => hrequester (by rw [hn])
  exact absurd heq hself

theorem SparesObtain.returns (hlocal : d.IsLocal) {n : LocalNode}
    (h : d.SparesObtain n.id q.target) (hw : World.Calm d q.item none w) :
    (Frame.obtain (.start n q)).Returns w (World.Calm d q.item none) :=
  Resolution.returns_start (h.isServed hlocal) hlocal hw

/-- Two nodes do not get into each other's way. -/
theorem spares_of_two {kind : CallKind} {node a b : NodeId} {target : Location}
    {requester : Option NodeId} (h : ∀ id, (d.get? id).isSome → id = a ∨ id = b)
    (hnode : (d.get? node).isSome) : d.Spares kind node target requester := by
  have two : ∀ n, (d.get? n).isSome → d.SparesObtain n target := by
    intro n hn peer host hpeer hpn _ hhost hhn
    have hn := h n hn
    have hpeer := h peer hpeer
    have hhost := h host hhost
    grind
  cases kind with
  | obtain => exact two node hnode
  | send => exact fun host _ hhost _ _ => two host hhost

/-- **A call that is spared gets to its end**, whatever is known of the item. -/
theorem Spares.finishes (hlocal : d.IsLocal) {kind : CallKind} {n : LocalNode}
    (h : d.Spares kind n.id q.target q.requester) (hd : w.directory = d)
    (hw : w.Quiet q.item) : Thread.Finishes w (.start kind n q) := by
  have calm : World.Calm d q.item none w := ⟨hd, fun c hc => .inl (hw c hc)⟩
  cases kind with
  | obtain => exact (SparesObtain.returns hlocal h calm).finishes
  | send =>
    refine Frame.Returns.finishes (P := World.Calm d q.item none) ?_
    refine Delivery.returns hlocal (fun _ => World.Calm.directory)
      (fun _ _ same hv => hv.same same) _
      (fun host hhost hself hrequester m hm hget v hv => ?_) calm
    have hspares := h host hhost (by rw [hget]; rfl) hself hrequester
    rw [← hm] at hspares
    exact hspares.returns hlocal hv

end Directory

/-! ## The circle -/

namespace Thread

/-- The copy that a thread waits for. -/
def awaits (t : Thread) : Option CopyId :=
  match t.frame with
  | .obtain r => r.awaits
  | .send _ => none

theorem step_of_awaits {w : World} {t : Thread} {c : CopyId} (h : t.awaits = some c)
    (hc : (w.copies.get c).outcome = none) : t.step w = .waiting := by
  obtain ⟨frame, callers⟩ := t
  cases frame with
  | obtain r =>
    rw [step, Frame.step, Resolution.step_of_awaits_of_eq_none h hc]
    rfl
  | send d => cases h

/-- The frame that is worked on waits for a copy that one of its callers has yet to finish. -/
def WaitsForCaller (w : World) (t : Thread) : Prop :=
  ∃ r c, t.frame = .obtain r ∧ r.awaits = some c ∧ (w.copies.get c).outcome = none ∧
    ∃ caller, .obtain caller ∈ t.callers ∧ caller.holding = some c

theorem WaitsForCaller.step_eq {w : World} {t : Thread} (h : t.WaitsForCaller w) :
    t.step w = .waiting := by
  obtain ⟨r, c, hframe, hawaits, hnone, -⟩ := h
  exact step_of_awaits (by rw [awaits, hframe]; exact hawaits) hnone

end Thread

/-- A request that says nothing but where the first item is to be brought. -/
def Request.bare (target : Location) (requester : Option NodeId) : Request :=
  ⟨0, none, target, none, requester⟩

namespace World

/-- A world in which the first item is out of reach: all that is known is that it is in the memory
of one node, and it is not there. -/
structure IsRemote (d : Directory) (holder : NodeId) (w : World) : Prop where
  directory : w.directory = d
  locations : (w.items.get 0).locations = [.memory holder "x"]
  value : (w.items.get 0).value = none

/-- Such a world without any copies. -/
def remote (d : Directory) (holder : NodeId) : World :=
  { empty with
    items := Cells.empty.push { Item.named "x" with locations := [.memory holder "x"] }
    directory := d }

variable {d : Directory} {holder : NodeId} {w : World}

theorem isRemote_remote (d : Directory) (holder : NodeId) : IsRemote d holder (remote d holder) :=
  ⟨rfl, rfl, rfl⟩

namespace IsRemote

variable (h : IsRemote d holder w)

include h

theorem updateItem {f : Item → Item} (hlocations : ∀ i, (f i).locations = i.locations)
    (hvalue : ∀ i, (f i).value = i.value) : IsRemote d holder (w.updateItem 0 f) where
  directory := h.directory
  locations := by
    rw [World.updateItem, Cells.update, Cells.get_set_self, hlocations, h.locations]
  value := by
    rw [World.updateItem, Cells.update, Cells.get_set_self, hvalue, h.value]

theorem joinOrStart {node : NodeId} {target : Location} {requester : Option NodeId} :
    IsRemote d holder (w.joinOrStart node (.bare target requester)).1 := by
  unfold World.joinOrStart
  split
  · exact h
  · have hnew : IsRemote d holder
        (w.newCopy (w.items.get 0).name none target none) := ⟨h.directory, h.locations, h.value⟩
    exact hnew.updateItem (fun _ => rfl) fun _ => rfl

theorem pathsIn_eq_nil (node : NodeId) : World.pathsIn node (w.items.get 0).locations = [] := by
  rw [h.locations]
  rfl

end IsRemote

end World

namespace Resolution

variable {d : Directory} {holder : NodeId} {w : World} {n : LocalNode} {target : Location}
  {requester : Option NodeId}

theorem useReplica_of_isRemote (h : World.IsRemote d holder w) (started : Option CopyId)
    (phase otherwise : Phase) :
    useReplica ⟨n, .bare target requester, started, phase⟩ w otherwise =
      .advance w ⟨n, .bare target requester, started, otherwise⟩ := by
  have hnone : copyReplica ⟨n, .bare target requester, started, phase⟩ w = none := by
    unfold copyReplica
    split
    · rfl
    · rw [show (item ⟨n, .bare target requester, started, phase⟩ w) = w.items.get 0 from rfl,
        h.pathsIn_eq_nil]
      rfl
  unfold useReplica
  rw [hnone]
  rfl

theorem goes_step {r r' : Resolution} {w' : World} (h : r.step w = .advance w' r')
    (callers : List Frame) :
    Thread.Goes (w, ⟨.obtain r, callers⟩) (w', ⟨.obtain r', callers⟩) :=
  Frame.goes_advance (by rw [Frame.step, h]; rfl) callers

/-- As far as the survey every resolution gets. -/
theorem leads_survey (n : LocalNode) (target : Location) (requester : Option NodeId)
    (h : World.IsRemote d holder w) (callers : List Frame) :
    Thread.Leads (w, ⟨.obtain (.start n (.bare target requester)), callers⟩)
      (w.updateItem 0 Item.pin, ⟨.obtain ⟨n, .bare target requester, none,
        .joining (w.copiesTo 0 n.id)⟩, callers⟩) := by
  have hkey : (w.items.get 0).key? = none := by
    rw [Item.key?, h.locations]
    rfl
  have start : step ⟨n, .bare target requester, none, .start⟩ w =
      .advance w ⟨n, .bare target requester, none, .resident⟩ := by
    simp only [step, takeKey, item, Request.bare, hkey]
    rfl
  have resident : step ⟨n, .bare target requester, none, .resident⟩ w =
      .advance w ⟨n, .bare target requester, none, .survey⟩ := by
    simp only [step, placeValue, item, Request.bare, h.value]
    rfl
  exact .head (goes_step start callers) (.head (goes_step resident callers)
    (.single (goes_step rfl callers)))

/-- A resolution that finds a copy of one of its callers in progress waits for it. -/
theorem leads_waitsForCaller (h : World.IsRemote d holder w) {callers : List Frame}
    {caller : Resolution} {c : CopyId} (hcaller : .obtain caller ∈ callers)
    (hholding : caller.holding = some c) (hcopies : w.copiesTo 0 n.id = [c]) :
    ∃ b, Thread.Leads (w, ⟨.obtain (.start n (.bare target requester)), callers⟩) b ∧
      b.2.WaitsForCaller b.1 := by
  have hleads := leads_survey n target requester h callers
  rw [hcopies] at hleads
  have hnone : (w.copies.get c).outcome = none := by
    have hc : c ∈ w.copiesTo 0 n.id := by
      rw [hcopies]
      exact List.mem_cons_self
    exact (World.mem_copiesTo.1 hc).2
  exact ⟨_, hleads, _, c, rfl, rfl, hnone, caller, hcaller, hholding⟩

theorem lookAgain_of_isRemote (h : World.IsRemote d holder w) (started : Option CopyId)
    (phase otherwise : Phase) :
    lookAgain ⟨n, .bare target requester, started, phase⟩ w otherwise =
      .advance w ⟨n, .bare target requester, started, otherwise⟩ := by
  unfold lookAgain
  split
  · rfl
  · exact useReplica_of_isRemote h started phase otherwise

/-- Where there is nothing to wait for, the holder is the node to be called. -/
theorem leads_enlist (target : Location) (requester : Option NodeId)
    (h : World.IsRemote d holder w) (ne : holder ≠ n.id) {peer : Node}
    (present : d.get? holder = some peer) (callers : List Frame) :
    Thread.Leads (w, ⟨.obtain ⟨n, .bare target requester, none, .joining []⟩, callers⟩)
      (w, ⟨.obtain ⟨n, .bare target requester, none, .enlist peer ⟨.known, []⟩⟩, callers⟩) := by
  have hhosts : (w.items.get 0).hosts = [holder] := by
    rw [Item.hosts, h.locations]
    rfl
  have hpeer : w.directory.get? holder = some peer := by rw [h.directory, present]
  have replicas : step ⟨n, .bare target requester, none, .replicas⟩ w =
      .advance w ⟨n, .bare target requester, none, .hosts ⟨.declared, []⟩⟩ :=
    useReplica_of_isRemote h _ _ _
  have round : step ⟨n, .bare target requester, none, .hosts ⟨.declared, []⟩⟩ w =
      .advance w ⟨n, .bare target requester, none, .hosts ⟨.known, [holder]⟩⟩ := by
    rw [← hhosts]
    rfl
  have hosts : step ⟨n, .bare target requester, none, .hosts ⟨.known, [holder]⟩⟩ w =
      .advance w ⟨n, .bare target requester, none, .recheck peer ⟨.known, []⟩⟩ := by
    simp only [step, nextHost, if_neg ne, approach, hpeer]
    rfl
  have recheck : step ⟨n, .bare target requester, none, .recheck peer ⟨.known, []⟩⟩ w =
      .advance w ⟨n, .bare target requester, none, .enlist peer ⟨.known, []⟩⟩ :=
    lookAgain_of_isRemote h _ _ _
  exact .head (goes_step rfl callers) (.head (goes_step replicas callers)
    (.head (goes_step round callers) (.head (goes_step hosts callers)
      (.single (goes_step recheck callers)))))

/-- A resolution that finds no copy registered gets to call the holder, with a copy of its own to
all hosts of the target. -/
theorem leads_ask (target : Location) (requester : Option NodeId)
    (h : World.IsRemote d holder w) (hnone : (w.items.get 0).copies = []) (ne : holder ≠ n.id)
    {peer : Node} (present : d.get? holder = some peer) (callers : List Frame) :
    ∃ v c, World.IsRemote d holder v ∧ (∀ host ∈ target.hosts, v.copiesTo 0 host = [c]) ∧
      Thread.Leads (w, ⟨.obtain (.start n (.bare target requester)), callers⟩)
        (v, ⟨.obtain ⟨n, .bare target requester, some c, .ask peer ⟨.known, []⟩⟩, callers⟩) := by
  have hleads := leads_survey n target requester h callers
  rw [World.copiesTo, hnone, List.filter_nil] at hleads
  have hv := h.updateItem (f := Item.pin) (fun _ => rfl) fun _ => rfl
  have hcopies : ((w.updateItem 0 Item.pin).items.get 0).copies = [] := by
    rw [World.updateItem, Cells.update, Cells.get_set_self, Item.copies_pin, hnone]
  generalize w.updateItem 0 Item.pin = v at hleads hv hcopies
  have free : v.copiesTo (Request.bare target requester).item n.id = [] := by
    rw [World.copiesTo]
    exact congrArg (List.filter _) hcopies
  have enlist : step ⟨n, .bare target requester, none, .enlist peer ⟨.known, []⟩⟩ v =
      .advance (v.joinOrStart n.id (.bare target requester)).1
        ⟨n, .bare target requester, some v.copies.size, .ask peer ⟨.known, []⟩⟩ := by
    simp only [step, Resolution.enlist, World.joinOrStart, free]
  refine ⟨(v.joinOrStart n.id (.bare target requester)).1, v.copies.size, hv.joinOrStart,
    fun host hhost => ?_, ?_⟩
  · have hunder := World.isUnderWay_joinOrStart free hhost
    have hregistered : ((v.joinOrStart n.id (.bare target requester)).1.items.get 0).copies =
        [v.copies.size] := by
      rw [World.registered_joinOrStart free, hcopies]
      rfl
    rw [World.copiesTo, hregistered, List.filter_cons_of_pos hunder, List.filter_nil]
  · exact (hleads.trans (leads_enlist target requester hv ne present callers)).trans
      (.single (goes_step enlist callers))

end Resolution

namespace Delivery

variable {d : Directory} {holder : NodeId} {w : World} {p m : LocalNode} {target : Location}
  {requester : Option NodeId}

/-- The hosts that a delivery asks, as long as it does not come to an end before. -/
def relays (d : Directory) (node : NodeId) (requester : Option NodeId) (host : NodeId) : Bool :=
  host != node && requester != some host && (d.get? host).isSome

/-- There is nothing to be pushed. -/
theorem push_of_isRemote (h : World.IsRemote d holder w) (host : NodeId) (rest : List NodeId)
    (phase : DeliveryPhase) :
    push ⟨p, .bare target requester, phase⟩ w host rest =
      .advance w ⟨p, .bare target requester, .hosts rest⟩ := by
  have hitem : item ⟨p, .bare target requester, phase⟩ w = w.items.get 0 := rfl
  have hsource : (Request.bare target requester).source = none := rfl
  have hpush : ∀ path, pushTo ⟨p, .bare target requester, phase⟩ w path = (w, false) := by
    intro path
    have hnone : pushReplica ⟨p, .bare target requester, phase⟩ w path = none := by
      rw [pushReplica, hitem, hsource, Option.toList_none, List.nil_append, h.pathsIn_eq_nil]
      rfl
    simp only [pushTo, hitem, h.value, hnone]
    rfl
  unfold push
  split
  · rfl
  · rw [hpush]
    rfl

/-- A delivery that cannot push gets to ask the first host that it can ask. -/
theorem leads_relay (h : World.IsRemote d holder w) {pending : List NodeId}
    (hfind : pending.find? (relays d p.id requester) = some m.id)
    (hget : d.get? m.id = some (.own m)) (callers : List Frame) :
    ∃ rest, Thread.Leads (w, ⟨.send ⟨p, .bare target requester, .hosts pending⟩, callers⟩)
      (w, ⟨.obtain (.start m (.bare target requester)),
        .send ⟨p, .bare target requester, .asked rest⟩ :: callers⟩) := by
  induction pending with
  | nil => cases hfind
  | cons host rest ih =>
    by_cases hrelays : relays d p.id requester host = true
    · rw [List.find?_cons_of_pos hrelays, Option.some.injEq] at hfind
      subst hfind
      rw [relays, Bool.and_eq_true, Bool.and_eq_true, bne_iff_ne, bne_iff_ne] at hrelays
      rw [← h.directory] at hget
      have hcall : step ⟨p, .bare target requester, .hosts (m.id :: rest)⟩ w =
          .call (.own m) (.bare target requester) ⟨p, .bare target requester, .asked rest⟩ :=
        step_hosts_of_present hrelays.1.1 hrelays.1.2 hget
      exact ⟨rest, .single (Frame.goes_call (by rw [Frame.step, hcall]; rfl) callers)⟩
    · rw [List.find?_cons_of_neg hrelays] at hfind
      obtain ⟨others, hleads⟩ := ih hfind
      have hskip : step ⟨p, .bare target requester, .hosts (host :: rest)⟩ w =
          .advance w ⟨p, .bare target requester, .hosts rest⟩ := by
        by_cases hself : host = p.id
        · exact step_hosts_of_self hself
        · by_cases hrequester : requester = some host
          · exact (step_hosts_of_requester hself hrequester).trans (push_of_isRemote h host rest _)
          · have habsent : w.directory.get? host = none := by
              rw [relays, bne_iff_ne.2 hself, bne_iff_ne.2 hrequester, Bool.true_and,
                Bool.true_and, Option.not_isSome_iff_eq_none] at hrelays
              rw [h.directory, hrelays]
            exact step_hosts_of_absent hself hrequester habsent
      exact ⟨others, .head (Frame.goes_advance (by rw [Frame.step, hskip]; rfl) callers) hleads⟩

end Delivery

namespace Thread

variable {d : Directory} {target : Location} {requester : Option NodeId}

/-- **A resolution gets into a circle** when the node that it calls finds another host of the target
to ask. -/
theorem leads_waitsForCaller (hlocal : d.IsLocal) {w : World} {n p : LocalNode}
    (hw : World.IsRemote d p.id w) (hnone : (w.items.get 0).copies = []) (ne : p.id ≠ n.id)
    (hp : d.get? p.id = some (.own p)) {host : NodeId} (hhost : host ∈ target.hosts)
    (hpresent : (d.get? host).isSome) (hn : host ≠ n.id) (hhp : host ≠ p.id)
    (callers : List Frame) :
    ∃ b, Leads (w, ⟨.obtain (.start n (.bare target requester)), callers⟩) b ∧
      b.2.WaitsForCaller b.1 := by
  obtain ⟨v, c, hv, hcopies, hask⟩ := Resolution.leads_ask target requester hw hnone ne hp callers
  -- The node that is called asks a host of the target, for all of which there is a copy now.
  have hrelays : Delivery.relays d p.id (some n.id) host := by
    rw [Delivery.relays, bne_iff_ne.2 hhp, bne_iff_ne.2 (by simpa using Ne.symm hn), hpresent]
    rfl
  obtain ⟨asked, hfind⟩ := Option.isSome_iff_exists.1
    (List.find?_isSome.2 ⟨host, hhost, hrelays⟩)
  have hmem := List.mem_of_find?_eq_some hfind
  have hasked := List.find?_some hfind
  rw [Delivery.relays, Bool.and_eq_true] at hasked
  obtain ⟨peer, hpeer⟩ := Option.isSome_iff_exists.1 hasked.2
  obtain ⟨m, rfl, rfl⟩ := hlocal asked peer hpeer
  have hcall : Resolution.step ⟨n, .bare target requester, some c, .ask (.own p) ⟨.known, []⟩⟩ v =
      .call (.own p) (.bare target (some n.id))
        ⟨n, .bare target requester, some c, .asked ⟨.known, []⟩⟩ := rfl
  have hdelivery := Frame.goes_call (f := .obtain _) (by rw [Frame.step, hcall]; rfl) callers
  obtain ⟨rest, hrelay⟩ := Delivery.leads_relay (p := p) hv hfind hpeer
    (.obtain ⟨n, .bare target requester, some c, .asked ⟨.known, []⟩⟩ :: callers)
  have hcaller : Frame.obtain ⟨n, .bare target requester, some c, .asked ⟨.known, []⟩⟩ ∈
      .send ⟨p, .bare target (some n.id), .asked rest⟩ ::
        .obtain ⟨n, .bare target requester, some c, .asked ⟨.known, []⟩⟩ :: callers :=
    List.mem_cons_of_mem _ List.mem_cons_self
  obtain ⟨b, hb, hwaits⟩ :=
    Resolution.leads_waitsForCaller hv hcaller rfl (hcopies m.id hmem)
  exact ⟨b, hask.trans (.head hdelivery (hrelay.trans hb)), hwaits⟩

/-- **A call that is not spared gets into a circle**, if the item is out of reach. -/
theorem exists_waitsForCaller (hlocal : d.IsLocal) {kind : CallKind} {n : LocalNode}
    (h : ¬ d.Spares kind n.id target requester) :
    ∃ holder b, Leads (World.remote d holder, .start kind n (.bare target requester)) b ∧
      b.2.WaitsForCaller b.1 := by
  have obtains : ∀ {n : LocalNode} {peer host : NodeId}, (d.get? peer).isSome → peer ≠ n.id →
      host ∈ target.hosts → (d.get? host).isSome → host ≠ n.id → host ≠ peer →
      ∀ callers, ∃ b, Leads (World.remote d peer,
        ⟨.obtain (.start n (.bare target requester)), callers⟩) b ∧ b.2.WaitsForCaller b.1 := by
    intro n peer host hpeer hpn hhost hpresent hhn hhp callers
    obtain ⟨peer', hget⟩ := Option.isSome_iff_exists.1 hpeer
    obtain ⟨p, rfl, rfl⟩ := hlocal peer peer' hget
    exact leads_waitsForCaller hlocal (World.isRemote_remote d p.id) rfl hpn hget hhost hpresent
      hhn hhp callers
  cases kind with
  | obtain =>
    obtain ⟨peer, host, hpeer, hpn, hhost, hpresent, hhn, hhp⟩ :=
      Directory.exists_of_not_sparesObtain h
    obtain ⟨b, hb⟩ := obtains hpeer hpn hhost hpresent hhn hhp []
    exact ⟨peer, b, hb⟩
  | send =>
    unfold Directory.Spares at h
    push Not at h
    obtain ⟨m, hm, hmpresent, hmn, hrequester, hspares⟩ := h
    obtain ⟨peer, host, hpeer, hpm, hhost, hpresent, hhm, hhp⟩ :=
      Directory.exists_of_not_sparesObtain hspares
    have hrelays : Delivery.relays d n.id requester m := by
      rw [Delivery.relays, bne_iff_ne.2 hmn, bne_iff_ne.2 hrequester, hmpresent]
      rfl
    obtain ⟨first, hfind⟩ := Option.isSome_iff_exists.1 (List.find?_isSome.2 ⟨m, hm, hrelays⟩)
    have hasked := List.find?_some hfind
    rw [Delivery.relays, Bool.and_eq_true] at hasked
    obtain ⟨node, hnode⟩ := Option.isSome_iff_exists.1 hasked.2
    obtain ⟨f, rfl, rfl⟩ := hlocal first node hnode
    -- Of the three nodes two are left for the first one that is asked, a host among them.
    have rest : ∃ a b, (d.get? a).isSome ∧ a ≠ f.id ∧ b ∈ target.hosts ∧ (d.get? b).isSome ∧
        b ≠ f.id ∧ b ≠ a := by
      by_cases hfm : f.id = m
      · rw [hfm]
        exact ⟨peer, host, hpeer, hpm, hhost, hpresent, hhm, hhp⟩
      · by_cases hfh : f.id = host
        · rw [hfh]
          exact ⟨peer, m, hpeer, Ne.symm hhp, hm, hmpresent, Ne.symm hhm, Ne.symm hpm⟩
        · exact ⟨m, host, hmpresent, Ne.symm hfm, hhost, hpresent, Ne.symm hfh, hhm⟩
    obtain ⟨a, b, ha, haf, hb, hbpresent, hbf, hba⟩ := rest
    obtain ⟨pending, hrelay⟩ := Delivery.leads_relay (p := n) (World.isRemote_remote d a) hfind
      hnode []
    obtain ⟨last, hlast, hwaits⟩ := obtains ha haf hb hbpresent hbf hba
      [.send ⟨n, .bare target requester, .asked pending⟩]
    exact ⟨a, last, hrelay.trans hlast, hwaits⟩

/-- **Which calls get to their ends.** All nodes are own nodes, and no copy of the item is in
progress. Then a call returns whatever is known of the item if it is spared, and just then no
resolution in its course waits for one of its callers. -/
theorem finishes_iff_spares (hlocal : d.IsLocal) (kind : CallKind) (n : LocalNode)
    (target : Location) (requester : Option NodeId) :
    ((∀ w q, w.directory = d → w.Quiet q.item → q.target = target → q.requester = requester →
      Finishes w (.start kind n q)) ↔ d.Spares kind n.id target requester) ∧
    ((∀ w q, w.directory = d → w.Quiet q.item → q.target = target → q.requester = requester →
      ∀ b, Leads (w, .start kind n q) b → ¬ b.2.WaitsForCaller b.1) ↔
        d.Spares kind n.id target requester) := by
  refine ⟨⟨fun h => ?_, ?_⟩, fun h => ?_, ?_⟩
  · by_contra hspares
    obtain ⟨holder, b, hb, hwaits⟩ := exists_waitsForCaller hlocal hspares
    exact not_finishes hb hwaits.step_eq
      (h _ (.bare target requester) rfl (fun c hc => by cases hc) rfl rfl)
  · rintro h w q hd hq rfl rfl
    exact h.finishes hlocal hd hq
  · by_contra hspares
    obtain ⟨holder, b, hb, hwaits⟩ := exists_waitsForCaller hlocal hspares
    exact h _ (.bare target requester) rfl (fun c hc => by cases hc) rfl rfl b hb hwaits
  · rintro h w q hd hq rfl rfl b hb hwaits
    exact not_finishes hb hwaits.step_eq (h.finishes hlocal hd hq)

/-- Of two nodes both get what the other one has, wherever it is to be brought. -/
theorem finishes_iff_spares_two_nodes :
    let first : LocalNode := ⟨0, "master", ⟨"n0"⟩, .authoritative⟩
    let second : LocalNode := ⟨1, "worker1", ⟨"n1"⟩, .authoritative⟩
    let d := (Directory.empty.register (.own first)).register (.own second)
    let target : Location := .file [⟨1, ⟨"n1/x"⟩⟩, ⟨0, ⟨"n0/x"⟩⟩]
    d.IsLocal ∧ ∀ w q, w.directory = d → w.Quiet q.item → q.target = target →
      q.requester = none → Finishes w (.start .obtain first q) := by
  intro first second d target
  have hlocal : d.IsLocal := (Directory.isLocal_empty.register first).register second
  have htwo : ∀ id, (d.get? id).isSome → id = 0 ∨ id = 1 := by
    intro id hid
    rw [Directory.get?_register, Directory.get?_register] at hid
    split at hid
    · exact .inr ‹_›
    · split at hid
      · exact .inl ‹_›
      · cases hid
  exact ⟨hlocal, (finishes_iff_spares hlocal .obtain first target none).1.2
    (Directory.spares_of_two htwo rfl)⟩

/-- So many steps of a thread, as far as it goes by itself. -/
def walk : Nat → World × Thread → World × Thread
  | 0, a => a
  | steps + 1, a =>
    match a.2.step a.1 with
    | .running w t => walk steps (w, t)
    | _ => a

theorem leads_walk (steps : Nat) (a : World × Thread) : Leads a (walk steps a) := by
  induction steps generalizing a with
  | zero => exact .refl
  | succ steps ih =>
    unfold walk
    split
    · rename_i w t hstep
      have hgoes : Goes a (w, t) := hstep
      exact .head hgoes (ih _)
    · exact .refl

/-- Three nodes, of which the second one has the item in a file. The first one gets hold of it for
itself and the third one, and the second one asks the third one first. -/
theorem not_finishes_three_nodes :
    let node (id : NodeId) (directory : String) : LocalNode :=
      ⟨id, directory, ⟨directory⟩, .authoritative⟩
    let item : Item := { Item.named "x" with locations := [.file [⟨2, ⟨"n2/x"⟩⟩]] }
    let files := [["tmp", "work", "n1"], ["tmp", "work", "n2"], ["tmp", "work", "n3"]].foldl
      (fun fs place => Files.put fs place .directory) Files.empty
    let world : World :=
      { files := files.put ["tmp", "work", "n2", "x"] (.file [120])
        items := Cells.empty.push item
        copies := .empty
        directory := ((Directory.empty.register (.own (node 1 "n1"))).register
          (.own (node 2 "n2"))).register (.own (node 3 "n3")) }
    let request : Request :=
      ⟨0, none, .file [⟨3, ⟨"n3/x"⟩⟩, ⟨1, ⟨"n1/x"⟩⟩], none, none⟩
    world.directory.IsLocal ∧ world.Quiet 0 ∧
      ¬ Finishes world (.start .obtain (node 1 "n1") request) := by
  intro node item files world request
  have awaits : (walk 14 (world, .start .obtain (node 1 "n1") request)).2.awaits = some 0 := by
    decide +kernel
  have unfinished : ((walk 14 (world, .start .obtain (node 1 "n1") request)).1.copies.get
      0).outcome = none := by
    decide +kernel
  exact ⟨((Directory.isLocal_empty.register _).register _).register _,
    fun c hc => (by cases hc), not_finishes (leads_walk 14 _) (step_of_awaits awaits unfinished)⟩

end Thread

end Wharf
