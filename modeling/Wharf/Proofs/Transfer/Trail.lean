import Wharf.Proofs.Files.Places
import Wharf.Proofs.Transfer.CircularWait
import Wharf.Proofs.Transfer.Facts
import Wharf.Proofs.Transfer.Outcomes

/-!
# The trail of a resolution

A resolution that comes upon no copy in progress, and cannot place a value, goes through files: its
own replicas, then what it finds itself and what other nodes find, host by host. All of them are
known beforehand, and it is served by the first one that can be copied.

* `Resolution.trail` lists the files in the order in which they are tried.
* `Resolution.Served` says what comes of a trail: an error behind its end, or else the item is at
  the target, brought there from the first file that can be (`World.Brings`).
* `Resolution.Uncontested` collects what is assumed of the request, `Resolution.Unplaced` of the
  value.
* `Resolution.Steady` is what the world keeps while the resolution is under way. A delivery to the
  resolution serves it from its own part of the trail (`Delivery.yields_sent`), and so does each
  phase (`Resolution.yields_hosts`), up to `Resolution.yields_served`.
* With a value there are two shorter ends: it is placed (`Resolution.yields_placed`), or the node
  gives up over it (`Resolution.yields_refused`).
-/

namespace Wharf

/-! ## Files that are tried -/

namespace World

variable (q : Request) (path : Path) (w : World)

/-- A file can be copied to the target. Nothing is done for a file that is the target itself. -/
def CanBring (source : Path) : Prop :=
  source.same path = true ∨
    (∃ content, w.files.read source = .ok content) ∧ ∃ place, w.files.writable path = .ok place

/-- No file has changed but the target, and not even the target if the value has no fault. -/
structure Keeps (fs : Files) : Prop where
  sameBut : Files.SameBut path w.files fs
  unspoiled : (∀ v, (w.items.get q.item).value = some v → v.encode.fault = none) → fs = w.files

/-- The target after the file was brought there. -/
inductive Brings (source : Path) (fs : Files) : Prop
  | stays (same : source.same path = true) (kept : w.Keeps q path fs)
  | copied (ne : source.same path = false) {content : List UInt8}
      (read : w.files.read source = .ok content)
      (overwritten : Files.Overwritten path content w.files fs)

variable {q path w}

theorem Brings.sameBut {source : Path} {fs : Files} (h : w.Brings q path source fs) :
    Files.SameBut path w.files fs := by
  cases h with
  | stays _ kept => exact kept.sameBut
  | copied _ _ overwritten => exact overwritten.sameBut

end World

namespace Request

variable (q : Request) (w : World)

/-- The file is a replica of the item or the declared source, as some node sees it. -/
def Mentions (path : Path) : Prop :=
  ∃ l ∈ q.source.toList ++ (w.items.get q.item).locations, ∃ node, l.pathIn node = some path

/-- Whether the target is known already. -/
def isKnown : Bool :=
  match q.targetItem with
  | some item => (w.items.get item).knows q.target
  | none => false

/-- Where a node looks for the item that it is to send. -/
def sources (node : NodeId) : List Path :=
  World.pathsIn node (q.source.toList ++ (w.items.get q.item).locations)

variable {q w}

theorem mentions_of_mem_sources {node : NodeId} {source : Path} (h : source ∈ q.sources w node) :
    q.Mentions w source := by
  obtain ⟨l, hl, hpath⟩ := List.mem_filterMap.1 h
  exact ⟨l, hl, node, hpath⟩

theorem mentions_of_mem_replicas {node : NodeId} {source : Path}
    (h : source ∈ World.pathsIn node (w.items.get q.item).locations) : q.Mentions w source := by
  obtain ⟨l, hl, hpath⟩ := List.mem_filterMap.1 h
  exact ⟨l, List.mem_append_right _ hl, node, hpath⟩

theorem mentions_of_source {node : NodeId} {source : Path}
    (h : (q.source.bind fun l => l.pathIn node) = some source) : q.Mentions w source := by
  obtain ⟨l, hl, hpath⟩ := Option.bind_eq_some_iff.1 h
  exact ⟨l, List.mem_append_left _ (Option.mem_toList.2 hl), node, hpath⟩

/-- Where one replica is known and no source is declared, nothing else is mentioned. -/
theorem eq_of_mentions {path : Path} (replica : Replica) (hsource : q.source = none)
    (hlocations : (w.items.get q.item).locations = [.file [replica]]) (h : q.Mentions w path) :
    path = replica.path := by
  obtain ⟨l, hl, node, hpath⟩ := h
  rw [hsource, hlocations] at hl
  rw [List.mem_singleton.1 hl] at hpath
  obtain ⟨found, hfind, rfl⟩ := Option.map_eq_some_iff.1 hpath
  rw [List.mem_singleton.1 (List.mem_of_find?_eq_some hfind)]

theorem isKnown_iff :
    q.isKnown w = true ↔ ∃ i, q.targetItem = some i ∧ (w.items.get i).knows q.target = true := by
  unfold isKnown
  cases q.targetItem <;> simp

theorem isKnown_eq {w' : World} (h : w.SameItems w') : q.isKnown w' = q.isKnown w := by
  unfold isKnown
  split
  · exact (h _).knows_eq _
  · rfl

end Request

namespace Directory

/-- A target at one node only is out of the way of all calls. -/
theorem sparesObtain_of_hosts (d : Directory) {node : NodeId} {target : Location}
    (h : ∀ host ∈ target.hosts, host = node) : d.SparesObtain node target :=
  fun _ host _ _ hhost _ hne => absurd (h host hhost) hne

end Directory

namespace Resolution

section Trail

variable (n : LocalNode) (q : Request) (path : Path) (w : World)

/-- The files that are tried when it is the turn of a host. -/
def tries (round : Round) (host : NodeId) : List Path :=
  if host = n.id then
    match round with
    | .declared => (q.source.bind fun l => l.pathIn n.id).toList
    | .known => []
  else if (w.directory.get? host).isSome then
    (if q.isKnown w then [path] else []) ++ q.sources w host
  else []

/-- The replicas on the node itself. -/
def ownReplicas : List Path := World.pathsIn n.id (w.items.get q.item).locations

/-- All files that are tried, in order. -/
def trail : List Path :=
  ownReplicas n q w ++ ((start n q).declaredHosts.flatMap (tries n q path w .declared) ++
    ((w.items.get q.item).hosts.flatMap (tries n q path w .known) ++ []))

/-- What comes of a trail. -/
inductive Served : List Path → Outcome → World → Prop
  | exhausted {w' : World} (items : w.SameItems w') (kept : w.Keeps q path w'.files) :
      Served [] (.error (.exhausted (w.items.get q.item).name q.target.toText)) w'
  | brought {source : Path} {rest : List Path} {w' : World} (can : w.CanBring path source)
      (items : (w.register q).SameItems w') (brings : w.Brings q path source w'.files) :
      Served (source :: rest) (.ok (.path path)) w'
  | missed {source : Path} {rest : List Path} {outcome : Outcome} {w' : World}
      (cannot : ¬ w.CanBring path source) (later : Served rest outcome w') :
      Served (source :: rest) outcome w'

/-- The target is a file of this node, all nodes are own nodes, and the resolution comes upon no
copy in progress. Where the target is mentioned it is spelled the same way, and where it is known it
is there. -/
structure Uncontested : Prop where
  isLocal : w.directory.IsLocal
  spares : w.directory.SparesObtain n.id q.target
  quiet : w.Quiet q.item
  settled : (w.items.get q.item).IsSettled
  noKey : (w.items.get q.item).key? = none
  target : q.target.pathIn n.id = some path
  apart : ∀ source, q.Mentions w source → source.same path = false →
    ∀ place, w.files.locate source = .ok place → w.files.locate path ≠ .ok place
  known : q.isKnown w = true → w.files.exists? path = true ∧
    ∀ v, (w.items.get q.item).value = some v → v.encode.fault = none

/-- A value, if there is one, can be written by nobody, and the node does not stop for that. -/
def Unplaced : Prop :=
  ∀ v, (w.items.get q.item).value = some v → n.policy = .fallThrough ∧
    (v.encode.fault.isSome ∨ ∀ place, w.files.writable path ≠ .ok place)

end Trail

variable {n p : LocalNode} {q : Request} {path source : Path} {w₀ w u : World}
  {started : Option CopyId} {fs : Files} {outcome : Outcome} {rest sources : List Path}

/-- The files of a trail are those that are mentioned. The target itself is only looked at when it
is known. -/
theorem mentions_of_mem_trail (h : source ∈ trail n q path w) :
    q.Mentions w source ∨ source = path ∧ q.isKnown w = true := by
  have tried : ∀ {round host}, source ∈ tries n q path w round host →
      q.Mentions w source ∨ source = path ∧ q.isKnown w = true := by
    intro round host hsource
    unfold tries at hsource
    split at hsource
    · cases round with
      | declared => exact .inl (Request.mentions_of_source (Option.mem_toList.1 hsource))
      | known => cases hsource
    · split at hsource
      · rcases List.mem_append.1 hsource with hlook | hsource
        · split at hlook
          · rename_i hknown
            exact .inr ⟨List.mem_singleton.1 hlook, hknown⟩
          · cases hlook
        · exact .inl (Request.mentions_of_mem_sources hsource)
      · cases hsource
  unfold trail at h
  rw [List.append_nil] at h
  rcases List.mem_append.1 h with hown | h
  · exact .inl (Request.mentions_of_mem_replicas hown)
  · rcases List.mem_append.1 h with h | h <;> obtain ⟨host, -, hsource⟩ := List.mem_flatMap.1 h <;>
      exact tried hsource

theorem Served.of_missed (h : ∀ source ∈ sources, ¬ w₀.CanBring path source)
    (hs : Served q path w₀ rest outcome w) : Served q path w₀ (sources ++ rest) outcome w := by
  induction sources with
  | nil => exact hs
  | cons source more ih =>
    exact .missed (h source List.mem_cons_self)
      (ih fun s hs => h s (List.mem_cons_of_mem _ hs))

/-- The world while files are tried: one pin more, and the copy that was started. -/
structure Steady (q : Request) (w₀ : World) (started : Option CopyId) (w : World) : Prop where
  calm : World.Calm w₀.directory q.item started w
  items : w₀.SameItems w
  pins : (w.items.get q.item).pins = (w₀.items.get q.item).pins + 1

namespace Steady

variable (h : Steady q w₀ started w)

include h

theorem setFiles (fs : Files) : Steady q w₀ started { w with files := fs } :=
  ⟨h.calm.same (.files w fs), h.items, h.pins⟩

theorem sources_eq (node : NodeId) : q.sources w node = q.sources w₀ node := by
  rw [Request.sources, (h.items q.item).locations, Request.sources]

theorem replicas_eq (n : LocalNode) : ownReplicas n q w = ownReplicas n q w₀ := by
  rw [ownReplicas, (h.items q.item).locations, ownReplicas]

theorem unpins (settled : (w₀.items.get q.item).IsSettled) :
    (w.items.get q.item).pins = 1 → (w.items.get q.item).postponed = [] := by
  intro hpins
  rw [h.pins] at hpins
  rw [(h.items q.item).postponed]
  exact settled (by omega)

theorem joinOrStart {node : NodeId} (hnone : started = none) :
    Steady q w₀ (some w.copies.size) (w.joinOrStart node q).1 := by
  subst hnone
  have free := h.calm.copiesTo_eq_nil node
  refine ⟨h.calm.joinOrStart, h.items.trans (.joinOrStart free), ?_⟩
  rw [← h.pins]
  simp only [World.joinOrStart, free, World.updateItem, Cells.update, Cells.get_set_self]
  rfl

end Steady

section Attempts

variable (hu : Uncontested n q path w₀)

include hu

/-- What becomes of a file that is copied, however far the resolution has got. -/
theorem brings_of_copyFile (hm : q.Mentions w₀ source) (kept : w₀.Keeps q path w.files)
    {w' : World} (h : w.copyFile source path = .ok w') :
    w' = { w with files := w'.files } ∧ w₀.CanBring path source ∧
      w₀.Brings q path source w'.files := by
  rcases World.copyFile_eq_ok_iff.1 h with ⟨same, rfl⟩ | ⟨ne, files, hcopy, rfl⟩
  · exact ⟨rfl, .inl same, .stays same kept⟩
  · have apart : ∀ place, w.files.locate source = .ok place → w.files.locate path ≠ .ok place := by
      intro place hsource hpath
      exact hu.apart source hm ne place (kept.sameBut.locate_iff.2 hsource)
        (kept.sameBut.locate_iff.2 hpath)
    obtain ⟨content, hread, hover⟩ := Files.overwritten_copy hcopy apart
    obtain ⟨-, place, -, hwritable⟩ := Files.exists_of_copy hcopy
    have hread₀ := (kept.sameBut.read_iff (hu.apart source hm ne)).2 hread
    exact ⟨rfl, .inr ⟨⟨content, hread₀⟩, place, kept.sameBut.directories.writable_iff.2 hwritable⟩,
      .copied ne hread₀ (.of_sameBut kept.sameBut hover)⟩

/-- A file that can be copied at the beginning can be later on. -/
theorem exists_copyFile (hm : q.Mentions w₀ source) (kept : w₀.Keeps q path w.files)
    (h : w₀.CanBring path source) : ∃ w', w.copyFile source path = .ok w' := by
  cases same : source.same path with
  | true => exact ⟨w, World.copyFile_eq_ok_iff.2 (.inl ⟨same, rfl⟩)⟩
  | false =>
    rcases h with same' | ⟨⟨content, hread⟩, place, hwritable⟩
    · rw [same] at same'
      cases same'
    · have apart := hu.apart source hm same
      obtain ⟨files, hcopy, -⟩ := Files.exists_copy ((kept.sameBut.read_iff apart).1 hread)
        (kept.sameBut.directories.writable_iff.1 hwritable) fun hsource =>
          apart place (kept.sameBut.locate_iff.2 hsource) (Files.writable_eq_ok_iff.1 hwritable).2.1
      exact ⟨_, World.copyFile_eq_ok_iff.2 (.inr ⟨same, files, hcopy, rfl⟩)⟩

/-- **The first of several files that can be copied serves the resolution.** -/
theorem attempt (hm : ∀ source ∈ sources, q.Mentions w₀ source)
    (kept : w₀.Keeps q path w.files) :
    (∃ fs, w.copyFirst path sources = some { w with files := fs } ∧
      (∃ source ∈ sources, w₀.CanBring path source) ∧
      ∀ rest u, u.files = fs → (w₀.register q).SameItems u →
        Served q path w₀ (sources ++ rest) (.ok (.path path)) u) ∨
    (w.copyFirst path sources = none ∧ ∀ source ∈ sources, ¬ w₀.CanBring path source) := by
  induction sources with
  | nil => exact .inr ⟨rfl, nofun⟩
  | cons source more ih =>
    have hsource := hm source List.mem_cons_self
    unfold World.copyFirst
    split
    · rename_i w' hcopy
      obtain ⟨heq, can, brings⟩ := brings_of_copyFile hu hsource kept hcopy
      refine .inl ⟨w'.files, congrArg some heq, ⟨source, List.mem_cons_self, can⟩, ?_⟩
      rintro rest u hfiles items
      exact .brought can items (by rw [hfiles]; exact brings)
    · rename_i e hcopy
      have cannot : ¬ w₀.CanBring path source := by
        intro can
        obtain ⟨w', hcopied⟩ := exists_copyFile hu hsource kept can
        rw [hcopy] at hcopied
        cases hcopied
      rcases ih fun s hs => hm s (List.mem_cons_of_mem _ hs) with
        ⟨fs, hfirst, ⟨s, hs, can⟩, serves⟩ | ⟨hnone, missed⟩
      · exact .inl ⟨fs, hfirst, ⟨s, List.mem_cons_of_mem _ hs, can⟩,
          fun rest u hfiles items => .missed cannot (serves rest u hfiles items)⟩
      · refine .inr ⟨hnone, fun s hs => ?_⟩
        rcases List.mem_cons.1 hs with rfl | hs
        · exact cannot
        · exact missed s hs

end Attempts

/-- A value that cannot be placed spoils no file but the target. -/
theorem exists_spoiled (hv : Unplaced n q path w₀) (kept : w₀.Keeps q path fs) {v : Value}
    (hvalue : (w₀.items.get q.item).value = some v) :
    ∃ fs' e, v.writeTo fs path = (fs', .error e) ∧ w₀.Keeps q path fs' := by
  rcases (hv v hvalue).2 with fault | unwritable
  · obtain ⟨fs', e, hwrite, sameBut⟩ := v.exists_error_writeTo fault fs path
    refine ⟨fs', e, hwrite, kept.sameBut.trans sameBut, fun faultless => ?_⟩
    rw [faultless v hvalue] at fault
    cases fault
  · cases hwritable : fs.writable path with
    | error e =>
      exact ⟨fs, .file e, by simp only [Value.writeTo, Files.create, hwritable], kept⟩
    | ok place =>
      exact absurd (kept.sameBut.directories.writable_iff.2 hwritable) (unwritable place)

/-! ## Deliveries to the resolution -/

/-- What a delivery leaves to the resolution that waits for it. -/
inductive Sent (q : Request) (path : Path) (w₀ : World) (started : Option CopyId) (node : NodeId) :
    Outcome → World → Prop
  | sent {v : World} (steady : Steady q w₀ started v)
      (serves : ∀ rest u, u.files = v.files → (w₀.register q).SameItems u →
        Served q path w₀ (q.sources w₀ node ++ rest) (.ok (.path path)) u) :
      Sent q path w₀ started node (.ok (.path path)) v
  | unsent {v : World} {e : TransferError} (steady : Steady q w₀ started v)
      (kept : w₀.Keeps q path v.files)
      (missed : ∀ source ∈ q.sources w₀ node, ¬ w₀.CanBring path source) :
      Sent q path w₀ started node (.error e) v

section Deliveries

variable (hv : Unplaced n q path w₀)

include hv

/-- A delivery copies files as if there were no value, which spoils at most the target. -/
theorem pushTo_eq (phase : DeliveryPhase) (steady : Steady q w₀ started w)
    (kept : w₀.Keeps q path w.files) :
    ∃ fs, w₀.Keeps q path fs ∧
      Delivery.pushTo ⟨p, { q with requester := some n.id }, phase⟩ w path =
        match World.copyFirst { w with files := fs } path (q.sources w₀ p.id) with
        | some w => (w, true)
        | none => ({ w with files := fs }, false) := by
  have hvalue : (Delivery.item ⟨p, { q with requester := some n.id }, phase⟩ w).value =
      (w₀.items.get q.item).value := (steady.items q.item).value
  cases hnone : (w₀.items.get q.item).value with
  | none =>
    refine ⟨w.files, kept, ?_⟩
    simp only [Delivery.pushTo, hvalue, hnone, ← steady.sources_eq]
    rfl
  | some v =>
    obtain ⟨fs, e, hwrite, kept'⟩ := exists_spoiled hv kept hnone
    refine ⟨fs, kept', ?_⟩
    simp only [Delivery.pushTo, hvalue, hnone, hwrite, ← steady.sources_eq]
    rfl

variable (hu : Uncontested n q path w₀)

include hu

/-- **A delivery serves the resolution that waits for it**, and asks nobody else. -/
theorem yields_sent (hp : p.id ≠ n.id) (present : (w₀.directory.get? p.id).isSome)
    {pending : List NodeId} (hpending : ∀ host ∈ pending, host ∈ q.target.hosts)
    (turn : n.id ∈ pending ∨ ∀ source ∈ q.sources w₀ p.id, ¬ w₀.CanBring path source)
    (steady : Steady q w₀ started w) (kept : w₀.Keeps q path w.files) :
    (Frame.send ⟨p, { q with requester := some n.id }, .hosts pending⟩).Yields w
      (Sent q path w₀ started p.id) := by
  induction pending generalizing w with
  | nil =>
    have missed := turn.resolve_left (List.not_mem_nil)
    exact .of_advance rfl (.of_finish rfl (.unsent steady kept missed))
  | cons host rest ih =>
    have next := fun {w : World} => ih (w := w) fun h hh => hpending h (List.mem_cons_of_mem _ hh)
    by_cases hhost : host = n.id
    · subst hhost
      have hstep : Delivery.step ⟨p, { q with requester := some n.id }, .hosts (n.id :: rest)⟩ w =
          Delivery.push ⟨p, { q with requester := some n.id }, .hosts (n.id :: rest)⟩ w n.id rest :=
        Delivery.step_hosts_of_requester (Ne.symm hp) rfl
      simp only [Delivery.push, hu.target] at hstep
      obtain ⟨fs, kept', hpush⟩ := pushTo_eq (p := p) hv (.hosts (n.id :: rest)) steady kept
      have mentioned : ∀ source ∈ q.sources w₀ p.id, q.Mentions w₀ source :=
        fun _ => Request.mentions_of_mem_sources
      rcases attempt hu (w := { w with files := fs }) mentioned kept' with
        ⟨fs', hfirst, -, serves⟩ | ⟨hnone, missed⟩
      · rw [hpush, hfirst] at hstep
        exact .of_send hstep (.of_finish rfl (.sent (steady.setFiles fs') serves))
      · rw [hpush, hnone] at hstep
        exact .of_send hstep (next (.inr missed) (steady.setFiles fs) kept')
    · have later := turn.imp_left fun hmem => (List.mem_cons.1 hmem).resolve_left (Ne.symm hhost)
      by_cases hself : host = p.id
      · exact .of_send (Delivery.step_hosts_of_self hself) (next later steady kept)
      · have absent : w.directory.get? host = none := by
          by_contra hpresent
          rw [← ne_eq, Option.ne_none_iff_isSome, steady.calm.directory] at hpresent
          exact hself (hu.spares p.id host present hp (hpending host List.mem_cons_self) hpresent
            hhost)
        have hrequester : ({ q with requester := some n.id } : Request).requester ≠ some host :=
          fun h => hhost (Option.some.inj h).symm
        exact .of_send (Delivery.step_hosts_of_absent hself hrequester absent)
          (next later steady kept)

end Deliveries

/-! ## The phases -/

section Phases

variable {Q : Outcome → World → Prop} {phase otherwise : Phase}

/-- What comes of a resolution that has got to this phase. -/
abbrev YieldsFrom (n : LocalNode) (q : Request) (started : Option CopyId) (phase : Phase)
    (w : World) (Q : Outcome → World → Prop) : Prop :=
  (Frame.obtain ⟨n, q, started, phase⟩).Yields w Q

theorem yields_completing (hQ : ∀ u, u.files = w.files → w.SameItems u → Q outcome u) :
    YieldsFrom n q started (.completing outcome) w Q := by
  cases started with
  | none => exact .of_advance rfl (.of_finish rfl (hQ w rfl (.refl w)))
  | some copy =>
    refine .of_advance rfl (.of_advance rfl (.of_finish rfl (hQ _ rfl ?_)))
    exact .trans (.of_items_eq rfl) (.updateItem ⟨rfl, rfl, rfl, rfl⟩)

theorem yields_leaving
    (unpins : (w.items.get q.item).pins = 1 → (w.items.get q.item).postponed = [])
    (hQ : ∀ u, u.files = w.files → w.SameItems u → Q outcome u) :
    YieldsFrom n q started (.leaving outcome) w Q :=
  .of_advance rfl <| yields_completing fun u hfiles items =>
    hQ u hfiles (.trans (.updateItem (Item.sameFacts_unpin unpins)) items)

theorem yields_delivered (settled : (w₀.items.get q.item).IsSettled)
    (steady : Steady q w₀ started w)
    (serves : ∀ u, u.files = w.files → (w₀.register q).SameItems u → Q outcome u) :
    YieldsFrom n q started (.leaving outcome) (w.register q) Q := by
  obtain ⟨hpins, hpostponed⟩ := w.pins_register q q.item
  refine yields_leaving ?_ fun u hfiles items => serves u ?_ ((steady.items.register q).trans items)
  · rw [hpins, hpostponed]
    exact steady.unpins settled
  · rw [hfiles, World.files_register]

/-! ### The value -/

section Values

variable (hkey : (w.items.get q.item).key? = none) (htarget : q.target.pathIn n.id = some path)
  {v : Value} (hvalue : (w.items.get q.item).value = some v)

include hkey in
theorem yields_start (h : YieldsFrom n q none .resident w Q) : YieldsFrom n q none .start w Q := by
  have hstart : step ⟨n, q, none, .start⟩ w = .advance w ⟨n, q, none, .resident⟩ := by
    simp only [step, takeKey, item, hkey]
    rfl
  exact .of_obtain hstart h

include htarget hvalue in
theorem step_resident :
    step ⟨n, q, started, .resident⟩ w = writeValue ⟨n, q, started, .resident⟩ w v path := by
  obtain ⟨replicas, hfile⟩ : ∃ replicas, q.target = .file replicas := by
    unfold Location.pathIn at htarget
    split at htarget
    · exact ⟨_, ‹_›⟩
    · cases htarget
  have hlocal : localTarget ⟨n, q, started, .resident⟩ = some path := htarget
  simp only [step, placeValue, item, hvalue, hfile, hlocal]

include hkey htarget hvalue

/-- A value that can be written is placed at once. -/
theorem yields_placed (hwrite : v.writeTo w.files path = (fs, .ok ()))
    (hQ : ∀ u, u.files = fs → (w.register q).SameItems u → Q (.ok (.path path)) u) :
    YieldsFrom n q none .start w Q := by
  have hstep : step ⟨n, q, none, .resident⟩ w = _ := step_resident htarget hvalue
  simp only [writeValue, hwrite] at hstep
  have same : w.SameItems { w with files := fs } := .of_items_eq rfl
  refine yields_start hkey (.of_obtain hstep (yields_completing fun u hfiles items' => ?_))
  exact hQ u (by rw [hfiles, World.files_register]) ((same.register q).trans items')

/-- **A node for which the value is authoritative stops when that cannot be written.** -/
theorem yields_refused (hpolicy : n.policy = .authoritative) {e : Failure}
    (hwrite : v.writeTo w.files path = (fs, .error e))
    (hQ : ∀ u, u.files = fs → w.SameItems u →
      Q (.error (.serialization (w.items.get q.item).name e.message)) u) :
    YieldsFrom n q none .start w Q := by
  have hstep : step ⟨n, q, none, .resident⟩ w = _ := step_resident htarget hvalue
  simp only [writeValue, hwrite, hpolicy] at hstep
  exact yields_start hkey (.of_obtain hstep (yields_completing fun u hfiles items =>
    hQ u hfiles (.trans (.of_items_eq rfl) items)))

end Values

/-! ### The files -/

variable (hu : Uncontested n q path w₀)

include hu

/-- The resolution is served by one of these files, or goes on along the trail. -/
theorem yields_attempt (hm : ∀ source ∈ sources, q.Mentions w₀ source)
    (steady : Steady q w₀ started w) (kept : w₀.Keeps q path w.files)
    (hstep : step ⟨n, q, started, phase⟩ w =
      match w.copyFirst path sources with
      | some w => deliver ⟨n, q, started, phase⟩ w (.path path)
      | none => proceed ⟨n, q, started, phase⟩ w otherwise)
    (next : (∀ source ∈ sources, ¬ w₀.CanBring path source) →
      YieldsFrom n q started otherwise w (Served q path w₀ rest)) :
    YieldsFrom n q started phase w (Served q path w₀ (sources ++ rest)) := by
  rcases attempt hu hm kept with ⟨fs, hfirst, -, serves⟩ | ⟨hnone, missed⟩
  · rw [hfirst] at hstep
    exact .of_obtain hstep (yields_delivered hu.settled (steady.setFiles fs) (serves rest))
  · rw [hnone] at hstep
    exact .of_obtain hstep ((next missed).mono fun _ _ => .of_missed missed)

theorem useReplica_eq (steady : Steady q w₀ started w) :
    useReplica ⟨n, q, started, phase⟩ w otherwise =
      match w.copyFirst path (ownReplicas n q w₀) with
      | some w => deliver ⟨n, q, started, phase⟩ w (.path path)
      | none => proceed ⟨n, q, started, phase⟩ w otherwise := by
  have htarget : localTarget ⟨n, q, started, phase⟩ = some path := hu.target
  rw [← steady.replicas_eq]
  simp only [useReplica, copyReplica, htarget]
  cases hfirst : w.copyFirst path (ownReplicas n q w) <;>
    simp only [ownReplicas] at hfirst <;> simp only [item, hfirst] <;> rfl

omit hu in
theorem useSource_eq (htarget : q.target.pathIn n.id = some path) :
    useSource ⟨n, q, started, phase⟩ w otherwise =
      match w.copyFirst path (q.source.bind fun l => l.pathIn n.id).toList with
      | some w => deliver ⟨n, q, started, phase⟩ w (.path path)
      | none => proceed ⟨n, q, started, phase⟩ w otherwise := by
  have htarget : localTarget ⟨n, q, started, phase⟩ = some path := htarget
  simp only [useSource, htarget]
  cases q.source.bind fun l => l.pathIn n.id with
  | none => rfl
  | some source =>
    simp only [Option.toList_some, World.copyFirst]
    cases w.copyFile source path <;> rfl

variable (hv : Unplaced n q path w₀)

include hv

/-- The node that is called serves the resolution, or the next host is tried. -/
theorem yields_ask {c : CopyId} {route : Route} (hp : p.id ≠ n.id)
    (present : (w₀.directory.get? p.id).isSome) (steady : Steady q w₀ (some c) w)
    (kept : w₀.Keeps q path w.files)
    (next : ∀ w, Steady q w₀ (some c) w → w₀.Keeps q path w.files →
      YieldsFrom n q (some c) (.hosts route) w (Served q path w₀ rest)) :
    YieldsFrom n q (some c) (.ask (.own p) route) w
      (Served q path w₀ (q.sources w₀ p.id ++ rest)) := by
  have turn := Location.mem_hosts_of_pathIn hu.target
  have hsend := yields_sent hv hu hp present (fun _ => id) (.inl turn) steady kept
  refine .of_call rfl hsend fun v outcome hsent => ?_
  cases hsent with
  | sent steady serves =>
    exact .of_advance rfl (yields_delivered hu.settled steady (serves rest))
  | unsent steady kept missed =>
    exact .of_advance rfl ((next v steady kept).mono fun _ _ => .of_missed missed)

/-- Before the first call it is looked once more whether the item has been brought to the target,
and whether there is a replica on the node itself. -/
theorem yields_recheck {route : Route} (hp : p.id ≠ n.id)
    (present : (w₀.directory.get? p.id).isSome)
    (missed : ∀ source ∈ ownReplicas n q w₀, ¬ w₀.CanBring path source)
    (steady : Steady q w₀ none w) (kept : w₀.Keeps q path w.files)
    (next : q.isKnown w₀ = false → ∀ c w, Steady q w₀ (some c) w → w₀.Keeps q path w.files →
      YieldsFrom n q (some c) (.hosts route) w (Served q path w₀ rest)) :
    YieldsFrom n q none (.recheck (.own p) route) w
      (Served q path w₀ ((if q.isKnown w₀ then [path] else []) ++ q.sources w₀ p.id ++ rest)) := by
  have htarget : localTarget ⟨n, q, none, .recheck (.own p) route⟩ = some path := hu.target
  cases hknown : q.isKnown w₀ with
  | true =>
    obtain ⟨there, faultless⟩ := hu.known hknown
    obtain ⟨i, hi, hknows⟩ := Request.isKnown_iff.1 hknown
    have delivered : isDelivered ⟨n, q, none, .recheck (.own p) route⟩ w path = true := by
      simp only [isDelivered, hi]
      rw [kept.unspoiled faultless, there, (steady.items i).knows_eq, hknows]
      rfl
    have hstep : step ⟨n, q, none, .recheck (.own p) route⟩ w =
        .advance w ⟨n, q, none, .leaving (.ok (.path path))⟩ := by
      simp only [step, lookAgain, htarget, if_pos delivered]
      rfl
    have registered : (w₀.register q).SameItems w₀ := by
      refine World.sameItems_register_of_knows fun j hj => ?_
      rw [hi] at hj
      cases hj
      exact hknows
    refine .of_obtain hstep (yields_leaving (steady.unpins hu.settled) fun u hfiles items => ?_)
    refine .brought (.inl (Path.same_refl path)) ((registered.trans steady.items).trans items) ?_
    rw [hfiles]
    exact .stays (Path.same_refl path) kept
  | false =>
    have undelivered : isDelivered ⟨n, q, none, .recheck (.own p) route⟩ w path = false := by
      rw [← Request.isKnown_eq steady.items, Request.isKnown] at hknown
      unfold isDelivered
      split at hknown <;> rename_i htarget <;> simp only [htarget, hknown, Bool.and_false]
    have none_found : w.copyFirst path (ownReplicas n q w₀) = none := by
      rcases attempt hu (fun _ => Request.mentions_of_mem_replicas) kept with
        ⟨-, -, ⟨source, hsource, can⟩, -⟩ | ⟨hnone, -⟩
      · exact absurd can (missed source hsource)
      · exact hnone
    have hstep : step ⟨n, q, none, .recheck (.own p) route⟩ w =
        .advance w ⟨n, q, none, .enlist (.own p) route⟩ := by
      simp only [step, lookAgain, htarget, undelivered, useReplica_eq hu steady, none_found]
      rfl
    have henlist : step ⟨n, q, none, .enlist (.own p) route⟩ w =
        .advance (w.joinOrStart n.id q).1 ⟨n, q, some w.copies.size, .ask (.own p) route⟩ := by
      simp only [step, enlist, World.joinOrStart, steady.calm.copiesTo_eq_nil n.id]
    refine .of_obtain hstep (.of_obtain henlist ?_)
    have files : (w.joinOrStart n.id q).1.files = w.files := by
      simp only [World.joinOrStart, steady.calm.copiesTo_eq_nil n.id]
      rfl
    exact yields_ask hu hv hp present (steady.joinOrStart rfl) (by rw [files]; exact kept)
      (next hknown _)

/-- **The hosts of a round are tried one after the other**; `last` is what follows the last one. -/
theorem yields_hosts {round : Round} (pending : List NodeId)
    (missed : ∀ source ∈ ownReplicas n q w₀, ¬ w₀.CanBring path source)
    (last : ∀ started w, Steady q w₀ started w → w₀.Keeps q path w.files →
      (started.isSome → q.isKnown w₀ = false) →
      YieldsFrom n q started (.hosts ⟨round, []⟩) w (Served q path w₀ rest))
    (steady : Steady q w₀ started w) (kept : w₀.Keeps q path w.files)
    (unknown : started.isSome → q.isKnown w₀ = false) :
    YieldsFrom n q started (.hosts ⟨round, pending⟩) w
      (Served q path w₀ (pending.flatMap (tries n q path w₀ round) ++ rest)) := by
  induction pending generalizing started w with
  | nil => exact last started w steady kept unknown
  | cons host more ih =>
    rw [List.flatMap_cons, List.append_assoc]
    by_cases self : host = n.id
    · have htries : ∀ round, tries n q path w₀ round host = match round with
          | .declared => (q.source.bind fun l => l.pathIn n.id).toList
          | .known => [] := fun round => if_pos self
      rw [htries]
      cases round with
      | declared =>
        have hstep : step ⟨n, q, started, .hosts ⟨.declared, host :: more⟩⟩ w =
            useSource ⟨n, q, started, .hosts ⟨.declared, host :: more⟩⟩ w
              (.hosts ⟨.declared, more⟩) := by
          simp only [step, nextHost, if_pos self]
        rw [useSource_eq hu.target] at hstep
        refine yields_attempt hu (fun source hsource => ?_) steady kept hstep fun _ =>
          ih steady kept unknown
        exact Request.mentions_of_source (Option.mem_toList.1 hsource)
      | known =>
        have hstep : step ⟨n, q, started, .hosts ⟨.known, host :: more⟩⟩ w =
            .advance w ⟨n, q, started, .hosts ⟨.known, more⟩⟩ := by
          simp only [step, nextHost, if_pos self]
          rfl
        exact .of_obtain hstep (ih steady kept unknown)
    · have hstep : step ⟨n, q, started, .hosts ⟨round, host :: more⟩⟩ w =
          approach ⟨n, q, started, .hosts ⟨round, host :: more⟩⟩ w host ⟨round, more⟩ := by
        cases round <;> simp only [step, nextHost, if_neg self]
      have htries : tries n q path w₀ round host =
          if (w.directory.get? host).isSome then
            (if q.isKnown w₀ then [path] else []) ++ q.sources w₀ host
          else [] := by
        rw [steady.calm.directory]
        exact if_neg self
      unfold approach at hstep
      cases hpeer : w.directory.get? host with
      | none =>
        rw [hpeer] at hstep htries
        rw [htries]
        exact .of_obtain hstep (ih steady kept unknown)
      | some peer =>
        rw [hpeer] at hstep htries
        rw [htries]
        rw [steady.calm.directory] at hpeer
        obtain ⟨p, rfl, rfl⟩ := hu.isLocal _ _ hpeer
        have present : (w₀.directory.get? p.id).isSome := by rw [hpeer]; rfl
        cases started with
        | some c =>
          have hunknown := unknown rfl
          simp only [hunknown, Option.isSome_some, if_true, Bool.false_eq_true, if_false,
            List.nil_append]
          exact .of_obtain hstep (yields_ask hu hv self present steady kept fun w steady kept =>
            ih steady kept fun _ => hunknown)
        | none =>
          exact .of_obtain hstep (yields_recheck hu hv self present missed steady kept
            fun hunknown c w steady kept => ih steady kept fun _ => hunknown)

/-- A resolution that has found no value to place goes along its trail. -/
theorem yields_survey (hw : World.Calm w₀.directory q.item none w) (items : w₀.SameItems w)
    (pins : (w.items.get q.item).pins = (w₀.items.get q.item).pins)
    (kept : w₀.Keeps q path w.files) :
    YieldsFrom n q none .survey w (Served q path w₀ (trail n q path w₀)) := by
  have hsurvey : step ⟨n, q, none, .survey⟩ w =
      .advance (w.updateItem q.item Item.pin) ⟨n, q, none, .joining []⟩ := by
    simp only [step, survey, hw.copiesTo_eq_nil n.id]
    rfl
  have steady : Steady q w₀ none (w.updateItem q.item Item.pin) := by
    refine ⟨hw.same (.updateItem w _ Item.copies_pin), items.trans (.updateItem ?_), ?_⟩
    · exact ⟨rfl, rfl, rfl, rfl⟩
    · rw [World.updateItem, Cells.update, Cells.get_set_self, ← pins]
      rfl
  refine .of_obtain hsurvey (.of_advance rfl ?_)
  refine yields_attempt hu (fun _ => Request.mentions_of_mem_replicas) steady kept
    (useReplica_eq hu steady) fun missed => ?_
  refine yields_hosts hu hv _ missed (fun started w steady kept unknown => ?_) steady kept
    fun hsome => by cases hsome
  have hround : step ⟨n, q, started, .hosts ⟨.declared, []⟩⟩ w =
      .advance w ⟨n, q, started, .hosts ⟨.known, (w₀.items.get q.item).hosts⟩⟩ := by
    rw [← (steady.items q.item).hosts_eq]
    rfl
  refine .of_obtain hround (yields_hosts hu hv _ missed (fun started w steady kept _ => ?_)
    steady kept unknown)
  have hexhausted : step ⟨n, q, started, .hosts ⟨.known, []⟩⟩ w =
      .advance w ⟨n, q, started, .leaving
        (.error (.exhausted (w₀.items.get q.item).name q.target.toText))⟩ := by
    rw [← (steady.items q.item).name]
    rfl
  refine .of_obtain hexhausted (yields_leaving (steady.unpins hu.settled) fun u hfiles items => ?_)
  exact .exhausted (steady.items.trans items) (by rw [hfiles]; exact kept)

/-- **A resolution that comes upon no copy in progress, and cannot place a value, is served by the
first file of its trail that can be copied.** -/
theorem yields_served :
    YieldsFrom n q none .start w₀ (Served q path w₀ (trail n q path w₀)) := by
  have calm : World.Calm w₀.directory q.item none w₀ := ⟨rfl, fun c hc => .inl (hu.quiet c hc)⟩
  have kept : w₀.Keeps q path w₀.files := ⟨.refl path _, fun _ => rfl⟩
  refine yields_start hu.noKey ?_
  cases hvalue : (w₀.items.get q.item).value with
  | none =>
    have hstep : step ⟨n, q, none, .resident⟩ w₀ = .advance w₀ ⟨n, q, none, .survey⟩ := by
      simp only [step, placeValue, item, hvalue]
      rfl
    exact .of_obtain hstep (yields_survey hu hv calm (.refl w₀) rfl kept)
  | some v =>
    obtain ⟨fs, e, hwrite, kept'⟩ := exists_spoiled hv kept hvalue
    have hstep : step ⟨n, q, none, .resident⟩ w₀ = _ := step_resident hu.target hvalue
    simp only [writeValue, hwrite, (hv v hvalue).1] at hstep
    exact .of_obtain hstep (yields_survey hu hv (calm.same (.files w₀ fs)) (.of_items_eq rfl) rfl
      kept')

end Phases

end Resolution

end Wharf
