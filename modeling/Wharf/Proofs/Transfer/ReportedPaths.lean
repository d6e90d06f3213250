import Wharf.Proofs.Transfer.Sessions

/-!
# Where an item is said to be

A node that gets hold of an item ends with the path where the item is. When the target is a file of
several hosts, each of them may see it under another path.

* `Session.IsTraced` says where a path comes from: it is that of the target on the node, or a node
  that was called has delivered there. Every step keeps it, whatever others do
  (`Session.IsTraced.step`).
* `Session.reports_own_path_iff` says when the path is the right one.
-/

namespace Wharf

namespace Resolution

variable {r r' : Resolution} {w w' : World} {target : Target}

theorem Effect.node_eq (h : r.Effect w w' r') : r'.node = r.node := by
  cases h <;> rfl

/-- What a resolution has said once it says until its end. -/
theorem report?_of_advance (h : r.phase.report? = some target) (hstep : r.step w = .advance w' r') :
    r'.phase.report? = some target := by
  cases hverdict : r.verdict? with
  | some outcome =>
    obtain ⟨verdict, -, -⟩ := upkeep_step hverdict hstep
    rw [Phase.report?_of_verdict verdict, ← Phase.report?_of_verdict hverdict, h]
  | none =>
    obtain ⟨reply, route, hphase, told⟩ := Phase.exists_of_report? h hverdict
    rw [step, hphase] at hstep
    simp only [accept, told, deliver, Move.advance.injEq] at hstep
    rw [← hstep.2]
    rfl

/-- A resolution says nothing of its own but the path of the target as the node sees it. -/
theorem path_of_advance {path own : Path} (here : r.localTarget = some own)
    (hstep : r.step w = .advance w' r') (h : r'.phase.report? = some (.path path)) :
    path = own ∨ r.phase.report? = some (.path path) := by
  cases handles_step hstep with
  | passes _ _ _ report => exact .inr (report.symm.trans h)
  | pins _ _ report => exact .inr (report.symm.trans h)
  | unpins _ _ report => exact .inr (report.symm.trans h)
  | takes _ _ _ report =>
    rw [report] at h
    cases h
  | brings _ _ _ report placed =>
    rw [report] at h
    cases h
    refine (placed path rfl).imp_left fun own_eq => ?_
    rw [← own_eq, here, Option.getD_some]

end Resolution

namespace Session

variable {n : LocalNode} {q : Request} {w : World} {s s' : Session} {own path : Path}

/-- What a resolution says comes from the node itself or from one that was called, and what such a
node has delivered is what it says. -/
structure IsTraced (n : LocalNode) (q : Request) (own : Path) (s : Session) : Prop where
  node : s.resolution.node = n
  request : s.resolution.request = q
  source : ∀ path, s.resolution.phase.report? = some (.path path) →
    path = own ∨ ∃ e ∈ s.exchanges, e.reply.target? = some (.path path)
  delivered : ∀ e ∈ s.exchanges, ∀ target, e.reply.target? = some target →
    s.resolution.phase.report? = some target

theorem isTraced_start (n : LocalNode) (q : Request) (own : Path) (w : World) :
    IsTraced n q own (start w n q) :=
  ⟨rfl, rfl, fun _ said => (by cases said), List.forall_mem_nil _⟩

/-- **Every step keeps track of what is said.** -/
theorem IsTraced.step (h : IsTraced n q own s) (here : q.target.pathIn n.id = some own)
    (hstep : s.Step s') : IsTraced n q own s' := by
  obtain ⟨node, request, source, delivered⟩ := h
  cases hstep with
  | others _ => exact ⟨node, request, source, delivered⟩
  | @advances w r hadvance =>
    have effect := Resolution.effect_step hadvance
    have here : s.resolution.localTarget = some own := by
      rw [Resolution.localTarget, request, node, here]
    refine ⟨effect.node_eq.trans node, effect.request_eq.trans request, fun path said => ?_, ?_⟩
    · exact (Resolution.path_of_advance here hadvance said).elim .inl (source path)
    · exact fun e he target told =>
        Resolution.report?_of_advance (delivered e he target told) hadvance
  | @calls peer q' r hcall w reply =>
    have calls := s.resolution.canMake_step s.world
    rw [hcall] at calls
    obtain ⟨route, hphase, -, rfl⟩ := calls
    rw [Resolution.answer_of_asked rfl reply]
    refine ⟨node, request, fun path said => .inr ⟨⟨peer, q', reply⟩, ?_, said⟩,
      fun e he target told => ?_⟩
    · exact List.mem_append_right _ List.mem_cons_self
    · rcases List.mem_append.1 he with before | new
      · -- Nobody had delivered before, or there had been no call.
        have silent := delivered e before target told
        rw [hphase] at silent
        cases silent
      · rw [List.mem_singleton.1 new] at told
        exact told

theorem IsTraced.steps (h : IsTraced n q own s) (here : q.target.pathIn n.id = some own)
    (run : Relation.ReflTransGen Step s s') : IsTraced n q own s' := by
  induction run with
  | refl => exact h
  | tail _ hstep ih => exact ih.step here hstep

/-- **When a path is the right one.** A node gets hold of an item for a file that it sees itself,
whatever the nodes do that it calls, and whatever others do at any time.

* When the call ends with a path, this is the path of the target as the node sees it just when no
  node that was called has delivered elsewhere. So it is when nobody was called, or the item came by
  a copy that somebody else had started.
* What a node has delivered is passed on as it is. If the nodes deliver at the target as some host
  sees it, the path is that of some host; it is the right one if all hosts see the target under the
  same path. -/
theorem reports_own_path_iff (here : q.target.pathIn n.id = some own)
    (run : Relation.ReflTransGen Step (start w n q) s)
    (ended : s.outcome? = some (.ok (.path path))) :
    (path = own ↔ ∀ e ∈ s.exchanges, ∀ target, e.reply.target? = some target →
      target = .path own) ∧
    (∀ e ∈ s.exchanges, ∀ target, e.reply.target? = some target → target = .path path) ∧
    ((∀ e ∈ s.exchanges, ∀ other, e.reply.target? = some (.path other) →
        ∃ host, q.target.pathIn host = some other) →
      (∃ host, q.target.pathIn host = some path) ∧
      ((∀ host other, q.target.pathIn host = some other → other = own) → path = own)) := by
  have traced : IsTraced n q own s := (isTraced_start n q own w).steps here run
  have said : s.resolution.phase.report? = some (.path path) := by
    have done := s.resolution.canMake_step s.world
    rw [outcome?_eq_some_iff.1 ended] at done
    exact Phase.report?_of_verdict (congrArg Phase.verdict? done)
  have passedOn : ∀ e ∈ s.exchanges, ∀ target, e.reply.target? = some target →
      target = .path path := by
    intro e he target told
    have same := traced.delivered e he target told
    rw [said] at same
    exact (Option.some.inj same).symm
  have source := traced.source path said
  refine ⟨⟨?_, fun right => ?_⟩, passedOn, fun honest => ?_⟩
  · rintro rfl
    exact passedOn
  · rcases source with own | ⟨e, he, told⟩
    · exact own
    · exact Target.path.inj (right e he _ told)
  · have seen : ∃ host, q.target.pathIn host = some path := by
      rcases source with rfl | ⟨e, he, told⟩
      · exact ⟨n.id, here⟩
      · exact honest e he path told
    refine ⟨seen, fun same => ?_⟩
    obtain ⟨host, hpath⟩ := seen
    exact same host path hpath

/-- A file of two nodes is to be on one of them. The other one delivers it there. -/
theorem reports_own_path_iff_two_hosts :
    let node : LocalNode := ⟨1, "n1", ⟨"n1"⟩, .authoritative⟩
    let world : World :=
      { files := Files.empty.put ["tmp", "work", "shared"] .directory
        items := Cells.empty.push { Item.named "x" with locations := [.file [⟨2, ⟨"n2/x"⟩⟩]] }
        copies := .empty
        directory := Directory.empty.register (.foreign ⟨2, "n2", 0⟩) }
    let request : Request :=
      ⟨0, none, .file [⟨2, ⟨"shared/x"⟩⟩, ⟨1, ⟨"shared/x"⟩⟩], none, none⟩
    let peers : Peers := fun _ _ _ w =>
      ({ w with files := w.files.put ["tmp", "work", "shared", "x"] (.file [120]) },
        .notified (.ok (.path ⟨"shared/x"⟩)))
    let final := (start world node request).after peers 20
    final.exchanges.map (fun e => e.peer.id) = [2] ∧
      ∃ path, final.outcome? = some (.ok (.path path)) ∧ request.target.pathIn 1 = some path := by
  intro node world request peers final
  have here : request.target.pathIn 1 = some ⟨"shared/x"⟩ := by decide
  have ended : final.outcome? = some (.ok (.path ⟨"shared/x"⟩)) := by decide +kernel
  have run : Relation.ReflTransGen Step (start world node request) final := steps_after peers 20 _
  obtain ⟨right, passedOn, -⟩ := reports_own_path_iff here run ended
  refine ⟨by decide +kernel, _, ended, ?_⟩
  rw [here, right.2 passedOn]

/-- **The path of another host.** The target is a file that two nodes see under different paths. The
node that is called delivers there and says so by the first of them, which is not the path on the
node that gets hold of the item. -/
theorem reports_path_of_other_host :
    let node : LocalNode := ⟨1, "n1", ⟨"n1"⟩, .authoritative⟩
    let world : World :=
      { files := Files.empty.put ["tmp", "work", "shared"] .directory
        items := Cells.empty.push { Item.named "x" with locations := [.file [⟨2, ⟨"n2/x"⟩⟩]] }
        copies := .empty
        directory := Directory.empty.register (.foreign ⟨2, "n2", 0⟩) }
    let request : Request :=
      ⟨0, none, .file [⟨3, ⟨"./shared/x"⟩⟩, ⟨1, ⟨"shared/x"⟩⟩], none, none⟩
    let peers : Peers := fun _ _ _ w =>
      ({ w with files := w.files.put ["tmp", "work", "shared", "x"] (.file [120]) },
        .notified (.ok (.path ⟨"./shared/x"⟩)))
    let final := (start world node request).after peers 20
    final.exchanges.map (fun e => e.peer.id) = [2] ∧
      request.target.pathIn 3 = some ⟨"./shared/x"⟩ ∧ request.target.pathIn 1 = some ⟨"shared/x"⟩ ∧
      final.world.files.read ⟨"shared/x"⟩ = .ok [120] ∧
      final.outcome? = some (.ok (.path ⟨"./shared/x"⟩)) := by
  decide +kernel

end Session

end Wharf
