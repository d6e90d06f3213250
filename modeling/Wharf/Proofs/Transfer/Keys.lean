import Wharf.Proofs.Data.Pins
import Wharf.Proofs.Transfer.Handling

/-!
# Keys in the persistent store

An item that has a key in the persistent store keeps it, whatever happens, and each call for the
item says so and does next to nothing.

* Forgetting a host has nothing to do with keys (`Item.key?_dropHost`), and a location that is added
  comes after the key that is there (`Item.key?_addLocation`).
* `World.Changes` lists what can happen to the items, `World.KeepsKeys` says that each of them has
  kept its key (`World.Changes.keepsKeys`).
* `Resolution.takes_key_for_ever` is what follows for the calls that come later.
-/

namespace Wharf

theorem Location.bind_key?_without (l : Location) (host : NodeId) :
    (l.without host).bind Location.key? = l.key? := by
  cases hwithout : l.without host with
  | some m => exact (within_of_without hwithout).key?_eq
  | none =>
    cases l with
    | persistent key => cases hwithout
    | memory _ _ => rfl
    | file _ => rfl

namespace Item

variable {d : Item} {key : String}

/-- A key does not belong to any host. -/
theorem key?_dropHost (d : Item) (host : NodeId) : (d.dropHost host).key? = d.key? := by
  unfold key? dropHost
  dsimp only
  induction d.locations with
  | nil => rfl
  | cons l rest ih =>
    have here := l.bind_key?_without host
    rw [List.filterMap_cons, List.findSome?_cons, ← ih, ← here]
    cases l.without host with
    | none => rfl
    | some m => rw [List.findSome?_cons, Option.bind_some]

theorem key?_foldl_dropHost (hosts : List NodeId) :
    (hosts.foldl dropHost d).key? = d.key? := by
  induction hosts generalizing d with
  | nil => rfl
  | cons host rest ih => rw [List.foldl_cons, ih, key?_dropHost]

theorem key?_unpin (d : Item) : d.unpin.key? = d.key? := by
  unfold unpin
  split
  · rw [key?_foldl_dropHost]
    rfl
  · rfl

theorem key?_removeHost (d : Item) (host : NodeId) : (d.removeHost host).1.key? = d.key? := by
  unfold removeHost
  split
  · rfl
  · exact key?_dropHost d host

/-- The first key stays the first one. -/
theorem key?_addLocation (h : d.key? = some key) (l : Location) :
    (d.addLocation l).key? = some key := by
  unfold addLocation
  split
  · exact h
  · unfold key? at h ⊢
    dsimp only
    rw [List.findSome?_append, h, Option.some_or]

theorem key?_perform (h : d.key? = some key) (a : Action) : (d.perform a).key? = some key := by
  cases a with
  | pin _ => exact h
  | drop _ => exact (key?_unpin d).trans h
  | addLocation l => exact key?_addLocation h l
  | removeHost host => exact (key?_removeHost d host).trans h

theorem Gains.key?_eq {d' : Item} {l : Location} (hg : d.Gains l d') (h : d.key? = some key) :
    d'.key? = some key := by
  have added := key?_addLocation h l
  unfold key? at added ⊢
  rwa [hg.locations]

end Item

namespace World

variable {u v w w' : World}

/-- Each item that has a key keeps it. -/
def KeepsKeys (w w' : World) : Prop :=
  ∀ i key, (w.items.get i).key? = some key → (w'.items.get i).key? = some key

namespace KeepsKeys

theorem of_locations_eq (h : ∀ i, (w'.items.get i).locations = (w.items.get i).locations) :
    w.KeepsKeys w' := by
  intro i key hkey
  rwa [Item.key?, h, ← Item.key?]

theorem of_sameItems (h : w.SameItems w') : w.KeepsKeys w' :=
  of_locations_eq fun i => (h i).locations

theorem updateItem (item : ItemId) {f : Item → Item}
    (hf : ∀ d key, Item.key? d = some key → (f d).key? = some key) :
    w.KeepsKeys (w.updateItem item f) := by
  intro i key hkey
  rw [World.updateItem, Cells.update, Cells.get_set]
  split
  · rename_i hi
    rw [hi] at hkey
    exact hf _ key hkey
  · exact hkey

theorem of_gains {q : Request} {l : Location} (h : w.Gains q l w') : w.KeepsKeys w' := by
  intro i key hkey
  by_cases hi : q.targetItem = some i
  · exact (h.gained i hi).key?_eq hkey
  · exact (h.elsewhere i hi).key?_eq.trans hkey

end KeepsKeys

end World

theorem Resolution.Handles.keepsKeys {r : Resolution} {w w' : World} {phase : Phase}
    (h : r.Handles w w' phase) : w.KeepsKeys w' := by
  cases h with
  | passes items _ _ _ => exact .of_sameItems items
  | pins _ _ _ => exact .updateItem _ fun _ _ => id
  | unpins _ _ _ => exact .updateItem _ fun d _ hkey => (d.key?_unpin).trans hkey
  | takes _ _ _ _ => exact .of_gains (q := r.request) (World.gains_addLocation rfl _)
  | brings gains _ _ _ _ => exact .of_gains gains

/-- Whatever a thread does, keys are kept. -/
theorem Thread.Turn.keepsKeys {w w' : World} {t t' : Thread} (h : t.Turn w w' t') :
    w.KeepsKeys w' := by
  cases h with
  | calls _ => exact .of_sameItems (.refl w)
  | returns _ _ => exact .of_sameItems (.refl w)
  | advances hstep =>
    obtain ⟨frame, callers⟩ := t
    cases frame with
    | obtain r =>
      obtain ⟨r', hadvance, -⟩ := Frame.exists_of_lift_advance hstep
      exact (Resolution.handles_step hadvance).keepsKeys
    | send δ =>
      obtain ⟨δ', hadvance, -⟩ := Frame.exists_of_lift_advance hstep
      have deed := δ.canMake_step w
      rw [hadvance] at deed
      obtain ⟨phase, deed, -⟩ := deed
      exact .of_sameItems (.of_items_eq deed.items_eq)

namespace World

variable {w w' : World}

/-- What can happen to items. -/
inductive Changes (w : World) : World → Prop
  /-- Somebody does something with one of them. -/
  | acts (item : ItemId) (a : Item.Action) : Changes w (w.updateItem item fun d => d.perform a)
  /-- A call does the next thing, whichever call it is and however far it has got. -/
  | moves {w' : World} {t t' : Thread} (step : t.step w = .running w' t') : Changes w w'
  /-- Something happens to values, copies, files or nodes, or there is a new item. -/
  | elsewhere {w' : World}
      (same : ∀ i, (w'.items.get i).locations = (w.items.get i).locations) : Changes w w'

/-- **No change takes a key away**, nor puts another one before it. -/
theorem Changes.keepsKeys (h : w.Changes w') : w.KeepsKeys w' := by
  cases h with
  | acts item a => exact .updateItem item fun _ _ hkey => Item.key?_perform hkey a
  | moves hstep => exact (Thread.turn_of_running hstep).keepsKeys
  | elsewhere same => exact .of_locations_eq same

theorem keepsKeys_of_changes (h : Relation.ReflTransGen Changes w w') : w.KeepsKeys w' := by
  induction h with
  | refl => exact fun _ _ => id
  | tail _ change ih => exact fun i key hkey => change.keepsKeys i key (ih i key hkey)

/-- Adding a location leaves all else as it is. -/
theorem get_items_addLocation_eq (w : World) (item : Option ItemId) (l : Location) (i : ItemId) :
    (w.addLocation item l).items.get i =
      if item = some i ∧ (w.items.get i).knows l = false then
        { w.items.get i with locations := (w.items.get i).locations ++ [l] }
      else w.items.get i := by
  cases item with
  | none => rw [if_neg (by simp)]; rfl
  | some j =>
    rw [get_items_addLocation]
    by_cases hi : i = j
    · subst hi
      rw [if_pos rfl, Item.addLocation]
      cases hknows : (w.items.get i).knows l <;> simp
    · have ne : ¬ (some j = some i ∧ (w.items.get i).knows l = false) := by
        rintro ⟨hj, -⟩
        exact hi (Option.some.inj hj).symm
      rw [if_neg hi, if_neg ne]

end World

namespace Resolution

variable {w w' : World} {i : ItemId} {key : String}

/-- **A key in the persistent store is there to stay, and comes before all else.** Whatever happens,
the key of an item remains its key. Whoever asks for the item then, whatever for, is given the key
in three steps, and nothing can come between them: the key is noted at the target's item, if it is
not known there, and nothing else is done. -/
theorem takes_key_for_ever (hkey : (w.items.get i).key? = some key)
    (run : Relation.ReflTransGen World.Changes w w') :
    (w'.items.get i).key? = some key ∧
    ∀ (n : LocalNode) (q : Request), q.item = i →
      ∃ v r₁ r₂, (start n q).step w' = .advance v r₁ ∧
        (∀ u, r₁.step u = .advance u r₂) ∧ (∀ u, r₂.step u = .finish (.ok (.key key))) ∧
        v.files = w'.files ∧ v.copies = w'.copies ∧ v.directory = w'.directory ∧
        ∀ j, v.items.get j =
          if q.targetItem = some j ∧ (w'.items.get j).knows (.persistent key) = false then
            { w'.items.get j with
              locations := (w'.items.get j).locations ++ [.persistent key] }
          else w'.items.get j := by
  have kept : (w'.items.get i).key? = some key := World.keepsKeys_of_changes run i key hkey
  refine ⟨kept, fun n q hq => ?_⟩
  subst hq
  have same : w'.SameCopies (w'.addLocation q.targetItem (.persistent key)) :=
    .addLocation w' q.targetItem _
  refine ⟨_, _, ⟨n, q, none, .done (.ok (.key key))⟩, step_start_of_key kept,
    fun _ => rfl, fun _ => rfl, ?_, same.copies, same.directory,
    World.get_items_addLocation_eq w' q.targetItem _⟩
  unfold World.addLocation
  cases q.targetItem <;> rfl

/-- An item is kept in a file and in the persistent store. Its value is taken out of memory and the
host of the file is forgotten, as soon as the last pin is gone. -/
theorem takes_key_for_ever_pinned :
    let world : World :=
      { files := .empty
        items := (Cells.empty.push { Item.named "x" with
          locations := [.file [⟨1, ⟨"x"⟩⟩], .persistent "k"]
          value := some .unit }).push (.named "y")
        copies := .empty
        directory := .empty }
    let act (w : World) (a : Item.Action) : World := w.updateItem 0 fun d => d.perform a
    let later : World := [.pin 0, .removeHost 1, .addLocation (.persistent "l"), .drop 0].foldl act
      (world.updateItem 0 fun d => { d with value := none })
    (later.items.get 0).locations = [.persistent "k", .persistent "l"] ∧
    (later.items.get 0).key? = some "k" ∧
    ∃ v r₁ r₂, (start ⟨1, "n1", ⟨"n1"⟩, .fallThrough⟩
        ⟨0, none, .file [⟨1, ⟨"y"⟩⟩], some 1, none⟩).step later = .advance v r₁ ∧
      r₁.step v = .advance v r₂ ∧ r₂.step v = .finish (.ok (.key "k")) ∧
      (v.items.get 1).locations = [.persistent "k"] := by
  intro world act later
  have step (w : World) (a : Item.Action) : w.Changes (act w a) := .acts 0 a
  have taken : world.Changes (world.updateItem 0 fun d => { d with value := none }) := by
    refine .elsewhere fun i => ?_
    rw [World.updateItem, Cells.update, Cells.get_set]
    split
    · rename_i hi
      rw [hi]
    · rfl
  have run : Relation.ReflTransGen World.Changes world later :=
    .head taken (.head (step _ _) (.head (step _ _) (.head (step _ _) (.single (step _ _)))))
  have found : (world.items.get 0).key? = some "k" := by decide
  obtain ⟨kept, calls⟩ := takes_key_for_ever found run
  obtain ⟨v, r₁, r₂, takes, ends, finish, -, -, -, items⟩ := calls ⟨1, "n1", ⟨"n1"⟩, .fallThrough⟩
    ⟨0, none, .file [⟨1, ⟨"y"⟩⟩], some 1, none⟩ rfl
  refine ⟨by decide, kept, v, r₁, r₂, takes, ends v, finish v, ?_⟩
  rw [items]
  decide

end Resolution

end Wharf
