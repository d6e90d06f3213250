import Mathlib.Data.List.Induction
import Wharf.Description
import Wharf.Proofs.Text.Ascending

/-!
# Features form a set

Features are added one after the other and stored in ascending order, without repetition. So the
stored list is determined by the set of the features that were added (`eq_of_mem_iff`), and one
offer includes the features that another one wants just if these are a subset
(`Features.includes_iff`).

* `Draft` is a compute resource that is being described. A feature is searched for, and inserted at
  the place that the search reports; a match searches for every wanted feature.
* `Draft.description_built`: what has been described after any steps. A draft matches another one
  just as their descriptions do (`Draft.isCompatible_eq_accepts`).
* `Draft.features_are_sets` puts this together.
-/

namespace Wharf

variable {feature other : String} {features before after : List String}

/-! ## Insertion into ascending lists -/

@[simp]
theorem mem_insertAscending : other ∈ insertAscending feature features ↔
    other = feature ∨ other ∈ features := by
  induction features with
  | nil => simp [insertAscending]
  | cons first rest ih =>
    unfold insertAscending
    split
    · rename_i heq
      simp [heq]
    · split
      · simp
      · simp only [List.mem_cons, ih, or_left_comm]

theorem pairwise_insertAscending (h : features.Pairwise (· < ·)) (feature : String) :
    (insertAscending feature features).Pairwise (· < ·) := by
  induction features with
  | nil => simp [insertAscending]
  | cons first rest ih =>
    obtain ⟨hfirst, hrest⟩ := List.pairwise_cons.1 h
    unfold insertAscending
    split
    · exact h
    · rename_i hne
      split
      · rename_i hlt
        refine List.pairwise_cons.2 ⟨fun x hx => ?_, h⟩
        obtain rfl | hx := List.mem_cons.1 hx
        · exact hlt
        · exact String.lt_trans hlt (hfirst x hx)
      · rename_i hnot
        refine List.pairwise_cons.2 ⟨fun x hx => ?_, ih hrest⟩
        obtain rfl | hx := mem_insertAscending.1 hx
        · by_contra hge
          exact hne (String.le_antisymm (String.not_lt.1 hge) (String.not_lt.1 hnot))
        · exact hfirst x hx

/-- What is there is not inserted again. -/
theorem insertAscending_of_mem (h : features.Pairwise (· < ·)) (hmem : feature ∈ features) :
    insertAscending feature features = features := by
  induction features with
  | nil => cases hmem
  | cons first rest ih =>
    obtain ⟨hfirst, hrest⟩ := List.pairwise_cons.1 h
    obtain rfl | hmem := List.mem_cons.1 hmem
    · simp [insertAscending]
    · have hlt := hfirst feature hmem
      have hne : feature ≠ first := fun heq => String.lt_irrefl _ (heq ▸ hlt)
      rw [insertAscending, if_neg hne, if_neg (String.lt_asymm hlt), ih hrest hmem]

/-- A new feature is inserted behind the smaller ones and before the larger ones. -/
theorem insertAscending_append (hbefore : ∀ x ∈ before, x < feature)
    (hafter : ∀ x ∈ after, feature < x) :
    insertAscending feature (before ++ after) = before ++ feature :: after := by
  induction before with
  | nil =>
    cases after with
    | nil => rfl
    | cons first rest =>
      have hlt := hafter first List.mem_cons_self
      have hne : feature ≠ first := fun heq => String.lt_irrefl _ (heq ▸ hlt)
      rw [List.nil_append, insertAscending, if_neg hne, if_pos hlt, List.nil_append]
  | cons first rest ih =>
    have hlt := hbefore first List.mem_cons_self
    have hne : feature ≠ first := fun heq => String.lt_irrefl _ (heq ▸ hlt)
    rw [List.cons_append, insertAscending, if_neg hne, if_neg (String.lt_asymm hlt),
      ih fun x hx => hbefore x (List.mem_cons_of_mem _ hx), List.cons_append]

theorem insertIdx_append_length (before after : List String) (feature : String) :
    (before ++ after).insertIdx before.length feature = before ++ feature :: after := by
  induction before with
  | nil => simp
  | cons first rest ih => simp [ih]

/-- Ascending lists with the same members are equal. -/
theorem eq_of_mem_iff (hbefore : before.Pairwise (· < ·)) (hafter : after.Pairwise (· < ·))
    (h : ∀ x, x ∈ before ↔ x ∈ after) : before = after := by
  refine List.Perm.eq_of_pairwise (fun a b _ _ hab hba => absurd hba (String.lt_asymm hab))
    hbefore hafter ?_
  exact (List.perm_ext_iff_of_nodup (Text.nodup_of_ascending hbefore)
    (Text.nodup_of_ascending hafter)).2 h

namespace Features

theorem includes_iff {fs wanted : Features} :
    fs.includes wanted = true ↔ ∀ feature ∈ wanted.names, feature ∈ fs.names := by
  simp only [includes, has, List.all_eq_true, List.contains_iff_mem]

theorem ofList_concat (features : List String) (feature : String) :
    ofList (features ++ [feature]) = (ofList features).insert feature := by
  rw [ofList, List.foldl_append]
  rfl

@[simp]
theorem mem_names_ofList : other ∈ (ofList features).names ↔ other ∈ features := by
  induction features using List.reverseRecOn with
  | nil => rfl
  | append_singleton rest feature ih =>
    rw [ofList_concat, insert, mem_insertAscending, ih, List.mem_append, List.mem_singleton,
      or_comm]

/-- **The features of a list are stored in ascending order.** -/
theorem pairwise_names_ofList (features : List String) :
    (ofList features).names.Pairwise (· < ·) := by
  induction features using List.reverseRecOn with
  | nil => exact .nil
  | append_singleton rest feature ih =>
    rw [ofList_concat]
    exact pairwise_insertAscending ih feature

end Features

theorem ComputeDescription.accepts_iff {offer wanted : ComputeDescription} :
    offer.accepts wanted = true ↔
      (∀ architecture, wanted.architecture = some architecture →
        offer.architecture = some architecture) ∧
      ∀ feature ∈ wanted.features.names, feature ∈ offer.features.names := by
  rw [accepts, Bool.and_eq_true, Features.includes_iff]
  cases wanted.architecture <;> simp

/-! ## Describing a resource step by step -/

/-- A compute resource that is being described, with its features as they are stored. -/
@[ext]
structure Draft where
  consumables : Consumables
  architecture : Option String
  features : List String
  deriving DecidableEq

/-- What can be said of a resource. -/
inductive Draft.Step
  /-- It has this architecture, and none that was named before. -/
  | architecture (name : String)
  /-- It has this feature too. -/
  | feature (name : String)
  deriving DecidableEq

namespace Draft

/-- The architecture that a step names. -/
def Step.architecture? : Step → Option String
  | .architecture name => some name
  | .feature _ => none

/-- The feature that a step adds. -/
def Step.feature? : Step → Option String
  | .architecture _ => none
  | .feature name => some name

/-- Nothing is known but the consumables. -/
def new (consumables : Consumables) : Draft := ⟨consumables, none, []⟩

/-- Inserts a feature where the search says that it belongs. -/
def withFeature (d : Draft) (feature : String) : Draft :=
  match Text.search d.features feature with
  | .found _ => d
  | .missing index => { d with features := d.features.insertIdx index feature }

/-- Takes in what is said. -/
def take (d : Draft) : Step → Draft
  | .architecture name => { d with architecture := some name }
  | .feature name => d.withFeature name

/-- The resource after all that was said of it. -/
def built (consumables : Consumables) (steps : List Step) : Draft :=
  steps.foldl take (new consumables)

/-- Whether an offer has the architecture that is asked for, if one is, and every feature. -/
def isCompatible (offer wanted : Draft) : Bool :=
  (match wanted.architecture with
    | none => true
    | some architecture => offer.architecture == some architecture)
  && wanted.features.all fun feature => (Text.search offer.features feature).isFound

/-- What a draft describes. -/
def description (d : Draft) : ComputeDescription :=
  ⟨d.consumables, d.architecture, ⟨d.features⟩⟩

variable {consumables : Consumables} {steps : List Step} {d offer wanted : Draft}

/-- **The search reports where a feature belongs.** -/
theorem description_withFeature (h : d.features.Pairwise (· < ·)) (feature : String) :
    (d.withFeature feature).description =
      { d.description with features := d.description.features.insert feature } := by
  have hplace := Text.search_isOf h feature
  unfold withFeature
  cases hsearch : Text.search d.features feature with
  | found index =>
    rw [hsearch] at hplace
    simp only [description, Features.insert,
      insertAscending_of_mem h (List.mem_of_getElem? hplace)]
  | missing index =>
    rw [hsearch] at hplace
    obtain ⟨before, after, heq, rfl, hbefore, hafter⟩ := hplace
    simp only [description, Features.insert, heq, insertIdx_append_length,
      insertAscending_append hbefore hafter]

theorem built_concat (consumables : Consumables) (steps : List Step) (step : Step) :
    built consumables (steps ++ [step]) = (built consumables steps).take step := by
  rw [built, List.foldl_append]
  rfl

/-- **After any steps** the last architecture is described, and the set of all features. -/
theorem description_built (consumables : Consumables) (steps : List Step) :
    (built consumables steps).description =
      ⟨consumables, (steps.filterMap Step.architecture?).getLast?,
        .ofList (steps.filterMap Step.feature?)⟩ := by
  induction steps using List.reverseRecOn with
  | nil => rfl
  | append_singleton steps step ih =>
    rw [built_concat, List.filterMap_append, List.filterMap_append]
    cases step with
    | architecture name =>
      have htake : ((built consumables steps).take (.architecture name)).description =
          { (built consumables steps).description with architecture := some name } := rfl
      rw [htake, ih]
      simp [List.filterMap_cons, Step.architecture?, Step.feature?]
    | feature name =>
      have hascending : (built consumables steps).features.Pairwise (· < ·) := by
        have hfeatures := congrArg (fun d => d.features.names) ih
        simp only [description] at hfeatures
        rw [hfeatures]
        exact Features.pairwise_names_ofList _
      rw [take, description_withFeature hascending, ih]
      simp [List.filterMap_cons, Step.architecture?, Step.feature?, Features.ofList_concat]

theorem features_built (consumables : Consumables) (steps : List Step) :
    (built consumables steps).features = (Features.ofList (steps.filterMap Step.feature?)).names :=
  congrArg (fun d => d.features.names) (description_built consumables steps)

theorem mem_features_built :
    feature ∈ (built consumables steps).features ↔ Step.feature feature ∈ steps := by
  rw [features_built, Features.mem_names_ofList, List.mem_filterMap]
  constructor
  · rintro ⟨step, hstep, hfeature⟩
    cases step with
    | architecture name => cases hfeature
    | feature name =>
      cases hfeature
      exact hstep
  · exact fun h => ⟨_, h, rfl⟩

theorem pairwise_features_built (consumables : Consumables) (steps : List Step) :
    (built consumables steps).features.Pairwise (· < ·) := by
  rw [features_built]
  exact Features.pairwise_names_ofList _

/-- **To search for every wanted feature is to match descriptions**, if those on offer are in
order. -/
theorem isCompatible_eq_accepts (h : offer.features.Pairwise (· < ·)) (wanted : Draft) :
    offer.isCompatible wanted = offer.description.accepts wanted.description := by
  have hfound : ∀ feature, (Text.search offer.features feature).isFound =
      offer.features.contains feature := fun feature => by
    rw [Bool.eq_iff_iff, Text.isFound_search_iff h, List.contains_iff_mem]
  simp only [isCompatible, ComputeDescription.accepts, description, Features.includes, hfound]
  rfl

theorem isCompatible_built_iff {consumables' : Consumables} {steps' : List Step} :
    (built consumables steps).isCompatible (built consumables' steps') = true ↔
      (∀ architecture, (built consumables' steps').architecture = some architecture →
        (built consumables steps).architecture = some architecture) ∧
      ∀ feature, Step.feature feature ∈ steps' → Step.feature feature ∈ steps := by
  rw [isCompatible_eq_accepts (pairwise_features_built consumables steps),
    ComputeDescription.accepts_iff]
  refine and_congr_right fun _ => forall_congr' fun feature => ?_
  exact imp_congr mem_features_built mem_features_built

/-- Drafts are equal if the same was said of them, in any order and however often. -/
theorem built_eq_built_iff {consumables' : Consumables} {steps' : List Step} :
    built consumables steps = built consumables' steps' ↔ consumables = consumables' ∧
      (built consumables steps).architecture = (built consumables' steps').architecture ∧
      ∀ feature, Step.feature feature ∈ steps ↔ Step.feature feature ∈ steps' := by
  have hconsumables : ∀ consumables steps, (built consumables steps).consumables = consumables :=
    fun consumables steps => congrArg (·.consumables) (description_built consumables steps)
  constructor
  · intro h
    refine ⟨?_, by rw [h], fun feature => ?_⟩
    · rw [← hconsumables consumables steps, h, hconsumables]
    · have hmem : feature ∈ (built consumables steps).features ↔
          feature ∈ (built consumables' steps').features := by rw [h]
      exact mem_features_built.symm.trans (hmem.trans mem_features_built)
  · rintro ⟨rfl, harchitecture, hfeatures⟩
    have hlist : (built consumables steps).features = (built consumables steps').features :=
      eq_of_mem_iff (pairwise_features_built _ _) (pairwise_features_built _ _) fun feature => by
        rw [mem_features_built, mem_features_built, hfeatures]
    exact Draft.ext ((hconsumables _ _).trans (hconsumables _ _).symm) harchitecture hlist

/-- **Features are sets, and to match is to include.** -/
theorem features_are_sets (consumables consumables' : Consumables) (steps steps' : List Step) :
    let offer := built consumables steps
    let wanted := built consumables' steps'
    offer.features.Pairwise (fun f g => Text.bytes f < Text.bytes g) ∧
      (∀ feature, feature ∈ offer.features ↔ Step.feature feature ∈ steps) ∧
      (∀ feature place, Text.search offer.features feature = place ↔
        place.IsOf feature offer.features) ∧
      (offer = wanted ↔ consumables = consumables' ∧ offer.architecture = wanted.architecture ∧
        ∀ feature, Step.feature feature ∈ steps ↔ Step.feature feature ∈ steps') ∧
      (offer.isCompatible wanted = true ↔
        (∀ architecture, wanted.architecture = some architecture →
          offer.architecture = some architecture) ∧
        ∀ feature, Step.feature feature ∈ steps' → Step.feature feature ∈ steps) ∧
      offer.isCompatible offer = true ∧
      (∀ consumables'' steps'', offer.isCompatible wanted = true →
        wanted.isCompatible (built consumables'' steps'') = true →
        offer.isCompatible (built consumables'' steps'') = true) ∧
      offer.description = ⟨consumables, (steps.filterMap Step.architecture?).getLast?,
        .ofList (steps.filterMap Step.feature?)⟩ ∧
      offer.isCompatible wanted = offer.description.accepts wanted.description := by
  intro offer wanted
  have hascending := pairwise_features_built consumables steps
  refine ⟨hascending.imp fun hlt => Text.bytes_lt_iff.2 hlt, fun _ => mem_features_built,
    fun _ _ => Text.search_eq_iff hascending, built_eq_built_iff, isCompatible_built_iff, ?_,
    fun consumables'' steps'' h h' => ?_, description_built consumables steps,
    isCompatible_eq_accepts hascending wanted⟩
  · exact isCompatible_built_iff.2 ⟨fun _ h => h, fun _ h => h⟩
  · obtain ⟨harchitecture, hfeatures⟩ := isCompatible_built_iff.1 h
    obtain ⟨harchitecture', hfeatures'⟩ := isCompatible_built_iff.1 h'
    exact isCompatible_built_iff.2 ⟨fun architecture hwanted =>
      harchitecture architecture (harchitecture' architecture hwanted),
      fun feature hwanted => hfeatures feature (hfeatures' feature hwanted)⟩

/-- Features that were named out of order and twice. What offers them and a third one matches, but
not the other way round. -/
theorem features_are_sets_out_of_order :
    let large : Consumables := .ofAmounts [(0, .saturating 8)]
    let small : Consumables := .ofAmounts [(0, .saturating 1)]
    let steps : List Step := [.feature "infiniband", .architecture "arm", .feature "avx512",
      .feature "infiniband", .architecture "x86", .feature "é"]
    let steps' : List Step := [.feature "avx512", .feature "infiniband", .architecture "x86"]
    let other : List Step := [.architecture "x86", .feature "infiniband", .feature "avx512",
      .feature "infiniband"]
    let offer := built large steps
    let wanted := built small steps'
    let plain := built small [.feature "avx512"]
    offer.features = ["avx512", "infiniband", "é"] ∧
      Text.search offer.features "fpga" = .missing 1 ∧ wanted = built small other ∧
      offer.isCompatible wanted = true ∧ wanted.isCompatible plain = true ∧
      offer.isCompatible plain = true ∧ ¬ wanted.isCompatible offer = true := by
  intro large small steps steps' other offer wanted plain
  have harchitecture : offer.architecture = some "x86" :=
    congrArg (·.architecture) (description_built large steps)
  have harchitecture' : wanted.architecture = some "x86" :=
    congrArg (·.architecture) (description_built small steps')
  have hother : (built small other).architecture = some "x86" :=
    congrArg (·.architecture) (description_built small other)
  have hplain : plain.architecture = none :=
    congrArg (·.architecture) (description_built small [.feature "avx512"])
  have hfeatures : offer.features = ["avx512", "infiniband", "é"] :=
    (features_built large steps).trans (by decide)
  obtain ⟨-, -, hsearch, -, hmatch, -, htrans, -⟩ := features_are_sets large small steps steps'
  obtain ⟨-, -, -, hequal, -⟩ := features_are_sets small small steps' other
  obtain ⟨-, -, -, -, hmatch', -⟩ := features_are_sets small small steps' [.feature "avx512"]
  obtain ⟨-, -, -, -, hback, -⟩ := features_are_sets small large steps' steps
  have matched : offer.isCompatible wanted = true := by
    refine hmatch.2 ⟨fun a ha => ?_, fun feature hmem => ?_⟩
    · rw [harchitecture, ← harchitecture', ha]
    · have : feature = "avx512" ∨ feature = "infiniband" := by simpa [steps'] using hmem
      obtain rfl | rfl := this <;> decide
  have matched' : wanted.isCompatible plain = true := by
    refine hmatch'.2 ⟨fun a ha => ?_, fun feature hmem => ?_⟩
    · rw [hplain] at ha
      cases ha
    · obtain rfl : feature = "avx512" := by simpa using hmem
      decide
  refine ⟨hfeatures, (hsearch "fpga" (.missing 1)).2 ?_, hequal.2 ⟨rfl, ?_, fun feature => ?_⟩,
    matched, matched', htrans small _ matched matched', fun h => ?_⟩
  · exact ⟨["avx512"], ["infiniband", "é"], hfeatures, rfl, by decide, by decide⟩
  · rw [harchitecture', hother]
  · grind
  · exact absurd ((hback.1 h).2 "é" (by decide)) (by decide)

end Draft

end Wharf
