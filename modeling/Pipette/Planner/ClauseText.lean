import Pipette.Planner.OneBody

/-! The order and the repetition of the entries of a variant's clauses do not matter, and a body
requires what its variant does. -/
namespace Pipette.Planner

open Sorting

def SameSet {α : Type} (l l' : List α) : Prop := ∀ x, x ∈ l ↔ x ∈ l'

namespace SameSet

variable {α β : Type} {l l' : List α}

theorem refl (l : List α) : SameSet l l := fun _ => .rfl

theorem map (h : SameSet l l') (f : α → β) : SameSet (l.map f) (l'.map f) := by
  intro y
  simp only [List.mem_map, h _]

theorem append (h : SameSet l l') (rest : List α) : SameSet (l ++ rest) (l' ++ rest) := by
  intro x
  simp only [List.mem_append, h x]

theorem any (h : SameSet l l') (p : α → Bool) : l.any p = l'.any p := by
  rw [Bool.eq_iff_iff]
  simp only [List.any_eq_true, h _]

theorem all (h : SameSet l l') (p : α → Bool) : l.all p = l'.all p := by
  rw [Bool.eq_iff_iff]
  simp only [List.all_eq_true, h _]

theorem isEmpty (h : SameSet l l') : l.isEmpty = l'.isEmpty := by
  rw [Bool.eq_iff_iff]
  simp only [List.isEmpty_iff, List.eq_nil_iff_forall_not_mem, h _]

theorem decide_mem [DecidableEq α] (h : SameSet l l') (x : α) : decide (x ∈ l) = decide (x ∈ l') :=
  decide_eq_decide.mpr (h x)

end SameSet

def SameGroups {α : Type} (gs gs' : List (List α)) : Prop :=
  (∀ g ∈ gs, ∃ g' ∈ gs', SameSet g g') ∧ ∀ g' ∈ gs', ∃ g ∈ gs, SameSet g g'

theorem SameGroups.any {α : Type} {gs gs' : List (List α)} (h : SameGroups gs gs')
    {p : List α → Bool} (hp : ∀ g g', SameSet g g' → p g = p g') : gs.any p = gs'.any p := by
  rw [Bool.eq_iff_iff, List.any_eq_true, List.any_eq_true]
  constructor
  · rintro ⟨g, hg, hpg⟩
    obtain ⟨g', hg', hsame⟩ := h.1 g hg
    exact ⟨g', hg', hp g g' hsame ▸ hpg⟩
  · rintro ⟨g', hg', hpg⟩
    obtain ⟨g, hg, hsame⟩ := h.2 g' hg'
    exact ⟨g, hg, hp g g' hsame ▸ hpg⟩

/-- The variants differ only in the order and the repetition of the entries of their clauses. -/
structure SameClauses (v w : SchedulerVariant) : Prop where
  rest : v = { w with
    requires := v.requires, clients := v.clients, excludeClients := v.excludeClients
    excludes := v.excludes, notAllOf := v.notAllOf }
  requires : SameSet v.requires w.requires
  clients : SameSet v.clients w.clients
  excludeClients : SameSet v.excludeClients w.excludeClients
  excludes : SameSet v.excludes w.excludes
  notAllOf : SameGroups v.notAllOf w.notAllOf

theorem SameClauses.eligibility {v w : SchedulerVariant} (h : SameClauses v w) :
    Eligibility.new v = Eligibility.new w := by
  have hgroups : sortDedup (v.notAllOf.map normalizedFlags) =
      sortDedup (w.notAllOf.map normalizedFlags) := by
    refine sortDedup_congr fun g => ?_
    simp only [List.mem_map]
    constructor
    · rintro ⟨g, hg, rfl⟩
      obtain ⟨g', hg', hsame⟩ := h.notAllOf.1 g hg
      exact ⟨g', hg', (sortDedup_congr hsame).symm⟩
    · rintro ⟨g', hg', rfl⟩
      obtain ⟨g, hg, hsame⟩ := h.notAllOf.2 g' hg'
      exact ⟨g, hg, sortDedup_congr hsame⟩
  have hversions : v.clientVersions = w.clientVersions := by rw [h.rest]
  unfold Eligibility.new normalizedFlags normalizedIds
  rw [sortDedup_congr h.requires, sortDedup_congr h.clients, sortDedup_congr h.excludeClients,
    sortDedup_congr h.excludes, hversions]
  exact congrArg _ hgroups

def OneEach (flags : List String) : Prop :=
  ∀ f ∈ flags, ∀ g ∈ flags, ∀ ns, exclusiveNamespaceOf f = some ns →
    exclusiveNamespaceOf g = some ns → f = g

theorem firstConflict_eq_none (seen : List (String × String)) (flags : List String) :
    firstConflict seen flags = none ↔
      (∀ f ∈ flags, ∀ ns p, exclusiveNamespaceOf f = some ns → seen.lookup ns = some p → p = f) ∧
        OneEach flags := by
  induction flags generalizing seen with
  | nil => simp [firstConflict, OneEach]
  | cons flag rest ih =>
    rw [firstConflict]
    cases hns : exclusiveNamespaceOf flag with
    | none =>
      dsimp only
      rw [ih]
      simp only [OneEach, List.mem_cons]
      grind
    | some ns =>
      dsimp only
      cases hseen : seen.lookup ns with
      | none =>
        dsimp only
        rw [ih]
        simp only [OneEach, List.mem_cons, List.lookup_cons]
        grind
      | some previous =>
        dsimp only
        split
        · grind
        · rw [ih]
          simp only [OneEach, List.mem_cons, List.lookup_cons]
          grind

theorem OneEach.congr {flags flags' : List String} (h : SameSet flags flags') :
    OneEach flags ↔ OneEach flags' := by
  simp only [OneEach, h _]

theorem firstConflict_isSome_congr {flags flags' : List String} (h : SameSet flags flags') :
    (firstConflict [] flags).isSome = (firstConflict [] flags').isSome := by
  have hnone : firstConflict [] flags = none ↔ firstConflict [] flags' = none := by
    simp [firstConflict_eq_none, OneEach.congr h]
  rw [Bool.eq_iff_iff, Option.isSome_iff_ne_none, Option.isSome_iff_ne_none, ne_eq, ne_eq, hnone]

section Resolve

variable {committed committed' flat flat' group : List CapabilityFlag}
  {groups : List (List CapabilityFlag)} {policy : Policy}

theorem checkNoExclusiveConflict_eq_ok :
    checkNoExclusiveConflict flat = .ok () ↔ OneEach (flat.map (·.raw)) := by
  have hnone := firstConflict_eq_none [] (flat.map (·.raw))
  simp only [List.lookup_nil, reduceCtorEq, false_implies, implies_true, true_and] at hnone
  rw [← hnone]
  unfold checkNoExclusiveConflict
  split <;> simp_all

theorem homogeneous_exclusive {ns : String} (h : homogeneousExclusiveNamespace group = some ns) :
    ns ∈ exclusiveNamespaces := by
  obtain ⟨first, -, h⟩ := Option.bind_eq_some_iff.mp h
  obtain ⟨ns', hns, h⟩ := Option.bind_eq_some_iff.mp h
  obtain ⟨-, h⟩ := Option.ite_none_right_eq_some.mp h
  cases h
  simpa using (Option.filter_eq_some_iff.mp hns).2

theorem checkPin_eq_ok (hone : OneEach (flat.map (·.raw))) :
    checkPin flat group = .ok () ↔ ∀ ns, homogeneousExclusiveNamespace group = some ns →
      ∀ f ∈ flat, namespaceOf f.raw = some ns → f ∈ group := by
  unfold checkPin
  cases hns : homogeneousExclusiveNamespace group with
  | none => simp
  | some ns =>
    have hexclusive : ∀ f : CapabilityFlag, namespaceOf f.raw = some ns →
        exclusiveNamespaceOf f.raw = some ns := by
      intro f hf
      simp [exclusiveNamespaceOf, hf, homogeneous_exclusive hns]
    dsimp only
    cases hpin : flat.find? fun f => namespaceOf f.raw = some ns with
    | none =>
      have hno := List.find?_eq_none.mp hpin
      simp only [decide_eq_true_eq] at hno
      simp only [true_iff]
      rintro ns' ⟨⟩ f hf hfns
      exact absurd hfns (hno f hf)
    | some pin =>
      have hpinNs : namespaceOf pin.raw = some ns := by simpa using List.find?_some hpin
      have hpinMem := List.mem_of_find?_eq_some hpin
      have hall : ∀ f ∈ flat, namespaceOf f.raw = some ns → f = pin := by
        intro f hf hfns
        exact CapabilityFlag.ext (hone f.raw (List.mem_map_of_mem hf) pin.raw
          (List.mem_map_of_mem hpinMem) ns (hexclusive f hfns) (hexclusive pin hpinNs))
      dsimp only
      split
      · next hin =>
        simp only [true_iff]
        rintro ns' ⟨⟩ f hf hfns
        rw [hall f hf hfns]
        exact hin
      · next hout =>
        simp only [reduceCtorEq, false_iff]
        exact fun h => hout (h ns rfl pin hpinMem hpinNs)

theorem checkPinsWithinFamilies_eq_ok (hone : OneEach (flat.map (·.raw))) :
    checkPinsWithinFamilies flat groups = .ok () ↔ ∀ group ∈ groups, ∀ ns,
      homogeneousExclusiveNamespace group = some ns →
      ∀ f ∈ flat, namespaceOf f.raw = some ns → f ∈ group := by
  unfold checkPinsWithinFamilies
  induction groups with
  | nil => simp [pure, Except.pure]
  | cons group rest ih =>
    rw [List.forall_mem_cons, ← ih, ← checkPin_eq_ok hone]
    change (checkPin flat group >>= fun _ => rest.forM (checkPin flat)) = .ok () ↔ _
    cases checkPin flat group with
    | error e => simp [bind, Except.bind]
    | ok u => simp [bind, Except.bind]

theorem checkOneOf_congr (h : SameSet committed committed') (oneOf : List String) :
    checkOneOf committed oneOf = checkOneOf committed' oneOf := by
  unfold checkOneOf
  simp only [h.any]

theorem injection_congr (h : SameSet committed committed') :
    injection committed policy = injection committed' policy := by
  unfold injection
  simp only [fun rest => (h.append rest).any]

theorem resolveFromPolicy_congr (h : SameSet committed committed') :
    (resolveFromPolicy committed policy).toOption =
      (resolveFromPolicy committed' policy).toOption := by
  unfold resolveFromPolicy
  rw [checkOneOf_congr h, injection_congr h]
  cases checkOneOf committed' policy.oneOf with
  | error e => rfl
  | ok u =>
    cases injection committed' policy with
    | error e => rfl
    | ok injected =>
      obtain ⟨injected, groups⟩ := injected
      have hflat := h.append injected
      have hone := OneEach.congr (hflat.map CapabilityFlag.raw)
      change Except.toOption (checkNoExclusiveConflict (committed ++ injected) >>= fun _ => _) =
        Except.toOption (checkNoExclusiveConflict (committed' ++ injected) >>= fun _ => _)
      refine Result.toOption_guard_congr ?_ fun hfree => Result.toOption_guard_congr ?_ fun _ => ?_
      · rw [checkNoExclusiveConflict_eq_ok, checkNoExclusiveConflict_eq_ok, hone]
      · have hfree := checkNoExclusiveConflict_eq_ok.mp hfree
        rw [checkPinsWithinFamilies_eq_ok hfree, checkPinsWithinFamilies_eq_ok (hone.mp hfree)]
        simp only [hflat _]
      · unfold normalized
        rw [sortDedup_congr hflat]

theorem resolveEffectiveRequirement_congr (h : SameSet committed committed') (runtime : Runtime) :
    (resolveEffectiveRequirement committed runtime).toOption =
      (resolveEffectiveRequirement committed' runtime).toOption := by
  unfold resolveEffectiveRequirement
  rw [h.isEmpty]
  split
  · rfl
  · exact resolveFromPolicy_congr h

end Resolve

section Check

variable {v w : SchedulerVariant} {index : Nat} {live : Bool} {runtime : Runtime}
  {effective : EffectiveRequirement}

theorem isSome_vacuousExclusionGroup (groups : List (List CapabilityFlag)) :
    (vacuousExclusionGroup groups).isSome =
      groups.any fun group => (firstConflict [] (group.map (·.raw))).isSome := by
  unfold vacuousExclusionGroup
  rw [List.isSome_findSome?]
  simp

theorem isSome_deadCapabilityBranch (excludes : List CapabilityFlag)
    (notAllOf : List (List CapabilityFlag)) :
    (deadCapabilityBranch effective excludes notAllOf).isSome =
      (effective.requires.any (fun f => decide (f ∈ excludes)) ||
        notAllOf.any (fun group => group.all (fun f => decide (f ∈ effective.requires))) ||
        effective.anyOf.any fun group => group.all fun f => decide (f ∈ excludes)) := by
  unfold deadCapabilityBranch
  simp only [← List.isSome_find?]
  split
  · next h => simp [h]
  · next h =>
    split
    · next h' => simp [h, h']
    · next h' => simp [h, h']

theorem isOk_checkExclusions (fault : CapabilityRuleError → VariantRuleError) :
    (checkExclusions fault v live effective).isOk =
      (!(vacuousExclusionGroup v.notAllOf).isSome &&
        (live || !effective.requires.isEmpty && !(deadCapabilityBranch ⟨effective.requires,
          withVersions effective.anyOf ((Eligibility.new v).clientVersions.map unmarked)⟩
          v.excludes v.notAllOf).isSome)) := by
  unfold checkExclusions
  split
  · next h =>
    rw [h]
    rfl
  · next h =>
    rw [h]
    dsimp only
    cases effective.requires.isEmpty with
    | true => cases live <;> rfl
    | false =>
      rw [if_neg (by decide)]
      split
      · next h =>
        rw [h]
        cases live <;> rfl
      · next h =>
        rw [h]
        cases live <;> rfl

theorem SameClauses.isOk_checkVariantRuntime (h : SameClauses v w) :
    (checkVariantRuntime index v live runtime).isOk =
      (checkVariantRuntime index w live runtime).isOk := by
  have hvacuous : (vacuousExclusionGroup v.notAllOf).isSome =
      (vacuousExclusionGroup w.notAllOf).isSome := by
    rw [isSome_vacuousExclusionGroup, isSome_vacuousExclusionGroup]
    exact h.notAllOf.any fun g g' hsame => firstConflict_isSome_congr (hsame.map _)
  have hdead : ∀ effective : EffectiveRequirement,
      (deadCapabilityBranch effective v.excludes v.notAllOf).isSome =
        (deadCapabilityBranch effective w.excludes w.notAllOf).isSome := by
    intro effective
    rw [isSome_deadCapabilityBranch, isSome_deadCapabilityBranch,
      h.notAllOf.any fun g g' hsame => hsame.all _]
    simp only [h.excludes.decide_mem]
  have hresolve := resolveEffectiveRequirement_congr (h.requires.map unmarked) runtime
  unfold checkVariantRuntime
  cases hv : resolveEffectiveRequirement (v.requires.map unmarked) runtime with
  | error e =>
    cases hw : resolveEffectiveRequirement (w.requires.map unmarked) runtime with
    | error e' => rfl
    | ok effective =>
      rw [hv, hw] at hresolve
      cases hresolve
  | ok effective =>
    cases hw : resolveEffectiveRequirement (w.requires.map unmarked) runtime with
    | error e' =>
      rw [hv, hw] at hresolve
      cases hresolve
    | ok effective' =>
      rw [hv, hw] at hresolve
      cases hresolve
      change (checkExclusions _ v live effective).isOk = (checkExclusions _ w live effective).isOk
      rw [isOk_checkExclusions, isOk_checkExclusions, h.eligibility, hvacuous, hdead]

theorem SameClauses.isOk_checkVariant (h : SameClauses v w) :
    (checkVariant index v).isOk = (checkVariant index w).isOk := by
  have hbind : ∀ (x : Except VariantRuleError (List (List PlanWarning)))
      (f : List (List PlanWarning) → List PlanWarning), (x >>= fun a => pure (f a)).isOk = x.isOk := by
    intro x f
    cases x <;> rfl
  have hlive : rosterIsLive v.clients v.excludeClients = rosterIsLive w.clients w.excludeClients := by
    unfold rosterIsLive
    rw [h.clients.any]
    simp only [h.excludeClients _]
  have hruntimes : v.runtimes = w.runtimes := by rw [h.rest]
  unfold checkVariant
  rw [hbind, hbind, Result.isOk_mapM, Result.isOk_mapM, hlive, hruntimes]
  simp only [h.isOk_checkVariantRuntime]

end Check

structure SamePlan (plan plan' : SchedulerPlan) : Prop where
  rest : plan = { plan' with variants := plan.variants }
  variants : List.Forall₂ SameClauses plan.variants plan'.variants

theorem SameClauses.symm {v w : SchedulerVariant} (h : SameClauses v w) : SameClauses w v where
  rest := by
    obtain ⟨hrest, -⟩ := h
    rw [hrest]
  requires := fun f => (h.requires f).symm
  clients := fun f => (h.clients f).symm
  excludeClients := fun f => (h.excludeClients f).symm
  excludes := fun f => (h.excludes f).symm
  notAllOf := by
    have hsymm : ∀ {g g' : List CapabilityFlag}, SameSet g g' → SameSet g' g :=
      fun hg f => (hg f).symm
    refine ⟨fun g hg => ?_, fun g hg => ?_⟩
    · obtain ⟨g', hg', hsame⟩ := h.notAllOf.2 g hg
      exact ⟨g', hg', hsymm hsame⟩
    · obtain ⟨g', hg', hsame⟩ := h.notAllOf.1 g hg
      exact ⟨g', hg', hsymm hsame⟩

theorem SamePlan.symm {plan plan' : SchedulerPlan} (h : SamePlan plan plan') :
    SamePlan plan' plan where
  rest := by
    obtain ⟨hrest, -⟩ := h
    rw [hrest]
  variants := List.Forall₂.flip (h.variants.imp fun _ _ => SameClauses.symm)

section Plans

variable {v w : SchedulerVariant} {plan plan' : SchedulerPlan}

theorem map_zipIdx_congr {α : Type} {f g : SchedulerVariant × Nat → α}
    {vs ws : List SchedulerVariant} (h : List.Forall₂ SameClauses vs ws)
    (hfg : ∀ v w i, SameClauses v w → f (v, i) = g (w, i)) (k : Nat) :
    (vs.zipIdx k).map f = (ws.zipIdx k).map g := by
  induction h generalizing k with
  | nil => rfl
  | cons hvw _ ih =>
    rw [List.zipIdx_cons, List.zipIdx_cons, List.map_cons, List.map_cons, hfg _ _ k hvw, ih]

theorem SamePlan.isOk_validate (h : SamePlan plan plan') :
    (validateCapabilityRules plan).isOk = (validateCapabilityRules plan').isOk := by
  have hmap : ∀ x : Except VariantRuleError (List (List PlanWarning)),
      (x.map List.flatten).isOk = x.isOk := by
    intro x
    cases x <;> rfl
  have hall := congrArg (List.all · id) (map_zipIdx_congr (f := fun x => (checkVariant x.2 x.1).isOk)
    (g := fun x => (checkVariant x.2 x.1).isOk) h.variants
    (fun v w i hvw => hvw.isOk_checkVariant) 0)
  unfold validateCapabilityRules
  rw [hmap, hmap, Result.isOk_mapM, Result.isOk_mapM]
  simpa [List.all_map] using hall

theorem SameClauses.variantCells (h : SameClauses v w) (hplan : SamePlan plan plan') (index : Nat) :
    plan.variantCells index v = plan'.variantCells index w := by
  have hcell : ∀ benchmark model runtime,
      plan.cell v benchmark model runtime = plan'.cell w benchmark model runtime := by
    intro benchmark model runtime
    have htypes : plan.benchmarkTypes = plan'.benchmarkTypes := by rw [hplan.rest]
    have hruntimeFlags : v.runtimeFlags = w.runtimeFlags := by rw [h.rest]
    have hmodelFlags : v.modelFlags = w.modelFlags := by rw [h.rest]
    have hbenchmarkFlags : v.benchmarkFlags = w.benchmarkFlags := by rw [h.rest]
    simp only [SchedulerPlan.cell, htypes, hruntimeFlags, hmodelFlags, hbenchmarkFlags,
      h.eligibility]
  have hmodels : v.models = w.models := by rw [h.rest]
  have hruntimes : v.runtimes = w.runtimes := by rw [h.rest]
  have hbenchmarks : plan.benchmarksForVariant v = plan'.benchmarksForVariant w := by
    have hown : v.benchmarks = w.benchmarks := by rw [h.rest]
    have hroot : plan.benchmarks = plan'.benchmarks := by rw [hplan.rest]
    rw [SchedulerPlan.benchmarksForVariant, SchedulerPlan.benchmarksForVariant, hown, hroot]
  unfold SchedulerPlan.variantCells
  rw [hmodels, hruntimes, hbenchmarks]
  simp only [hcell]

theorem SamePlan.cells (h : SamePlan plan plan') : plan.cells = plan'.cells := by
  have hmap := map_zipIdx_congr (f := fun x => plan.variantCells x.2 x.1)
    (g := fun x => plan'.variantCells x.2 x.1) h.variants (fun v w i hvw => hvw.variantCells h i) 0
  have hmapM : ∀ (p : SchedulerPlan) (l : List (SchedulerVariant × Nat)),
      l.mapM (fun x => p.variantCells x.2 x.1) =
        (l.map fun x => p.variantCells x.2 x.1).mapM id := by
    intro p l
    rw [List.mapM_map]
    rfl
  change List.flatten <$> plan.variants.zipIdx.mapM (fun x => plan.variantCells x.2 x.1) =
    List.flatten <$> plan'.variants.zipIdx.mapM (fun x => plan'.variantCells x.2 x.1)
  rw [hmapM, hmapM, hmap]

theorem SamePlan.expand_ok {Text : Type} [LinearOrder Text] {ser : Serializer Text}
    {visit visit' : List SchedulerCell → List SchedulerCell} {expansion : Expansion}
    (h : SamePlan plan plan') (hvisit : ∀ l, (visit l).Perm l) (hvisit' : ∀ l, (visit' l).Perm l)
    (hok : expand ser visit plan = .ok expansion) :
    ∃ expansion', expand ser visit' plan' = .ok expansion' ∧
      expansion'.bodies = expansion.bodies := by
  obtain ⟨cells, rendered, hwarnings, hcells, hrendered, hbodies⟩ := expand_eq_ok hok
  obtain ⟨warnings, hwarnings'⟩ : ∃ warnings, validateCapabilityRules plan' = .ok warnings := by
    have hvalid := h.isOk_validate
    rw [hwarnings] at hvalid
    cases hv : validateCapabilityRules plan' with
    | error e =>
      rw [hv] at hvalid
      cases hvalid
    | ok warnings => exact ⟨warnings, rfl⟩
  have hexpires : plan.expiresAt = plan'.expiresAt := by rw [h.rest]
  have hmerge : plan.mergeDuplicates = plan'.mergeDuplicates := by rw [h.rest]
  have hrender : renderCell ser plan = renderCell ser plan' := by
    unfold renderCell
    rw [hexpires, hmerge]
  rw [hrender] at hrendered
  obtain ⟨rendered', hrendered', hperm⟩ :=
    Result.mapM_perm ((hvisit cells.dedup).trans (hvisit' cells.dedup).symm) hrendered
  refine ⟨_, expand_of hwarnings' (h.cells ▸ hcells) hrendered', ?_⟩
  rw [hbodies, bodies_of_perm (fun r hr => render_of_mem hrendered hr) hperm]

end Plans

section Requires

variable {plan : SchedulerPlan} {variant : SchedulerVariant} {index : Nat} {cell : SchedulerCell}
  {cells : List SchedulerCell} {body : JobBody}

theorem resolveEffectiveRequirement_contains {committed : List CapabilityFlag} {runtime : Runtime}
    {effective : EffectiveRequirement}
    (h : resolveEffectiveRequirement committed runtime = .ok effective) {f : CapabilityFlag}
    (hf : f ∈ committed) : f ∈ effective.requires := by
  unfold resolveEffectiveRequirement at h
  split at h
  · next hempty =>
    rw [List.isEmpty_iff.mp hempty] at hf
    cases hf
  · obtain ⟨-, -, h⟩ := Result.bind_eq_ok h
    obtain ⟨⟨injected, groups⟩, -, h⟩ := Result.bind_eq_ok h
    obtain ⟨-, -, h⟩ := Result.bind_eq_ok h
    obtain ⟨-, -, h⟩ := Result.bind_eq_ok h
    cases h
    exact mem_sortDedup.mpr (List.mem_append_left _ hf)

theorem eligibility_of_mem (h : plan.variantCells index variant = .ok cells) (hcell : cell ∈ cells) :
    cell.eligibility = .new variant := by
  obtain ⟨pairs, -, h⟩ := Result.bind_eq_ok h
  obtain ⟨benchmarks, -, h⟩ := Result.bind_eq_ok h
  cases h
  obtain ⟨benchmark, -, hcell⟩ := List.mem_flatMap.mp hcell
  obtain ⟨pair, -, rfl⟩ := List.mem_map.mp hcell
  rfl

theorem requires_of_cell (h : plan.variantCells index variant = .ok cells) (hcell : cell ∈ cells)
    (hbody : JobBody.fromCell cell plan.expiresAt plan.mergeDuplicates = .ok body) :
    (∀ f ∈ variant.requires, f ∈ body.requires) ∧
      (variant.requires = [] → body.requires = [] ∧
        body.anyOf = withVersions [] (Eligibility.new variant).clientVersions) := by
  obtain ⟨effective, heffective, hbody⟩ := Result.bind_eq_ok hbody
  have heffective := Result.mapError_eq_ok heffective
  rw [eligibility_of_mem h hcell] at heffective
  cases hbody
  refine ⟨fun f hf => resolveEffectiveRequirement_contains heffective (mem_sortDedup.mpr hf),
    fun hnone => ?_⟩
  have hempty : (Eligibility.new variant).requires = [] := by
    simp [Eligibility.new, normalizedFlags, hnone, sortDedup, sortOn, dedupOn]
  rw [hempty] at heffective
  cases heffective
  rw [eligibility_of_mem h hcell]
  exact ⟨rfl, rfl⟩

theorem JobBody.requires_of_toJson {a b : JobBody}
    (h : a.withoutAuthToken.toJson = b.withoutAuthToken.toJson) :
    a.requires = b.requires ∧ a.anyOf = b.anyOf := by
  have hraw : Function.Injective CapabilityFlag.raw := fun _ _ => CapabilityFlag.ext
  have hflags : Function.Injective flagsJson := fun l l' hl =>
    hraw.list_map (Json.strArray_injective hl)
  have hgroups : Function.Injective groupsJson := fun l l' hl =>
    List.map_injective_iff.mpr hflags (Json.arr.inj hl)
  obtain ⟨hclauses, -⟩ := List.append_inj' (Json.obj.inj h) rfl
  have hclauses : a.clauseFields = b.clauseFields := hclauses
  simp only [JobBody.clauseFields, List.cons_append, List.cons.injEq, Prod.mk.injEq, true_and]
    at hclauses
  exact ⟨hflags hclauses.1, hgroups hclauses.2.1⟩

theorem cells_of_variant (h : plan.cells = .ok cells) {x : SchedulerVariant × Nat}
    (hx : x ∈ plan.variants.zipIdx) :
    ∃ own, plan.variantCells x.2 x.1 = .ok own ∧ ∀ cell ∈ own, cell ∈ cells := by
  obtain ⟨lists, hlists, rfl⟩ := Result.map_eq_ok h
  obtain ⟨own, hown, hcells⟩ := Result.mapM_mem hlists hx
  exact ⟨own, hcells, fun cell hcell => List.mem_flatten.mpr ⟨own, hown, hcell⟩⟩

end Requires

section Main

variable {Text : Type} [LinearOrder Text] (ser : Serializer Text)

/-- Two plans whose variants differ only in the order and the repetition of the entries of their
clauses are accepted together and have the same bodies. In an accepted plan, the body that carries a
cell of a variant requires what the variant does, and the bodies of a variant that requires nothing
have no requirement but its versions. -/
theorem clause_text_does_not_matter :
    (∀ plan plan' visit visit', SamePlan plan plan' → (∀ l, (visit l).Perm l) →
      (∀ l, (visit' l).Perm l) →
      (expand ser visit plan).toOption.map Expansion.bodies =
        (expand ser visit' plan').toOption.map Expansion.bodies) ∧
    ∀ plan visit expansion, (∀ l, (visit l).Perm l) → expand ser visit plan = .ok expansion →
      ∃ bodies : List JobBody, expansion.bodies = bodies.map JobBody.toJson ∧
        ∀ variant index, (variant, index) ∈ plan.variants.zipIdx →
          ∃ cells, plan.variantCells index variant = .ok cells ∧ ∀ cell ∈ cells, ∃ own,
            JobBody.fromCell cell plan.expiresAt plan.mergeDuplicates = .ok own ∧
            (∃ body ∈ bodies, body.withoutAuthToken.toJson = own.withoutAuthToken.toJson) ∧
            ∀ body ∈ bodies, body.withoutAuthToken.toJson = own.withoutAuthToken.toJson →
              (∀ f ∈ variant.requires, f ∈ body.requires) ∧
              (variant.requires = [] → body.requires = [] ∧
                body.anyOf = withVersions [] (Eligibility.new variant).clientVersions) := by
  refine ⟨fun plan plan' visit visit' hsame hvisit hvisit' => ?_,
    fun plan visit expansion hvisit h => ?_⟩
  · cases hok : expand ser visit plan with
    | ok expansion =>
      obtain ⟨expansion', hok', hbodies⟩ := hsame.expand_ok hvisit hvisit' hok
      rw [hok']
      exact congrArg some hbodies.symm
    | error e =>
      cases hok' : expand ser visit' plan' with
      | error e' => rfl
      | ok expansion' =>
        obtain ⟨expansion, hok'', -⟩ := hsame.symm.expand_ok hvisit' hvisit hok'
        rw [hok''] at hok
        cases hok
  · obtain ⟨cells, bodies, hcells, hbodies, hemitted⟩ := expand_emitted hvisit h
    refine ⟨bodies, hbodies, fun variant index hvariant => ?_⟩
    obtain ⟨own, hown, hmem⟩ := cells_of_variant hcells hvariant
    refine ⟨own, hown, fun cell hcell => ?_⟩
    obtain ⟨body, hbody, ownBody, hownBody, hsame, -⟩ := hemitted.carries cell (hmem cell hcell)
    refine ⟨ownBody, hownBody, ⟨body, hbody, hsame⟩, fun body hbody hsame => ?_⟩
    obtain ⟨hrequires, hanyOf⟩ := JobBody.requires_of_toJson hsame
    rw [hrequires, hanyOf]
    exact requires_of_cell hown hcell hownBody

end Main

def labFlag : CapabilityFlag := ⟨"tag:lab", by decide +kernel⟩

def armFlag : CapabilityFlag := ⟨"arch:arm64", by decide +kernel⟩

def versionFlag : CapabilityFlag := ⟨"client_version:1.2.0", by decide +kernel⟩

def labVariant (requires : List CapabilityFlag) (notAllOf : List (List CapabilityFlag)) :
    SchedulerVariant :=
  { rosterVariant with requires, notAllOf, clients := [] }

def versionedRoster (clients : List ClientId) : SchedulerVariant :=
  { rosterVariant with clients, clientVersions := [versionFlag] }

def labPlan : SchedulerPlan :=
  { rosterPlan with variants :=
      [labVariant [labFlag, armFlag] [[versionFlag, labFlag]], versionedRoster [⟨"c"⟩]] }

def rewordedPlan : SchedulerPlan :=
  { rosterPlan with variants :=
      [labVariant [armFlag, labFlag, armFlag] [[labFlag, versionFlag], [versionFlag, labFlag]],
        versionedRoster [⟨"c"⟩, ⟨"c"⟩]] }

theorem samePlan_reworded : SamePlan labPlan rewordedPlan := by
  have hlab : SameClauses (labVariant [labFlag, armFlag] [[versionFlag, labFlag]])
      (labVariant [armFlag, labFlag, armFlag] [[labFlag, versionFlag], [versionFlag, labFlag]]) :=
    { rest := rfl
      requires := fun x => by simp [labVariant, or_comm]
      clients := .refl _
      excludeClients := .refl _
      excludes := .refl _
      notAllOf := by
        refine ⟨fun g hg => ⟨g, ?_, .refl g⟩, fun g hg => ⟨_, List.mem_cons_self, fun x => ?_⟩⟩
        · exact List.mem_cons_of_mem _ hg
        · obtain rfl | rfl : g = [labFlag, versionFlag] ∨ g = [versionFlag, labFlag] := by
            simpa [labVariant] using hg
          · simp [or_comm]
          · rfl }
  have hroster : SameClauses (versionedRoster [⟨"c"⟩]) (versionedRoster [⟨"c"⟩, ⟨"c"⟩]) :=
    { rest := rfl
      requires := .refl _
      clients := fun x => by simp [versionedRoster]
      excludeClients := .refl _
      excludes := .refl _
      notAllOf := ⟨fun g hg => ⟨g, hg, .refl g⟩, fun g hg => ⟨g, hg, .refl g⟩⟩ }
  exact ⟨rfl, .cons hlab (.cons hroster .nil)⟩

theorem clause_text_does_not_matter_reworded :
    ∃ (_ : LinearOrder Json) (expansion expansion' : Expansion) (bodies : List JobBody),
      expand identitySerializer id labPlan = .ok expansion ∧
      expand identitySerializer id rewordedPlan = .ok expansion' ∧
      expansion.bodies = expansion'.bodies ∧ expansion.bodies = bodies.map JobBody.toJson ∧
      (∃ body ∈ bodies, labFlag ∈ body.requires ∧ armFlag ∈ body.requires) ∧
      ∃ body ∈ bodies, body.requires = [] ∧ body.anyOf = [[versionFlag]] := by
  let order : LinearOrder Json := WellOrderingRel.isWellOrder.linearOrder
  obtain ⟨expansion, hexpand⟩ : ∃ expansion, expand identitySerializer id labPlan = .ok expansion :=
    Result.exists_of_isOk (by decide +kernel)
  obtain ⟨expansion', hexpand'⟩ : ∃ expansion, expand identitySerializer id rewordedPlan = .ok expansion :=
    Result.exists_of_isOk (by decide +kernel)
  obtain ⟨htext, hrequired⟩ := clause_text_does_not_matter identitySerializer
  have hsame := htext labPlan rewordedPlan id id samePlan_reworded (fun l => .refl l) fun l => .refl l
  rw [hexpand, hexpand'] at hsame
  obtain ⟨bodies, hbodies, hvariants⟩ := hrequired labPlan id expansion (fun l => .refl l) hexpand
  refine ⟨order, expansion, expansion', bodies, hexpand, hexpand', Option.some.inj hsame, hbodies, ?_, ?_⟩
  · obtain ⟨cells, hcells, hall⟩ := hvariants _ 0 (List.mem_of_getElem? (i := 0) rfl)
    cases hcells
    obtain ⟨_, -, ⟨body, hbody, hcarries⟩, hown⟩ := hall _ (List.mem_of_getElem? (i := 0) rfl)
    have hbodyRequires := (hown body hbody hcarries).1
    exact ⟨body, hbody, hbodyRequires _ (by simp [labVariant]), hbodyRequires _ (by simp [labVariant])⟩
  · obtain ⟨cells, hcells, hall⟩ := hvariants _ 1 (List.mem_of_getElem? (i := 1) rfl)
    cases hcells
    obtain ⟨_, -, ⟨body, hbody, hcarries⟩, hown⟩ := hall _ (List.mem_of_getElem? (i := 0) rfl)
    exact ⟨body, hbody, (hown body hbody hcarries).2 rfl⟩

end Pipette.Planner
