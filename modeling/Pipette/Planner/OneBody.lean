import Mathlib.SetTheory.Cardinal.Order
import Pipette.Lib.Total
import Pipette.Planner.Expand

/-! An accepted plan expands into one body per distinct cell, whatever order a hash set gives, and
the count made from types is the number of cells. -/
namespace Pipette.Planner

open Sorting Total

theorem saturatingAdd_min (a b : Nat) :
    saturatingAdd (min a usizeMax) (min b usizeMax) = min (a + b) usizeMax := by
  unfold saturatingAdd
  omega

theorem saturatingMul_min (a b : Nat) :
    saturatingMul a (min b usizeMax) = min (a * b) usizeMax := by
  unfold saturatingMul
  obtain hb | hb := Nat.le_total b usizeMax
  · rw [Nat.min_eq_left hb]
  · obtain rfl | hpos := Nat.eq_zero_or_pos a
    · simp
    · have hlimit : usizeMax ≤ a * usizeMax := Nat.le_mul_of_pos_left usizeMax hpos
      have hproduct : a * usizeMax ≤ a * b := Nat.mul_le_mul_left a hb
      rw [Nat.min_eq_right hb]
      omega

theorem foldl_saturatingAdd {α : Type} (f : α → Nat) (l : List α) (a : Nat) :
    l.foldl (fun sum x => saturatingAdd sum (min (f x) usizeMax)) (min a usizeMax) =
      min (a + total f l) usizeMax := by
  induction l generalizing a with
  | nil => rfl
  | cons x rest ih => rw [List.foldl_cons, saturatingAdd_min, ih, total_cons, Nat.add_assoc]

section Types

variable {T K : Type} [DecidableEq K] (typeOf : T → K)

theorem total_countFirst (w : K → Nat) (item : T) (firsts : List (T × Nat)) :
    total (fun f => f.2 * w (typeOf f.1)) (countFirst typeOf item firsts) =
      total (fun f => f.2 * w (typeOf f.1)) firsts + w (typeOf item) := by
  induction firsts with
  | nil => simp [countFirst]
  | cons first rest ih =>
    rw [countFirst]
    split
    · next h => rw [total_cons, total_cons, Nat.succ_mul, h]; omega
    · rw [total_cons, total_cons, ih, Nat.add_assoc]

theorem total_firstOfEachType (w : K → Nat) (items : List T) :
    total (fun f => f.2 * w (typeOf f.1)) (firstOfEachType typeOf items) =
      total (fun item => w (typeOf item)) items := by
  have hfold : ∀ (items : List T) (firsts : List (T × Nat)),
      total (fun f => f.2 * w (typeOf f.1))
        (items.foldl (fun firsts item => countFirst typeOf item firsts) firsts) =
      total (fun f => f.2 * w (typeOf f.1)) firsts + total (fun item => w (typeOf item)) items := by
    intro items
    induction items with
    | nil => simp
    | cons item rest ih =>
      intro firsts
      rw [List.foldl_cons, ih, total_countFirst, total_cons, Nat.add_assoc]
  rw [firstOfEachType, hfold, total_nil, Nat.zero_add]

end Types

section Pairs

variable {models : List Model} {runtimes : List Runtime}

def loaders (runtimes : List Runtime) (model : ModelType) : Nat :=
  total (fun r => if typesCompatible model (.of r) then 1 else 0) runtimes

theorem length_pairs (models : List Model) (runtimes : List Runtime) :
    (models.flatMap fun m => (runtimes.filter fun r => isCompatible m r).map fun r =>
      (m, r)).length = total (fun m => loaders runtimes (.of m)) models := by
  rw [length_eq_total, total_flatMap]
  congr 1
  funext m
  rw [total_map, total_filter]
  rfl

theorem count_typePairs {pairs : List (Model × Runtime × Nat)}
    (h : runnableTypePairsOf models runtimes = .ok pairs) :
    pairs.foldl (fun sum pair => saturatingAdd sum pair.2.2) 0 =
      min (total (fun m => loaders runtimes (.of m)) models) usizeMax := by
  unfold runnableTypePairsOf at h
  extract_lets firstModels firstRuntimes at h
  split at h
  · cases h
  split at h
  · cases h
  cases h
  have hpairs : (firstModels.flatMap fun m => (firstRuntimes.filter fun r =>
      isCompatible m.1 r.1).map fun r => (m.1, r.1, saturatingMul m.2 r.2)) =
      (firstModels.flatMap fun m => (firstRuntimes.filter fun r => isCompatible m.1 r.1).map fun r =>
        (m, r)).map fun q => (q.1.1, q.2.1, saturatingMul q.1.2 q.2.2) := by
    rw [List.map_flatMap]
    simp only [List.map_map]
    rfl
  have hloaders : ∀ m : Model × Nat,
      total (fun q : (Model × Nat) × Runtime × Nat => q.1.2 * q.2.2)
        ((firstRuntimes.filter fun r => isCompatible m.1 r.1).map fun r => (m, r)) =
      m.2 * loaders runtimes (.of m.1) := by
    intro m
    rw [total_map]
    change total (fun r : Runtime × Nat => m.2 * r.2) _ = _
    rw [total_mul, total_filter]
    have hcount := total_firstOfEachType RuntimeType.of
      (fun r => if typesCompatible (.of m.1) r then 1 else 0) runtimes
    rw [loaders, ← hcount]
    congr 2
    funext r
    change (if typesCompatible (.of m.1) (.of r.1) then r.2 else 0) = _
    split <;> simp
  change List.foldl _ 0 (firstModels.flatMap fun m => (firstRuntimes.filter fun r =>
      isCompatible m.1 r.1).map fun r => (m.1, r.1, saturatingMul m.2 r.2)) = _
  rw [hpairs, List.foldl_map]
  refine (foldl_saturatingAdd (fun q : (Model × Nat) × Runtime × Nat => q.1.2 * q.2.2) _ 0).trans ?_
  rw [Nat.zero_add, total_flatMap]
  simp only [hloaders]
  rw [total_firstOfEachType ModelType.of (loaders runtimes) models]

end Pairs

section Cells

variable {plan : SchedulerPlan} {variant : SchedulerVariant} {index : Nat}

theorem variantUpperBound_of_cells {cells : List SchedulerCell}
    (h : plan.variantCells index variant = .ok cells) :
    plan.variantUpperBound index variant = .ok (min cells.length usizeMax) := by
  obtain ⟨pairs, hpairs, h⟩ := Result.bind_eq_ok h
  obtain ⟨benchmarks, hbenchmarks, h⟩ := Result.bind_eq_ok h
  cases h
  obtain ⟨typePairs, htypes, hproduct⟩ := Result.bind_eq_ok (Result.mapError_eq_ok hpairs)
  cases hproduct
  have hlength : (benchmarks.flatMap fun benchmark =>
      (variant.models.flatMap fun m => (variant.runtimes.filter fun r => isCompatible m r).map
        fun r => (m, r)).map fun x => plan.cell variant benchmark x.1 x.2).length =
      benchmarks.length * total (fun m => loaders variant.runtimes (.of m)) variant.models := by
    rw [← length_pairs, length_eq_total, total_flatMap]
    simp only [← length_eq_total, List.length_map]
    rw [total_const]
  unfold SchedulerPlan.variantUpperBound
  rw [hbenchmarks, htypes]
  change Except.ok (saturatingMul benchmarks.length _) = _
  rw [count_typePairs htypes, hlength, saturatingMul_min]

theorem cellUpperBound_of_cells {cells : List SchedulerCell} (h : plan.cells = .ok cells) :
    plan.cellUpperBound = .ok (min cells.length usizeMax) := by
  obtain ⟨lists, hlists, rfl⟩ := Result.map_eq_ok h
  have hfold : ∀ (l : List (SchedulerVariant × Nat)) (lists : List (List SchedulerCell)) (a : Nat),
      l.mapM (fun x => plan.variantCells x.2 x.1) = .ok lists →
      l.foldlM (fun total x => do
        let count ← plan.variantUpperBound x.2 x.1
        pure (saturatingAdd total count)) (min a usizeMax) =
      (.ok (min (a + lists.flatten.length) usizeMax) : Except SchedulerPlanError Nat) := by
    intro l
    induction l with
    | nil =>
      intro lists a h
      cases h
      rfl
    | cons x rest ih =>
      obtain ⟨variant, index⟩ := x
      intro lists a h
      rw [List.mapM_cons] at h
      obtain ⟨first, hfirst, h⟩ := Result.bind_eq_ok h
      obtain ⟨others, hothers, h⟩ := Result.bind_eq_ok h
      cases h
      rw [List.foldlM_cons]
      dsimp only
      rw [variantUpperBound_of_cells hfirst]
      change List.foldlM _ (saturatingAdd (min a usizeMax) (min first.length usizeMax)) rest = _
      rw [saturatingAdd_min, ih others _ hothers, List.flatten_cons, List.length_append,
        Nat.add_assoc]
  have hcount := hfold plan.variants.zipIdx lists 0 hlists
  rw [Nat.zero_min, Nat.zero_add] at hcount
  exact hcount

end Cells

theorem ModelSource.withoutAuthToken_of_none {source : ModelSource} (h : source.authToken = none) :
    source.withoutAuthToken = source := by
  cases source with
  | huggingFace repo fields =>
    cases repo
    cases h
    rfl
  | elsewhere => rfl

theorem Model.withoutAuthToken_of_none {model : Model} (h : model.authToken = none) :
    model.withoutAuthToken = model := by
  cases model with
  | mlxSpeculative target draft | torchSpeculative target draft =>
    obtain ⟨htarget, hdraft⟩ := Option.or_eq_none_iff.mp h
    simp only [Model.withoutAuthToken, ModelSource.withoutAuthToken_of_none htarget,
      ModelSource.withoutAuthToken_of_none hdraft]
  | appleFoundationText => rfl
  | _ source => exact congrArg _ (ModelSource.withoutAuthToken_of_none h)

namespace JobBody

variable {Text : Type} {ser : Serializer Text} {body : JobBody}

theorem withoutAuthToken_of_none (h : body.hasToken = false) : body.withoutAuthToken = body := by
  have hnone := Option.isSome_eq_false_iff.mp h
  rw [Option.isNone_iff_eq_none] at hnone
  unfold withoutAuthToken
  rw [Model.withoutAuthToken_of_none hnone]

@[simp] theorem render_body : (body.render ser).body = body := by
  unfold render
  split <;> rfl

theorem render_key :
    (body.render ser).key = ser.toStringPretty body.withoutAuthToken.toJson := by
  unfold render
  split
  · rfl
  · next h => rw [withoutAuthToken_of_none (by rw [hasToken, h]; rfl)]

theorem render_gated : (body.render ser).gated =
    if body.hasToken then some (ser.toString body.spec.model.toJson) else none := by
  unfold render hasToken
  split <;> next h => simp [h]

theorem toJson_congr {a b : JobBody} (h : a.withoutAuthToken.toJson = b.withoutAuthToken.toJson)
    (hmodel : a.spec.model.toJson = b.spec.model.toJson) : a.toJson = b.toJson := by
  obtain ⟨hclauses, hspec⟩ := List.append_inj' (Json.obj.inj h) rfl
  have hclauses : a.clauseFields = b.clauseFields := hclauses
  simp only [ClientRunSpec.toJson, withoutAuthToken, List.cons.injEq, Prod.mk.injEq, Json.obj.injEq,
    true_and, and_true] at hspec
  obtain ⟨hbenchmark, -, hruntime, hruntimeFlags, hmodelFlags, hbenchmarkFlags⟩ := hspec
  simp only [toJson, ClientRunSpec.toJson, hclauses, hbenchmark, hmodel, hruntime, hruntimeFlags,
    hmodelFlags, hbenchmarkFlags]

end JobBody

namespace Rendered

variable {Text : Type} {ser : Serializer Text} {a b : JobBody}

theorem merges_render : (a.render ser).merges =
    toLex (ser.toStringPretty a.withoutAuthToken.toJson, !a.hasToken) := by
  rw [merges, JobBody.render_key, JobBody.render_gated]
  cases a.hasToken <;> rfl

theorem merges_eq_iff : (a.render ser).merges = (b.render ser).merges ↔
    a.withoutAuthToken.toJson = b.withoutAuthToken.toJson ∧ a.hasToken = b.hasToken := by
  rw [merges_render, merges_render, toLex_inj, Prod.mk.injEq, ser.pretty_injective.eq_iff,
    Bool.not_inj_iff]

theorem toJson_eq_of_sortKey (h : (a.render ser).sortKey = (b.render ser).sortKey) :
    a.toJson = b.toJson := by
  simp only [sortKey, toLex_inj, Prod.mk.injEq, JobBody.render_key, JobBody.render_gated] at h
  obtain ⟨hkey, hnone, hgated⟩ := h
  have hwithout := ser.pretty_injective hkey
  cases ha : a.hasToken <;> cases hb : b.hasToken <;> simp [ha, hb] at hnone hgated
  · rwa [JobBody.withoutAuthToken_of_none ha, JobBody.withoutAuthToken_of_none hb] at hwithout
  · exact JobBody.toJson_congr hwithout (ser.injective hgated)

variable [LinearOrder Text]

theorem merges_le_of_sortKey_le {r r' : Rendered Text} (h : r.sortKey ≤ r'.sortKey) :
    r.merges ≤ r'.merges := by
  simp only [sortKey, merges, Prod.Lex.toLex_le_toLex] at h ⊢
  obtain h | ⟨hkey, h⟩ := h
  · exact .inl h
  · exact .inr ⟨hkey, h.elim le_of_lt fun h => h.1.le⟩

end Rendered

section Expand

variable {Text : Type} [LinearOrder Text] {ser : Serializer Text}
  {visit visit' : List SchedulerCell → List SchedulerCell} {plan : SchedulerPlan}
  {expansion : Expansion}

def renderCell (ser : Serializer Text) (plan : SchedulerPlan) (cell : SchedulerCell) :
    Except ExpandError (Rendered Text) := do
  let body ← JobBody.fromCell cell plan.expiresAt plan.mergeDuplicates
  pure (body.render ser)

omit [LinearOrder Text] in
theorem renderCell_eq_ok {cell : SchedulerCell} {r : Rendered Text}
    (h : renderCell ser plan cell = .ok r) :
    ∃ body, JobBody.fromCell cell plan.expiresAt plan.mergeDuplicates = .ok body ∧
      r = body.render ser := by
  obtain ⟨body, hbody, h⟩ := Result.bind_eq_ok h
  cases h
  exact ⟨body, hbody, rfl⟩

omit [LinearOrder Text] in
theorem render_of_mem {cells : List SchedulerCell} {rendered : List (Rendered Text)}
    (h : cells.mapM (renderCell ser plan) = .ok rendered) {r : Rendered Text} (hr : r ∈ rendered) :
    ∃ body, r = JobBody.render ser body := by
  obtain ⟨cell, -, hcell⟩ := Result.mem_mapM h hr
  obtain ⟨body, -, hbody⟩ := renderCell_eq_ok hcell
  exact ⟨body, hbody⟩

theorem expand_eq_ok (h : expand ser visit plan = .ok expansion) : ∃ cells rendered,
    validateCapabilityRules plan = .ok expansion.warnings ∧ plan.cells = .ok cells ∧
    (visit cells.dedup).mapM (renderCell ser plan) = .ok rendered ∧
    expansion.bodies = (dedupOn Rendered.merges (sortOn Rendered.sortKey rendered)).map
      fun r => r.body.toJson := by
  obtain ⟨warnings, hwarnings, h⟩ := Result.bind_eq_ok h
  obtain ⟨cells, hcells, h⟩ := Result.bind_eq_ok h
  obtain ⟨rendered, hrendered, h⟩ := Result.bind_eq_ok h
  cases h
  exact ⟨cells, rendered, Result.mapError_eq_ok hwarnings, Result.mapError_eq_ok hcells, hrendered,
    rfl⟩

theorem expand_of {cells : List SchedulerCell} {rendered : List (Rendered Text)}
    {warnings : List PlanWarning} (hwarnings : validateCapabilityRules plan = .ok warnings)
    (hcells : plan.cells = .ok cells)
    (hrendered : (visit cells.dedup).mapM (renderCell ser plan) = .ok rendered) :
    expand ser visit plan = .ok
      ⟨(dedupOn Rendered.merges (sortOn Rendered.sortKey rendered)).map fun r => r.body.toJson,
        warnings⟩ := by
  unfold expand
  rw [hwarnings, hcells]
  change (visit cells.dedup).mapM (renderCell ser plan) >>= _ = _
  rw [hrendered]
  rfl

theorem bodies_of_perm {rendered rendered' : List (Rendered Text)}
    (hbody : ∀ r ∈ rendered, ∃ body, r = JobBody.render ser body) (h : rendered.Perm rendered') :
    ((dedupOn Rendered.merges (sortOn Rendered.sortKey rendered)).map fun r => r.body.toJson) =
      (dedupOn Rendered.merges (sortOn Rendered.sortKey rendered')).map fun r => r.body.toJson := by
  -- a body by what it merges on and its value
  have hshown : ∀ l : List (Rendered Text),
      ((dedupOn Rendered.merges l).map fun r => r.body.toJson) =
      (dedupOn Prod.fst (l.map fun r => (r.merges, r.body.toJson))).map Prod.snd := by
    intro l
    rw [← map_dedupOn Prod.fst fun r : Rendered Text => (r.merges, r.body.toJson), List.map_map]
    rfl
  rw [hshown, hshown, map_sortOn_of_perm Rendered.sortKey h]
  intro r hr r' hr' hkey
  obtain ⟨a, rfl⟩ := hbody r hr
  obtain ⟨b, rfl⟩ := hbody r' hr'
  have hmerges := le_antisymm (Rendered.merges_le_of_sortKey_le hkey.le)
    (Rendered.merges_le_of_sortKey_le hkey.ge)
  rw [hmerges, JobBody.render_body, JobBody.render_body, Rendered.toJson_eq_of_sortKey hkey]

theorem expand_any_order (hvisit : ∀ l, (visit l).Perm l) (hvisit' : ∀ l, (visit' l).Perm l)
    (h : expand ser visit plan = .ok expansion) : expand ser visit' plan = .ok expansion := by
  obtain ⟨cells, rendered, hwarnings, hcells, hrendered, hbodies⟩ := expand_eq_ok h
  obtain ⟨rendered', hrendered', hperm⟩ :=
    Result.mapM_perm ((hvisit cells.dedup).trans (hvisit' cells.dedup).symm) hrendered
  rw [expand_of hwarnings hcells hrendered',
    ← bodies_of_perm (fun r hr => render_of_mem hrendered hr) hperm, ← hbodies]

structure Emitted (plan : SchedulerPlan) (cells : List SchedulerCell) (bodies : List JobBody) :
    Prop where
  length : bodies.length ≤ cells.length
  ofCell : ∀ body ∈ bodies, ∃ cell ∈ cells,
    JobBody.fromCell cell plan.expiresAt plan.mergeDuplicates = .ok body
  carries : ∀ cell ∈ cells, ∃ body ∈ bodies, ∃ own,
    JobBody.fromCell cell plan.expiresAt plan.mergeDuplicates = .ok own ∧
    body.withoutAuthToken.toJson = own.withoutAuthToken.toJson ∧ body.hasToken = own.hasToken
  distinct : bodies.Pairwise fun a b => a.withoutAuthToken.toJson = b.withoutAuthToken.toJson →
    a.hasToken ≠ b.hasToken

theorem expand_emitted (hvisit : ∀ l, (visit l).Perm l)
    (h : expand ser visit plan = .ok expansion) : ∃ cells bodies, plan.cells = .ok cells ∧
      expansion.bodies = bodies.map JobBody.toJson ∧ Emitted plan cells bodies := by
  obtain ⟨cells, rendered, -, hcells, hrendered, hbodies⟩ := expand_eq_ok h
  have hkept : ∀ {r}, r ∈ dedupOn Rendered.merges (sortOn Rendered.sortKey rendered) →
      r ∈ rendered := fun hr =>
    (perm_sortOn Rendered.sortKey rendered).subset ((dedupOn_sublist Rendered.merges _).subset hr)
  refine ⟨cells, (dedupOn Rendered.merges (sortOn Rendered.sortKey rendered)).map (·.body), hcells,
    ?_, ?_, fun body hbody => ?_, fun cell hcell => ?_, ?_⟩
  · rw [hbodies, List.map_map]
    rfl
  · have hmapped := (Result.forall₂_of_mapM hrendered).length_eq
    calc ((dedupOn Rendered.merges (sortOn Rendered.sortKey rendered)).map (·.body)).length
      _ ≤ (sortOn Rendered.sortKey rendered).length := by
        rw [List.length_map]
        exact (dedupOn_sublist _ _).length_le
      _ = rendered.length := (perm_sortOn Rendered.sortKey rendered).length_eq
      _ = cells.dedup.length := by rw [← hmapped, (hvisit cells.dedup).length_eq]
      _ ≤ cells.length := (List.dedup_sublist cells).length_le
  · obtain ⟨r, hr, rfl⟩ := List.mem_map.mp hbody
    obtain ⟨cell, hcell, hrender⟩ := Result.mem_mapM hrendered (hkept hr)
    obtain ⟨body, hown, rfl⟩ := renderCell_eq_ok hrender
    refine ⟨cell, List.mem_dedup.mp ((hvisit cells.dedup).mem_iff.mp hcell), ?_⟩
    rw [JobBody.render_body]
    exact hown
  · have hvisited : cell ∈ visit cells.dedup :=
      (hvisit cells.dedup).mem_iff.mpr (List.mem_dedup.mpr hcell)
    obtain ⟨r, hr, hcell⟩ := Result.mapM_mem hrendered hvisited
    obtain ⟨own, hown, rfl⟩ := renderCell_eq_ok hcell
    obtain ⟨s, hs, hmerges⟩ := mem_class_dedupOn Rendered.merges
      ((perm_sortOn Rendered.sortKey rendered).mem_iff.mpr hr)
    obtain ⟨body, rfl⟩ := render_of_mem hrendered (hkept hs)
    refine ⟨body, List.mem_map.mpr ⟨_, hs, JobBody.render_body⟩, own, hown, ?_⟩
    exact Rendered.merges_eq_iff.mp hmerges
  · have hsorted : (sortOn Rendered.sortKey rendered).Pairwise fun a b => a.merges ≤ b.merges :=
      (pairwise_sortOn Rendered.sortKey rendered).imp Rendered.merges_le_of_sortKey_le
    refine List.pairwise_map.mpr (List.Pairwise.imp_of_mem (fun {r r'} hr hr' hlt => ?_)
      (pairwise_dedupOn Rendered.merges hsorted))
    obtain ⟨a, rfl⟩ := render_of_mem hrendered (hkept hr)
    obtain ⟨b, rfl⟩ := render_of_mem hrendered (hkept hr')
    rw [JobBody.render_body, JobBody.render_body]
    exact fun hsame htoken => hlt.ne (Rendered.merges_eq_iff.mpr ⟨hsame, htoken⟩)

variable (ser)

/-- An accepted plan is accepted in every order of the hash set, with the same bodies. Every cell's
body is among them up to the token of its model, no two are equal without the token unless exactly
one carries one, and there are at most as many as the count made before the expansion (a `Vec` has
no more than `usizeMax` items), which is the number of cells unless it stops at the limit. -/
theorem expand_one_body_per_cell (hvisit : ∀ l, (visit l).Perm l)
    (h : expand ser visit plan = .ok expansion) :
    (∀ visit', (∀ l, (visit' l).Perm l) → expand ser visit' plan = .ok expansion) ∧
    ∃ cells count, ∃ bodies : List JobBody, plan.cells = .ok cells ∧ jobCount plan = .ok count ∧
      expansion.bodies = bodies.map JobBody.toJson ∧
      (∀ cell ∈ cells, ∃ body ∈ bodies, ∃ own,
        JobBody.fromCell cell plan.expiresAt plan.mergeDuplicates = .ok own ∧
        body.withoutAuthToken.toJson = own.withoutAuthToken.toJson ∧
        body.hasToken = own.hasToken) ∧
      bodies.Pairwise (fun a b => a.withoutAuthToken.toJson = b.withoutAuthToken.toJson →
        a.hasToken ≠ b.hasToken) ∧
      (expansion.bodies.length ≤ usizeMax → expansion.bodies.length ≤ count) ∧
      count = min cells.length usizeMax := by
  refine ⟨fun visit' hvisit' => expand_any_order hvisit hvisit' h, ?_⟩
  obtain ⟨cells, bodies, hcells, hbodies, hemitted⟩ := expand_emitted hvisit h
  refine ⟨cells, min cells.length usizeMax, bodies, hcells, ?_, hbodies, hemitted.carries,
    hemitted.distinct, fun hfits => le_min ?_ hfits, rfl⟩
  · rw [jobCount, cellUpperBound_of_cells hcells]
    rfl
  · rw [hbodies, List.length_map]
    exact hemitted.length

end Expand

def gatedModel (token : Option String) : Model :=
  .ggufText (.huggingFace ⟨"acme", "m", none, token⟩ [("file", .str "m.gguf")])

def rosterVariant : SchedulerVariant where
  models := [gatedModel none, gatedModel (some "hf_1"), gatedModel (some "hf_2")]
  runtimes := [.llamacppApkPipette (.obj [("type", .str "llamacpp_apk_pipette")])]
  requires := []
  clients := [⟨"c"⟩]
  clientVersions := []
  excludeClients := []
  excludes := []
  notAllOf := []
  benchmarks := some ["decode_throughput_512_100", "prefill_throughput_512"]
  runtimeFlags := []
  modelFlags := []
  benchmarkFlags := []

def rosterPlan : SchedulerPlan := ⟨none, none, none, [rosterVariant], fun _ => none⟩

def identitySerializer : Serializer Json := ⟨id, id, Function.injective_id, Function.injective_id⟩

/-- A model with its two gated twins, under two benchmarks: the twins share one body, beside that of
the model without a token. Values are written as themselves, in some order. -/
theorem expand_one_body_per_cell_gated :
    ∃ (_ : LinearOrder Json) (expansion : Expansion) (bodies : List JobBody),
      expand identitySerializer id rosterPlan = .ok expansion ∧
      expansion.bodies = bodies.map JobBody.toJson ∧ jobCount rosterPlan = .ok 6 ∧
      (∃ gated ∈ bodies, ∃ plain ∈ bodies, gated.hasToken = true ∧ plain.hasToken = false ∧
        ∀ body ∈ bodies, body.withoutAuthToken.toJson = gated.withoutAuthToken.toJson →
          body = gated ∨ body = plain) ∧
      ∀ visit', (∀ l, (visit' l).Perm l) →
        expand identitySerializer visit' rosterPlan = .ok expansion := by
  let order : LinearOrder Json := WellOrderingRel.isWellOrder.linearOrder
  obtain ⟨expansion, hexpand⟩ : ∃ expansion, expand identitySerializer id rosterPlan = .ok expansion :=
    ⟨_, rfl⟩
  obtain ⟨hany, cells, _, bodies, hcells, -, hbodies, hcarried, hdistinct, -⟩ :=
    expand_one_body_per_cell identitySerializer (fun l => .refl l) hexpand
  cases hcells
  obtain ⟨plain, hplain, _, hown, hsame, htoken⟩ := hcarried _ (List.mem_of_getElem? (i := 0) rfl)
  cases hown
  obtain ⟨gated, hgated, _, hown, hsame', htoken'⟩ := hcarried _ (List.mem_of_getElem? (i := 1) rfl)
  cases hown
  refine ⟨order, expansion, bodies, hexpand, hbodies, rfl, ?_, hany⟩
  refine ⟨gated, hgated, plain, hplain, htoken', htoken, fun body hbody hbodySame => ?_⟩
  by_contra hother
  obtain ⟨hne, hne'⟩ := not_or.mp hother
  have : Std.Symm fun a b : JobBody =>
      a.withoutAuthToken.toJson = b.withoutAuthToken.toJson → a.hasToken ≠ b.hasToken :=
    ⟨fun _ _ h hsame htoken => h hsame.symm htoken.symm⟩
  have hfalse := Bool.eq_false_iff.mpr fun htrue =>
    hdistinct.forall hbody hgated hne hbodySame (htrue.trans htoken'.symm)
  exact hdistinct.forall hbody hplain hne' (hbodySame.trans (hsame'.trans hsame.symm))
    (hfalse.trans htoken.symm)

end Pipette.Planner
