import Pipette.Lib.Chase
import Pipette.Pipeline.Carry
import Pipette.Store.Paging

/-! The history of a campaign: its head, then each plan that one supersedes. The links are stored data
and need not form a chain. -/
namespace Pipette

structure Campaign where
  campaignId : CampaignId
  currentPlanId : Option PlanId

structure LinkedManifest extends FiledManifest where
  previousPlanId : Option PlanId

structure ChainReads where
  /-- `none` where the store does not offer the read. -/
  getCampaignPlans : CampaignId → Except Fault (Option (List LinkedManifest))
  getPlan : PlanId → Except Fault (Option LinkedManifest)

def chainMax : Nat := 50

structure ChainLinks where
  links : List (PlanId × Option LinkedManifest)
  truncated : Bool

structure CampaignChain where
  plans : List PlanId
  truncated : Bool
deriving DecidableEq

abbrev KnownPlans := FileTree PlanId LinkedManifest

def collectPlans (manifests : List LinkedManifest) : KnownPlans :=
  manifests.foldl (fun known manifest => known.insert manifest.planId manifest) ∅

section Walk

variable (order : HashOrder) (plans : ChainReads)

/-- A plan the campaign's read did not give, one that left the campaign or did not assemble, is read
on its own. -/
def readLink (known : KnownPlans) (planId : PlanId) : Except Fault (Option LinkedManifest) :=
  match known.lookup planId with
  | some manifest => .ok (some manifest)
  | none => plans.getPlan planId

/-- The loop of `links`, for `fuel` rounds at most: `none` is a loop that takes more. -/
def linksLoop (max : Option Nat) :
    Nat → ChainLinks → List PlanId → KnownPlans → Option PlanId →
      Option (Except Fault (ChainLinks × KnownPlans))
  | 0, _, _, _, _ => none
  | _ + 1, chain, _, known, none => some (.ok (chain, known))
  | fuel + 1, chain, seen, known, some planId =>
    if planId ∈ seen then some (.ok (chain, known))
    else
      match readLink plans known planId with
      | .error e => some (.error e)
      | .ok manifest =>
        let next := manifest.bind LinkedManifest.previousPlanId
        let links := chain.links ++ [(planId, manifest)]
        if some links.length = max then some (.ok (⟨links, next.isSome⟩, known.erase planId))
        else linksLoop max fuel ⟨links, chain.truncated⟩ (seen ++ [planId]) (known.erase planId) next

/-- The chain as far back as `max`, where `none` is `usize::MAX`, which no vector reaches, and the
plans of the campaign that the walk did not reach. -/
def links (fuel : Nat) (campaign : Campaign) (max : Option Nat) :
    Option (Except Fault (ChainLinks × List LinkedManifest)) :=
  match plans.getCampaignPlans campaign.campaignId with
  | .error e => some (.error e)
  | .ok listed =>
    (linksLoop plans max fuel ⟨[], false⟩ [] (collectPlans (listed.getD []))
      campaign.currentPlanId).map fun result =>
        result.map fun reached => (reached.1, order.visit (reached.2.entries.map (·.2)))

def walkLinks (fuel : Nat) (campaign : Campaign) : Option (Except Fault ChainLinks) :=
  (links order plans fuel campaign (some chainMax)).map fun result => result.map (·.1)

def walk (fuel : Nat) (campaign : Campaign) : Option (Except Fault CampaignChain) :=
  (walkLinks order plans fuel campaign).map fun result =>
    result.map fun chain => ⟨chain.links.map (·.1), chain.truncated⟩

def everyPlan (fuel : Nat) (campaign : Campaign) : Option (Except Fault (List LinkedManifest)) :=
  (links order plans fuel campaign none).map fun result =>
    result.map fun reached => reached.1.links.filterMap (·.2) ++ reached.2

end Walk

/-- Any finite set of manifests, and any part of it listed under a campaign. -/
structure HeldManifests where
  manifests : KnownPlans
  named : ∀ p m, manifests.lookup p = some m → m.planId = p
  listed : CampaignId → Option (List LinkedManifest)
  held : ∀ c, ∀ l ∈ listed c, ∀ m ∈ l, manifests.lookup m.planId = some m

namespace HeldManifests

def reads (held : HeldManifests) : ChainReads where
  getCampaignPlans c := .ok (held.listed c)
  getPlan p := .ok (held.manifests.lookup p)

def link (held : HeldManifests) (p : PlanId) : Option PlanId :=
  (held.manifests.lookup p).bind LinkedManifest.previousPlanId

end HeldManifests

section Loop

variable {held : HeldManifests} {max : Option Nat} {fuel : Nat} {known : KnownPlans}
  {seen : List PlanId} {next : Option PlanId}

theorem lookup_foldl_insert {manifests : List LinkedManifest} {p : PlanId} {m : LinkedManifest}
    (h : (manifests.foldl (fun known m => known.insert m.planId m) known).lookup p = some m) :
    known.lookup p = some m ∨ m ∈ manifests ∧ m.planId = p := by
  induction manifests generalizing known with
  | nil => exact .inl h
  | cons head rest ih =>
    rcases ih h with h | ⟨hm, hp⟩
    · rw [FileTree.lookup_write] at h
      split at h
      · next hp =>
        cases h
        exact .inr ⟨List.mem_cons_self, hp.symm⟩
      · exact .inl h
    · exact .inr ⟨List.mem_cons_of_mem _ hm, hp⟩

theorem isSome_lookup_foldl_insert (known : KnownPlans) {manifests : List LinkedManifest} {p : PlanId}
    (h : (known.lookup p).isSome ∨ ∃ m ∈ manifests, m.planId = p) :
    ((manifests.foldl (fun known m => known.insert m.planId m) known).lookup p).isSome := by
  induction manifests generalizing known with
  | nil => simpa using h
  | cons head rest ih =>
    apply ih
    rcases h with h | ⟨m, hm, hp⟩
    · exact .inl (FileTree.isSome_write h)
    · rcases List.mem_cons.mp hm with rfl | hm
      · exact .inl (by rw [FileTree.lookup_write, if_pos hp.symm]; rfl)
      · exact .inr ⟨m, hm, hp⟩

theorem lookup_collectPlans {manifests : List LinkedManifest}
    (h : ∀ m ∈ manifests, held.manifests.lookup m.planId = some m) (p : PlanId) (m : LinkedManifest) :
    (collectPlans manifests).lookup p = some m ↔ m ∈ manifests ∧ m.planId = p := by
  refine ⟨fun hlookup => ?_, fun ⟨hm, hp⟩ => ?_⟩
  · exact (lookup_foldl_insert hlookup).resolve_left (by simp)
  · obtain ⟨m', hm'⟩ := Option.isSome_iff_exists.mp
      (isSome_lookup_foldl_insert ∅ (.inr ⟨m, hm, hp⟩))
    obtain ⟨hmem, hp'⟩ := (lookup_foldl_insert hm').resolve_left (by simp)
    have heq : m' = m := by
      have hsame := (h m' hmem).symm.trans (hp' ▸ hp ▸ h m hm)
      exact Option.some.inj hsame
    exact heq ▸ hm'

theorem linksLoop_eq {base : KnownPlans} (known : KnownPlans)
    (hbase : ∀ p m, base.lookup p = some m → held.manifests.lookup p = some m)
    (hknown : ∀ p, known.lookup p = if p ∈ seen then none else base.lookup p)
    {visited : List PlanId} {truncated : Bool}
    (hfollow : Chase.follow held.link max fuel seen next = some (visited, truncated)) :
    ∃ known' : KnownPlans, linksLoop held.reads max fuel
        ⟨seen.map fun p => (p, held.manifests.lookup p), false⟩ seen known next =
          some (.ok (⟨visited.map fun p => (p, held.manifests.lookup p), truncated⟩, known')) ∧
      ∀ p, known'.lookup p = if p ∈ visited then none else base.lookup p := by
  induction fuel generalizing seen known next with
  | zero => simp [Chase.follow] at hfollow
  | succ fuel ih =>
    cases next with
    | none =>
      simp only [Chase.follow, Option.some.injEq, Prod.mk.injEq] at hfollow
      obtain ⟨rfl, rfl⟩ := hfollow
      exact ⟨known, rfl, hknown⟩
    | some a =>
      simp only [Chase.follow] at hfollow
      split at hfollow
      · next hseen =>
        simp only [Option.some.injEq, Prod.mk.injEq] at hfollow
        obtain ⟨rfl, rfl⟩ := hfollow
        exact ⟨known, by simp [linksLoop, hseen], hknown⟩
      next hnew =>
      have hread : readLink held.reads known a = .ok (held.manifests.lookup a) := by
        unfold readLink
        split
        · next m hlookup =>
          rw [hknown, if_neg hnew] at hlookup
          rw [hbase a m hlookup]
        · rfl
      have herase : ∀ p, (known.erase a).lookup p =
          if p ∈ seen ++ [a] then none else base.lookup p := by
        intro p
        rw [FileTree.lookup_remove, hknown]
        by_cases hp : p = a <;> simp [hp]
      simp only [linksLoop, if_neg hnew, hread, List.length_append, List.length_map,
        List.length_singleton]
      split at hfollow
      · next hfull =>
        simp only [Option.some.injEq, Prod.mk.injEq] at hfollow
        obtain ⟨rfl, rfl⟩ := hfollow
        exact ⟨known.erase a, by rw [if_pos hfull.symm, List.map_append]; rfl, herase⟩
      · next hroom =>
        obtain ⟨known', hloop, hknown'⟩ := ih (known.erase a) herase hfollow
        refine ⟨known', ?_, hknown'⟩
        rw [if_neg (Ne.symm hroom), ← hloop, List.map_append]
        rfl

theorem linksLoop_mono {plans : ChainReads} {chain : ChainLinks}
    {result : Except Fault (ChainLinks × KnownPlans)}
    (h : linksLoop plans max fuel chain seen known next = some result) :
    linksLoop plans max (fuel + 1) chain seen known next = some result := by
  induction fuel generalizing seen known next chain with
  | zero => simp [linksLoop] at h
  | succ fuel ih =>
    cases next with
    | none => exact h
    | some a =>
      unfold linksLoop at h ⊢
      split at h
      · next hseen => rw [if_pos hseen, h]
      next hnew =>
      rw [if_neg hnew]
      split at h
      · exact h
      · dsimp only at h ⊢
        split at h
        · next hfull => rw [if_pos hfull, h]
        · next hroom =>
          rw [if_neg hroom]
          exact ih h

theorem linksLoop_ends (held : HeldManifests) (max : Option Nat) (base : KnownPlans)
    (hbase : ∀ p m, base.lookup p = some m → held.manifests.lookup p = some m)
    (hmax : ∀ n ∈ max, 0 < n) (start : Option PlanId) :
    ∃ visited rest truncated, ∃ known' : KnownPlans, ∃ steps,
      (∀ fuel, steps ≤ fuel → linksLoop held.reads max fuel ⟨[], false⟩ [] base start =
        some (.ok (⟨visited.map fun p => (p, held.manifests.lookup p), truncated⟩, known'))) ∧
      Chase.Trail held.link start visited rest ∧ (∀ n ∈ max, visited.length ≤ n) ∧
      (truncated = true ↔ max = some visited.length ∧ rest.isSome) ∧
      (max = some visited.length ∨ ∀ p, rest = some p → p ∈ visited) ∧
      ∀ p, known'.lookup p = if p ∈ visited then none else base.lookup p := by
  have hpresent : ∀ a b, held.link a = some b → a ∈ held.manifests.keys := by
    intro a b hlink
    obtain ⟨m, hm, -⟩ := Option.bind_eq_some_iff.mp hlink
    exact FileTree.mem_keys_iff.mpr (hm ▸ rfl)
  obtain ⟨⟨visited, truncated⟩, hfollow⟩ := Option.isSome_iff_exists.mp
    (Chase.follow_ends max [] start hpresent (Nat.le_refl _))
  generalize (held.manifests.keys.filter (· ∉ [])).length + 2 = steps at hfollow
  have hroom : ∀ n ∈ max, ([] : List PlanId).length < n := hmax
  obtain ⟨rest, htrail, hlength, hflag, hstop⟩ := Chase.follow_trail hroom .nil hfollow
  obtain ⟨known', hloop, hknown⟩ := linksLoop_eq base hbase (by simp) hfollow
  refine ⟨visited, rest, truncated, known', steps, fun fuel hfuel => ?_, htrail, hlength, hflag, hstop,
    hknown⟩
  induction hfuel with
  | refl => exact hloop
  | step _ ih => exact linksLoop_mono ih

theorem links_eq {order : HashOrder} {campaign : Campaign} {chain : ChainLinks}
    (h : linksLoop held.reads max fuel ⟨[], false⟩ []
      (collectPlans ((held.listed campaign.campaignId).getD [])) campaign.currentPlanId =
        some (.ok (chain, known))) :
    links order held.reads fuel campaign max =
      some (.ok (chain, order.visit (known.entries.map (·.2)))) := by
  have hread : held.reads.getCampaignPlans campaign.campaignId =
      .ok (held.listed campaign.campaignId) := rfl
  simp only [links, hread, h]
  rfl

theorem map_planId_values (h : ∀ p m, known.lookup p = some m → m.planId = p) :
    (known.entries.map (·.2)).map (·.planId) = known.keys := by
  rw [List.map_map]
  refine List.map_congr_left fun e he => ?_
  exact h e.1 e.2 (AList.mem_lookup_iff.mpr he)

theorem mem_values (h : ∀ p m, known.lookup p = some m → m.planId = p) {m : LinkedManifest} :
    m ∈ known.entries.map (·.2) ↔ known.lookup m.planId = some m := by
  refine ⟨fun hm => ?_, fun hm => List.mem_map.mpr ⟨⟨_, m⟩, AList.mem_lookup_iff.mp hm, rfl⟩⟩
  obtain ⟨e, he, rfl⟩ := List.mem_map.mp hm
  have hlookup : known.lookup e.1 = some e.2 := AList.mem_lookup_iff.mpr he
  rwa [h _ _ hlookup]

theorem map_planId_filterMap (held : HeldManifests) (visited : List PlanId) :
    (visited.filterMap held.manifests.lookup).map (·.planId) =
      visited.filter fun p => (held.manifests.lookup p).isSome := by
  induction visited with
  | nil => rfl
  | cons p rest ih =>
    cases hp : held.manifests.lookup p with
    | none => simp [hp, ih]
    | some m => simp [hp, ih, held.named p m hp]

end Loop

/-- For any links between any manifests a walk ends and meets no plan twice. It follows the links from
the head until there is none or one leads back, or up to its ceiling, and is truncated when a link is
left there. `everyPlan` has each plan that the head leads to or the store lists, once. -/
theorem campaign_walk_ends (order : HashOrder) (held : HeldManifests) (campaign : Campaign) :
    ∃ chain plans steps,
      (∀ fuel, steps ≤ fuel → walk order held.reads fuel campaign = some (.ok chain) ∧
        everyPlan order held.reads fuel campaign = some (.ok plans)) ∧
      chain.plans.Nodup ∧ chain.plans.length ≤ chainMax ∧
      (∃ rest, Chase.Trail held.link campaign.currentPlanId chain.plans rest ∧
        (chain.plans.length = chainMax ∨ ∀ p, rest = some p → p ∈ chain.plans)) ∧
      (chain.truncated = true ↔ chain.plans.length = chainMax ∧
        ∃ p ∈ chain.plans.getLast?, (held.link p).isSome) ∧
      (plans.map (·.planId)).Nodup ∧
      ∀ m, m ∈ plans ↔ held.manifests.lookup m.planId = some m ∧
        (Chase.Reached held.link campaign.currentPlanId m.planId ∨
          m ∈ (held.listed campaign.campaignId).getD []) := by
  have hlisted : ∀ m ∈ (held.listed campaign.campaignId).getD [],
      held.manifests.lookup m.planId = some m := by
    cases hl : held.listed campaign.campaignId with
    | none => simp
    | some l => exact held.held _ l hl
  have hlookup := lookup_collectPlans hlisted
  have hbase : ∀ p m, (collectPlans ((held.listed campaign.campaignId).getD [])).lookup p = some m →
      held.manifests.lookup p = some m := by
    intro p m h
    obtain ⟨hm, rfl⟩ := (hlookup p m).mp h
    exact hlisted m hm
  obtain ⟨visited, rest, truncated, known, steps, hloop, htrail, hlength, hflag, hend, -⟩ :=
    linksLoop_ends held (some chainMax) _ hbase (by simp [chainMax]) campaign.currentPlanId
  obtain ⟨reached, rest', flag, left, steps', hloop', htrail', -, -, hstop, hleft⟩ :=
    linksLoop_ends held none _ hbase (by simp) campaign.currentPlanId
  have hnamed : ∀ p m, left.lookup p = some m → m.planId = p := by
    intro p m h
    rw [hleft] at h
    split at h
    · cases h
    · exact ((hlookup p m).mp h).2
  have hperm := order.perm (left.entries.map (·.2))
  have hlast : chainMax = visited.length →
      (rest.isSome ↔ ∃ p ∈ visited.getLast?, (held.link p).isSome) := by
    intro hlen
    cases hp : visited.getLast? with
    | none =>
      rw [List.getLast?_eq_none_iff] at hp
      simp [hp, chainMax] at hlen
    | some p => simp [htrail.next_eq hp]
  refine ⟨⟨visited, truncated⟩, reached.filterMap held.manifests.lookup ++
    order.visit (left.entries.map (·.2)), Nat.max steps steps', fun fuel hfuel => ⟨?_, ?_⟩,
    htrail.nodup, hlength _ rfl, ⟨rest, htrail, hend.imp_left fun h => (Option.some.inj h).symm⟩, ?_,
    ?_, fun m => ?_⟩
  · simp [walk, walkLinks, links_eq (hloop fuel (le_trans (Nat.le_max_left ..) hfuel)),
      Except.map, Function.comp_def]
  · simp [everyPlan, links_eq (hloop' fuel (le_trans (Nat.le_max_right ..) hfuel)),
      Except.map, List.filterMap_map]
  · rw [hflag, Option.some.injEq]
    refine ⟨fun h => ⟨h.1.symm, (hlast h.1).mp h.2⟩, fun h => ⟨h.1.symm, (hlast h.1.symm).mpr h.2⟩⟩
  · rw [List.map_append, map_planId_filterMap, List.nodup_append]
    refine ⟨htrail'.nodup.filter _, ?_, ?_⟩
    · rw [(hperm.map _).nodup_iff, map_planId_values hnamed]
      exact left.keys_nodup
    · rintro p hp q hq rfl
      rw [(hperm.map _).mem_iff, map_planId_values hnamed, FileTree.mem_keys_iff, hleft,
        if_pos (List.mem_filter.mp hp).1] at hq
      cases hq
  · have hreached : m.planId ∈ reached ↔
        Chase.Reached held.link campaign.currentPlanId m.planId :=
      ⟨htrail'.reached.1 _, htrail'.mem_of_reached (hstop.resolve_left (by simp))⟩
    have hmet : m ∈ reached.filterMap held.manifests.lookup ↔
        m.planId ∈ reached ∧ held.manifests.lookup m.planId = some m := by
      rw [List.mem_filterMap]
      refine ⟨fun ⟨p, hp, hm⟩ => ?_, fun ⟨hp, hm⟩ => ⟨_, hp, hm⟩⟩
      cases held.named p m hm
      exact ⟨hp, hm⟩
    have hoff : m ∈ order.visit (left.entries.map (·.2)) ↔ m.planId ∉ reached ∧
        m ∈ (held.listed campaign.campaignId).getD [] := by
      rw [hperm.mem_iff, mem_values hnamed, hleft]
      by_cases hp : m.planId ∈ reached
      · simp [hp]
      · simp [hp, hlookup]
    rw [List.mem_append, hmet, hoff, ← hreached]
    by_cases hp : m.planId ∈ reached
    · simp [hp]
    · simp only [hp, false_and, not_false_eq_true, true_and, false_or]
      exact ⟨fun h => ⟨hlisted m h, h⟩, fun h => h.2⟩

def linkedPlan (p previous : String) : LinkedManifest where
  planId := ⟨p⟩
  status := .complete
  createdAt := 0
  jobIds := []
  expiredJobs := ∅
  settledJobs := ∅
  progressSnapshot := none
  terminalAt := none
  campaignId := none
  submittedBy := none
  previousPlanId := some ⟨previous⟩

/-- "a" and "b" lead to each other, "c" leads to a plan without a manifest, and both campaigns list
"d" as well. -/
def tangledPlans : HeldManifests where
  manifests := ⟨[⟨⟨"a"⟩, linkedPlan "a" "b"⟩, ⟨⟨"b"⟩, linkedPlan "b" "a"⟩,
    ⟨⟨"c"⟩, linkedPlan "c" "gone"⟩, ⟨⟨"d"⟩, linkedPlan "d" "c"⟩], by simp [List.NodupKeys]⟩
  named := by
    intro p m h
    obtain h | h | h | h : _ ∨ _ ∨ _ ∨ _ := by simpa using AList.mem_lookup_iff.mp h
    all_goals
      obtain ⟨rfl, h⟩ := h
      cases h
      rfl
  listed _ := some [linkedPlan "b" "a", linkedPlan "d" "c"]
  held := by
    rintro c _ ⟨⟩ m hm
    obtain rfl | rfl : m = linkedPlan "b" "a" ∨ m = linkedPlan "d" "c" := by simpa using hm
    · rfl
    · rfl

theorem campaign_walk_ends_tangled :
    (∃ chain plans steps, (∀ fuel, steps ≤ fuel →
        walk filledOrder tangledPlans.reads fuel ⟨⟨"k"⟩, some ⟨"a"⟩⟩ = some (.ok chain) ∧
        everyPlan filledOrder tangledPlans.reads fuel ⟨⟨"k"⟩, some ⟨"a"⟩⟩ = some (.ok plans)) ∧
      chain = ⟨[⟨"a"⟩, ⟨"b"⟩], false⟩ ∧ plans.map (·.planId) = [⟨"a"⟩, ⟨"b"⟩, ⟨"d"⟩]) ∧
    ∃ chain plans steps, (∀ fuel, steps ≤ fuel →
        walk filledOrder tangledPlans.reads fuel ⟨⟨"k"⟩, some ⟨"c"⟩⟩ = some (.ok chain) ∧
        everyPlan filledOrder tangledPlans.reads fuel ⟨⟨"k"⟩, some ⟨"c"⟩⟩ = some (.ok plans)) ∧
      chain = ⟨[⟨"c"⟩, ⟨"gone"⟩], false⟩ ∧ plans.map (·.planId) = [⟨"c"⟩, ⟨"d"⟩, ⟨"b"⟩] := by
  constructor
  · obtain ⟨chain, plans, steps, hends, -⟩ :=
      campaign_walk_ends filledOrder tangledPlans ⟨⟨"k"⟩, some ⟨"a"⟩⟩
    obtain ⟨hwalk, hevery⟩ := hends (steps + 5) (by omega)
    refine ⟨chain, plans, steps, hends, ?_, ?_⟩
    · cases hwalk
      rfl
    · cases hevery
      rfl
  · obtain ⟨chain, plans, steps, hends, -⟩ :=
      campaign_walk_ends filledOrder tangledPlans ⟨⟨"k"⟩, some ⟨"c"⟩⟩
    obtain ⟨hwalk, hevery⟩ := hends (steps + 5) (by omega)
    refine ⟨chain, plans, steps, hends, ?_, ?_⟩
    · cases hwalk
      rfl
    · cases hevery
      rfl

end Pipette
