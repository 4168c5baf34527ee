import Mathlib.Data.Finset.Powerset
import Pipette.Core.Client

/-! Job to client eligibility: the clauses of a job body, the match the scheduler runs, the
static proof that nothing can match, and the check that a finished run answers a new body. -/
namespace Pipette

structure FleetRights where
  sets : List (ClientId × Finset ClientPermission)

namespace FleetRights

def holdsPerformWork (rights : FleetRights) (clientId : ClientId) : Bool :=
  (rights.sets.lookup clientId).any fun set => decide (ClientPermission.performWork ∈ set)

def admits (rights : FleetRights) (client : Client) : Bool :=
  decide (client.status = .approved) && rights.holdsPerformWork client.clientId

def workers (rights : FleetRights) (fleet : List Client) : List Client :=
  fleet.filter rights.admits

end FleetRights

structure FleetTags where
  markers : List (ClientId × Tag)

namespace FleetTags

def tagsOf (tags : FleetTags) (clientId : ClientId) : Finset Tag :=
  ((tags.markers.filter fun marker => marker.1 = clientId).map Prod.snd).toFinset

/-- A job's view of a client. A `tag:` flag the client reported itself counts for nothing. -/
def capabilitiesOf (tags : FleetTags) (client : Client) : Finset String :=
  (client.effectiveCapabilities.filter fun flag => !isTagCapability flag) ∪
    (tags.tagsOf client.clientId).image tagFlag

end FleetTags

def flagSet (flags : List Json) : Option (Finset String) :=
  (flags.mapM Json.asStr).map List.toFinset

/-- An absent field is the empty set, a malformed one is `none`. -/
def flagField (jobBody : Json) (field : String) : Option (Finset String) :=
  match jobBody.get field with
  | none => some ∅
  | some flags => flags.asArray.bind flagSet

def jobRequires (jobBody : Json) : Option (Finset String) :=
  (jobBody.get "requires").bind fun flags => flags.asArray.bind flagSet

def jobExcludes (jobBody : Json) : Option (Finset String) := flagField jobBody "excludes"

def jobExcludeClients (jobBody : Json) : Option (Finset String) :=
  flagField jobBody "exclude_clients"

def flagGroups (jobBody : Json) (field : String) : Option (List (Finset String)) :=
  match jobBody.get field with
  | none => some []
  | some groups => groups.asArray.bind fun items =>
    items.mapM fun group => group.asArray.bind flagSet

def jobAnyOf (jobBody : Json) : Option (List (Finset String)) := flagGroups jobBody "any_of"

def jobNotAllOf (jobBody : Json) : Option (List (Finset String)) :=
  flagGroups jobBody "not_all_of"

def requiredFlags (body : Json) : Option (Finset String) := flagField body "required_flags"

def clientListed (jobBody : Json) (clientId : ClientId) : Bool :=
  ((jobBody.get "clients").bind Json.asArray).any fun ids =>
    ids.any fun v => v.asStr = some clientId.raw

/-- Every flag of `requires` and one flag of each `any_of` group; an empty `requires`
matches no device. -/
def capabilitiesSatisfy (requires : Finset String) (anyOf : List (Finset String))
    (flags : Finset String) : Bool :=
  decide (requires ≠ ∅) && decide (requires ⊆ flags) &&
    anyOf.all fun group => decide (¬ Disjoint group flags)

structure Clauses where
  requires : Finset String
  excludes : Finset String
  excludeClients : Finset String
  anyOf : List (Finset String)
  notAllOf : List (Finset String)
deriving DecidableEq

namespace Clauses

def parse (jobBody : Json) : Option Clauses := do
  let requires ← match jobBody.get "requires" with
    | none => some ∅
    | some _ => jobRequires jobBody
  let excludes ← jobExcludes jobBody
  let excludeClients ← jobExcludeClients jobBody
  let anyOf ← jobAnyOf jobBody
  let notAllOf ← jobNotAllOf jobBody
  return { requires, excludes, excludeClients, anyOf, notAllOf }

def excludesClient (clauses : Clauses) (clientId : ClientId) (capabilities : Finset String) :
    Bool :=
  decide (clientId.raw ∈ clauses.excludeClients) ||
    decide (¬ Disjoint clauses.excludes capabilities) ||
    clauses.notAllOf.any fun group => decide (group ⊆ capabilities)

def admits (clauses : Clauses) (jobBody : Json) (clientId : ClientId)
    (capabilities : Finset String) : Bool :=
  !clauses.excludesClient clientId capabilities &&
    (clientListed jobBody clientId ||
      capabilitiesSatisfy clauses.requires clauses.anyOf capabilities)

def effectiveRoster (clauses : Clauses) (jobBody : Json) : List String :=
  ((((jobBody.get "clients").bind Json.asArray).getD []).filterMap Json.asStr).filter
    fun id => id ∉ clauses.excludeClients

def effectiveRosterEmpty (clauses : Clauses) (jobBody : Json) : Bool :=
  (clauses.effectiveRoster jobBody).isEmpty

def capabilityBranchReason (clauses : Clauses) : Option String :=
  if clauses.requires = ∅ then
    some "`requires` is empty, so the capability path matches nobody"
  else if ¬ Disjoint clauses.requires clauses.excludes then
    some "`excludes` names a flag `requires` demands"
  else if clauses.notAllOf.any fun group => decide (group ⊆ clauses.requires) then
    some "a `not_all_of` group holds only flags `requires` demands"
  else if clauses.anyOf.any fun group => decide (group = ∅) then
    some "an `any_of` group is empty, so nothing satisfies it"
  else if clauses.anyOf.any fun group => decide (group ⊆ clauses.excludes) then
    some "`excludes` covers every member of an `any_of` group"
  else none

end Clauses

def jobMatchesClient (jobBody : Json) (client : Client) (tags : FleetTags) : Bool :=
  (Clauses.parse jobBody).any fun clauses =>
    clauses.admits jobBody client.clientId (tags.capabilitiesOf client)

def capabilityClausesMalformed (jobBody : Json) : Bool := (Clauses.parse jobBody).isNone

def clientsOnlyRoster (jobBody : Json) : Option (List String) := do
  let clauses ← Clauses.parse jobBody
  let roster := clauses.effectiveRoster jobBody
  if roster ≠ [] ∧ clauses.requires = ∅ then some roster else none

def deadRosterReason (jobBody : Json) : String :=
  let namesNoId := match jobBody.get "clients" with
    | none => false
    | some (.arr ids) => !ids.isEmpty && !ids.any Json.isString
    | some _ => true
  if namesNoId then "the `clients` value is not an array of client ids"
  else "the `clients` roster is empty or wholly excluded"

def unmatchableReason (jobBody : Json) : Option String := do
  let clauses ← Clauses.parse jobBody
  if clauses.notAllOf.any fun group => decide (group = ∅) then
    some "an empty `not_all_of` group excludes every client, whatever its id or flags"
  else
    let branch ← if clauses.effectiveRosterEmpty jobBody then clauses.capabilityBranchReason
      else none
    some (deadRosterReason jobBody ++ ", and " ++ branch)

theorem capabilitiesSatisfy_iff {requires : Finset String} {anyOf : List (Finset String)}
    {flags : Finset String} :
    capabilitiesSatisfy requires anyOf flags = true ↔
      requires ≠ ∅ ∧ requires ⊆ flags ∧ ∀ group ∈ anyOf, ¬ Disjoint group flags := by
  simp [capabilitiesSatisfy, and_assoc]

theorem clientListed_iff {jobBody : Json} {clientId : ClientId} :
    clientListed jobBody clientId = true ↔
      ∃ ids, jobBody.get "clients" = some (.arr ids) ∧ Json.str clientId.raw ∈ ids := by
  cases h : jobBody.get "clients" with
  | none => simp [clientListed, h]
  | some v => cases v <;> simp [clientListed, h, Json.asArray, Json.asStr_eq_some]

namespace Clauses

theorem excludesClient_eq_false_iff {clauses : Clauses} {clientId : ClientId}
    {capabilities : Finset String} :
    clauses.excludesClient clientId capabilities = false ↔
      clientId.raw ∉ clauses.excludeClients ∧ Disjoint clauses.excludes capabilities ∧
        ∀ group ∈ clauses.notAllOf, ¬ group ⊆ capabilities := by
  simp [excludesClient, and_assoc]

theorem admits_iff {clauses : Clauses} {jobBody : Json} {clientId : ClientId}
    {capabilities : Finset String} :
    clauses.admits jobBody clientId capabilities = true ↔
      clauses.excludesClient clientId capabilities = false ∧
        (clientListed jobBody clientId = true ∨
          capabilitiesSatisfy clauses.requires clauses.anyOf capabilities = true) := by
  simp [admits]

theorem mem_effectiveRoster {clauses : Clauses} {jobBody : Json} {id : String} :
    id ∈ clauses.effectiveRoster jobBody ↔
      (∃ ids, jobBody.get "clients" = some (.arr ids) ∧ Json.str id ∈ ids) ∧
        id ∉ clauses.excludeClients := by
  cases h : jobBody.get "clients" with
  | none => simp [effectiveRoster, h]
  | some v => cases v <;> simp [effectiveRoster, h, Json.asArray, Json.asStr_eq_some]

theorem clientListed_eq_false {clauses : Clauses} {jobBody : Json} {clientId : ClientId}
    (hempty : clauses.effectiveRosterEmpty jobBody = true)
    (hid : clientId.raw ∉ clauses.excludeClients) : clientListed jobBody clientId = false := by
  by_contra h
  have hlisted := clientListed_iff.mp (Bool.eq_true_of_not_eq_false h)
  have hmem : clientId.raw ∈ clauses.effectiveRoster jobBody :=
    mem_effectiveRoster.mpr ⟨hlisted, hid⟩
  rw [List.isEmpty_iff.mp hempty] at hmem
  exact List.not_mem_nil hmem

theorem capabilityBranchReason_sound {clauses : Clauses} {reason : String}
    {capabilities : Finset String} (h : clauses.capabilityBranchReason = some reason)
    (hexcludes : Disjoint clauses.excludes capabilities)
    (hgroups : ∀ group ∈ clauses.notAllOf, ¬ group ⊆ capabilities) :
    capabilitiesSatisfy clauses.requires clauses.anyOf capabilities = false := by
  by_contra hs
  obtain ⟨hne, hreq, hany⟩ := capabilitiesSatisfy_iff.mp (Bool.eq_true_of_not_eq_false hs)
  unfold capabilityBranchReason at h
  split at h
  · exact hne ‹_›
  split at h
  · rename_i hmeet
    exact hmeet (hexcludes.symm.mono_left hreq)
  split at h
  · rename_i hwithin
    obtain ⟨group, hgroup, hsub⟩ := List.any_eq_true.mp hwithin
    exact hgroups group hgroup ((of_decide_eq_true hsub).trans hreq)
  split at h
  · rename_i hnil
    obtain ⟨group, hgroup, hnil⟩ := List.any_eq_true.mp hnil
    refine hany group hgroup ?_
    rw [of_decide_eq_true hnil]
    exact Finset.disjoint_empty_left _
  split at h
  · rename_i hcovered
    obtain ⟨group, hgroup, hsub⟩ := List.any_eq_true.mp hcovered
    exact hany group hgroup (hexcludes.mono_left (of_decide_eq_true hsub))
  · cases h

end Clauses

theorem unmatchableReason_cases {jobBody : Json} {reason : String}
    (h : unmatchableReason jobBody = some reason) :
    ∃ clauses, Clauses.parse jobBody = some clauses ∧
      ((∅ : Finset String) ∈ clauses.notAllOf ∨
        clauses.effectiveRosterEmpty jobBody = true ∧
          ∃ branch, clauses.capabilityBranchReason = some branch) := by
  unfold unmatchableReason at h
  obtain ⟨clauses, hparse, h⟩ := Option.bind_eq_some_iff.mp h
  refine ⟨clauses, hparse, ?_⟩
  split_ifs at h with hnil hroster
  · left
    simpa using hnil
  · obtain ⟨branch, hbranch, -⟩ := Option.bind_eq_some_iff.mp h
    exact Or.inr ⟨hroster, branch, hbranch⟩
  · cases h

theorem jobMatchesClient_eq_false {jobBody : Json} {clauses : Clauses}
    (hparse : Clauses.parse jobBody = some clauses) {client : Client} {tags : FleetTags}
    (h : clauses.admits jobBody client.clientId (tags.capabilitiesOf client) = false) :
    jobMatchesClient jobBody client tags = false := by
  simp [jobMatchesClient, hparse, h]

/-- A reason given for a body rules out every client, whatever flags it holds and whatever
tags it is given. -/
theorem unmatchableReason_sound (jobBody : Json) (reason : String)
    (h : unmatchableReason jobBody = some reason) :
    (∀ (client : Client) (tags : FleetTags), jobMatchesClient jobBody client tags = false) ∧
      ∀ clauses, Clauses.parse jobBody = some clauses →
        ∀ (clientId : ClientId) (capabilities : Finset String),
          clauses.admits jobBody clientId capabilities = false := by
  obtain ⟨clauses, hparse, hcases⟩ := unmatchableReason_cases h
  have hclosed : ∀ (clientId : ClientId) (capabilities : Finset String),
      clauses.admits jobBody clientId capabilities = false := by
    intro clientId capabilities
    by_contra hclosed
    obtain ⟨hex, hor⟩ := Clauses.admits_iff.mp (Bool.eq_true_of_not_eq_false hclosed)
    obtain ⟨hid, hexcludes, hgroups⟩ := Clauses.excludesClient_eq_false_iff.mp hex
    rcases hcases with hnil | ⟨hroster, branch, hbranch⟩
    · exact hgroups ∅ hnil (Finset.empty_subset _)
    · rw [Clauses.clientListed_eq_false hroster hid,
        Clauses.capabilityBranchReason_sound hbranch hexcludes hgroups] at hor
      simp at hor
  refine ⟨fun client tags => jobMatchesClient_eq_false hparse (hclosed _ _), ?_⟩
  intro clauses' hparse'
  rw [hparse, Option.some.injEq] at hparse'
  rw [← hparse']
  exact hclosed

def contradictoryBody : Json :=
  .obj [("requires", .arr [.str "os:ios"]), ("excludes", .arr [.str "os:ios"])]

theorem unmatchableReason_sound_excluded :
    unmatchableReason contradictoryBody = some ("the `clients` roster is empty or wholly excluded, " ++
        "and `excludes` names a flag `requires` demands") ∧
      ∀ (client : Client) (tags : FleetTags),
        jobMatchesClient contradictoryBody client tags = false := by
  have hreason : unmatchableReason contradictoryBody =
      some ("the `clients` roster is empty or wholly excluded, " ++
        "and `excludes` names a flag `requires` demands") := by
    decide
  exact ⟨hreason, (unmatchableReason_sound contradictoryBody _ hreason).1⟩

end Pipette
