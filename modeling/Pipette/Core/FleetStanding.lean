import Mathlib.Data.List.Dedup
import Pipette.Core.Matching
import Pipette.Lib.Assoc

/-! How a job that nobody takes stands against the fleet: the ladder of its clauses, and the standing
of its roster. -/
namespace Pipette

structure NarrowingClauses where
  clients : List String := []
  excludeClients : List String := []
  requires : List String := []
  excludes : List String := []
  anyOf : List (List String) := []
  notAllOf : List (List String) := []
deriving DecidableEq, Repr

/-- These clauses as a job body, so that the match itself answers a question about them. -/
def NarrowingClauses.body (clauses : NarrowingClauses) : Json :=
  .obj [("clients", Json.strArray clauses.clients),
    ("exclude_clients", Json.strArray clauses.excludeClients),
    ("requires", Json.strArray clauses.requires),
    ("any_of", Json.strGroups clauses.anyOf),
    ("excludes", Json.strArray clauses.excludes),
    ("not_all_of", Json.strGroups clauses.notAllOf)]

structure NarrowingRung where
  clause : String
  survivingClientCount : Nat
deriving DecidableEq, Repr

def flagsLabel (flags : List String) : String := String.intercalate ", " flags

def groupsLabel (groups : List (List String)) : String :=
  String.intercalate " & " (groups.map fun group => "[" ++ flagsLabel group ++ "]")

def survivingClients (clients : List Client) (tags : FleetTags) (body : Json) : Nat :=
  (clients.filter fun client => jobMatchesClient body client tags).length

structure Ladder where
  rungs : List NarrowingRung
  above : NarrowingClauses

def Ladder.step (ladder : Ladder) (clients : List Client) (tags : FleetTags) (isEmpty : Bool)
    (clause : String) (widened : NarrowingClauses) : Ladder :=
  if isEmpty then ladder
  else ⟨ladder.rungs ++ [⟨clause, survivingClients clients tags widened.body⟩], widened⟩

def Ladder.start (clauses : NarrowingClauses) (clients : List Client) (tags : FleetTags) : Ladder :=
  let admittedIds :=
    (clients.filter fun client => client.clientId.raw ∉ clauses.excludeClients).length
  let lead := if clauses.excludeClients.isEmpty then []
    else [⟨"exclude_clients " ++ flagsLabel clauses.excludeClients, admittedIds⟩]
  let above : NarrowingClauses :=
    { excludeClients := clauses.excludeClients, requires := clauses.requires }
  ⟨lead ++ [⟨"requires " ++ flagsLabel clauses.requires, survivingClients clients tags above.body⟩],
    above⟩

/-- Narrow the clients one clause at a time. The roster stays out, and an empty `requires` has no
ladder. -/
def narrowFleet (clauses : NarrowingClauses) (clients : List Client) (tags : FleetTags) :
    List NarrowingRung :=
  if clauses.requires.isEmpty then []
  else
    let ladder := Ladder.start clauses clients tags
    let ladder := ladder.step clients tags clauses.excludes.isEmpty
      ("excludes " ++ flagsLabel clauses.excludes) { ladder.above with excludes := clauses.excludes }
    let ladder := ladder.step clients tags clauses.anyOf.isEmpty
      ("any_of " ++ groupsLabel clauses.anyOf) { ladder.above with anyOf := clauses.anyOf }
    let ladder := ladder.step clients tags clauses.notAllOf.isEmpty
      ("not_all_of " ++ groupsLabel clauses.notAllOf)
      { ladder.above with notAllOf := clauses.notAllOf }
    ladder.rungs

structure RosterStanding where
  listed : Nat
  registered : Nat
  approved : Nat
  working : Nat
  eligible : Nat
deriving DecidableEq, Repr

def clientById (fleet : List Client) (id : String) : Option Client :=
  fleet.reverse.find? fun client => client.clientId.raw = id

/-- How the roster of a job with no `requires` stands against the fleet; an id counts once. -/
def rosterStanding (clauses : NarrowingClauses) (fleet : List Client) (rights : FleetRights)
    (tags : FleetTags) : RosterStanding :=
  let listed := clauses.clients.dedup
  let registered := listed.filterMap (clientById fleet)
  let approved := registered.filter fun client => client.status = .approved
  let working := approved.filter fun client => rights.holdsPerformWork client.clientId
  let body := NarrowingClauses.body
    { clients := clauses.clients
      excludeClients := clauses.excludeClients
      excludes := clauses.excludes
      notAllOf := clauses.notAllOf }
  { listed := listed.length
    registered := registered.length
    approved := approved.length
    working := working.length
    eligible := survivingClients working tags body }

section Body

variable {clauses : NarrowingClauses} {client : Client} {tags : FleetTags}

theorem flagSet_map_str (flags : List String) : flagSet (flags.map .str) = some flags.toFinset := by
  have hall : (flags.map Json.str).mapM Json.asStr = some flags := by
    induction flags with
    | nil => rfl
    | cons flag rest ih => simp [List.mapM_cons, ih, Json.asStr]
  rw [flagSet, hall]
  rfl

theorem flagGroups_map (groups : List (List String)) :
    ((groups.map Json.strArray).mapM fun group => group.asArray.bind flagSet) =
      some (groups.map List.toFinset) := by
  induction groups with
  | nil => rfl
  | cons group rest ih =>
    have hgroup : ((Json.strArray group).asArray.bind flagSet) = some group.toFinset :=
      flagSet_map_str group
    simp [List.mapM_cons, ih, hgroup]

theorem NarrowingClauses.parse_body (clauses : NarrowingClauses) :
    Clauses.parse clauses.body = some
      { requires := clauses.requires.toFinset
        excludes := clauses.excludes.toFinset
        excludeClients := clauses.excludeClients.toFinset
        anyOf := clauses.anyOf.map List.toFinset
        notAllOf := clauses.notAllOf.map List.toFinset } := by
  have hflags : ∀ flags, (Json.strArray flags).asArray.bind flagSet = some flags.toFinset :=
    flagSet_map_str
  have hgroups : ∀ groups, ((Json.strGroups groups).asArray.bind fun items =>
      items.mapM fun group => group.asArray.bind flagSet) = some (groups.map List.toFinset) :=
    flagGroups_map
  have hrequires : clauses.body.get "requires" = some (Json.strArray clauses.requires) := rfl
  have hexcludes : clauses.body.get "excludes" = some (Json.strArray clauses.excludes) := rfl
  have hids : clauses.body.get "exclude_clients" = some (Json.strArray clauses.excludeClients) := rfl
  have hany : clauses.body.get "any_of" = some (Json.strGroups clauses.anyOf) := rfl
  have hall : clauses.body.get "not_all_of" = some (Json.strGroups clauses.notAllOf) := rfl
  simp [Clauses.parse, jobRequires, jobExcludes, jobExcludeClients, jobAnyOf, jobNotAllOf,
    flagField, flagGroups, hrequires, hexcludes, hids, hany, hall, hflags, hgroups]

theorem NarrowingClauses.clientListed_body :
    clientListed clauses.body client.clientId = true ↔ client.clientId.raw ∈ clauses.clients := by
  have hclients : clauses.body.get "clients" = some (.arr (clauses.clients.map .str)) := rfl
  simp [clientListed_iff, hclients]

theorem jobMatchesClient_body :
    jobMatchesClient clauses.body client tags = true ↔
      (client.clientId.raw ∉ clauses.excludeClients ∧
        (∀ flag ∈ clauses.excludes, flag ∉ tags.capabilitiesOf client) ∧
        ∀ group ∈ clauses.notAllOf, ∃ flag ∈ group, flag ∉ tags.capabilitiesOf client) ∧
      (client.clientId.raw ∈ clauses.clients ∨ clauses.requires ≠ [] ∧
        (∀ flag ∈ clauses.requires, flag ∈ tags.capabilitiesOf client) ∧
        ∀ group ∈ clauses.anyOf, ∃ flag ∈ group, flag ∈ tags.capabilitiesOf client) := by
  rw [jobMatchesClient, clauses.parse_body, Option.any_some, Clauses.admits_iff,
    Clauses.excludesClient_eq_false_iff, capabilitiesSatisfy_iff,
    NarrowingClauses.clientListed_body]
  simp only [List.mem_toFinset, List.forall_mem_map, Finset.disjoint_left, Finset.subset_iff,
    ne_eq, List.toFinset_eq_empty_iff, not_forall, not_not, exists_prop]

end Body

section Ladder

variable {clauses clauses' : NarrowingClauses} {clients : List Client} {tags : FleetTags}

theorem survivingClients_le {body body' : Json}
    (h : ∀ client, jobMatchesClient body' client tags = true →
      jobMatchesClient body client tags = true) :
    survivingClients clients tags body' ≤ survivingClients clients tags body := by
  simp only [survivingClients, ← List.countP_eq_length_filter]
  exact List.countP_mono_left fun client _ => h client

theorem jobMatchesClient_mono (hclients : clauses.clients = clauses'.clients)
    (hids : clauses.excludeClients = clauses'.excludeClients)
    (hrequires : clauses.requires = clauses'.requires) (hexcludes : clauses.excludes ⊆ clauses'.excludes)
    (hany : clauses.anyOf ⊆ clauses'.anyOf) (hall : clauses.notAllOf ⊆ clauses'.notAllOf)
    (client : Client) (h : jobMatchesClient clauses'.body client tags = true) :
    jobMatchesClient clauses.body client tags = true := by
  rw [jobMatchesClient_body] at h ⊢
  rw [hclients, hids, hrequires]
  obtain ⟨⟨hid, hflags, hgroups⟩, hadmit⟩ := h
  refine ⟨⟨hid, fun flag hflag => hflags flag (hexcludes hflag),
    fun group hgroup => hgroups group (hall hgroup)⟩, hadmit.imp_right ?_⟩
  exact fun ⟨hne, hhas, hgroups⟩ => ⟨hne, hhas, fun group hgroup => hgroups group (hany hgroup)⟩

structure Ladder.Sound (clients : List Client) (tags : FleetTags) (ladder : Ladder) : Prop where
  antitone : (ladder.rungs.map (·.survivingClientCount)).Pairwise (· ≥ ·)
  last : ∃ init rung, ladder.rungs = init ++ [rung] ∧
    rung.survivingClientCount = survivingClients clients tags ladder.above.body

theorem Ladder.Sound.step {ladder : Ladder} (h : ladder.Sound clients tags) (isEmpty : Bool)
    (clause : String) (widened : NarrowingClauses) (hempty : isEmpty = true → widened = ladder.above)
    (hnarrow : ∀ client, jobMatchesClient widened.body client tags = true →
      jobMatchesClient ladder.above.body client tags = true) :
    (ladder.step clients tags isEmpty clause widened).Sound clients tags ∧
      (ladder.step clients tags isEmpty clause widened).above = widened := by
  cases isEmpty with
  | true => exact ⟨h, (hempty rfl).symm⟩
  | false =>
    obtain ⟨init, rung, hrungs, hcount⟩ := h.last
    have hle : survivingClients clients tags widened.body ≤ rung.survivingClientCount :=
      hcount ▸ survivingClients_le hnarrow
    have hall := h.antitone
    rw [hrungs, List.map_append, List.pairwise_append] at hall
    refine ⟨⟨?_, ladder.rungs, _, rfl, rfl⟩, rfl⟩
    have hanti := h.antitone
    simp only [Ladder.step, Bool.false_eq_true, if_false, List.map_append, List.pairwise_append]
    refine ⟨hanti, List.pairwise_singleton _ _, fun count hmem new hnew => ?_⟩
    rw [List.mem_singleton.mp hnew]
    rw [hrungs, List.map_append, List.mem_append] at hmem
    rcases hmem with hmem | hmem
    · exact le_trans hle (hall.2.2 count hmem _ List.mem_cons_self)
    · rw [List.mem_singleton.mp hmem]
      exact hle

theorem Ladder.start_sound (clauses : NarrowingClauses) (clients : List Client) (tags : FleetTags) :
    (Ladder.start clauses clients tags).Sound clients tags := by
  refine ⟨?_, _, _, rfl, rfl⟩
  simp only [Ladder.start]
  split
  · simp
  · have hle : survivingClients clients tags (NarrowingClauses.body
        { excludeClients := clauses.excludeClients, requires := clauses.requires }) ≤
          (clients.filter fun client => client.clientId.raw ∉ clauses.excludeClients).length := by
      simp only [survivingClients, ← List.countP_eq_length_filter]
      exact List.countP_mono_left fun client _ h => by
        simpa using (jobMatchesClient_body.mp h).1.1
    simpa using hle

/-- The ladder of a job with a `requires` has a rung, and ends at all its clauses but the roster. -/
theorem narrowFleet_sound (clients : List Client) (tags : FleetTags)
    (hrequires : clauses.requires ≠ []) :
    ∃ ladder : Ladder, narrowFleet clauses clients tags = ladder.rungs ∧
      ladder.Sound clients tags ∧ ladder.above = { clauses with clients := [] } := by
  have hne : clauses.requires.isEmpty = false := by simpa using hrequires
  simp only [narrowFleet, hne, Bool.false_eq_true, if_false]
  have hstart := Ladder.start_sound clauses clients tags
  have habove : (Ladder.start clauses clients tags).above =
      { excludeClients := clauses.excludeClients, requires := clauses.requires } := rfl
  generalize Ladder.start clauses clients tags = ladder at hstart habove ⊢
  -- a clause that is empty adds no rung, and the clauses above hold it all the same
  obtain ⟨hsound, hexcludes⟩ := hstart.step clauses.excludes.isEmpty
    ("excludes " ++ flagsLabel clauses.excludes) { ladder.above with excludes := clauses.excludes }
    (by intro h; rw [List.isEmpty_iff.mp h, habove])
    (jobMatchesClient_mono rfl rfl rfl (by simp [habove]) (by simp) (by simp))
  rw [habove] at hsound hexcludes ⊢
  generalize ladder.step clients tags clauses.excludes.isEmpty _ _ = ladder' at hsound hexcludes ⊢
  obtain ⟨hsound, hany⟩ := hsound.step clauses.anyOf.isEmpty
    ("any_of " ++ groupsLabel clauses.anyOf) { ladder'.above with anyOf := clauses.anyOf }
    (by intro h; rw [List.isEmpty_iff.mp h, hexcludes])
    (jobMatchesClient_mono rfl rfl rfl (by simp) (by simp [hexcludes]) (by simp))
  rw [hexcludes] at hsound hany ⊢
  generalize ladder'.step clients tags clauses.anyOf.isEmpty _ _ = ladder'' at hsound hany ⊢
  obtain ⟨hsound, hall⟩ := hsound.step clauses.notAllOf.isEmpty
    ("not_all_of " ++ groupsLabel clauses.notAllOf)
    { ladder''.above with notAllOf := clauses.notAllOf }
    (by intro h; rw [List.isEmpty_iff.mp h, hany])
    (jobMatchesClient_mono rfl rfl rfl (by simp) (by simp) (by simp [hany]))
  refine ⟨_, rfl, hsound, ?_⟩
  rw [hall, hany]

end Ladder

section Roster

variable {fleet : List Client}

theorem clientById_eq_some (hdistinct : (fleet.map (·.clientId)).Nodup) {id : String}
    {client : Client} :
    clientById fleet id = some client ↔ client ∈ fleet ∧ client.clientId.raw = id := by
  have hraw : (fleet.reverse.map (·.clientId.raw)).Nodup := by
    rw [List.map_reverse, List.nodup_reverse]
    have hinj : Function.Injective ClientId.raw := fun a b h => by cases a; cases b; cases h; rfl
    simpa [Function.comp_def] using hdistinct.map hinj
  rw [clientById, Assoc.find?_key_eq_some hraw, List.mem_reverse]

theorem registered_perm (hdistinct : (fleet.map (·.clientId)).Nodup) (roster : List String) :
    (roster.dedup.filterMap (clientById fleet)).Perm
      (fleet.filter fun client => client.clientId.raw ∈ roster) := by
  have hroster : (roster.dedup.filterMap (clientById fleet)).Nodup := by
    refine (List.nodup_dedup roster).filterMap fun id id' client h h' => ?_
    rw [← ((clientById_eq_some hdistinct).mp h).2, ((clientById_eq_some hdistinct).mp h').2]
  rw [List.perm_ext_iff_of_nodup hroster ((List.Nodup.of_map _ hdistinct).filter _)]
  intro client
  simp [List.mem_filterMap, clientById_eq_some hdistinct, and_comm]

theorem jobMatchesClient_roster {clauses : NarrowingClauses} (hrequires : clauses.requires = [])
    (client : Client) (tags : FleetTags) :
    jobMatchesClient (NarrowingClauses.body
      { clients := clauses.clients
        excludeClients := clauses.excludeClients
        excludes := clauses.excludes
        notAllOf := clauses.notAllOf }) client tags = jobMatchesClient clauses.body client tags := by
  rw [Bool.eq_iff_iff, jobMatchesClient_body, jobMatchesClient_body]
  simp [hrequires]

end Roster

/-- What the diagnosis counts is what the match accepts. -/
theorem fleet_diagnosis_agrees (clauses : NarrowingClauses) (fleet : List Client)
    (hdistinct : (fleet.map (·.clientId)).Nodup) (rights : FleetRights) (tags : FleetTags) :
    ((narrowFleet clauses fleet tags).map (·.survivingClientCount)).Pairwise (· ≥ ·) ∧
      (clauses.requires ≠ [] → narrowFleet clauses fleet tags ≠ []) ∧
      (∀ rung ∈ (narrowFleet clauses fleet tags).getLast?, rung.survivingClientCount =
        (fleet.filter fun client =>
          jobMatchesClient { clauses with clients := [] }.body client tags).length) ∧
      (clauses.requires = [] →
        let standing := rosterStanding clauses fleet rights tags
        standing.registered ≤ standing.listed ∧ standing.approved ≤ standing.registered ∧
          standing.working ≤ standing.approved ∧ standing.eligible ≤ standing.working ∧
          standing.eligible = ((rights.workers fleet).filter fun client =>
            jobMatchesClient clauses.body client tags).length) := by
  refine ⟨?_, fun hrequires => ?_, fun rung hrung => ?_, fun hrequires => ?_⟩
  · by_cases hrequires : clauses.requires = []
    · simp [narrowFleet, hrequires]
    · obtain ⟨ladder, hladder, hsound, -⟩ := narrowFleet_sound fleet tags hrequires
      exact hladder ▸ hsound.antitone
  · obtain ⟨ladder, hladder, hsound, -⟩ := narrowFleet_sound fleet tags hrequires
    obtain ⟨init, rung, hrungs, -⟩ := hsound.last
    simp [hladder, hrungs]
  · by_cases hrequires : clauses.requires = []
    · simp [narrowFleet, hrequires] at hrung
    · obtain ⟨ladder, hladder, hsound, habove⟩ := narrowFleet_sound fleet tags hrequires
      obtain ⟨init, last, hrungs, hcount⟩ := hsound.last
      rw [hladder, hrungs, List.getLast?_concat, Option.mem_some_iff] at hrung
      rw [← hrung, hcount, habove]
      rfl
  · refine ⟨List.length_filterMap_le _ _, List.length_filter_le _ _, List.length_filter_le _ _,
      List.length_filter_le _ _, ?_⟩
    have hperm := (((registered_perm hdistinct clauses.clients).filter
      fun client => decide (client.status = .approved)).filter
        fun client => rights.holdsPerformWork client.clientId).filter
          fun client => jobMatchesClient clauses.body client tags
    have hlisted : ∀ client, jobMatchesClient clauses.body client tags = true →
        client.clientId.raw ∈ clauses.clients := by
      intro client h
      simpa [hrequires] using (jobMatchesClient_body.mp h).2
    simp only [rosterStanding, survivingClients, jobMatchesClient_roster hrequires]
    rw [hperm.length_eq, FleetRights.workers]
    simp only [List.filter_filter]
    congr 1
    refine List.filter_congr fun client _ => ?_
    by_cases hmatch : jobMatchesClient clauses.body client tags = true
    · simp [hmatch, hlisted client hmatch, FleetRights.admits, Bool.and_comm]
    · simp [hmatch]

/-- "ev1_b" runs hot, "ev1_c" has no grant, and "ev1_d" is barred by its id. -/
def fourPhones : List Client :=
  [⟨⟨"ev1_a"⟩, .approved, {}, {"accel:gpu", "build:ios"}⟩,
    ⟨⟨"ev1_b"⟩, .approved, {}, {"accel:gpu", "build:ios", "heat:high"}⟩,
    ⟨⟨"ev1_c"⟩, .approved, {}, {"accel:gpu"}⟩, ⟨⟨"ev1_d"⟩, .approved, {}, {"accel:gpu"}⟩]

def phoneRights : FleetRights := ⟨[(⟨"ev1_a"⟩, {.performWork}), (⟨"ev1_b"⟩, {.performWork})]⟩

/-- A ladder of four rungs, and a roster that lists a phone twice and one that never registered. -/
theorem fleet_diagnosis_agrees_phones :
    let ladder : NarrowingClauses :=
      { excludeClients := ["ev1_d"], requires := ["accel:gpu"], excludes := ["heat:high"]
        anyOf := [["build:ios", "build:android"]] }
    let roster : NarrowingClauses :=
      { clients := ["ev1_a", "ev1_b", "ev1_a", "ev1_c", "ev1_e"], excludes := ["heat:high"] }
    (fourPhones.map (·.clientId)).Nodup ∧
      (narrowFleet ladder fourPhones ⟨[]⟩).map (·.survivingClientCount) = [3, 3, 2, 1] ∧
      (fourPhones.filter fun client =>
        jobMatchesClient { ladder with clients := [] }.body client ⟨[]⟩).length = 1 ∧
      rosterStanding roster fourPhones phoneRights ⟨[]⟩ = ⟨4, 3, 3, 2, 1⟩ ∧
      ((phoneRights.workers fourPhones).filter fun client =>
        jobMatchesClient roster.body client ⟨[]⟩).length = 1 := by
  intro ladder roster
  have hdistinct : (fourPhones.map (·.clientId)).Nodup := by decide
  have hladder : narrowFleet ladder fourPhones ⟨[]⟩ = [⟨"exclude_clients ev1_d", 3⟩,
      ⟨"requires accel:gpu", 3⟩, ⟨"excludes heat:high", 2⟩, ⟨"any_of [build:ios, build:android]", 1⟩] := by
    decide +kernel
  have hroster : rosterStanding roster fourPhones phoneRights ⟨[]⟩ = ⟨4, 3, 3, 2, 1⟩ := by
    decide +kernel
  have hcounts := (fleet_diagnosis_agrees ladder fourPhones hdistinct phoneRights ⟨[]⟩).2.2.1
    ⟨"any_of [build:ios, build:android]", 1⟩ (by rw [hladder]; rfl)
  have hstanding := ((fleet_diagnosis_agrees roster fourPhones hdistinct phoneRights ⟨[]⟩).2.2.2 rfl).2.2.2.2
  rw [hroster] at hstanding
  exact ⟨hdistinct, by rw [hladder]; rfl, hcounts.symm, hroster, hstanding.symm⟩

end Pipette
