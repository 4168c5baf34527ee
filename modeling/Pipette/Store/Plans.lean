import Pipette.Core.Matching
import Pipette.Core.Plan

/-! Plans with their markers, and the registered clients with their rights and tags. -/
namespace Pipette

structure PlanState where
  manifests : FileTree PlanId PlanManifest
  cancelMarkers : FileTree PlanId Unit
  jobPlans : FileTree (JobId × PlanId × ExpiresAt) Instant
  contentKeys : FileTree String ContentKeyRecord
  filed : ∀ p m, manifests.lookup p = some m → m.planId = p

def PlanState.markers (s : PlanState) : List JobPlanMarker :=
  s.jobPlans.entries.map fun ⟨(j, p, d), writtenAt⟩ => ⟨j, p, d, writtenAt⟩

theorem PlanState.mem_markers {s : PlanState} {m : JobPlanMarker} :
    m ∈ s.markers ↔ s.jobPlans.lookup (m.jobId, m.planId, m.expiresAt) = some m.writtenAt := by
  rw [← Option.mem_def, AList.mem_lookup_iff, PlanState.markers, List.mem_map]
  constructor
  · rintro ⟨⟨⟨j, p, d⟩, writtenAt⟩, hentry, rfl⟩
    exact hentry
  · exact fun hentry => ⟨_, hentry, rfl⟩

def PlanState.put (s : PlanState) (m : PlanManifest) : PlanState :=
  { s with
    manifests := s.manifests.insert m.planId m
    filed := fun p m' h => by
      rw [FileTree.lookup_write] at h
      split at h
      · next hp => cases h; exact hp.symm
      · exact s.filed p m' h }

inductive PlanCall
  | listCancelMarkers
  | writeCancelMarker (p : PlanId)
  | deleteCancelMarker (p : PlanId)
  | drainPlans
  | getPlan (p : PlanId)
  | putPlan (manifest : PlanManifest)
  | listAllJobPlanMarkers
  | listJobPlanMarkers (j : JobId)
  | writeJobPlanMarker (j : JobId) (p : PlanId) (d : ExpiresAt) (writtenAt : Instant)
  | deleteJobPlanMarker (j : JobId) (p : PlanId) (d : ExpiresAt)
  | listContentKeys
  | deleteContentKey (digest : String) (version : Nat)

namespace PlanCall

abbrev Answer : PlanCall → Type
  | listCancelMarkers => List PlanId
  | drainPlans => List PlanManifest
  | getPlan _ => Option PlanManifest
  | listAllJobPlanMarkers => List JobPlanMarker
  | listJobPlanMarkers _ => List (PlanId × ExpiresAt)
  | listContentKeys => List (String × ContentKeyRecord)
  | deleteContentKey _ _ => Bool
  | writeCancelMarker _ | deleteCancelMarker _ | putPlan _ | writeJobPlanMarker _ _ _ _
  | deleteJobPlanMarker _ _ _ => Unit

def step : (c : PlanCall) → PlanState → c.Answer × PlanState
  | listCancelMarkers, s => (s.cancelMarkers.keys, s)
  | writeCancelMarker p, s => ((), { s with cancelMarkers := s.cancelMarkers.insert p () })
  | deleteCancelMarker p, s => ((), { s with cancelMarkers := s.cancelMarkers.erase p })
  | drainPlans, s => (s.manifests.entries.map (·.2), s)
  | getPlan p, s => (s.manifests.lookup p, s)
  | putPlan m, s => ((), s.put m)
  | listAllJobPlanMarkers, s => (s.markers, s)
  | listJobPlanMarkers j, s =>
    ((s.markers.filter (·.jobId = j)).map fun m => (m.planId, m.expiresAt), s)
  | writeJobPlanMarker j p d writtenAt, s =>
    ((), { s with jobPlans := s.jobPlans.insert (j, p, d) writtenAt })
  | deleteJobPlanMarker j p d, s => ((), { s with jobPlans := s.jobPlans.erase (j, p, d) })
  | listContentKeys, s => (s.contentKeys.entries.map fun e => (e.1, e.2), s)
  | deleteContentKey digest version, s =>
    -- compare and delete: a record written since keeps its place
    match s.contentKeys.lookup digest with
    | some record =>
      if record.version = version then
        (true, { s with contentKeys := s.contentKeys.erase digest })
      else (false, s)
    | none => (false, s)

end PlanCall

structure FleetState where
  clients : FileTree ClientId Client
  permissions : FileTree ClientId (Finset ClientPermission)
  tags : FileTree (ClientId × Tag) Unit
  /-- Whether every vault resource a body names is one the client may fetch now. -/
  mayFetchJob : ClientId → Json → Bool
  filed : ∀ c r, clients.lookup c = some r → r.clientId = c

def FleetState.put (s : FleetState) (r : Client) : FleetState :=
  { s with
    clients := s.clients.insert r.clientId r
    filed := fun c r' h => by
      rw [FileTree.lookup_write] at h
      split at h
      · next hc => cases h; exact hc.symm
      · exact s.filed c r' h }

inductive FleetCall
  | drainClients
  | getClient (c : ClientId)
  | replaceClient (read updated : Client)
  | listClientPermissions
  | listForwardTagMarkers
  | clientTags (c : ClientId)
  | clientMayFetchJob (c : ClientId) (body : Json)

namespace FleetCall

abbrev Answer : FleetCall → Type
  | drainClients => List Client
  | getClient _ => Option Client
  | replaceClient _ _ => Bool
  | listClientPermissions => FleetRights
  | listForwardTagMarkers | clientTags _ => FleetTags
  | clientMayFetchJob _ _ => Bool

def step : (c : FleetCall) → FleetState → c.Answer × FleetState
  | drainClients, s => (s.clients.entries.map (·.2), s)
  | getClient c, s => (s.clients.lookup c, s)
  | replaceClient read updated, s =>
    -- conditional: the stored record must still be the one that was read
    if s.clients.lookup read.clientId = some read then (true, s.put updated) else (false, s)
  | listClientPermissions, s => (⟨s.permissions.entries.map fun e => (e.1, e.2)⟩, s)
  | listForwardTagMarkers, s => (⟨s.tags.keys⟩, s)
  | clientTags c, s => (⟨s.tags.keys.filter (·.1 = c)⟩, s)
  | clientMayFetchJob c body, s => (s.mayFetchJob c body, s)

def Reads : FleetCall → Prop
  | replaceClient _ _ => False
  | _ => True

theorem Reads.step {c : FleetCall} (h : c.Reads) (s : FleetState) : (c.step s).2 = s := by
  cases c with
  | replaceClient => exact h.elim
  | _ => rfl

end FleetCall

end Pipette
