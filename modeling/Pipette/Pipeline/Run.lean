import Pipette.Pipeline.Plans

/-! One `queue-maintenance` run. Each stage is a program of its own, so that a moment of the run is
the program that is left. -/
namespace Pipette

structure MaintenanceSettings where
  planCreatingMax : Nat
  lostLeaseLimit : Nat

structure RunContext where
  catalog : Catalog
  settings : MaintenanceSettings
  now : Instant

structure Front where
  prior : Finset GcKey
  cancelMarkers : List PlanId
  manifests : List PlanManifest
  recycled : Settled

/-- The sightings are cleared at once, so that a failed run leaves none. Markers before manifests,
manifests before the queue. -/
def beforeListings (ctx : RunContext) : Op Front := do
  let prior ← Op.notes .readGcCandidates
  Op.notes (.writeGcCandidates ∅)
  let cancelMarkers ← Op.plans .listCancelMarkers
  let manifests ← Op.plans .drainPlans
  let recycled ← settleExpiredLeases ctx.catalog ctx.settings.lostLeaseLimit ctx.now
  pure { prior, cancelMarkers, manifests, recycled }

structure QueueView where
  membership : List JobPlanMarker
  endings : PlanEndings
  manifests : List PlanManifest
  keys : List AvailKey
  leased : List Lease
  terminal : Finset JobId
  live : Finset JobId
  bodies : Bodies
  failures : Nat

namespace QueueView

def leasedIds (v : QueueView) : List JobId := (v.leased.map (·.jobId)).dedup

def withheld (v : QueueView) : List JobId :=
  uncommittedJobs (v.keys.map (·.jobId) ++ v.leased.map (·.jobId)) v.membership v.manifests

def indexableKeys (v : QueueView) : List AvailKey :=
  v.keys.filter fun k => k.jobId ∉ v.withheld

def indexableLeasedAvailKeys (v : QueueView) : Finset AvailKey :=
  ((v.leased.filter fun l => l.jobId ∉ v.withheld).map Lease.availKey).toFinset

end QueueView

def queuePasses (ctx : RunContext) (front : Front) (avail : List AvailKey) (leases : List Lease) :
    Op QueueView := do
  let membership ← Op.plans .listAllJobPlanMarkers
  let teardown ← tearDownPlans front.manifests front.cancelMarkers membership avail leases ctx.now
    ctx.settings.planCreatingMax
  let lapses ← recordMemberLapses front.manifests membership front.cancelMarkers
    teardown.endings.stranded ctx.now ctx.settings.planCreatingMax
  let expired ← expireOverdueJobs ctx.catalog teardown.avail ctx.now
  let (retired, bodies) ← retireUnmatchableJobs ctx.catalog expired.survivors ∅
  let (escalated, bodies) ← escalateAllDeniedJobs ctx.catalog retired.survivors bodies
  let terminal := expired.removed ∪ retired.removed ∪ escalated.removed ∪
    front.recycled.resolved ∪ teardown.retired
  pure
    { membership
      endings := teardown.endings
      manifests := lapses.manifests
      keys := escalated.survivors
      leased := teardown.leased
      terminal
      live := (escalated.survivors.map (·.jobId)).toFinset ∪
        (teardown.leased.map (·.jobId)).toFinset ∪ (front.recycled.seen \ terminal)
      bodies
      failures := front.recycled.failures + teardown.failures + lapses.failures +
        expired.failures + retired.failures + escalated.failures }

/-- The worker set is written after every joiner's rebuild, so that a failed run sees the same
joiners again. -/
def indexPasses (view : QueueView) (workers : List Client) (tags : FleetTags) : Op Bodies := do
  let workerIds := workers.map (·.clientId)
  let indexed ← Op.index .readEligibleWorkers
  let joined ← trackWorkerChanges indexed workerIds
  let bodies ← indexNewJobs workers tags view.indexableKeys view.indexableLeasedAvailKeys view.bodies
  let bodies ← reindexFlaggedClients workerIds joined view.indexableKeys view.leasedIds bodies
  if indexed.toFinset ≠ workerIds.toFinset then Op.index (.writeEligibleWorkers workerIds)
  settlePendingReindexJobs workerIds view.indexableKeys bodies

/-- The markers of withheld jobs go, then the orphans. The backlog is for the console only, so a
failed write is ignored. -/
def sweepPasses (ctx : RunContext) (prior : Finset GcKey) (view : QueueView)
    (clients : List Client) : Op (Finset GcKey) := do
  let eligible ← Op.index .listAllEligible
  (eligible.filter fun m => m.jobId ∈ view.withheld).forM fun m => Op.index (.deleteEligible m)
  let eligible := eligible.filter fun m => m.jobId ∉ view.withheld
  let denied ← Op.notes .listAllDenied
  let next ← reconcileOrphans ⟨prior, view.terminal, view.live, clients.map (·.clientId)⟩ eligible
    denied view.keys
  let backlog := countBacklog (claimableMarkers eligible view.keys denied ctx.now)
  let _ ← (Op.notes (.writeBacklog ⟨ctx.now, backlog⟩)).attempt
  pure next

def afterQueuePasses (ctx : RunContext) (front : Front) (view : QueueView) : Op Nat := do
  let clients ← Op.fleet .drainClients
  let tags ← Op.fleet .listForwardTagMarkers
  let rights ← Op.fleet .listClientPermissions
  let workers := rights.workers clients
  let bodies ← indexPasses view workers tags
  let next ← sweepPasses ctx front.prior view clients
  let plans : PlanView :=
    { cancelMarkers := front.cancelMarkers, endings := view.endings
      membership := view.membership, avail := view.keys, leased := view.leasedIds
      live := view.live, workers, tags, now := ctx.now
      creatingMaxAge := ctx.settings.planCreatingMax }
  let reconciled ← reconcilePlans plans view.manifests bodies
  let collected ← gcPlanIndex plans view.manifests front.prior
  -- after the last collecting pass, so that a run that fails earlier stages nothing
  Op.notes (.writeGcCandidates (next ∪ collected.next))
  pure (view.failures + reconciled.failures + collected.failures)

def afterAvailListing (ctx : RunContext) (front : Front) (avail : List AvailKey) : Op Nat := do
  let leases ← Op.queue .listLeased
  let view ← queuePasses ctx front avail leases
  afterQueuePasses ctx front view

def runPasses (ctx : RunContext) : Op Nat := do
  let front ← beforeListings ctx
  let avail ← Op.queue .listAvail
  afterAvailListing ctx front avail

def reportFailed (failed : Nat) : Op Unit :=
  if 0 < failed then Op.fail (.failedItems failed) else pure ()

def run (ctx : RunContext) : Op Unit := do
  let failed ← runPasses ctx
  reportFailed failed

end Pipette
