import Pipette.Lib.Assoc
import Pipette.Lib.Prog
import Pipette.Lib.Interleave
import Pipette.Core.Json
import Pipette.Core.Client
import Pipette.Core.Descriptor
import Pipette.Core.Matching
import Pipette.Core.RunAnswers
import Pipette.Core.ContentKey
import Pipette.Core.Queue
import Pipette.Lib.Tree
import Pipette.Store.Queue
import Pipette.Core.Plan
import Pipette.Store.Markers
import Pipette.Store.Plans
import Pipette.Store.Records
import Pipette.Store.World
import Pipette.Store.Operations
import Pipette.Pipeline.Score
import Pipette.Pipeline.RecordCheck
import Pipette.Api.Plans
import Pipette.Api.Submissions
import Pipette.Api.Footprint
import Pipette.System.OneEntry
import Pipette.System.Finished
import Pipette.Pipeline.Index
import Pipette.Pipeline.Orphans
import Pipette.Pipeline.Plans
import Pipette.Pipeline.Run
import Pipette.System.RunJudgement
import Pipette.Pipeline.Stages
import Pipette.System.PlanLatch
import Pipette.Lib.Alone
import Pipette.System.ScoringLives
import Pipette.System.Retirement
import Pipette.Lib.Mend
import Pipette.System.OneLease
import Pipette.Pipeline.Joins
import Pipette.Lib.Window
import Pipette.System.Restore
import Pipette.System.Mindful
import Pipette.System.ConfirmedJoin
import Pipette.Api.Clients
import Pipette.System.Rechecks
import Pipette.System.ProfileChange
import Pipette.Pipeline.Ingest
import Pipette.System.PlanWalk
import Pipette.System.CancelKept
import Pipette.Api.ReplayCache
import Pipette.Store.Preauth
import Pipette.System.SingleUse
import Pipette.Store.StorageLock
import Pipette.System.StorageLease
import Pipette.System.TeardownTakes
import Pipette.Pipeline.GatedImport
import Pipette.Core.Principal
import Pipette.Pipeline.VaultCheck
import Pipette.Api.VaultAccess
import Pipette.Api.HttpSig
import Pipette.Api.SignedText
import Pipette.Lib.Bins
import Pipette.Pipeline.Carry
import Pipette.Pipeline.CarriedOnce
import Pipette.Store.PagesComplete
import Pipette.Pipeline.Grouping
import Pipette.Pipeline.PlacedOnce
import Pipette.Pipeline.Preview
import Pipette.Pipeline.PreviewAgrees
import Pipette.Lib.Sorting
import Pipette.Planner.Matrix
import Pipette.Planner.Scheduler
import Pipette.Planner.Expand
import Pipette.Lib.Total
import Pipette.Planner.OneBody
import Pipette.Planner.ClauseText
import Pipette.Lib.Walk
import Pipette.System.PlanForward
import Pipette.System.TwoSightings
import Pipette.System.ListedQueue
import Pipette.System.BacklogAgrees
import Pipette.Core.QueueNames
import Pipette.Core.Readings
import Pipette.Pipeline.PlanNames
import Pipette.Lib.Chase
import Pipette.Pipeline.CampaignChain
import Pipette.Api.SubmissionReaders
import Pipette.Core.FleetStanding
import Pipette.Pipeline.Archive
import Pipette.Pipeline.CatalogNames
import Pipette.Core.CanonicalText
import Pipette.Pipeline.CatalogOffer
import Pipette.Lib.Phases
import Pipette.Pipeline.QueueCopy
import Pipette.System.CopyEqual
import Pipette.System.CopyMarkers
import Pipette.Pipeline.Placing
import Pipette.System.QueueSights
import Pipette.System.DigestKept
import Pipette.System.DeadlinesFollow
import Pipette.Api.RegistrationThrottle
