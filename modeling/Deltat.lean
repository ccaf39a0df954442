import Deltat.Lib.BinarySearch
import Deltat.Lib.Keyed
import Deltat.Lib.Machine
import Deltat.Lib.Sweep
import Deltat.Lib.Outcome
import Deltat.Lib.Bytes
import Deltat.Lib.Codec
import Deltat.Lib.Frames
import Deltat.Lib.History
import Deltat.Lib.Cycles
import Deltat.Lib.Forest
import Deltat.Model
import Deltat.Availability
import Deltat.Conflict
import Deltat.Store
import Deltat.Queries
import Deltat.Offer
import Deltat.Mutations
import Deltat.Compaction
import Deltat.Bincode
import Deltat.Wal
import Deltat.Writer
import Deltat.Table
import Deltat.Invariant
import Deltat.Checks
import Deltat.Writes
import Deltat.Operations
import Deltat.Exactness
import Deltat.Runs
import Deltat.NeverDoubleBook
import Deltat.CommitHolds
import Deltat.BincodeRoundTrip
import Deltat.WalRoundTrip
import Deltat.WalClean
import Deltat.RecordLimits
import Deltat.Corruption
import Deltat.Replay
import Deltat.ReplayRebuilds
import Deltat.CrashAtomicity
import Deltat.CommitAtomicity
import Deltat.WriterFaults
import Deltat.CompactionFaults
import Deltat.Takeover
import Deltat.AdmissionOrder
import Deltat.HonouredHolds
import Deltat.Instants
import Deltat.ReadsAndAdmission
import Deltat.Hierarchy
import Deltat.Requests
import Deltat.Tenant
import Deltat.TenantSteps
import Deltat.CompactionDurability
import Deltat.EntityIds
import Deltat.DeletedResources
import Deltat.Refusals
import Deltat.BatchAdmission
import Deltat.IntervalLimit
import Deltat.LogOwners
import Deltat.Restarts
import Deltat.CrashAfterCollection
import Deltat.OrphanRepair
import Deltat.WriterQueue
import Deltat.FlushOrder
import Deltat.FreeTime
import Deltat.EarlyReads
import Deltat.ResourceForest
import Deltat.Asserts
import Deltat.FreeRuns
import Deltat.Credentials
import Deltat.Watermark
import Deltat.LockOrder
import Deltat.ReapedHolds
import Deltat.ServedListens
import Deltat.SelectAnswers
import Deltat.LabelPrivacy
import Deltat.CombinedAvailability
import Deltat.LogRefusals
import Deltat.Cleaning
import Deltat.RuleCoverage
import Deltat.OfferVerdicts
import Deltat.OfferRequests
import Deltat.LogOpening
import Deltat.KnownTenants
import Deltat.StoredValues
import Deltat.BoundParams
import Deltat.RequestAsserts
import Deltat.RequestsReturn
import Deltat.AcceptedLogs
import Deltat.SpanLoops
import Deltat.SpanSets
import Deltat.Searchable
import Deltat.Lib.Slots
import Deltat.CompactionWindow
import Deltat.RecordedWindow
import Deltat.MergedCompaction
import Deltat.CompactedResources
import Deltat.OwnChannel
import Deltat.ConcurrentBookings
import Deltat.AcknowledgedWrites
import Deltat.Delivery
import Deltat.Describing
import Deltat.EarliestOffers
import Deltat.RelationalTenant
import Deltat.DurableTables
import Deltat.Lib.Progress
import Deltat.WindingDown
import Deltat.Server
import Deltat.Strangers
