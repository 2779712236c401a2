import Nulleye.Runs
import Nulleye.Counting
import Nulleye.Rings
import Nulleye.Words
import Nulleye.Events
import Nulleye.EventBus
import Nulleye.BusThreads
import Nulleye.BusLedger
import Nulleye.BusAccounting
import Nulleye.BusClaiming
import Nulleye.BusCapacity
import Nulleye.BusHandover
import Nulleye.Statements
import Nulleye.EventInserts
import Nulleye.HashTrees
import Nulleye.MerkleRoot
import Nulleye.MerkleTamper
import Nulleye.CStrings
import Nulleye.Lines
import Nulleye.RuleFiles
import Nulleye.RuleStores
import Nulleye.RuleSyntax
import Nulleye.ConfigFiles
import Nulleye.CommentLines
import Nulleye.Responses
import Nulleye.RuleEvaluation
import Nulleye.RuleFiring
import Nulleye.Codecs
import Nulleye.Models
import Nulleye.ModelLoads
import Nulleye.ModelRoundTrips
import Nulleye.SharedQueues
import Nulleye.Consumers
import Nulleye.KernelEvents
import Nulleye.Scores
import Nulleye.Alarms
import Nulleye.Decimals
import Nulleye.ScoreConditions
import Nulleye.ConfigAssignments
import Nulleye.Ledgers
import Nulleye.Connections
import Nulleye.DbHandles
import Nulleye.DbTransactions
import Nulleye.EbpfLoader
import Nulleye.EbpfBalance
import Nulleye.ModuleLifecycles
import Nulleye.MerkleSeparation
import Nulleye.FileReads
import Nulleye.FileRecords
import Nulleye.ResponseAudit
import Nulleye.TuiHistory
import Nulleye.BusWraps
import Nulleye.EventFeatures
import Nulleye.RuleFields
import Nulleye.Conditions
import Nulleye.LogTails
import Nulleye.LogLines
import Nulleye.Sweeps
import Nulleye.LstmPredictor
import Nulleye.LstmGates
import Nulleye.LstmUnits
import Nulleye.LogRings
import Nulleye.AiEngine
import Nulleye.AiRestarts
import Nulleye.HttpMessages
import Nulleye.MetricsReplies
import Nulleye.MetricsServer
import Nulleye.MerkleHeap
import Nulleye.DbFallbacks
import Nulleye.Sandbox
import Nulleye.MainRuns
import Nulleye.TelemetryRows
import Nulleye.Startup
import Nulleye.LstmBounds
import Nulleye.FileScans
import Nulleye.RulePrograms
import Nulleye.AuditTrails
import Nulleye.ScanThreads
import Nulleye.Resources
import Nulleye.DbThreads
