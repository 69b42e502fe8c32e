import Dokan.Verified.Machine
import Dokan.Verified.Lease
import Dokan.Verified.Json
import Dokan.Verified.Dag
import Dokan.Verified.KeyedInsert
import Dokan.Verified.Rows
import Dokan.Verified.Tally
import Dokan.Verified.Utf8
import Dokan.Verified.TreeWalk
import Dokan.Verified.Lines
import Dokan.Verified.Cutting
import Dokan.Ports.RunRow
import Dokan.Ports.FlowRow
import Dokan.Ports.FlowSpec
import Dokan.Ports.FlowCycles
import Dokan.Ports.FlowEval
import Dokan.Ports.FlowDriver
import Dokan.Ports.FlowLedger
import Dokan.Ports.FlowMoves
import Dokan.Ports.FlowFanout
import Dokan.Ports.FlowOrder
import Dokan.Ports.FlowAttempts
import Dokan.Ports.FlowFidelity
import Dokan.Ports.FlowRefs
import Dokan.Ports.FlowSaga
import Dokan.Ports.FlowRank
import Dokan.Ports.FlowProgress
import Dokan.Ports.FlowOutcome
import Dokan.Ports.FlowAggregate
import Dokan.Ports.FlowRecovery
import Dokan.Ports.FlowMeasure
import Dokan.Ports.FlowEvaluate
import Dokan.Ports.FlowAgree
import Dokan.Ports.FlowRefine
import Dokan.Ports.FlowSettled
import Dokan.Ports.Enqueue
import Dokan.Ports.ExecJob
import Dokan.Ports.ExecPublish
import Dokan.Ports.RunQueue
import Dokan.Ports.RunQueueSteps
import Dokan.Ports.RunCancel
import Dokan.Ports.RunLease
import Dokan.Ports.RunOnce
import Dokan.Ports.RunAttempts
import Dokan.Ports.RunFence
import Dokan.Ports.PumpLogs
import Dokan.Ports.RunCompletes
import Dokan.Ports.AgentQuota
import Dokan.Ports.FlowRecall
import Dokan.Verified.Framing
import Dokan.Ports.Receipt
import Dokan.Ports.ReceiptVerify
import Dokan.Ports.ReceiptComplete
import Dokan.Ports.ReceiptCopies
import Dokan.Ports.ExecFaults
import Dokan.Ports.ExecSuccess
import Dokan.Verified.VersionMemo
import Dokan.Ports.CacheKey
import Dokan.Ports.Provenance
import Dokan.Ports.ProvenanceSteps
import Dokan.Ports.ProvenanceInv
import Dokan.Ports.SecretReads
import Dokan.Ports.ReceiptFaith
import Dokan.Ports.CacheTag
import Dokan.Ports.Reproduce
import Dokan.Verified.JsonText
import Dokan.Verified.JsonTree
import Dokan.Ports.RecallKey
import Dokan.Ports.CanonicalJson
import Dokan.Ports.RecallSound
import Dokan.Ports.PumpStatements
import Dokan.Ports.PumpSecrets
import Dokan.Ports.PumpRedact
import Dokan.Ports.PumpFrames
import Dokan.Ports.SagaOrder
import Dokan.Ports.ZonedTicker
import Dokan.Ports.RunUnclaimed
import Dokan.Ports.DeleteScript
import Dokan.Ports.Update
import Dokan.Ports.UpdateFaults
import Dokan.Verified.Custody
import Dokan.Ports.WarmPool
import Dokan.Ports.OutputDir
import Dokan.Ports.ReceiptPanics
import Dokan.Ports.HexCodec
import Dokan.Verified.Fields
import Dokan.Verified.FixedWindow
import Dokan.Ports.RateLimit
import Dokan.Ports.ClientIp
import Dokan.Ports.Autoscale
import Dokan.Ports.SecretStore
import Dokan.Ports.ScheduleFaults
import Dokan.Ports.ExecCleanup
import Dokan.Ports.CaptureOutput
import Dokan.Ports.SecretBootstrap
import Dokan.Verified.Rendering
import Dokan.Ports.KeyCollisions
import Dokan.Ports.HmacBinding
import Dokan.Ports.CronTick
import Dokan.Ports.CronDaemons
import Dokan.Ports.RunScript
import Dokan.Ports.RunRetry
import Dokan.Ports.EnqueueSources
import Dokan.Ports.RunTable
import Dokan.Ports.RunSpend
import Dokan.Ports.BlobLiveness
import Dokan.Ports.ScriptUpload
import Dokan.Ports.ScriptReaders
import Dokan.Ports.SecretsCache
import Dokan.Ports.SecretEnv
import Dokan.Verified.NumberedLog
import Dokan.Ports.RunLogs
import Dokan.Ports.ReadLogs
import Dokan.Ports.RunStream
import Dokan.Verified.JsonContains
import Dokan.Ports.Triggers
import Dokan.Ports.TriggerOnce
import Dokan.Ports.TriggerCascade
import Dokan.Verified.Balance
import Dokan.Ports.RunOrder
import Dokan.Ports.FlowView
import Dokan.Ports.WebhookFire
import Dokan.Verified.ContentStore
import Dokan.Ports.Artifacts
import Dokan.Ports.ArtifactInv
import Dokan.Ports.ArtifactPipeline
import Dokan.Ports.TableRows
import Dokan.Verified.Threading
import Dokan.Ports.PrevResult
import Dokan.Verified.FirstKeeps
import Dokan.Ports.KeyMigration
import Dokan.Ports.WarmDepth
import Dokan.Ports.DockerHost
