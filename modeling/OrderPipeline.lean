import OrderPipeline.Foundation.Runs
import OrderPipeline.Foundation.Delivery
import OrderPipeline.Foundation.CommitLog
import OrderPipeline.Foundation.CommitGroup
import OrderPipeline.Foundation.GroupEffort
import OrderPipeline.Foundation.PyFloat
import OrderPipeline.Foundation.PyText
import OrderPipeline.Foundation.IntText
import OrderPipeline.Foundation.RunningMean
import OrderPipeline.Foundation.RoundedMean
import OrderPipeline.Foundation.Interleaving
import OrderPipeline.Foundation.Utf8
import OrderPipeline.Foundation.PyLines
import OrderPipeline.Foundation.PyDict
import OrderPipeline.Foundation.RaisingLoop
import OrderPipeline.Foundation.JsonGrammar
import OrderPipeline.Foundation.JsonReader
import OrderPipeline.Foundation.Binary64
import OrderPipeline.Foundation.ShortestDecimal
import OrderPipeline.Foundation.FloatText
import OrderPipeline.Foundation.Binary64Rounding
import OrderPipeline.Foundation.PyJson
import OrderPipeline.Foundation.PyJsonValues
import OrderPipeline.Foundation.JsonNesting
import OrderPipeline.Foundation.ExponentialBackoff
import OrderPipeline.Records
import OrderPipeline.Orders
import OrderPipeline.Failures
import OrderPipeline.FailureSequences
import OrderPipeline.Retry
import OrderPipeline.Backoff
import OrderPipeline.RetryTrace
import OrderPipeline.Aggregator
import OrderPipeline.Summary
import OrderPipeline.InterruptedSummary
import OrderPipeline.Json
import OrderPipeline.Dlq
import OrderPipeline.LastLine
import OrderPipeline.ReadDlq
import OrderPipeline.Waits
import OrderPipeline.Consumer
import OrderPipeline.InterimSummaries
import OrderPipeline.PayloadText
import OrderPipeline.JsonRoundTrip
import OrderPipeline.DlqReport
import OrderPipeline.NestingLimits
import OrderPipeline.ReadLoop
import OrderPipeline.Replay
import OrderPipeline.ReportedEffort
import OrderPipeline.Ledger
import OrderPipeline.Evidence
import OrderPipeline.UnitOfWork
import OrderPipeline.CompleteEffect
import OrderPipeline.MainRuns
import OrderPipeline.InterleavingIndependence
import OrderPipeline.ConsumerGroup
import OrderPipeline.GroupSystem
import OrderPipeline.GroupRecords
import OrderPipeline.GroupEffect
import OrderPipeline.AggregateHealth
import OrderPipeline.RoundedAggregator
import OrderPipeline.Snapshot
import OrderPipeline.EndToEnd
import OrderPipeline.HeadOfLine
import OrderPipeline.ConsumerSystem
import OrderPipeline.AtLeastOnce
import OrderPipeline.DeadLetterSafety
import OrderPipeline.DeadLetterContent
import OrderPipeline.FailureReports
import OrderPipeline.Resumption
import OrderPipeline.TransientRecovery
import OrderPipeline.ProcessBooks
import OrderPipeline.Shutdown
import OrderPipeline.Producer
