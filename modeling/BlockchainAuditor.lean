import BlockchainAuditor.Library.Transitions
import BlockchainAuditor.Library.Feeds
import BlockchainAuditor.Library.BoundedFifo
import BlockchainAuditor.Library.Places
import BlockchainAuditor.Library.Repetitions
import BlockchainAuditor.Library.KeyedPuts
import BlockchainAuditor.Library.Factorizations
import BlockchainAuditor.Library.CStrings
import BlockchainAuditor.Library.CArrays
import BlockchainAuditor.Library.Decimal
import BlockchainAuditor.Library.KeyedText
import BlockchainAuditor.Library.KeyedTextUnique
import BlockchainAuditor.Library.LineReader
import BlockchainAuditor.Library.LineFiles
import BlockchainAuditor.Library.FileTree
import BlockchainAuditor.Library.WaitStatus
import BlockchainAuditor.Library.Lifetimes
import BlockchainAuditor.Library.Getopt
import BlockchainAuditor.Library.JsString
import BlockchainAuditor.Library.JsNumber
import BlockchainAuditor.Library.JsNumberText
import BlockchainAuditor.Library.JsDoubles
import BlockchainAuditor.Library.JsonValue
import BlockchainAuditor.Library.JsonParse
import BlockchainAuditor.Library.JsonEscapes
import BlockchainAuditor.Library.JsonRecord
import BlockchainAuditor.Library.JsonNumerals
import BlockchainAuditor.Library.JsonPrint
import BlockchainAuditor.Library.JsonRoundTrip
import BlockchainAuditor.AuditEvent
import BlockchainAuditor.EventDecoding
import BlockchainAuditor.EventEncoding
import BlockchainAuditor.EventRoundTrip
import BlockchainAuditor.IntegerText
import BlockchainAuditor.NumberDecoding
import BlockchainAuditor.ParserSafety
import BlockchainAuditor.Daemonize
import BlockchainAuditor.PidfileReading
import BlockchainAuditor.PidfileProtocol
import BlockchainAuditor.ProcMonitor
import BlockchainAuditor.MonitorMemory
import BlockchainAuditor.CommandArguments
import BlockchainAuditor.IntegrityCheck
import BlockchainAuditor.Procfs
import BlockchainAuditor.CommandLine
import BlockchainAuditor.AuditRecords
import BlockchainAuditor.EventProducers
import BlockchainAuditor.Capture
import BlockchainAuditor.LocalLog
import BlockchainAuditor.Renderings
import BlockchainAuditor.BackgroundLog
import BlockchainAuditor.LogTampering
import BlockchainAuditor.IntegrityTest
import BlockchainAuditor.LogCache
import BlockchainAuditor.LogStore
import BlockchainAuditor.TamperDetection
import BlockchainAuditor.GatewayAnswers
import BlockchainAuditor.FieldExtraction
import BlockchainAuditor.SealedLog
import BlockchainAuditor.EventDelivery
import BlockchainAuditor.HttpGet
import BlockchainAuditor.ResponseBuffer
import BlockchainAuditor.CurlHandle
import BlockchainAuditor.Queue
import BlockchainAuditor.QueueRefinement
import BlockchainAuditor.QueueThreads
import BlockchainAuditor.Wakeups
import BlockchainAuditor.UntimedPops
import BlockchainAuditor.AuditorProcess
import BlockchainAuditor.Shutdown
import BlockchainAuditor.Signals
import BlockchainAuditor.TerminationSignal
import BlockchainAuditor.EventPipeline
import BlockchainAuditor.EventSupplies
import BlockchainAuditor.UnallocatedQueue
import BlockchainAuditor.Chaincode
import BlockchainAuditor.Gateway
import BlockchainAuditor.WireFormat
import BlockchainAuditor.Verification
import BlockchainAuditor.TamperEvidence
import BlockchainAuditor.LedgerHistory
import BlockchainAuditor.Resubmission
import BlockchainAuditor.LedgerQueries
import BlockchainAuditor.EventIdentity
import BlockchainAuditor.LedgerEntries
import BlockchainAuditor.EventMap
import BlockchainAuditor.LogInjection
import BlockchainAuditor.LedgerTrace
import BlockchainAuditor.AuditMonitor
import BlockchainAuditor.CommandRun
import BlockchainAuditor.DaemonRun
import BlockchainAuditor.ProgramNames
