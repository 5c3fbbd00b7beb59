import Hermod.Decoding
import Hermod.Streaming
import Hermod.Consumption
import Hermod.CborHeads
import Hermod.CborItems
import Hermod.ProtocolTypes
import Hermod.ProtocolMessages
import Hermod.HaskellFormat
import Hermod.Handshake
import Hermod.EkgMessages
import Hermod.DataPointMessages
import Hermod.Framing
import Hermod.Transitions
import Hermod.Service
import Hermod.TraceForwardClient
import Hermod.TraceProtocol
import Hermod.TraceForwarder
import Hermod.ForwarderHandle
import Hermod.Buffering
import Hermod.TracingLayer
import Hermod.ReForwarder
import Hermod.Responsiveness
import Hermod.Fanout
import Hermod.TraceAcceptor
import Hermod.TracerState
import Hermod.TextLines
import Hermod.Prometheus
import Hermod.MetricsPaths
import Hermod.Negotiation
import Hermod.LogWriter
import Hermod.Rotation
import Hermod.Segments
import Hermod.AppendOnlyLog
import Hermod.TraceHandler
import Hermod.Significands
import Hermod.EkgBackend
import Hermod.DispatcherConfig
import Hermod.LongestPrefix
import Hermod.TraceOptions
import Hermod.Dispatcher
import Hermod.Confidentiality
import Hermod.Tables
import Hermod.EkgRoundTrip
import Hermod.DataPointRoundTrip
import Hermod.HandshakeRoundTrip
import Hermod.NewerPeers
import Hermod.RateLimiter
import Hermod.MetricsRegistry
import Hermod.EkgPoller
import Hermod.NodeMetrics
import Hermod.LabelMetrics
import Hermod.MetricInterference
import Hermod.MetricRecords
import Hermod.CounterTotals
import Hermod.Delivery
import Hermod.DefaultBackends
import Hermod.BackendLists
import Hermod.Reconnection
import Hermod.Shutdown
import Hermod.Timestamps
import Hermod.Tally
import Hermod.DeclaredLengths
import Hermod.FileSizes
import Hermod.SizeLimit
import Hermod.RotationCounts
import Hermod.Addresses
import Hermod.AgeLimit
import Hermod.Retention
import Hermod.NodeDirectories
import Hermod.JsonText
import Hermod.LogLines
import Hermod.Journal
import Hermod.DataPoints
import Hermod.Exposition
import Hermod.SuffixStripping
import Hermod.AggregateMetrics
import Hermod.Html
import Hermod.StatusPage
import Hermod.Runs
import Hermod.Slugs
import Hermod.MetricNames
import Hermod.JsonReader
import Hermod.MachineLog
import Hermod.ByteChannels
import Hermod.TraceStreams
import Hermod.NodeNames
import Hermod.Connections
import Hermod.CrashSafety
import Hermod.ServerLogs
import Hermod.ServiceDiscovery
import Hermod.LogFileCounts
import Hermod.RetainedLog
import Hermod.EkgSession
import Hermod.ReportedMetrics
import Hermod.EventGauges
import Hermod.LoggedTraces
import Hermod.OrderedWork
import Hermod.Relay
import Hermod.Reencoding
import Hermod.Applications
import Hermod.DispatchedLogs
