import OhlcvValidator.AlpacaClient
import OhlcvValidator.Arbiter
import OhlcvValidator.ArbiterBalance
import OhlcvValidator.ArbiterCalls
import OhlcvValidator.ArbiterCopies
import OhlcvValidator.ArbiterDepth
import OhlcvValidator.ArbiterHistory
import OhlcvValidator.ArbiterLoops
import OhlcvValidator.ArbiterLossless
import OhlcvValidator.ArbiterLossy
import OhlcvValidator.ArbiterRefinement
import OhlcvValidator.ArbiterRing
import OhlcvValidator.ArbiterSafety
import OhlcvValidator.ArbiterSimulation
import OhlcvValidator.ArbiterWindow
import OhlcvValidator.AucMetric
import OhlcvValidator.BandFilter
import OhlcvValidator.BarFile
import OhlcvValidator.BarReconstruction
import OhlcvValidator.BarStream
import OhlcvValidator.BenchBreakdown
import OhlcvValidator.BenchPasses
import OhlcvValidator.BookBuilder
import OhlcvValidator.BookBuilderLive
import OhlcvValidator.BookBuilderLoss
import OhlcvValidator.BookBuilderRecovery
import OhlcvValidator.BookBuilderRefinement
import OhlcvValidator.BookBuilderSnapshot
import OhlcvValidator.BookTracker
import OhlcvValidator.BookTrackerAhead
import OhlcvValidator.BookTrackerLoss
import OhlcvValidator.BoundedLoop
import OhlcvValidator.BoundedQueue
import OhlcvValidator.ByteLayout
import OhlcvValidator.CaptureWriter
import OhlcvValidator.CausalList
import OhlcvValidator.CheckedArray
import OhlcvValidator.DecimalDigits
import OhlcvValidator.EpisodeAccounting
import OhlcvValidator.FeedAgreement
import OhlcvValidator.FeedArbitrator
import OhlcvValidator.FeedLines
import OhlcvValidator.FeedPipeline
import OhlcvValidator.FeedReceive
import OhlcvValidator.FirstDistinct
import OhlcvValidator.FlagKinds
import OhlcvValidator.FrameOrder
import OhlcvValidator.FrameParser
import OhlcvValidator.GenAgreement
import OhlcvValidator.GenDataset
import OhlcvValidator.GenFeed
import OhlcvValidator.GenRun
import OhlcvValidator.GregorianCalendar
import OhlcvValidator.InOrderRelease
import OhlcvValidator.IndexArrays
import OhlcvValidator.Interleaving
import OhlcvValidator.JsonLines
import OhlcvValidator.LadderEval
import OhlcvValidator.LatencyHistogram
import OhlcvValidator.LinearProbing
import OhlcvValidator.LiveCapture
import OhlcvValidator.LiveReport
import OhlcvValidator.LiveSequencing
import OhlcvValidator.MarkedStream
import OhlcvValidator.MaskIndex
import OhlcvValidator.MaxDrawdown
import OhlcvValidator.MixedSequencing
import OhlcvValidator.NoLookahead
import OhlcvValidator.OneSymbolSplit
import OhlcvValidator.OrderBook
import OhlcvValidator.OrderBookDepth
import OhlcvValidator.OrderBookHistory
import OhlcvValidator.OrderBookInvariant
import OhlcvValidator.OrderBookLadder
import OhlcvValidator.OrderBookSide
import OhlcvValidator.OrderedEntries
import OhlcvValidator.OrderedUpdate
import OhlcvValidator.PriceBand
import OhlcvValidator.PriceBandOutliers
import OhlcvValidator.PriceLaws
import OhlcvValidator.QuoteObservers
import OhlcvValidator.RankSum
import OhlcvValidator.ReconnectBackoff
import OhlcvValidator.ReconnectReplay
import OhlcvValidator.ReplayBench
import OhlcvValidator.ReplayFormat
import OhlcvValidator.ReplayReader
import OhlcvValidator.ReplayWriter
import OhlcvValidator.ResidueGaps
import OhlcvValidator.Rounding
import OhlcvValidator.SequencingCursor
import OhlcvValidator.ShardedReplay
import OhlcvValidator.SlotInvariants
import OhlcvValidator.SnapshotRebuild
import OhlcvValidator.SpscBench
import OhlcvValidator.SpscPipeline
import OhlcvValidator.SpscPipelineProgress
import OhlcvValidator.SpscRing
import OhlcvValidator.SpscRingCalls
import OhlcvValidator.SpscRingCoherent
import OhlcvValidator.SpscRingFifo
import OhlcvValidator.StartGate
import OhlcvValidator.SynthBars
import OhlcvValidator.SynthEval
import OhlcvValidator.SynthSilence
import OhlcvValidator.ThrowingRuns
import OhlcvValidator.TimeSplit
import OhlcvValidator.Timestamp
import OhlcvValidator.TimestampGrammar
import OhlcvValidator.TradeWindow
import OhlcvValidator.TradingEnv
import OhlcvValidator.TradingFeatures
import OhlcvValidator.Transducer
import OhlcvValidator.Validator
import OhlcvValidator.ValidatorFlags
import OhlcvValidator.ValidatorIsolation
import OhlcvValidator.ValidatorTable
import OhlcvValidator.ViolationLog
import OhlcvValidator.WellFormedRecords
import OhlcvValidator.WildPacket
import OhlcvValidator.WireRecords
