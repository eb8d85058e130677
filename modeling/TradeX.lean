import TradeX.MalformedOrders
import TradeX.Seqlock
import TradeX.RegionOwnership
import TradeX.RegionCalls
import TradeX.Icebergs
import TradeX.Retransmission
import TradeX.Isolation
import TradeX.StopCompleteness
import TradeX.BestPrices
import TradeX.SideTotals
import TradeX.MarketFeed
import TradeX.OrderIngest
import TradeX.FeedStream
import TradeX.FillAttribution
import TradeX.IcebergTotals
import TradeX.ZeroDisplay
import TradeX.BookIntegrity
import TradeX.Mirror
import TradeX.MarketLimit
import TradeX.EndOfDay
import TradeX.StorageContents
import TradeX.FeedShutdown
import TradeX.RingRestart
import TradeX.RegionBounds
import TradeX.RequestStream
import TradeX.SymbolTable
import TradeX.StopRegistry
import TradeX.Sentinels
import TradeX.OrderIds
import TradeX.Progress
import TradeX.QueueRefinement
import TradeX.PriceGuards
import TradeX.PriceBands
import TradeX.FeedTape
import TradeX.Recovery
import TradeX.OrderFlow
import TradeX.StopSlots
import TradeX.ServerStop
import TradeX.BotSessions
import TradeX.PollLoop
import TradeX.EngineStop
