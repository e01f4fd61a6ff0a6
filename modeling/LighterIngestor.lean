import LighterIngestor.DateTime
import LighterIngestor.PriceBook
import LighterIngestor.BookLevels
import LighterIngestor.WsMessages
import LighterIngestor.MarketBooks
import LighterIngestor.Trades
import LighterIngestor.Session
import LighterIngestor.MarketTrack
import LighterIngestor.MarketProjection
import LighterIngestor.MarketRuns
import LighterIngestor.MarketAlone
import LighterIngestor.MarketIndependence
import LighterIngestor.ServerHistory
import LighterIngestor.GapDetection
import LighterIngestor.NonceChain
import LighterIngestor.Replay
import LighterIngestor.RowOrder
import LighterIngestor.Writer
import LighterIngestor.WriterRuns
import LighterIngestor.LosslessWriter
import LighterIngestor.TradeTable
import LighterIngestor.TradeDelivery
import LighterIngestor.TradeIngestion
import LighterIngestor.SymbolTable
import LighterIngestor.SymbolSync
import LighterIngestor.HourGrid
import LighterIngestor.DueHours
import LighterIngestor.FundingPage
import LighterIngestor.PageOrder
import LighterIngestor.FundingTable
import LighterIngestor.Poller
import LighterIngestor.FundingAppend
import LighterIngestor.FundingCollection
import LighterIngestor.FundingCoverage
import LighterIngestor.RequestWindow
import LighterIngestor.Paging
import LighterIngestor.BookHistory
import LighterIngestor.RejectedMessages
import LighterIngestor.ExportFilter
import LighterIngestor.ExportBatches
import LighterIngestor.Timestamptz
import LighterIngestor.ExportQuery
import LighterIngestor.ExportApart
import LighterIngestor.StorableRows
import LighterIngestor.FundingRounds
import LighterIngestor.FundingWorld
import LighterIngestor.FundingCatchUp
import LighterIngestor.SymbolHistory
import LighterIngestor.KnownSymbols
import LighterIngestor.PartialFlush
import LighterIngestor.Service
import LighterIngestor.Lives
import LighterIngestor.ServiceRuns
import LighterIngestor.StoredTracks
import LighterIngestor.ServiceStorage
import LighterIngestor.ServiceSymbols
import LighterIngestor.ServiceDrain
import LighterIngestor.ServiceTrades
import LighterIngestor.ChannelNames
import LighterIngestor.Subscriptions
import LighterIngestor.ExportReading
import LighterIngestor.ExportReplay
import LighterIngestor.ExportRun
import LighterIngestor.ExportFiles
import LighterIngestor.ExportCompletion
