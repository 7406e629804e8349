import OrderBookServer.StuckTurns
import OrderBookServer.Recycling
import OrderBookServer.ReadBack
import OrderBookServer.Reference
import OrderBookServer.Fills
import OrderBookServer.EmptyOrders
import OrderBookServer.SnapshotText
import OrderBookServer.LatencyTracker
import OrderBookServer.Timer
import OrderBookServer.ShareWindows
import OrderBookServer.ShareCounts
import OrderBookServer.OrderBookController
import OrderBookServer.MpscSafety
import OrderBookServer.HandshakeSafety
import OrderBookServer.PoolFifo
import OrderBookServer.SharedPoolSafety
import OrderBookServer.TaskRelease
import OrderBookServer.ClientSocketsSafety
import OrderBookServer.Commuting
import OrderBookServer.NumberTokens
import OrderBookServer.JsonTransfer
import OrderBookServer.ModifyPlacement
import OrderBookServer.Occurrences
import OrderBookServer.StdString
import OrderBookServer.HttpRequest
import OrderBookServer.HttpReading
import OrderBookServer.HeaderLines
import OrderBookServer.HttpBody
import OrderBookServer.HttpReturns
import OrderBookServer.SentRequest
import OrderBookServer.HttpTurns
import OrderBookServer.ReadBuffer
import OrderBookServer.BodyParams
import OrderBookServer.FormTurns
import OrderBookServer.BodyMembers
import OrderBookServer.MultipartForm
import OrderBookServer.UrlEncoded
import OrderBookServer.QueryString
import OrderBookServer.PairStaging
import OrderBookServer.ResponseStream
import OrderBookServer.StreamSafety
import OrderBookServer.StopEffective
import OrderBookServer.EventLoop
import OrderBookServer.EventLoopInvariant
import OrderBookServer.Endpoints
import OrderBookServer.History
import OrderBookServer.SnapshotReading
import OrderBookServer.EventBaseManager
import OrderBookServer.Base64
import OrderBookServer.Acyclic
import OrderBookServer.HandlePrograms
import OrderBookServer.HeapContainers
import OrderBookServer.HeapSafety
