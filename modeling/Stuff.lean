import Stuff.EventRuns
import Stuff.MachineWords
import Stuff.ContainerStream
import Stuff.ContainerStreamBounds
import Stuff.ParserUrl
import Stuff.Http2Frames
import Stuff.Http2Hpack
import Stuff.Http2Output
import Stuff.Http2Accounts
import Stuff.Http2OutputWindows
import Stuff.Http2OutputCredits
import Stuff.Http2OutputFraming
import Stuff.Http2Parser
import Stuff.Http2ParserWindows
import Stuff.CreditWindow
import Stuff.Http2Net
import Stuff.Http2Flow
import Stuff.Http2FlowControl
import Stuff.Http2Progress
import Stuff.Http2InputBuf
import Stuff.Http2ReadLoop
import Stuff.Http2Peer
import Stuff.Http2PeerPromises
import Stuff.Http2PeerStreams
import Stuff.AgedQueue
import Stuff.CacheRingAge
import Stuff.NodeIndex
import Stuff.CacheLfu
import Stuff.BloomFilter
import Stuff.CacheBfLfu
import Stuff.CacheLru
import Stuff.CacheSLru
import Stuff.CacheExpiration
import Stuff.ContainerRequestQueue
import Stuff.ContainerPool
import Stuff.Http1Manager
import Stuff.Http1Promises
import Stuff.Http1Callbacks
import Stuff.Holders
import Stuff.ThreadsSafeQueue
import Stuff.ThreadsOrderedWorker
import Stuff.ThreadsSafeQueueProgress
import Stuff.FairRuns
import Stuff.ContainerListArray
import Stuff.ThreadsMapReduce
import Stuff.ThreadsMapReduceSchedules
import Stuff.ThreadsPipeline
import Stuff.CoroWaiterCalls
import Stuff.CoroKeyUpdater
import Stuff.CoroMapReduce
import Stuff.CallTrees
import Stuff.FileWriter
import Stuff.ThreadsDiskQueue
import Stuff.ThreadsDiskQueueDelivery
import Stuff.MqServer
import Stuff.OrderedMap
import Stuff.TntReplyWaiter
import Stuff.ByteOrder
import Stuff.ByteSources
import Stuff.CborCodec
import Stuff.CborRoundTrip
import Stuff.CborSources
import Stuff.FileReader
import Stuff.RowLocks
import Stuff.MysqlTaskQueue
import Stuff.SqlText
import Stuff.MysqlWorkflow
import Stuff.MysqlOnce
import Stuff.MysqlUpload
import Stuff.MysqlUploadDelivery
import Stuff.MysqlQuote
import Stuff.MysqlCacheable
import Stuff.KvBatchClient
import Stuff.KvBatchClientProgress
import Stuff.MysqlMessageQueue
import Stuff.MysqlMessageQueueDelivery
import Stuff.CborTags
import Stuff.CborIntegers
import Stuff.Base128
import Stuff.Base64
import Stuff.ParserCsv
import Stuff.ULeb128
import Stuff.Utf8
import Stuff.MsgPack
import Stuff.ProtobufReader
import Stuff.ProtobufVarInt
import Stuff.ProtobufWire
import Stuff.ProtobufWriter
import Stuff.ProtobufGenerated
import Stuff.ProtobufMismatch
import Stuff.FileChunks
import Stuff.Loops
import Stuff.Splitting
import Stuff.FileBlock
import Stuff.ParserAws
import Stuff.ParserSimple
import Stuff.ParserMultipart
import Stuff.Json
import Stuff.Jwt
import Stuff.ResourceTar
import Stuff.Budgets
import Stuff.HashRing
import Stuff.SdBalancer
import Stuff.SdBalancerRuns
import Stuff.SdBalancerInfo
import Stuff.ArchiveFilter
import Stuff.FileFilter
import Stuff.ArchiveGzip
import Stuff.FileFilterRoundTrip
import Stuff.MassClientInvariant
import Stuff.MassClientRuns
import Stuff.EPoll
import Stuff.EPollRetry
import Stuff.EPollRuns
import Stuff.TcpConnection
import Stuff.TcpConnectionWrite
import Stuff.TcpConnectionRequests
import Stuff.ContainerSession
import Stuff.Http2Padding
import Stuff.Http2ReservedBit
import Stuff.Base64Strict
import Stuff.TntProtocol
import Stuff.MysqlMessageQueueRollback
import Stuff.MysqlWorkflowGet
import Stuff.MsgPackParse
import Stuff.HashRendezvous
import Stuff.ParserAtoi
import Stuff.StringReplace
import Stuff.ParserPathParams
import Stuff.ParserAwsHeaders
import Stuff.JwtStructure
import Stuff.ArchiveTruncated
import Stuff.AllocatorArena
import Stuff.ConfigContext
import Stuff.ContainerCollect
import Stuff.ContainerListArrayIterator
import Stuff.ContainerLockfree
import Stuff.FileBufWriter
import Stuff.MassClientTimer
import Stuff.ContainerAlgorithm
import Stuff.AvxSearch
import Stuff.AvxSearchSigns
import Stuff.CounterMode
import Stuff.SslCtr
import Stuff.Linearization
import Stuff.KvServer
import Stuff.KvLinearizable
import Stuff.MemoryLists
import Stuff.AllocatorPool
import Stuff.ThreadsAtomicSharedPtr
import Stuff.PrometheusHistogramm
import Stuff.PrometheusTime
import Stuff.S3MultipartUpload
import Stuff.SdNotify
import Stuff.CurlMulti
import Stuff.CurlMultiLimits
import Stuff.ByteReaders
import Stuff.AsioMysqlPacket
import Stuff.ThreadsFairQueue
import Stuff.MlDt
import Stuff.CoderSync
import Stuff.Http2Carried
import Stuff.Http2Delivery
import Stuff.JaegerTrace
