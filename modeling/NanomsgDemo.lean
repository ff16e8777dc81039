import NanomsgDemo.Lib.Runs
import NanomsgDemo.Lib.Framing
import NanomsgDemo.Lib.Tagged
import NanomsgDemo.Lib.Memory
import NanomsgDemo.Lib.Ownership
import NanomsgDemo.Lib.Recycling
import NanomsgDemo.Lib.Ledger
import NanomsgDemo.Lib.Format
import NanomsgDemo.Lib.TextStreams
import NanomsgDemo.Lib.Tokens
import NanomsgDemo.Lib.Buffers
import NanomsgDemo.Lib.Fifo
import NanomsgDemo.Lib.InsertionOrder
import NanomsgDemo.Lib.Undo
import NanomsgDemo.Lib.Worklist
import NanomsgDemo.Lib.Radix64
import NanomsgDemo.Lib.Rounding
import NanomsgDemo.Lib.WordBytes
import NanomsgDemo.Lib.Absorb
import NanomsgDemo.Lib.Underway
import NanomsgDemo.Net.CacheQueue
import NanomsgDemo.Net.CacheFifo
import NanomsgDemo.Net.CString
import NanomsgDemo.Net.NetHead
import NanomsgDemo.Net.SocketCore
import NanomsgDemo.Net.Feeding
import NanomsgDemo.Net.Hostile
import NanomsgDemo.Net.NanomsgSocket
import NanomsgDemo.Net.NnDescriptors
import NanomsgDemo.Net.ConcurrentParse
import NanomsgDemo.Net.SocketSession
import NanomsgDemo.Net.ReplyDispatch
import NanomsgDemo.Net.EndNotices
import NanomsgDemo.Net.BuffereventOwnership
import NanomsgDemo.Net.ManagerT
import NanomsgDemo.Net.SessionManager
import NanomsgDemo.Net.CenterServer
import NanomsgDemo.Net.SharedCore
import NanomsgDemo.Net.SocketTimer
import NanomsgDemo.Net.TimerReentry
import NanomsgDemo.Net.TimerWin32
import NanomsgDemo.Net.MultimediaRuns
import NanomsgDemo.Net.MemoryPool
import NanomsgDemo.Lib.Branching
import NanomsgDemo.Nanomsg.Trie
import NanomsgDemo.Nanomsg.TrieNodes
import NanomsgDemo.Nanomsg.TrieRemoval
import NanomsgDemo.Nanomsg.Subscriptions
import NanomsgDemo.Net.MessageQueue
import NanomsgDemo.Net.QueueConsumers
import NanomsgDemo.Net.MsgdataObjects
import NanomsgDemo.Net.ChannelSeparation
import NanomsgDemo.Platform.Users
import NanomsgDemo.Platform.PositionalAccess
import NanomsgDemo.Platform.PlatformServer
import NanomsgDemo.Platform.SessionOwnership
import NanomsgDemo.Platform.Conversation
import NanomsgDemo.Sql.SQLConnPool
import NanomsgDemo.Sql.ConnectionReuse
import NanomsgDemo.Sql.UsableConnections
import NanomsgDemo.Sql.ConnectGuard
import NanomsgDemo.Sql.SQLQueryResult
import NanomsgDemo.Sql.DriverObjects
import NanomsgDemo.Utils.Passed
import NanomsgDemo.Utils.FileUtils
import NanomsgDemo.Utils.Base64
import NanomsgDemo.Utils.Base64Pipeline
import NanomsgDemo.Utils.XXTeaCipher
import NanomsgDemo.Utils.XXTea
import NanomsgDemo.Utils.XXTeaRoundTrip
import NanomsgDemo.Utils.Md5
import NanomsgDemo.Utils.Md5File
import NanomsgDemo.Utils.TextFiles
import NanomsgDemo.Utils.WalkDir
import NanomsgDemo.Http.Evhttp
import NanomsgDemo.Http.JsonWriter
import NanomsgDemo.Http.LwUtil
import NanomsgDemo.Http.InPlace
import NanomsgDemo.Http.QueryDecoders
import NanomsgDemo.Http.Queries
import NanomsgDemo.Http.Trim
import NanomsgDemo.Http.HttpServer
import NanomsgDemo.Http.HttpServerBusiness
import NanomsgDemo.Http.BodyBuffers
import NanomsgDemo.Http.VerbatimReplies
import NanomsgDemo.Config.TinyXml
import NanomsgDemo.Config.TinyXmlNodes
import NanomsgDemo.Config.Properties
import NanomsgDemo.Config.Escapes
import NanomsgDemo.Config.StoredProperties
import NanomsgDemo.Config.RoundTrip
