import Ngx.CyclicLog
import Ngx.MessageRing
import Ngx.RingDelivery
import Ngx.Alignment
import Ngx.Spans
import Ngx.Palloc
import Ngx.PallocBounds
import Ngx.PoolRegions
import Ngx.Lifetimes
import Ngx.PoolLife
import Ngx.LargeRecords
import Ngx.Positional
import Ngx.Decimal
import Ngx.RedisParse
import Ngx.RedisResume
import Ngx.RedisStream
import Ngx.RedisRecord
import Ngx.RedisDecode
import Ngx.RedisGrammar
import Ngx.RedisBounds
import Ngx.MessageProcess
import Ngx.RedisReconnect
import Ngx.RedisRoom
import Ngx.Connection
import Ngx.WebsocketConnection
import Ngx.HttpResponse
import Ngx.Retry
import Ngx.HttpRequest
import Ngx.HttpConnection
import Ngx.OneResponse
import Ngx.LinkedRing
import Ngx.Queue
import Ngx.QueueLists
import Ngx.QueueMiddle
import Ngx.QueueSort
import Ngx.LinkedStack
import Ngx.ConnectionTable
import Ngx.TableInvariant
import Ngx.Draining
import Ngx.EpollEvents
import Ngx.Broadcast
import Ngx.ChannelQueue
import Ngx.WebsocketReader
import Ngx.HashTable
import Ngx.NewMessage
import Ngx.PublishStores
import Ngx.RequestLineGrammar
import Ngx.HeaderGrammar
import Ngx.HeaderSection
import Ngx.HeaderRoundTrip
import Ngx.LowcaseKey
import Ngx.Base64
import Ngx.Sha1Digest
import Ngx.AcceptKey
import Ngx.UpgradeHeaders
import Ngx.Handshake
import Ngx.BoundedText
import Ngx.Sprintf
import Ngx.SprintfNum
import Ngx.FormatText
import Ngx.LogChain
import Ngx.ListeningSockets
import Ngx.RedBlack
import Ngx.Rbtree
import Ngx.RbtreeMemory
import Ngx.Words
import Ngx.RbtreeInsert
import Ngx.RbtreeDelete
import Ngx.RbtreeRuns
import Ngx.EventTimer
import Ngx.ExpireTimers
import Ngx.Worklist
import Ngx.PostedEvents
import Ngx.Gregorian
import Ngx.Times
import Ngx.HttpTime
