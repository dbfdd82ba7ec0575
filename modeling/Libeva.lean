import Libeva.Ds.FineGrainedQueue.Fifo
import Libeva.Ds.LazyList.Hindsight
import Libeva.Ds.LazyList.Reclaim
import Libeva.Minimemcached.Server
import Libeva.Net.TcpConnection
import Libeva.Reactor.Dispatch
import Libeva.Ds.FineGrainedQueue.Wakeup
import Libeva.Net.ByteQueue
import Libeva.Lib.Delimiter
import Libeva.Minimemcached.Framing
import Libeva.Minimemcached.Replies
import Libeva.Minimemcached.Discard
import Libeva.Net.Send
import Libeva.Reactor.ReactorThread
import Libeva.Net.TcpServer
import Libeva.Net.Teardown
import Libeva.TimeWheel.TimeWheel
import Libeva.TimeWheel.Slots
import Libeva.TimeWheel.Expiry
import Libeva.Ds.LazyList.Deadlock
import Libeva.Lib.Ledger
import Libeva.Reactor.Demultiplexer
import Libeva.Thread.MyThreadPool
import Libeva.Ds.LazyList.Alone
import Libeva.Ds.HashSet.FiniteMap
import Libeva.Ds.HashSet.Contains
import Libeva.TimeWheel.Cancel
import Libeva.TimeWheel.Sweep
import Libeva.TimeWheel.Schedule
import Libeva.Lib.Endian
import Libeva.Net.Integers
import Libeva.Lib.Fields
import Libeva.Minimemcached.Tokens
import Libeva.Minimemcached.Hash
import Libeva.Minimemcached.Progress
import Libeva.Lib.Family
import Libeva.Ds.LazyList.History
import Libeva.Ds.HashSet.Threads
import Libeva.Minimemcached.Threads
import Libeva.Net.Wire
import Libeva.Minimemcached.Wire
import Libeva.Minimemcached.Conversations
import Libeva.Thread.CountDownLatch
import Libeva.Thread.Thread
import Libeva.Lib.Mutex
import Libeva.Logger.LogFile
import Libeva.Lib.Numeral
import Libeva.Logger.LogStream
import Libeva.Lib.Calendar
import Libeva.Timestamp
import Libeva.Logger.Logging
import Libeva.Logger.Output
import Libeva.Net.SubReactors
import Libeva.Net.Ownership
import Libeva.TimeWheel.Periodic
import Libeva.Ds.LazyList.Heap
