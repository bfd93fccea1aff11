import Sometest.Lib.Run
import Sometest.Lib.Block
import Sometest.Lib.Framing
import Sometest.Lib.Fifo
import Sometest.Lib.Index
import Sometest.Lib.BoundedMap
import Sometest.Lib.OrderedMap
import Sometest.Lib.Zipper
import Sometest.Lib.Walks
import Sometest.Lib.Locking
import Sometest.RbTreeArray.Model
import Sometest.RbTreeArray.Shape
import Sometest.RbTreeArray.Climb
import Sometest.RbTreeArray.InsertFix
import Sometest.RbTreeArray.Insert
import Sometest.RbTreeArray.Represents
import Sometest.RbTreeArray.Turn
import Sometest.RbTreeArray.Slips
import Sometest.RbTreeArray.FiniteMap
import Sometest.RbTreeArray.Links
import Sometest.RbTreeArray.Balance
import Sometest.RbTreeArray.Extremes
import Sometest.RbTreeArray.Accounting
import Sometest.RbTreeArray.StackSafety
import Sometest.RbTreeArray.Clear
import Sometest.RbTreeArray.Ledger
import Sometest.Net.Typedef
import Sometest.Net.CircularBuffer
import Sometest.Net.CircularFifo
import Sometest.Net.Framer
import Sometest.Net.FramerProgress
import Sometest.Net.CSyncBuffer
import Sometest.Net.SyncFifo
import Sometest.Net.CircleBuffer
import Sometest.Net.Session
import Sometest.Net.Uninitialised
import Sometest.Net.Receiver
import Sometest.Epoll.Connection
import Sometest.Epoll.Server
import Sometest.Epoll.Reading
import Sometest.Epoll.Interest
import Sometest.Epoll.Dispatch
import Sometest.Epoll.Responses
import Sometest.TcpClient
import Sometest.Epoll.Client
import Sometest.Epoll.Sending
import Sometest.Epoll.ReadLoop
import Sometest.Epoll.ReadLock
import Sometest.Epoll.Registry
import Sometest.Epoll.Lifetime
import Sometest.Iocp.Connection
import Sometest.Iocp.Reading
import Sometest.Iocp.Writing
import Sometest.Iocp.Responses
import Sometest.Iocp.Lifetime
import Sometest.Iocp.Wakeup
import Sometest.Locks
import Sometest.SingleThread.Connection
import Sometest.SingleThread.Server
import Sometest.SingleThread.Client
import Sometest.SingleThread.Workers
import Sometest.ThreadBase
import Sometest.PushSend
import Sometest.Delivery
import Sometest.BfsDemo
import Sometest.BfsOrder
