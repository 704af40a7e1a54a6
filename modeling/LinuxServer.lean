import LinuxServer.Lib.Lts
import LinuxServer.Lib.FdTable
import LinuxServer.Lib.SlotTable
import LinuxServer.Lib.CyclicSearch
import LinuxServer.Lib.Fifo
import LinuxServer.Lib.RoundRobin
import LinuxServer.Lib.SeqQueue
import LinuxServer.Lib.LowestFree
import LinuxServer.Lib.Inbound
import LinuxServer.Lib.StreamServer
import LinuxServer.Lib.TableServer
import LinuxServer.Lib.OpenServer
import LinuxServer.Lib.Custody
import LinuxServer.Lib.AtomicInt
import LinuxServer.Kernel
import LinuxServer.Select
import LinuxServer.SelectSound
import LinuxServer.SelectBound
import LinuxServer.Poll
import LinuxServer.PollSound
import LinuxServer.ProcPool.Child
import LinuxServer.ProcPool.ChildSound
import LinuxServer.ProcPool.Process
import LinuxServer.ProcPool.ChildLimit
import LinuxServer.ProcPool.ChildLoop
import LinuxServer.ProcPool.ChildProgress
import LinuxServer.ProcPool.Parent
import LinuxServer.ProcPool.Fork
import LinuxServer.ProcPool.ParentTable
import LinuxServer.ProcPool.ParentSignals
import LinuxServer.ProcPool.ParentSelect
import LinuxServer.ProcPool.Shutdown
import LinuxServer.ProcPool.ShutdownProgress
import LinuxServer.ProcPool.ChildSignals
import LinuxServer.ProcPool.ChildDelivery
import LinuxServer.ProcPool.Distribution
import LinuxServer.ProcPool.DistributionSound
import LinuxServer.ThreadSafeQueue
import LinuxServer.ThreadSafeQueueSound
import LinuxServer.ThreadPool.Server
import LinuxServer.ThreadPool.Dispatch
import LinuxServer.ThreadPool.Wakeups
import LinuxServer.ThreadPool.Shutdown
import LinuxServer.ThreadPool.Sigpipe
import LinuxServer.ThreadPool.ClientCount
import LinuxServer.ThreadPool.Delivery
import LinuxServer.ThreadPool.Completion
import LinuxServer.Epoll.Server
import LinuxServer.Epoll.Monitor
import LinuxServer.Epoll.Stale
import LinuxServer.Epoll.Edge
import LinuxServer.Epoll.Chunks
import LinuxServer.Epoll.Custody
import LinuxServer.Epoll.Signals
import LinuxServer.ReadPaths
import LinuxServer.SelectDelivery
import LinuxServer.PollDelivery
import LinuxServer.Libev
import LinuxServer.LibevDelivery
import LinuxServer.FileDown
import LinuxServer.SimpleTcp
import LinuxServer.SimpleTcpPair
import LinuxServer.Client.Split
import LinuxServer.Client.Load
import LinuxServer.Client.Completion
import LinuxServer.LoadTest
import LinuxServer.LoadTestAccounts
