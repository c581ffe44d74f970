import Xinu.Lib.Coroutine
import Xinu.Lib.Links
import Xinu.Lib.Delta
import Xinu.Lib.PrioQueue
import Xinu.Lib.RoundRobin
import Xinu.Queue
import Xinu.QueueSpec
import Xinu.Heap
import Xinu.Lib.Extents
import Xinu.HeapSpec
import Xinu.Allocations
import Xinu.Kernel
import Xinu.Syscalls
import Xinu.History
import Xinu.Invariant
import Xinu.Facts
import Xinu.Moves
import Xinu.Segments
import Xinu.SemCalls
import Xinu.NewSems
import Xinu.ProcCalls
import Xinu.Kill
import Xinu.Machine
import Xinu.Stacks
import Xinu.Scheduler
import Xinu.Semaphores
import Xinu.Sleeping
import Xinu.Frames
import Xinu.Clients
import Xinu.Future
import Xinu.FutureOnce
import Xinu.FutureExclusive
import Xinu.FutureShared
import Xinu.Services
import Xinu.ServiceResets
import Xinu.ServiceCalls
import Xinu.Lib.Ring
import Xinu.Lib.Checksum
import Xinu.Net
import Xinu.NetServices
import Xinu.UdpQueue
import Xinu.UdpCounts
import Xinu.IcmpQueue
import Xinu.Releases
import Xinu.Receptions
import Xinu.Messages
import Xinu.Arp
import Xinu.Print
import Xinu.Scan
import Xinu.RoundTrip
import Xinu.Datagram
import Xinu.Checksums
import Xinu.IcmpBounds
import Xinu.Lfs
import Xinu.LfsFormat
import Xinu.ServiceKill
import Xinu.ProdCons
import Xinu.Producer
import Xinu.Consumer
import Xinu.ProdConsRuns
import Xinu.Delays
import Xinu.PrioRuns
import Xinu.BatchedSignals
import Xinu.Requests
import Xinu.FreeCount
import Xinu.Pools
import Xinu.Ports
import Xinu.Passing
import Xinu.PortRoom
import Xinu.PortRely
import Xinu.PortRuns
import Xinu.PortBooks
import Xinu.PortShares
import Xinu.PortTokens
import Xinu.PortClearing
import Xinu.PortBalance
import Xinu.PortTurns
import Xinu.PortStale
import Xinu.Tty
import Xinu.TtyEcho
import Xinu.TtyLookAhead
import Xinu.QueueIds
import Xinu.WaitQueues
import Xinu.FlatQueues
import Xinu.FlatFutures
import Xinu.FutureMemory
import Xinu.Tftp
import Xinu.Exchange
import Xinu.Modes
import Xinu.Dotted
import Xinu.Dns
import Xinu.DnsQuestion
import Xinu.DnsAnswers
import Xinu.UdpSlots
import Xinu.Dhcp
import Xinu.DhcpOptions
import Xinu.DhcpAcks
import Xinu.LeakedSlots
import Xinu.Lib.Memory
import Xinu.Names
import Xinu.Lib.Calendar
import Xinu.Ascdate
import Xinu.Lib.Numerals
import Xinu.Numbers
import Xinu.RemoteFiles
import Xinu.RemoteNames
import Xinu.RemoteDisk
import Xinu.Lexan
import Xinu.Shell
import Xinu.CommandArgs
import Xinu.Devices
import Xinu.Conversions
import Xinu.IndexBlocks
import Xinu.Lib.SaveRestore
import Xinu.Interrupts
import Xinu.Lib.FatPivot
import Xinu.Qsort
import Xinu.Config
import Xinu.ConfigRuns
import Xinu.ConfigMemory
import Xinu.ConfigNumbers
import Xinu.ConfigRoutines
import Xinu.LfsFiles
import Xinu.LfsLayout
import Xinu.LfsSetup
import Xinu.LfsTruncate
import Xinu.LfsBytes
import Xinu.LfsWhole
import Xinu.LfsOpen
import Xinu.LfsCalls
import Xinu.LfsRuns
import Xinu.LfsBlocks
import Xinu.LfsRestart
import Xinu.Lib.Chain
import Xinu.Stocks
import Xinu.BufferPools
import Xinu.PortNodes
import Xinu.Lib.Relay
import Xinu.EthRings
