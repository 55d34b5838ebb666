import HCore.Words
import HCore.Machine
import HCore.Base
import HCore.SlabPages
import HCore.SlabAlloc
import HCore.Chains
import HCore.Runs
import HCore.SlabLayout
import HCore.SlabFreeList
import HCore.SlabPageRuns
import HCore.SlabClasses
import HCore.SlabRuns
import HCore.SlabSlots
import HCore.SlabTermination
import HCore.SlabReclaim
import HCore.Framing
import HCore.LittleEndian
import HCore.PoolRequests
import HCore.SortedList
import HCore.PackModel
import HCore.PackReader
import HCore.PackGrammar
import HCore.PackDecoding
import HCore.PackAcceptance
import HCore.PackIncremental
import HCore.PackBounds
import HCore.SortedListRuns
import HCore.PackContents
import HCore.PackHistory
import HCore.PackRoundTrip
import HCore.BalancedTrees
import HCore.RbtreeDelete
import HCore.RbtreeErase
import HCore.RbtreeRuns
import HCore.HashProbe
import HCore.HashTableRuns
import HCore.SendChain
import HCore.SendChainRuns
import HCore.Shmtx
import HCore.SlabAttach
import HCore.Datagrams
import HCore.ListBackends
import HCore.PackCalls
import HCore.RbtreeTimers
import HCore.CHeap
import HCore.DebugHeap
import HCore.DebugHeapRuns
import HCore.PoolCalls
import HCore.PoolDestroy
import HCore.BaseCalls
import HCore.BitMap
import HCore.SlabInit
import HCore.DecimalText
import HCore.GmTime
import HCore.NetMask
import HCore.SlabFirstFit
import HCore.TimeGrammar
import HCore.TimeText
import HCore.VersionText
import HCore.SlabThrift
import HCore.NumberText
import HCore.PortRange
import HCore.InetAddr
import HCore.MacAddr
import HCore.UrlText
import HCore.TextWindow
import HCore.Numerals
import HCore.Formatter
import HCore.FormatText
import HCore.SockText
import HCore.PrimeSearch
import HCore.TableSize
import HCore.ReflectedCrc
import HCore.Crc32
import HCore.GrowingString
import HCore.PrintParse
import HCore.MaximalRuns
import HCore.Tokens
import HCore.Rings
import HCore.StableInsertion
import HCore.Queue
import HCore.RbtreeTraversal
import HCore.SizeUnits
import HCore.FullPath
import HCore.DebugTeardown
import HCore.SocketEvents
import HCore.PeerBinding
import HCore.LogTime
import HCore.PoolAlignment
import HCore.PoolService
import HCore.DynamicArray
import HCore.ArrayRuns
import HCore.MultipOverflow
import HCore.NumericScanners
import HCore.IovecBuilding
import HCore.AtomicCounter
import HCore.CriticalSection
import HCore.ShmtxObject
import HCore.Shpool
import HCore.ShpoolContents
import HCore.PackTransport
import HCore.LogLine
import HCore.TextOrder
import HCore.LogOrder
import HCore.BurstErrors
import HCore.Crc32Errors
import HCore.HexDump
import HCore.PoolFrames
import HCore.ChainPool
import HCore.ChainRuns
import HCore.ArrayLife
import HCore.ArrayStack
import HCore.PolynomialKeys
import HCore.HashKey
import HCore.LogFiles
import HCore.ConnectionLife
