import AspiraBroker.MpscFifo
import AspiraBroker.JournalRing
import AspiraBroker.JournalBuffer
import AspiraBroker.JournalFile
import AspiraBroker.JournalShutdown
import AspiraBroker.JournalCrash
import AspiraBroker.BoundedSearch
import AspiraBroker.LinearProbing
import AspiraBroker.Hashmap
import AspiraBroker.HashmapTable
import AspiraBroker.HashmapRefinement
import AspiraBroker.HashmapDuplicates
import AspiraBroker.GatewayParse
import AspiraBroker.Gateway
import AspiraBroker.GatewayThread
import AspiraBroker.GatewayFraming
import AspiraBroker.GatewayAuth
import AspiraBroker.SpscFifo
import AspiraBroker.RiskWorkers
import AspiraBroker.GatewayOrders
import AspiraBroker.GatewaySlots
import AspiraBroker.GatewaySend
import AspiraBroker.GatewayWait
import AspiraBroker.GatewayRoom
import AspiraBroker.GatewayTraffic
import AspiraBroker.GatewayIsolation
import AspiraBroker.GatewayRate
import AspiraBroker.HashmapCounters
import AspiraBroker.AlignedCells
import AspiraBroker.LinkedChain
import AspiraBroker.LockfreePool
import AspiraBroker.MemoryPool
import AspiraBroker.MemoryTier
import AspiraBroker.SlabThreads
import AspiraBroker.MarketData
import AspiraBroker.MemoryTierLeaks
import AspiraBroker.Disruptor
import AspiraBroker.GatewayFields
import AspiraBroker.GatewayNumerals
import AspiraBroker.GatewayPrice
import AspiraBroker.GatewayRoundTrip
import AspiraBroker.GatewayStrict
import AspiraBroker.Logger
import AspiraBroker.MempoolArenas
import AspiraBroker.GatewayBinary
import AspiraBroker.JournalFlush
import AspiraBroker.BumpPointer
import AspiraBroker.Hugepage
import AspiraBroker.LatencyStats
import AspiraBroker.LoggerQueue
import AspiraBroker.MemoryTierTurns
import AspiraBroker.MemoryTierWarm
import AspiraBroker.MempoolLayout
import AspiraBroker.MempoolNodes
import AspiraBroker.SlabTemplate
import AspiraBroker.ByteMemory
import AspiraBroker.DisruptorLayout
import AspiraBroker.LockfreePoolBulk
import AspiraBroker.AmortisedRuns
import AspiraBroker.DescriptorTable
import AspiraBroker.DisruptorTemplate
import AspiraBroker.GatewayDescriptors
import AspiraBroker.GatewayResponses
import AspiraBroker.LockfreePoolCounters
import AspiraBroker.SlabCounters
import AspiraBroker.GatewaySession
import AspiraBroker.JournalDurability
import AspiraBroker.JournalProgress
import AspiraBroker.Benchmark
import AspiraBroker.MemoryTierClassify
import AspiraBroker.NameRegistry
import AspiraBroker.Shmem
import AspiraBroker.ShmemNames
