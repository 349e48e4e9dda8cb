import Nebulea.KernelPriorities
import Nebulea.KernelConsistency
import Nebulea.KernelListOrder
import Nebulea.KernelStores
import Nebulea.KernelZombies
import Nebulea.SemaphoreDeletion
import Nebulea.WaitpidRuns
import Nebulea.CongruentialProbe
import Nebulea.HashTable
import Nebulea.HashTableLaws
import Nebulea.Mmu
import Nebulea.PagingLayout
import Nebulea.PagingPrograms
import Nebulea.AddressSpaces
import Nebulea.PagingBoot
import Nebulea.SharedMemory
import Nebulea.SharedMemoryLaws
import Nebulea.SharedMemoryCalls
import Nebulea.MachineBoot
import Nebulea.MemoryIsolation
import Nebulea.FrameAccounting
import Nebulea.SharedPageMap
import Nebulea.KernelKinship
import Nebulea.KernelIdle
import Nebulea.KernelSleepers
import Nebulea.SemaphoreBulk
import Nebulea.SharedPageCount
import Nebulea.SharedPageNull
import Nebulea.StartRefusals
import Nebulea.KernelStacks
import Nebulea.ArgumentSlot
import Nebulea.KernelFootprints
import Nebulea.RingBuffer
import Nebulea.MessageBuffers
import Nebulea.MessageQueueRuns
import Nebulea.FaultingReceivers
import Nebulea.QueueLedger
import Nebulea.LoggedRuns
import Nebulea.HashTableLoad
import Nebulea.HashTableRuns
import Nebulea.HashTableFailures
import Nebulea.HalfWords
import Nebulea.UnboundedTerminal
import Nebulea.Screen
import Nebulea.ScreenTerminal
import Nebulea.FramePool
import Nebulea.FramePoolCalls
import Nebulea.FramePoolRuns
import Nebulea.FrameBlocks
import Nebulea.DirectoryCopy
import Nebulea.QueueDelivery
import Nebulea.QueueRefusals
import Nebulea.KernelWakeups
import Nebulea.QueueRefusals
import Nebulea.SemaphoreWakeups
import Nebulea.KernelElectionCalls
import Nebulea.KernelFairness
import Nebulea.KernelGenerations
import Nebulea.FormatRuns
import Nebulea.FormatSinks
import Nebulea.InfoRuns
import Nebulea.KeyboardConsole
import Nebulea.LongDivision
import Nebulea.StringSearch
