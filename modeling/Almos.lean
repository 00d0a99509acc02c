import Almos.RegionPages
import Almos.HeapGrowth
import Almos.DirtyPages
import Almos.FatChains
import Almos.FileIoRefinement
import Almos.FatDirectoryMap
import Almos.Ext2Locate
import Almos.Ext2GroupCoherence
import Almos.SpinlockExclusion
import Almos.RwLock
import Almos.SchedulerStates
import Almos.Ext2MetadataKept
import Almos.KfifoHistory
import Almos.RunQueueAccounts
import Almos.TsarPmmMap
import Almos.Blkio
import Almos.PthreadSync
import Almos.UserWakeup
import Almos.CowFault
import Almos.PpmProbes
import Almos.SysMmap
import Almos.EventListner
import Almos.SpinningBarriers
import Almos.DqdtSearch
import Almos.Ext2Free
import Almos.FatWalks
import Almos.FatWriteNode
import Almos.FatReadFrame
import Almos.KcmObjects
import Almos.RequestSizes
import Almos.SemaphoreOwner
import Almos.SoftBarrierPhases
import Almos.ThreadJoinRuns
import Almos.Elf
import Almos.FileSeek
import Almos.KfifoQueue
import Almos.Mwmr
import Almos.PathSplit
import Almos.SchedSlots
import Almos.Alarms
import Almos.BarrierDestroy
import Almos.CpuTime
import Almos.DqdtPlacement
import Almos.Fork
import Almos.MapperMigrate
import Almos.Signals
import Almos.ThreadOrders
import Almos.UserValloc
import Almos.ArchBibRoundTrip
import Almos.BitmapWords
import Almos.MapperDestroy
import Almos.Metafs
import Almos.PthreadKeys
import Almos.PthreadOnce
import Almos.Ext2DirectoryNames
import Almos.MapperGetPageRuns
import Almos.RegionTree
