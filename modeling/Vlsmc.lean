import Vlsmc.Words
import Vlsmc.SuccessorChain
import Vlsmc.Fat16Layout
import Vlsmc.Fat16Names
import Vlsmc.Fat16Volume
import Vlsmc.Fat16Files
import Vlsmc.Fat16Geometry
import Vlsmc.Fat16Chains
import Vlsmc.Fat16Directory
import Vlsmc.Fat16Soundness
import Vlsmc.Fat16Updates
import Vlsmc.Fat16Growth
import Vlsmc.Fat16Store
import Vlsmc.RootedTree
import Vlsmc.Fat16Effects
import Vlsmc.Fat16Operations
import Vlsmc.Fat16Namespace
import Vlsmc.Fat16Runs
import Vlsmc.Fat16Reading
import Vlsmc.Fat16RoundTrip
import Vlsmc.SharedFrames
import Vlsmc.PhysicalMemory
import Vlsmc.Paging
import Vlsmc.CowClone
import Vlsmc.CowProcesses
import Vlsmc.CowRefinement
import Vlsmc.CowFork
import Vlsmc.CowRuns
import Vlsmc.SyscallStores
import Vlsmc.PmmRuns
import Vlsmc.Scheduler
import Vlsmc.SchedulerRuns
import Vlsmc.RingQueue
import Vlsmc.Ipc
import Vlsmc.IpcRuns
import Vlsmc.ByteMemory
import Vlsmc.BlockList
import Vlsmc.Malloc
import Vlsmc.MallocLayout
import Vlsmc.MallocRuns
import Vlsmc.Kmalloc
import Vlsmc.KmallocLayout
import Vlsmc.KmallocRuns
import Vlsmc.KmallocReuse
import Vlsmc.WordPatches
import Vlsmc.Elf
import Vlsmc.LdSo
import Vlsmc.LdSoImage
import Vlsmc.DemandPaging
import Vlsmc.PageCache
import Vlsmc.FreshPages
import Vlsmc.FreshPagesRuns
import Vlsmc.PageCacheFrames
import Vlsmc.PageCacheContents
import Vlsmc.ElfImage
import Vlsmc.LdSoTables
import Vlsmc.LdSoLayout
import Vlsmc.LdSoLoading
import Vlsmc.LdSoRelocations
import Vlsmc.SchedulerDirectories
import Vlsmc.Processes
import Vlsmc.ProcessWaits
import Vlsmc.ProcessReports
import Vlsmc.ElfRelocations
import Vlsmc.ProgramStart
import Vlsmc.FrameHolders
import Vlsmc.AddressSpaces
import Vlsmc.AddressSpaceSteps
import Vlsmc.AddressSpaceLifetimes
import Vlsmc.AddressSpaceClone
import Vlsmc.AddressSpaceBoot
import Vlsmc.AddressSpaceRuns
import Vlsmc.UserTables
import Vlsmc.Stdio
import Vlsmc.StdioOutput
import Vlsmc.StdioInput
import Vlsmc.Fat16Mount
import Vlsmc.RoundRobin
import Vlsmc.MmioGrants
import Vlsmc.EventChannels
import Vlsmc.EventWaits
import Vlsmc.Vfs
import Vlsmc.FileProtection
import Vlsmc.ForkVmas
import Vlsmc.Regions
import Vlsmc.RegionRuns
import Vlsmc.BorrowedFrames
import Vlsmc.ProcessMemory
import Vlsmc.IdentityMap
import Vlsmc.VfsDirectories
import Vlsmc.SequentialWrites
import Vlsmc.WrittenStreams
import Vlsmc.KernelMappings
import Vlsmc.MmapPlacement
import Vlsmc.Fat16Readers
import Vlsmc.MunmapRanges
import Vlsmc.LazyPages
import Vlsmc.FrameSupply
import Vlsmc.ForkRollback
import Vlsmc.MmapRollback
import Vlsmc.FailedWrites
import Vlsmc.CStrings
import Vlsmc.ExecArguments
import Vlsmc.ExecFailures
import Vlsmc.PathLookups
import Vlsmc.DirectoryEdits
import Vlsmc.PathOperations
import Vlsmc.DirectoryScans
import Vlsmc.DirectoryListings
import Vlsmc.PathSplitters
import Vlsmc.PathStats
import Vlsmc.StorableNames
import Vlsmc.CreatedEntries
import Vlsmc.CreatingOpens
import Vlsmc.PathWrites
import Vlsmc.PathRenames
import Vlsmc.FileServer
import Vlsmc.ChainTermination
import Vlsmc.TableSafety
import Vlsmc.VolumeEnds
import Vlsmc.ChannelQueues
import Vlsmc.CachedPages
import Vlsmc.SleepDurations
import Vlsmc.FrameCompleteness
import Vlsmc.SharingCounts
import Vlsmc.HeapBreak
import Vlsmc.AllocationSizes
import Vlsmc.EagerPages
import Vlsmc.AuxVectors
import Vlsmc.MetadataBounds
import Vlsmc.TracedMemory
import Vlsmc.StringFunctions
import Vlsmc.MemoryBlocks
import Vlsmc.WordStrings
import Vlsmc.BoundedStrings
import Vlsmc.ShellHistory
import Vlsmc.Numerals
import Vlsmc.NumberPrinting
import Vlsmc.IntegerTexts
import Vlsmc.FormatPrinting
import Vlsmc.FormatEnds
import Vlsmc.CountedLoops
import Vlsmc.TypedKeys
import Vlsmc.FileReferences
import Vlsmc.AtaDisk
import Vlsmc.ConsoleText
import Vlsmc.RandomNumbers
import Vlsmc.BootChain
import Vlsmc.AhciDisk
import Vlsmc.RtcMoments
import Vlsmc.KeyedUpdates
import Vlsmc.PageTranslations
import Vlsmc.PciBus
import Vlsmc.PciScan
