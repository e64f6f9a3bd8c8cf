import GlitchedOS.Lib.Run
import GlitchedOS.Lib.Safe
import GlitchedOS.Lib.Chain
import GlitchedOS.Lib.Ring
import GlitchedOS.Lib.RoundRobin
import GlitchedOS.Lib.Doubly
import GlitchedOS.Lib.Loop
import GlitchedOS.Lib.OnesComplement
import GlitchedOS.Lib.PushDown
import GlitchedOS.Lib.RadixForest
import GlitchedOS.Lib.Tally
import GlitchedOS.Lib.Ownership
import GlitchedOS.Paging.Entry
import GlitchedOS.Paging.Model
import GlitchedOS.Paging.Counts
import GlitchedOS.Paging.Walk
import GlitchedOS.Paging.Alloc
import GlitchedOS.Paging.Progress
import GlitchedOS.Paging.Free
import GlitchedOS.Paging.Cow
import GlitchedOS.Paging.Clone
import GlitchedOS.Paging.System
import GlitchedOS.Paging.CopyOnWrite
import GlitchedOS.Paging.UserString
import GlitchedOS.Paging.Region
import GlitchedOS.Paging.ForkExit
import GlitchedOS.Paging.Ranges
import GlitchedOS.Error
import GlitchedOS.Vfs.MountRoots
import GlitchedOS.Vfs.Unmount
import GlitchedOS.Vfs.MountPaths
import GlitchedOS.Vfs.Getcwd
import GlitchedOS.Vfs.SplitWalk
import GlitchedOS.Fs.RamfsRuns
import GlitchedOS.Fs.FatClusters
import GlitchedOS.Fs.FatVolume
import GlitchedOS.Fs.FatCreate
import GlitchedOS.Fs.FatDelete
import GlitchedOS.Fs.FatScans
import GlitchedOS.Fs.FatResolve
import GlitchedOS.Fs.ReadOnlyMounts
import GlitchedOS.Drivers.Partitions
import GlitchedOS.Drivers.Block
import GlitchedOS.Drivers.Gpt
import GlitchedOS.Drivers.Rtl8139
import GlitchedOS.Drivers.Mouse
import GlitchedOS.Drivers.TtyLines
import GlitchedOS.Drivers.TtyIndices
import GlitchedOS.Drivers.Fbcon
import GlitchedOS.Drivers.FbconInside
import GlitchedOS.Process.Files
import GlitchedOS.Process.Scheduler
import GlitchedOS.Process.RoundRobin
import GlitchedOS.Process.Signals
import GlitchedOS.Process.Frame
import GlitchedOS.Process.Zombie
import GlitchedOS.Process.SchedOnly
import GlitchedOS.Process.Descriptions
import GlitchedOS.Process.Tree
import GlitchedOS.Process.TreeSteps
import GlitchedOS.Process.TreePrograms
import GlitchedOS.Process.FailedExec
import GlitchedOS.Process.UserStack
import GlitchedOS.Process.Break
import GlitchedOS.Process.TreeRuns
import GlitchedOS.Process.DescriptorCalls
import GlitchedOS.Process.DescriptionRuns
import GlitchedOS.Process.DescriptionCounts
import GlitchedOS.Process.Groups
import GlitchedOS.Process.PipeBuffer
import GlitchedOS.Process.PipeNonblock
import GlitchedOS.Process.SignalReturn
import GlitchedOS.Process.SignalOnce
import GlitchedOS.Process.BlockedCalls
import GlitchedOS.Process.WaitAgree
import GlitchedOS.Process.StepInvariant
import GlitchedOS.Process.TaskInvariant
import GlitchedOS.Process.ExitStatus
import GlitchedOS.Process.SigKill
import GlitchedOS.Process.Interruptions
import GlitchedOS.Process.SignalMasks
import GlitchedOS.Process.WaitReports
import GlitchedOS.Memory.HeapRoom
import GlitchedOS.Memory.FlatMoves
import GlitchedOS.Process.ElfSafety
import GlitchedOS.Process.ElfTrust
import GlitchedOS.Net.Ip
import GlitchedOS.Net.Fragments
import GlitchedOS.Net.Socket
import GlitchedOS.Net.Ports
import GlitchedOS.Net.Delivery
import GlitchedOS.Net.UdpSend
import GlitchedOS.Net.Icmp
import GlitchedOS.Net.IpSend
import GlitchedOS.Net.Routes
import GlitchedOS.Net.Reception
import GlitchedOS.Net.ArpWaits
import GlitchedOS.Net.ArpTimeouts
import GlitchedOS.Fs.FatWalks
import GlitchedOS.Vfs.Canonical
import GlitchedOS.Vfs.Realpath
import GlitchedOS.Fs.FatRead
import GlitchedOS.Fs.FatTables
import GlitchedOS.Fs.RamfsArrays
import GlitchedOS.Fs.RamfsTruncation
import GlitchedOS.Fs.RamfsFreed
import GlitchedOS.Fs.RamfsRename
import GlitchedOS.Fs.RamfsListing
import GlitchedOS.Libc.Fnmatch
import GlitchedOS.Libc.Glob
import GlitchedOS.Libc.Environ
import GlitchedOS.Lib.Spans
import GlitchedOS.Drivers.Timer
import GlitchedOS.Fs.FatTimestamps
import GlitchedOS.Fs.FatShortNames
import GlitchedOS.Lib.RadixLeaves
import GlitchedOS.Lib.Pool
import GlitchedOS.Paging.AllFrames
import GlitchedOS.Paging.FramePool
import GlitchedOS.Paging.KernelHalf
import GlitchedOS.Paging.Sound
import GlitchedOS.Paging.SearchHint
import GlitchedOS.Lib.FirstFit
import GlitchedOS.Memory.HeapRegions
import GlitchedOS.Paging.KernelPages
import GlitchedOS.Memory.KernelHeap
import GlitchedOS.Memory.ForeignFrees
import GlitchedOS.Memory.HeapBlocks
import GlitchedOS.Lib.RadixLinks
import GlitchedOS.Paging.RoundTrip
import GlitchedOS.Paging.WholeTree
import GlitchedOS.Paging.ExactRegion
import GlitchedOS.Process.ElfResidue
import GlitchedOS.Net.UdpLog
import GlitchedOS.Net.Hosts
