import Glidix.Gxfs.Alloc
import Glidix.Gxfs.InodeRoundTrip
import Glidix.Thread.RangeLockExclusion
import Glidix.Thread.SemaphoreWakeup
import Glidix.Net.FragmentRoundTrip
import Glidix.Vm.ReadOnlyShared
import Glidix.Vm.PageInfoCounts
import Glidix.Net.TcpAcknowledge
import Glidix.Net.TcpBuffers
import Glidix.Net.PortOwners
import Glidix.Thread.FileTableCounts
import Glidix.Vm.FaultCompletes
import Glidix.Util.HeapRuns
import Glidix.Storage.CacheRuns
import Glidix.Fs.ReadDir
import Glidix.Fs.VfsFailure
import Glidix.Thread.Signal
import Glidix.Thread.Mutex
import Glidix.Thread.Sched
import Glidix.Ipc.PipeEnds
import Glidix.Ipc.UnixSocketDelivery
import Glidix.Thread.ExecPerm
import Glidix.Thread.JoinOnce
import Glidix.Util.TimerRuns
import Glidix.Thread.WaitOnce
import Glidix.Hw.BootFrames
import Glidix.Exec.ArgStack
import Glidix.Exec.ScriptChain
import Glidix.Hw.FrameOwners
import Glidix.Exec.Execve
import Glidix.Libc.Semaphore
import Glidix.Libc.Mutex
import Glidix.Libc.Time
import Glidix.Thread.SemaphoreLocks
import Glidix.Libc.HeapRuns
import Glidix.Util.HeapSlabRuns
import Glidix.Exec.ElfImage
import Glidix.Vm.FixedSuccess
import Glidix.Thread.ProcessGroups
import Glidix.Term.Ptty
import Glidix.Term.LineDiscipline
import Glidix.Term.Ktty
import Glidix.Term.KttyInput
import Glidix.Fs.SysMv
import Glidix.Net.UdpSocket
import Glidix.Net.Multicast
import Glidix.Lib.Uses
import Glidix.Exec.ExecErrors
import Glidix.Exec.ExecReleased
import Glidix.Sh.QuotedBackslash
import Glidix.Module.InsmodRight
import Glidix.Fat.Directory
import Glidix.Fat.NameRoundTrip
import Glidix.Thread.RangeLockGet
import Glidix.Fs.PathCopy
import Glidix.Vm.ThreadUnmap
import Glidix.Vm.HardwareBits
import Glidix.Vm.ProtectRegion
import Glidix.Vm.MapBounds
import Glidix.Gxfs.Tree
import Glidix.Gxfs.DropInode
import Glidix.Gxfs.TreeLoad
import Glidix.Gxfs.RecordStream
import Glidix.Gxfs.LoadInode
import Glidix.Thread.SetIds
import Glidix.Storage.PartTable
import Glidix.Storage.PartHandle
import Glidix.Net.CopyOut
import Glidix.Lib.Follow
import Glidix.Fat.LoadImage
import Glidix.Iso.Isofs
import Glidix.Iso.Listing
import Glidix.Net.ReassemblyRuns
import Glidix.Net.ReassemblyDelivery
import Glidix.Net.RecvUnits
import Glidix.Lib.Bubble
import Glidix.Libc.Sort
import Glidix.Libc.Digits
import Glidix.Libc.Strtol
import Glidix.Libc.Scanf
import Glidix.Sh.Command
import Glidix.Sh.Chains
import Glidix.Sh.Redirections
import Glidix.Libc.Stream
import Glidix.Libc.Numeral
import Glidix.Libc.Inet
import Glidix.Libc.InetParse
import Glidix.Libc.InetAccepted
import Glidix.Libc.InetRoundTrip
import Glidix.Libc.Strtok
import Glidix.Users.Tables
import Glidix.Users.Userctl
import Glidix.Users.Consistent
import Glidix.Users.Runs
import Glidix.Users.Lookup
import Glidix.Fs.Acl
import Glidix.Net.Routes
