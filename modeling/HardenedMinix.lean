import HardenedMinix.Kernel.SharedLists
import HardenedMinix.Pe.Soundness
import HardenedMinix.Pe.Transparency
import HardenedMinix.Pe.Sharers
import HardenedMinix.Pe.EventReplay
import HardenedMinix.Pe.ForkLabels
import HardenedMinix.Pe.KernelWrites
import HardenedMinix.Pe.Elements
import HardenedMinix.Ipc.Deadlock
import HardenedMinix.Ipc.Delivery
import HardenedMinix.Vm.Hardened
import HardenedMinix.Vm.Frames
import HardenedMinix.Kernel.Timers
import HardenedMinix.Kernel.SafeCopies
import HardenedMinix.Kernel.ReadyQueuesRun
import HardenedMinix.Kernel.Stepping
import HardenedMinix.Vm.OwnershipRuns
import HardenedMinix.Vfs.Locks
import HardenedMinix.Vfs.ThreeLevelLock
import HardenedMinix.IpcServer.SemAtomic
import HardenedMinix.IpcServer.Shm
import HardenedMinix.Vfs.PipeWakeSelect
import HardenedMinix.Pfs.ReadWrite
import HardenedMinix.Libsys.TimersExact
import HardenedMinix.Ds.SubscribersTold
import HardenedMinix.Ipc.UpdateUndisturbed
import HardenedMinix.Libmthread.ThreadExclusion
import HardenedMinix.Pfs.RightsRuns
import HardenedMinix.Libvtreefs.InodeRuns
import HardenedMinix.Libblockdriver.DriverRuns
import HardenedMinix.Kernel.InterruptRuns
import HardenedMinix.Kernel.SendMasks
import HardenedMinix.Vm.RegionInfo
import HardenedMinix.Vm.RegionUnmapExact
import HardenedMinix.Vm.AllocRuns
import HardenedMinix.Kernel.LinCopyExact
import HardenedMinix.Vm.ForkFailure
import HardenedMinix.Vm.Extend
import HardenedMinix.Vm.SlabRuns
import HardenedMinix.Mfs.BitmapRuns
import HardenedMinix.Mfs.GetdentsExact
import HardenedMinix.Mfs.SearchDirRuns
import HardenedMinix.Libminixfs.Scatter
import HardenedMinix.Vm.PageCounts
