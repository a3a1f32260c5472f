import EwokOS.Kernel.SemaphoreFifo
import EwokOS.Kernel.IpcRun
import EwokOS.Kernel.Interrupt
import EwokOS.Kernel.SchedRun
import EwokOS.Kernel.Privilege
import EwokOS.Memory.KallocRun
import EwokOS.Memory.WindowRun
import EwokOS.Memory.ShmFresh
import EwokOS.Ext3.DirMap
import EwokOS.Ext3.CacheRun
import EwokOS.Vfs.Ring
import EwokOS.Vfs.Listing
import EwokOS.Vfs.Guard
import EwokOS.Net.FragRun
import EwokOS.Net.TcpWatch
import EwokOS.Libc.Rwlock
import EwokOS.Libc.Mutex
import EwokOS.Libc.Barrier
import EwokOS.Net.Arp
import EwokOS.Net.TaskBind
import EwokOS.Libc.VdevClose
import EwokOS.Libc.ShmCacheRun
import EwokOS.Memory.MemMap
import EwokOS.Memory.TrunkFit
import EwokOS.Memory.KmVm
import EwokOS.Memory.LoadRun
import EwokOS.Json.Round
import EwokOS.Json.Stops
import EwokOS.Ext3.MapRun
import EwokOS.Libc.ThreadKey
import EwokOS.Libc.Transfer
import EwokOS.Libc.Once
import EwokOS.Memory.Break
import EwokOS.Vfs.Resolve
import EwokOS.Net.DhcpRun
import EwokOS.Memory.Translation
import EwokOS.Libc.Fnmatch
