import Pintos.Preemption
import Pintos.SwapDevice
import Pintos.VmOwnership
import Pintos.VmProtection
import Pintos.SemaOrder
import Pintos.SynchSignals
import Pintos.DescriptorTable
import Pintos.MlfqsPriority
import Pintos.SynchOrder
import Pintos.ExitStatus
import Pintos.ChildList
import Pintos.MallocSafety
import Pintos.InodeHandles
import Pintos.FreeMapPersistence
import Pintos.DirectoryMap
import Pintos.Ustar
import Pintos.CommandLine
import Pintos.InodeBytes
import Pintos.PallocRuns
import Pintos.HashSet
import Pintos.PagedirMap
import Pintos.ElfLayout
import Pintos.Clock
import Pintos.IntqMonitor
import Pintos.LoadAverage
import Pintos.StackGrowth
import Pintos.AlarmClock
import Pintos.Partitions
