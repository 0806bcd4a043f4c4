import Corey.Kern.Exclusive
import Corey.Kern.CollectOnce
import Corey.Kern.Pending
import Corey.Kern.MappingList
import Corey.Kern.WriteBack
import Corey.Kern.FailedVector
import Corey.Kern.Waiting
import Corey.Kern.FreeTables
import Corey.Kern.Containment
import Corey.Kern.Bookkeeping
import Corey.Kern.Pids
import Corey.Kern.RehashFailure
import Corey.Kern.SegmentSizes
import Corey.Metis.Merge
import Corey.Sync.RecLock
import Corey.Sync.SplitRw
import Corey.Sync.McsFair
import Corey.Sync.McsRw
import Corey.Sync.Lifo
import Corey.Sync.SysmonRuns
import Corey.Sync.SysmonRing
import Corey.Dev.E1000Rings
import Corey.Dev.Ide
import Corey.User.Sbrk
import Corey.User.Time
import Corey.Simalloc.Blocks
import Corey.Fs.DbfsDir
