import Rymos.Base.Blocks
import Rymos.Base.Bytes
import Rymos.Base.Extents
import Rymos.Base.Files
import Rymos.Base.Forest
import Rymos.Base.Overlap
import Rymos.Base.Runs
import Rymos.Boot.Listing
import Rymos.Boot.Volume
import Rymos.Clock.Rtc
import Rymos.Command.Builder
import Rymos.Env.Room
import Rymos.Heap.Whole
import Rymos.Io.Capacity
import Rymos.Io.Dup
import Rymos.Io.Output
import Rymos.Mem.Allocator
import Rymos.Mem.Apart
import Rymos.Mem.Failed
import Rymos.Mem.PartialMap
import Rymos.Mem.Wraps
import Rymos.Path.CreateDirs
import Rymos.Pfs.Codec
import Rymos.Pfs.Confine
import Rymos.Pfs.Crash
import Rymos.Pfs.FreeRun
import Rymos.Pfs.Normalize
import Rymos.Pfs.Posix
import Rymos.Pfs.Race
import Rymos.Pfs.SizeLimit
import Rymos.Pfs.Times
import Rymos.Pfs.Unchanged
import Rymos.Pfs.WriteLaw
import Rymos.Sched.AnyChild
import Rymos.Sched.Load
import Rymos.Sched.Preempt
import Rymos.Sched.Refuse
import Rymos.Sched.Teardown
import Rymos.Sched.Wakeup
import Rymos.Shell.RamMap
import Rymos.Spawn.Failure
import Rymos.Upload.Agree
import Rymos.Upload.Runs
import Rymos.Stdish.Runs
import Rymos.Console.Serial
import Rymos.Console.Line
import Rymos.Boot.Handover
