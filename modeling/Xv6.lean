import Xv6.BufRead
import Xv6.WritelogRace
import Xv6.Fairness
import Xv6.LogContinuity
import Xv6.LockOrder
import Xv6.Recycle
import Xv6.Waitfork
import Xv6.SleepWakeup
import Xv6.LogReservation
import Xv6.CrashRecovery
import Xv6.Pipes
import Xv6.Console
import Xv6.Ide
import Xv6.HeapSize
import Xv6.ShellRun
import Xv6.MkfsImage
import Xv6.FileWrite
import Xv6.RunqueueLinks
import Xv6.Thieves
import Xv6.Paths
import Xv6.SchedReturn
import Xv6.ClockLog
import Xv6.Grep
import Xv6.SyscallArgs
import Xv6.CopyUvm
import Xv6.CopyOut
import Xv6.Mp
import Xv6.Printf
import Xv6.Scripts
import Xv6.MemoryOps
import Xv6.Interrupts
import Xv6.SleepLocks
