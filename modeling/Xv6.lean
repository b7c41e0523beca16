import Xv6.Boot.Mp
import Xv6.Console.Discipline
import Xv6.Fs.FileWrite
import Xv6.Fs.ImageBlocks
import Xv6.Ide.Requests
import Xv6.Locks.Handover
import Xv6.Locks.Order
import Xv6.Locks.Threads
import Xv6.Log.Crash
import Xv6.Log.Reservation
import Xv6.Pipes.Wakeups
import Xv6.Proc.BadPointers
import Xv6.Proc.Exits
import Xv6.Proc.Fifo
import Xv6.Proc.Guaranteed
import Xv6.Proc.QueueOrder
import Xv6.Proc.QueueTimes
import Xv6.Proc.Reaping
import Xv6.Proc.RoundRobin
import Xv6.Strings.Memmove
import Xv6.Syscall.Arguments
import Xv6.Sysfile.NoTrace
import Xv6.User.Malloc.Size
import Xv6.User.Regexp
import Xv6.User.Shell.Run
import Xv6.User.Shell.Strings
import Xv6.Vm.Fork
import Xv6.Vm.Hole
