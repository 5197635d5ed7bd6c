import SengOs.Lib.FileStore
import SengOs.Fs.Create
import SengOs.Fs.Unlink
import SengOs.Fs.Read
import SengOs.Fs.Guarantees
import SengOs.Fs.Split
import SengOs.Fs.Bounds
import SengOs.Pmm.Exhaustion
import SengOs.Pmm.Usable
import SengOs.Pmm.Fallback
import SengOs.Pmm.Order
import SengOs.Lib.Transition
import SengOs.Lib.Ticket
import SengOs.Kernel.Context
import SengOs.Kernel.ContextSwitch
import SengOs.Kernel.Termination
import SengOs.Kernel.Repeat
import SengOs.Kernel.Exclusion
import SengOs.Kernel.WaiterList
import SengOs.Kernel.Slots
import SengOs.Kernel.RoundRobin
import SengOs.Kernel.WakeOrder
import SengOs.Kernel.Uninterrupted
import SengOs.Shell.RoundTrip
import SengOs.Shell.Buffer
import SengOs.Shell.Named
import SengOs.Shell.Kill
import SengOs.Shell.Listing
import SengOs.Shell.Demos
import SengOs.Shell.Race
import SengOs.Kernel.EndOfInterrupt
import SengOs.Shell.Strncmp
import SengOs.Console.Page
import SengOs.Console.Overrun
import SengOs.Console.Bounds
import SengOs.Console.Readline
import SengOs.Console.Shift
import SengOs.Console.Echo
import SengOs.Console.Box
import SengOs.Lib.PrefixFree
import SengOs.Shell.Shared
import SengOs.Shell.Meminfo
import SengOs.Shell.Tasks
import SengOs.Shell.Typing
