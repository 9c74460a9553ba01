import Xv6.Boot
import Xv6.Trap
import Xv6.Moves
import Xv6.Evict
import Xv6.Paging
import Xv6.Spaces
import Xv6.Freewalk
import Xv6.Access
import Xv6.Uvmcopy
import Xv6.Calls
import Xv6.System
import Xv6.Runs
import Xv6.Reachable
import Xv6.Frame
import Xv6.Fork
import Xv6.Supply
import Xv6.Fs.Bio
import Xv6.Fs.Lru
import Xv6.Fs.Log
import Xv6.Fs.Cache
import Xv6.Fs.Commit
import Xv6.Fs.Protocol
import Xv6.Fs.Room
import Xv6.Fs.Transactions
import Xv6.Fs.Crash
import Xv6.Fs.Rest
import Xv6.Pressure
import Xv6.Disk.Chains
import Xv6.Disk.Exchange
import Xv6.Files.Blocks
import Xv6.Files.Contents
import Xv6.Files.Counts
import Xv6.Files.Entries
import Xv6.Files.Holding
import Xv6.Files.Openings
import Xv6.Files.Processes
import Xv6.Inodes.Coherence
import Xv6.Inodes.Shared
import Xv6.Inodes.Steps
import Xv6.Ipc.Pipe
import Xv6.Lib.Parts
import Xv6.Loading
import Xv6.Sched.Exits
import Xv6.Sched.Handoff
import Xv6.Sched.Wakeup
import Xv6.Shape
import Xv6.Sysexec
import Xv6.Atomic
import Xv6.Faults
import Xv6.Growth
import Xv6.Swapping
import Xv6.Files.Broken
import Xv6.Files.Directory
import Xv6.Files.Fileio
import Xv6.Files.Offsets
import Xv6.Teardown
import Xv6.Program
import Xv6.Mapping
import Xv6.Ipc.Console
import Xv6.Files.Reads
import Xv6.Swapslots
import Xv6.Memmove
import Xv6.Printint
import Xv6.Grep
import Xv6.Sched.Intr
