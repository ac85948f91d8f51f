import Xv6.Lib.Threads
import Xv6.Log.Reservation
import Xv6.Log.Protocol
import Xv6.Storage.BioSteps
import Xv6.Storage.Sharing
import Xv6.Lib.LinkedQueue
import Xv6.Storage.LegacyReads
import Xv6.Storage.Durability
import Xv6.Storage.LegacyAtomicity
import Xv6.Fs.Logged
import Xv6.Fs.LegacyTransactions
import Xv6.Proc.SleepRefinement
import Xv6.Proc.Kills
import Xv6.Proc.LostKill
import Xv6.Ipc.Stream
import Xv6.Ipc.Delivery
import Xv6.Mkfs.Pack
import Xv6.Mkfs.Holes
import Xv6.Args.Arm
import Xv6.Files.Offsets
import Xv6.Names.Open
import Xv6.Dirs.Map
import Xv6.Console.Discipline
import Xv6.Console.Transmission
import Xv6.Args.Amd64
import Xv6.Args.Legacy
import Xv6.Vm.Exhaustion
import Xv6.Vm.Riscv64Image
import Xv6.Vm.Riscv64Proc
import Xv6.Vm.Riscv64Sbrk
import Xv6.Vm.Arm64Proc
import Xv6.Vm.I386Copy
import Xv6.Vm.Mips
import Xv6.Vm.MipsPages
import Xv6.Vm.MipsDealloc
import Xv6.Vm.MipsFree
import Xv6.Vm.MipsRuns
import Xv6.Storage.Ide
import Xv6.Storage.IdeInvariant
import Xv6.Storage.IdeSteps
import Xv6.Storage.IdeRequests
import Xv6.Fs.I386Inode
import Xv6.Fs.I386Blocks
import Xv6.Fs.I386Loops
import Xv6.Fs.I386WriteThrough
import Xv6.Vm.ArmPi1Sbrk
import Xv6.Lib.CircularBuffer
import Xv6.Console.UartOutput
import Xv6.Proc.ParentLocksRuns
import Xv6.Vm.ExecLegacy
import Xv6.Vm.ArmPi1Exec
import Xv6.Vm.LoongarchPanics
import Xv6.Sh.Streams
import Xv6.Proc.SpinlockSafety
import Xv6.Proc.SysSleep
import Xv6.Grep.Lines
import Xv6.Print.Formats
import Xv6.Strings.Division
import Xv6.Strings.Memory
import Xv6.Malloc.UserHeap
import Xv6.Proc.SleepLockSafety
import Xv6.Vm.Riscv64Copy
import Xv6.Vm.Riscv64Runs
import Xv6.Buddy.Runs
import Xv6.Buddy.Rounding
import Xv6.Virtio.Runs
