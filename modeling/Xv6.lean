import Xv6.Syscall
import Xv6.LogCrash
import Xv6.LogReserve
import Xv6.LogMachine
import Xv6.PageWalk
import Xv6.Dedup
import Xv6.Pipes
import Xv6.InodeAlloc
import Xv6.BufferCoherence
import Xv6.FaultPaths
import Xv6.FrameBooks
import Xv6.LargeFork
import Xv6.Tlb
import Xv6.Kill
import Xv6.SleepWake
import Xv6.UserAddresses
import Xv6.ExecLoad
import Xv6.ShellGrammar
import Xv6.ConsoleReads
import Xv6.IdeCalls
import Xv6.InodeRefs
import Xv6.Fork
import Xv6.DedupTwice
import Xv6.FileRefs
import Xv6.FileArrays
import Xv6.GrowProc
import Xv6.AllocUvm
import Xv6.CopyFail
import Xv6.PageMap
import Xv6.GrowBeyond
import Xv6.Exhaustion
import Xv6.Grep
import Xv6.MemMove
import Xv6.InterruptRuns
import Xv6.DiskErrorRuns
import Xv6.ShellStrings
import Xv6.ExecImage
import Xv6.UmallocRuns
import Xv6.FileRuns
