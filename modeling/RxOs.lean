import RxOs.Fs.LogAdmission
import RxOs.Fs.InodeTable
import RxOs.Fs.InodeReload
import RxOs.Fs.BufOrder
import RxOs.Fs.PipeWriter
import RxOs.Fs.PipeEnds
import RxOs.Driver.DiskSurvival
import RxOs.Driver.LineEditor
import RxOs.Memory.PageAllocator
import RxOs.Memory.PageCopies
import RxOs.Memory.Forking
import RxOs.Memory.Translation
import RxOs.Memory.PageFaults
import RxOs.Process.SleepLock
import RxOs.Process.TimedSleep
import RxOs.Process.ExitStatus
import RxOs.Process.InterruptFlag
import RxOs.Process.Assembly
import RxOs.Process.ExecStack
import RxOs.Process.ExitPaths
import RxOs.Process.Signals
import RxOs.Syscall.Reservation
import RxOs.Syscall.NameLength
import RxOs.Syscall.EmptyDirectory
import RxOs.Syscall.DescriptorCalls
import RxOs.Syscall.Balance
import RxOs.Syscall.OwnOperation
