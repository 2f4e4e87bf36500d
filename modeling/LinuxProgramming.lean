import LinuxProgramming.DbSeparators
import LinuxProgramming.DbSharedScan
import LinuxProgramming.DescriptorPassing
import LinuxProgramming.SemaphoreRuns
import LinuxProgramming.PrintdClient
import LinuxProgramming.CalldLocks
import LinuxProgramming.PrintdWorkers
import LinuxProgramming.CalldStatus
import LinuxProgramming.InotifyAgreement
import LinuxProgramming.JobQueue
import LinuxProgramming.SharedTransfer
import LinuxProgramming.TellWait
import LinuxProgramming.PopenStreams
import LinuxProgramming.RefCountTable
import LinuxProgramming.NamespaceForest
import LinuxProgramming.NsCapable
import LinuxProgramming.AclUpdate
import LinuxProgramming.EchoServer
import LinuxProgramming.DbReuse
import LinuxProgramming.PrintdCounter
import LinuxProgramming.PrintdWakeup
import LinuxProgramming.PrinterResponse
import LinuxProgramming.CalldSystems
import LinuxProgramming.ReadLine
import LinuxProgramming.SvsemOp
import LinuxProgramming.AclParse
import LinuxProgramming.BufArgs
import LinuxProgramming.Execlp
import LinuxProgramming.Ftw
import LinuxProgramming.InotifyCheck
import LinuxProgramming.SendStr
import LinuxProgramming.InotifyReads
