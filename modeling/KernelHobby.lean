import KernelHobby.BlkFs
import KernelHobby.Bytes
import KernelHobby.CInt
import KernelHobby.Console
import KernelHobby.ConsoleLog
import KernelHobby.Dns
import KernelHobby.DnsSpec
import KernelHobby.EagerFork
import KernelHobby.EchoBounds
import KernelHobby.ElfBounds
import KernelHobby.ExecFile
import KernelHobby.Fair
import KernelHobby.Family
import KernelHobby.Fs
import KernelHobby.FsAgree
import KernelHobby.FsBounds
import KernelHobby.FsCrash
import KernelHobby.FsErrors
import KernelHobby.FsIdentity
import KernelHobby.FsPage
import KernelHobby.FsSafe
import KernelHobby.HartCode
import KernelHobby.HartWp
import KernelHobby.KallocRun
import KernelHobby.KernFs
import KernelHobby.KernMaps
import KernelHobby.Keyboard
import KernelHobby.LockOrder
import KernelHobby.Mach
import KernelHobby.MachIntr
import KernelHobby.MachSteady
import KernelHobby.MmapFile
import KernelHobby.MmapKept
import KernelHobby.NetDemo
import KernelHobby.PageFault
import KernelHobby.PageSafe
import KernelHobby.ShellProc
import KernelHobby.Switch
import KernelHobby.TabCalls
import KernelHobby.TabFree
import KernelHobby.TrapFrame
import KernelHobby.UartLog
import KernelHobby.UserShell
import KernelHobby.Uthread
import KernelHobby.WaitExit
