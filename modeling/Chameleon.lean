import Chameleon.Lib.Machine
import Chameleon.Lib.Bytes
import Chameleon.Param
import Chameleon.Proc.Table
import Chameleon.Proc.Claims
import Chameleon.Proc.Kill
import Chameleon.Proc.Family
import Chameleon.Vm.Layout
import Chameleon.Vm.Copyout
import Chameleon.Lib.Hoare
import Chameleon.Vm.Uvm
import Chameleon.Lib.Region
import Chameleon.Vm.Frames
import Chameleon.Vm.Conserve
import Chameleon.Vm.Process
import Chameleon.Vm.Owners
import Chameleon.Vm.Boot
import Chameleon.Vm.Isolation
import Chameleon.Lib.Ring
import Chameleon.Ipc.Pipe
import Chameleon.Ipc.Fifo
import Chameleon.Lib.Conc
import Chameleon.Log.Bio
import Chameleon.Log.Model
import Chameleon.Log.Invariant
import Chameleon.Log.Cache
import Chameleon.Log.Commit
import Chameleon.Log.Operation
import Chameleon.Log.Crash
import Chameleon.Log.Reserve
import Chameleon.Ipc.Wakeup
import Chameleon.Sys.Args
import Chameleon.Vm.Exec
import Chameleon.Vm.ExecSafe
import Chameleon.Log.Transparent
import Chameleon.Fs.Disk
import Chameleon.Fs.Model
import Chameleon.Lib.Count
import Chameleon.Dev.Console
import Chameleon.Dev.Discipline
import Chameleon.Log.Waiters
import Chameleon.Proc.Sleep
import Chameleon.Proc.Sleepers
import Chameleon.Proc.SleepLock
import Chameleon.User.Shell
import Chameleon.User.Grammar
import Chameleon.User.Lexer
import Chameleon.User.Sound
import Chameleon.User.Complete
import Chameleon.User.Parser
import Chameleon.Lib.Circular
import Chameleon.User.Malloc
import Chameleon.User.FreeList
import Chameleon.User.Umalloc
import Chameleon.Log.Pinned
import Chameleon.Vm.Supply
import Chameleon.Vm.View
import Chameleon.Vm.Contents
import Chameleon.Vm.Grow
import Chameleon.Vm.Fork
import Chameleon.Vm.Loader
import Chameleon.Vm.ExecImage
import Chameleon.Vm.ExecCall
import Chameleon.Proc.Sched
import Chameleon.Proc.Turns
import Chameleon.Proc.Running
import Chameleon.User.Sbrk
import Chameleon.Lib.While
import Chameleon.Boot.Mp
import Chameleon.Boot.Bootmain
import Chameleon.User.Match
import Chameleon.User.Grep
import Chameleon.User.Words
import Chameleon.User.Redirect
import Chameleon.Vm.Mappages
import Chameleon.Vm.Dealloc
import Chameleon.Vm.Alloc
import Chameleon.Str.Memmove
import Chameleon.Str.Printint
import Chameleon.Lib.Chain
import Chameleon.Dev.Ide
import Chameleon.Dev.IdeQueue
import Chameleon.Dev.IdeSteps
import Chameleon.Dev.IdeRun
import Chameleon.Fs.Content
import Chameleon.Fs.Mkfs
import Chameleon.Fs.MkfsImage
import Chameleon.Fs.MkfsAppend
import Chameleon.Fs.MkfsRun
import Chameleon.Fs.MkfsLimits
import Chameleon.Lib.Solo
import Chameleon.Fs.Alone
import Chameleon.Fs.Transfer
import Chameleon.Fs.Filewrite
import Chameleon.Lib.Budget
import Chameleon.Lib.Section
import Chameleon.Fs.Shared
import Chameleon.Fs.Serial
import Chameleon.Fs.Reserved
import Chameleon.Fs.Path
import Chameleon.Fs.Cache
import Chameleon.Fs.Lookup
import Chameleon.Proc.Spinlock
