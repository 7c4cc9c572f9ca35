import Xv6.Machine
import Xv6.Count
import Xv6.Bytes
import Xv6.Param
import Xv6.Log
import Xv6.LogGroup
import Xv6.LogSpace
import Xv6.LogCrash
import Xv6.Proc
import Xv6.ProcInv
import Xv6.Scheduler
import Xv6.Kill
import Xv6.Prog
import Xv6.Dinode
import Xv6.Inode
import Xv6.Blocks
import Xv6.Bmap
import Xv6.FileIo
import Xv6.Trunc
import Xv6.Store
import Xv6.Refine
import Xv6.Simulation
import Xv6.SimContents
import Xv6.Dir
import Xv6.SysFile
import Xv6.Held
import Xv6.DirSpec
import Xv6.Edit
import Xv6.CallSpec
import Xv6.Ring
import Xv6.Pipe
import Xv6.WaitFor
import Xv6.Spinlock
import Xv6.LogWait
import Xv6.Sleep
import Xv6.ExitWait
import Xv6.Bcache
import Xv6.BcacheInv
import Xv6.BcacheLog
import Xv6.BcacheSize
import Xv6.Vm
import Xv6.VmInv
import Xv6.VmSpec
import Xv6.VmExec
import Xv6.VmRun
import Xv6.Scount
import Xv6.FsRun
import Xv6.InodeLife
import Xv6.FileTable
import Xv6.Linked
import Xv6.Ide
import Xv6.VmHoles
import Xv6.VmAccount
import Xv6.VmFork
import Xv6.VmSpace
import Xv6.VmStack
import Xv6.ExecFile
import Xv6.ExecLoad
import Xv6.Mkfs
import Xv6.MkfsBlocks
import Xv6.MkfsImage
import Xv6.MkfsFinal
import Xv6.MkfsRead
import Xv6.Pids
import Xv6.Console
import Xv6.Sbrk
import Xv6.VmCalls
import Xv6.VmCopy
import Xv6.Isolation
import Xv6.Path
import Xv6.FileBytes
import Xv6.FileWrite
import Xv6.Shared
import Xv6.DirMap
import Xv6.Affine
import Xv6.Lottery
import Xv6.Grep
import Xv6.Namei
import Xv6.Balloc
import Xv6.Memmove
import Xv6.Mp
