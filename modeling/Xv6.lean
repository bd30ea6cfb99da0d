import Xv6.Lib.Bytes
import Xv6.Lib.Wp
import Xv6.Lib.Places
import Xv6.Lib.Ledger
import Xv6.Lib.Prog
import Xv6.Lib.Paths
import Xv6.Lib.Rooted
import Xv6.Lib.Assoc
import Xv6.Lib.RingBuffer
import Xv6.Lib.Chain
import Xv6.Lib.LinkedRing
import Xv6.Lib.Holdings
import Xv6.Lib.Radix
import Xv6.Param
import Xv6.Log.Disk
import Xv6.Log.Crash
import Xv6.Log.Ops
import Xv6.Log.Space
import Xv6.Fs.State
import Xv6.Fs.Inode
import Xv6.Fs.Own
import Xv6.Fs.Content
import Xv6.Fs.Cache
import Xv6.Fs.Dir
import Xv6.Fs.Path
import Xv6.Fs.Call
import Xv6.Fs.Names
import Xv6.Fs.Entries
import Xv6.Fs.Tree
import Xv6.Fs.Walk
import Xv6.Fs.Spec
import Xv6.Fs.Calls
import Xv6.Fs.Image
import Xv6.Fs.SelfLock
import Xv6.Fs.Blocks
import Xv6.Fs.Links
import Xv6.Fs.Refs
import Xv6.Fs.Budget
import Xv6.Fs.FileIo
import Xv6.Fs.Kept
import Xv6.Fs.Sysfile
import Xv6.Fs.Transactions
import Xv6.Fs.RefCounts
import Xv6.Fs.DirMap
import Xv6.Fs.Offset
import Xv6.Fs.Iput
import Xv6.Proc.Table
import Xv6.Proc.Sched
import Xv6.Proc.Family
import Xv6.Proc.Refine
import Xv6.Proc.Smp
import Xv6.Proc.Kill
import Xv6.Proc.Sleeplock
import Xv6.Dev.Ide
import Xv6.Dev.Console
import Xv6.Pipe.State
import Xv6.Pipe.Fifo
import Xv6.Pipe.Wakeup
import Xv6.Bio.State
import Xv6.Bio.Coherence
import Xv6.Fs.Format
import Xv6.Mkfs.Program
import Xv6.Mkfs.Append
import Xv6.Mkfs.Build
import Xv6.Mkfs.HoleFree
import Xv6.Mkfs.Agree
import Xv6.Vm.Memory
import Xv6.Vm.Space
import Xv6.Vm.Paging
import Xv6.Vm.Grow
import Xv6.Vm.Fork
import Xv6.Vm.Contents
import Xv6.Vm.Exec
import Xv6.Vm.ExecSpec
import Xv6.Vm.Procs
import Xv6.Vm.Ownership
import Xv6.User.Memmove
import Xv6.User.Regex
import Xv6.User.Grep
import Xv6.Dev.Mp
import Xv6.Vm.Args
import Xv6.Vm.Dealloc
import Xv6.Proc.Cli
import Xv6.User.Shell
import Xv6.User.HeapSpec
import Xv6.Fs.Resolve
import Xv6.Fs.Stats
import Xv6.Fs.Fail
