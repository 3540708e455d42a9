import Xv6.Params
import Xv6.Lib.Bytes
import Xv6.Lib.Run
import Xv6.Lib.Redo
import Xv6.Log.Header
import Xv6.Log.Machine
import Xv6.Log.Invariant
import Xv6.Log.Reserve
import Xv6.Log.Crash
import Xv6.Log.Atomicity
import Xv6.Lib.Frames
import Xv6.Lib.Tree
import Xv6.Lib.Pool
import Xv6.Vm.Layout
import Xv6.Vm.Walk
import Xv6.Vm.Kalloc
import Xv6.Vm.Map
import Xv6.Vm.Refine
import Xv6.Vm.Uvm
import Xv6.Vm.Space
import Xv6.Vm.Grow
import Xv6.Vm.Copy
import Xv6.Vm.View
import Xv6.Vm.Exec
import Xv6.Vm.Load
import Xv6.Vm.Args
import Xv6.Vm.Image
import Xv6.Vm.Process
import Xv6.Vm.Access
import Xv6.Vm.Program
import Xv6.Vm.Sbrk
import Xv6.Vm.System
import Xv6.Vm.Files
import Xv6.Vm.Ownership
import Xv6.Vm.Isolation
import Xv6.Sched.Machine
import Xv6.Sched.Step
import Xv6.Sched.Dispatch
import Xv6.Sched.Progress
import Xv6.Sched.Parent
import Xv6.Sched.Rendezvous
import Xv6.Sched.Kill
import Xv6.Sched.Victim
import Xv6.Sched.Times
import Xv6.Sched.Trap
import Xv6.Sched.Pbs
import Xv6.Lib.Scan
import Xv6.Sched.PbsScan
import Xv6.Sched.Fcfs
import Xv6.Sched.RoundRobin
import Xv6.Sched.Priority
import Xv6.Sched.Mlfq
import Xv6.Sched.Sleeplock
import Xv6.Sched.Slice
import Xv6.Lib.Monitor
import Xv6.Lib.Places
import Xv6.Lib.Circular
import Xv6.Console.Line
import Xv6.Console.Uart
import Xv6.Virtio.Driver
import Xv6.Virtio.Rings
import Xv6.Virtio.Invariant
import Xv6.Virtio.Protocol
import Xv6.Log.Admission
import Xv6.Pipe.Ring
import Xv6.Pipe.Wakeup
import Xv6.Lib.Cells
import Xv6.Lib.Counting
import Xv6.Bio.Cache
import Xv6.Bio.Structure
import Xv6.Bio.Coherence
import Xv6.Lib.Fallible
import Xv6.Lib.Program
import Xv6.Lib.Threads
import Xv6.Lib.Journal
import Xv6.Fs.Inode
import Xv6.Fs.Entry
import Xv6.Fs.Call
import Xv6.Fs.Holds
import Xv6.Fs.Balance
import Xv6.Lib.Alloc
import Xv6.Fs.Block
import Xv6.Fs.File
import Xv6.Fs.Table
import Xv6.Fs.Dir
import Xv6.Fs.Content
import Xv6.Fs.ShortCopy
import Xv6.Fs.Dinode
import Xv6.Fs.Reserve
import Xv6.Fs.Path
import Xv6.Fs.Shared
import Xv6.Mkfs.Mkfs
import Xv6.Mkfs.Files
import Xv6.Mkfs.Append
import Xv6.Mkfs.Build
import Xv6.Mkfs.Final
import Xv6.Mkfs.Consistent
import Xv6.Mkfs.ReadBack
import Xv6.Lib.Cyclic
import Xv6.User.Malloc
import Xv6.User.FreeList
import Xv6.User.Allocator
import Xv6.User.Morecore
import Xv6.User.Memmove
import Xv6.User.Printf
import Xv6.User.Match
import Xv6.User.Grep
import Xv6.User.Strace
import Xv6.User.Shell
import Xv6.User.Grammar
import Xv6.Sys.Trace
import Xv6.Vm.UserMemory
import Xv6.Sys.Wait
import Xv6.Sys.Exec
import Xv6.Sys.Fork
import Xv6.Sys.Read
import Xv6.Sys.Sleep
import Xv6.Pipe.Deliver
