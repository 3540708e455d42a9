import Xv6.Fs.Entry
import Xv6.Lib.Threads
import Mathlib.Algebra.BigOperators.Fin

/-!
# System calls

The file-system calls of `kernel/sysfile.c`, with `namex` of `kernel/fs.c`, `kernel/file.c`, and the parts of `exec`,
`fork` and `exit` that are about files. A call is a program whose instructions (`Instr`) are the parts of the code
that run under one lock: the functions of `Xv6.Fs.Inode` and `Xv6.Fs.Entry`, taking and releasing the lock of an inode,
and `begin_op` and `end_op`. Processes run their calls at the same time, in any interleaving of the instructions.
-/

namespace Xv6.Fs

/-- The file system, the processes that hold the locks of the inodes in memory, and how many times each process has
called `begin_op` without `end_op`. -/
structure Kernel where
  fs : State
  lock : Fin NINODE → Option (Fin NPROC)
  ops : Fin NPROC → ℕ

def Kernel.outstanding (k : Kernel) : ℕ := ∑ p, k.ops p

/-- Why an instruction has no result: a panic, or the process waits. -/
inductive Stop where
  | panic (msg : Panic)
  | wait
  deriving DecidableEq

/-- Instructions on the state of the kernel. -/
abbrev K := Fallible Kernel Stop

def lift {α : Type} (m : M α) : K α := fun k =>
  match m k.fs with
  | .ok (a, s) => .ok (a, { k with fs := s })
  | .error e => .error (.panic e)

@[simp]
lemma wp_kernel {α : Type} {m : M α} {P : Stop → Prop} {Q : α → Kernel → Prop} {k : Kernel} :
    Fallible.wp P (lift m) Q k ↔ Fallible.wp (fun e => P (.panic e)) m (fun a s => Q a { k with fs := s }) k.fs := by
  simp only [Fallible.wp, lift]
  cases m k.fs <;> rfl

/-- `acquiresleep` on the lock of an inode. -/
def acquiresleep (p : Fin NPROC) (ip : Fin NINODE) : K Unit := do
  if (← get).lock ip = none then modify fun k => { k with lock := Function.update k.lock ip (some p) }
  else throw .wait

/-- The instructions. -/
inductive Instr : Type → Type where
  | beginOp : Instr Unit
  | endOp : Instr Unit
  | inode (ip : Fin NINODE) : Instr Inode
  | iget (inum : ℕ) : Instr (Fin NINODE)
  | idup (ip : Fin NINODE) : Instr (Fin NINODE)
  | ialloc (type : FileType) : Instr (Option (Fin NINODE))
  | ilock (ip : Fin NINODE) : Instr Unit
  | iunlock (ip : Fin NINODE) : Instr Unit
  /-- The beginning of `iput`: whether the inode is to be freed. If so its lock is taken, and if not the reference is
  dropped. -/
  | iputLast (ip : Fin NINODE) : Instr Bool
  | ifree (ip : Fin NINODE) : Instr Unit
  | releasesleep (ip : Fin NINODE) : Instr Unit
  | decRef (ip : Fin NINODE) : Instr Unit
  | itrunc (ip : Fin NINODE) : Instr Unit
  | change (ip : Fin NINODE) (f : Dinode → Dinode) : Instr Unit
  | readi (ip : Fin NINODE) (dst : ℕ → Bool) (off n : ℕ) : Instr (Option (List UInt8))
  | writei (ip : Fin NINODE) (src : ℕ → Option UInt8) (off n : ℕ) : Instr (Option ℕ)
  | dirlookup (dp : Fin NINODE) (name : Name) : Instr (Option (Fin NINODE × ℕ))
  /-- Write an entry with the number of `ip`. -/
  | dirAdd (dp : Fin NINODE) (name : Name) (ip : Fin NINODE) : Instr Bool
  | dirErase (dp : Fin NINODE) (off : ℕ) : Instr (Option ℕ)
  | isdirempty (dp : Fin NINODE) : Instr Bool
  | filealloc : Instr (Option (Fin NFILE))
  | filedup (f : Fin NFILE) : Instr Unit
  | fileDrop (f : Fin NFILE) : Instr (Option File)
  | fileInit (f : Fin NFILE) (ip : Fin NINODE) (omode : BitVec 32) : Instr Unit
  | file (f : Fin NFILE) : Instr File
  /-- `f->off += n`. -/
  | seek (f : Fin NFILE) (n : ℕ) : Instr Unit
  | fdalloc (f : Fin NFILE) : Instr (Option (Fin NOFILE))
  | ofile (fd : Fin NOFILE) : Instr (Option (Fin NFILE))
  | fdclear (fd : Fin NOFILE) : Instr Unit
  | cwd : Instr (Fin NINODE)
  | setCwd (ip : Option (Fin NINODE)) : Instr Unit
  | fork : Instr (Option (Fin NPROC))
  | zombie : Instr Unit
  | panic (msg : Panic) : Instr Empty

/-- The meaning of an instruction of process `p`. -/
def Instr.exec (sb : Superblock) (p : Fin NPROC) {β : Type} : Instr β → K β
  | .beginOp => modify fun k => { k with ops := Function.update k.ops p (k.ops p + 1) }
  | .endOp => modify fun k => { k with ops := Function.update k.ops p (k.ops p - 1) }
  | .inode ip => lift (Fs.inode ip)
  | .iget inum => lift (Fs.iget inum)
  | .idup ip => lift (Fs.idup ip)
  | .ialloc type => lift (Fs.ialloc sb type)
  | .ilock ip => do
    if ((← get).fs.itable ip).ref < 1 then throw (.panic .ilock)
    else
      acquiresleep p ip
      lift (load ip)
  | .iunlock ip => do
    let k ← get
    if k.lock ip = some p ∧ 1 ≤ (k.fs.itable ip).ref then
      modify fun k => { k with lock := Function.update k.lock ip none }
    else throw (.panic .iunlock)
  | .iputLast ip => do
    let I := (← get).fs.itable ip
    if I.ref = 1 ∧ I.valid ∧ I.din.nlink = 0 then
      acquiresleep p ip
      return true
    else
      lift (Fs.decRef ip)
      return false
  | .ifree ip => lift (Fs.ifree ip)
  | .releasesleep ip => modify fun k => { k with lock := Function.update k.lock ip none }
  | .decRef ip => lift (Fs.decRef ip)
  | .itrunc ip => lift (Fs.itrunc ip)
  | .change ip f => lift (Fs.change ip f)
  | .readi ip dst off n => lift (Fs.readi sb ip dst off n)
  | .writei ip src off n => lift (Fs.writei sb ip src off n)
  | .dirlookup dp name => lift (Fs.dirlookup sb dp name)
  | .dirAdd dp name ip => lift do Fs.dirAdd sb dp name (← Fs.inode ip).inum
  | .dirErase dp off => lift (Fs.dirErase sb dp off)
  | .isdirempty dp => lift (Fs.isdirempty sb dp)
  | .filealloc => lift Fs.filealloc
  | .filedup f => lift (Fs.filedup f)
  | .fileDrop f => lift (Fs.fileDrop f)
  | .fileInit f ip omode => lift (Fs.fileInit f ip omode)
  | .file f => do return (← get).fs.ftable f
  | .seek f n => lift (setFile f fun F => { F with off := F.off + n })
  | .fdalloc f => lift (Fs.fdalloc p f)
  | .ofile fd => do return ((← get).fs.procs p).ofile fd
  | .fdclear fd => lift (setProc p fun P => { P with ofile := Function.update P.ofile fd none })
  | .cwd => lift (Fs.cwd p)
  | .setCwd ip => lift (setProc p fun P => { P with cwd := ip })
  | .fork => lift (Fs.fork p)
  | .zombie => lift (setProc p fun P => { P with state := .zombie })
  | .panic msg => throw (.panic msg)

/-- A program of the kernel. -/
abbrev Call := Program Instr

/-- A program that process `p` runs while no other does. -/
def alone {α : Type} (sb : Superblock) (p : Fin NPROC) (m : Call α) : K α := m.eval fun i => i.exec sb p

section

variable {α β : Type} {sb : Superblock} {p : Fin NPROC}

@[simp]
lemma alone_pure {a : α} : alone sb p (pure a) = pure a := rfl

@[simp]
lemma alone_op {i : Instr α} : alone sb p (monadLift i) = i.exec sb p := Program.eval_op

@[simp]
lemma alone_bind {m : Call β} {f : β → Call α} : alone sb p (m >>= f) = alone sb p m >>= fun b => alone sb p (f b) :=
  Program.eval_bind

end

/-- A path: a string, without the zero at its end. -/
structure Path where
  chars : List UInt8
  nonzero : 0 ∉ chars

/-- What `exec` reads of the file before it gives up or has loaded the program; its result is -1 or the number of
arguments. What is read next and when it gives up depends on the content of the file and on the memory that is left. -/
inductive Reads where
  | stop (result : Int)
  | read (off n : ℕ) (next : Option (List UInt8) → Reads)

end Xv6.Fs

namespace Xv6.Calls

open Fs.Instr
open Fs hiding inode iget idup ialloc ifree decRef itrunc change readi writei dirlookup dirAdd dirErase isdirempty
  filealloc filedup fileDrop fileInit fdalloc cwd fork

def halt {α : Type} (msg : Panic) : Call α :=
  .op (.panic msg) fun e => e.elim

/-- `iput`, which frees the inode if this was the last reference to it and it has no links. -/
def iput (ip : Fin NINODE) : Call Unit := do
  if ← iputLast ip then
    ifree ip
    releasesleep ip
    decRef ip
  else pure ()

def iunlockput (ip : Fin NINODE) : Call Unit := do
  iunlock ip
  iput ip

/-- `dirlink`, with the number of `ip`: whether the entry has been written. -/
def dirlink (dp : Fin NINODE) (name : Name) (ip : Fin NINODE) : Call Bool := do
  match ← dirlookup dp name with
  | some (jp, _) =>
    iput jp
    return false
  | none => dirAdd dp name ip

/-- The loop of `namex`: the inode of the path, or of its parent with the last name. -/
def walk (parent : Bool) (path : List UInt8) (ip : Fin NINODE) (name : Name) : Call (Option (Fin NINODE × Name)) := do
  match _h : skipelem path with
  | some (name, rest) =>
    ilock ip
    if (← inode ip).din.type ≠ .dir then
      iunlockput ip
      return none
    else if parent ∧ rest = [] then
      iunlock ip
      return some (ip, name)
    else
      match ← dirlookup ip name with
      | some (next, _) =>
        iunlockput ip
        walk parent rest next name
      | none =>
        iunlockput ip
        return none
  | none =>
    if parent then
      iput ip
      return none
    else return some (ip, name)
termination_by path.length
decreasing_by exact skipelem_lt ‹_›

def namex (parent : Bool) (path : List UInt8) : Call (Option (Fin NINODE × Name)) := do
  if path.head? = some 47 then walk parent path (← iget ROOTINO) []
  else walk parent path (← idup (← cwd)) []

def namei (path : Path) : Call (Option (Fin NINODE)) := do
  return (← namex false path.chars).map Prod.fst

def nameiparent (path : Path) : Call (Option (Fin NINODE × Name)) :=
  namex true path.chars

def linkBad (ip : Fin NINODE) : Call Int := do
  ilock ip
  change ip fun d => { d with nlink := d.nlink - 1 }
  iunlockput ip
  endOp
  return -1

def sysLink (old new : Path) : Call Int := do
  beginOp
  match ← namei old with
  | none =>
    endOp
    return -1
  | some ip =>
    ilock ip
    if (← inode ip).din.type = .dir then
      iunlockput ip
      endOp
      return -1
    else
      change ip fun d => { d with nlink := d.nlink + 1 }
      iunlock ip
      match ← nameiparent new with
      | none => linkBad ip
      | some (dp, name) =>
        ilock dp
        if ← dirlink dp name ip then
          iunlockput dp
          iput ip
          endOp
          return 0
        else
          iunlockput dp
          linkBad ip

def unlinkBad (dp : Fin NINODE) : Call Int := do
  iunlockput dp
  endOp
  return -1

/-- The last part of `sys_unlink`, after the entry has been cleared. -/
def unlinkDone (dp ip : Fin NINODE) (dir : Bool) : Call Int := do
  if dir then change dp fun d => { d with nlink := d.nlink - 1 }
  iunlockput dp
  change ip fun d => { d with nlink := d.nlink - 1 }
  iunlockput ip
  endOp
  return 0

/-- The part of `sys_unlink` with both inodes locked. -/
def unlinkEntry (dp ip : Fin NINODE) (off : ℕ) : Call Int := do
  let d := (← inode ip).din
  if d.nlink.toInt < 1 then halt .unlinkNlink
  else
    let empty ← if d.type = .dir then isdirempty ip else pure true
    if empty then
      if (← dirErase dp off) = some DESIZE then unlinkDone dp ip (d.type = .dir) else halt .unlinkWritei
    else
      iunlockput ip
      unlinkBad dp

def sysUnlink (path : Path) : Call Int := do
  beginOp
  match ← nameiparent path with
  | none =>
    endOp
    return -1
  | some (dp, name) =>
    ilock dp
    if name = dot ∨ name = dotdot then unlinkBad dp
    else
      match ← dirlookup dp name with
      | none => unlinkBad dp
      | some (ip, off) =>
        ilock ip
        unlinkEntry dp ip off

def createFail (ip dp : Fin NINODE) : Call (Option (Fin NINODE)) := do
  change ip fun d => { d with nlink := 0 }
  iunlockput ip
  iunlockput dp
  return none

def createDots (ip dp : Fin NINODE) : Call Bool := do
  if ← dirlink ip dot ip then dirlink ip dotdot dp else return false

/-- The last part of `create`: the entry of the new inode. -/
def createLink (dp : Fin NINODE) (name : Name) (ip : Fin NINODE) (type : FileType) : Call (Option (Fin NINODE)) := do
  if ← dirlink dp name ip then
    if type = .dir then change dp fun d => { d with nlink := d.nlink + 1 }
    iunlockput dp
    return some ip
  else createFail ip dp

/-- The part of `create` for a name that is not there. -/
def createNew (dp : Fin NINODE) (name : Name) (type : FileType) (major minor : BitVec 16) :
    Call (Option (Fin NINODE)) := do
  match ← ialloc type with
  | none =>
    iunlockput dp
    return none
  | some ip =>
    ilock ip
    change ip fun d => { d with major := major, minor := minor, nlink := 1 }
    let dots ← if type = .dir then createDots ip dp else pure true
    if dots then createLink dp name ip type else createFail ip dp

def create (path : Path) (type : FileType) (major minor : BitVec 16) : Call (Option (Fin NINODE)) := do
  match ← nameiparent path with
  | none => return none
  | some (dp, name) =>
    ilock dp
    match ← dirlookup dp name with
    | some (ip, _) =>
      iunlockput dp
      ilock ip
      let t := (← inode ip).din.type
      if type = .file ∧ (t = .file ∨ t = .device) then return some ip
      else
        iunlockput ip
        return none
    | none => createNew dp name type major minor

def fileclose (f : Fin NFILE) : Call Unit := do
  match ← fileDrop f with
  | none => pure ()
  | some F =>
    if F.type = .none then pure ()
    else
      beginOp
      iput F.ip
      endOp

/-- Number of device drivers (`param.h`). -/
abbrev NDEV : ℕ := 10

/-- The first part of `sys_open`: the inode, locked. -/
def openInode (path : Path) (omode : BitVec 32) : Call (Option (Fin NINODE)) := do
  if omode &&& O_CREATE ≠ 0 then create path .file 0 0
  else
    match ← namei path with
    | none => return none
    | some ip =>
      ilock ip
      if (← inode ip).din.type = .dir ∧ omode ≠ 0 then
        iunlockput ip
        return none
      else return some ip

/-- The errors of `sys_open` with the inode locked. -/
def openBad (ip : Fin NINODE) : Call Int := do
  iunlockput ip
  endOp
  return -1

/-- The last part of `sys_open`, with the inode locked. -/
def openFile (ip : Fin NINODE) (omode : BitVec 32) : Call Int := do
  match ← filealloc with
  | none => openBad ip
  | some f =>
    match ← fdalloc f with
    | none =>
      fileclose f
      openBad ip
    | some fd =>
      fileInit f ip omode
      let d := (← inode ip).din
      if omode &&& O_TRUNC ≠ 0 ∧ d.type = .file then itrunc ip
      iunlock ip
      endOp
      return fd.val

def sysOpen (path : Path) (omode : BitVec 32) : Call Int := do
  beginOp
  match ← openInode path omode with
  | none =>
    endOp
    return -1
  | some ip =>
    let d := (← inode ip).din
    if d.type = .device ∧ (d.major.toInt < 0 ∨ NDEV ≤ d.major.toInt) then openBad ip else openFile ip omode

/-- `sys_mkdir` and `sys_mknod`; the path may be a bad argument. -/
def sysMknod (path : Option Path) (type : FileType) (major minor : BitVec 16) : Call Int := do
  beginOp
  match ← (match path with | some path => create path type major minor | none => return none) with
  | none =>
    endOp
    return -1
  | some ip =>
    iunlockput ip
    endOp
    return 0

/-- `sys_chdir`; the path may be a bad argument. -/
def sysChdir (path : Option Path) : Call Int := do
  beginOp
  match ← (match path with | some path => namei path | none => return none) with
  | none =>
    endOp
    return -1
  | some ip =>
    ilock ip
    if (← inode ip).din.type ≠ .dir then
      iunlockput ip
      endOp
      return -1
    else
      iunlock ip
      iput (← cwd)
      endOp
      setCwd (some ip)
      return 0

def sysClose (fd : Fin NOFILE) : Call Int := do
  match ← ofile fd with
  | none => return -1
  | some f =>
    fdclear fd
    fileclose f
    return 0

def sysDup (fd : Fin NOFILE) : Call Int := do
  match ← ofile fd with
  | none => return -1
  | some f =>
    match ← fdalloc f with
    | none => return -1
    | some fd =>
      filedup f
      return fd.val

/-- `sys_fstat`, up to the copy to the user. -/
def sysFstat (fd : Fin NOFILE) : Call Int := do
  match ← ofile fd with
  | none => return -1
  | some f =>
    let F ← file f
    if F.type = .none then return -1
    else
      ilock F.ip
      let _ ← inode F.ip
      iunlock F.ip
      return 0

/-- `fileread`, of a file or directory; a device has its own `read`. -/
def fileread (f : Fin NFILE) (dst : ℕ → Bool) (n : ℕ) : Call Int := do
  let F ← file f
  if F.readable then
    match F.type with
    | .inode =>
      ilock F.ip
      let r ← readi F.ip dst (← file f).off n
      if let some bs := r then seek f bs.length
      iunlock F.ip
      return (r.map fun bs => (bs.length : Int)).getD (-1)
    | .device => return 0
    | .none => halt .fileread
  else return -1

def sysRead (fd : Fin NOFILE) (dst : ℕ → Bool) (n : ℕ) : Call Int := do
  match ← ofile fd with
  | none => return -1
  | some f => fileread f dst n

/-- The number of bytes that `filewrite` writes in one operation. -/
abbrev WRITEMAX : ℕ := (MAXOPBLOCKS - 1 - 1 - 2) / 2 * BSIZE

/-- The loop of `filewrite`, with `n` bytes left from byte `i` of the source on: whether all have been written. -/
def filewriteLoop (f : Fin NFILE) (ip : Fin NINODE) (src : ℕ → Option UInt8) (i n : ℕ) : Call Bool := do
  if _h : n = 0 then return true
  else
    let n₁ := min n WRITEMAX
    beginOp
    ilock ip
    let r ← writei ip (fun j => src (i + j)) (← file f).off n₁
    if let some w := r then seek f w
    iunlock ip
    endOp
    if r = some n₁ then filewriteLoop f ip src (i + n₁) (n - n₁) else return false
termination_by n
decreasing_by
  simp only [WRITEMAX, MAXOPBLOCKS, BSIZE]
  omega

/-- `filewrite`, of a file; a device has its own `write`. -/
def filewrite (f : Fin NFILE) (src : ℕ → Option UInt8) (n : ℕ) : Call Int := do
  let F ← file f
  if F.writable then
    match F.type with
    | .inode => return if ← filewriteLoop f F.ip src 0 n then n else -1
    | .device => return 0
    | .none => halt .filewrite
  else return -1

def sysWrite (fd : Fin NOFILE) (src : ℕ → Option UInt8) (n : ℕ) : Call Int := do
  match ← ofile fd with
  | none => return -1
  | some f => filewrite f src n

/-- The loop of `exec` over the parts of the file. -/
def execReads (ip : Fin NINODE) : Reads → Call Int
  | .stop result => return result
  | .read off n next => do execReads ip (next (← readi ip (fun _ => true) off n))

/-- The part of `exec` about the file. -/
def exec (path : Path) (reads : Reads) : Call Int := do
  beginOp
  match ← namei path with
  | none =>
    endOp
    return -1
  | some ip =>
    ilock ip
    let result ← execReads ip reads
    iunlockput ip
    endOp
    return result

/-- `fork`, which gives up if there is not enough memory. -/
def sysFork (memory : Bool) : Call Int := do
  if memory then
    match ← fork with
    | some q => return q.val
    | none => return -1
  else return -1

/-- The loop of `exit` over the descriptors. -/
def exitFd (i : ℕ) : Call Unit := do
  if h : i < NOFILE then
    match ← ofile ⟨i, h⟩ with
    | none => pure ()
    | some f =>
      fileclose f
      fdclear ⟨i, h⟩
  else pure ()

def exit : Call Int := do
  .upto exitFd NOFILE
  beginOp
  iput (← cwd)
  endOp
  setCwd none
  zombie
  return 0

end Xv6.Calls

namespace Xv6.Fs

/-- The system calls, with their arguments. -/
inductive Op where
  | open (path : Path) (omode : BitVec 32)
  | mkdir (path : Option Path)
  | mknod (path : Option Path) (major minor : BitVec 16)
  | link (old new : Path)
  | unlink (path : Path)
  | chdir (path : Option Path)
  | close (fd : Fin NOFILE)
  | dup (fd : Fin NOFILE)
  | fstat (fd : Fin NOFILE)
  | read (fd : Fin NOFILE) (dst : ℕ → Bool) (n : ℕ)
  | write (fd : Fin NOFILE) (src : ℕ → Option UInt8) (n : ℕ)
  | exec (path : Path) (reads : Reads)
  | fork (memory : Bool)
  | exit

def Op.call : Op → Call Int
  | .open path omode => Calls.sysOpen path omode
  | .mkdir path => Calls.sysMknod path .dir 0 0
  | .mknod path major minor => Calls.sysMknod path .device major minor
  | .link old new => Calls.sysLink old new
  | .unlink path => Calls.sysUnlink path
  | .chdir path => Calls.sysChdir path
  | .close fd => Calls.sysClose fd
  | .dup fd => Calls.sysDup fd
  | .fstat fd => Calls.sysFstat fd
  | .read fd dst n => Calls.sysRead fd dst n
  | .write fd src n => Calls.sysWrite fd src n
  | .exec path reads => Calls.exec path reads
  | .fork memory => Calls.sysFork memory
  | .exit => Calls.exit

/-- What happens apart from the calls: the buffer of a block is reused, and a change that was not logged is lost; the
slot of a process that has exited is freed by its parent. -/
inductive Env (idle : Fin NPROC → Prop) (k : Kernel) : Kernel → Prop where
  | reuse {b blk} :
    k.fs.unlogged b = some blk →
    Env idle k { k with fs := k.fs.store b blk none }
  | reap {q} :
    idle q →
    (k.fs.procs q).state = .zombie →
    Env idle k
      { k with fs := { k.fs with procs := Function.update k.fs.procs q { k.fs.procs q with state := .unused } } }

/-- A process may make any call. -/
def Start (k : Kernel) (p : Fin NPROC) (m : Call Int) : Prop :=
  (k.fs.procs p).state = .used ∧ ∃ op : Op, m = op.call

def machine (sb : Superblock) : Threads.Machine Instr (Fin NPROC) Kernel Stop Int where
  exec p i := i.exec sb p
  start := Start
  env := Env

/-- The kernel and the calls that are in progress. -/
abbrev System := Threads.State Instr (Fin NPROC) Kernel Int

/-- A step of the system. -/
abbrev Step (sb : Superblock) := Threads.Step (machine sb)

end Xv6.Fs
