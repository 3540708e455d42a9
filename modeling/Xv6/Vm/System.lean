import Xv6.Lib.Pool
import Xv6.Lib.Run
import Xv6.Vm.Process
import Mathlib.Algebra.BigOperators.Group.Finset.Basic
import Mathlib.Data.Fintype.Basic

/-!
# The processes and their memory

Any number of processes make system calls side by side. A call that works on page frames is a program, and
a step of the system is one frame operation of one such program, one critical section of the process table,
of the file table or of a pipe, or a store made by user code. Any call may begin whenever its process is
between calls, and `kalloc` may fail at any time.

The state has what these calls use of `struct proc` (`kernel/proc.h`), `struct file` (`kernel/file.h`) and
`struct pipe` (`kernel/pipe.c`). A lock is part of the state where it is held from one step to another:
`fork` holds the lock of the child it makes, `wait` and `waitx` that of the child they free.
-/

namespace Xv6

open Frames Prog

/-- `enum procstate`; `live` stands for `SLEEPING`, `RUNNABLE` and `RUNNING`. -/
inductive Status where
  | unused | used | live | zombie
  deriving DecidableEq

/-- `struct file`: the number of references and, for `FD_PIPE`, the pipe and whether it is the writable
end. -/
structure File where
  ref : Nat
  pipe : Option (Nat × Bool)

/-- `struct pipe`: which ends are open. -/
structure Pipe where
  readopen : Bool
  writeopen : Bool

/-- Whether the writable or the readable end is open. -/
def Pipe.isOpen (pi : Pipe) : Bool → Bool
  | true => pi.writeopen
  | false => pi.readopen

def Pipe.shut (pi : Pipe) : Bool → Pipe
  | true => { pi with writeopen := false }
  | false => { pi with readopen := false }

/-- The arguments with which `sys_waitx` copies out the times of the child. -/
structure Times where
  addr1 : Nat
  addr2 : Nat
  wtime : List UInt8
  rtime : List UInt8

/-- A system call in progress, with what it has to remember: the slot of the child, the times `waitx` is
to copy out, the descriptors `pipe` has taken. -/
inductive Call where
  | sbrk
  | exec
  | fork (np : Fin NPROC)
  | wait (pp : Fin NPROC) (times : Option Times)
  | times
  | pipe (fds : Option (Fin NOFILE × Fin NOFILE))
  | close

/-- The child whose lock a call holds, and the state of that child. -/
def Call.child : Call → Option (Fin NPROC × Status)
  | .fork np => some (np, .used)
  | .wait pp _ => some (pp, .zombie)
  | _ => none

/-- What the program of a call returns: the new size, the new image, the frames of the child, whether a
child was freed, the page of the pipe. -/
inductive Result where
  | sbrk (sz : Nat)
  | exec (image : Option Image)
  | fork (child : Option (Nat × Nat))
  | wait (freed : Bool)
  | pipe (pi : Option Nat)
  | done

/-- A slot of the process table. `closing` is the end of a pipe that `fileclose` has still to close. -/
structure Proc where
  state : Status
  lock : Option (Fin NPROC)
  parent : Option (Fin NPROC)
  pagetable : Nat
  trapframe : Nat
  sz : Nat
  ofile : Fin NOFILE → Option (Fin NFILE)
  exiting : Bool
  closing : Option (Nat × Bool)
  call : Option (Call × Kernel Result)

namespace Proc

/-- The process runs user code, or sleeps in a call that has done nothing yet. -/
def Idle (P : Proc) : Prop := P.state = .live ∧ P.exiting = false ∧ P.closing = none ∧ P.call = none

/-- The child whose lock the call in progress holds. -/
def child (P : Proc) : Option (Fin NPROC × Status) := P.call.bind fun c => c.1.child

def freed (P : Proc) : Proc :=
  { P with state := .unused, lock := none, parent := none, pagetable := 0, trapframe := 0, sz := 0 }

def forked (np P : Proc) (p : Fin NPROC) (tf pt : Nat) : Proc :=
  { np with
    state := .live, lock := none, parent := some p, pagetable := pt, trapframe := tf, sz := P.sz,
    ofile := fun fd => (P.ofile fd).or (np.ofile fd) }

end Proc

/-- How often a file is among the descriptors. -/
def dups (ofile : Fin NOFILE → Option (Fin NFILE)) (f : Fin NFILE) : Nat :=
  ∑ fd, if ofile fd = some f then 1 else 0

/-- The first descriptor that is not in use. -/
def fdalloc (ofile : Fin NOFILE → Option (Fin NFILE)) : Option (Fin NOFILE) :=
  (List.finRange NOFILE).find? fun fd => ofile fd = none

/-- The first file without references. -/
def filealloc (files : Fin NFILE → File) : Option (Fin NFILE) :=
  (List.finRange NFILE).find? fun f => (files f).ref = 0

def filedup (f : File) (n : Nat) : File := { f with ref := f.ref + n }

/-- One reference less; `none` stands for the panic. At the last one a pipe has to be closed. -/
def fileclose (f : File) : Option (File × Option (Nat × Bool)) :=
  if f.ref < 1 then none
  else if f.ref - 1 > 0 then some ({ f with ref := f.ref - 1 }, none)
  else some (⟨0, none⟩, f.pipe)

def pipeFiles (files : Fin NFILE → File) : Option (Fin NFILE × Fin NFILE) := do
  let rf ← filealloc files
  let wf ← filealloc (Function.update files rf (filedup (files rf) 1))
  some (rf, wf)

/-- Two descriptors for the files of a new pipe. -/
def pipeFds (ofile : Fin NOFILE → Option (Fin NFILE)) (rf : Fin NFILE) :
    Option (Fin NOFILE × Fin NOFILE) := do
  let fd0 ← fdalloc ofile
  let fd1 ← fdalloc (Function.update ofile fd0 (some rf))
  some (fd0, fd1)

def initproc : Fin NPROC := ⟨0, NPROC_pos⟩

/-- The state of the system. -/
structure Sys where
  store : Store Nat Page
  procs : Fin NPROC → Proc
  files : Fin NFILE → File
  pipes : Nat → Option Pipe

namespace Sys

/-- All memory, as the hardware sees it. -/
def memory (s : Sys) : Memory := fun x => some (s.store.mem x)

def set (s : Sys) (p : Fin NPROC) (P : Proc) : Sys := { s with procs := Function.update s.procs p P }

@[simp]
lemma set_self {s : Sys} {p P} : (s.set p P).procs p = P := Function.update_self ..

lemma set_ne {s : Sys} {p q P} (qp : q ≠ p) : (s.set p P).procs q = s.procs q :=
  Function.update_of_ne qp ..

def enter (s : Sys) (p : Fin NPROC) (k : Call) (prog : Kernel Result) : Sys :=
  s.set p { s.procs p with call := some (k, prog) }

end Sys

def intBytes (n : Nat) : List UInt8 := [UInt8.ofNat n, 0, 0, 0]

/-- A step of one process. -/
inductive Sys.Step : Sys → Fin NPROC → Sys → Prop where
  -- user code stores to a page it may write
  | store {s p va pte b} :
    (s.procs p).Idle →
    va < MAXVA →
    abs s.memory (s.procs p).pagetable va = some pte →
    pte &&& PTE_U ≠ 0 →
    pte &&& PTE_W ≠ 0 →
    Step s p { s with store := { s.store with mem := Function.update s.store.mem (PTE2PA pte) b } }
  -- a trap saves the user registers
  | trap {s p b} :
    (s.procs p).Idle →
    Step s p { s with store :=
      { s.store with mem := Function.update s.store.mem (s.procs p).trapframe b } }
  -- a frame operation of a call in progress
  | frame {s p k prog prog' store'} :
    (s.procs p).call = some (k, prog) →
    Prog.Step s.store prog store' prog' →
    Step s p ({ s with store := store' }.enter p k prog')
  | sbrk {s p n} :
    (s.procs p).Idle →
    Step s p (s.enter p .sbrk do
      let (_, sz) ← growproc (s.procs p).pagetable (s.procs p).sz n
      pure (.sbrk sz))
  | sbrkRet {s p sz} :
    (s.procs p).call = some (.sbrk, pure (.sbrk sz)) →
    Step s p (s.set p { s.procs p with sz := sz, call := none })
  | exec {s p namei upath uargv} :
    (s.procs p).Idle →
    Step s p (s.enter p .exec do
      let image ← sysExec namei upath uargv (s.procs p).trapframe (s.procs p).pagetable (s.procs p).sz
      pure (.exec image))
  | execFail {s p} :
    (s.procs p).call = some (.exec, pure (.exec none)) →
    Step s p (s.set p { s.procs p with call := none })
  | execRet {s p image} :
    (s.procs p).call = some (.exec, pure (.exec (some image))) →
    Step s p (s.set p { s.procs p with pagetable := image.pagetable, sz := image.sz, call := none })
  -- `allocproc` claims a slot and keeps its lock
  | fork {s p c} :
    (s.procs p).Idle →
    (s.procs c).state = .unused →
    (s.procs c).lock = none →
    Step s p ((s.enter p (.fork c) do
      let child ← fork (s.procs c).sz (s.procs p).pagetable (s.procs p).trapframe (s.procs p).sz
      pure (.fork child)).set c { s.procs c with state := .used, lock := some p })
  | forkFail {s p c} :
    (s.procs p).call = some (.fork c, pure (.fork none)) →
    Step s p ((s.set p { s.procs p with call := none }).set c (s.procs c).freed)
  | forkRet {s p c tf pt} :
    (s.procs p).call = some (.fork c, pure (.fork (some (tf, pt)))) →
    Step s p { (s.set p { s.procs p with call := none }).set c
        ((s.procs c).forked (s.procs p) p tf pt) with
      files := fun f => filedup (s.files f) (dups (s.procs p).ofile f) }
  -- `wait` and `waitx` have found an exited child
  | wait {s p c addr xstate times} :
    (s.procs p).Idle →
    (s.procs c).parent = some p →
    (s.procs c).state = .zombie →
    (s.procs c).lock = none →
    Step s p ((s.enter p (.wait c times) do
      let freed ← wait (s.procs p).pagetable addr xstate (s.procs c).trapframe (s.procs c).pagetable
        (s.procs c).sz
      pure (.wait freed)).set c { s.procs c with lock := some p })
  | waitRet {s p c freed} :
    (s.procs p).call = some (.wait c none, pure (.wait freed)) →
    Step s p ((s.set p { s.procs p with call := none }).set c
      (if freed then (s.procs c).freed else { s.procs c with lock := none }))
  | waitxRet {s p c freed} {t : Times} :
    (s.procs p).call = some (.wait c (some t), pure (.wait freed)) →
    Step s p ((s.enter p .times do
      copyTimes (s.procs p).pagetable t.addr1 t.addr2 t.wtime t.rtime
      pure .done).set c (if freed then (s.procs c).freed else { s.procs c with lock := none }))
  -- `waitx` without children copies out two times that it has not set
  | waitxNone {s p} {t : Times} :
    (s.procs p).Idle →
    Step s p (s.enter p .times do
      copyTimes (s.procs p).pagetable t.addr1 t.addr2 t.wtime t.rtime
      pure .done)
  | timesRet {s p} :
    (s.procs p).call = some (.times, pure .done) →
    Step s p (s.set p { s.procs p with call := none })
  | pipe {s p fdarray rf wf fd0 fd1} :
    (s.procs p).Idle →
    pipeFiles s.files = some (rf, wf) →
    pipeFds (s.procs p).ofile rf = some (fd0, fd1) →
    Step s p { s.set p { s.procs p with
        ofile := Function.update (Function.update (s.procs p).ofile fd0 (some rf)) fd1 (some wf)
        call := some (.pipe (some (fd0, fd1)), do
          let pi ← pipe (s.procs p).pagetable fdarray (some (intBytes fd0, intBytes fd1))
          pure (.pipe pi)) } with
      files := Function.update (Function.update s.files rf (filedup (s.files rf) 1)) wf
        (filedup (s.files wf) 1) }
  -- without two free descriptors the page is allocated and freed again
  | pipeFull {s p fdarray rf wf} :
    (s.procs p).Idle →
    pipeFiles s.files = some (rf, wf) →
    pipeFds (s.procs p).ofile rf = none →
    Step s p (s.enter p (.pipe none) do
      let pi ← pipe (s.procs p).pagetable fdarray none
      pure (.pipe pi))
  | pipeFullRet {s p} :
    (s.procs p).call = some (.pipe none, pure (.pipe none)) →
    Step s p (s.set p { s.procs p with call := none })
  | pipeFail {s p fd0 fd1 rf wf rf' wf'} :
    (s.procs p).call = some (.pipe (some (fd0, fd1)), pure (.pipe none)) →
    (s.procs p).ofile fd0 = some rf →
    (s.procs p).ofile fd1 = some wf →
    fileclose (s.files rf) = some (rf', none) →
    fileclose (s.files wf) = some (wf', none) →
    Step s p { s.set p { s.procs p with
        ofile := Function.update (Function.update (s.procs p).ofile fd0 none) fd1 none
        call := none } with
      files := Function.update (Function.update s.files rf rf') wf wf' }
  | pipeRet {s p fd0 fd1 rf wf pi} :
    (s.procs p).call = some (.pipe (some (fd0, fd1)), pure (.pipe (some pi))) →
    (s.procs p).ofile fd0 = some rf →
    (s.procs p).ofile fd1 = some wf →
    Step s p { s.set p { s.procs p with call := none } with
      files := Function.update (Function.update s.files rf { s.files rf with pipe := some (pi, false) }) wf
        { s.files wf with pipe := some (pi, true) }
      pipes := Function.update s.pipes pi (some ⟨true, true⟩) }
  | dup {s p fd fd' f} :
    (s.procs p).Idle →
    (s.procs p).ofile fd = some f →
    fdalloc (s.procs p).ofile = some fd' →
    Step s p { s.set p { s.procs p with ofile := Function.update (s.procs p).ofile fd' (some f) } with
      files := Function.update s.files f (filedup (s.files f) 1) }
  -- `close`, and the loop of `exit` over the descriptors
  | close {s p fd f f' closing} :
    (s.procs p).state = .live →
    (s.procs p).closing = none →
    (s.procs p).call = none →
    (s.procs p).ofile fd = some f →
    fileclose (s.files f) = some (f', closing) →
    Step s p { s.set p { s.procs p with
        ofile := Function.update (s.procs p).ofile fd none
        closing := closing } with
      files := Function.update s.files f f' }
  | pipeclose {s p pi w st} :
    (s.procs p).state = .live →
    (s.procs p).call = none →
    (s.procs p).closing = some (pi, w) →
    s.pipes pi = some st →
    ((st.shut w).readopen ∨ (st.shut w).writeopen) →
    Step s p { s.set p { s.procs p with closing := none } with
      pipes := Function.update s.pipes pi (some (st.shut w)) }
  | pipefree {s p pi w st} :
    (s.procs p).state = .live →
    (s.procs p).call = none →
    (s.procs p).closing = some (pi, w) →
    s.pipes pi = some st →
    ¬((st.shut w).readopen ∨ (st.shut w).writeopen) →
    Step s p { s.set p { s.procs p with
        closing := none
        call := some (.close, do kfree pi; pure .done) } with
      pipes := Function.update s.pipes pi none }
  | pipefreeRet {s p} :
    (s.procs p).call = some (.close, pure .done) →
    Step s p (s.set p { s.procs p with call := none })
  | exit {s p} :
    (s.procs p).Idle →
    p ≠ initproc →
    Step s p (s.set p { s.procs p with exiting := true })
  -- the children go to the first process
  | zombie {s p} :
    (s.procs p).state = .live →
    (s.procs p).exiting = true →
    (s.procs p).closing = none →
    (s.procs p).call = none →
    (∀ fd, (s.procs p).ofile fd = none) →
    Step s p { s with procs := fun q =>
      { s.procs q with
        parent := if (s.procs q).parent = some p then some initproc else (s.procs q).parent
        state := if q = p then .zombie else (s.procs q).state
        exiting := if q = p then false else (s.procs q).exiting } }

end Xv6
