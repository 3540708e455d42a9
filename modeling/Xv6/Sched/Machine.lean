import Xv6.Params
import Xv6.Lib.Run
import Mathlib.Algebra.Group.Nat.Defs
import Mathlib.Data.Int.Notation
import Mathlib.Logic.Function.Basic

/-!
# Processes, kernel threads and CPUs

The process table of `kernel/proc.c` with the kernel threads of the processes and the CPUs that run them, in
the round-robin build. A CPU runs the loop of `scheduler`, or the kernel thread of the process it has
switched to, or on CPU 0 the clock interrupt. A step of a CPU is a section under the lock of a slot, an
`acquire` or `release` of one of the other spin locks, a `swtch`, or a move of a thread that only reads.
The loops over the table are steps, one for each slot. `fork`, `exit`, `wait`, `waitx` and the loops that sleep
are followed from line to line; the rest of the kernel is the place `user`.
-/

namespace Xv6.Sched

/-- An `uint` of the machine. -/
abbrev Uint := BitVec 32

/-- `enum procstate`. -/
inductive ProcState where
  | unused | used | sleeping | runnable | running | zombie
  deriving DecidableEq

/-- The spin locks that `sleep` is called with in the loops below. -/
inductive Lk where
  | wait
  | pipe (pi : Nat)
  | cons
  | ticks
  deriving DecidableEq

/-- What a process sleeps on: the slot of a process, the counters of a pipe, the console, the clock, or
another address. -/
inductive Chan where
  | proc (p : Fin NPROC)
  | nread (pi : Nat)
  | nwrite (pi : Nat)
  | cons
  | ticks
  | other (chan : Nat)
  deriving DecidableEq

/-- A call of `wait`, or of `waitx` when `x` is set, with its argument. -/
structure Wait where
  x : Bool
  addr : Nat
  deriving DecidableEq

/-- The loops that check `killed` and sleep. -/
inductive Loop where
  | wait (w : Wait)
  | piperead (pi : Nat)
  | pipewrite (pi : Nat)
  | consoleread
  | sysSleep
  deriving DecidableEq

namespace Loop

/-- The lock the loop gives to `sleep`. -/
def lk : Loop → Lk
  | .wait _ => .wait
  | .piperead pi => .pipe pi
  | .pipewrite pi => .pipe pi
  | .consoleread => .cons
  | .sysSleep => .ticks

/-- The channel process `p` sleeps on. -/
def chan (p : Fin NPROC) : Loop → Chan
  | .wait _ => .proc p
  | .piperead pi => .nread pi
  | .pipewrite pi => .nwrite pi
  | .consoleread => .cons
  | .sysSleep => .ticks

/-- The loop is the one of `wait` or `waitx`. -/
def isWait : Loop → Bool
  | .wait _ => true
  | _ => false

/-- The loop calls `killed`; `waitx` reads the field without the lock. -/
def callsKilled : Loop → Bool
  | .wait w => !w.x
  | _ => true

end Loop

/-- Where a kernel thread is: outside of the calls below, in `fork` about to allocate the trapframe or the
page table of `np`, to copy memory to it, to set its parent or to make it runnable, in `exit` at slot `i` of
`reparent` or at slot `j` of a `wakeup`, in `wait` at slot `i` of the scan, with an exited child found or
done, at the head of another loop, about to check `killed`, about to call `sleep`, or back from it. -/
inductive Pc where
  | user
  | forkTrapframe (np : Fin NPROC)
  | forkPagetable (np : Fin NPROC)
  | forkCopy (np : Fin NPROC)
  | forkParent (np : Fin NPROC)
  | forkRun (np : Fin NPROC)
  | exitReparent (status : Int) (i : Nat)
  | exitWakeInit (status : Int) (i : Fin NPROC) (j : Nat)
  | exitWakeParent (status : Int) (j : Nat)
  | waitScan (w : Wait) (i : Nat) (havekids : Bool)
  | waitFound (w : Wait) (pp : Fin NPROC)
  | waitDone
  | loop (L : Loop)
  | check (L : Loop)
  | sleep (L : Loop)
  | woken (L : Loop)
  deriving DecidableEq

namespace Pc

/-- The child a `fork` has not completed yet. -/
def child : Pc → Option (Fin NPROC)
  | .forkTrapframe np => some np
  | .forkPagetable np => some np
  | .forkCopy np => some np
  | .forkParent np => some np
  | .forkRun np => some np
  | _ => none

/-- The slot whose lock the thread holds. -/
def locks : Pc → Option (Fin NPROC)
  | .forkTrapframe np => some np
  | .forkPagetable np => some np
  | .forkCopy np => some np
  | .waitFound _ pp => some pp
  | _ => none

/-- The other spin lock the thread holds. -/
def lk : Pc → Option Lk
  | .exitReparent _ _ => some .wait
  | .exitWakeInit _ _ _ => some .wait
  | .exitWakeParent _ _ => some .wait
  | .waitScan _ _ _ => some .wait
  | .waitFound _ _ => some .wait
  | .waitDone => some .wait
  | .loop L => some L.lk
  | .check L => some L.lk
  | .sleep L => some L.lk
  | _ => none

end Pc

/-- The head of a loop, where it goes on when `sleep` has returned. -/
def Loop.top : Loop → Pc
  | .wait w => .waitScan w 0 false
  | L => .loop L

/-- The callers of `sched`; a new process starts in `forkret`. -/
inductive Switch where
  | yield | sleep | exit | forkret
  deriving DecidableEq

/-- A thread runs; or it holds its lock in `sleep`; or it is in `sched`, about to switch to the scheduler;
or its context is saved, and it goes on when the scheduler switches to it. -/
inductive Sw where
  | run
  | sleep
  | sched (k : Switch)
  | saved (k : Switch)
  deriving DecidableEq

/-- The kernel thread of a process. -/
structure Thread where
  pc : Pc
  sw : Sw
  deriving DecidableEq

/-- A slot of the process table with its lock, which records the CPU that holds it; a null pointer is 0.
`serial` numbers the allocations of slots and `runs` counts the visits of `time_updates` that found the
process running: the code does not have them. -/
structure Slot where
  lock : Option (Fin NCPU)
  state : ProcState
  chan : Option Chan
  killed : Bool
  xstate : Int
  pid : Int
  ctime : Uint
  etime : Uint
  rtime : Uint
  parent : Option (Fin NPROC)
  sz : Nat
  pagetable : Nat
  trapframe : Nat
  serial : Nat
  runs : Nat

def freeproc (S : Slot) : Slot :=
  { S with
    trapframe := 0, pagetable := 0, sz := 0, pid := 0, parent := none, chan := none, killed := false,
    xstate := 0, state := .unused }

def wake (chan : Option Chan) (S : Slot) : Slot :=
  if S.state = .sleeping ∧ S.chan = chan then { S with state := .runnable } else S

/-- What `kill` does to the process it has found. -/
def setKilled (S : Slot) : Slot :=
  { S with killed := true, state := if S.state = .sleeping then .runnable else S.state }

def timeUpdate (S : Slot) : Slot :=
  if S.state = .running then { S with rtime := S.rtime + 1, runs := S.runs + 1 } else S

/-- What a CPU does: the loop of `scheduler` at slot `i`, the thread of the process it has switched to, or
the rest of the loop body after that thread has switched back. -/
inductive Mode where
  | scan (i : Fin NPROC)
  | thread
  | back (p : Fin NPROC)
  deriving DecidableEq

/-- `struct cpu`. -/
structure Cpu where
  proc : Option (Fin NPROC)
  mode : Mode
  deriving DecidableEq

/-- A process has called `exit` and become a zombie. -/
structure Exit where
  serial : Nat
  pid : Int
  status : Int
  deriving DecidableEq

/-- A call of `wait` or `waitx` by `parent` has freed a process and returns its pid, the status it has
copied out if it was asked for it, and for `waitx` the waiting and the running time. -/
structure Reap where
  serial : Nat
  parent : Fin NPROC
  call : Wait
  pid : Int
  status : Option Int
  times : Option (Uint × Uint)
  deriving DecidableEq

/-- The state of the kernel. `clock` is the slot at which the clock interrupt of CPU 0 is. `allocated`
counts the slots handed out, `exited` and `reaped` record what has happened: the code does not have
them. -/
structure State where
  slots : Fin NPROC → Slot
  threads : Fin NPROC → Thread
  cpus : Fin NCPU → Cpu
  locks : Lk → Option (Fin NCPU)
  clock : Option Nat
  ticks : Uint
  nextpid : Int
  allocated : Nat
  exited : List Exit
  reaped : List Reap

def initproc : Fin NPROC := ⟨0, NPROC_pos⟩

/-- The CPU that takes the clock interrupts. -/
def cpu0 : Fin NCPU := ⟨0, by decide⟩

/-- The next `int`, as the machine computes it. -/
def succInt (n : Int) : Int := (n + 1).bmod (2 ^ 32)

/-- The next slot of the scheduler's loop, which starts again after the last one. -/
def next (i : Fin NPROC) : Fin NPROC := ⟨(i.val + 1) % NPROC, Nat.mod_lt _ (by decide)⟩

namespace State

def put (s : State) (q : Fin NPROC) (S : Slot) : State :=
  { s with slots := Function.update s.slots q S }

def setThread (s : State) (p : Fin NPROC) (t : Thread) : State :=
  { s with threads := Function.update s.threads p t }

def goto (s : State) (p : Fin NPROC) (pc : Pc) : State := s.setThread p ⟨pc, .run⟩

def setCpu (s : State) (c : Fin NCPU) (C : Cpu) : State :=
  { s with cpus := Function.update s.cpus c C }

def setLk (s : State) (k : Lk) (h : Option (Fin NCPU)) : State :=
  { s with locks := Function.update s.locks k h }

/-- CPU `c` runs the thread of `p`, which is at `pc`; CPU 0 is not in the clock interrupt. -/
structure Runs (s : State) (c : Fin NCPU) (p : Fin NPROC) (t : Thread) : Prop where
  mode : (s.cpus c).mode = .thread
  proc : (s.cpus c).proc = some p
  thread : s.threads p = t
  clock : c = cpu0 → s.clock = none

/-- CPU `c` is at slot `i` of the scheduler's loop. -/
structure Scans (s : State) (c : Fin NCPU) (i : Fin NPROC) : Prop where
  mode : (s.cpus c).mode = .scan i
  clock : c = cpu0 → s.clock = none

/-- Interrupts are enabled on CPU `c`: it is in the scheduler's loop, or in a thread that holds no
lock. -/
def Enabled (s : State) (c : Fin NCPU) : Prop :=
  (∃ i, s.Scans c i) ∨ ∃ p pc, s.Runs c p ⟨pc, .run⟩ ∧ pc.locks = none ∧ pc.lk = none

end State

/-- The moves of the thread of `p` that only read. -/
inductive Local (s : State) (p : Fin NPROC) : Pc → Pc → Prop where
  | exitSkip {status i} :
    (s.slots i).parent ≠ some p →
    Local s p (.exitReparent status i.val) (.exitReparent status (i.val + 1))
  | exitWoken {status i} :
    Local s p (.exitWakeInit status i NPROC) (.exitReparent status (i.val + 1))
  | exitGiven {status} :
    Local s p (.exitReparent status NPROC) (.exitWakeParent status 0)
  | waitSkip {w i havekids} :
    (s.slots i).parent ≠ some p →
    Local s p (.waitScan w i.val havekids) (.waitScan w (i.val + 1) havekids)
  | waitLive {w i havekids} :
    (s.slots i).parent = some p →
    (s.slots i).lock = none →
    (s.slots i).state ≠ .zombie →
    Local s p (.waitScan w i.val havekids) (.waitScan w (i.val + 1) true)
  | waitKids {w} :
    Local s p (.waitScan w NPROC true) (.check (.wait w))
  -- the condition of the loop holds
  | loop {L} :
    L.isWait = false →
    Local s p (.loop L) (.check L)
  | alive {L} :
    (L.callsKilled = true → (s.slots p).lock = none) →
    (s.slots p).killed = false →
    Local s p (.check L) (.sleep L)
  -- the pipe is not full
  | pipewrite {pi} :
    Local s p (.sleep (.pipewrite pi)) (.loop (.pipewrite pi))

/-- The places where the thread of `p` acquires a lock. -/
inductive Takes (p : Fin NPROC) : Pc → Lk → Pc → Prop where
  -- `exit` of the first process panics
  | exit {status} :
    p ≠ initproc →
    Takes p .user .wait (.exitReparent status 0)
  | wait {w} :
    Takes p .user .wait (.waitScan w 0 false)
  | loop {L} :
    L.isWait = false →
    Takes p .user L.lk (.loop L)
  | woken {L} :
    Takes p (.woken L) L.lk L.top

/-- The places where it releases one and returns. -/
inductive Drops (s : State) (p : Fin NPROC) : Pc → Lk → Pc → Prop where
  | waitNone {w} :
    Drops s p (.waitScan w NPROC false) .wait .user
  | waitDone :
    Drops s p .waitDone .wait .user
  | loop {L} :
    Drops s p (.loop L) L.lk .user
  | killed {L} :
    (L.callsKilled = true → (s.slots p).lock = none) →
    (s.slots p).killed = true →
    Drops s p (.check L) L.lk .user

/-- The sections of the thread of `p`, on CPU `c`, that change one slot `q`. -/
inductive Edit (s : State) (c : Fin NCPU) (p : Fin NPROC) : Pc → Fin NPROC → Slot → Pc → Prop where
  | kill {q pid} :
    (s.slots q).lock = none →
    (s.slots q).pid = pid →
    Edit s c p .user q (setKilled (s.slots q)) .user
  | setkilled :
    (s.slots p).lock = none →
    Edit s c p .user p { s.slots p with killed := true } .user
  -- `exec` and `sbrk` of the process itself
  | image {sz pt} :
    Edit s c p .user p { s.slots p with sz := sz, pagetable := pt } .user
  -- one of the allocations has failed
  | forkFail {np pc} :
    pc = .forkTrapframe np ∨ pc = .forkPagetable np ∨ pc = .forkCopy np →
    Edit s c p pc np { freeproc (s.slots np) with lock := none } .user
  | forkTrapframe {np tf} :
    Edit s c p (.forkTrapframe np) np { s.slots np with trapframe := tf } (.forkPagetable np)
  | forkCopy {np} :
    Edit s c p (.forkCopy np) np { s.slots np with sz := (s.slots p).sz, lock := none } (.forkParent np)
  | forkParent {np} :
    s.locks .wait = none →
    Edit s c p (.forkParent np) np { s.slots np with parent := some p } (.forkRun np)
  | forkRun {np} :
    (s.slots np).lock = none →
    Edit s c p (.forkRun np) np { s.slots np with state := .runnable } .user
  | exitReparent {status i} :
    (s.slots i).parent = some p →
    Edit s c p (.exitReparent status i.val) i { s.slots i with parent := some initproc }
      (.exitWakeInit status i 0)
  | exitWakeInit {status i j} :
    j ≠ p →
    (s.slots j).lock = none →
    Edit s c p (.exitWakeInit status i j.val) j (wake (some (.proc initproc)) (s.slots j))
      (.exitWakeInit status i (j.val + 1))
  | exitWakeParent {status j} :
    j ≠ p →
    (s.slots j).lock = none →
    Edit s c p (.exitWakeParent status j.val) j (wake ((s.slots p).parent.map .proc) (s.slots j))
      (.exitWakeParent status (j.val + 1))
  | waitFound {w i havekids} :
    (s.slots i).parent = some p →
    (s.slots i).lock = none →
    (s.slots i).state = .zombie →
    Edit s c p (.waitScan w i.val havekids) i { s.slots i with lock := some c } (.waitFound w i)
  -- the status could not be copied out
  | waitFail {w pp} :
    w.addr ≠ 0 →
    Edit s c p (.waitFound w pp) pp { s.slots pp with lock := none } .waitDone

/-- What a call of `wait` or `waitx` by `p` returns for the exited child `S`. -/
def reap (p : Fin NPROC) (w : Wait) (S : Slot) : Reap where
  serial := S.serial
  parent := p
  call := w
  pid := S.pid
  status := if w.addr ≠ 0 then some S.xstate else none
  times := if w.x then some (S.etime - S.ctime - S.rtime, S.rtime) else none

/-- A step of CPU `c`. -/
inductive Step : State → Fin NCPU → State → Prop where
  | skip {s c i} :
    s.Scans c i →
    (s.slots i).lock = none →
    (s.slots i).state ≠ .runnable →
    Step s c (s.setCpu c ⟨(s.cpus c).proc, .scan (next i)⟩)
  | dispatch {s c i} :
    s.Scans c i →
    (s.slots i).lock = none →
    (s.slots i).state = .runnable →
    Step s c ((s.put i { s.slots i with lock := some c, state := .running }).setCpu c ⟨some i, .thread⟩)
  | back {s c p} :
    (s.cpus c).mode = .back p →
    Step s c ((s.put p { s.slots p with lock := none }).setCpu c ⟨none, .scan (next p)⟩)
  -- the switched-to thread returns from `sched`, or starts in `forkret`, and releases its lock
  | resume {s c p pc k} :
    s.Runs c p ⟨pc, .saved k⟩ →
    k ≠ .exit →
    Step s c ((s.put p { s.slots p with
      lock := none, chan := if k = .sleep then none else (s.slots p).chan }).goto p pc)
  | yield {s c p pc} :
    s.Runs c p ⟨pc, .run⟩ →
    pc.locks = none →
    pc.lk = none →
    (s.slots p).lock = none →
    Step s c ((s.put p { s.slots p with lock := some c, state := .runnable }).setThread p
      ⟨pc, .sched .yield⟩)
  | sleepLock {s c p L} :
    s.Runs c p ⟨.sleep L, .run⟩ →
    (s.slots p).lock = none →
    Step s c ((s.put p { s.slots p with lock := some c }).setThread p ⟨.sleep L, .sleep⟩)
  | sleep {s c p L} :
    s.Runs c p ⟨.sleep L, .sleep⟩ →
    Step s c (((s.put p { s.slots p with chan := some (L.chan p), state := .sleeping }).setThread p
      ⟨.woken L, .sched .sleep⟩).setLk L.lk none)
  -- the other callers of `sleep`
  | sleepOther {s c p chan} :
    s.Runs c p ⟨.user, .run⟩ →
    (s.slots p).lock = none →
    Step s c ((s.put p { s.slots p with
      lock := some c, chan := some (.other chan), state := .sleeping }).setThread p
      ⟨.user, .sched .sleep⟩)
  -- `sched` panics if the lock is not held or the process is running
  | swtch {s c p pc k} :
    s.Runs c p ⟨pc, .sched k⟩ →
    (s.slots p).lock = some c →
    (s.slots p).state ≠ .running →
    Step s c ((s.setThread p ⟨pc, .saved k⟩).setCpu c ⟨(s.cpus c).proc, .back p⟩)
  -- the callers of `wakeup` other than `exit`, interrupts included
  | wakeup {s c q chan} :
    (s.cpus c).proc ≠ some q →
    (s.slots q).lock = none →
    (∀ p, chan ≠ .proc p) →
    Step s c (s.put q (wake (some chan) (s.slots q)))
  | move {s c p pc pc'} :
    s.Runs c p ⟨pc, .run⟩ →
    Local s p pc pc' →
    Step s c (s.goto p pc')
  | acquire {s c p pc k pc'} :
    s.Runs c p ⟨pc, .run⟩ →
    Takes p pc k pc' →
    s.locks k = none →
    Step s c ((s.goto p pc').setLk k (some c))
  | release {s c p pc k pc'} :
    s.Runs c p ⟨pc, .run⟩ →
    Drops s p pc k pc' →
    Step s c ((s.goto p pc').setLk k none)
  | edit {s c p pc q S pc'} :
    s.Runs c p ⟨pc, .run⟩ →
    Edit s c p pc q S pc' →
    Step s c ((s.put q S).goto p pc')
  -- a `wakeup` does not visit the process that calls it
  | wakeSelf {s c p pc pc'} :
    s.Runs c p ⟨pc, .run⟩ →
    (∃ status i, pc = .exitWakeInit status i p.val ∧ pc' = .exitWakeInit status i (p.val + 1)) ∨
      (∃ status, pc = .exitWakeParent status p.val ∧ pc' = .exitWakeParent status (p.val + 1)) →
    Step s c (s.goto p pc')
  | fork {s c p np} :
    s.Runs c p ⟨.user, .run⟩ →
    (s.slots np).lock = none →
    (s.slots np).state = .unused →
    Step s c { (s.put np { s.slots np with
        lock := some c, pid := s.nextpid, state := .used, ctime := s.ticks, serial := s.allocated }).goto p
          (.forkTrapframe np) with
      nextpid := succInt s.nextpid
      allocated := s.allocated + 1 }
  | forkPagetable {s c p np pt} :
    s.Runs c p ⟨.forkPagetable np, .run⟩ →
    Step s c (((s.put np { s.slots np with
      pagetable := pt, rtime := 0, etime := 0, ctime := s.ticks, runs := 0 }).setThread np
        ⟨.user, .saved .forkret⟩).goto p (.forkCopy np))
  | exitZombie {s c p status} :
    s.Runs c p ⟨.exitWakeParent status NPROC, .run⟩ →
    (s.slots p).lock = none →
    Step s c { ((s.put p { s.slots p with
        lock := some c, xstate := status, state := .zombie, etime := s.ticks }).setThread p
          ⟨.user, .sched .exit⟩).setLk .wait none with
      exited := s.exited ++ [⟨(s.slots p).serial, (s.slots p).pid, status⟩] }
  | waitFree {s c p w pp} :
    s.Runs c p ⟨.waitFound w pp, .run⟩ →
    Step s c { (s.put pp { freeproc (s.slots pp) with lock := none }).goto p .waitDone with
      reaped := s.reaped ++ [reap p w (s.slots pp)] }
  | tick {s} :
    s.Enabled cpu0 →
    s.locks .ticks = none →
    Step s cpu0 { s.setLk .ticks (some cpu0) with ticks := s.ticks + 1, clock := some 0 }
  | visit {s i} :
    s.clock = some i.val →
    (s.slots i).lock = none →
    Step s cpu0 { s.put i (timeUpdate (s.slots i)) with clock := some (i.val + 1) }
  | tickDone {s} :
    s.clock = some NPROC →
    Step s cpu0 { s.setLk .ticks none with clock := none }

def emptySlot : Slot where
  lock := none
  state := .unused
  chan := none
  killed := false
  xstate := 0
  pid := 0
  ctime := 0
  etime := 0
  rtime := 0
  parent := none
  sz := 0
  pagetable := 0
  trapframe := 0
  serial := 0
  runs := 0

/-- The state after `userinit`, when the CPUs enter `scheduler`: the first process is runnable. -/
def boot (sz pagetable trapframe : Nat) : State where
  slots p := if p = initproc then
    { emptySlot with state := .runnable, pid := 1, sz := sz, pagetable := pagetable, trapframe := trapframe }
    else emptySlot
  threads _ := ⟨.user, .saved .forkret⟩
  cpus _ := ⟨none, .scan initproc⟩
  locks _ := none
  clock := none
  ticks := 0
  nextpid := 2
  allocated := 1
  exited := []
  reaped := []

end Xv6.Sched
