import Xv6.Log.Header
import Xv6.Lib.Run
import Mathlib.Data.Finset.Card
import Mathlib.Data.Finset.Dedup

/-!
# The redo log

Model of `kernel/log.c` together with what it uses of `kernel/bio.c`. The pure functions `beginOp`,
`endOp`, `logWrite`, `readHead`, `writeHead` embed the code on `struct log` and on the header block;
`Step` interleaves them for any number of processes, with every block write of `commit()` a step of its
own. A panic stops the machine: it is recorded in the state and no step leads out of it.

`log.lh` is the list of the first `lh.n` entries of `lh.block`, so `lh.n` is its length. The buffer
cache is the partial map from block numbers to the contents of valid buffers; a buffer may be recycled
at any time unless the log has pinned it (`State.pinned`), which covers every order in which `bget`
may pick its victims.

The last five fields of `State` are history: which processes are inside an operation, the updates
logged so far grouped into transactions, and how many of the transactions have been committed by a
`commit()` that has returned.
-/

namespace Xv6

/-- `struct log`, without its spin lock and device number. -/
structure Log where
  start : Nat
  size : Nat
  outstanding : Nat
  committing : Bool
  lh : List Nat
  deriving DecidableEq

namespace Log

/-- One pass of the loop of `begin_op`; `none` when the caller goes to sleep. -/
def beginOp (l : Log) : Option Log :=
  if l.committing then
    none
  else if l.lh.length + (l.outstanding + 1) * MAXOPBLOCKS > LOGSIZE then
    none
  else
    some { l with outstanding := l.outstanding + 1 }

/-- The first critical section of `end_op`; the flag is `do_commit`. -/
def endOp (l : Log) : Except String (Log × Bool) :=
  let l := { l with outstanding := l.outstanding - 1 }
  if l.committing then
    .error "log.committing"
  else if l.outstanding = 0 then
    .ok ({ l with committing := true }, true)
  else
    .ok (l, false)

/-- The search loop of `log_write`: an entry for the block is reused, else one is appended. -/
def absorb : List Nat → Nat → List Nat
  | [], blockno => [blockno]
  | b :: bs, blockno => if b = blockno then blockno :: bs else b :: absorb bs blockno

/-- `log_write`, on the buffer of block `blockno`. -/
def logWrite (l : Log) (blockno : Nat) : Except String Log :=
  if l.lh.length ≥ LOGSIZE ∨ l.lh.length ≥ l.size - 1 then
    .error "too big a transaction"
  else if l.outstanding < 1 then
    .error "log_write outside of trans"
  else
    .ok { l with lh := absorb l.lh blockno }

/-- Where the process that runs `commit()` or `recover_from_log()` stands: before iteration `tail` of
    the loop of `write_log` or `install_trans`, after `commit()`, or before `read_head` at boot. -/
inductive Pc where
  | run
  | writeLog (tail : Nat)
  | installTrans (tail : Nat)
  | committed
  | boot
  | recover (tail : Nat)
  deriving DecidableEq

/-- One logged update: the operation that made it, the block and its new contents. -/
structure Update where
  op : Nat
  block : Nat
  data : Block

/-- The machine: disk, buffer cache, log, the position of the committing process, and history. -/
structure State where
  disk : Nat → Block
  cache : Nat → Option Block
  log : Log
  pc : Pc
  panic : Option String
  base : Nat → Block
  active : List (Nat × Nat)
  nextOp : Nat
  txns : List (List Update)
  cur : List Update
  returned : Nat

def State.bread (s : State) (b : Nat) : Block := (s.cache b).getD (s.disk b)

/-- The state after `bread`: the buffer of block `b` is valid. -/
def State.fill (s : State) (b : Nat) : State :=
  { s with cache := Function.update s.cache b (some (s.bread b)) }

/-- `bwrite`: the buffer of block `b`, holding `v`, is written to disk. -/
def State.bwrite (s : State) (b : Nat) (v : Block) : State :=
  { s with
    disk := Function.update s.disk b v
    cache := Function.update s.cache b (some v) }

/-- The blocks whose buffers the log has pinned: those not yet installed. -/
def State.pinned (s : State) : List Nat :=
  match s.pc with
  | .installTrans tail => s.log.lh.drop tail
  | .recover _ => []
  | _ => s.log.lh

/-- Iteration `tail` of `write_log`, for a log entry `b`. -/
def State.writeLog (s : State) (tail b : Nat) : State :=
  { (s.fill b).bwrite (s.log.start + tail + 1) (s.bread b) with pc := .writeLog (tail + 1) }

/-- Iteration `tail` of `install_trans`, for a log entry `b`. -/
def State.install (s : State) (tail b : Nat) : State :=
  (s.fill (s.log.start + tail + 1)).bwrite b (s.bread (s.log.start + tail + 1))

def State.writeHead (s : State) : State :=
  s.bwrite s.log.start (Log.writeHead (s.bread s.log.start) s.log.lh)

/-- `log.lh.n = 0` followed by `write_head`. -/
def State.clearHead (s : State) : State :=
  { s with log := { s.log with lh := [] } }.writeHead

/-- A block outside the on-disk log. -/
def Home (l : Log) (b : Nat) : Prop := b < l.start ∨ l.start + l.size ≤ b

/-- What the processes and the kernel do. -/
inductive Act where
  | beginOp (p : Nat)
  | logWrite (p b : Nat) (v : Block)
  | endOp (p : Nat)
  | bread (b : Nat)
  | recycle (b : Nat)
  | commit

/-- The steps of a running machine. A process inside an operation modifies the buffer of a home block
    and passes it to `log_write`; the process whose `end_op` was the last runs `commit()`. -/
inductive Step : State → Act → State → Prop where
  | beginOp {s p l} :
    s.panic = none →
    s.pc ≠ .boot → (∀ t, s.pc ≠ .recover t) →
    (∀ o, (p, o) ∉ s.active) →
    beginOp s.log = some l →
    Step s (.beginOp p)
      { s with log := l, active := (p, s.nextOp) :: s.active, nextOp := s.nextOp + 1 }
  | logWrite {s p o b v l} :
    s.panic = none →
    (p, o) ∈ s.active →
    s.log.Home b → b < 2 ^ 32 →
    logWrite s.log b = .ok l →
    Step s (.logWrite p b v)
      { s with
        cache := Function.update s.cache b (some v)
        log := l
        cur := s.cur ++ [⟨o, b, v⟩] }
  | logWritePanic {s p o b v msg} :
    s.panic = none →
    (p, o) ∈ s.active →
    s.log.Home b → b < 2 ^ 32 →
    logWrite s.log b = .error msg →
    Step s (.logWrite p b v) { s with panic := some msg }
  | endOp {s p o l} :
    s.panic = none →
    (p, o) ∈ s.active →
    endOp s.log = .ok (l, false) →
    Step s (.endOp p) { s with log := l, active := s.active.erase (p, o) }
  | endOpCommit {s p o l} :
    s.panic = none →
    (p, o) ∈ s.active →
    endOp s.log = .ok (l, true) →
    Step s (.endOp p)
      { s with
        log := l
        active := s.active.erase (p, o)
        txns := s.txns ++ [s.cur]
        cur := []
        returned := if l.lh = [] then s.returned + 1 else s.returned
        pc := if l.lh = [] then .committed else .writeLog 0 }
  | endOpPanic {s p o msg} :
    s.panic = none →
    (p, o) ∈ s.active →
    endOp s.log = .error msg →
    Step s (.endOp p) { s with panic := some msg }
  | bread {s b} :
    s.panic = none →
    Step s (.bread b) (s.fill b)
  | recycle {s b} :
    s.panic = none →
    b ∉ s.pinned →
    Step s (.recycle b) { s with cache := Function.update s.cache b none }
  | writeLog {s tail b} :
    s.panic = none →
    s.pc = .writeLog tail →
    s.log.lh[tail]? = some b →
    Step s .commit (s.writeLog tail b)
  | writeHead {s} :
    s.panic = none →
    s.pc = .writeLog s.log.lh.length →
    Step s .commit { s.writeHead with pc := .installTrans 0 }
  | install {s tail b} :
    s.panic = none →
    s.pc = .installTrans tail →
    s.log.lh[tail]? = some b →
    Step s .commit { s.install tail b with pc := .installTrans (tail + 1) }
  | clearHead {s} :
    s.panic = none →
    s.pc = .installTrans s.log.lh.length →
    Step s .commit { s.clearHead with pc := .committed, returned := s.returned + 1 }
  | finish {s} :
    s.panic = none →
    s.pc = .committed →
    Step s .commit { s with pc := .run, log := { s.log with committing := false } }

end Log
end Xv6
