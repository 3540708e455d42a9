import Xv6.Params
import Xv6.Lib.Cells
import Xv6.Lib.Counting
import Xv6.Lib.Run
import Xv6.Log.Header

/-!
# The buffer cache

Model of `bio.c`. The functions on `struct bcache` are executable: the list is kept in the `next` and `prev` fields of the
buffers, and the two loops of `bget` follow them. `Step` interleaves the calls of any number of processes. What is done
under `bcache.lock` is one step; the sleep-lock of a buffer is taken after `bget` has chosen it and given up before
`brelse` decrements its count, in steps of their own, and between the two its holder may change the data of the buffer.
-/

namespace Xv6.Bio

/-- `struct buf`, with the process that holds its sleep-lock, and without its links. -/
structure Buf where
  valid : Bool
  dev : BitVec 32
  blockno : BitVec 32
  refcnt : BitVec 32
  lock : Option (Fin NPROC)
  data : Block

/-- `struct bcache`, without its spin lock. -/
structure Bcache where
  buf : Fin NBUF → Buf
  links : Cells (Fin NBUF)

def Bcache.set (c : Bcache) (b : Fin NBUF) (B : Buf) : Bcache := { c with buf := Function.update c.buf b B }

def binit : Bcache where
  buf _ := ⟨false, 0, 0, 0, none, fun _ => 0⟩
  links := (List.finRange NBUF).foldl Cells.push ⟨fun _ => none, fun _ => none⟩

/-- What `bget` does under `bcache.lock`: it chooses a buffer. There is no result if one of the loops has no end. -/
def bget (c : Bcache) (dev blockno : BitVec 32) : Option (Except String (Fin NBUF × Bcache)) :=
  let cached b := (c.buf b).dev == dev && (c.buf b).blockno == blockno
  match Cells.scan c.links.next cached (NBUF + 1) (c.links.next none) with
  | none => none
  | some (some b) => some (.ok (b, c.set b { c.buf b with refcnt := (c.buf b).refcnt + 1 }))
  | some none =>
    match Cells.scan c.links.prev (fun b => (c.buf b).refcnt == 0) (NBUF + 1) (c.links.prev none) with
    | none => none
    | some (some b) =>
      some (.ok (b, c.set b { c.buf b with dev := dev, blockno := blockno, valid := false, refcnt := 1 }))
    | some none => some (.error "bget: no buffers")

/-- What `brelse` does under `bcache.lock`. -/
def brelse (c : Bcache) (b : Fin NBUF) : Bcache :=
  let c := c.set b { c.buf b with refcnt := (c.buf b).refcnt - 1 }
  if (c.buf b).refcnt = 0 then { c with links := (c.links.unlink b).push b } else c

def bpin (c : Bcache) (b : Fin NBUF) : Bcache := c.set b { c.buf b with refcnt := (c.buf b).refcnt + 1 }

def bunpin (c : Bcache) (b : Fin NBUF) : Bcache := c.set b { c.buf b with refcnt := (c.buf b).refcnt - 1 }

/-- Where a process is. -/
inductive Place where
  | out
  /-- In `bget`, at `acquiresleep`. -/
  | acquiresleep (b : Fin NBUF)
  /-- In `brelse`, after `releasesleep`. -/
  | brelse (b : Fin NBUF)
  deriving DecidableEq

/-- The cache, the places of the processes, and history: the pins that have not been taken back; when `brelse` brought
the count of a buffer to zero last, or for one for which it has not done so its position in the order of `binit`; and the
number of those events, counted from `NBUF` on. -/
structure State where
  cache : Bcache
  at_ : Fin NPROC → Place
  pins : Fin NBUF → ℕ
  used : Fin NBUF → ℕ
  clock : ℕ

/-- What a process does. -/
inductive Event where
  | bget (p : Fin NPROC) (dev blockno : BitVec 32) (b : Fin NBUF)
  | acquiresleep (p : Fin NPROC) (b : Fin NBUF)
  | data (p : Fin NPROC) (b : Fin NBUF) (valid : Bool) (data : Block)
  | releasesleep (p : Fin NPROC) (b : Fin NBUF)
  | brelse (p : Fin NPROC) (b : Fin NBUF)
  | bpin (b : Fin NBUF)
  | bunpin (b : Fin NBUF)

def State.move (s : State) (p : Fin NPROC) (l : Place) : State := { s with at_ := Function.update s.at_ p l }

def State.brelse (s : State) (b : Fin NBUF) : State :=
  if (s.cache.buf b).refcnt - 1 = 0 then
    { s with cache := Bio.brelse s.cache b, used := Function.update s.used b s.clock, clock := s.clock + 1 }
  else { s with cache := Bio.brelse s.cache b }

def State.bpin (s : State) (b : Fin NBUF) : State :=
  { s with cache := Bio.bpin s.cache b, pins := Function.update s.pins b (s.pins b + 1) }

def State.bunpin (s : State) (b : Fin NBUF) : State :=
  { s with cache := Bio.bunpin s.cache b, pins := Function.update s.pins b (s.pins b - 1) }

/-- The steps. The log pins a buffer once for an entry of its header, so that at most `LOGSIZE` pins are outstanding, and
takes back only pins it has. -/
inductive Step (s : State) : Event → State → Prop where
  | bget {p dev blockno b c} :
    s.at_ p = .out →
    dev ≠ 0 →
    bget s.cache dev blockno = some (.ok (b, c)) →
    Step s (.bget p dev blockno b) ({ s with cache := c }.move p (.acquiresleep b))
  | acquiresleep {p b} :
    s.at_ p = .acquiresleep b →
    (s.cache.buf b).lock = none →
    Step s (.acquiresleep p b)
      ({ s with cache := s.cache.set b { s.cache.buf b with lock := some p } }.move p .out)
  | data {p b valid data} :
    s.at_ p = .out →
    (s.cache.buf b).lock = some p →
    Step s (.data p b valid data)
      { s with cache := s.cache.set b { s.cache.buf b with valid := valid, data := data } }
  | releasesleep {p b} :
    s.at_ p = .out →
    (s.cache.buf b).lock = some p →
    Step s (.releasesleep p b)
      ({ s with cache := s.cache.set b { s.cache.buf b with lock := none } }.move p (.brelse b))
  | brelse {p b} :
    s.at_ p = .brelse b →
    Step s (.brelse p b) ((s.brelse b).move p .out)
  | bpin {b} :
    s.pins b < LOGSIZE →
    Step s (.bpin b) (s.bpin b)
  | bunpin {b} :
    0 < s.pins b →
    Step s (.bunpin b) (s.bunpin b)

def boot : State := ⟨binit, fun _ => .out, fun _ => 0, Fin.val, NBUF⟩

end Xv6.Bio
