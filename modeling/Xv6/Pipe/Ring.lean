import Mathlib.Data.List.Range
import Xv6.Params
import Xv6.Lib.Monitor

/-!
# Pipes

The code of `pipe.c` as a monitor under `pi->lock`. A call is at one of the places of `Place`; `act` is what it does from
one place to the next. The user memory of a call is what it was at the call: a byte for every address that is mapped.

The bytes that writers have put into the ring and those that readers have taken out are recorded as lists. The counters
run freely modulo `2 ^ 32`; what is put in is what has been taken out and then the ring (`pipe_fifo`).
-/

namespace Xv6.Pipes

abbrev PIPESIZE : ℕ := 512

/-- `struct pipe`, and all bytes that have been put into the ring and taken out of it. -/
structure Pipe where
  data : ℕ → UInt8
  nread : BitVec 32
  nwrite : BitVec 32
  readopen : Bool
  writeopen : Bool
  put : List UInt8
  taken : List UInt8

def pipealloc (data : ℕ → UInt8) : Pipe := ⟨data, 0, 0, true, true, [], []⟩

def Pipe.full (pi : Pipe) : Bool := pi.nwrite == pi.nread + BitVec.ofNat 32 PIPESIZE

def Pipe.empty (pi : Pipe) : Bool := pi.nread == pi.nwrite

def Pipe.store (pi : Pipe) (ch : UInt8) : Pipe :=
  { pi with
    data := Function.update pi.data (pi.nwrite.toNat % PIPESIZE) ch
    nwrite := pi.nwrite + 1#32
    put := pi.put ++ [ch] }

def Pipe.next (pi : Pipe) : UInt8 := pi.data (pi.nread.toNat % PIPESIZE)

def Pipe.take (pi : Pipe) : Pipe :=
  { pi with
    nread := pi.nread + 1#32
    taken := pi.taken ++ [pi.next] }

/-- The arguments of `pipewrite`: the bytes at `addr` that can be read, and how many are to be written. -/
structure Write where
  src : ℕ → Option UInt8
  n : ℤ

/-- The arguments of `piperead`: the addresses from `addr` on that can be written, and how many bytes are wanted. -/
structure Read where
  dst : ℕ → Bool
  n : ℤ

/-- The channels `&pi->nread` and `&pi->nwrite`. -/
inductive Chan where
  | nread
  | nwrite
  deriving DecidableEq

/-- The places of the three functions at which the lock is held. A call of `pipewrite` carries whether it has put bytes
into the ring since its last `wakeup`. -/
inductive Place where
  -- `pipewrite`: the test of the loop, `killed(pr)`, the test for a full ring with the copy, the two calls for a full ring
  -- and the `wakeup` after the loop
  | writeLoop (w : Write) (i : ℕ) (fresh : Bool)
  | writeKilled (w : Write) (i : ℕ) (fresh : Bool)
  | writeByte (w : Write) (i : ℕ) (fresh : Bool)
  | writeWakeup (w : Write) (i : ℕ) (fresh : Bool)
  | writeSleep (w : Write) (i : ℕ)
  | writeDone (i : ℕ) (fresh : Bool)
  -- `piperead`: the test of the first loop, `killed(pr)`, `sleep`, the copy and the `wakeup` after it
  | readLoop (r : Read)
  | readKilled (r : Read)
  | readSleep (r : Read)
  | readByte (r : Read) (i : ℕ)
  | readDone (i : ℕ)
  -- `pipeclose`
  | close (writable : Bool)
  | closeWakeup (writable : Bool)
  /-- `release` and the value that is returned. -/
  | return (ret : ℤ) (fresh : Bool)

/-- What a call does at a place where it calls neither `sleep` nor `wakeup` nor `release`. -/
def act (killed : Bool) (pi : Pipe) : Place → Option (Place × Pipe)
  | .writeLoop w i fresh =>
    if i < w.n then
      if pi.readopen then some (.writeKilled w i fresh, pi) else some (.return (-1) fresh, pi)
    else some (.writeDone i fresh, pi)
  | .writeKilled w i fresh => if killed then some (.return (-1) fresh, pi) else some (.writeByte w i fresh, pi)
  | .writeByte w i fresh =>
    if pi.full then some (.writeWakeup w i fresh, pi)
    else match w.src i with
      | none => some (.writeDone i fresh, pi)
      | some ch => some (.writeLoop w (i + 1) true, pi.store ch)
  | .readLoop r => if pi.empty && pi.writeopen then some (.readKilled r, pi) else some (.readByte r 0, pi)
  | .readKilled r => if killed then some (.return (-1) false, pi) else some (.readSleep r, pi)
  | .readByte r i =>
    if i < r.n then
      if pi.empty then some (.readDone i, pi)
      -- a byte that cannot be copied out has been taken
      else if r.dst i then some (.readByte r (i + 1), pi.take) else some (.readDone i, pi.take)
    else some (.readDone i, pi)
  | .close true => some (.closeWakeup true, { pi with writeopen := false })
  | .close false => some (.closeWakeup false, { pi with readopen := false })
  | _ => none

/-- The calls of `wakeup`. -/
inductive Wakes : Place → Chan → Place → Prop where
  | writeFull {w i fresh} : Wakes (.writeWakeup w i fresh) .nread (.writeSleep w i)
  | writeDone {i : ℕ} {fresh} : Wakes (.writeDone i fresh) .nread (.return i false)
  | readDone {i : ℕ} : Wakes (.readDone i) .nwrite (.return i false)
  | closeWrite : Wakes (.closeWakeup true) .nread (.return 0 false)
  | closeRead : Wakes (.closeWakeup false) .nwrite (.return 0 false)

/-- The calls of `sleep`. -/
inductive Sleeps : Place → Chan → Place → Prop where
  | write {w i} : Sleeps (.writeSleep w i) .nwrite (.writeLoop w i false)
  | read {r} : Sleeps (.readSleep r) .nread (.readLoop r)

/-- The first places of the three functions. -/
def Place.Start : Place → Prop
  | .writeLoop _ i fresh => i = 0 ∧ fresh = false
  | .readLoop _ => True
  | .close _ => True
  | _ => False

/-- The places at which the lock is given up. -/
def Place.Return : Place → Prop
  | .return _ _ => True
  | _ => False

/-- Any number of processes that call `pipewrite`, `piperead` and `pipeclose`. -/
def pipe : Monitor (Fin NPROC) Pipe Place Chan where
  start _ l _ := l.Start
  act _ l pi killed l' pi' := act killed pi l = some (l', pi')
  wakes := Wakes
  sleeps := Sleeps
  ends := Place.Return
  free _ _ _ := False

def Pipe.count (pi : Pipe) : ℕ := (pi.nwrite - pi.nread).toNat

/-- The bytes in the ring, from `nread` on. -/
def Pipe.ring (pi : Pipe) : List UInt8 :=
  (List.range pi.count).map fun k => pi.data ((pi.nread + BitVec.ofNat 32 k).toNat % PIPESIZE)

/-- The ring holds what has been put in and not been taken out. -/
structure Fifo (pi : Pipe) : Prop where
  count : pi.count ≤ PIPESIZE
  put : pi.put = pi.taken ++ pi.ring

variable {pi pi' : Pipe} {ch : UInt8}

lemma index_eq (a : BitVec 32) (k : ℕ) : (a + BitVec.ofNat 32 k).toNat % PIPESIZE = (a.toNat + k) % PIPESIZE := by
  rw [BitVec.toNat_add, BitVec.toNat_ofNat, PIPESIZE]
  omega

lemma full_iff : pi.full ↔ pi.count = PIPESIZE := by
  rw [Pipe.full, beq_iff_eq, Pipe.count, ← BitVec.toNat_inj, BitVec.toNat_add, BitVec.toNat_sub, BitVec.toNat_ofNat,
    PIPESIZE]
  omega

lemma empty_iff : pi.empty ↔ pi.count = 0 := by
  rw [Pipe.empty, beq_iff_eq, Pipe.count, ← BitVec.toNat_inj, BitVec.toNat_sub]
  omega

lemma count_store (room : pi.count < PIPESIZE) : (pi.store ch).count = pi.count + 1 := by
  simp only [Pipe.count, Pipe.store, BitVec.toNat_sub, BitVec.toNat_add, BitVec.toNat_ofNat, PIPESIZE] at room ⊢
  omega

lemma count_take (some : 0 < pi.count) : pi.count = pi.take.count + 1 := by
  simp only [Pipe.count, Pipe.take, BitVec.toNat_sub, BitVec.toNat_add, BitVec.toNat_ofNat] at some ⊢
  omega

lemma ring_store (room : pi.count < PIPESIZE) : (pi.store ch).ring = pi.ring ++ [ch] := by
  have last : pi.nwrite.toNat % PIPESIZE = (pi.nread.toNat + pi.count) % PIPESIZE := by
    rw [Pipe.count, BitVec.toNat_sub, PIPESIZE]
    omega
  rw [Pipe.ring, count_store room, List.range_succ, List.map_append, List.map_singleton]
  congr 1
  · refine List.map_congr_left fun k mem => Function.update_of_ne ?_ _ _
    -- the other positions of the ring are not the one that is written
    have lt := List.mem_range.mp mem
    simp only [index_eq, last, Pipe.store, PIPESIZE] at room ⊢
    omega
  · simp only [Pipe.store, index_eq, last, Function.update_self]

lemma ring_take (some : 0 < pi.count) : pi.ring = pi.next :: pi.take.ring := by
  rw [Pipe.ring, count_take some, List.range_succ_eq_map, List.map_cons, List.map_map]
  congr 1
  · simp [Pipe.next]
  · refine List.map_congr_left fun k _ => ?_
    have shift : pi.take.nread + BitVec.ofNat 32 k = pi.nread + BitVec.ofNat 32 (k + 1) := by
      rw [Pipe.take, BitVec.add_assoc, BitVec.add_comm 1#32, ← BitVec.ofNat_add]
    simp only [Function.comp, shift]
    rfl

lemma Fifo.store (f : Fifo pi) (room : ¬pi.full) : Fifo (pi.store ch) := by
  have lt : pi.count < PIPESIZE := Nat.lt_of_le_of_ne f.count (fun eq => room (full_iff.mpr eq))
  refine ⟨(count_store lt).trans_le lt, ?_⟩
  rw [ring_store lt, ← List.append_assoc]
  exact congrArg (· ++ [ch]) f.put

lemma Fifo.take (f : Fifo pi) (some : ¬pi.empty) : Fifo pi.take := by
  have pos : 0 < pi.count := Nat.pos_of_ne_zero fun eq => some (empty_iff.mpr eq)
  have count := count_take pos
  refine ⟨Nat.le_trans (by omega) f.count, ?_⟩
  have put := f.put
  rw [ring_take pos, List.append_cons] at put
  exact put

lemma Fifo.act {killed : Bool} {l l' : Place} (f : Fifo pi) (a : act killed pi l = some (l', pi')) : Fifo pi' := by
  cases l with
  | writeByte w i fresh =>
    simp only [Pipes.act] at a
    split at a
    · cases a
      exact f
    · rename_i room
      split at a
      · cases a
        exact f
      · cases a
        exact f.store room
  | readByte r i =>
    simp only [Pipes.act] at a
    split at a
    · split at a
      · cases a
        exact f
      · rename_i some
        split at a <;> cases a <;> exact f.take some
    · cases a
      exact f
  | close writable =>
    cases writable <;> cases a <;> exact ⟨f.count, f.put⟩
  | _ =>
    simp only [Pipes.act] at a
    repeat' split at a
    all_goals cases a
    all_goals exact f

lemma fifo_pipealloc {data : ℕ → UInt8} : Fifo (pipealloc data) := by
  constructor <;> simp [pipealloc, Pipe.ring, Pipe.count]

/-- In every state that any number of readers and writers reach, at most `PIPESIZE` bytes are in the ring, and what the
writers have put in is what the readers have taken out followed by the ring. -/
theorem pipe_fifo {data : ℕ → UInt8} {es : List (Monitor.Event NPROC Place)} {s : Monitor.State NPROC Pipe Place Chan}
    (run : Run (Monitor.Step pipe) (Monitor.init (pipealloc data)) es s) :
    (s.data.nwrite - s.data.nread).toNat ≤ PIPESIZE ∧ s.data.ring.length = (s.data.nwrite - s.data.nread).toNat ∧
      s.data.put = s.data.taken ++ s.data.ring := by
  have f : Fifo s.data := Monitor.data_of_run fifo_pipealloc (fun f a => f.act a) (fun _ => False.elim) run
  exact ⟨f.count, by simp [Pipe.ring, Pipe.count], f.put⟩

def twoBytes : Write := ⟨fun _ => some 7, 2⟩

/-- A pipe that has just been made, and nobody in it. -/
abbrev fresh : Monitor.State NPROC Pipe Place Chan := Monitor.init (pipealloc fun _ => 5)

/-- A writer has put a byte in, which is the ring. -/
theorem pipe_fifo_byte :
    ∃ es s, Run (Monitor.Step pipe) fresh es s ∧ s.data.put = [7] ∧ s.data.put = s.data.taken ++ s.data.ring := by
  have run := Run.nil.snoc (@Monitor.Step.enter _ _ _ _ _ pipe fresh 0 (.writeLoop twoBytes 0 false) rfl rfl ⟨rfl, rfl⟩)
    |>.snoc (.act (p := 0) rfl rfl) |>.snoc (.act (p := 0) rfl rfl) |>.snoc (.act (p := 0) rfl rfl)
  exact ⟨_, _, run, rfl, (pipe_fifo run).2.2⟩

end Xv6.Pipes
