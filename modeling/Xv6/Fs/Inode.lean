import Xv6.Params
import Xv6.Lib.Fallible
import Xv6.Lib.Bytes
import Mathlib.Data.Fin.Basic
import Mathlib.Logic.Function.Basic

/-!
# Blocks and inodes

The block allocator and the inodes of `kernel/fs.c`. The disk is seen as the log presents it inside an operation:
the free map, the inodes and the other blocks, each of which an operation reads and writes as a whole. Inodes have
a copy in the table of inodes in memory, which may differ from the one on the disk until `iupdate`. The functions
here are those parts of the source that run under the lock of the inode or of the table, so that no other process
comes between; the locks themselves are part of the kernel in `Xv6.Fs.Call`.
-/

namespace Xv6.Fs

/-- Direct blocks of an inode (`fs.h`). -/
abbrev NDIRECT : ℕ := 12

/-- Entries of an indirect block (`fs.h`). -/
abbrev NINDIRECT : ℕ := BSIZE / 4

/-- Blocks of a file at most (`fs.h`). -/
abbrev MAXFILE : ℕ := NDIRECT + NINDIRECT

abbrev NINODE : ℕ := 50

instance : NeZero NINODE := ⟨by decide⟩

/-- The number of the root directory (`fs.h`). -/
abbrev ROOTINO : ℕ := 1

/-- What the super block says: the number of blocks, of data blocks, which are the last ones, and of inodes. -/
structure Superblock where
  size : ℕ
  nblocks : ℕ
  ninodes : ℕ
  nblocks_lt : nblocks < size
  size_lt : size < 2 ^ 32
  root_lt : 1 < ninodes
  ninodes_le : ninodes ≤ 2 ^ 16

def Superblock.nmeta (sb : Superblock) : ℕ := sb.size - sb.nblocks

/-- The type of an inode (`stat.h`); the number 0 is that of a free one. -/
inductive FileType where
  | free | dir | file | device
  deriving DecidableEq

/-- `struct dinode`. -/
structure Dinode where
  type : FileType
  major : BitVec 16
  minor : BitVec 16
  nlink : BitVec 16
  size : ℕ
  addrs : ℕ → ℕ

/-- A block of the disk. -/
abbrev Block := ByteVec BSIZE

/-- The disk. -/
structure Disk where
  bitmap : ℕ → Bool
  inodes : ℕ → Dinode
  blocks : ℕ → Block

/-- `struct inode`. -/
structure Inode where
  inum : ℕ
  ref : ℕ
  valid : Bool
  din : Dinode

/-- The types of `struct file`, without the one of pipes. -/
inductive FdType where
  | none | inode | device
  deriving DecidableEq

/-- `struct file`. -/
structure File where
  type : FdType
  ref : ℕ
  readable : Bool
  writable : Bool
  ip : Fin NINODE
  off : ℕ
  major : BitVec 16

/-- The states of a process: the slot is free, there is a process, or it has exited. -/
inductive ProcState where
  | unused | used | zombie
  deriving DecidableEq

/-- What a process knows of the file system. -/
structure Proc where
  state : ProcState
  cwd : Option (Fin NINODE)
  ofile : Fin NOFILE → Option (Fin NFILE)

/-- The disk, the tables of inodes and of open files, and the processes. A buffer may have a change that was not
passed to `log_write`: `disk` has the block with the change, and `unlogged` the block without it, which comes back
when the buffer is reused. -/
structure State where
  disk : Disk
  unlogged : ℕ → Option Block
  itable : Fin NINODE → Inode
  ftable : Fin NFILE → File
  procs : Fin NPROC → Proc

/-- The calls of `panic`. -/
inductive Panic where
  | freeingFreeBlock
  | igetNoInodes
  | ilock
  | ilockNoType
  | iunlock
  | bmapOutOfRange
  | dirlookupNotDir
  | dirlookupRead
  | dirlinkRead
  | isdirempty
  | unlinkNlink
  | unlinkWritei
  | filedup
  | fileclose
  | fileread
  | filewrite
  | kerneltrap
  deriving DecidableEq

abbrev M := Fallible State Panic

def inode (ip : Fin NINODE) : M Inode := do
  return (← get).itable ip

def setInode (ip : Fin NINODE) (f : Inode → Inode) : M Unit :=
  modify fun s => { s with itable := Function.update s.itable ip (f (s.itable ip)) }

/-- Change the copy of the fields of an inode in memory. -/
def setDin (ip : Fin NINODE) (f : Dinode → Dinode) : M Unit :=
  setInode ip fun I => { I with din := f I.din }

def setDisk (f : Disk → Disk) : M Unit :=
  modify fun s => { s with disk := f s.disk }

def bread (b : ℕ) : M Block := do
  return (← get).disk.blocks b

/-- The state after a change of a block, whose logged content is `u` if it is not the block itself. -/
def State.store (s : State) (b : ℕ) (blk : Block) (u : Option Block) : State :=
  { s with
    disk := { s.disk with blocks := Function.update s.disk.blocks b blk }
    unlogged := Function.update s.unlogged b u }

/-- A change of a block of data that is passed to `log_write`. -/
def bwrite (b : ℕ) (blk : Block) : M Unit :=
  modify fun s => s.store b blk none

/-- A change of a block of data that is not passed to `log_write`. -/
def bchange (b : ℕ) (blk : Block) : M Unit :=
  modify fun s => s.store b blk (some ((s.unlogged b).getD (s.disk.blocks b)))

def setBit (b : ℕ) (used : Bool) : M Unit :=
  setDisk fun d => { d with bitmap := Function.update d.bitmap b used }

def iupdate (ip : Fin NINODE) : M Unit :=
  modify fun s =>
    { s with
      disk := { s.disk with inodes := Function.update s.disk.inodes (s.itable ip).inum (s.itable ip).din } }

section

variable (sb : Superblock)

/-- `balloc`: the first free block, zeroed, or 0. -/
def balloc : M ℕ := do
  let s ← get
  match (List.range sb.size).find? fun b => !s.disk.bitmap b with
  | some b =>
    setBit b true
    bwrite b fun _ => 0
    return b
  | none => return 0

def bfree (b : ℕ) : M Unit := do
  if (← get).disk.bitmap b then setBit b false else throw .freeingFreeBlock

def iget (inum : ℕ) : M (Fin NINODE) := do
  let s ← get
  match (List.finRange NINODE).find? fun ip => 0 < (s.itable ip).ref ∧ (s.itable ip).inum = inum with
  | some ip =>
    setInode ip fun I => { I with ref := I.ref + 1 }
    return ip
  | none =>
    match (List.finRange NINODE).find? fun ip => (s.itable ip).ref = 0 with
    | some ip =>
      setInode ip fun I => { I with inum := inum, ref := 1, valid := false }
      return ip
    | none => throw .igetNoInodes

def idup (ip : Fin NINODE) : M (Fin NINODE) := do
  setInode ip fun I => { I with ref := I.ref + 1 }
  return ip

/-- `ialloc`: the first inode that is free on the disk, from number 1 on. -/
def ialloc (type : FileType) : M (Option (Fin NINODE)) := do
  let s ← get
  match (List.range sb.ninodes).find? fun n => 1 ≤ n ∧ (s.disk.inodes n).type = .free with
  | some n =>
    setDisk fun d => { d with inodes := Function.update d.inodes n ⟨type, 0, 0, 0, 0, fun _ => 0⟩ }
    return some (← iget n)
  | none => return none

/-- The part of `ilock` after the lock has been taken: read the inode from the disk if this has not been done. -/
def load (ip : Fin NINODE) : M Unit := do
  let I ← inode ip
  if I.valid then pure ()
  else
    let d := (← get).disk.inodes I.inum
    setInode ip fun I => { I with valid := true, din := d }
    if d.type = .free then throw .ilockNoType else pure ()

/-- The block whose address is in `addrs[k]`, which is allocated if there is none. -/
def bmapAddr (ip : Fin NINODE) (k : ℕ) : M ℕ := do
  let addr := (← inode ip).din.addrs k
  if addr = 0 then
    let addr ← balloc sb
    if addr = 0 then return 0
    else
      setDin ip fun d => { d with addrs := Function.update d.addrs k addr }
      return addr
  else return addr

/-- The block whose address is in entry `j` of the indirect block `ind`, which is allocated if there is none. -/
def bmapEntry (ind j : ℕ) : M ℕ := do
  let addr := (← bread ind).getLE (4 * j) 4
  if addr = 0 then
    let addr ← balloc sb
    if addr = 0 then return 0
    else
      bwrite ind ((← bread ind).putLE (4 * j) 4 addr)
      return addr
  else return addr

/-- `bmap`: the address of the block `bn` of the file, which is allocated if there is none. -/
def bmap (ip : Fin NINODE) (bn : ℕ) : M ℕ := do
  if bn < NDIRECT then bmapAddr sb ip bn
  else if bn - NDIRECT < NINDIRECT then
    let ind ← bmapAddr sb ip NDIRECT
    if ind = 0 then return 0 else bmapEntry sb ind (bn - NDIRECT)
  else throw .bmapOutOfRange

/-- The loop of `itrunc` over the direct blocks, at one of them. -/
def itruncAddr (ip : Fin NINODE) (i : ℕ) : M Unit := do
  let addr := (← inode ip).din.addrs i
  if addr = 0 then pure ()
  else
    bfree addr
    setDin ip fun d => { d with addrs := Function.update d.addrs i 0 }

/-- The loop of `itrunc` over the entries of the indirect block, at one of them. -/
def itruncEntry (ind j : ℕ) : M Unit := do
  let addr := (← bread ind).getLE (4 * j) 4
  if addr = 0 then pure () else bfree addr

def itrunc (ip : Fin NINODE) : M Unit := do
  Fallible.upto (itruncAddr ip) NDIRECT
  let ind := (← inode ip).din.addrs NDIRECT
  if ind = 0 then pure ()
  else
    Fallible.upto (itruncEntry ind) NINDIRECT
    bfree ind
    setDin ip fun d => { d with addrs := Function.update d.addrs NDIRECT 0 }
  setDin ip fun d => { d with size := 0 }
  iupdate ip

/-- The part of `iput` that frees the inode. -/
def ifree (ip : Fin NINODE) : M Unit := do
  itrunc ip
  setDin ip fun d => { d with type := .free }
  iupdate ip
  setInode ip fun I => { I with valid := false }

def decRef (ip : Fin NINODE) : M Unit :=
  setInode ip fun I => { I with ref := I.ref - 1 }

/-- The loop of `readi`: `n` bytes at `off` are left, and `dst i` tells whether byte `i` of the destination can be
written. The result is `none` for the error of `either_copyout`. -/
def readLoop (ip : Fin NINODE) (dst : ℕ → Bool) (off n tot : ℕ) : M (Option (List UInt8)) := do
  if _h : n = 0 then return some []
  else
    let addr ← bmap sb ip (off / BSIZE)
    if addr = 0 then return some []
    else
      let m := min n (BSIZE - off % BSIZE)
      let bytes := (← bread addr).bytes (off % BSIZE) m
      if (List.range m).all fun i => dst (tot + i) then
        match ← readLoop ip dst (off + m) (n - m) (tot + m) with
        | some rest => return some (bytes ++ rest)
        | none => return none
      else return none
termination_by n
decreasing_by
  have : off % 1024 < 1024 := Nat.mod_lt _ (by decide)
  simp only [BSIZE]
  omega

/-- `readi`: the bytes that have been read. -/
def readi (ip : Fin NINODE) (dst : ℕ → Bool) (off n : ℕ) : M (Option (List UInt8)) := do
  let d := (← inode ip).din
  if off > d.size ∨ (off + n) % 2 ^ 32 < off then return some []
  else readLoop sb ip dst off (if off + n > d.size then d.size - off else n) 0

/-- `either_copyin` of `m` bytes of the source from byte `tot` on, up to the first that cannot be read. -/
def copyin (src : ℕ → Option UInt8) (tot m : ℕ) : List UInt8 :=
  ((List.range m).takeWhile fun i => (src (tot + i)).isSome).map fun i => (src (tot + i)).getD 0

/-- The loop of `writei`: `n` bytes at `off` are left, byte `i` of the source is `src i`, or cannot be read. The
result is the offset and the number of bytes written at the end. If not all bytes of a block can be copied, the
buffer has the others and is released without `log_write`. -/
def writeLoop (ip : Fin NINODE) (src : ℕ → Option UInt8) (off n tot : ℕ) : M (ℕ × ℕ) := do
  if _h : n = 0 then return (off, tot)
  else
    let addr ← bmap sb ip (off / BSIZE)
    if addr = 0 then return (off, tot)
    else
      let m := min n (BSIZE - off % BSIZE)
      let bytes := copyin src tot m
      let blk := (← bread addr).putBytes (off % BSIZE) bytes
      if bytes.length = m then
        bwrite addr blk
        writeLoop ip src (off + m) (n - m) (tot + m)
      else
        bchange addr blk
        return (off, tot)
termination_by n
decreasing_by
  have : off % 1024 < 1024 := Nat.mod_lt _ (by decide)
  simp only [BSIZE]
  omega

/-- `writei`: the number of bytes written, or `none` for -1. -/
def writei (ip : Fin NINODE) (src : ℕ → Option UInt8) (off n : ℕ) : M (Option ℕ) := do
  let d := (← inode ip).din
  if off > d.size ∨ (off + n) % 2 ^ 32 < off then return none
  else if off + n > MAXFILE * BSIZE then return none
  else
    let (off, tot) ← writeLoop sb ip src off n 0
    setDin ip fun d => { d with size := if off > d.size then off else d.size }
    iupdate ip
    return some tot

end

end Xv6.Fs
