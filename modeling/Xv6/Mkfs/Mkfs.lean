import Xv6.Fs.Dinode
import Xv6.Fs.Entry

/-!
# `mkfs`

The program of `mkfs/mkfs.c`. Its state is the image file and the counters of inodes and of blocks; it exits early when a call
of the host fails or an assertion does not hold. An input is an argument of the program with what the calls of `read` on the
file return, piece by piece.
-/

namespace Xv6.Mkfs

open Fs (RawDinode Dirent NDIRECT NINDIRECT MAXFILE IPB ROOTINO DIRSIZ T_DIR T_FILE)

/-- Size of the file system in blocks (`param.h`). -/
abbrev FSSIZE : ℕ := 2000

abbrev NINODES : ℕ := 200

/-- The number of blocks of the bitmap. -/
abbrev nbitmap : ℕ := FSSIZE / (BSIZE * 8) + 1

abbrev ninodeblocks : ℕ := NINODES / IPB + 1

abbrev nlog : ℕ := LOGSIZE

/-- The number of meta blocks (boot, super, log, inodes, bitmap). -/
abbrev nmeta : ℕ := 2 + nlog + ninodeblocks + nbitmap

abbrev nblocks : ℕ := FSSIZE - nmeta

/-- `struct superblock`. -/
structure Super where
  magic : ℕ
  size : ℕ
  nblocks : ℕ
  ninodes : ℕ
  nlog : ℕ
  logstart : ℕ
  inodestart : ℕ
  bmapstart : ℕ

def sb : Super := ⟨0x10203040, FSSIZE, nblocks, NINODES, nlog, 2, 2 + nlog, 2 + nlog + ninodeblocks⟩

def Super.block (sb : Super) : Fs.Block :=
  ByteVec.putWords (fun _ => 0) 0 8 fun k =>
    [sb.magic, sb.size, sb.nblocks, sb.ninodes, sb.nlog, sb.logstart, sb.inodestart, sb.bmapstart].getD k 0

def IBLOCK (inum : ℕ) (sb : Super) : ℕ := inum / IPB + sb.inodestart

/-- The image file: its length in blocks, and the blocks. -/
structure Image where
  len : ℕ
  blocks : ℕ → Fs.Block

/-- The image and the counters. -/
structure State where
  image : Image
  freeinode : ℕ
  freeblock : ℕ

/-- How the program ends if not with `exit(0)`. -/
inductive Exit where
  | die (msg : String)
  | abort

abbrev M := Fallible State Exit

/-- The block of the image that `lseek` goes to: the offset is a `uint`. -/
def seek (sec : ℕ) : ℕ := sec * BSIZE % 2 ^ 32 / BSIZE

def wsect (sec : ℕ) (buf : Fs.Block) : M Unit :=
  modify fun s => { s with image := ⟨max s.image.len (seek sec + 1), Function.update s.image.blocks (seek sec) buf⟩ }

/-- `rsect`: there is nothing to read beyond the end of the file. -/
def rsect (sec : ℕ) : M Fs.Block := do
  let s ← get
  if seek sec < s.image.len then return s.image.blocks (seek sec) else throw (.die "read")

def winode (inum : ℕ) (ip : RawDinode) : M Unit := do
  let buf ← rsect (IBLOCK inum sb)
  wsect (IBLOCK inum sb) (ip.put buf (inum % IPB))

def rinode (inum : ℕ) : M RawDinode := do
  let buf ← rsect (IBLOCK inum sb)
  return .get buf (inum % IPB)

def nextInode : M ℕ := do
  let s ← get
  modify fun s => { s with freeinode := s.freeinode + 1 }
  return s.freeinode

def nextBlock : M ℕ := do
  let s ← get
  modify fun s => { s with freeblock := s.freeblock + 1 }
  return s.freeblock

def ialloc (type : ℕ) : M ℕ := do
  let inum ← nextInode
  winode inum ⟨type, 0, 0, 1, 0, fun _ => 0⟩
  return inum

def balloc (used : ℕ) : M Unit := do
  if used < BSIZE * 8 then
    wsect sb.bmapstart ((List.range used).foldl
      (fun buf i => buf.put8 (i / 8) (buf.get8 (i / 8) ||| UInt8.ofNat (2 ^ (i % 8)))) fun _ => 0)
  else throw .abort

/-- The address in `din.addrs[k]`, for which a block is taken if it is 0. -/
def addrBlock (din : RawDinode) (k : ℕ) : M (ℕ × RawDinode) := do
  if din.addrs k = 0 then
    let b ← nextBlock
    return (b, { din with addrs := Function.update din.addrs k b })
  else return (din.addrs k, din)

/-- The address in entry `j` of the indirect block `ind`, for which a block is taken if it is 0. -/
def entryBlock (ind j : ℕ) : M ℕ := do
  let indirect ← rsect ind
  if indirect.getLE (4 * j) 4 = 0 then
    let b ← nextBlock
    wsect ind (indirect.putLE (4 * j) 4 b)
    return b
  else return indirect.getLE (4 * j) 4

/-- The part of `iappend` that finds the block `fbn` of the file. -/
def fileBlock (din : RawDinode) (fbn : ℕ) : M (ℕ × RawDinode) := do
  if fbn < NDIRECT then addrBlock din fbn
  else
    let (ind, din) ← addrBlock din NDIRECT
    return (← entryBlock ind (fbn - NDIRECT), din)

/-- The loop of `iappend`: the bytes `p` are left. -/
def appendLoop (p : List UInt8) (off : ℕ) (din : RawDinode) : M (ℕ × RawDinode) := do
  if _h : p = [] then return (off, din)
  else
    let fbn := off / BSIZE
    if fbn < MAXFILE then
      let (x, din) ← fileBlock din fbn
      let n1 := min p.length ((fbn + 1) * BSIZE - off)
      let buf ← rsect x
      wsect x (buf.putBytes (off - fbn * BSIZE) (p.take n1))
      appendLoop (p.drop n1) (off + n1) din
    else throw .abort
termination_by p.length
decreasing_by
  have pos := List.length_pos_iff.2 _h
  have := Nat.div_add_mod off BSIZE
  have := Nat.mod_lt off (show BSIZE > 0 by decide)
  rw [List.length_drop]
  have : 0 < (off / BSIZE + 1) * BSIZE - off := by
    rw [Nat.add_mul, Nat.mul_comm]
    omega
  omega

def iappend (inum : ℕ) (p : List UInt8) : M Unit := do
  let din ← rinode inum
  let (off, din) ← appendLoop p din.size din
  winode inum { din with size := off }

/-- An argument of the program: a string, and the pieces that the calls of `read` return if the file can be opened. -/
structure Input where
  arg : List UInt8
  pieces : Option (List (List UInt8))
  nonzero : 0 ∉ arg
  piece : ∀ ps ∈ pieces, ∀ p ∈ ps, p ≠ [] ∧ p.length ≤ BSIZE

def Input.short (f : Input) : List UInt8 :=
  if f.arg.take 5 = [117, 115, 101, 114, 47] then f.arg.drop 5 else f.arg

/-- The name in the file system: a leading `_` is skipped, and `strncpy` copies `DIRSIZ` bytes. -/
def Input.name (f : Input) : Fs.Name :=
  (if f.short.head? = some 95 then f.short.tail else f.short).take DIRSIZ

/-- The round of the loop of `main` for a file. -/
def addFile (f : Input) : M Unit := do
  if 47 ∈ f.short then throw .abort
  else
    match f.pieces with
    | none => throw (.die "open")
    | some ps =>
      let inum ← ialloc T_FILE
      iappend ROOTINO (Dirent.toBytes ⟨inum, f.name⟩)
      ps.forM (iappend inum)

/-- The end of `main`: the size of the root directory and the bitmap. -/
def finish : M Unit := do
  let din ← rinode ROOTINO
  winode ROOTINO { din with size := (din.size / BSIZE + 1) * BSIZE }
  balloc (← get).freeblock

def main (files : List Input) : M Unit := do
  Fallible.upto (fun i => wsect i fun _ => 0) FSSIZE
  wsect 1 sb.block
  let rootino ← ialloc T_DIR
  if rootino = ROOTINO then
    iappend rootino (Dirent.toBytes ⟨rootino, Fs.dot⟩)
    iappend rootino (Dirent.toBytes ⟨rootino, Fs.dotdot⟩)
    files.forM addFile
    finish
  else throw .abort

/-- An empty image, and the counters before the first inode and block are taken. -/
def init : State := ⟨⟨0, fun _ _ => 0⟩, 1, nmeta⟩

/-! ### What the kernel sees -/

def Image.readsb (img : Image) : Super where
  magic := (img.blocks 1).getLE 0 4
  size := (img.blocks 1).getLE 4 4
  nblocks := (img.blocks 1).getLE 8 4
  ninodes := (img.blocks 1).getLE 12 4
  nlog := (img.blocks 1).getLE 16 4
  logstart := (img.blocks 1).getLE 20 4
  inodestart := (img.blocks 1).getLE 24 4
  bmapstart := (img.blocks 1).getLE 28 4

def Image.inode (img : Image) (inum : ℕ) : RawDinode :=
  .get (img.blocks (IBLOCK inum img.readsb)) (inum % IPB)

/-- The bit of a block in the free map. -/
def Image.bit (img : Image) (b : ℕ) : Bool :=
  ((img.blocks (b / (BSIZE * 8) + img.readsb.bmapstart)).get8 (b % (BSIZE * 8) / 8)).toNat.testBit (b % 8)

/-- The disk of the kernel that has the image. -/
def Image.disk (img : Image) : Fs.Disk where
  bitmap := img.bit
  inodes inum := (img.inode inum).toDinode
  blocks := img.blocks

end Xv6.Mkfs
