import Xv6.Fs.Inode

/-!
# Directories and tables

The directory layer of `kernel/fs.c`, the table of open files of `kernel/file.c` and the descriptors of a process, as
functions that run under the lock of the directory, of the table, or for a process of its own.
-/

namespace Xv6.Fs

/-- Length of a name in a directory (`fs.h`). -/
abbrev DIRSIZ : ℕ := 14

/-- A name: the characters up to the first zero, at most `DIRSIZ` of them. -/
abbrev Name := List UInt8

/-- `struct dirent`. -/
structure Dirent where
  inum : ℕ
  name : Name
  deriving DecidableEq

abbrev DESIZE : ℕ := 16

/-- The entry in some bytes of a directory. -/
def Dirent.ofBytes (bs : List UInt8) : Dirent :=
  ⟨(bs.getD 0 0).toNat + 256 * (bs.getD 1 0).toNat, (bs.drop 2).takeWhile (· ≠ 0)⟩

/-- The bytes of an entry; `strncpy` fills the name with zeros. -/
def Dirent.toBytes (de : Dirent) : List UInt8 :=
  UInt8.ofNat de.inum :: UInt8.ofNat (de.inum / 256) :: (List.range DIRSIZ).map fun i => de.name.getD i 0

/-- The name of a directory in itself. -/
def dot : Name := [46]

/-- The name of the parent of a directory in it. -/
def dotdot : Name := [46, 46]

/-- `skipelem`: the first element of a path, cut to `DIRSIZ` characters, and the rest. -/
def skipelem (path : List UInt8) : Option (Name × List UInt8) :=
  match path.dropWhile (· = 47) with
  | [] => none
  | s => some ((s.takeWhile (· ≠ 47)).take DIRSIZ, (s.dropWhile (· ≠ 47)).dropWhile (· = 47))

lemma skipelem_lt {path name rest} (h : skipelem path = some (name, rest)) : rest.length < path.length := by
  unfold skipelem at h
  split at h
  · simp at h
  · rename_i s ne
    simp only [Option.some.injEq, Prod.mk.injEq] at h
    obtain ⟨_, rfl⟩ := h
    have hd : ∀ c t, path.dropWhile (· = 47) = c :: t → c ≠ 47 := by
      intro c t eq
      have := List.head_dropWhile_not (fun x : UInt8 => decide (x = 47)) (l := path) (by rw [eq]; simp)
      simpa [eq] using this
    cases s : path.dropWhile (· = 47) with
    | nil => exact absurd s (by simpa using ne)
    | cons c t =>
      have c47 := hd c t s
      have l₁ := (List.dropWhile_sublist (fun x : UInt8 => decide (x = 47)) (l := path)).length_le
      have l₂ := (List.dropWhile_sublist (fun x : UInt8 => decide (x = 47))
        (l := (c :: t).dropWhile (· ≠ 47))).length_le
      have l₃ := (List.dropWhile_sublist (fun x : UInt8 => decide (x ≠ 47)) (l := t)).length_le
      rw [s] at l₁
      simp [c47] at l₁ l₂ l₃ ⊢
      omega

section

variable (sb : Superblock)

def readDirent (msg : Panic) (dp : Fin NINODE) (off : ℕ) : M Dirent := do
  match ← readi sb dp (fun _ => true) off DESIZE with
  | some bs => if bs.length = DESIZE then return Dirent.ofBytes bs else throw msg
  | none => throw msg

/-- The loop over the entries of a directory, `k` of them, from `off` on: it ends at the first entry that satisfies
`p`. -/
def dirScan (msg : Panic) (dp : Fin NINODE) (p : Dirent → Bool) : ℕ → ℕ → M (Option (ℕ × Dirent))
  | 0, _ => return none
  | k + 1, off => do
    let de ← readDirent sb msg dp off
    if p de then return some (off, de) else dirScan msg dp p k (off + DESIZE)

/-- The number of entries the loop looks at in a directory of this size, from `off` on. -/
def entries (size off : ℕ) : ℕ := (size - off + (DESIZE - 1)) / DESIZE

/-- `dirlookup`: the inode of the entry and its offset. -/
def dirlookup (dp : Fin NINODE) (name : Name) : M (Option (Fin NINODE × ℕ)) := do
  let d := (← inode dp).din
  if d.type = .dir then
    match ← dirScan sb .dirlookupRead dp (fun de => de.inum ≠ 0 ∧ name = de.name) (entries d.size 0) 0 with
    | some (off, de) => return some (← iget de.inum, off)
    | none => return none
  else throw .dirlookupNotDir

/-- The bytes of an entry as the source of `writei`. -/
def Dirent.src (de : Dirent) (i : ℕ) : Option UInt8 := some (de.toBytes.getD i 0)

/-- The part of `dirlink` that writes the entry, of inode number `inum`, where there is none. -/
def dirAdd (dp : Fin NINODE) (name : Name) (inum : ℕ) : M Bool := do
  let size := (← inode dp).din.size
  let off := match ← dirScan sb .dirlinkRead dp (fun de => de.inum = 0) (entries size 0) 0 with
    | some (off, _) => off
    | none => DESIZE * entries size 0
  return (← writei sb dp (Dirent.src ⟨inum, name⟩) off DESIZE) = some DESIZE

/-- The part of `sys_unlink` that clears the entry. -/
def dirErase (dp : Fin NINODE) (off : ℕ) : M (Option ℕ) :=
  writei sb dp (Dirent.src ⟨0, []⟩) off DESIZE

def isdirempty (dp : Fin NINODE) : M Bool := do
  let size := (← inode dp).din.size
  return (← dirScan sb .isdirempty dp (fun de => de.inum ≠ 0) (entries size (2 * DESIZE)) (2 * DESIZE)).isNone

end

/-- A change of the fields of an inode, and `iupdate`. -/
def change (ip : Fin NINODE) (f : Dinode → Dinode) : M Unit := do
  setDin ip f
  iupdate ip

/-- The flags of `open` (`fcntl.h`). -/
abbrev O_WRONLY : BitVec 32 := 0x001

@[inherit_doc O_WRONLY]
abbrev O_RDWR : BitVec 32 := 0x002

@[inherit_doc O_WRONLY]
abbrev O_CREATE : BitVec 32 := 0x200

@[inherit_doc O_WRONLY]
abbrev O_TRUNC : BitVec 32 := 0x400

def setFile (f : Fin NFILE) (g : File → File) : M Unit :=
  modify fun s => { s with ftable := Function.update s.ftable f (g (s.ftable f)) }

def setProc (p : Fin NPROC) (g : Proc → Proc) : M Unit :=
  modify fun s => { s with procs := Function.update s.procs p (g (s.procs p)) }

def filealloc : M (Option (Fin NFILE)) := do
  let s ← get
  match (List.finRange NFILE).find? fun f => (s.ftable f).ref = 0 with
  | some f =>
    setFile f fun F => { F with ref := 1 }
    return some f
  | none => return none

def filedup (f : Fin NFILE) : M Unit := do
  if ((← get).ftable f).ref < 1 then throw .filedup
  else setFile f fun F => { F with ref := F.ref + 1 }

/-- The part of `fileclose` under the lock of the table: the file, if this was the last reference. -/
def fileDrop (f : Fin NFILE) : M (Option File) := do
  let F := (← get).ftable f
  if F.ref < 1 then throw .fileclose
  else if F.ref > 1 then
    setFile f fun F => { F with ref := F.ref - 1 }
    return none
  else
    setFile f fun F => { F with ref := 0, type := .none }
    return some F

/-- The part of `sys_open` that fills in the new file. -/
def fileInit (f : Fin NFILE) (ip : Fin NINODE) (omode : BitVec 32) : M Unit := do
  let d := (← inode ip).din
  setFile f fun F =>
    { F with
      type := if d.type = .device then .device else .inode
      major := if d.type = .device then d.major else F.major
      off := if d.type = .device then F.off else 0
      ip := ip
      readable := omode &&& O_WRONLY = 0
      writable := omode &&& O_WRONLY ≠ 0 ∨ omode &&& O_RDWR ≠ 0 }

def fdalloc (p : Fin NPROC) (f : Fin NFILE) : M (Option (Fin NOFILE)) := do
  let s ← get
  match (List.finRange NOFILE).find? fun fd => (s.procs p).ofile fd = none with
  | some fd =>
    setProc p fun P => { P with ofile := Function.update P.ofile fd (some f) }
    return some fd
  | none => return none

/-- The current directory of a process. -/
def cwd (p : Fin NPROC) : M (Fin NINODE) := do
  match ((← get).procs p).cwd with
  | some ip => return ip
  | none => throw .kerneltrap

/-- The part of `fork` that copies a descriptor of the parent `p` to the child `q`. -/
def forkFd (p q : Fin NPROC) (i : ℕ) : M Unit := do
  if h : i < NOFILE then
    match ((← get).procs p).ofile ⟨i, h⟩ with
    | none => pure ()
    | some f =>
      filedup f
      setProc q fun P => { P with ofile := Function.update P.ofile ⟨i, h⟩ (some f) }
  else pure ()

/-- `fork`, as far as files go: the child, if there is a free slot. -/
def fork (p : Fin NPROC) : M (Option (Fin NPROC)) := do
  let s ← get
  match (List.finRange NPROC).find? fun q => (s.procs q).state = .unused with
  | some q =>
    Fallible.upto (forkFd p q) NOFILE
    let ip ← idup (← cwd p)
    setProc q fun P => { P with state := .used, cwd := some ip }
    return some q
  | none => return none

end Xv6.Fs
