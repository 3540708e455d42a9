import Xv6.Params
import Xv6.Vm.Copy

/-!
# `exec`

`exec` of `kernel/exec.c` and `sys_exec` of `kernel/sysfile.c` as programs over page frames. The file is
any sequence of bytes: what `readi` returns of it decides the path through the code. `exec` builds a
second address space beside the one of the process, and in the end frees one of the two. The inode is
locked while the program is loaded (`execLoad`), and is not used any more once that is done (`execFinish`).
-/

namespace Xv6

open Frames Prog

attribute [local irreducible] PTE2PA PA2PTE PTE_FLAGS PX ByteVec.getLE ByteVec.putLE

/-- The contents of a file. The size is a `uint`. -/
structure Executable where
  size : Nat
  data : Nat → UInt8
  size_lt : size < 2 ^ 32

/-- The bytes `readi` copies to a kernel address. -/
def Executable.readi (ip : Executable) (off n : Nat) : List UInt8 :=
  if off > ip.size ∨ (off + n) % 2 ^ 32 < off then []
  else (List.range (min n (ip.size - off))).map fun i => ip.data (off + i)

abbrev ELF_MAGIC : Nat := 0x464C457F

/-- The program header type of a segment to load. -/
abbrev ELF_PROG_LOAD : Nat := 1

abbrev sizeofElfhdr : Nat := 64

abbrev sizeofProghdr : Nat := 56

/-- A program header (`kernel/elf.h`), the fields `exec` reads. -/
structure Proghdr where
  type : Nat
  flags : Nat
  off : Nat
  vaddr : Nat
  filesz : Nat
  memsz : Nat

def Proghdr.parse (bs : List UInt8) : Proghdr :=
  let b : ByteVec sizeofProghdr := .ofBytes bs
  { type := b.getLE 0 4, flags := b.getLE 4 4, off := b.getLE 8 8, vaddr := b.getLE 16 8,
    filesz := b.getLE 32 8, memsz := b.getLE 40 8 }

def flags2perm (flags : Nat) : Nat :=
  let perm := if flags &&& 0x1 ≠ 0 then PTE_X else 0
  if flags &&& 0x2 ≠ 0 then perm ||| PTE_W else perm

def loadsegFrom (pagetable va : Nat) (ip : Executable) (offset sz i : Nat) : Kernel Int :=
  if i < sz then do
    let pa ← walkaddr pagetable ((va + i) % 2 ^ 64)
    if pa = 0 then
      .panic "loadseg: address should exist"
    else
      let n := if sz - i < PGSIZE then sz - i else PGSIZE
      let bs := ip.readi ((offset + i) % 2 ^ 32) n
      let page ← load pa
      store pa (page.putBytes 0 bs)
      if bs.length ≠ n then
        pure (-1)
      else
        loadsegFrom pagetable va ip offset sz (i + PGSIZE)
  else
    pure 0
termination_by sz - i
decreasing_by simp only [PGSIZE]; omega

/-- Load a segment into the pages from `va` on, which must be mapped. -/
def loadseg (pagetable va : Nat) (ip : Executable) (offset sz : Nat) : Kernel Int :=
  loadsegFrom pagetable va ip offset sz 0

/-- The loop of `exec` over the last `n` program headers. Returns whether all went well, and the size of
the program so far. -/
def loadSegments (pagetable : Nat) (ip : Executable) : Nat → Nat → Nat → Kernel (Bool × Nat)
  | 0, _, sz => pure (true, sz)
  | n + 1, off, sz => do
    let bs := ip.readi off sizeofProghdr
    if bs.length ≠ sizeofProghdr then
      pure (false, sz)
    else
      let ph := Proghdr.parse bs
      if ph.type ≠ ELF_PROG_LOAD then
        loadSegments pagetable ip n ((off + sizeofProghdr) % 2 ^ 32) sz
      else if ph.memsz < ph.filesz then
        pure (false, sz)
      else if (ph.vaddr + ph.memsz) % 2 ^ 64 < ph.vaddr then
        pure (false, sz)
      else if ph.vaddr % PGSIZE ≠ 0 then
        pure (false, sz)
      else
        let sz1 ← uvmalloc pagetable sz ((ph.vaddr + ph.memsz) % 2 ^ 64) (flags2perm ph.flags)
        if sz1 = 0 then
          pure (false, sz)
        else if (← loadseg pagetable ph.vaddr ip (ph.off % 2 ^ 32) (ph.filesz % 2 ^ 32)) < 0 then
          pure (false, sz1)
        else
          loadSegments pagetable ip n ((off + sizeofProghdr) % 2 ^ 32) sz1

def pageString (page : Page) : List UInt8 := (page.bytes 0 PGSIZE).takeWhile (· ≠ 0)

/-- `sp -= n` and `sp -= sp % 16` on a `uint64`. -/
def pushDown (sp n : Nat) : Nat :=
  let sp := (sp + 2 ^ 64 - n) % 2 ^ 64
  sp - sp % 16

/-- The loop of `exec` that pushes the argument strings, which are in the pages `argv`. -/
def pushStrings (pagetable stackbase : Nat) :
    List Nat → List Nat → Nat → Kernel (Option (List Nat × Nat))
  | [], ustack, sp => pure (some (ustack, sp))
  | arg :: argv, ustack, sp => do
    if ustack.length ≥ MAXARG then
      pure none
    else
      let page ← load arg
      let s := pageString page
      let sp := pushDown sp (s.length + 1)
      if sp < stackbase then
        pure none
      else if (← copyout pagetable sp (s ++ [0])) < 0 then
        pure none
      else
        pushStrings pagetable stackbase argv (ustack ++ [sp]) sp

/-- The bytes of an array of pointers. -/
def pointerBytes (ptrs : List Nat) : List UInt8 :=
  ptrs.flatMap fun p => (ByteVec.putLE (fun _ => 0 : ByteVec 8) 0 8 p).bytes 0 8

/-- Push the arguments: the strings, then the array of pointers to them. Returns `argc` and the stack pointer. -/
def pushArgs (pagetable stackbase : Nat) (argv : List Nat) (sp : Nat) : Kernel (Option (Nat × Nat)) := do
  match ← pushStrings pagetable stackbase argv [] sp with
  | none => pure none
  | some (ustack, sp) =>
    let sp := pushDown sp ((ustack.length + 1) * 8)
    if sp < stackbase then
      pure none
    else if (← copyout pagetable sp (pointerBytes (ustack ++ [0]))) < 0 then
      pure none
    else
      pure (some (ustack.length, sp))

/-- The user registers `exec` sets in a trapframe. -/
def setRegisters (page : Page) (epc sp : Nat) : Page :=
  ((page.putLE 120 8 sp).putLE 24 8 epc).putLE 48 8 sp

/-- The ELF header of a file, or `none` if it is too short. -/
def Executable.elfhdr (ip : Executable) : Option (ByteVec sizeofElfhdr) :=
  let hdr := ip.readi 0 sizeofElfhdr
  if hdr.length ≠ sizeofElfhdr then none else some (.ofBytes hdr)

/-- The image `exec` installs in a process, and `argc`, which it returns. -/
structure Image where
  pagetable : Nat
  sz : Nat
  argc : Nat

/-- The part of `exec` that reads the file: make an address space and load the program. Returns the entry
point, the page table and the size, or `none` on error. -/
def execLoad (ip : Executable) (trapframe : Nat) : Kernel (Option (Nat × Nat × Nat)) := do
  match ip.elfhdr with
  | none => pure none
  | some elf =>
    if elf.getLE 0 4 ≠ ELF_MAGIC then
      pure none
    else
      match ← procPagetable trapframe with
      | none => pure none
      | some pagetable =>
        let (ok, sz) ← loadSegments pagetable ip (elf.getLE 56 2) (elf.getLE 32 8 % 2 ^ 32) 0
        if ok = false then
          procFreepagetable pagetable sz
          pure none
        else
          pure (some (elf.getLE 24 8, pagetable, sz))

/-- The part of `exec` that makes the stack and pushes the arguments. Returns the size, `argc` and the stack pointer, or
`none` on error. -/
def execStack (pagetable sz : Nat) (argv : List Nat) : Kernel (Option (Nat × Nat × Nat)) := do
  let sz := PGROUNDUP sz
  let sz1 ← uvmalloc pagetable sz (sz + 2 * PGSIZE) PTE_W
  if sz1 = 0 then
    procFreepagetable pagetable sz
    pure none
  else
    uvmclear pagetable (sz1 - 2 * PGSIZE)
    match ← pushArgs pagetable (sz1 - PGSIZE) argv sz1 with
    | none =>
      procFreepagetable pagetable sz1
      pure none
    | some (argc, sp) => pure (some (sz1, argc, sp))

/-- The end of `exec`: commit to the new image. -/
def execCommit (entry sp trapframe oldpagetable oldsz : Nat) : Kernel Unit := do
  let frame ← load trapframe
  store trapframe (setRegisters frame entry sp)
  procFreepagetable oldpagetable oldsz

/-- What `exec` does after the program has been loaded. -/
def execFinish (entry pagetable sz : Nat) (argv : List Nat) (trapframe oldpagetable oldsz : Nat) : Kernel (Option Image) := do
  match ← execStack pagetable sz argv with
  | none => pure none
  | some (sz, argc, sp) =>
    execCommit entry sp trapframe oldpagetable oldsz
    pure (some ⟨pagetable, sz, argc⟩)

/-- Replace the address space of a process, which has the page table `oldpagetable` and the size
`oldsz`, by one made from a file. Returns the new image, or `none` on error. -/
def exec (ip : Executable) (argv : List Nat) (trapframe oldpagetable oldsz : Nat) : Kernel (Option Image) := do
  match ← execLoad ip trapframe with
  | none => pure none
  | some (entry, pagetable, sz) => execFinish entry pagetable sz argv trapframe oldpagetable oldsz

/-- The `uint64` at `addr`, or `none` on error. -/
def fetchaddr (pagetable sz addr : Nat) : Kernel (Option Nat) := do
  if addr ≥ sz ∨ (addr + 8) % 2 ^ 64 > sz then
    pure none
  else
    let (res, bs) ← copyin pagetable addr 8
    if res ≠ 0 then
      pure none
    else
      pure (some ((ByteVec.ofBytes bs : ByteVec 8).getLE 0 8))

/-- The loop of `sys_exec` that fetches the last `n` arguments. Returns the pages the strings are in, and
whether all went well. -/
def fetchArgs (pagetable sz : Nat) : Nat → Nat → Kernel (List Nat × Bool)
  | 0, _ => pure ([], false)
  | n + 1, uargv => do
    match ← fetchaddr pagetable sz uargv with
    | none => pure ([], false)
    | some uarg =>
      if uarg = 0 then
        pure ([], true)
      else
        match ← kalloc with
        | none => pure ([], false)
        | some mem =>
          let (len, buf) ← fetchstr pagetable uarg PGSIZE
          let page ← load mem
          store mem (page.putBytes 0 buf)
          if len < 0 then
            pure ([mem], false)
          else
            let (argv, ok) ← fetchArgs pagetable sz n ((uargv + 8) % 2 ^ 64)
            pure (mem :: argv, ok)

def freeArgs : List Nat → Kernel Unit
  | [] => pure ()
  | mem :: argv => do
    kfree mem
    freeArgs argv

/-- The system call: fetch the path and the arguments from the user, look up the file, and `exec` it. -/
def sysExec (namei : List UInt8 → Option Executable) (upath uargv trapframe pagetable sz : Nat) :
    Kernel (Option Image) := do
  let (len, path) ← fetchstr pagetable upath MAXPATH
  if len < 0 then
    pure none
  else
    let (argv, ok) ← fetchArgs pagetable sz MAXARG uargv
    if ok then
      match namei (path.takeWhile (· ≠ 0)) with
      | none =>
        freeArgs argv
        pure none
      | some ip =>
        let res ← exec ip argv trapframe pagetable sz
        freeArgs argv
        pure res
    else
      freeArgs argv
      pure none

end Xv6
