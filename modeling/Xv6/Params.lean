import Mathlib.Algebra.GroupWithZero.Nat

/-!
# Kernel parameters

The constants of `kernel/param.h` and `kernel/fs.h` that the models below read. They are reducible
and carry a `simp` lemma with their value where the arithmetic of a proof depends on it.
-/

namespace Xv6

/-- Maximum number of blocks any file-system operation writes (`param.h`). -/
abbrev MAXOPBLOCKS : Nat := 10

/-- Maximum number of data blocks in the on-disk log (`param.h`). -/
abbrev LOGSIZE : Nat := MAXOPBLOCKS * 3

/-- Size of the disk block cache (`param.h`). -/
abbrev NBUF : Nat := MAXOPBLOCKS * 3

/-- Size of a disk block in bytes (`fs.h`). -/
abbrev BSIZE : Nat := 1024

/-- Maximum number of processes (`param.h`). -/
abbrev NPROC : Nat := 64

instance : NeZero NPROC := ⟨by decide⟩

theorem NPROC_pos : 0 < NPROC := by decide

/-- Maximum number of CPUs (`param.h`). -/
abbrev NCPU : Nat := 8

/-- Open files per process (`param.h`). -/
abbrev NOFILE : Nat := 16

/-- Open files per system (`param.h`). -/
abbrev NFILE : Nat := 100

/-- Maximum number of arguments of `exec` (`param.h`). -/
abbrev MAXARG : Nat := 32

/-- Maximum length of a path name (`param.h`). -/
abbrev MAXPATH : Nat := 128

end Xv6
