import Mathlib.Tactic.Lemma
import Mathlib.Data.Nat.Notation
import Mathlib.Data.Nat.Bitwise

/-!
# Memory layout and page-table entries

The constants and macros of `kernel/riscv.h` and `kernel/memlayout.h` that the virtual-memory code
reads. A `uint64` is a natural number; `% 2 ^ 64` is written where the C expression can overflow.
-/

namespace Xv6

abbrev PGSIZE : Nat := 4096

abbrev PGSHIFT : Nat := 12

def PGROUNDUP (sz : Nat) : Nat := (sz + PGSIZE - 1) % 2 ^ 64 / PGSIZE * PGSIZE

def PGROUNDDOWN (a : Nat) : Nat := a / PGSIZE * PGSIZE

abbrev PTE_V : Nat := 1

abbrev PTE_R : Nat := 2

abbrev PTE_W : Nat := 4

abbrev PTE_X : Nat := 8

abbrev PTE_U : Nat := 16

/-- Shift a physical address to its place in an entry. -/
def PA2PTE (pa : Nat) : Nat := (pa >>> 12) <<< 10

def PTE2PA (pte : Nat) : Nat := ((pte >>> 10) <<< 12) % 2 ^ 64

def PTE_FLAGS (pte : Nat) : Nat := pte &&& 0x3FF

/-- The 9-bit index into the page table of a level. -/
def PX (level va : Nat) : Nat := (va >>> (PGSHIFT + 9 * level)) &&& 0x1FF

/-- One beyond the highest virtual address. -/
abbrev MAXVA : Nat := 2 ^ 38

/-- Where the trampoline page is mapped. -/
abbrev TRAMPOLINE : Nat := MAXVA - PGSIZE

/-- Where the trapframe of a process is mapped. -/
abbrev TRAPFRAME : Nat := TRAMPOLINE - PGSIZE

abbrev KERNBASE : Nat := 0x80000000

abbrev PHYSTOP : Nat := KERNBASE + 128 * 1024 * 1024

/-- The physical address of the trampoline page (`kernel.sym`). -/
abbrev trampoline : Nat := 0x80007000

/-- End of the kernel code (`kernel.sym`). -/
abbrev etext : Nat := 0x80008000

/-- First address after the kernel (`kernel.sym`). -/
abbrev «end» : Nat := 0x800235a8

/-- The frames `freerange(end, PHYSTOP)` puts into the allocator. -/
def Kinit (pa : Nat) : Prop := pa % PGSIZE = 0 ∧ «end» ≤ pa ∧ pa < PHYSTOP

/-- A page-aligned physical address that fits in an entry. -/
def Frame (pa : Nat) : Prop := pa % PGSIZE = 0 ∧ pa < 2 ^ 56

lemma Kinit.frame {pa} (k : Kinit pa) : Frame pa := by
  obtain ⟨al, -, hi⟩ := k
  refine ⟨al, ?_⟩
  simp only [PHYSTOP, KERNBASE] at hi
  omega

lemma pte_eq_add {pa f} (lt : f < 2 ^ 10) : PA2PTE pa ||| f = 2 ^ 10 * (pa / 2 ^ 12) + f := by
  rw [PA2PTE, Nat.shiftRight_eq_div_pow, Nat.shiftLeft_eq, Nat.mul_comm,
    Nat.two_pow_add_eq_or_of_lt lt]

@[simp]
lemma PTE2PA_or {pa f} (fr : Frame pa) (lt : f < 2 ^ 10) : PTE2PA (PA2PTE pa ||| f) = pa := by
  obtain ⟨al, hi⟩ := fr
  rw [pte_eq_add lt, PTE2PA, Nat.shiftRight_eq_div_pow, Nat.shiftLeft_eq]
  simp only [PGSIZE] at al
  omega

@[simp]
lemma PTE_FLAGS_or {pa f} (lt : f < 2 ^ 10) : PTE_FLAGS (PA2PTE pa ||| f) = f := by
  rw [pte_eq_add lt, PTE_FLAGS, show 0x3FF = 2 ^ 10 - 1 by rfl, Nat.and_two_pow_sub_one_eq_mod]
  omega

lemma and_flags {pte mask} (hm : 0x3FF &&& mask = mask) : pte &&& mask = PTE_FLAGS pte &&& mask := by
  rw [PTE_FLAGS, Nat.and_assoc, hm]

lemma pte_lt {pa f} (fr : Frame pa) (lt : f < 2 ^ 10) : PA2PTE pa ||| f < 2 ^ 64 := by
  obtain ⟨-, hi⟩ := fr
  rw [pte_eq_add lt]
  omega

lemma flags_or_valid {pte} (val : pte &&& PTE_V ≠ 0) : PTE_FLAGS pte ||| PTE_V = PTE_FLAGS pte := by
  rw [and_flags (by decide), PTE_V, Nat.and_one_is_mod] at val
  have odd : PTE_FLAGS pte = 2 ^ 1 * (PTE_FLAGS pte / 2) ||| PTE_V := by
    rw [← Nat.two_pow_add_eq_or_of_lt (by decide), PTE_V]
    omega
  rw [odd, Nat.or_assoc]
  rfl

lemma flags_lt {pte} : PTE_FLAGS pte < 2 ^ 10 := Nat.and_lt_two_pow _ (by decide)

lemma PTE2PA_clear {pte} (lt : pte < 2 ^ 64) : PTE2PA (pte &&& (2 ^ 64 - 1 - PTE_U)) = PTE2PA pte := by
  have shift : (pte &&& (2 ^ 64 - 1 - PTE_U)) >>> 10 = pte >>> 10 := by
    rw [Nat.shiftRight_and_distrib, show (2 ^ 64 - 1 - PTE_U) >>> 10 = 2 ^ 54 - 1 by decide]
    refine Nat.and_two_pow_sub_one_of_lt_two_pow ?_
    rw [Nat.shiftRight_eq_div_pow]
    omega
  rw [PTE2PA, shift, PTE2PA]

lemma PTE_FLAGS_clear {pte} :
    PTE_FLAGS (pte &&& (2 ^ 64 - 1 - PTE_U)) = PTE_FLAGS pte &&& (2 ^ 10 - 1 - PTE_U) := by
  rw [PTE_FLAGS, PTE_FLAGS, Nat.and_assoc, Nat.and_assoc]
  rfl

lemma PX_lt {level va} : PX level va < 512 :=
  Nat.lt_of_le_of_lt Nat.and_le_right (by decide)

lemma PX_eq {level va} : PX level va = va / 2 ^ (12 + 9 * level) % 512 := by
  rw [PX, Nat.shiftRight_eq_div_pow, show 0x1FF = 2 ^ 9 - 1 by rfl, Nat.and_two_pow_sub_one_eq_mod]

lemma PX_inj {va va'} (lt : va < 2 ^ 39) (lt' : va' < 2 ^ 39) (eq2 : PX 2 va = PX 2 va')
    (eq1 : PX 1 va = PX 1 va') (eq0 : PX 0 va = PX 0 va') : va / PGSIZE = va' / PGSIZE := by
  simp only [PX_eq, PGSIZE] at *
  omega

lemma PX_congr {level va va'} (eq : va / PGSIZE = va' / PGSIZE) : PX level va = PX level va' := by
  rw [PX_eq, PX_eq, Nat.pow_add, ← Nat.div_div_eq_div_mul, ← Nat.div_div_eq_div_mul]
  change va / PGSIZE / _ % _ = va' / PGSIZE / _ % _
  rw [eq]

/-- The number of pages of a memory of `sz` bytes. -/
def pages (sz : Nat) : Nat := (sz + PGSIZE - 1) / PGSIZE

lemma PGROUNDUP_eq {n} (lt : n < 2 ^ 63) : PGROUNDUP n = pages n * PGSIZE := by
  simp only [PGROUNDUP, pages, PGSIZE]
  omega

@[simp]
lemma pages_mul {n} : pages (n * PGSIZE) = n := by
  simp only [pages, PGSIZE]
  omega

@[simp]
lemma pages_zero : pages 0 = 0 := rfl

lemma le_pages (sz) : sz ≤ pages sz * PGSIZE := by
  simp only [pages, PGSIZE]
  omega

lemma pages_mono {sz sz'} (le : sz ≤ sz') : pages sz ≤ pages sz' := by
  simp only [pages, PGSIZE]
  omega

end Xv6
