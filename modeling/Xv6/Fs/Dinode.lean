import Xv6.Fs.Inode

/-!
# Inodes on the disk

A block of inodes holds `IPB` of them, each a `struct dinode` of 64 bytes with its numbers least significant byte first.
What is stored in one place is read back from it, and the other inodes of the block stay as they are.
-/

namespace Xv6.Fs

abbrev DISIZE : ℕ := 64

abbrev IPB : ℕ := BSIZE / DISIZE

/-- `struct dinode`, as the numbers it holds. -/
@[ext]
structure RawDinode where
  type : ℕ
  major : ℕ
  minor : ℕ
  nlink : ℕ
  size : ℕ
  addrs : ℕ → ℕ

/-- The types of files (`stat.h`). -/
abbrev T_DIR : ℕ := 1

@[inherit_doc T_DIR]
abbrev T_FILE : ℕ := 2

@[inherit_doc T_DIR]
abbrev T_DEVICE : ℕ := 3

/-- The type with a number; the kernel writes no other numbers than these. -/
def FileType.ofNumber : ℕ → FileType
  | 0 => .free
  | 1 => .dir
  | 2 => .file
  | _ => .device

namespace RawDinode

/-- The fields as the kernel uses them. -/
def toDinode (d : RawDinode) : Dinode :=
  ⟨.ofNumber d.type, d.major, d.minor, d.nlink, d.size, d.addrs⟩

/-- The numbers fit the fields. -/
structure Ok (d : RawDinode) : Prop where
  type : d.type < 2 ^ 16
  major : d.major < 2 ^ 16
  minor : d.minor < 2 ^ 16
  nlink : d.nlink < 2 ^ 16
  size : d.size < 2 ^ 32
  addrs : ∀ k, d.addrs k < 2 ^ 32
  last : ∀ k, NDIRECT < k → d.addrs k = 0

/-- The inode at place `k` of a block. -/
def get (b : Block) (k : ℕ) : RawDinode where
  type := b.getLE (DISIZE * k) 2
  major := b.getLE (DISIZE * k + 2) 2
  minor := b.getLE (DISIZE * k + 4) 2
  nlink := b.getLE (DISIZE * k + 6) 2
  size := b.getLE (DISIZE * k + 8) 4
  addrs i := if i ≤ NDIRECT then b.getLE (DISIZE * k + 12 + 4 * i) 4 else 0

/-- Store an inode at place `k` of a block. -/
def put (b : Block) (k : ℕ) (d : RawDinode) : Block :=
  let b := b.putLE (DISIZE * k) 2 d.type
  let b := b.putLE (DISIZE * k + 2) 2 d.major
  let b := b.putLE (DISIZE * k + 4) 2 d.minor
  let b := b.putLE (DISIZE * k + 6) 2 d.nlink
  let b := b.putLE (DISIZE * k + 8) 4 d.size
  b.putWords (DISIZE * k + 12) (NDIRECT + 1) d.addrs

variable {b : Block} {d : RawDinode} {j k : ℕ}

lemma get_ok : (get b k).Ok where
  type := ByteVec.getLE_lt
  major := ByteVec.getLE_lt
  minor := ByteVec.getLE_lt
  nlink := ByteVec.getLE_lt
  size := ByteVec.getLE_lt
  addrs i := by
    simp only [get]
    split
    · exact ByteVec.getLE_lt
    · decide
  last i lt := if_neg (by omega)

lemma get_zero : get (fun _ => 0) k = ⟨0, 0, 0, 0, 0, fun _ => 0⟩ := by
  simp [get]

lemma get_put (ok : d.Ok) (lt : k < IPB) : get (put b k d) k = d := by
  have fit : DISIZE * k + 64 ≤ 1024 := by
    simp only [IPB, DISIZE, BSIZE] at *
    omega
  simp only [get, put]
  generalize DISIZE * k = o at fit
  ext i <;> dsimp only
  case type =>
    rw [ByteVec.getLE_putWords_disj (by omega)]
    repeat rw [ByteVec.getLE_putLE_disj (by omega)]
    rw [ByteVec.getLE_putLE (by simp only [BSIZE]; omega)]
    exact Nat.mod_eq_of_lt ok.type
  case major =>
    rw [ByteVec.getLE_putWords_disj (by omega)]
    repeat rw [ByteVec.getLE_putLE_disj (by omega)]
    rw [ByteVec.getLE_putLE (by simp only [BSIZE]; omega)]
    exact Nat.mod_eq_of_lt ok.major
  case minor =>
    rw [ByteVec.getLE_putWords_disj (by omega)]
    repeat rw [ByteVec.getLE_putLE_disj (by omega)]
    rw [ByteVec.getLE_putLE (by simp only [BSIZE]; omega)]
    exact Nat.mod_eq_of_lt ok.minor
  case nlink =>
    rw [ByteVec.getLE_putWords_disj (by omega)]
    repeat rw [ByteVec.getLE_putLE_disj (by omega)]
    rw [ByteVec.getLE_putLE (by simp only [BSIZE]; omega)]
    exact Nat.mod_eq_of_lt ok.nlink
  case size =>
    rw [ByteVec.getLE_putWords_disj (by omega), ByteVec.getLE_putLE (by simp only [BSIZE]; omega)]
    exact Nat.mod_eq_of_lt ok.size
  case addrs =>
    by_cases le : i ≤ NDIRECT
    · rw [if_pos le, ByteVec.getLE_putWords (by simp only [NDIRECT, BSIZE]; omega) (by omega), Nat.mod_eq_of_lt (ok.addrs i)]
    · rw [if_neg le, ok.last i (by omega)]

lemma getLE_put {o len : ℕ} (ne : j ≠ k) (le : o + len ≤ DISIZE) :
    (put b k d).getLE (DISIZE * j + o) len = b.getLE (DISIZE * j + o) len := by
  have disj : DISIZE * j + 64 ≤ DISIZE * k ∨ DISIZE * k + 64 ≤ DISIZE * j := by
    simp only [DISIZE]
    omega
  simp only [put]
  generalize DISIZE * k = p at disj
  generalize DISIZE * j = q at disj
  simp only [DISIZE] at le
  rw [ByteVec.getLE_putWords_disj (by simp only [NDIRECT]; omega)]
  repeat rw [ByteVec.getLE_putLE_disj (by omega)]

lemma get_put_ne (ne : j ≠ k) : get (put b k d) j = get b j := by
  simp only [get, mk.injEq]
  refine ⟨getLE_put (o := 0) ne (by decide), getLE_put ne (by decide), getLE_put ne (by decide), getLE_put ne (by decide),
    getLE_put ne (by decide), funext fun i => ?_⟩
  split
  · rw [Nat.add_assoc, getLE_put ne (by simp only [NDIRECT, DISIZE] at *; omega)]
  · rfl

end RawDinode

end Xv6.Fs
