import Mathlib.Data.List.GetD
import Xv6.Fs.File
import Xv6.Mkfs.Mkfs

/-!
# Files on an image under construction

The image is seen as a disk of the kernel whose free map says which blocks `mkfs` has taken so far. `Holds D i c` says that
inode `i` is a file with the bytes `c`: it has the blocks for them and no others, and the rest of its last block is zero. A
round of the loop of `iappend` takes the blocks it needs (`Ext`) and stores some bytes (`Holds.append`).
-/

namespace Xv6.Mkfs

open Fs

/-- The super block, as far as the allocation of blocks depends on it. -/
def super : Superblock := ⟨FSSIZE, nblocks, NINODES, by decide, by decide, by decide, by decide⟩

@[simp]
lemma super_nmeta : super.nmeta = nmeta := rfl

/-- Inode `i` is a file with the bytes `c`. -/
structure Holds (D : Disk) (i : ℕ) (c : List UInt8) : Prop where
  size : (D.inodes i).size = c.length
  small : c.length ≤ MAXFILE * BSIZE
  slot : ∀ {k}, k < MAXFILE → (D.slots super (i, slotOf k) ≠ 0 ↔ k * BSIZE < c.length)
  indirect : D.slots super (i, .addr NDIRECT) ≠ 0 ↔ NDIRECT * BSIZE < c.length
  byte : ∀ {o}, D.slots super (i, slotOf (o / BSIZE)) ≠ 0 → o / BSIZE < MAXFILE → D.byte super i o = c.getD o 0

/-- Blocks have been taken for block `fbn` of inode `i` and for the indirect block that it needs. -/
structure Ext (i fbn : ℕ) (D D' : Disk) : Prop where
  others : ∀ j, j ≠ i → D'.inodes j = D.inodes j
  self : ∃ addrs, D'.inodes i = { D.inodes i with addrs := addrs }
  old : ∀ {k}, D.slots super k ≠ 0 → D'.slots super k = D.slots super k
  new : ∀ {k}, D'.slots super k ≠ 0 → D.slots super k = 0 → k = (i, slotOf fbn) ∨ k = (i, .addr NDIRECT) ∧ NDIRECT ≤ fbn
  byte : ∀ {j o}, D.slots super (j, slotOf (o / BSIZE)) ≠ 0 → o / BSIZE < MAXFILE →
    D'.byte super j o = D.byte super j o
  fresh : ∀ {o}, D.slots super (i, slotOf fbn) = 0 → D'.slots super (i, slotOf fbn) ≠ 0 → o / BSIZE = fbn →
    D'.byte super i o = 0

/-- The disk after the size of an inode has been changed. -/
def resize (D : Disk) (i size : ℕ) : Disk :=
  { D with inodes := Function.update D.inodes i { D.inodes i with size := size } }

variable {D D' : Disk} {i j k fbn size b : ℕ} {c bs : List UInt8}

namespace Ext

lemma refl : Ext i fbn D D where
  others _ _ := rfl
  self := ⟨_, rfl⟩
  old _ := rfl
  new ne eq := absurd eq ne
  byte _ _ := rfl
  fresh eq ne := absurd eq ne

lemma trans {D'' : Disk} (e : Ext i fbn D D') (f : Ext i fbn D' D'') (lt : fbn < MAXFILE) : Ext i fbn D D'' where
  others j ne := (f.others j ne).trans (e.others j ne)
  self := by
    obtain ⟨a, eq⟩ := e.self
    obtain ⟨a', eq'⟩ := f.self
    exact ⟨a', by rw [eq', eq]⟩
  old ne := by
    have eq := e.old ne
    rw [f.old (eq ▸ ne), eq]
  new {k} ne eq := by
    by_cases mid : D'.slots super k = 0
    · exact f.new ne mid
    · exact e.new mid eq
  byte ne lt := by
    have eq := e.old ne
    rw [f.byte (eq ▸ ne) lt, e.byte ne lt]
  fresh {o} eq ne div := by
    by_cases mid : D'.slots super (i, slotOf fbn) = 0
    · exact f.fresh mid ne div
    · rw [f.byte (by rwa [div]) (by rwa [div])]
      exact e.fresh eq mid div

lemma insert {l : Slot} (others : ∀ j, j ≠ i → D'.inodes j = D.inodes j)
    (self : ∃ addrs, D'.inodes i = { D.inodes i with addrs := addrs })
    (slots : D'.slots super = Function.update (D.slots super) (i, l) b) (empty : D.slots super (i, l) = 0)
    (which : l = slotOf fbn ∨ l = .addr NDIRECT ∧ NDIRECT ≤ fbn)
    (data : ∀ j l', l' ≠ .addr NDIRECT → D.slots super (j, l') ≠ 0 →
      D'.blocks (D.slots super (j, l')) = D.blocks (D.slots super (j, l')))
    (zero : D'.blocks b = fun _ => 0) : Ext i fbn D D' := by
  have old : ∀ {k}, D.slots super k ≠ 0 → D'.slots super k = D.slots super k := by
    intro k ne
    rw [slots, Function.update_of_ne]
    rintro rfl
    exact ne empty
  refine ⟨others, self, old, fun {k} ne eq => ?_, fun ne lt => ?_, fun {o} eq ne div => ?_⟩
  · have here : k = (i, l) := by
      by_contra out
      rw [slots, Function.update_of_ne out] at ne
      exact ne eq
    rw [here]
    rcases which with rfl | ⟨rfl, le⟩
    · exact .inl rfl
    · exact .inr ⟨rfl, le⟩
  · rw [Disk.byte, Disk.byte, old ne, data _ _ (slotOf_ok lt).2 ne]
  · have here : (i, slotOf fbn) = (i, l) := by
      by_contra out
      rw [slots, Function.update_of_ne out] at ne
      exact ne eq
    rw [Disk.byte, div, slots, here, Function.update_self, zero]
    simp [ByteVec.get8]

lemma slots_other (e : Ext i fbn D D') (ne : j ≠ i) (l : Slot) : D'.slots super (j, l) = D.slots super (j, l) := by
  by_cases eq : D.slots super (j, l) = 0
  · by_contra no
    rcases e.new (fun zero => no (zero.trans eq.symm)) eq with same | ⟨same, -⟩ <;> exact ne (congrArg Prod.fst same)
  · exact e.old eq

end Ext

/-! ### Storing bytes -/

lemma inodes_resize : (resize D i size).inodes i = { D.inodes i with size := size } := Function.update_self _ _ _

lemma inodes_resize_ne (ne : j ≠ i) : (resize D i size).inodes j = D.inodes j := Function.update_of_ne ne _ _

lemma slots_resize : (resize D i size).slots super = D.slots super := by
  refine Disk.slots_fields (fun m => ?_) (fun m => ?_) rfl <;> by_cases eq : m = i
  · simp [resize, eq]
  · simp [resize, eq]
  · simp [resize, eq]
  · simp [resize, eq]

lemma byte_resize (o : ℕ) : (resize D i size).byte super j o = D.byte super j o := by
  rw [Disk.byte, Disk.byte, slots_resize]
  rfl

lemma room_le (room : c.length % BSIZE + bs.length ≤ BSIZE) :
    c.length / BSIZE * BSIZE ≤ c.length ∧ c.length + bs.length ≤ (c.length / BSIZE + 1) * BSIZE := by
  have := Nat.div_add_mod c.length BSIZE
  rw [Nat.add_mul, Nat.mul_comm]
  omega

/-- The files after a round. -/
structure Stored (i : ℕ) (bs : List UInt8) (c : List UInt8) (D D' : Disk) : Prop where
  ext : Ext i (c.length / BSIZE) D D'
  sound : Sound super D'
  lt : c.length / BSIZE < MAXFILE
  here : D'.slots super (i, slotOf (c.length / BSIZE)) ≠ 0
  indirect : NDIRECT ≤ c.length / BSIZE → D'.slots super (i, .addr NDIRECT) ≠ 0
  pos : bs ≠ []
  room : c.length % BSIZE + bs.length ≤ BSIZE

/-- The disk after a round has stored its bytes. -/
def store (D : Disk) (i : ℕ) (c bs : List UInt8) : Disk := resize (D.put super i c.length bs) i (c ++ bs).length

namespace Stored

lemma slots_store (s : Stored i bs c D D') : (store D' i c bs).slots super = D'.slots super := by
  rw [store, slots_resize, slots_put s.sound s.lt]

lemma holds (s : Stored i bs c D D') (h : Holds D i c) : Holds (store D' i c bs) i (c ++ bs) := by
  obtain ⟨below, above⟩ := room_le s.room
  have pos : 0 < bs.length := List.length_pos_iff.2 s.pos
  have len : (c ++ bs).length = c.length + bs.length := List.length_append
  constructor
  case size => simp [store, resize]
  case small =>
    have : (c.length / BSIZE + 1) * BSIZE ≤ MAXFILE * BSIZE := Nat.mul_le_mul_right _ s.lt
    omega
  case slot =>
    intro k lt
    rw [s.slots_store, len]
    constructor
    · intro ne
      by_cases eq : D.slots super (i, slotOf k) = 0
      · rcases s.ext.new ne eq with same | ⟨same, -⟩
        · rw [slotOf_inj (congrArg Prod.snd same)]
          omega
        · exact absurd (congrArg Prod.snd same) (slotOf_ok lt).2
      · have := (h.slot lt).1 eq
        omega
    · intro within
      by_cases old : k * BSIZE < c.length
      · have ne := (h.slot lt).2 old
        rwa [s.ext.old ne]
      · have eq : k = c.length / BSIZE := by
          simp only [BSIZE] at *
          omega
        rw [eq]
        exact s.here
  case indirect =>
    rw [s.slots_store, len]
    constructor
    · intro ne
      by_cases eq : D.slots super (i, .addr NDIRECT) = 0
      · rcases s.ext.new ne eq with same | ⟨-, le⟩
        · exact absurd (congrArg Prod.snd same).symm (slotOf_ok s.lt).2
        · have := Nat.mul_le_mul_right BSIZE le
          omega
      · have := h.indirect.1 eq
        omega
    · intro within
      by_cases old : NDIRECT * BSIZE < c.length
      · have ne := h.indirect.2 old
        rwa [s.ext.old ne]
      · refine s.indirect ?_
        simp only [NDIRECT, BSIZE] at *
        omega
  case byte =>
    intro o ne lt
    rw [s.slots_store] at ne
    rw [store, byte_resize]
    by_cases here : c.length ≤ o ∧ o < c.length + bs.length
    · rw [byte_put s.sound s.lt s.room here.1 here.2, List.getD_append_right _ _ _ _ here.1]
    · rw [byte_put_ne s.sound s.lt ne (by tauto)]
      have same : (c ++ bs).getD o 0 = c.getD o 0 := by
        by_cases lo : o < c.length
        · rw [List.getD_append _ _ _ _ lo]
        · rw [List.getD_eq_default _ _ (by omega), List.getD_eq_default _ _ (by omega)]
      rw [same]
      by_cases eq : D.slots super (i, slotOf (o / BSIZE)) = 0
      · rcases s.ext.new ne eq with key | ⟨key, -⟩
        · have div := slotOf_inj (congrArg Prod.snd key)
          rw [div] at eq
          rw [s.ext.fresh eq s.here div, List.getD_eq_default]
          by_contra lo
          refine (h.slot s.lt).2 ?_ eq
          have := Nat.div_mul_le_self o BSIZE
          rw [div] at this
          omega
        · exact absurd (congrArg Prod.snd key) (slotOf_ok lt).2
      · rw [s.ext.byte eq lt, h.byte eq lt]

lemma other (s : Stored i bs c D D') {c' : List UInt8} (h : Holds D j c') (ne : j ≠ i) : Holds (store D' i c bs) j c' := by
  have slots : ∀ l, (store D' i c bs).slots super (j, l) = D.slots super (j, l) := by
    intro l
    rw [s.slots_store, s.ext.slots_other ne l]
  constructor
  case size =>
    rw [← h.size, ← s.ext.others j ne]
    simp [store, resize, Function.update_of_ne ne, Disk.put]
  case small => exact h.small
  case slot =>
    intro k lt
    rw [slots]
    exact h.slot lt
  case indirect =>
    rw [slots]
    exact h.indirect
  case byte =>
    intro o nz lt
    rw [slots] at nz
    rw [store, byte_resize, byte_put_ne s.sound s.lt (by rwa [s.ext.slots_other ne]) (by tauto), s.ext.byte nz lt, h.byte nz lt]

end Stored

end Xv6.Mkfs
